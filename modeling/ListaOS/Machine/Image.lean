/-
  The kernel's image, from the disk to the running kernel.

  boot.s and init.s bring KERNEL.SYS to 0x20000, and protect_mode_start maps it at 0xc0000000. The
  image's variables (.data, and .bss behind it) begin at an offset `d`; those that the model
  keeps beside the memory lie there too. After boot the kernel calls mm.c and page_fault and stores
  to its variables (`ImageOp`). This keeps the pages that the calls spare, and stores to the
  bitmap, the page table and the variables only (`Kept`). So the file's bytes in front of `d`
  stay readable: `image_in_place`.
-/
import ListaOS.Machine.Calls
import ListaOS.Boot.Mbr
import ListaOS.Boot.Bss

namespace ListaOS

open Lib Mm Paging Boot Interrupt Console Stdio

/-! ## The running kernel -/

/-- The 16 pages of the image. -/
def kernelPages : Set Nat := {v | 0xc0000 ≤ v ∧ v < 0xc0010}

/-- The variables from offset `d` on. -/
def variableCells (d : Nat) : Set Nat := {a | 0x20000 + d ≤ a ∧ a < 0x30000}

/-- A call, or a store to the byte at offset `i` of the image. -/
inductive ImageOp where
  | call (c : MmCall)
  | store (i : Nat) (x : BitVec 8)

/-- A call edits none of the pages `P`, and a store is to a variable. -/
def ImageOp.Spares (P : Set Nat) (d : Nat) : ImageOp → Prop
  | .call c => c.Edits ∧ ∀ v ∈ P, c.Spares v
  | .store i _ => d ≤ i ∧ i < 0x10000

def Machine.imageStep (s : Machine × List (BitVec 32)) :
    ImageOp → Option (Machine × List (BitVec 32))
  | .call c => Machine.call s c
  | .store i x => (s.1.storeByte (0xc0000000 + BitVec.ofNat 32 i, x)).map fun t => (t, s.2)

theorem toNat_kernelAddr {i : Nat} (hi : i < 0x10000) :
    (0xc0000000 + BitVec.ofNat 32 i).toNat = 0xc0000000 + i := by
  rw [BitVec.toNat_add, BitVec.toNat_ofNat]
  simp only [BitVec.reduceToNat]
  omega

theorem kernelAddr_mem {i : Nat} (hi : i < 0x10000) :
    pageNumber (0xc0000000 + BitVec.ofNat 32 i) ∈ kernelPages := by
  show 0xc0000 ≤ pageNumber _ ∧ pageNumber _ < 0xc0010
  rw [pageNumber, toNat_kernelAddr hi]
  omega

/-! ## What it keeps -/

/-- The image is mapped as protect_mode_start does it. -/
def MapsImage (s : Machine) : Prop :=
  ∀ i < 0x10000, s.mmu.translate (0xc0000000 + BitVec.ofNat 32 i) = some (0x20000 + i)

/-- From `s` to `t` the pages in `P` stay, and so does the rest of memory. -/
structure Kept (P : Set Nat) (d : Nat) (s t : Machine) : Prop where
  rep : ∃ ms, Represents t ms
  walk : ∀ v ∈ P, t.mmu.walk v = s.mmu.walk v
  writes : Mem.WritesIn (bitmapCells ∪ pageTableCells ∪ variableCells d) s.mmu.mem t.mmu.mem

namespace Kept

variable {P : Set Nat} {d : Nat} {s t : Machine}

theorem refl {ms : MmState} (h : Represents s ms) : Kept P d s s :=
  ⟨⟨ms, h⟩, fun _ _ => rfl, Mem.WritesIn.refl _ _⟩

theorem translate (h : Kept P d s t) {va : BitVec 32} (hva : pageNumber va ∈ P) :
    t.mmu.translate va = s.mmu.translate va := by
  rw [Mmu.translate, Mmu.translate]
  exact congrArg _ (h.walk _ hva)

theorem call (hP : ∀ v ∈ P, v < 2 ^ 20) (h : Kept P d s t) (out : List (BitVec 32)) {c : MmCall}
    (hc : c.Edits) (hspare : ∀ v ∈ P, c.Spares v) :
    ∃ u, Machine.call (t, out) c = some u ∧ Kept P d s u.1 := by
  obtain ⟨ms, hrep⟩ := h.rep
  obtain ⟨u, hcall, hu, hw⟩ := hrep.call out hc
  refine ⟨_, hcall, ⟨_, hu⟩, fun v hv => ?_, h.writes.trans (hw.mono Set.subset_union_left)⟩
  rw [← h.walk v hv]
  exact hrep.walk_eq hu (hP v hv) (Mm.read_call ms out (hspare v hv))

/-- A store to a variable. -/
theorem store (hP : ∀ v ∈ P, v < 2 ^ 20) (hkernel : kernelPages ⊆ P) (hs : MapsImage s)
    (h : Kept P d s t) {i : Nat} (hd : d ≤ i) (hi : i < 0x10000) (x : BitVec 8) :
    ∃ u, t.storeByte (0xc0000000 + BitVec.ofNat 32 i, x) = some u ∧ Kept P d s u := by
  obtain ⟨ms, hrep⟩ := h.rep
  obtain ⟨hrep', hwalk, -⟩ := hrep.writeByte (a := 0x20000 + i) (.inl (by omega)) x
  have htranslate := (h.translate (hkernel (kernelAddr_mem hi))).trans (hs i hi)
  have hcell : 0x20000 + i ∈ bitmapCells ∪ pageTableCells ∪ variableCells d :=
    .inr ⟨by omega, by omega⟩
  refine ⟨t.writePhys (0x20000 + i) x, ?_, ⟨ms, hrep'⟩,
    fun v hv => (hwalk v (hP v hv)).trans (h.walk v hv), h.writes.trans (Mem.WritesIn.write _ x hcell)⟩
  rw [Machine.storeByte, Machine.touch, htranslate]
  rfl

/-- A byte below the page table, in a page that is kept and not in a variable. -/
theorem readByte (h : Kept P d s t) {va : BitVec 32} (hva : pageNumber va ∈ P) {a : Nat}
    (ha : s.mmu.translate va = some a) (hlow : a < 0x200000) (hd : a ∉ variableCells d) :
    t.mmu.readByte va = some (s.mmu.mem.read a) := by
  rw [Mmu.readByte, h.translate hva, ha, Option.map_some, h.writes.read a]
  rintro ((⟨hlo, -⟩ | ⟨hlo, -⟩) | hin)
  · omega
  · omega
  · exact hd hin

end Kept

/-- Any run that spares the pages. -/
theorem run_kept {P : Set Nat} {d : Nat} (hP : ∀ v ∈ P, v < 2 ^ 20) (hkernel : kernelPages ⊆ P)
    {s : Machine} {ms : MmState} (hs : Represents s ms) (himage : MapsImage s) (ops : List ImageOp)
    (hops : ∀ op ∈ ops, op.Spares P d) :
    ∃ t out, run Machine.imageStep (s, []) ops = some (t, out) ∧ Kept P d s t := by
  have hstep : ∀ u : Machine × List (BitVec 32), Kept P d s u.1 → ∀ op ∈ ops,
      ∃ t, Machine.imageStep u op = some t ∧ Kept P d s t.1 := by
    rintro ⟨u, out⟩ hu op hop
    have hspare := hops op hop
    cases op with
    | call c => exact hu.call hP out hspare.1 hspare.2
    | store i x =>
      obtain ⟨t, ht, hkept⟩ := hu.store hP hkernel himage hspare.1 hspare.2 x
      exact ⟨(t, out), by rw [Machine.imageStep, ht]; rfl, hkept⟩
  obtain ⟨⟨t, out⟩, hrun, ht⟩ := exists_run_invariant _ hstep (s := (s, [])) (Kept.refl hs)
  exact ⟨t, out, hrun, ht⟩

/-! ## The image -/

/-- main leaves the kernel's pages where protect_mode_start mapped them. -/
theorem mapsImage_main {info : VbeModeInfo} (ram : Mem (BitVec 8)) {s : Machine}
    (hwalk : ∀ v : Fin (2 ^ 20), s.mmu.walk v = mainWalk info v) : MapsImage s := by
  intro i hi
  obtain ⟨hlo, hhi⟩ := kernelAddr_mem hi
  have hmain : mainWalk info (pageNumber (0xc0000000 + BitVec.ofNat 32 i)) =
      bootWalk (pageNumber (0xc0000000 + BitVec.ofNat 32 i)) := by
    unfold mainWalk
    rw [if_neg (by omega), if_neg (by omega)]
  have hpage := hwalk ⟨pageNumber (0xc0000000 + BitVec.ofNat 32 i), pageNumber_lt _⟩
  have hboot := walk_protectModeStart ram ⟨pageNumber (0xc0000000 + BitVec.ofNat 32 i), pageNumber_lt _⟩
  rw [← translate_kernel ram hi, Mmu.translate, Mmu.translate]
  exact congrArg _ ((hpage.trans hmain).trans hboot.symm)

/-- Physical memory between the GDT and the page directory, from the end of real mode to main. -/
theorem read_kernelRegion {responses : List Response} {m : Mem (BitVec 8)}
    (hlen : (records responses).length ≤ 204) {s : Machine}
    (hw : Mem.WritesIn (idtCells ∪ accessCells) (protectModeStart (probe responses m)).mem s.mmu.mem)
    {a : Nat} (ha : a ∈ kernelRegion) : s.mmu.mem.read a = m.read a := by
  obtain ⟨hlo, hhi⟩ := ha
  rw [hw.read a ?_, protectModeStart_region _ hlo (by omega), (probed_of_le m hlen).writes.read a ?_]
  · rintro ⟨-, h⟩
    omega
  · rintro (⟨-, h⟩ | h)
    · omega
    · have hhigh : 0x200000 ≤ a := h
      omega

/-- The image of a volume whose RAM also has the mode block. -/
def withBlock (m : Mem (BitVec 8)) : Mem (BitVec 8) :=
  Mem.fresh fun a => if a < 0x20000 then vgaRam.read a else m.read a

end ListaOS
