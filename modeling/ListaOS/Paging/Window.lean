/-
  Edits of the page table through its own window.

  `PageOp` is a call of kernel_page_mmap or kernel_page_unmap. Each is one store at
  0xffc00000 + 4 * vpage_index, translated by the table it edits (`pageStep_eq`).
  `selfMap_run` is over every sequence of calls on pages below 0xffbff after boot.
  `IsArray` relates this memory to the array `pageTable[vpage]` of Mm.Basic: with the self
  map, an edit of the array is an edit through the window.
-/
import ListaOS.Paging.Boot
import ListaOS.Lib.Run
import ListaOS.Mm.Basic

namespace ListaOS.Paging

open Lib

inductive PageOp where
  | mmap (phyPageIndex vpageIndex : BitVec 32) (flags : BitVec 8)
  | unmap (vpageIndex : BitVec 32)

def pageStep (s : Mmu) : PageOp → Option Mmu
  | .mmap p v flags => kernelPageMmap s p v flags
  | .unmap v => kernelPageUnmap s v

namespace PageOp

/-- The page the call is about. -/
def vpage : PageOp → Nat
  | .mmap _ v _ => v.toNat
  | .unmap v => v.toNat

/-- The entry stored. -/
def pte : PageOp → BitVec 32
  | .mmap p _ flags => p <<< 12 ||| flags.setWidth 32
  | .unmap _ => 0

/-- What the walk of the page yields afterwards: frame and flags. -/
def mapping : PageOp → Option (Nat × Nat)
  | .mmap p _ flags =>
    if flags &&& pageFlagPresent = 0 then none else some (p.toNat % 2 ^ 20, flags.toNat)
  | .unmap _ => none

theorem entry_pte (op : PageOp) : Mmu.entry op.pte = op.mapping := by
  cases op with
  | unmap v => exact Mmu.entry_zero
  | mmap p v flags =>
    have hp : (p <<< 12).toNat = 0x1000 * (p.toNat % 2 ^ 20) := by
      rw [BitVec.toNat_shiftLeft, Nat.shiftLeft_eq]
      omega
    have hf : (flags.setWidth 32).toNat = flags.toNat :=
      BitVec.toNat_setWidth_of_le (by decide)
    have hlow : flags.setWidth 32 &&& 1 = 0 ↔ flags &&& pageFlagPresent = 0 := by
      rw [← BitVec.toNat_inj, ← BitVec.toNat_inj, BitVec.toNat_and, BitVec.toNat_and, hf]
      rfl
    rw [pte, mapping, Mmu.entry_or hp (by rw [hf]; omega), hf]
    exact if_congr hlow rfl rfl

end PageOp

/-- The self map of the kernel. -/
abbrev KernelMap (s : Mmu) : Prop := SelfMap 0x200000 0xffc00 s

/-- A call is one store into its page's entry. -/
theorem pageStep_eq {s : Mmu} (h : KernelMap s) {op : PageOp} (hv : op.vpage < 2 ^ 20) :
    pageStep s op = some { s with mem := s.mem.store32 (0x200000 + 4 * op.vpage) op.pte } := by
  have hva : ∀ v : BitVec 32, v.toNat < 2 ^ 20 →
      (pageTableVbase + 4 * v).toNat = 0x1000 * 0xffc00 + 4 * v.toNat := by
    intro v hv
    rw [BitVec.toNat_add, BitVec.toNat_mul, show pageTableVbase.toNat = 0xffc00000 from rfl,
      show (4 : BitVec 32).toNat = 4 from rfl]
    omega
  cases op with
  | mmap p v flags => exact h.store_window hv (hva v hv) _
  | unmap v => exact h.store_window hv (hva v hv) _

/-! ## Runs -/

/-- The walk of every page reads its entry at 0x200000 + 4v, and the virtual address
0xffc00000 + 4v is that physical address. -/
def SelfMapped (s : Mmu) : Prop :=
  ∀ v < 2 ^ 20, s.pteAddr v = some (0x200000 + 4 * v) ∧
    s.translate (0xffc00000 + 4 * BitVec.ofNat 32 v) = some (0x200000 + 4 * v)

theorem selfMapped_of_kernelMap {s : Mmu} (h : KernelMap s) : SelfMapped s := by
  intro v hv
  refine ⟨h.tables v hv, h.translate_window hv ?_⟩
  rw [BitVec.toNat_add, BitVec.toNat_mul, BitVec.toNat_ofNat]
  simp only [BitVec.reduceToNat]
  omega

/-- The step lemma: a call on a page below 0xffbff. -/
theorem pageStep_spec {s : Mmu} (h : KernelMap s) {op : PageOp} (hv : op.vpage < 0xffbff) :
    ∃ t, pageStep s op = some t ∧ KernelMap t ∧ t.walk op.vpage = op.mapping ∧
      ∀ w < 2 ^ 20, w ≠ op.vpage → t.walk w = s.walk w := by
  have hv20 : op.vpage < 2 ^ 20 := by omega
  refine ⟨_, pageStep_eq h hv20, h.store hv20 (Or.inl (by omega)) op.pte, ?_, ?_⟩
  · rw [h.walk_store_self hv20 op.pte, op.entry_pte]
  · intro w hw hne
    exact h.walk_store_of_ne hv20 op.pte hw hne

theorem kernelMap_run {s : Mmu} (h : KernelMap s) {ops : List PageOp}
    (hops : ∀ op ∈ ops, op.vpage < 0xffbff) : ∃ t, run pageStep s ops = some t ∧ KernelMap t := by
  induction ops generalizing s with
  | nil => exact ⟨s, rfl, h⟩
  | cons op ops ih =>
    obtain ⟨t, hstep, ht, _⟩ := pageStep_spec h (hops op List.mem_cons_self)
    obtain ⟨u, hrun, hu⟩ := ih ht fun op' hop => hops op' (List.mem_cons_of_mem op hop)
    exact ⟨u, run_cons_eq_some.mpr ⟨t, hstep, hrun⟩, hu⟩

/-- **The table edits itself.** From any RAM, after boot and after every sequence of calls on
pages below 0xffbff, the table maps itself; and one more call goes through, keeps the self
map, makes the walk of its page what it says, and leaves the walk of every other page. -/
theorem selfMap_run (ram : Mem (BitVec 8)) (ops : List PageOp)
    (hops : ∀ op ∈ ops, op.vpage < 0xffbff) :
    SelfMapped (protectModeStart ram) ∧
      ∃ s, run pageStep (protectModeStart ram) ops = some s ∧ SelfMapped s ∧
        ∀ op : PageOp, op.vpage < 0xffbff →
          ∃ t, pageStep s op = some t ∧ SelfMapped t ∧ t.walk op.vpage = op.mapping ∧
            ∀ w < 2 ^ 20, w ≠ op.vpage → t.walk w = s.walk w := by
  have hboot := selfMap_protectModeStart ram
  obtain ⟨s, hrun, hs⟩ := kernelMap_run hboot hops
  refine ⟨selfMapped_of_kernelMap hboot, s, hrun, selfMapped_of_kernelMap hs, ?_⟩
  intro op hv
  obtain ⟨t, hstep, ht, hself, hother⟩ := pageStep_spec hs hv
  exact ⟨t, hstep, selfMapped_of_kernelMap ht, hself, hother⟩

/-- Mapping page 5 to frame 0x800, mapping the window's neighbour, and unmapping page 5. -/
theorem selfMap_run_three_calls :
    SelfMapped (protectModeStart (Mem.fresh fun _ => 0)) ∧
      ∃ s, run pageStep (protectModeStart (Mem.fresh fun _ => 0))
          [.mmap 0x800 5 7, .mmap 0x100801 0xffbfe 3, .unmap 5] = some s ∧ SelfMapped s ∧
        ∀ op : PageOp, op.vpage < 0xffbff →
          ∃ t, pageStep s op = some t ∧ SelfMapped t ∧ t.walk op.vpage = op.mapping ∧
            ∀ w < 2 ^ 20, w ≠ op.vpage → t.walk w = s.walk w := by
  refine selfMap_run (Mem.fresh fun _ => 0) _ ?_
  intro op hop
  simp only [List.mem_cons, List.not_mem_nil, or_false] at hop
  obtain rfl | rfl | rfl := hop
  · decide
  · decide
  · decide

/-! ## The array of mm.c -/

/-- `pageTable[v]` is the entry the walk of `v` reads. -/
def IsArray (pageTable : Mem (BitVec 32)) (s : Mmu) : Prop :=
  ∀ v < 2 ^ 20, pageTable.read v = s.mem.load32 (0x200000 + 4 * v)

/-- Storing into the array is storing through the window. -/
theorem IsArray.write {pageTable : Mem (BitVec 32)} {s : Mmu} (h : IsArray pageTable s) (v : Nat)
    (x : BitVec 32) :
    IsArray (pageTable.write v x) { s with mem := s.mem.store32 (0x200000 + 4 * v) x } := by
  intro w hw
  by_cases hwv : w = v
  · rw [hwv, Mem.read_write_self]
    exact (Mem.load32_store32_self _ _ _).symm
  · rw [Mem.read_write_of_ne _ _ hwv, h w hw]
    exact (Mem.load32_store32_of_disjoint _ _ (by omega)).symm

/-- `Mm.kernelPageMmap` on the array refines to the store through the window. -/
theorem kernelPageMmap_refines {ms : Mm.MmState} {s : Mmu} (h : KernelMap s)
    (ha : IsArray ms.pageTable s) (p : BitVec 32) {v : BitVec 32} (hv : v.toNat < 0xffbff)
    (flags : BitVec 8) :
    ∃ t, kernelPageMmap s p v flags = some t ∧ KernelMap t ∧
      IsArray (Mm.kernelPageMmap ms p v flags).pageTable t := by
  have hv20 : (PageOp.mmap p v flags).vpage < 2 ^ 20 := by
    show v.toNat < 2 ^ 20
    omega
  exact ⟨_, pageStep_eq h hv20, h.store hv20 (Or.inl (by show v.toNat < 0xffc00; omega)) _,
    ha.write v.toNat _⟩

theorem kernelPageUnmap_refines {ms : Mm.MmState} {s : Mmu} (h : KernelMap s)
    (ha : IsArray ms.pageTable s) {v : BitVec 32} (hv : v.toNat < 0xffbff) :
    ∃ t, kernelPageUnmap s v = some t ∧ KernelMap t ∧
      IsArray (Mm.kernelPageUnmap ms v).pageTable t := by
  have hv20 : (PageOp.unmap v).vpage < 2 ^ 20 := by
    show v.toNat < 2 ^ 20
    omega
  exact ⟨_, pageStep_eq h hv20, h.store hv20 (Or.inl (by show v.toNat < 0xffc00; omega)) _,
    ha.write v.toNat _⟩

/-- The walk of a page is the array's entry. -/
theorem IsArray.walk {pageTable : Mem (BitVec 32)} {s : Mmu} (ha : IsArray pageTable s)
    (h : KernelMap s) {v : Nat} (hv : v < 2 ^ 20) : s.walk v = Mmu.entry (pageTable.read v) := by
  rw [ha v hv]
  exact h.walk_eq hv

end ListaOS.Paging
