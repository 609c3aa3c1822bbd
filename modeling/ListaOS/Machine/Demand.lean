/-
  Demand paging.

  An access to a page that is not present raises page_fault, which gives the page a frame, and
  is then made again. `Paged F D s ms` is what the pages `D` keep: those that are present have
  frames of their own, among the frames `F` and not marked free. `Grows F s t` says that from `s`
  to `t` the pages that are present stay, and so do the bytes of the other frames.

  `demandPaging_flat`: while there are as many free frames as pages to come, the pages `D` are a
  flat memory. Every load returns what was stored last, or what the frame held when the page was
  first touched, and what lies between the stack and the page table stays.
-/
import ListaOS.Machine.Boot
import ListaOS.Lib.Flat
import ListaOS.Mm.Fault

namespace ListaOS

open Lib Mm Paging

/-- The page of an address. -/
def pageNumber (va : BitVec 32) : Nat := va.toNat / 0x1000

theorem pageNumber_lt (va : BitVec 32) : pageNumber va < 2 ^ 20 := by
  have hlt := va.isLt
  unfold pageNumber
  omega

theorem toNat_div_page (va : BitVec 32) : (va / 0x1000).toNat = pageNumber va := BitVec.toNat_udiv

/-- The addresses of the pages `D`. -/
abbrev AddrOf (D : Set Nat) : Type := {va : BitVec 32 // pageNumber va ∈ D}

namespace Machine

/-- The physical address of `va`, after a page fault if its page is not present; bit 1 of `err`
says that the access is a store. -/
def touch (s : Machine) (va err : BitVec 32) : Option (Machine × Nat) :=
  match s.mmu.translate va with
  | some a => some (s, a)
  | none => do
      let s ← s.pageFault va err
      let a ← s.mmu.translate va
      some (s, a)

def writePhys (s : Machine) (a : Nat) (x : BitVec 8) : Machine :=
  { s with mmu := { s.mmu with mem := s.mmu.mem.write a x } }

/-- One access to a page of `D`; what the loads have returned is kept beside the machine. -/
def access {D : Set Nat} (s : Machine × List (BitVec 8)) :
    Access (AddrOf D) (BitVec 8) → Option (Machine × List (BitVec 8))
  | .load va => (s.1.touch va 0).map fun r => (r.1, s.2 ++ [r.1.mmu.mem.read r.2])
  | .store va x => (s.1.touch va 2).map fun r => (r.1.writePhys r.2 x, s.2)

end Machine

/-! ## The invariant -/

structure Paged (F D : Set Nat) (s : Machine) (ms : MmState) : Prop where
  rep : Represents s ms
  pages : ∀ v ∈ D, Editable v
  frames : ∀ q ∈ F, 0x800 ≤ q ∧ q < 2 ^ 20
  free : ∀ q ∈ freePages ms, q ∈ F
  owned : ∀ v ∈ D, ∀ f flags, s.mmu.walk v = some (f, flags) → f ∈ F ∧ f ∉ freePages ms
  distinct : ∀ v ∈ D, ∀ w ∈ D, ∀ f flags flags', s.mmu.walk v = some (f, flags) →
    s.mmu.walk w = some (f, flags') → v = w

/-- Frames from 8 MiB on. -/
def frameCells : Set Nat := {a | 0x800000 ≤ a}

/-- The bytes of the frames `F`. -/
def frameBytes (F : Set Nat) : Set Nat := {a | a / 0x1000 ∈ F}

theorem mem_frameBytes {F : Set Nat} {a : Nat} : a ∈ frameBytes F ↔ a / 0x1000 ∈ F := Iff.rfl

/-- A byte stored in front of the page directory, or behind the kernel's memory. -/
theorem Represents.writeByte {s : Machine} {ms : MmState} (h : Represents s ms) {a : Nat}
    (ha : a < 0x1ff000 ∨ 0x800000 ≤ a) (x : BitVec 8) :
    Represents (s.writePhys a x) ms ∧
      (∀ v < 2 ^ 20, (s.writePhys a x).mmu.walk v = s.mmu.walk v) ∧
      ∀ va, (s.writePhys a x).mmu.translate va = s.mmu.translate va := by
  have hdir : pageDirectoryBase.toNat = 0x1ff000 := rfl
  have hout : a ∉ tableCells 0x200000 s.mmu.cr3 := by
    rw [h.cr3]
    rintro (⟨h1, h2⟩ | ⟨h1, h2⟩)
    · omega
    · omega
  have htables : SameTables 0x200000 s.mmu (s.writePhys a x).mmu := SameTables.write s.mmu x hout
  have hcells : ∀ b ∈ bitmapCells, (s.writePhys a x).mmu.mem.read b = s.mmu.mem.read b := by
    intro b hb
    refine Mem.read_write_of_ne _ _ ?_
    obtain ⟨hlo, hhi⟩ := hb
    omega
  exact ⟨h.of_sameTables htables hcells rfl rfl, fun v hv => htables.walk h.map hv,
    htables.translate h.map⟩

theorem Represents.writePhys {s : Machine} {ms : MmState} (h : Represents s ms) {a : Nat}
    (ha : a ∈ frameCells) (x : BitVec 8) :
    Represents (s.writePhys a x) ms ∧
      (∀ v < 2 ^ 20, (s.writePhys a x).mmu.walk v = s.mmu.walk v) ∧
      ∀ va, (s.writePhys a x).mmu.translate va = s.mmu.translate va :=
  h.writeByte (.inr ha) x

/-- An entry whose low bit is set. -/
theorem entry_of_present {e : BitVec 32} (h : e.getLsbD 0 = true) :
    Mmu.entry e = some ((e >>> 12).toNat, e.toNat % 0x1000) := by
  have hodd : ¬ e &&& 1 = 0 := by
    intro hzero
    have hbit : (e &&& 1).getLsbD 0 = true := by
      rw [BitVec.getLsbD_and, h]
      rfl
    rw [hzero] at hbit
    cases hbit
  rw [Mmu.entry, if_neg hodd, BitVec.toNat_ushiftRight, Nat.shiftRight_eq_div_pow]

namespace Paged

variable {F D : Set Nat} {s : Machine} {ms : MmState}

theorem walk_lt (h : Paged F D s ms) {v : Nat} (hv : v ∈ D) : v < 2 ^ 20 :=
  Nat.lt_trans (h.pages v hv).1 (by decide)

/-- The frame of an address of `D`. -/
theorem frame_of_translate (h : Paged F D s ms) {va : BitVec 32} (hva : pageNumber va ∈ D) {a : Nat}
    (ha : s.mmu.translate va = some a) : a ∈ frameBytes F := by
  obtain ⟨f, flags, hwalk, rfl⟩ := Mmu.translate_eq_some.mp ha
  have hf := (h.owned _ hva f flags hwalk).1
  have hframe : (f * 0x1000 + va.toNat % 0x1000) / 0x1000 = f := by omega
  show _ / 0x1000 ∈ F
  rw [hframe]
  exact hf

theorem frameBytes_subset (h : Paged F D s ms) : frameBytes F ⊆ frameCells := by
  intro a ha
  have hlo := (h.frames _ ha).1
  show 0x800000 ≤ a
  omega

/-- Two addresses of `D` have two places. -/
theorem translate_inj (h : Paged F D s ms) {va vb : BitVec 32} (hva : pageNumber va ∈ D)
    (hvb : pageNumber vb ∈ D) {a : Nat} (ha : s.mmu.translate va = some a)
    (hb : s.mmu.translate vb = some a) : va = vb := by
  obtain ⟨f, flags, hwalk, rfl⟩ := Mmu.translate_eq_some.mp ha
  obtain ⟨g, flags', hwalk', hfg⟩ := Mmu.translate_eq_some.mp hb
  obtain rfl : f = g := by omega
  have hpage : va.toNat / 0x1000 = vb.toNat / 0x1000 :=
    h.distinct _ hva _ hvb f flags flags' hwalk hwalk'
  exact BitVec.eq_of_toNat_eq (by omega)

/-- The page of an access that faults is given the least free frame. -/
theorem fault (h : Paged F D s ms) {va err : BitVec 32} (hva : pageNumber va ∈ D)
    (herr : err &&& 0x1 = 0) (hfree : (freePages ms).Nonempty) :
    ∃ t ms' p flags, s.pageFault va err = some t ∧ Paged F D t ms' ∧ p ∈ freePages ms ∧
      freePages ms' = (freePages ms).erase p ∧
      t.mmu.walk (pageNumber va) = some (p, flags) ∧
      (∀ w < 2 ^ 20, w ≠ pageNumber va → t.mmu.walk w = s.mmu.walk w) ∧
      Mem.WritesIn (bitmapCells ∪ pageTableCells) s.mmu.mem t.mmu.mem := by
  have hleast := (freePages ms).isLeast_min' hfree
  generalize (freePages ms).min' hfree = p at hleast
  have hpage : Fault.page ⟨va, err⟩ = pageNumber va := toNat_div_page va
  obtain ⟨hserved, hgiven, herase⟩ := faultStep_of_least (f := ⟨va, err⟩) herr hleast
    fun q hq => h.frames q (h.free q hq)
  have hedit : Editable (va / 0x1000).toNat := by
    rw [toNat_div_page]
    exact h.pages _ hva
  obtain ⟨t, ht, hrep, hw⟩ := h.rep.pageFault hedit err
  have hlt := pageNumber_lt va
  have hself : ∃ flags, t.mmu.walk (pageNumber va) = some (p, flags) := by
    have hpresent := hserved.present
    rw [givenFrame] at hgiven
    rw [hpage] at hpresent hgiven
    exact ⟨_, by rw [hrep.table.walk hrep.map hlt, ← hgiven]; exact entry_of_present hpresent⟩
  obtain ⟨flags, hself⟩ := hself
  have hother : ∀ w < 2 ^ 20, w ≠ pageNumber va → t.mmu.walk w = s.mmu.walk w := by
    intro w hwlt hne
    rw [hrep.table.walk hrep.map hwlt, h.rep.table.walk h.rep.map hwlt]
    exact congrArg Mmu.entry (faultStep_read_of_ne ms ⟨va, err⟩ (hpage.symm ▸ hne))
  have hmem : ∀ q ∈ freePages (faultStep ms ⟨va, err⟩), q ∈ freePages ms := by
    intro q hq
    rw [herase] at hq
    exact Finset.mem_of_mem_erase hq
  refine ⟨t, _, p, flags, ht, ⟨hrep, h.pages, h.frames, fun q hq => h.free q (hmem q hq), ?_, ?_⟩,
    hleast.1,
    herase, hself, hother, hw⟩
  · intro v hv f flags' hwalk
    by_cases hvp : v = pageNumber va
    · subst hvp
      obtain ⟨rfl, -⟩ := Prod.mk.inj (Option.some.inj (hself.symm.trans hwalk))
      refine ⟨h.free p hleast.1, fun hin => ?_⟩
      exact Finset.notMem_erase p _ (herase ▸ hin)
    · rw [hother v (h.walk_lt hv) hvp] at hwalk
      obtain ⟨hframe, hnot⟩ := h.owned v hv f flags' hwalk
      exact ⟨hframe, fun hin => hnot (hmem f hin)⟩
  · -- the new frame was free, so no other page has it
    have hnew : ∀ w ∈ D, w ≠ pageNumber va → ∀ flags', t.mmu.walk w ≠ some (p, flags') := by
      intro w hw hne flags' hwalk
      rw [hother w (h.walk_lt hw) hne] at hwalk
      exact (h.owned w hw p flags' hwalk).2 hleast.1
    intro v hv w hw f flags₁ flags₂ hwalk₁ hwalk₂
    by_cases hvp : v = pageNumber va
    · subst hvp
      by_contra hne
      obtain ⟨rfl, -⟩ := Prod.mk.inj (Option.some.inj (hself.symm.trans hwalk₁))
      exact hnew w hw (Ne.symm hne) _ hwalk₂
    · by_cases hwp : w = pageNumber va
      · subst hwp
        obtain ⟨rfl, -⟩ := Prod.mk.inj (Option.some.inj (hself.symm.trans hwalk₂))
        exact absurd hwalk₁ (hnew v hv hvp _)
      · rw [hother v (h.walk_lt hv) hvp] at hwalk₁
        rw [hother w (h.walk_lt hw) hwp] at hwalk₂
        exact h.distinct v hv w hw f _ _ hwalk₁ hwalk₂

/-- A byte stored behind the kernel's memory. -/
theorem writePhys (h : Paged F D s ms) {a : Nat} (ha : a ∈ frameCells) (x : BitVec 8) :
    Paged F D (s.writePhys a x) ms ∧
      ∀ va, (s.writePhys a x).mmu.translate va = s.mmu.translate va := by
  obtain ⟨hrep, hwalk, htrans⟩ := h.rep.writePhys ha x
  refine ⟨⟨hrep, h.pages, h.frames, h.free, ?_, ?_⟩, htrans⟩
  · intro v hv f flags hv'
    rw [hwalk v (h.walk_lt hv)] at hv'
    exact h.owned v hv f flags hv'
  · intro v hv w hw f flags flags' hv' hw'
    rw [hwalk v (h.walk_lt hv)] at hv'
    rw [hwalk w (h.walk_lt hw)] at hw'
    exact h.distinct v hv w hw f flags flags' hv' hw'

end Paged

/-! ## One access -/

/-- The pages of `T` that are not present. -/
def pending (T : Finset Nat) (s : Machine) : Finset Nat := T.filter fun v => s.mmu.walk v = none

/-- Where an access to `va` may store: the bitmap and the table for a fault, and the frame. -/
def accessCells : Set Nat := {a | 0x200000 ≤ a}

/-- The stack: a page fault stores there too, but no function of the model does. -/
def stackCells : Set Nat := {a | a < 0x7000}

/-- Pages that are present keep their frames, and the frames outside of `F` their bytes. -/
structure Grows (F : Set Nat) (s t : Machine) : Prop where
  walk : ∀ w < 2 ^ 20, s.mmu.walk w ≠ none → t.mmu.walk w = s.mmu.walk w
  read : ∀ a ∈ frameCells, a ∉ frameBytes F → t.mmu.mem.read a = s.mmu.mem.read a
  writes : Mem.WritesIn accessCells s.mmu.mem t.mmu.mem

namespace Grows

variable {F : Set Nat} {s t u : Machine}

theorem refl (F : Set Nat) (s : Machine) : Grows F s s where
  walk := fun _ _ _ => rfl
  read := fun _ _ _ => rfl
  writes := Mem.WritesIn.refl _ _

theorem trans (h : Grows F s t) (h' : Grows F t u) : Grows F s u where
  walk := fun w hw hpresent => (h'.walk w hw ((h.walk w hw hpresent).symm ▸ hpresent)).trans
    (h.walk w hw hpresent)
  read := fun a ha hout => (h'.read a ha hout).trans (h.read a ha hout)
  writes := h.writes.trans h'.writes

theorem mono {F' : Set Nat} (h : Grows F s t) (hF : F ⊆ F') : Grows F' s t where
  walk := h.walk
  read := fun a ha hout => h.read a ha fun hin => hout (hF hin)
  writes := h.writes

theorem of_fault (hwalk : ∀ w < 2 ^ 20, s.mmu.walk w ≠ none → t.mmu.walk w = s.mmu.walk w)
    (hw : Mem.WritesIn (bitmapCells ∪ pageTableCells) s.mmu.mem t.mmu.mem) : Grows ∅ s t where
  walk := hwalk
  read := by
    intro a ha _
    have hlo : 0x800000 ≤ a := ha
    refine hw.read a ?_
    rintro (⟨-, hhi⟩ | ⟨-, hhi⟩)
    · omega
    · omega
  writes := by
    refine hw.mono ?_
    rintro a (⟨hlo, -⟩ | ⟨hlo, -⟩)
    · show 0x200000 ≤ a
      omega
    · exact hlo

/-- A byte stored to one of the frames. -/
theorem writePhys {ms : MmState} (h : Represents s ms) {a : Nat} (ha : a ∈ frameCells)
    (hF : a ∈ frameBytes F) (x : BitVec 8) : Grows F s (s.writePhys a x) where
  walk := fun w hw _ => (h.writePhys ha x).2.1 w hw
  read := fun _ _ hout => Mem.read_write_of_ne _ _ fun hba => hout (hba ▸ hF)
  writes := by
    have hlo : 0x800000 ≤ a := ha
    exact Mem.WritesIn.write _ x (show 0x200000 ≤ a by omega)

theorem translate (h : Grows F s t) {va : BitVec 32} {a : Nat} (ha : s.mmu.translate va = some a) :
    t.mmu.translate va = some a := by
  obtain ⟨f, flags, hwalk, rfl⟩ := Mmu.translate_eq_some.mp ha
  have hpresent : s.mmu.walk (pageNumber va) ≠ none := by
    rw [pageNumber, hwalk]
    exact Option.some_ne_none _
  exact Mmu.translate_eq_some.mpr ⟨f, flags, (h.walk _ (pageNumber_lt va) hpresent).trans hwalk, rfl⟩

end Grows

/-- Since `b` only the pages `D` and the frames `F` have been used, as they should be, and the pages
of `T` still to come have frames. -/
structure Ready (F D : Set Nat) (T : Finset Nat) (b s : Machine) (ms : MmState) : Prop where
  paged : Paged F D s ms
  pages : ∀ v ∈ T, v < 2 ^ 20
  room : (pending T s).card ≤ (freePages ms).card
  grows : Grows F b s

namespace Ready

variable {F D : Set Nat} {T : Finset Nat} {b s : Machine} {ms : MmState}

/-- A fault takes a page off the pages to come, and a frame off the free ones. -/
theorem touch (h : Ready F D T b s ms) {va err : BitVec 32} (hva : pageNumber va ∈ D)
    (hT : pageNumber va ∈ T) (herr : err &&& 0x1 = 0) :
    ∃ t ms' a, s.touch va err = some (t, a) ∧ Ready F D T b t ms' ∧
      t.mmu.translate va = some a ∧ Grows ∅ s t := by
  unfold Machine.touch
  cases htrans : s.mmu.translate va with
  | some a => exact ⟨s, ms, a, rfl, h, htrans, Grows.refl ∅ s⟩
  | none =>
    have hnone : s.mmu.walk (pageNumber va) = none := Mmu.translate_eq_none.mp htrans
    have hpending : pageNumber va ∈ pending T s := Finset.mem_filter.mpr ⟨hT, hnone⟩
    have hfree : (freePages ms).Nonempty :=
      Finset.card_pos.mp (Nat.lt_of_lt_of_le (Finset.card_pos.mpr ⟨_, hpending⟩) h.room)
    obtain ⟨t, ms', p, flags, ht, hpaged, hp, herase, hself, hother, hw⟩ :=
      h.paged.fault hva herr hfree
    have hrest : pending T t = (pending T s).erase (pageNumber va) := by
      ext v
      unfold pending
      rw [Finset.mem_erase, Finset.mem_filter, Finset.mem_filter]
      by_cases hv : v = pageNumber va
      · subst hv
        rw [hself]
        simp
      · refine ⟨fun ⟨hvT, hvn⟩ => ⟨hv, hvT, ?_⟩, fun ⟨_, hvT, hvn⟩ => ⟨hvT, ?_⟩⟩
        · rw [← hother v (h.pages v hvT) hv]
          exact hvn
        · rw [hother v (h.pages v hvT) hv]
          exact hvn
    have hroom : (pending T t).card ≤ (freePages ms').card := by
      have hcard := h.room
      rw [hrest, herase, Finset.card_erase_of_mem hpending, Finset.card_erase_of_mem hp]
      omega
    have htrans' : t.mmu.translate va = some (p * 0x1000 + va.toNat % 0x1000) :=
      Mmu.translate_eq_some.mpr ⟨p, flags, hself, rfl⟩
    have hgrows : Grows ∅ s t := Grows.of_fault (fun w hwlt hpresent => hother w hwlt fun hwp =>
      hpresent (hwp ▸ hnone)) hw
    refine ⟨t, ms', _, ?_, ⟨hpaged, h.pages, hroom,
      h.grows.trans (hgrows.mono (Set.empty_subset F))⟩, htrans', hgrows⟩
    rw [ht, Option.bind_eq_bind, Option.bind_some, htrans']
    rfl

/-- Any byte behind the kernel's memory, counted from there on. -/
theorem restart (h : Ready F D T b s ms) {a : Nat} (ha : a ∈ frameCells) (x : BitVec 8) :
    Ready F D T (s.writePhys a x) (s.writePhys a x) ms := by
  obtain ⟨hpaged, -⟩ := h.paged.writePhys ha x
  refine ⟨hpaged, h.pages, ?_, Grows.refl F _⟩
  have hwalk : ∀ v ∈ T, (s.writePhys a x).mmu.walk v = none ↔ s.mmu.walk v = none := fun v hv => by
    rw [(h.paged.rep.writePhys ha x).2.1 v (h.pages v hv)]
  rw [pending, Finset.filter_congr hwalk]
  exact h.room

theorem writePhys (h : Ready F D T b s ms) {a : Nat} (ha : a ∈ frameBytes F) (x : BitVec 8) :
    Ready F D T b (s.writePhys a x) ms :=
  have hcells := h.paged.frameBytes_subset ha
  { h.restart hcells x with
    grows := h.grows.trans (Grows.writePhys h.paged.rep hcells ha x) }

end Ready

/-- What is known of the cells: the bytes of the pages that are present. -/
def knownByte {D : Set Nat} (s : Machine × List (BitVec 8)) (va : AddrOf D) : Option (BitVec 8) :=
  s.1.mmu.readByte va.val

theorem knownByte_eq_some {D : Set Nat} {s : Machine × List (BitVec 8)} {va : AddrOf D}
    {x : BitVec 8} :
    knownByte s va = some x ↔ ∃ a, s.1.mmu.translate va.val = some a ∧ s.1.mmu.mem.read a = x :=
  Option.map_eq_some_iff

section

variable {F D : Set Nat} {T : Finset Nat} {b : Machine}

/-- Stores to other frames keep what is known. -/
theorem keeps_of_grows {s t : Machine} {ms : MmState} (h : Paged F D s ms) {G : Set Nat}
    (hg : Grows G s t) (hG : ∀ q ∈ F, q ∉ G) (out out' : List (BitVec 8)) :
    Keeps (knownByte (D := D)) Set.univ (s, out) (t, out') := by
  intro vb _ x hx
  obtain ⟨a, ha, rfl⟩ := knownByte_eq_some.mp hx
  have hframe := h.frame_of_translate vb.2 ha
  exact knownByte_eq_some.mpr ⟨a, hg.translate ha,
    hg.read a (h.frameBytes_subset hframe) (hG _ hframe)⟩

/-- **One access is served.** -/
theorem access_serves {s : Machine × List (BitVec 8)} {ms : MmState} (h : Ready F D T b s.1 ms)
    {e : Access (AddrOf D) (BitVec 8)} (hT : pageNumber e.addr.val ∈ T) :
    ∃ t, Machine.access s e = some t ∧ (∃ ms', Ready F D T b t.1 ms') ∧
      Serves knownByte Prod.snd s e t := by
  obtain ⟨s, out⟩ := s
  cases e with
  | load va =>
    obtain ⟨t, ms', a, ht, hready, ha, hg⟩ := h.touch va.2 hT (show (0 : BitVec 32) &&& 0x1 = 0 by decide)
    refine ⟨(t, out ++ [t.mmu.mem.read a]), by rw [Machine.access, ht]; rfl, ⟨ms', hready⟩,
      keeps_of_grows h.paged hg (fun _ _ => id) _ _, _, knownByte_eq_some.mpr ⟨a, ha, rfl⟩, rfl⟩
  | store va x =>
    obtain ⟨t, ms', a, ht, hready, ha, hg⟩ := h.touch va.2 hT (show (2 : BitVec 32) &&& 0x1 = 0 by decide)
    have hframe := hready.paged.frame_of_translate va.2 ha
    obtain ⟨-, htrans⟩ := hready.paged.writePhys (hready.paged.frameBytes_subset hframe) x
    refine ⟨(t.writePhys a x, out), by rw [Machine.access, ht]; rfl,
      ⟨ms', hready.writePhys hframe x⟩, ?_, ?_, rfl⟩
    · intro vb hne y hy
      obtain ⟨c, hc, hread⟩ := knownByte_eq_some.mp
        (keeps_of_grows h.paged hg (fun _ _ => id) out out vb trivial y hy)
      have hca : c ≠ a := fun heq =>
        hne (Subtype.ext (hready.paged.translate_inj vb.2 va.2 (heq ▸ hc) ha))
      refine knownByte_eq_some.mpr ⟨c, (htrans vb.val).trans hc, ?_⟩
      exact (Mem.read_write_of_ne _ _ hca).trans hread
    · exact knownByte_eq_some.mpr ⟨a, (htrans va.val).trans ha, Mem.read_write_self _ _ _⟩

/-! ## Runs -/

/-- The pages that a list of accesses touches. -/
def touched (accesses : List (Access (AddrOf D) (BitVec 8))) : Finset Nat :=
  (accesses.map fun e => pageNumber e.addr.val).toFinset

theorem mem_touched {accesses : List (Access (AddrOf D) (BitVec 8))}
    {e : Access (AddrOf D) (BitVec 8)} (he : e ∈ accesses) :
    pageNumber e.addr.val ∈ touched accesses :=
  List.mem_toFinset.mpr (List.mem_map_of_mem he)

theorem touched_lt (accesses : List (Access (AddrOf D) (BitVec 8))) :
    ∀ v ∈ touched accesses, v < 2 ^ 20 := by
  intro v hv
  obtain ⟨e, -, rfl⟩ := List.mem_map.mp (List.mem_toFinset.mp hv)
  exact pageNumber_lt _

/-- The accesses go through, return what a flat memory returns that holds the bytes of the
pages present in `s`, and leave `t` with its cells; below the page table they store to the stack
at most. -/
structure FlatRun (s : Machine) (accesses : List (Access (AddrOf D) (BitVec 8))) (t : Machine)
    (cells : AddrOf D → BitVec 8) : Prop where
  before : ∀ va x, s.mmu.readByte va.val = some x → cells va = x
  run : run Machine.access (s, []) accesses =
    some (t, (accesses.foldl Flat.step ⟨cells, []⟩).loaded)
  after : ∀ va x, t.mmu.readByte va.val = some x →
    (accesses.foldl Flat.step ⟨cells, []⟩).cells va = x
  writes : Mem.WritesIn (stackCells ∪ accessCells) s.mmu.mem t.mmu.mem

/-- **Demand paged memory is flat** while frames last: if at most as many pages are touched for
the first time as `get_free_page_num()` says, there are contents of a flat memory from which the
accesses return the same. -/
theorem demandPaging_flat (s : Machine) (ms : MmState) (h : Paged F D s ms)
    (accesses : List (Access (AddrOf D) (BitVec 8)))
    (hroom : (pending (touched accesses) s).card ≤ getFreePageNum ms) :
    ∃ t cells, FlatRun s accesses t cells := by
  rw [getFreePageNum_eq_card] at hroom
  -- what every state of the run keeps
  let I : Machine × List (BitVec 8) → Prop := fun u =>
    ∃ ms', Ready F D (touched accesses) s u.1 ms'
  have hI : I (s, []) := ⟨ms, h, touched_lt accesses, hroom, Grows.refl F s⟩
  have hstep : ∀ u, I u → ∀ e ∈ accesses, ∃ t, Machine.access u e = some t ∧ I t ∧
      Serves knownByte Prod.snd u e t := by
    rintro u ⟨ms', hready⟩ e he
    exact access_serves hready (mem_touched he)
  obtain ⟨⟨t, out⟩, hrun, ms', hend⟩ := exists_run_invariant I (fun u hu e he =>
    let ⟨t, ht, hnext, _⟩ := hstep u hu e he
    ⟨t, ht, hnext⟩) hI
  have hserved : ∀ u e t, I u → e ∈ accesses → Machine.access u e = some t →
      I t ∧ Serves knownByte Prod.snd u e t := by
    intro u e t hu he ht
    obtain ⟨t', ht', hnext⟩ := hstep u hu e he
    obtain rfl := Option.some.inj (ht'.symm.trans ht)
    exact hnext
  obtain ⟨cells, hbefore, hloaded, hafter⟩ :=
    @run_flat _ _ _ _ knownByte Prod.snd _ _ _ some I _ hserved _ _ _ hI (fun _ he => he) hrun
  rw [List.filterMap_some] at hloaded hafter
  exact ⟨t, cells, hbefore, hrun.trans (congrArg (fun out => some (t, out)) hloaded.symm), hafter,
    hend.grows.writes.mono Set.subset_union_right⟩

end

end ListaOS
