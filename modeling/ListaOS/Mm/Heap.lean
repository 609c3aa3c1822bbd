/-
  Runs of alloc_4k_phys and free_4k_phys after mm_init.

  A `Heap` is the allocator's state with the addresses handed out and not yet freed;
  only those may be freed. `heapStep_cases` is what an operation can do.

  The statements here are about every map. `alloc_hands_iff`: what is handed out in all
  runs is the 32-bit addresses of the pages free at first. `alloc_usable_iff`: every
  address handed out is a usable frame exactly when, for RAM that reaches above 4 GiB,
  the address of every page its walk marks is NULL or a usable frame again.
  `reserved_not_free_iff`: no reserved memory is marked free or handed out exactly when
  no marked page and no such frame meets an entry of another type.
-/
import ListaOS.Lib.Pool
import ListaOS.Mm.Alloc
import ListaOS.Mm.MemoryMap

namespace ListaOS.Mm

open Lib

structure Heap where
  mm : MmState
  outstanding : List (BitVec 32)

inductive HeapOp where
  | alloc
  | free (addr : BitVec 32)

/-- A NULL result hands nothing out; only an outstanding address may be freed. -/
def heapStep (h : Heap) : HeapOp → Option Heap
  | .alloc =>
      let (mm, addr) := alloc4kPhys h.mm
      some ⟨mm, if addr = 0 then h.outstanding else addr :: h.outstanding⟩
  | .free addr =>
      if addr ∈ h.outstanding then
        some ⟨free4kPhys h.mm addr, h.outstanding.erase addr⟩
      else none

/-- After mm_init, before the first allocation. -/
def heapInit (m : List BiosMeminfo) (ram : Nat → BitVec 32) (pt : Mem (BitVec 32)) : Heap :=
  ⟨mmInit m (bootState ram pt), []⟩

theorem heapStep_alloc {h : Heap} {mm : MmState} {addr : BitVec 32}
    (ha : alloc4kPhys h.mm = (mm, addr)) :
    heapStep h .alloc =
      some ⟨mm, if addr = 0 then h.outstanding else addr :: h.outstanding⟩ := by
  simp only [heapStep, ha]

/-- **What an operation can do.** -/
theorem heapStep_cases {h h' : Heap} {op : HeapOp} (hs : heapStep h op = some h') :
    (op = .alloc ∧ h' = h ∧ freePages h.mm = ∅) ∨
      (∃ p, op = .alloc ∧ IsLeast (freePages h.mm : Set Nat) p ∧
        h' = ⟨h.mm.withBitmap (Bitmap.clearBit h.mm.physMemBitmap p),
          if frameAddr p = 0 then h.outstanding else frameAddr p :: h.outstanding⟩) ∨
      ∃ addr ∈ h.outstanding, op = .free addr ∧
        h' = ⟨free4kPhys h.mm addr, h.outstanding.erase addr⟩ := by
  cases op with
  | alloc =>
    rcases alloc4kPhys_cases h.mm with ⟨ha, hempty⟩ | ⟨p, hp, ha⟩
    · left
      rw [heapStep_alloc ha, if_pos rfl] at hs
      exact ⟨rfl, (Option.some.inj hs).symm, hempty⟩
    · right; left
      rw [heapStep_alloc ha] at hs
      exact ⟨p, rfl, hp, (Option.some.inj hs).symm⟩
  | free addr =>
    right; right
    simp only [heapStep] at hs
    split at hs
    · exact ⟨addr, ‹_›, rfl, (Option.some.inj hs).symm⟩
    · cases hs

/-! ## Every map: the addresses handed out -/

/-- A page-aligned frame above the kernel's memory, wholly inside a type-1 entry. -/
def FrameUsable (m : List BiosMeminfo) (f : Nat) : Prop :=
  f % 4096 = 0 ∧ 0x800000 ≤ f ∧
    ∃ e ∈ m, e.type = 1 ∧ e.addr.toNat ≤ f ∧ f + 4096 ≤ e.addr.toNat + e.size.toNat

/-- For RAM that reaches above 4 GiB: the 32-bit address of every page its walk marks is NULL
or a usable frame. Entries below 4 GiB have no part in it. -/
def WalksFit (m : List BiosMeminfo) : Prop :=
  ∀ e ∈ m, e.type = 1 → ¬ e.EndsBelow4G → ∀ a, e.Walks a → 0x800000 ≤ a →
    4096 * (a / 4096) % 2 ^ 32 = 0 ∨ FrameUsable m (4096 * (a / 4096) % 2 ^ 32)

/-- Below 4 GiB the address of a marked page is the page, and the page is usable. -/
theorem frameUsable_of_low {m : List BiosMeminfo} {e : BiosMeminfo} (he : e ∈ m) (ht : e.type = 1)
    (hlow : e.EndsBelow4G) {a : Nat} (hw : e.Walks a) (ha : 0x800000 ≤ a) :
    FrameUsable m (4096 * (a / 4096) % 2 ^ 32) := by
  have hmark : e.Marks (pageOf a) := (BiosMeminfo.marks_iff_walks hlow _).mpr ⟨a, hw, ha, rfl⟩
  have hframe : 4096 * (a / 4096) % 2 ^ 32 = 4096 * pageOf a := by
    have hlt := hmark.lt hlow
    have hwalk := BiosMeminfo.walks_lt hw
    unfold pageOf at hlt ⊢
    omega
  have hbase : 0x800 ≤ pageOf a := hmark.2.1
  rw [hframe]
  exact ⟨Nat.mul_mod_right _ _, by omega, e, he, ht, hmark.inside⟩

theorem frameAddr_pageOf (a : Nat) : (frameAddr (pageOf a)).toNat = 4096 * (a / 4096) % 2 ^ 32 := by
  rw [frameAddr_toNat, pageOf]
  omega

theorem frameAddr_eq_zero_iff (p : Nat) : frameAddr p = 0 ↔ (frameAddr p).toNat = 0 :=
  BitVec.toNat_inj.symm

/-- Free pages have the address NULL or one with `P`, outstanding addresses have `P`. -/
structure HeapHands (P : Nat → Prop) (h : Heap) : Prop where
  free : ∀ p ∈ freePages h.mm, frameAddr p = 0 ∨ P (frameAddr p).toNat
  out : ∀ a ∈ h.outstanding, a.toNat % 4096 = 0 ∧ P a.toNat

theorem frameAddr_div {a : BitVec 32} (h : a.toNat % 4096 = 0) : frameAddr (a.toNat / 4096) = a := by
  apply BitVec.eq_of_toNat_eq
  have := a.isLt
  rw [frameAddr_toNat]
  omega

theorem heapStep_hands {P : Nat → Prop} {h h' : Heap} {op : HeapOp} (hu : HeapHands P h)
    (hs : heapStep h op = some h') : HeapHands P h' := by
  obtain ⟨_, rfl, _⟩ | ⟨p, _, hp, rfl⟩ | ⟨a, ha, _, rfl⟩ := heapStep_cases hs
  · exact hu
  · refine ⟨fun q hq => ?_, fun a ha => ?_⟩
    · rw [freePages_clearBit] at hq
      exact hu.free q (Finset.mem_of_mem_erase hq)
    · dsimp only at ha
      split at ha
      · exact hu.out a ha
      · rename_i hne
        obtain rfl | ha := List.mem_cons.mp ha
        · refine ⟨?_, (hu.free p hp.1).resolve_left hne⟩
          rw [frameAddr_toNat]
          omega
        · exact hu.out a ha
  · refine ⟨fun q hq => ?_, fun b hb => hu.out b (List.mem_of_mem_erase hb)⟩
    rw [freePages_free4kPhys] at hq
    split at hq
    · obtain rfl | hq := Finset.mem_insert.mp hq
      · right
        rw [frameAddr_div (hu.out a ha).1]
        exact (hu.out a ha).2
      · exact hu.free q hq
    · exact hu.free q hq

/-- Every free page is handed out by some run of allocations. -/
theorem exists_run_alloc (h : Heap) {p : Nat} (hp : p ∈ freePages h.mm) :
    ∃ ops h', run heapStep h ops = some h' ∧ (alloc4kPhys h'.mm).2 = frameAddr p := by
  -- on the number of free pages below `p`
  induction hk : ((freePages h.mm).filter (· < p)).card using Nat.strong_induction_on
    generalizing h with
  | _ k ih =>
    rcases alloc4kPhys_cases h.mm with ⟨_, hempty⟩ | ⟨q, hq, ha⟩
    · rw [hempty] at hp
      exact absurd hp (Finset.notMem_empty p)
    · rcases Nat.lt_or_eq_of_le (hq.2 hp) with hlt | rfl
      · have hstep : heapStep h .alloc = some ⟨h.mm.withBitmap (Bitmap.clearBit h.mm.physMemBitmap q),
            if frameAddr q = 0 then h.outstanding else frameAddr q :: h.outstanding⟩ :=
          heapStep_alloc ha
        set h₁ : Heap := ⟨h.mm.withBitmap (Bitmap.clearBit h.mm.physMemBitmap q),
            if frameAddr q = 0 then h.outstanding else frameAddr q :: h.outstanding⟩
        have hfree : freePages h₁.mm = (freePages h.mm).erase q := freePages_clearBit h.mm q
        have hp₁ : p ∈ freePages h₁.mm := by
          rw [hfree]
          exact Finset.mem_erase.mpr ⟨by omega, hp⟩
        have hless : ((freePages h₁.mm).filter (· < p)).card < k := by
          rw [← hk, hfree, Finset.filter_erase]
          exact Finset.card_erase_lt_of_mem (Finset.mem_filter.mpr ⟨hq.1, hlt⟩)
        obtain ⟨ops, h', hrun, hres⟩ := ih _ hless h₁ hp₁ rfl
        exact ⟨.alloc :: ops, h', run_cons_eq_some.mpr ⟨h₁, hstep, hrun⟩, hres⟩
      · exact ⟨[], h, rfl, by rw [ha]⟩

/-- Every non-NULL result in every run has `P` exactly when the address of every page that is
free at first has it. -/
theorem alloc_hands_iff (P : Nat → Prop) {h₀ : Heap} (hout : h₀.outstanding = []) :
    (∀ ops h, run heapStep h₀ ops = some h →
        (alloc4kPhys h.mm).2 ≠ 0 → P (alloc4kPhys h.mm).2.toNat) ↔
      ∀ p ∈ freePages h₀.mm, frameAddr p = 0 ∨ P (frameAddr p).toNat := by
  refine ⟨fun hall p hp => ?_, fun hfree ops h hrun hne => ?_⟩
  · obtain ⟨ops, h, hrun, hres⟩ := exists_run_alloc h₀ hp
    by_cases hz : frameAddr p = 0
    · exact Or.inl hz
    · have hP := hall ops h hrun (by rw [hres]; exact hz)
      rw [hres] at hP
      exact Or.inr hP
  · have hinit : HeapHands P h₀ := by
      refine ⟨hfree, fun a ha => ?_⟩
      rw [hout] at ha
      exact absurd ha List.not_mem_nil
    have hu : HeapHands P h :=
      run_invariant (HeapHands P) (fun _ _ _ hu hs => heapStep_hands hu hs) hinit hrun
    obtain ⟨ha, _⟩ | ⟨p, hp, ha⟩ := alloc4kPhys_cases h.mm
    · rw [ha] at hne
      exact absurd rfl hne
    · rw [ha] at hne ⊢
      exact (hu.free p hp.1).resolve_left hne

/-- **The addresses handed out, on every map.** In every run of allocations and frees
    each non-NULL result is a usable frame, exactly when the walks fit. -/
theorem alloc_usable_iff (m : List BiosMeminfo) (ram : Nat → BitVec 32) (pt : Mem (BitVec 32)) :
    (∀ ops h, run heapStep (heapInit m ram pt) ops = some h →
        (alloc4kPhys h.mm).2 ≠ 0 → FrameUsable m (alloc4kPhys h.mm).2.toNat) ↔
      WalksFit m := by
  rw [alloc_hands_iff (FrameUsable m) (show (heapInit m ram pt).outstanding = [] from rfl)]
  refine ⟨fun hall e he ht _ a hw ha => ?_, fun hfit p hp => ?_⟩
  · have hfree : pageOf a ∈ freePages (heapInit m ram pt).mm :=
      (mem_freePages_mmInit m ram pt _).mpr ⟨e, he, ht, a, hw, ha, rfl⟩
    rw [← frameAddr_pageOf, ← frameAddr_eq_zero_iff]
    exact hall _ hfree
  · obtain ⟨e, he, ht, a, hw, ha, rfl⟩ := (mem_freePages_mmInit m ram pt p).mp hp
    rw [frameAddr_eq_zero_iff, frameAddr_pageOf]
    by_cases hlow : e.EndsBelow4G
    · exact Or.inr (frameUsable_of_low he ht hlow hw ha)
    · exact hfit e he ht hlow a hw ha

/-- Two pages of RAM at 4 GiB: the second allocation returns 0x1000, kernel memory. -/
theorem alloc_above_4G_not_usable :
    ∃ h, run heapStep (heapInit [⟨0x100000000, 0x2000, 1⟩] (fun _ => 0)
        (Mem.fresh fun _ => 0)) [.alloc] = some h ∧
      (alloc4kPhys h.mm).2 = 0x1000 ∧
      ¬ FrameUsable [⟨0x100000000, 0x2000, 1⟩] (alloc4kPhys h.mm).2.toNat := by
  set h₀ := heapInit [⟨0x100000000, 0x2000, 1⟩] (fun _ => 0) (Mem.fresh fun _ => 0)
  -- the free pages are 0x100000, whose address is cut to NULL, and 0x100001
  have hfree : ∀ p, p ∈ freePages h₀.mm ↔ p = 0x100000 ∨ p = 0x100001 := by
    intro p
    refine (mem_freePages_mmInit _ _ _ p).trans ?_
    simp only [List.mem_singleton, exists_eq_left, true_and]
    constructor
    · intro hin
      obtain ⟨a, ⟨j, hj, rfl⟩, _, rfl⟩ := hin
      have hj2 : j < 2 := hj
      rcases (by omega : j = 0 ∨ j = 1) with rfl | rfl
      · exact Or.inl rfl
      · exact Or.inr rfl
    · intro hin
      obtain rfl | rfl := hin
      · exact ⟨0x100000000, ⟨0, by decide, rfl⟩, by decide, rfl⟩
      · exact ⟨0x100001000, ⟨1, by decide, rfl⟩, by decide, rfl⟩
  have hfirst : IsLeast (freePages h₀.mm : Set Nat) 0x100000 := by
    refine ⟨(hfree _).mpr (Or.inl rfl), fun q hq => ?_⟩
    rcases (hfree q).mp hq with rfl | rfl <;> omega
  rcases alloc4kPhys_cases h₀.mm with ⟨_, hempty⟩ | ⟨p, hp, ha⟩
  · rw [hempty] at hfirst
    exact absurd hfirst.1 (Finset.notMem_empty _)
  · obtain rfl := hp.unique hfirst
    set mm := h₀.mm.withBitmap (Bitmap.clearBit h₀.mm.physMemBitmap 0x100000)
    have hnull : frameAddr 0x100000 = 0 := by decide
    have hnone : h₀.outstanding = [] := rfl
    have hstep : heapStep h₀ .alloc = some ⟨mm, []⟩ := by
      rw [heapStep_alloc ha, if_pos hnull, hnone]
    have hsecond : IsLeast (freePages mm : Set Nat) 0x100001 := by
      rw [freePages_clearBit]
      refine ⟨Finset.mem_erase.mpr ⟨by decide, (hfree _).mpr (Or.inr rfl)⟩, fun q hq => ?_⟩
      rcases (hfree q).mp (Finset.mem_of_mem_erase hq) with rfl | rfl
      · exact absurd rfl (Finset.ne_of_mem_erase hq)
      · exact Nat.le_refl _
    rcases alloc4kPhys_cases mm with ⟨_, hempty⟩ | ⟨q, hq, hb⟩
    · rw [hempty] at hsecond
      exact absurd hsecond.1 (Finset.notMem_empty _)
    · obtain rfl := hq.unique hsecond
      refine ⟨⟨mm, []⟩, run_cons_eq_some.mpr ⟨_, hstep, rfl⟩, ?_, ?_⟩
      · rw [hb]; rfl
      · rw [hb]
        exact fun hu => absurd hu.2.1 (by decide)

/-! ## Every map: reserved memory -/

/-- For every page a type-1 walk marks, neither the page nor the frame its 32-bit address
names has a byte of an entry of another type. -/
def WalksAvoidReserved (m : List BiosMeminfo) : Prop :=
  ∀ e ∈ m, e.type = 1 → ∀ a, e.Walks a → 0x800000 ≤ a →
    (∀ r ∈ m, r.type ≠ 1 → ¬ r.Meets (pageOf a)) ∧
      (4096 * (a / 4096) % 2 ^ 32 = 0 ∨
        ∀ r ∈ m, r.type ≠ 1 → ¬ r.Meets (4096 * (a / 4096) % 2 ^ 32 / 4096))

/-- **Reserved memory, on every map.** No free page after mm_init, and no frame handed out in
any run, meets a reserved entry, exactly when the walks avoid them: the bitmap is only
ever ORed into, so a reserved entry cannot take a page back. -/
theorem reserved_not_free_iff (m : List BiosMeminfo) (ram : Nat → BitVec 32)
    (pt : Mem (BitVec 32)) :
    ((∀ p ∈ freePages (mmInit m (bootState ram pt)), ∀ r ∈ m, r.type ≠ 1 → ¬ r.Meets p) ∧
        ∀ ops h, run heapStep (heapInit m ram pt) ops = some h →
          (alloc4kPhys h.mm).2 ≠ 0 →
            ∀ r ∈ m, r.type ≠ 1 → ¬ r.Meets ((alloc4kPhys h.mm).2.toNat / 4096)) ↔
      WalksAvoidReserved m := by
  rw [alloc_hands_iff (fun f => ∀ r ∈ m, r.type ≠ 1 → ¬ r.Meets (f / 4096))
    (show (heapInit m ram pt).outstanding = [] from rfl)]
  refine ⟨fun hall e he ht a hw ha => ?_, fun havoid => ⟨fun p hp => ?_, fun p hp => ?_⟩⟩
  · have hfree : pageOf a ∈ freePages (heapInit m ram pt).mm :=
      (mem_freePages_mmInit m ram pt _).mpr ⟨e, he, ht, a, hw, ha, rfl⟩
    rw [← frameAddr_pageOf, ← frameAddr_eq_zero_iff]
    exact ⟨hall.1 _ hfree, hall.2 _ hfree⟩
  · obtain ⟨e, he, ht, a, hw, ha, rfl⟩ := (mem_freePages_mmInit m ram pt p).mp hp
    exact (havoid e he ht a hw ha).1
  · obtain ⟨e, he, ht, a, hw, ha, rfl⟩ := (mem_freePages_mmInit m ram pt p).mp hp
    rw [frameAddr_eq_zero_iff, frameAddr_pageOf]
    exact (havoid e he ht a hw ha).2

/-- RAM with a reserved page inside it: the second allocation hands the page out. -/
theorem reserved_page_handed_out :
    0x801 ∈ freePages (mmInit [⟨0x800000, 0x2000, 1⟩, ⟨0x801000, 0x1000, 2⟩]
        (bootState (fun _ => 0) (Mem.fresh fun _ => 0))) ∧
      (⟨0x801000, 0x1000, 2⟩ : BiosMeminfo).Meets 0x801 ∧
      ∃ h, run heapStep (heapInit [⟨0x800000, 0x2000, 1⟩, ⟨0x801000, 0x1000, 2⟩]
          (fun _ => 0) (Mem.fresh fun _ => 0)) [.alloc] = some h ∧
        (alloc4kPhys h.mm).2 = 0x801000 := by
  refine ⟨?_, by decide, _, rfl, by decide +kernel⟩
  exact (mem_freePages_mmInit_low (by decide) _ _ _).mpr
    ⟨⟨0x800000, 0x2000, 1⟩, List.mem_cons_self, rfl, by decide⟩

/-- Below 4 GiB the condition is about the pages marked. -/
theorem walksAvoidReserved_iff_of_low {m : List BiosMeminfo} (hm : LowMap m) :
    WalksAvoidReserved m ↔
      ∀ e ∈ m, e.type = 1 → ∀ p, e.Marks p → ∀ r ∈ m, r.type ≠ 1 → ¬ r.Meets p := by
  refine ⟨fun hwalks e he ht p hp => ?_, fun hmarks e he ht a hw ha => ?_⟩
  · obtain ⟨a, hw, ha, rfl⟩ := (BiosMeminfo.marks_iff_walks (hm e he) p).mp hp
    exact (hwalks e he ht a hw ha).1
  · have hmark : e.Marks (pageOf a) :=
      (BiosMeminfo.marks_iff_walks (hm e he) _).mpr ⟨a, hw, ha, rfl⟩
    have hpage : 4096 * (a / 4096) % 2 ^ 32 / 4096 = pageOf a := by
      have hlt := hmark.lt (hm e he)
      have hwalk := BiosMeminfo.walks_lt hw
      unfold pageOf at hlt ⊢
      omega
    rw [hpage]
    exact ⟨hmarks e he ht _ hmark, Or.inr (hmarks e he ht _ hmark)⟩

end ListaOS.Mm
