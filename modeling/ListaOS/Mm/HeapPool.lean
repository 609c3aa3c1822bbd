/-
  Heaps below 4 GiB are pools of pages.

  `HeapRep h p` relates a heap to an abstract pool: the free pages are the free units,
  the outstanding addresses name the units handed out, and every unit lies in the
  bitmap, above the kernel's memory and below 4 GiB. `heapStep_refines`: an operation
  of the heap is a use of the pool or, when the pool is empty, nothing.

  `heap_run_spec` reads the facts about a whole run off the pool; `alloc_spec` is what
  one more allocation does.
-/
import ListaOS.Mm.Heap

namespace ListaOS.Mm

open Lib

structure HeapRep (h : Heap) (p : Pool Nat) : Prop where
  free : freePages h.mm = p.free
  out : ∀ q < 2 ^ 20, q ∈ p.out ↔ frameAddr q ∈ h.outstanding
  card : p.out.card = h.outstanding.length
  nodup : h.outstanding.Nodup
  aligned : ∀ a ∈ h.outstanding, a.toNat % 4096 = 0
  bounds : ∀ q ∈ p.stock, 0x800 ≤ q ∧ q < 2 ^ 20 ∧ q < 32 * h.mm.physMemBitmapSize

namespace HeapRep

variable {h : Heap} {p : Pool Nat}

theorem mem_stock_of_free {q : Nat} (hq : q ∈ p.free) : q ∈ p.stock :=
  Finset.mem_union_left _ hq

theorem mem_stock_of_out {q : Nat} (hq : q ∈ p.out) : q ∈ p.stock :=
  Finset.mem_union_right _ hq

/-- An outstanding address is the address of a unit handed out. -/
theorem out_of_mem (hr : HeapRep h p) {a : BitVec 32} (ha : a ∈ h.outstanding) :
    a.toNat / 4096 ∈ p.out ∧ frameAddr (a.toNat / 4096) = a := by
  have hlt : a.toNat / 4096 < 2 ^ 20 := by have := a.isLt; omega
  have haddr := frameAddr_div (hr.aligned a ha)
  exact ⟨(hr.out _ hlt).mpr (by rw [haddr]; exact ha), haddr⟩

theorem take (hr : HeapRep h p) {q : Nat} (hq : IsLeast (p.free : Set Nat) q) :
    HeapRep ⟨h.mm.withBitmap (Bitmap.clearBit h.mm.physMemBitmap q), frameAddr q :: h.outstanding⟩
      (p.take q hq.1) := by
  have hb := hr.bounds q (mem_stock_of_free hq.1)
  have hnew : frameAddr q ∉ h.outstanding := fun hm =>
    Pool.not_mem_out hq.1 ((hr.out q hb.2.1).mpr hm)
  constructor
  case free => rw [freePages_clearBit, hr.free]; rfl
  case out =>
    intro r hrlt
    simp only [Pool.take, Finset.mem_insert, List.mem_cons, hr.out r hrlt]
    constructor
    · intro hin
      obtain rfl | hm := hin
      · exact Or.inl rfl
      · exact Or.inr hm
    · intro hin
      obtain he | hm := hin
      · exact Or.inl (frameAddr_inj hrlt hb.2.1 he)
      · exact Or.inr hm
  case card =>
    simp only [Pool.take, List.length_cons]
    rw [Finset.card_insert_of_notMem (Pool.not_mem_out hq.1), hr.card]
  case nodup => exact List.nodup_cons.mpr ⟨hnew, hr.nodup⟩
  case aligned =>
    intro a ha
    rcases List.mem_cons.mp ha with rfl | ha
    · rw [frameAddr_toNat_of_lt hb.2.1]
      omega
    · exact hr.aligned a ha
  case bounds =>
    intro r hmem
    rw [Pool.stock_take] at hmem
    exact hr.bounds r hmem

theorem give (hr : HeapRep h p) {a : BitVec 32} (ha : a ∈ h.outstanding) :
    HeapRep ⟨free4kPhys h.mm a, h.outstanding.erase a⟩
      (p.give (a.toNat / 4096) (hr.out_of_mem ha).1) := by
  obtain ⟨hq, haddr⟩ := hr.out_of_mem ha
  have hb := hr.bounds _ (mem_stock_of_out hq)
  constructor
  case free => rw [freePages_free4kPhys, if_pos hb.2.2, hr.free]; rfl
  case out =>
    intro r hrlt
    simp only [Pool.give, Finset.mem_erase, hr.nodup.mem_erase_iff, hr.out r hrlt]
    refine and_congr_left fun _ => not_congr ⟨fun e => by rw [e, haddr], fun e => ?_⟩
    exact frameAddr_inj hrlt hb.2.1 (by rw [haddr, e])
  case card =>
    simp only [Pool.give]
    rw [Finset.card_erase_of_mem hq, hr.card, List.length_erase_of_mem ha]
  case nodup => exact hr.nodup.erase a
  case aligned => exact fun b hb' => hr.aligned b (List.mem_of_mem_erase hb')
  case bounds =>
    intro r hmem
    rw [Pool.stock_give] at hmem
    rw [free4kPhys_eq]
    exact hr.bounds r hmem

end HeapRep

/-- **The allocator refines the pool.** -/
theorem heapStep_refines {h h' : Heap} {op : HeapOp} {p : Pool Nat} (hr : HeapRep h p)
    (hs : heapStep h op = some h') : ∃ q, Pool.Steps p q ∧ HeapRep h' q := by
  rcases heapStep_cases hs with ⟨_, rfl, _⟩ | ⟨q, _, hq, rfl⟩ | ⟨a, ha, _, rfl⟩
  · exact ⟨p, .refl, hr⟩
  · rw [hr.free] at hq
    have hb := hr.bounds q (HeapRep.mem_stock_of_free hq.1)
    rw [if_neg (frameAddr_ne_zero (by omega) hb.2.1)]
    exact ⟨_, .single (.take hq), hr.take hq⟩
  · exact ⟨_, .single (.give (hr.out_of_mem ha).1), hr.give ha⟩

/-- The pool mm_init leaves: everything marked free, nothing handed out. -/
def poolInit (m : List BiosMeminfo) (ram : Nat → BitVec 32) (pt : Mem (BitVec 32)) : Pool Nat where
  free := freePages (mmInit m (bootState ram pt))
  out := ∅
  disjoint := Finset.disjoint_empty_right _

theorem heapInit_rep {m : List BiosMeminfo} (hm : LowMap m) (ram : Nat → BitVec 32)
    (pt : Mem (BitVec 32)) : HeapRep (heapInit m ram pt) (poolInit m ram pt) where
  free := rfl
  out := fun q _ => by simp [poolInit, heapInit]
  card := rfl
  nodup := List.nodup_nil
  aligned := fun a ha => by simp [heapInit] at ha
  bounds := by
    intro q hq
    simp only [Pool.stock, poolInit, Finset.union_empty] at hq
    have := freePages_mmInit_bounds hm ram pt hq
    exact ⟨this.1, this.2, (Bitmap.mem_members.mp hq).1⟩

/-- Every heap a run reaches is a pool the pool reaches. -/
theorem heap_run_refines {m : List BiosMeminfo} (hm : LowMap m) {ram : Nat → BitVec 32}
    {pt : Mem (BitVec 32)} {ops : List HeapOp} {h : Heap}
    (hrun : run heapStep (heapInit m ram pt) ops = some h) :
    ∃ p, Pool.Steps (poolInit m ram pt) p ∧ HeapRep h p :=
  run_invariant (fun h => ∃ p, Pool.Steps (poolInit m ram pt) p ∧ HeapRep h p)
    (fun _ _ _ ⟨_, hp, hr⟩ hs =>
      let ⟨q, hq, hr'⟩ := heapStep_refines hr hs
      ⟨q, hp.trans hq, hr'⟩)
    ⟨_, .refl, heapInit_rep hm ram pt⟩ hrun

/-! ## One more allocation -/

/-- What `alloc_4k_phys` does in the state `s`. -/
structure AllocSpec (s : MmState) : Prop where
  null_iff : (alloc4kPhys s).2 = 0 ↔ getFreePageNum s = 0
  null_same : getFreePageNum s = 0 → (alloc4kPhys s).1 = s
  lowest : getFreePageNum s ≠ 0 → ∃ p, IsLeast (freePages s : Set Nat) p ∧
    (alloc4kPhys s).2.toNat = 4096 * p ∧
    (alloc4kPhys s).1.physMemBitmapSize = s.physMemBitmapSize ∧
    (∀ k, Bitmap.bit (alloc4kPhys s).1.physMemBitmap k =
      (Bitmap.bit s.physMemBitmap k && decide (k ≠ p))) ∧
    (free4kPhys (alloc4kPhys s).1 (alloc4kPhys s).2).physMemBitmap.cell = s.physMemBitmap.cell

theorem getFreePageNum_eq_zero_iff (s : MmState) : getFreePageNum s = 0 ↔ freePages s = ∅ := by
  rw [getFreePageNum_eq_card, Finset.card_eq_zero]

theorem alloc_spec {s : MmState} (hs : ∀ p ∈ freePages s, 0x800 ≤ p ∧ p < 2 ^ 20) :
    AllocSpec s := by
  rcases alloc4kPhys_cases s with ⟨ha, hempty⟩ | ⟨p, hp, ha⟩
  · have h0 := (getFreePageNum_eq_zero_iff s).mpr hempty
    exact ⟨by rw [ha]; exact ⟨fun _ => h0, fun _ => rfl⟩, fun _ => by rw [ha],
      fun hne => absurd h0 hne⟩
  · have hb := hs p hp.1
    have hne : getFreePageNum s ≠ 0 := by
      rw [Ne, getFreePageNum_eq_zero_iff]
      exact Finset.ne_empty_of_mem hp.1
    have haddr : (frameAddr p).toNat = 4096 * p := frameAddr_toNat_of_lt hb.2
    refine ⟨?_, fun h0 => absurd h0 hne, fun _ => ⟨p, hp, ?_⟩⟩
    · rw [ha]
      exact ⟨fun h0 => absurd h0 (frameAddr_ne_zero (by omega) hb.2), fun h0 => absurd h0 hne⟩
    · rw [ha, free4kPhys_eq]
      have hdiv : (frameAddr p).toNat / 4096 = p := by omega
      refine ⟨haddr, rfl, fun k => Bitmap.bit_clearBit (by decide) _ p k, ?_⟩
      simp only [MmState.withBitmap_bitmap, hdiv]
      exact Bitmap.clearBit_setBit_cell (by decide) _ p (Bitmap.mem_members.mp hp.1).2

/-! ## Whole runs -/

/-- **Runs of the allocator** on a map that ends at or below 4 GiB. The outstanding
    addresses are distinct and their bits are clear; free pages and outstanding frames
    add up to what mm_init left; and the next allocation meets `AllocSpec`. -/
theorem heap_run_spec (m : List BiosMeminfo) (hm : LowMap m) (ram : Nat → BitVec 32)
    (pt : Mem (BitVec 32)) (ops : List HeapOp) (h : Heap)
    (hrun : run heapStep (heapInit m ram pt) ops = some h) :
    h.outstanding.Nodup ∧
      (∀ a ∈ h.outstanding, Bitmap.bit h.mm.physMemBitmap (a.toNat / 4096) = false) ∧
      getFreePageNum h.mm + h.outstanding.length = getFreePageNum (heapInit m ram pt).mm ∧
      AllocSpec h.mm := by
  obtain ⟨p, hsteps, hr⟩ := heap_run_refines hm hrun
  refine ⟨hr.nodup, fun a ha => ?_, ?_, alloc_spec fun q hq => ?_⟩
  · obtain ⟨hq, _⟩ := hr.out_of_mem ha
    have hb := hr.bounds _ (HeapRep.mem_stock_of_out hq)
    have hnot : a.toNat / 4096 ∉ freePages h.mm := by
      rw [hr.free]
      exact Pool.not_mem_free hq
    by_contra hset
    exact hnot (Bitmap.mem_members.mpr ⟨hb.2.2, by simpa using hset⟩)
  · have hcard := hsteps.card_eq
    rw [getFreePageNum_eq_card, getFreePageNum_eq_card, hr.free, ← hr.card, hcard]
    rfl
  · rw [hr.free] at hq
    have hb := hr.bounds q (HeapRep.mem_stock_of_free hq)
    exact ⟨hb.1, hb.2.1⟩

/-- Two pages, two allocations, one free. -/
theorem heap_run_spec_two_pages :
    ∃ h, run heapStep (heapInit [⟨0x800000, 0x2000, 1⟩] (fun _ => 0) (Mem.fresh fun _ => 0))
        [.alloc, .alloc, .free 0x800000] = some h ∧
      getFreePageNum h.mm + h.outstanding.length = 2 := by
  obtain ⟨h, hrun⟩ := Option.isSome_iff_exists.mp (show
    (run heapStep (heapInit [⟨0x800000, 0x2000, 1⟩] (fun _ => 0) (Mem.fresh fun _ => 0))
      [.alloc, .alloc, .free 0x800000]).isSome = true by decide +kernel)
  have hspec := heap_run_spec _ (by decide) _ _ _ h hrun
  exact ⟨h, hrun, hspec.2.2.1.trans (by decide +kernel)⟩

end ListaOS.Mm
