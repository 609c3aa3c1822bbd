/-
  The page allocator on the set of free pages.

  `alloc4kPhys_cases`: alloc_4k_phys either finds no free page, returns NULL and
  changes nothing, or clears the bit of the least free page `p` and returns
  `4096 * p` cut to 32 bits. `free4kPhys_eq`: free_4k_phys sets the bit of the page
  its address lies in. `getFreePageNum_eq_card`: the count is the number of free pages.
-/
import ListaOS.Mm.Init

namespace ListaOS.Mm

open Lib

/-- `s` with another bitmap over the same words. -/
def MmState.withBitmap (s : MmState) (m : Mem (BitVec 32)) : MmState :=
  { s with physMemBitmap := m }

@[simp] theorem MmState.withBitmap_bitmap (s : MmState) (m : Mem (BitVec 32)) :
    (s.withBitmap m).physMemBitmap = m := rfl

/-- The address alloc_4k_phys computes for the page `p`. -/
def frameAddr (p : Nat) : BitVec 32 := BitVec.ofNat 32 (4096 * p)

theorem frameAddr_toNat (p : Nat) : (frameAddr p).toNat = 4096 * p % 2 ^ 32 :=
  BitVec.toNat_ofNat _ _

/-- Below 4 GiB the address names the page. -/
theorem frameAddr_toNat_of_lt {p : Nat} (h : p < 2 ^ 20) : (frameAddr p).toNat = 4096 * p := by
  rw [frameAddr_toNat]
  exact Nat.mod_eq_of_lt (by omega)

theorem frameAddr_ne_zero {p : Nat} (h0 : 0 < p) (h : p < 2 ^ 20) : frameAddr p ≠ 0 := by
  intro e
  have := congrArg BitVec.toNat e
  rw [frameAddr_toNat_of_lt h] at this
  simp at this
  omega

theorem frameAddr_inj {p q : Nat} (hp : p < 2 ^ 20) (hq : q < 2 ^ 20)
    (h : frameAddr p = frameAddr q) : p = q := by
  have := congrArg BitVec.toNat h
  rw [frameAddr_toNat_of_lt hp, frameAddr_toNat_of_lt hq] at this
  omega

/-! ## alloc_4k_phys -/

theorem alloc_addr_eq (i b : Nat) :
    BitVec.ofNat 32 i * 0x1000 * 32 + BitVec.ofNat 32 b * 0x1000 = frameAddr (32 * i + b) := by
  apply BitVec.eq_of_toNat_eq
  rw [frameAddr_toNat]
  simp only [BitVec.toNat_add, BitVec.toNat_mul, BitVec.toNat_ofNat,
    show (0x1000 : BitVec 32).toNat = 4096 from rfl, show (32 : BitVec 32).toNat = 32 from rfl]
  omega

/-- What `alloc_4k_phys` does when its scan stops at word `i`. -/
theorem alloc_word_eq (s : MmState) (i b : Nat) (hb : b < 32) :
    s.physMemBitmap.write i (s.physMemBitmap.read i &&& ~~~(1#32 <<< b)) =
      Bitmap.clearBit s.physMemBitmap (32 * i + b) := by
  unfold Bitmap.clearBit
  rw [Nat.mul_add_div (by decide), Nat.div_eq_of_lt hb, Nat.mul_add_mod, Nat.mod_eq_of_lt hb,
    Nat.add_zero]

theorem allocLoop_cases (s : MmState) (n i : Nat) (hn : i + n = s.physMemBitmapSize)
    (hlow : ∀ j, j < i → s.physMemBitmap.read j = 0) :
    (allocLoop s n i = (s, 0) ∧ freePages s = ∅) ∨
      ∃ p, IsLeast (freePages s : Set Nat) p ∧
        allocLoop s n i =
          (s.withBitmap (Bitmap.clearBit s.physMemBitmap p), frameAddr p) := by
  induction n generalizing i with
  | zero =>
    left
    exact ⟨rfl, Bitmap.members_eq_empty fun j hj => hlow j (by omega)⟩
  | succ n ih =>
    by_cases h : s.physMemBitmap.read i = 0
    · rw [allocLoop, if_pos h]
      apply ih (i + 1) (by omega)
      intro j hj
      rcases Nat.lt_succ_iff_lt_or_eq.mp hj with hj | rfl
      · exact hlow j hj
      · exact h
    · right
      have hlt := (Bitmap.firstBit_spec (s.physMemBitmap.read i) 32 0 (by decide) (by
        obtain ⟨j, hj, hset⟩ := Bitmap.exists_getLsbD_of_ne_zero h
        exact ⟨j, Nat.zero_le j, hj, hset⟩)).1
      refine ⟨_, Bitmap.isLeast_firstBit s.physMemBitmap (by omega) h hlow, ?_⟩
      rw [allocLoop, if_neg h]
      dsimp only
      rw [alloc_addr_eq, alloc_word_eq s i _ hlt]
      rfl

/-- **What `alloc_4k_phys` can do.** -/
theorem alloc4kPhys_cases (s : MmState) :
    (alloc4kPhys s = (s, 0) ∧ freePages s = ∅) ∨
      ∃ p, IsLeast (freePages s : Set Nat) p ∧
        alloc4kPhys s = (s.withBitmap (Bitmap.clearBit s.physMemBitmap p), frameAddr p) :=
  allocLoop_cases s _ 0 (Nat.zero_add _) (by intro j hj; omega)

theorem freePages_clearBit (s : MmState) (p : Nat) :
    freePages (s.withBitmap (Bitmap.clearBit s.physMemBitmap p)) = (freePages s).erase p :=
  Bitmap.members_clearBit (by decide) _ _ _

/-! ## free_4k_phys -/

theorem free4kPhys_eq (s : MmState) (addr : BitVec 32) :
    free4kPhys s addr =
      s.withBitmap (Bitmap.setBit s.physMemBitmap (addr.toNat / 4096)) := by
  unfold free4kPhys Bitmap.setBit
  simp only [bitPos_toNat, BitVec.toNat_udiv]
  rfl

/-- Freeing inside the words in use adds the page; outside it marks nothing. -/
theorem freePages_free4kPhys (s : MmState) (addr : BitVec 32) :
    freePages (free4kPhys s addr) =
      if addr.toNat / 4096 < 32 * s.physMemBitmapSize then
        insert (addr.toNat / 4096) (freePages s)
      else freePages s := by
  rw [free4kPhys_eq]
  split
  · exact Bitmap.members_setBit (by decide) _ ‹_›
  · exact Bitmap.members_setBit_of_ge (by decide) _ (Nat.le_of_not_lt ‹_›)

/-! ## get_free_page_num -/

theorem countBits_eq (n : Nat) (tmp : BitVec 32) (k : Nat) :
    countBits n tmp k = k + Nat.count (fun j => tmp.getLsbD j = true) n := by
  induction n generalizing tmp k with
  | zero => rfl
  | succ n ih =>
    have hbit : tmp &&& 1 = 1 ↔ tmp.getLsbD 0 = true := by
      have := Bitmap.and_one_shiftLeft_eq_zero tmp (b := 0) (by decide)
      rw [BitVec.shiftLeft_zero] at this
      have hcases : tmp &&& 1#32 = 0#32 ∨ tmp &&& 1#32 = 1#32 := by
        have hlt : (tmp &&& 1#32).toNat < 2 := by
          rw [BitVec.toNat_and]
          exact Nat.lt_of_le_of_lt Nat.and_le_right (by decide)
        rcases (by omega : (tmp &&& 1#32).toNat = 0 ∨ (tmp &&& 1#32).toNat = 1) with h | h
        · exact Or.inl (BitVec.eq_of_toNat_eq h)
        · exact Or.inr (BitVec.eq_of_toNat_eq h)
      rcases hcases with h | h
      · rw [this.mp h, show tmp &&& 1 = 0#32 from h]
        decide
      · have h1 : ¬ tmp &&& 1#32 = 0#32 := fun e => absurd (h.symm.trans e) (by decide)
        have h2 : tmp.getLsbD 0 = true := by
          by_contra hf
          exact h1 (this.mpr (by simpa using hf))
        exact ⟨fun _ => h2, fun _ => h⟩
    have hshift : ∀ j, (tmp >>> 1).getLsbD j = tmp.getLsbD (j + 1) := by
      intro j
      rw [BitVec.getLsbD_ushiftRight, Nat.add_comm]
    rw [countBits, ih, Nat.count_succ']
    simp only [hshift, hbit]
    split <;> omega

/-- **`get_free_page_num` counts the free pages.** -/
theorem getFreePageNum_eq_card (s : MmState) : getFreePageNum s = (freePages s).card := by
  unfold getFreePageNum freePages
  rw [Bitmap.card_members]
  induction s.physMemBitmapSize with
  | zero => rfl
  | succ n ih =>
    rw [List.range_succ, List.foldl_append, ih, Nat.mul_succ, Nat.count_add]
    show countBits 32 _ _ = _
    rw [countBits_eq]
    congr 1
    rw [Nat.count_eq_card_filter_range, Nat.count_eq_card_filter_range]
    congr 1
    refine Finset.filter_congr fun b hb => ?_
    rw [Bitmap.bit_word _ _ (Finset.mem_range.mp hb)]

end ListaOS.Mm
