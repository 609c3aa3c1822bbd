/-
  Bitmaps: arrays of `w`-bit words read as sets of naturals.

  Bit `n` is bit `n % w` of word `n / w`. `setBit` and `clearBit` are the two word
  updates (OR with `1 << b`, AND with its complement); `bit_setBit` and
  `bit_clearBit` say what they do to the set. `members m k` is the set held by the
  first `k` words, `firstBit` the scan for the lowest set bit of a word, and
  `isLeast_firstBit` says that scanning words, then bits, finds the least member.
-/
import ListaOS.Lib.Mem
import Mathlib.Data.Nat.Count
import Mathlib.Order.Bounds.Basic

namespace ListaOS.Lib.Bitmap

variable {w : Nat}

/-- Bit `n` of the bitmap. -/
def bit (m : Mem (BitVec w)) (n : Nat) : Bool := (m.read (n / w)).getLsbD (n % w)

def setBit (m : Mem (BitVec w)) (n : Nat) : Mem (BitVec w) :=
  m.write (n / w) (m.read (n / w) ||| 1#w <<< (n % w))

def clearBit (m : Mem (BitVec w)) (n : Nat) : Mem (BitVec w) :=
  m.write (n / w) (m.read (n / w) &&& ~~~(1#w <<< (n % w)))

theorem getLsbD_one_shiftLeft (n j : Nat) (hn : n < w) :
    (1#w <<< n).getLsbD j = decide (j = n) := by
  have h : 1#w <<< n = BitVec.twoPow w n := rfl
  rw [h, BitVec.getLsbD_twoPow]
  simp [hn, eq_comm]

/-- Word and position determine the bit. -/
theorem eq_of_div_mod {n k : Nat} (hd : k / w = n / w) (hm : k % w = n % w) : k = n := by
  rw [← Nat.div_add_mod k w, hd, hm, Nat.div_add_mod]

theorem bit_setBit (hw : 0 < w) (m : Mem (BitVec w)) (n k : Nat) :
    bit (setBit m n) k = (bit m k || decide (k = n)) := by
  unfold bit setBit
  rw [Mem.read_write]
  by_cases hk : k / w = n / w
  · have hkn : k % w = n % w ↔ k = n := ⟨eq_of_div_mod hk, fun e => by rw [e]⟩
    rw [if_pos hk, BitVec.getLsbD_or, getLsbD_one_shiftLeft _ _ (Nat.mod_lt n hw), hk]
    simp only [hkn]
  · have hne : k ≠ n := fun e => hk (by rw [e])
    simp [hk, hne]

theorem bit_clearBit (hw : 0 < w) (m : Mem (BitVec w)) (n k : Nat) :
    bit (clearBit m n) k = (bit m k && decide (k ≠ n)) := by
  unfold bit clearBit
  rw [Mem.read_write]
  by_cases hk : k / w = n / w
  · have hkn : k % w = n % w ↔ k = n := ⟨eq_of_div_mod hk, fun e => by rw [e]⟩
    have hlt : k % w < w := Nat.mod_lt k hw
    rw [if_pos hk, BitVec.getLsbD_and, BitVec.getLsbD_not,
      getLsbD_one_shiftLeft _ _ (Nat.mod_lt n hw), hk]
    simp [hlt, hkn]
  · have hne : k ≠ n := fun e => hk (by rw [e])
    simp [hk, hne]

/-- The bits of word `i` are the bits `w * i + b` of the bitmap. -/
theorem bit_word (m : Mem (BitVec w)) (i : Nat) {b : Nat} (hb : b < w) :
    bit m (w * i + b) = (m.read i).getLsbD b := by
  unfold bit
  rw [Nat.mul_add_div (by omega), Nat.div_eq_of_lt hb, Nat.mul_add_mod, Nat.mod_eq_of_lt hb,
    Nat.add_zero]

theorem clearBit_setBit_cell (hw : 0 < w) (m : Mem (BitVec w)) (n : Nat) (h : bit m n = true) :
    (setBit (clearBit m n) n).cell = m.cell := by
  funext i
  show (setBit (clearBit m n) n).read i = m.read i
  apply BitVec.eq_of_getLsbD_eq
  intro b hb
  rw [← bit_word _ i hb, ← bit_word _ i hb, bit_setBit hw, bit_clearBit hw]
  by_cases e : w * i + b = n
  · simp [e, h]
  · simp [e]

/-! ## The set held by the first words -/

/-- The members held by the first `k` words. -/
def members (m : Mem (BitVec w)) (k : Nat) : Finset Nat :=
  (Finset.range (w * k)).filter fun n => bit m n = true

theorem mem_members {m : Mem (BitVec w)} {k n : Nat} :
    n ∈ members m k ↔ n < w * k ∧ bit m n = true := by
  simp [members]

/-- The members determine the words. -/
theorem read_eq_of_members {m m' : Mem (BitVec w)} {k : Nat} (h : members m k = members m' k)
    {i : Nat} (hi : i < k) : m.read i = m'.read i := by
  apply BitVec.eq_of_getLsbD_eq
  intro b hb
  have hlt : w * i + b < w * k := by
    have hle : w * (i + 1) ≤ w * k := Nat.mul_le_mul_left w hi
    rw [Nat.mul_succ] at hle
    omega
  have hiff : w * i + b ∈ members m k ↔ w * i + b ∈ members m' k := by rw [h]
  rw [mem_members, mem_members, and_congr_right_iff] at hiff
  rw [← bit_word m i hb, ← bit_word m' i hb]
  exact Bool.eq_iff_iff.mpr (hiff hlt)

theorem members_clearBit (hw : 0 < w) (m : Mem (BitVec w)) (k n : Nat) :
    members (clearBit m n) k = (members m k).erase n := by
  ext j
  simp only [mem_members, Finset.mem_erase, bit_clearBit hw, Bool.and_eq_true, decide_eq_true_eq]
  tauto

theorem members_setBit (hw : 0 < w) (m : Mem (BitVec w)) {k n : Nat} (hn : n < w * k) :
    members (setBit m n) k = insert n (members m k) := by
  ext j
  simp only [mem_members, Finset.mem_insert, bit_setBit hw, Bool.or_eq_true, decide_eq_true_eq]
  constructor
  · intro hin
    obtain ⟨hj, h | h⟩ := hin
    · exact Or.inr ⟨hj, h⟩
    · exact Or.inl h
  · intro hin
    obtain rfl | ⟨hj, h⟩ := hin
    · exact ⟨hn, Or.inr rfl⟩
    · exact ⟨hj, Or.inl h⟩

theorem members_setBit_of_ge (hw : 0 < w) (m : Mem (BitVec w)) {k n : Nat} (hn : w * k ≤ n) :
    members (setBit m n) k = members m k := by
  ext j
  simp only [mem_members, bit_setBit hw, Bool.or_eq_true, decide_eq_true_eq]
  constructor
  · intro hin
    obtain ⟨hj, h | h⟩ := hin
    · exact ⟨hj, h⟩
    · omega
  · intro hin
    obtain ⟨hj, h⟩ := hin
    exact ⟨hj, Or.inl h⟩

theorem card_members (m : Mem (BitVec w)) (k : Nat) :
    (members m k).card = Nat.count (fun n => bit m n = true) (w * k) := by
  rw [Nat.count_eq_card_filter_range]
  rfl

/-! ## The lowest set bit -/

/-- Scan the word upwards from bit `b`, looking at `fuel` bits. -/
def firstBit (x : BitVec w) : (fuel b : Nat) → Nat
  | 0, b => b
  | fuel + 1, b => if x &&& 1#w <<< b = 0#w then firstBit x fuel (b + 1) else b

theorem and_one_shiftLeft_eq_zero (x : BitVec w) {b : Nat} (hb : b < w) :
    x &&& 1#w <<< b = 0#w ↔ x.getLsbD b = false := by
  constructor
  · intro h
    have := congrArg (fun y => BitVec.getLsbD y b) h
    simpa [BitVec.getLsbD_and, getLsbD_one_shiftLeft b b hb] using this
  · intro h
    apply BitVec.eq_of_getLsbD_eq
    intro j hj
    rw [BitVec.getLsbD_and, getLsbD_one_shiftLeft b j hb, BitVec.getLsbD_zero]
    by_cases e : j = b
    · simp [e, h]
    · simp [e]

/-- The scan from `b` stops at a set bit with only clear bits before it, if some
    bit from `b` on is set. -/
theorem firstBit_spec (x : BitVec w) (fuel b : Nat) (hf : b + fuel = w)
    (hx : ∃ j, b ≤ j ∧ j < w ∧ x.getLsbD j = true) :
    firstBit x fuel b < w ∧ x.getLsbD (firstBit x fuel b) = true ∧
      ∀ j, b ≤ j → j < firstBit x fuel b → x.getLsbD j = false := by
  induction fuel generalizing b with
  | zero =>
    obtain ⟨j, h1, h2, _⟩ := hx
    omega
  | succ fuel ih =>
    have hb : b < w := by omega
    unfold firstBit
    by_cases h : x.getLsbD b = true
    · rw [if_neg (by rw [and_one_shiftLeft_eq_zero x hb, h]; decide)]
      exact ⟨hb, h, fun j h1 h2 => by omega⟩
    · have h' : x.getLsbD b = false := by simpa using h
      rw [if_pos ((and_one_shiftLeft_eq_zero x hb).mpr h')]
      obtain ⟨j, h1, h2, h3⟩ := hx
      have hjb : j ≠ b := fun e => h (e ▸ h3)
      obtain ⟨hlt, hset, hlow⟩ := ih (b + 1) (by omega) ⟨j, by omega, h2, h3⟩
      refine ⟨hlt, hset, fun i hi1 hi2 => ?_⟩
      rcases Nat.lt_or_eq_of_le hi1 with hi | hi
      · exact hlow i hi hi2
      · rw [← hi]; exact h'

theorem exists_getLsbD_of_ne_zero {x : BitVec w} (hx : x ≠ 0#w) :
    ∃ j, j < w ∧ x.getLsbD j = true := by
  by_contra hno
  apply hx
  apply BitVec.eq_of_getLsbD_eq
  intro j hj
  rw [BitVec.getLsbD_zero]
  by_contra h
  exact hno ⟨j, hj, by simpa using h⟩

/-- The first set bit of the first nonzero word is the least member. -/
theorem isLeast_firstBit (m : Mem (BitVec w)) {k i : Nat} (hi : i < k) (hne : m.read i ≠ 0#w)
    (hlow : ∀ j, j < i → m.read j = 0#w) :
    IsLeast (members m k : Set Nat) (w * i + firstBit (m.read i) w 0) := by
  obtain ⟨j, hjw, hj⟩ := exists_getLsbD_of_ne_zero hne
  obtain ⟨hlt, hset, hfirst⟩ :=
    firstBit_spec (m.read i) w 0 (by omega) ⟨j, by omega, hjw, hj⟩
  constructor
  · rw [Finset.mem_coe, mem_members, bit_word m i hlt]
    have : w * (i + 1) ≤ w * k := Nat.mul_le_mul_left w hi
    rw [Nat.mul_add] at this
    exact ⟨by omega, hset⟩
  · intro n hn
    rw [Finset.mem_coe, mem_members] at hn
    by_contra hlt'
    have hn' : n < w * i + firstBit (m.read i) w 0 := by omega
    -- a smaller member sits in an earlier word (all zero) or lower in this word
    rcases Nat.lt_or_ge n (w * i) with h | h
    · have hq : n / w < i := Nat.div_lt_of_lt_mul h
      have : bit m n = false := by
        unfold bit
        rw [hlow _ hq]
        exact BitVec.getLsbD_zero
      rw [this] at hn
      exact absurd hn.2 (by decide)
    · obtain ⟨b, rfl⟩ := Nat.exists_eq_add_of_le h
      have hb : b < firstBit (m.read i) w 0 := by omega
      have := hfirst b (by omega) hb
      rw [← bit_word m i (by omega), hn.2] at this
      exact absurd this (by decide)

theorem members_eq_empty {m : Mem (BitVec w)} {k : Nat}
    (h : ∀ j, j < k → m.read j = 0#w) : members m k = ∅ := by
  ext n
  simp only [mem_members, Finset.notMem_empty, iff_false, not_and]
  intro hn
  unfold bit
  rw [h _ (Nat.div_lt_of_lt_mul hn)]
  simp

end ListaOS.Lib.Bitmap
