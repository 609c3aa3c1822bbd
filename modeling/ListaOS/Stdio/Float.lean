/-
  _ftoa and decimal fractions (libkernel/stdio.c: _ftoa).

  The source computes in `double`; here the numbers are rationals and every operation is
  exact. For a multiple of 1/64 below 2^44 a `double` holds every value on the way
  (`representable_ftoa`), so that the two agree.

  The fraction is printed by `_utoa`, as a number and without leading zeros: the text has the
  value of `num` exactly if the fraction is zero or fills its six digits
  (`ftoa_parses_iff`).
-/
import ListaOS.Lib.Fuel
import ListaOS.Stdio.Decimal
import Mathlib.Algebra.Order.Floor.Semifield
import Mathlib.Data.Rat.Floor
import Mathlib.Tactic.FieldSimp
import Mathlib.Tactic.Ring

namespace ListaOS.Stdio

open Lib

/-- `while (num > limit) { num /= 10; c++; }` -/
def divideLoop (limit : ℚ) : Nat → ℚ → BitVec 32 → Option (ℚ × BitVec 32)
  | 0, _, _ => none
  | k + 1, num, c =>
      if limit < num then divideLoop limit k (num / 10) (c + 1) else some (num, c)

/-- `UINT64_MAX`, converted to `double` for the comparison. -/
def uint64Max : ℚ := 2 ^ 64

/-- `tempInt` after `n` multiplications. -/
def tempInt (n : BitVec 32) : BitVec 64 := (fun t => t * 10)^[n.toInt.toNat] 1

/-- The arithmetic of `_ftoa`. -/
def floatParts (k : Nat) (num : ℚ) (n : BitVec 32) : Option FloatParts :=
  let negative := decide (num < 0)
  let num := if num < 0 then -num else num
  (divideLoop uint64Max k num 0).bind fun (num, c) =>
    (if c ≠ 0 then divideLoop 10 k num c else some (num, c)).map fun (num, c) =>
      let intPart := BitVec.ofNat 64 ⌊num⌋₊
      let floatPart := num - intPart.toNat
      ⟨negative, intPart, BitVec.ofNat 64 ⌊floatPart * (tempInt n).toNat⌋₊, c⟩

/-- `_ftoa`. -/
def ftoaText (k : Nat) (num : ℚ) (n : BitVec 32) : Option (List (BitVec 8)) :=
  (floatParts k num n).map ftoa

/-! ## Decimal fractions -/

/-- Digits, '.', and digits. -/
def parseFraction (t : List (BitVec 8)) : Option ℚ :=
  let fraction := (t.dropWhile (· ≠ chr '.')).tail
  (parseNat (t.takeWhile (· ≠ chr '.'))).bind fun i =>
    (parseNat fraction).map fun f => (i : ℚ) + f / 10 ^ fraction.length

/-- An optional '-', digits, '.', and digits. -/
def parseDecimal (t : List (BitVec 8)) : Option ℚ :=
  (parseFraction (unsigned t)).map fun q => if t.head? = some (chr '-') then -q else q

theorem decimal_ne_point (n : Nat) : ∀ c ∈ decimal n, decide (c ≠ chr '.') = true := by
  intro c hc
  obtain ⟨d, hd⟩ := decimal_digits n c hc
  refine decide_eq_true fun h => ?_
  rw [h, show decimalDigit? (chr '.') = none from rfl] at hd
  cases hd

theorem parseFraction_decimal (i f : Nat) :
    parseFraction (decimal i ++ chr '.' :: decimal f) =
      some ((i : ℚ) + f / 10 ^ (decimal f).length) := by
  have htake : (decimal i ++ chr '.' :: decimal f).takeWhile (· ≠ chr '.') = decimal i := by
    rw [List.takeWhile_append_of_pos (decimal_ne_point i), List.takeWhile_cons_of_neg (by decide),
      List.append_nil]
  have hdrop : (decimal i ++ chr '.' :: decimal f).dropWhile (· ≠ chr '.') =
      chr '.' :: decimal f := by
    rw [List.dropWhile_append_of_pos (decimal_ne_point i), List.dropWhile_cons_of_neg (by decide)]
  unfold parseFraction
  dsimp only
  rw [htake, hdrop, List.tail_cons, parseNat_decimal, parseNat_decimal]
  rfl

theorem head?_decimal_append (n : Nat) (t : List (BitVec 8)) :
    (decimal n ++ t).head? ≠ some (chr '-') := by
  rw [List.head?_append_of_ne_nil _ (decimal_ne_nil n)]
  exact head?_decimal_ne n

/-- The value of a sign, a numeral, a point and a numeral. -/
theorem parseDecimal_decimal (negative : Bool) (i f : Nat) :
    parseDecimal ((if negative then [chr '-'] else []) ++ (decimal i ++ chr '.' :: decimal f)) =
      some ((if negative then -1 else 1) * ((i : ℚ) + f / 10 ^ (decimal f).length)) := by
  cases negative with
  | true =>
    have hunsigned : unsigned (chr '-' :: (decimal i ++ chr '.' :: decimal f)) =
        decimal i ++ chr '.' :: decimal f := rfl
    show parseDecimal (chr '-' :: (decimal i ++ chr '.' :: decimal f)) = _
    rw [parseDecimal, hunsigned, parseFraction_decimal, Option.map_some]
    refine congrArg some ((if_pos rfl).trans ?_)
    rw [if_pos rfl, neg_one_mul]
  | false =>
    have hhead := head?_decimal_append i (chr '.' :: decimal f)
    have hunsigned : unsigned (decimal i ++ chr '.' :: decimal f) =
        decimal i ++ chr '.' :: decimal f := if_neg hhead
    show parseDecimal (decimal i ++ chr '.' :: decimal f) = _
    rw [parseDecimal, hunsigned, parseFraction_decimal, Option.map_some, if_neg hhead]
    refine congrArg some ?_
    rw [if_neg Bool.false_ne_true, one_mul]

/-! ## Multiples of 1/64 -/

theorem divideLoop_of_le {limit num : ℚ} (h : num ≤ limit) (c : BitVec 32) :
    Returns (fun k => divideLoop limit k num c) (num, c) :=
  Returns.succ ((Returns.pure _).congr fun _ => if_neg (not_lt.mpr h))

theorem abs_sixtyFourth (k : ℤ) :
    (if (k : ℚ) / 64 < 0 then -((k : ℚ) / 64) else (k : ℚ) / 64) = (k.natAbs : ℚ) / 64 := by
  rw [Nat.cast_natAbs, Int.cast_abs]
  split
  case isTrue h =>
    rw [abs_of_neg (by linarith), neg_div]
  case isFalse h =>
    rw [abs_of_nonneg (by linarith)]

theorem sixtyFourth_neg_iff (k : ℤ) : (k : ℚ) / 64 < 0 ↔ k < 0 := by
  rw [div_lt_iff₀ (by norm_num), zero_mul, Int.cast_lt_zero]

/-- Integer part and fraction. -/
theorem sixtyFourth_split (a : Nat) : (a : ℚ) / 64 = (a / 64 : ℕ) + (a % 64 : ℕ) / 64 := by
  have h : (a : ℚ) = 64 * (a / 64 : ℕ) + (a % 64 : ℕ) := by
    exact_mod_cast (Nat.div_add_mod a 64).symm
  linarith

/-- Six digits hold the fraction. -/
theorem scaled_fraction (a : Nat) :
    ((a : ℚ) / 64 - (a / 64 : ℕ)) * (tempInt 6).toNat = (a % 64 * 15625 : ℕ) := by
  have htemp : (tempInt 6).toNat = 1000000 := by decide +kernel
  rw [sixtyFourth_split, add_sub_cancel_left, htemp]
  push_cast
  ring

/-- Integer part, fraction of six digits, and no division by ten. -/
theorem floatParts_returns {k : ℤ} (h : k.natAbs < 2 ^ 50) :
    Returns (fun n => floatParts n ((k : ℚ) / 64) 6)
      ⟨decide (k < 0), BitVec.ofNat 64 (k.natAbs / 64),
        BitVec.ofNat 64 (k.natAbs % 64 * 15625), 0⟩ := by
  have hsmall : (k.natAbs : ℚ) / 64 ≤ uint64Max := by
    have hcast : (k.natAbs : ℚ) < 2 ^ 50 := by exact_mod_cast h
    unfold uint64Max
    linarith
  have hfloor : ⌊(k.natAbs : ℚ) / 64⌋₊ = k.natAbs / 64 := Nat.floor_div_eq_div k.natAbs 64
  have hint : (BitVec.ofNat 64 (k.natAbs / 64)).toNat = k.natAbs / 64 := by
    rw [BitVec.toNat_ofNat]
    omega
  obtain ⟨N, hN⟩ := divideLoop_of_le hsmall 0
  refine ⟨N, fun n hn => ?_⟩
  have hloop : divideLoop uint64Max n ((k.natAbs : ℚ) / 64) 0 = some ((k.natAbs : ℚ) / 64, 0) :=
    hN n hn
  unfold floatParts
  dsimp only
  rw [abs_sixtyFourth, hloop, Option.bind_some, if_neg (not_not.mpr rfl), Option.map_some]
  dsimp only
  rw [hfloor, hint, scaled_fraction, Nat.floor_natCast,
    decide_eq_decide.mpr (sixtyFourth_neg_iff k)]

/-- A multiple of 1/64 of at most 53 bits, which a `double` holds exactly. -/
def Representable (q : ℚ) : Prop := ∃ m : ℤ, m.natAbs < 2 ^ 53 ∧ q = m / 64

theorem Representable.natCast {n : Nat} (h : n < 2 ^ 47) : Representable n := by
  refine ⟨n * 64, by omega, ?_⟩
  push_cast
  ring

/-- Every value on the way: `num`, its integer part, its fraction, and that times `tempInt`. -/
theorem representable_ftoa {k : ℤ} (h : k.natAbs < 2 ^ 50) :
    Representable (k / 64) ∧ Representable (k.natAbs / 64) ∧
      Representable (k.natAbs / 64 : ℕ) ∧
      Representable ((k.natAbs : ℚ) / 64 - (k.natAbs / 64 : ℕ)) ∧
      Representable (((k.natAbs : ℚ) / 64 - (k.natAbs / 64 : ℕ)) * (tempInt 6).toNat) := by
  refine ⟨⟨k, by omega, rfl⟩, ⟨k.natAbs, by omega, by rw [Int.cast_natCast]⟩,
    .natCast (by omega), ⟨(k.natAbs % 64 : ℕ), by omega, ?_⟩, ?_⟩
  · rw [sixtyFourth_split, add_sub_cancel_left, Int.cast_natCast]
  · rw [scaled_fraction]
    exact .natCast (by omega)

/-- What `_ftoa` prints of k/64. -/
def sixtyFourthText (k : ℤ) : List (BitVec 8) :=
  (if k < 0 then [chr '-'] else []) ++
    (decimal (k.natAbs / 64) ++ chr '.' :: decimal (k.natAbs % 64 * 15625))

theorem ftoaText_returns {k : ℤ} (h : k.natAbs < 2 ^ 50) :
    Returns (fun n => ftoaText n ((k : ℚ) / 64) 6) (sixtyFourthText k) := by
  have hint : (BitVec.ofNat 64 (k.natAbs / 64)).toNat = k.natAbs / 64 := by
    rw [BitVec.toNat_ofNat]
    omega
  have hfrac : (BitVec.ofNat 64 (k.natAbs % 64 * 15625)).toNat = k.natAbs % 64 * 15625 := by
    rw [BitVec.toNat_ofNat]
    omega
  have htext : ftoa ⟨decide (k < 0), BitVec.ofNat 64 (k.natAbs / 64),
      BitVec.ofNat 64 (k.natAbs % 64 * 15625), 0⟩ = sixtyFourthText k := by
    unfold ftoa sixtyFourthText
    dsimp only
    rw [utoa_eq_numeral, utoa_eq_numeral, hint, hfrac, if_neg (show ¬ 0 < (0 : BitVec 32).toInt by decide),
      List.append_nil]
    simp only [decide_eq_true_eq, List.append_assoc, List.cons_append, List.nil_append]
  have hparts := (floatParts_returns h).map ftoa
  rwa [htext] at hparts

/-- The printed number: the fraction counts as many digits as `_utoa` printed. -/
theorem parseDecimal_sixtyFourthText (k : ℤ) :
    parseDecimal (sixtyFourthText k) = some ((if k < 0 then -1 else 1 : ℚ) *
      ((k.natAbs / 64 : ℕ) + (k.natAbs % 64 * 15625 : ℕ) /
        10 ^ (decimal (k.natAbs % 64 * 15625)).length)) := by
  have h := parseDecimal_decimal (decide (k < 0)) (k.natAbs / 64) (k.natAbs % 64 * 15625)
  simp only [decide_eq_true_eq] at h
  exact h

theorem sixtyFourth_eq (k : ℤ) : (k : ℚ) / 64 =
    (if k < 0 then -1 else 1) * ((k.natAbs / 64 : ℕ) + (k.natAbs % 64 : ℕ) / 64) := by
  rw [← sixtyFourth_split, Nat.cast_natAbs, Int.cast_abs]
  split
  case isTrue h =>
    have hneg : (k : ℚ) < 0 := Int.cast_lt_zero.mpr h
    rw [abs_of_neg hneg]
    ring
  case isFalse h =>
    have hnonneg : (0 : ℚ) ≤ k := Int.cast_nonneg (by omega)
    rw [abs_of_nonneg hnonneg, one_mul]

/-- Six digits stand for millionths; fewer for more, unless there is nothing to count. -/
theorem fraction_eq_iff (m L : Nat) :
    (m : ℚ) / 10 ^ L = m / 10 ^ 6 ↔ m = 0 ∨ L = 6 := by
  constructor
  · intro h
    by_cases hm : m = 0
    · exact Or.inl hm
    · have hcast : (m : ℚ) ≠ 0 := Nat.cast_ne_zero.mpr hm
      rw [div_eq_mul_inv, div_eq_mul_inv, mul_right_inj' hcast] at h
      have hpow : (10 : ℚ) ^ L = 10 ^ 6 := inv_injective h
      exact Or.inr (pow_right_injective₀ (by norm_num) (by norm_num) hpow)
  · rintro (rfl | rfl)
    · rw [Nat.cast_zero, zero_div, zero_div]
    · rfl

/-- The fraction r/64 has six digits from 7/64 on. -/
theorem length_fraction_eq_iff {r : Nat} (hr : r < 64) (hne : r ≠ 0) :
    (decimal (r * 15625)).length = 6 ↔ 7 ≤ r := by
  rw [decimal, List.length_map, length_numeral_eq_iff (by decide) (by omega)]
  omega

theorem parses_iff (k : ℤ) : parseDecimal (sixtyFourthText k) = some ((k : ℚ) / 64) ↔
    k.natAbs % 64 = 0 ∨ 7 ≤ k.natAbs % 64 := by
  have hmillionths : ((k.natAbs % 64 : ℕ) : ℚ) / 64 = (k.natAbs % 64 * 15625 : ℕ) / 10 ^ 6 := by
    push_cast
    ring
  have hsign : (if k < 0 then -1 else 1 : ℚ) ≠ 0 := by
    split
    · norm_num
    · norm_num
  rw [parseDecimal_sixtyFourthText, sixtyFourth_eq, Option.some_inj, mul_right_inj' hsign,
    add_right_inj, hmillionths, fraction_eq_iff]
  by_cases hr : k.natAbs % 64 = 0
  · exact iff_of_true (Or.inl (by rw [hr, Nat.zero_mul])) (Or.inl hr)
  · rw [length_fraction_eq_iff (Nat.mod_lt _ (by decide)) hr]
    omega

/-- **The printed number.** For num = k/64, `_ftoa(num, 6)` prints a text of value `num` exactly
if the fraction of |num| is zero or at least 7/64, so that it has no leading zero. -/
theorem ftoa_parses_iff (k : ℤ) (h : k.natAbs < 2 ^ 50) :
    (∃ t, Returns (fun n => ftoaText n ((k : ℚ) / 64) 6) t ∧
        parseDecimal t = some ((k : ℚ) / 64)) ↔
      k.natAbs % 64 = 0 ∨ 7 ≤ k.natAbs % 64 := by
  rw [← parses_iff]
  constructor
  · rintro ⟨t, ht, hvalue⟩
    rwa [ht.unique (ftoaText_returns h)] at hvalue
  · exact fun hvalue => ⟨_, ftoaText_returns h, hvalue⟩

/-- 201/64 = 3.140625. -/
theorem ftoa_parses_201 :
    ∃ t, Returns (fun n => ftoaText n (((201 : ℤ) : ℚ) / 64) 6) t ∧
      parseDecimal t = some (((201 : ℤ) : ℚ) / 64) :=
  (ftoa_parses_iff 201 (by decide)).mpr (Or.inr (by decide))

/-- 1/64 is 0.015625; `_ftoa` prints "0.15625". -/
theorem ftoa_drops_zero :
    ¬ ∃ t, Returns (fun n => ftoaText n (((1 : ℤ) : ℚ) / 64) 6) t ∧
      parseDecimal t = some (((1 : ℤ) : ℚ) / 64) := by
  rintro ⟨t, ht, hvalue⟩
  obtain rfl := ht.unique (ftoaText_returns (by decide))
  exact absurd ((parses_iff 1).mp hvalue) (by decide)

end ListaOS.Stdio
