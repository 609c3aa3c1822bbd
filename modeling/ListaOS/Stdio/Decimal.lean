/-
  _utoa and _itoa as decimal numerals (libkernel/stdio.c).

  `_utoa` is the numeral of its argument in base ten (`utoa_eq_numeral`), and `_itoa` that of
  the absolute value behind a sign, except for the least number: its negation is itself, so
  the loop of `_itoa` runs on a negative number and its remainders give characters below
  '0' (`decimalText_itoa_iff`).
-/
import ListaOS.Lib.Numeral
import ListaOS.Stdio.Numbers

namespace ListaOS.Stdio

open Lib

/-- The character of a decimal digit. -/
def decimalChar (d : Nat) : BitVec 8 := BitVec.ofNat 8 (d + 48)

/-- What a character is worth as a decimal digit. -/
def decimalDigit? (c : BitVec 8) : Option Nat :=
  if 48 ≤ c.toNat ∧ c.toNat ≤ 57 then some (c.toNat - 48) else none

theorem decimalDigit?_decimalChar {d : Nat} (h : d < 10) :
    decimalDigit? (decimalChar d) = some d := by
  have hchar : (decimalChar d).toNat = d + 48 := by
    rw [decimalChar, BitVec.toNat_ofNat]
    omega
  rw [decimalDigit?, hchar, if_pos ⟨by omega, by omega⟩, Nat.add_sub_cancel]

/-- A text of digits, and their value. -/
def parseNat (t : List (BitVec 8)) : Option Nat := parse 10 decimalDigit? t

/-- The text behind an optional '-'. -/
def unsigned (t : List (BitVec 8)) : List (BitVec 8) :=
  if t.head? = some (chr '-') then t.tail else t

/-- An optional '-', and digits. -/
def parseInt (t : List (BitVec 8)) : Option Int :=
  (parseNat (unsigned t)).map fun (n : Nat) =>
    if t.head? = some (chr '-') then -(n : Int) else (n : Int)

/-- The text is `n` in decimal: a '-' if and only if `n` is negative, then digits, no superfluous
zero in front of them, and parsed it is `n`. -/
structure DecimalText (t : List (BitVec 8)) (n : Int) : Prop where
  sign : t.head? = some (chr '-') ↔ n < 0
  nonempty : unsigned t ≠ []
  digits : ∀ c ∈ unsigned t, ∃ d, decimalDigit? c = some d
  leading : (unsigned t).head? = some (chr '0') → unsigned t = [chr '0']
  value : parseInt t = some n

/-- A decimal text has no NUL. -/
theorem DecimalText.ne_zero {t : List (BitVec 8)} {n : Int} (h : DecimalText t n) :
    ∀ c ∈ t, c ≠ 0 := by
  have hdigits : ∀ c ∈ unsigned t, c ≠ 0 := by
    rintro c hc rfl
    obtain ⟨d, hd⟩ := h.digits 0 hc
    rw [show decimalDigit? 0 = none from rfl] at hd
    cases hd
  unfold unsigned at hdigits
  cases t with
  | nil => exact fun c hc => absurd hc List.not_mem_nil
  | cons a t =>
    split at hdigits
    case isTrue hsign =>
      obtain rfl := Option.some.inj hsign
      intro c hc
      obtain rfl | hc := List.mem_cons.mp hc
      · decide
      · exact hdigits c hc
    case isFalse => exact hdigits

/-- A numeral as text. -/
def decimal (n : Nat) : List (BitVec 8) := (numeral 10 n).map decimalChar

theorem numeralText_decimal (n : Nat) :
    NumeralText 10 decimalDigit? (chr '0') (decimal n) n :=
  numeralText_map (by decide) (fun _ hd => decimalDigit?_decimalChar hd) n

theorem parseNat_decimal (n : Nat) : parseNat (decimal n) = some n := (numeralText_decimal n).value

theorem decimal_ne_nil (n : Nat) : decimal n ≠ [] := (numeralText_decimal n).nonempty

theorem decimal_digits (n : Nat) : ∀ c ∈ decimal n, ∃ d, decimalDigit? c = some d := by
  intro c hc
  obtain ⟨d, -, hd⟩ := (numeralText_decimal n).digits c hc
  exact ⟨d, hd⟩

/-- No digit is a '-'. -/
theorem head?_decimal_ne (n : Nat) : (decimal n).head? ≠ some (chr '-') := by
  intro h
  obtain ⟨d, hd⟩ := decimal_digits n _ (List.mem_of_head? h)
  rw [show decimalDigit? (chr '-') = none from rfl] at hd
  cases hd

/-- A numeral behind the sign that its number needs. -/
theorem decimalText_of_unsigned {t : List (BitVec 8)} {n : Int} {m : Nat}
    (h : unsigned t = decimal m) (hsign : t.head? = some (chr '-') ↔ n < 0)
    (hvalue : (if t.head? = some (chr '-') then -(m : Int) else m) = n) : DecimalText t n where
  sign := hsign
  nonempty := h ▸ decimal_ne_nil m
  digits := h ▸ decimal_digits m
  leading := h ▸ (numeralText_decimal m).leading
  value := by rw [parseInt, h, parseNat_decimal, Option.map_some, hvalue]

theorem decimalText_natCast (n : Nat) : DecimalText (decimal n) n :=
  decimalText_of_unsigned (if_neg (head?_decimal_ne n))
    (iff_of_false (head?_decimal_ne n) (by omega)) (if_neg (head?_decimal_ne n))

theorem decimalText_neg {n : Nat} (h : 0 < n) : DecimalText (chr '-' :: decimal n) (-n) :=
  decimalText_of_unsigned (t := chr '-' :: decimal n) rfl (iff_of_true rfl (by omega)) (if_pos rfl)

/-! ## The loops -/

/-- The loop of `_utoa` puts the digits of `num` in front. -/
theorem utoaLoop_eq_digits (n : Nat) {num : Nat} (h : num < 10 ^ n) (temp : List (BitVec 8)) :
    utoaLoop n num temp = (Nat.digits 10 num).reverse.map decimalChar ++ temp := by
  induction n generalizing num temp with
  | zero =>
    obtain rfl : num = 0 := by omega
    rfl
  | succ n ih =>
    rw [utoaLoop]
    split
    case isTrue hz =>
      rw [hz]
      rfl
    case isFalse hz =>
      rw [Nat.pow_succ] at h
      rw [ih (by omega), digits_step (by decide) hz, List.map_append, List.append_assoc]
      rfl

/-- **_utoa** prints the canonical numeral. -/
theorem utoa_eq_numeral (num : BitVec 64) : utoa num = decimal num.toNat := by
  have hlt := num.isLt
  unfold utoa decimal numeral
  by_cases h : num = 0
  · rw [h]
    rfl
  · have hne : num.toNat ≠ 0 := fun hz => h (BitVec.eq_of_toNat_eq hz)
    rw [if_neg h, if_neg hne, utoaLoop_eq_digits 30 (by omega), List.append_nil]

/-- Above the least number, `_itoa` prints a sign and the absolute value. -/
theorem itoa_eq_decimal {num : BitVec 64} (h : num ≠ BitVec.intMin 64) :
    itoa num = (if num.toInt < 0 then [chr '-'] else []) ++ decimal num.toInt.natAbs := by
  have hlt := num.isLt
  have hint := BitVec.toInt_eq_toNat_cond num
  unfold itoa
  by_cases hz : num = 0
  · rw [hz]
    rfl
  have hne : num.toInt.natAbs ≠ 0 := by
    intro habs
    exact hz (BitVec.eq_of_toInt_eq (Int.natAbs_eq_zero.mp habs))
  have hloop : itoaLoop 30 (num.toInt.natAbs : Int) [] = decimal num.toInt.natAbs := by
    have hsmall : num.toInt.natAbs < 10 ^ 30 := by
      split at hint
      · omega
      · omega
    rw [itoaLoop_natCast, utoaLoop_eq_digits 30 hsmall, List.append_nil, decimal, numeral,
      if_neg hne]
  rw [if_neg hz]
  by_cases hneg : num.toInt < 0
  · rw [if_pos hneg, if_pos hneg, BitVec.toInt_neg_of_ne_intMin h, ← hloop]
    rw [show -num.toInt = (num.toInt.natAbs : Int) by omega]
    rfl
  · rw [if_neg hneg, if_neg hneg, ← hloop]
    rw [show (num.toInt.natAbs : Int) = num.toInt by omega]
    rfl

/-- `-num` is `num`, and the first digit is one below '0'. -/
theorem not_decimalText_intMin : ¬ DecimalText (itoa (BitVec.intMin 64)) (BitVec.intMin 64).toInt := by
  intro h
  obtain ⟨d, hd⟩ := h.digits 0x27 (by decide +kernel)
  rw [show decimalDigit? 0x27 = none from rfl] at hd
  cases hd

theorem decimalText_itoa_iff (num : BitVec 64) :
    DecimalText (itoa num) num.toInt ↔ num ≠ BitVec.intMin 64 := by
  constructor
  · rintro h rfl
    exact not_decimalText_intMin h
  · intro hne
    rw [itoa_eq_decimal hne]
    by_cases hneg : num.toInt < 0
    · have htext := decimalText_neg (n := num.toInt.natAbs) (by omega)
      rw [if_pos hneg]
      rwa [show -(num.toInt.natAbs : Int) = num.toInt by omega] at htext
    · have htext := decimalText_natCast num.toInt.natAbs
      rw [if_neg hneg]
      rwa [show (num.toInt.natAbs : Int) = num.toInt by omega] at htext

end ListaOS.Stdio
