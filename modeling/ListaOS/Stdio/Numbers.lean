/-
  Numbers as text (libkernel/stdio.c: _utoa, _itoa, _itoh, _ptoa, _ftoa).

  Each function is the text it leaves in its static buffer, up to the NUL. A loop of the
  source stores the lowest digit first and then copies `temp` backwards: here each digit
  goes in front of the ones before it. `_itoa` divides with C's truncating operators and
  negates mod 2^64. `_ftoa` splits its argument with floating-point arithmetic; the split
  (`FloatParts`) is a parameter of the model and the text is built from it as in the source.

  `Plain` texts have no NUL and no '%'; every number is one.
-/
import Mathlib.Data.List.Basic
import Mathlib.Tactic.Common
import Mathlib.Tactic.SplitIfs
import Mathlib.Algebra.Group.Nat.Defs

namespace ListaOS.Stdio

/-- A character constant. -/
def chr (c : Char) : BitVec 8 := BitVec.ofNat 8 c.toNat

/-- `while (num != 0)` of `_utoa`; `temp` has room for 30 digits (`utoaLoop_add`). -/
def utoaLoop : Nat → Nat → List (BitVec 8) → List (BitVec 8)
  | 0, _, temp => temp
  | n + 1, num, temp =>
      if num = 0 then temp
      else utoaLoop n (num / 10) (BitVec.ofNat 8 (num % 10 + 48) :: temp)

def utoa (num : BitVec 64) : List (BitVec 8) :=
  if num = 0 then [chr '0'] else utoaLoop 30 num.toNat []

/-- `while (num != 0)` of `_itoa`: `/` and `%` truncate; room as above (`itoaLoop_add`). -/
def itoaLoop : Nat → Int → List (BitVec 8) → List (BitVec 8)
  | 0, _, temp => temp
  | n + 1, num, temp =>
      if num = 0 then temp
      else itoaLoop n (num.tdiv 10) (BitVec.ofInt 8 (num.tmod 10 + 48) :: temp)

def itoa (num : BitVec 64) : List (BitVec 8) :=
  if num = 0 then [chr '0']
  else if num.toInt < 0 then chr '-' :: itoaLoop 30 (-num).toInt []
  else itoaLoop 30 num.toInt []

def hexDigit (uppercase : Bool) (t : Nat) : BitVec 8 :=
  if t < 10 then BitVec.ofNat 8 (t + 48)
  else BitVec.ofNat 8 (t - 10 + if uppercase then 65 else 97)

/-- `n` hexadecimal digits of `num`. -/
def hexLoop {w : Nat} (uppercase : Bool) : Nat → BitVec w → List (BitVec 8) → List (BitVec 8)
  | 0, _, temp => temp
  | n + 1, num, temp =>
      hexLoop uppercase n (num >>> 4) (hexDigit uppercase (num.toNat % 16) :: temp)

/-- `while (temp[i - 1] == '0' && i > 1)`. -/
def stripZeros : List (BitVec 8) → List (BitVec 8)
  | d :: e :: ds => if d = chr '0' then stripZeros (e :: ds) else d :: e :: ds
  | ds => ds

def itoh (num : BitVec 64) (uppercase : Bool) : List (BitVec 8) :=
  stripZeros (hexLoop uppercase 16 num [])

def ptoa (num : BitVec 32) : List (BitVec 8) := chr '0' :: chr 'x' :: hexLoop false 8 num []

/-- What `_ftoa` computes from a `double`: its sign, the integer and the fractional part
scaled to six digits, and the number `c` of divisions by ten. -/
structure FloatParts where
  negative : Bool
  intPart : BitVec 64
  fracPart : BitVec 64
  c : BitVec 32

def ftoa (num : FloatParts) : List (BitVec 8) :=
  (if num.negative then [chr '-'] else []) ++ utoa num.intPart ++ [chr '.'] ++
    utoa num.fracPart ++ (if 0 < num.c.toInt then itoa (num.c.signExtend 64) else [])

theorem itoaLoop_natCast (n num : Nat) (temp : List (BitVec 8)) :
    itoaLoop n num temp = utoaLoop n num temp := by
  induction n generalizing num temp with
  | zero => rfl
  | succ n ih =>
    rw [itoaLoop, utoaLoop]
    by_cases h : num = 0
    · rw [if_pos h, if_pos (by rw [h]; rfl)]
    · have hdiv : (num : Int).tdiv 10 = (num / 10 : Nat) := rfl
      have hmod : (num : Int).tmod 10 + 48 = (num % 10 + 48 : Nat) := rfl
      rw [if_neg h, if_neg (by omega), hdiv, hmod, BitVec.ofInt_natCast, ih]

/-- `n` digits are enough below 10^n: the loop ends at its exit test. -/
theorem itoaLoop_add (n k : Nat) {num : Int} (h : num.natAbs < 10 ^ n) (temp : List (BitVec 8)) :
    itoaLoop (n + k) num temp = itoaLoop n num temp := by
  induction n generalizing num temp with
  | zero =>
    obtain rfl : num = 0 := by omega
    rw [Nat.zero_add]
    cases k with
    | zero => rfl
    | succ k => exact if_pos rfl
  | succ n ih =>
    rw [Nat.succ_add, itoaLoop, itoaLoop, ih]
    rw [Int.natAbs_tdiv]
    rw [Nat.pow_succ] at h
    show num.natAbs / 10 < 10 ^ n
    omega

theorem utoaLoop_add (n k : Nat) {num : Nat} (h : num < 10 ^ n) (temp : List (BitVec 8)) :
    utoaLoop (n + k) num temp = utoaLoop n num temp := by
  have hnat : (num : Int).natAbs < 10 ^ n := h
  rw [← itoaLoop_natCast, ← itoaLoop_natCast]
  exact itoaLoop_add n k hnat temp

/-! ## Plain texts -/

/-- No NUL and no '%'. -/
def Plain (t : List (BitVec 8)) : Prop := ∀ c ∈ t, c ≠ 0 ∧ c ≠ chr '%'

instance (t : List (BitVec 8)) : Decidable (Plain t) :=
  inferInstanceAs (Decidable (∀ c ∈ t, c ≠ 0 ∧ c ≠ chr '%'))

namespace Plain

theorem nil : Plain [] := fun _ hc => absurd hc List.not_mem_nil

theorem cons {c : BitVec 8} {t : List (BitVec 8)} (hc : c ≠ 0 ∧ c ≠ chr '%') (ht : Plain t) :
    Plain (c :: t) := by
  intro d hd
  obtain rfl | hd := List.mem_cons.mp hd
  · exact hc
  · exact ht d hd

theorem append {t u : List (BitVec 8)} (ht : Plain t) (hu : Plain u) : Plain (t ++ u) := by
  intro c hc
  obtain hc | hc := List.mem_append.mp hc
  · exact ht c hc
  · exact hu c hc

theorem tail {c : BitVec 8} {t : List (BitVec 8)} (h : Plain (c :: t)) : Plain t :=
  fun d hd => h d (List.mem_cons_of_mem c hd)

theorem ne_zero {t : List (BitVec 8)} (h : Plain t) : ∀ c ∈ t, c ≠ 0 := fun c hc => (h c hc).1

/-- Characters after '%' are plain. -/
theorem of_toNat {c : BitVec 8} (h : 38 ≤ c.toNat) : c ≠ 0 ∧ c ≠ chr '%' := by
  refine ⟨fun hc => ?_, fun hc => ?_⟩
  · rw [hc] at h
    exact absurd h (by decide)
  · rw [hc] at h
    exact absurd h (by decide)

end Plain

theorem utoaLoop_digits (n num : Nat) {temp : List (BitVec 8)}
    (h : ∀ c ∈ temp, 48 ≤ c.toNat ∧ c.toNat ≤ 57) :
    ∀ c ∈ utoaLoop n num temp, 48 ≤ c.toNat ∧ c.toNat ≤ 57 := by
  induction n generalizing num temp with
  | zero => exact h
  | succ n ih =>
    rw [utoaLoop]
    split
    · exact h
    · apply ih
      intro c hc
      obtain rfl | hc := List.mem_cons.mp hc
      · rw [BitVec.toNat_ofNat]
        omega
      · exact h c hc

/-- `_utoa` prints decimal digits. -/
theorem utoa_digits (num : BitVec 64) : ∀ c ∈ utoa num, 48 ≤ c.toNat ∧ c.toNat ≤ 57 := by
  unfold utoa
  split
  · intro c hc
    rw [List.mem_singleton.mp hc]
    decide
  · exact utoaLoop_digits 30 num.toNat fun c hc => absurd hc List.not_mem_nil

theorem utoaLoop_suffix (n num : Nat) (temp : List (BitVec 8)) :
    temp <:+ utoaLoop n num temp := by
  induction n generalizing num temp with
  | zero => exact List.suffix_refl temp
  | succ n ih =>
    rw [utoaLoop]
    split
    · exact List.suffix_refl temp
    · exact (List.suffix_cons _ temp).trans (ih _ _)

theorem utoa_ne_nil (num : BitVec 64) : utoa num ≠ [] := by
  unfold utoa
  split
  · exact List.cons_ne_nil _ _
  · rename_i hne
    have hpos : num.toNat ≠ 0 := fun hz => hne (BitVec.eq_of_toNat_eq hz)
    rw [utoaLoop, if_neg hpos]
    intro hnil
    have hsuffix := utoaLoop_suffix 29 (num.toNat / 10) [BitVec.ofNat 8 (num.toNat % 10 + 48)]
    rw [hnil] at hsuffix
    exact absurd (List.suffix_nil.mp hsuffix) (List.cons_ne_nil _ _)

theorem plain_utoa (num : BitVec 64) : Plain (utoa num) := by
  intro c hc
  have h48 := (utoa_digits num c hc).1
  exact Plain.of_toNat (by omega)

/-- The remainder of a negative number is negative: digits from 39 to 57. -/
theorem plain_itoaLoop (n : Nat) (num : Int) {temp : List (BitVec 8)} (h : Plain temp) :
    Plain (itoaLoop n num temp) := by
  induction n generalizing num temp with
  | zero => exact h
  | succ n ih =>
    rw [itoaLoop]
    split
    · exact h
    · refine ih _ (Plain.cons (Plain.of_toNat ?_) h)
      have hlo : -10 < num.tmod 10 := Int.lt_tmod_of_pos num (by decide)
      have hhi : num.tmod 10 < 10 := Int.tmod_lt_of_pos num (by decide)
      rw [BitVec.toNat_ofInt]
      omega

theorem plain_itoa (num : BitVec 64) : Plain (itoa num) := by
  unfold itoa
  split
  · decide
  split
  · exact Plain.cons (by decide) (plain_itoaLoop 30 _ Plain.nil)
  · exact plain_itoaLoop 30 _ Plain.nil

theorem plain_hexLoop {w : Nat} (uppercase : Bool) (n : Nat) (num : BitVec w)
    {temp : List (BitVec 8)} (h : Plain temp) : Plain (hexLoop uppercase n num temp) := by
  induction n generalizing num temp with
  | zero => exact h
  | succ n ih =>
    refine ih _ (Plain.cons (Plain.of_toNat ?_) h)
    unfold hexDigit
    split_ifs <;> rw [BitVec.toNat_ofNat] <;> omega

theorem plain_stripZeros {t : List (BitVec 8)} (h : Plain t) : Plain (stripZeros t) := by
  fun_induction stripZeros t with
  | case1 e ds ih => exact ih h.tail
  | case2 d e ds hd => exact h
  | case3 ds hds => exact h

theorem plain_itoh (num : BitVec 64) (uppercase : Bool) : Plain (itoh num uppercase) :=
  plain_stripZeros (plain_hexLoop uppercase 16 num Plain.nil)

/-- No character of a hexadecimal number lies below '0'. -/
theorem hexLoop_digits {w : Nat} (uppercase : Bool) (n : Nat) (num : BitVec w)
    {temp : List (BitVec 8)} (h : ∀ c ∈ temp, 48 ≤ c.toNat) :
    ∀ c ∈ hexLoop uppercase n num temp, 48 ≤ c.toNat := by
  induction n generalizing num temp with
  | zero => exact h
  | succ n ih =>
    refine ih _ (List.forall_mem_cons.mpr ⟨?_, h⟩)
    unfold hexDigit
    split_ifs <;> rw [BitVec.toNat_ofNat] <;> omega

theorem stripZeros_suffix (t : List (BitVec 8)) : stripZeros t <:+ t := by
  fun_induction stripZeros t with
  | case1 e ds ih => exact ih.trans (List.suffix_cons _ _)
  | case2 d e ds hd => exact List.suffix_refl _
  | case3 ds hds => exact List.suffix_refl _

theorem itoh_digits (num : BitVec 64) (uppercase : Bool) :
    ∀ c ∈ itoh num uppercase, 48 ≤ c.toNat := fun c hc =>
  hexLoop_digits uppercase 16 num (fun _ h => absurd h List.not_mem_nil) c
    ((stripZeros_suffix _).subset hc)

theorem plain_ptoa (num : BitVec 32) : Plain (ptoa num) :=
  Plain.cons (by decide) (Plain.cons (by decide) (plain_hexLoop false 8 num Plain.nil))

theorem plain_ftoa (num : FloatParts) : Plain (ftoa num) := by
  unfold ftoa
  refine ((Plain.append ?_ (plain_utoa _)).append (by decide)).append (plain_utoa _) |>.append ?_
  · split
    · decide
    · exact Plain.nil
  · split
    · exact plain_itoa _
    · exact Plain.nil

/-! ## _itoa and _utoa -/

/-- Below 2^63 the two decimal conversions agree. -/
theorem itoa_eq_utoa {num : BitVec 64} (h : num.toNat < 2 ^ 63) : itoa num = utoa num := by
  have hint : num.toInt = num.toNat := BitVec.toInt_eq_toNat_of_lt (by omega)
  unfold itoa utoa
  rw [hint, if_neg (show ¬ (num.toNat : Int) < 0 by omega), itoaLoop_natCast]

/-- From 2^63 on `_itoa` prints a sign, `_utoa` a digit. -/
theorem itoa_ne_utoa {num : BitVec 64} (h : 2 ^ 63 ≤ num.toNat) (t u : List (BitVec 8)) :
    itoa num ++ t ≠ utoa num ++ u := by
  have hne : num ≠ 0 := by
    intro hz
    rw [hz] at h
    exact absurd h (by decide)
  have hneg : num.toInt < 0 := by
    rw [BitVec.toInt_eq_toNat_cond]
    split
    · omega
    · omega
  have hitoa : (itoa num ++ t).head? = some (chr '-') := by
    unfold itoa
    rw [if_neg hne, if_pos hneg]
    rfl
  intro heq
  rw [heq] at hitoa
  cases hu : utoa num with
  | nil => exact utoa_ne_nil num hu
  | cons d ds =>
    rw [hu] at hitoa
    have hd : d = chr '-' := Option.some.inj hitoa
    have hdigit := utoa_digits num d (by rw [hu]; exact List.mem_cons_self)
    rw [hd] at hdigit
    exact absurd hdigit (by decide)

end ListaOS.Stdio
