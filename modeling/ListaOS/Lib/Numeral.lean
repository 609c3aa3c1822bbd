/-
  Positional numerals, most significant digit first.

  `numeral b n` is the canonical numeral of `n`: digits below `b`, none of them a superfluous
  leading zero (`canonical_numeral`), and of value `n` (`numeralValue_numeral`). `parse` reads
  a text over any alphabet, given what each character is worth; a numeral written with
  characters that it knows is parsed to its value (`parse_map`), and is the text of its number
  (`numeralText_map`).
-/
import Mathlib.Data.Nat.Digits.Lemmas

namespace ListaOS.Lib

/-- The number that the digits stand for. -/
def numeralValue (b : Nat) (ds : List Nat) : Nat := ds.foldl (fun n d => n * b + d) 0

def numeral (b n : Nat) : List Nat := if n = 0 then [0] else (Nat.digits b n).reverse

/-- Digits of the base, at least one, and a leading zero only for zero. -/
structure Canonical (b : Nat) (ds : List Nat) : Prop where
  nonempty : ds ≠ []
  digits : ∀ d ∈ ds, d < b
  leading : ds.head? = some 0 → ds = [0]

theorem numeralValue_snoc (b : Nat) (ds : List Nat) (d : Nat) :
    numeralValue b (ds ++ [d]) = numeralValue b ds * b + d := by
  unfold numeralValue
  rw [List.foldl_append, List.foldl_cons, List.foldl_nil]

theorem numeralValue_reverse (b : Nat) (ds : List Nat) :
    numeralValue b ds.reverse = Nat.ofDigits b ds := by
  induction ds with
  | nil => rfl
  | cons d ds ih =>
    rw [List.reverse_cons, numeralValue_snoc, ih, Nat.ofDigits_cons, Nat.mul_comm, Nat.add_comm]

/-- **A numeral has the value of its number.** -/
theorem numeralValue_numeral (b n : Nat) : numeralValue b (numeral b n) = n := by
  unfold numeral
  split
  case isTrue h =>
    rw [h]
    exact Nat.zero_mul b
  case isFalse => rw [numeralValue_reverse, Nat.ofDigits_digits]

theorem canonical_numeral {b : Nat} (hb : 1 < b) (n : Nat) : Canonical b (numeral b n) := by
  unfold numeral
  split
  case isTrue =>
    refine ⟨List.cons_ne_nil 0 [], fun d hd => ?_, fun _ => rfl⟩
    rw [List.mem_singleton.mp hd]
    exact Nat.lt_trans Nat.zero_lt_one hb
  case isFalse h =>
    have hne : Nat.digits b n ≠ [] := Nat.digits_ne_nil_iff_ne_zero.mpr h
    refine ⟨?_, fun d hd => Nat.digits_lt_base hb (List.mem_reverse.mp hd), fun hhead => ?_⟩
    · rwa [ne_eq, List.reverse_eq_nil_iff]
    · rw [List.head?_reverse, List.getLast?_eq_getLast_of_ne_nil hne] at hhead
      exact absurd (Option.some.inj hhead) (Nat.getLast_digit_ne_zero b h)

/-- The length of a positive number's numeral. -/
theorem length_numeral_eq_iff {b n k : Nat} (hb : 1 < b) (hn : n ≠ 0) :
    (numeral b n).length = k + 1 ↔ b ^ k ≤ n ∧ n < b ^ (k + 1) := by
  rw [numeral, if_neg hn, List.length_reverse, ← Nat.digits_length_le_iff hb,
    ← Nat.lt_digits_length_iff hb]
  omega

/-- The last digit is the remainder, and the others are the numeral of the quotient. -/
theorem digits_step {b n : Nat} (hb : 1 < b) (hn : n ≠ 0) :
    (Nat.digits b n).reverse = (Nat.digits b (n / b)).reverse ++ [n % b] := by
  rw [Nat.digits_def' hb (Nat.pos_of_ne_zero hn), List.reverse_cons]

/-! ## Parsing -/

section

variable {χ : Type} (b : Nat) (digit? : χ → Option Nat)

/-- The value of the digits so far, and then those of `t`. -/
def parseFrom : Nat → List χ → Option Nat
  | n, [] => some n
  | n, c :: t => (digit? c).bind fun d => parseFrom (n * b + d) t

/-- The value of a text of digits. -/
def parse : List χ → Option Nat
  | [] => none
  | c :: t => parseFrom b digit? 0 (c :: t)

variable {b digit?}

theorem parseFrom_map {char : Nat → χ} {ds : List Nat} (h : ∀ d ∈ ds, digit? (char d) = some d)
    (n : Nat) : parseFrom b digit? n (ds.map char) = some (ds.foldl (fun n d => n * b + d) n) := by
  induction ds generalizing n with
  | nil => rfl
  | cons d ds ih =>
    rw [List.map_cons, parseFrom, h d List.mem_cons_self, Option.bind_some,
      ih fun e he => h e (List.mem_cons_of_mem d he), List.foldl_cons]

theorem parse_map {char : Nat → χ} {ds : List Nat} (h : ∀ d ∈ ds, digit? (char d) = some d)
    (hne : ds ≠ []) : parse b digit? (ds.map char) = some (numeralValue b ds) := by
  cases ds with
  | nil => exact absurd rfl hne
  | cons d ds => exact parseFrom_map h 0

/-- Zeros in front do not change the value. -/
theorem numeralValue_replicate (b k : Nat) (ds : List Nat) :
    numeralValue b (List.replicate k 0 ++ ds) = numeralValue b ds := by
  induction k with
  | zero => rfl
  | succ k ih =>
    rw [List.replicate_succ, List.cons_append, ← ih]
    unfold numeralValue
    rw [List.foldl_cons, Nat.zero_mul]

/-- A text without `c` ends at the `c` behind it. -/
theorem append_cons_inj {c : χ} {t t' u u' : List χ} (ht : c ∉ t) (ht' : c ∉ t')
    (h : t ++ c :: u = t' ++ c :: u') : t = t' ∧ u = u' := by
  induction t generalizing t' with
  | nil =>
    cases t' with
    | nil => exact ⟨rfl, (List.cons.inj h).2⟩
    | cons d t' => exact absurd ((List.cons.inj h).1 ▸ List.mem_cons_self) ht'
  | cons d t ih =>
    cases t' with
    | nil => exact absurd ((List.cons.inj h).1 ▸ List.mem_cons_self) ht
    | cons e t' =>
      obtain ⟨rfl, hrest⟩ := List.cons.inj h
      obtain ⟨rfl, hu⟩ := ih (fun hin => ht (List.mem_cons_of_mem d hin))
        (fun hin => ht' (List.mem_cons_of_mem d hin)) hrest
      exact ⟨rfl, hu⟩

/-! ## Numerals as text -/

variable (b digit?) in
/-- The text is `n` in base `b`: digits, no superfluous `zero` in front of them, `zero` alone
for 0, and parsed it is `n`. -/
structure NumeralText (zero : χ) (t : List χ) (n : Nat) : Prop where
  nonempty : t ≠ []
  digits : ∀ c ∈ t, ∃ d < b, digit? c = some d
  leading : t.head? = some zero → t = [zero]
  eq_zero : n = 0 → t = [zero]
  value : parse b digit? t = some n

/-- **The digits of a numeral, each as the character that stands for it.** -/
theorem numeralText_map (hb : 1 < b) {char : Nat → χ} (hchar : ∀ d < b, digit? (char d) = some d)
    (n : Nat) : NumeralText b digit? (char 0) ((numeral b n).map char) n := by
  obtain ⟨hne, hdigits, hleading⟩ := canonical_numeral hb n
  refine ⟨fun hnil => hne (List.map_eq_nil_iff.mp hnil), fun c hc => ?_, fun hhead => ?_,
    fun hzero => ?_, ?_⟩
  · obtain ⟨d, hd, rfl⟩ := List.mem_map.mp hc
    exact ⟨d, hdigits d hd, hchar d (hdigits d hd)⟩
  · rw [List.head?_map, Option.map_eq_some_iff] at hhead
    obtain ⟨d, hd, heq⟩ := hhead
    have hworth := hchar d (hdigits d (List.mem_of_head? hd))
    rw [heq, hchar 0 (Nat.lt_trans Nat.zero_lt_one hb)] at hworth
    obtain rfl := Option.some.inj hworth
    rw [hleading hd]
    rfl
  · rw [hzero]
    rfl
  · rw [parse_map (fun d hd => hchar d (hdigits d hd)) hne, numeralValue_numeral]

end

end ListaOS.Lib
