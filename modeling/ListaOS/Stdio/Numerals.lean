/-
  _utoa, _itoh and _ptoa as numerals, and their arrays (libkernel/stdio.c).

  `_itoh` writes 16 digits, lowest first, and takes the leading zeros off: that is the numeral
  in base 16 (`itoh_eq_numeral`). `_ptoa` keeps its 8 digits behind "0x" (`pointerText_ptoa`).

  `utoaBuffers`, `itohBuffers` and `ptoaBuffers` are the functions store by store. Each returns
  the text of the function and stores inside its arrays: `str[30]` and `temp[30]`, `hex[17]` and
  `temp[16]`, `hex[11]` and `temp[8]` (`numerals_exact`). The static arrays hold what earlier
  calls have left there; the array of `_ptoa` keeps the "0x" that it was initialised with.
-/
import ListaOS.Stdio.Buffers

namespace ListaOS.Stdio

open Lib

/-! ## Hexadecimal numerals -/

/-- What a character is worth as a hexadecimal digit of the case. -/
def hexDigit? (uppercase : Bool) (c : BitVec 8) : Option Nat :=
  let ten := if uppercase then 65 else 97
  if 48 ≤ c.toNat ∧ c.toNat ≤ 57 then some (c.toNat - 48)
  else if ten ≤ c.toNat ∧ c.toNat ≤ ten + 5 then some (c.toNat - ten + 10)
  else none

theorem hexDigit?_hexDigit (uppercase : Bool) {d : Nat} (h : d < 16) :
    hexDigit? uppercase (hexDigit uppercase d) = some d := by
  cases uppercase <;> interval_cases d <;> rfl

theorem hexDigit_ne_zero (uppercase : Bool) {d : Nat} (h : d < 16) (hd : d ≠ 0) :
    hexDigit uppercase d ≠ chr '0' := by
  intro heq
  have hworth := hexDigit?_hexDigit uppercase h
  rw [heq] at hworth
  exact hd (Option.some.inj hworth).symm

theorem toNat_shiftRight_four {w : Nat} (num : BitVec w) :
    (num >>> 4).toNat = num.toNat / 16 := by
  rw [BitVec.toNat_ushiftRight, Nat.shiftRight_eq_div_pow]

/-- The loop writes the digits of `num`, filled up with zeros. -/
theorem hexLoop_eq_digits {w : Nat} (uppercase : Bool) (n : Nat) {num : BitVec w}
    (h : num.toNat < 16 ^ n) (temp : List (BitVec 8)) :
    hexLoop uppercase n num temp =
      (List.replicate (n - (Nat.digits 16 num.toNat).length) 0 ++
        (Nat.digits 16 num.toNat).reverse).map (hexDigit uppercase) ++ temp := by
  induction n generalizing num temp with
  | zero =>
    have hzero : num.toNat = 0 := by omega
    rw [hexLoop, hzero]
    rfl
  | succ n ih =>
    have hnext : (num >>> 4).toNat < 16 ^ n := by
      rw [Nat.pow_succ] at h
      rw [toNat_shiftRight_four]
      omega
    rw [hexLoop, ih hnext, toNat_shiftRight_four]
    by_cases hz : num.toNat = 0
    · rw [hz]
      simp [List.replicate_succ']
    · rw [digits_step (by decide) hz, Nat.digits_def' (by decide) (Nat.pos_of_ne_zero hz)]
      simp

theorem stripZeros_replicate (k : Nat) {t : List (BitVec 8)} (ht : t ≠ []) :
    stripZeros (List.replicate k (chr '0') ++ t) = stripZeros t := by
  induction k with
  | zero => rfl
  | succ k ih =>
    obtain ⟨c, u, hcons⟩ : ∃ c u, List.replicate k (chr '0') ++ t = c :: u :=
      List.exists_cons_of_ne_nil (List.append_ne_nil_of_right_ne_nil _ ht)
    rw [List.replicate_succ, List.cons_append, hcons, stripZeros, if_pos rfl, ← hcons, ih]

theorem stripZeros_of_head {t : List (BitVec 8)} (h : t.head? ≠ some (chr '0')) :
    stripZeros t = t := by
  match t with
  | [] => rfl
  | [_] => rfl
  | c :: d :: u => exact if_neg fun hc => h (congrArg some hc)

/-- **_itoh** prints the canonical numeral. -/
theorem itoh_eq_numeral (num : BitVec 64) (uppercase : Bool) :
    itoh num uppercase = (numeral 16 num.toNat).map (hexDigit uppercase) := by
  have hlt := num.isLt
  have hzero : hexDigit uppercase 0 = chr '0' := rfl
  rw [itoh, hexLoop_eq_digits uppercase 16 (by omega), List.append_nil, List.map_append,
    List.map_replicate, hzero, numeral]
  by_cases hz : num.toNat = 0
  · rw [hz]
    rfl
  · have hne : Nat.digits 16 num.toNat ≠ [] := Nat.digits_ne_nil_iff_ne_zero.mpr hz
    rw [if_neg hz, stripZeros_replicate, stripZeros_of_head]
    · rw [List.head?_map, List.head?_reverse, List.getLast?_eq_getLast_of_ne_nil hne]
      intro hhead
      have hlast := Nat.digits_lt_base (b := 16) (by decide) (List.getLast_mem hne)
      exact hexDigit_ne_zero uppercase hlast (Nat.getLast_digit_ne_zero 16 hz) (Option.some.inj hhead)
    · rwa [ne_eq, List.map_eq_nil_iff, List.reverse_eq_nil_iff]

/-- The text of a pointer: "0x" and 8 lower-case hexadecimal digits, of value `n`. -/
def PointerText (t : List (BitVec 8)) (n : Nat) : Prop :=
  ∃ ds, t = chr '0' :: chr 'x' :: ds ∧ ds.length = 8 ∧
    (∀ c ∈ ds, ∃ d < 16, hexDigit? false c = some d) ∧ parse 16 (hexDigit? false) ds = some n

theorem pointerText_ptoa (num : BitVec 32) : PointerText (ptoa num) num.toNat := by
  have hlt := num.isLt
  have hlen : (Nat.digits 16 num.toNat).length ≤ 8 := by
    rw [Nat.digits_length_le_iff (by decide)]
    omega
  generalize hds : List.replicate (8 - (Nat.digits 16 num.toNat).length) 0 ++
    (Nat.digits 16 num.toNat).reverse = ds
  have hloop : hexLoop false 8 num [] = ds.map (hexDigit false) := by
    rw [hexLoop_eq_digits false 8 (by omega), List.append_nil, hds]
  have hdigits : ∀ d ∈ ds, d < 16 := by
    intro d hd
    rw [← hds] at hd
    obtain hd | hd := List.mem_append.mp hd
    · rw [List.eq_of_mem_replicate hd]
      decide
    · exact Nat.digits_lt_base (by decide) (List.mem_reverse.mp hd)
  have hlength : ds.length = 8 := by
    rw [← hds, List.length_append, List.length_replicate, List.length_reverse]
    omega
  refine ⟨ds.map (hexDigit false), ?_, ?_, fun c hc => ?_, ?_⟩
  · rw [ptoa, hloop]
  · rw [List.length_map, hlength]
  · obtain ⟨d, hd, rfl⟩ := List.mem_map.mp hc
    exact ⟨d, hdigits d hd, hexDigit?_hexDigit false (hdigits d hd)⟩
  · have hne : ds ≠ [] := List.ne_nil_of_length_pos (by omega)
    rw [parse_map (fun d hd => hexDigit?_hexDigit false (hdigits d hd)) hne, ← hds,
      numeralValue_replicate, numeralValue_reverse, Nat.ofDigits_digits]

/-! ## The arrays -/

/-- `while (num != 0)` of `_utoa`: `temp[j++] = (char)(num % 10 + '0')`, `num /= 10`. -/
def utoaStores : Nat → Nat → Nat → Mem (BitVec 8) → Option (Nat × Mem (BitVec 8))
  | 0, _, _, _ => none
  | k + 1, num, j, temp =>
      if num ≠ 0 then
        utoaStores k (num / 10) (j + 1) (temp.write j (BitVec.ofNat 8 (num % 10 + 48)))
      else some (j, temp)

/-- `_utoa`, with `str` as the last call left it. -/
def utoaBuffers (k : Nat) (num : BitVec 64) (str : Mem (BitVec 8)) : Option Conversion :=
  if num = 0 then some ⟨CharPtr.ofText [chr '0'], str, emptyTemp⟩
  else
    (utoaStores k num.toNat 0 emptyTemp).map fun (j, temp) =>
      let (i, str) := copyBack j 0 temp str
      let str := str.write i 0
      ⟨⟨str.read, 0⟩, str, temp⟩

/-- The digits from `temp[i]` on, `n` of them. -/
def hexStores {w : Nat} (uppercase : Bool) :
    Nat → Nat → BitVec w → Mem (BitVec 8) → Mem (BitVec 8)
  | 0, _, _, temp => temp
  | n + 1, i, num, temp =>
      hexStores uppercase n (i + 1) (num >>> 4)
        (temp.write i (hexDigit uppercase (num.toNat % 16)))

/-- `while (temp[i - 1] == '0' && i > 1) temp[--i] = '\0';`. It starts at 16 and stops at 1. -/
def stripStores : Nat → Mem (BitVec 8) → Nat × Mem (BitVec 8)
  | 0, temp => (0, temp)
  | i + 1, temp =>
      if temp.read i = chr '0' ∧ 1 < i + 1 then stripStores i (temp.write i 0) else (i + 1, temp)

/-- `_itoh`, with `hex` as the last call left it. -/
def itohBuffers (num : BitVec 64) (uppercase : Bool) (hex : Mem (BitVec 8)) : Conversion :=
  let (i, temp) := stripStores 16 (hexStores uppercase 16 0 num emptyTemp)
  let (j, hex) := copyBack i 0 temp hex
  let hex := hex.write j 0
  ⟨⟨hex.read, 0⟩, hex, temp⟩

/-- The static `hex` of `_ptoa`. -/
structure PtoaArray where
  mem : Mem (BitVec 8)
  zero : mem.read 0 = chr '0'
  x : mem.read 1 = chr 'x'

/-- `static char hex[11] = {'0', 'x'};` -/
def PtoaArray.init : PtoaArray where
  mem := Mem.fresh fun i => [chr '0', chr 'x'].getD i 0
  zero := rfl
  x := rfl

/-- `_ptoa`. -/
def ptoaBuffers (num : BitVec 32) (hex : Mem (BitVec 8)) : Conversion :=
  let temp := hexStores false 8 0 num emptyTemp
  let (j, hex) := copyBack 8 2 temp hex
  let hex := hex.write j 0
  ⟨⟨hex.read, 0⟩, hex, temp⟩

/-- The call returns the text `t`, and stores below index `a` of its static array and below
index `b` of `temp`. -/
structure ConvertsIn (a b : Nat) (f : Nat → Option Conversion) (str : Mem (BitVec 8))
    (t : List (BitVec 8)) (r : Conversion) : Prop where
  returns : Returns f r
  holds : r.result.Holds t
  str : Mem.WritesIn {i | i < a} str r.str
  temp : Mem.WritesIn {i | i < b} emptyTemp r.temp

theorem ConvertsTo.sized {f : Nat → Option Conversion} {str : Mem (BitVec 8)}
    {t : List (BitVec 8)} {r : Conversion} (h : ConvertsTo f str t r) : ConvertsIn 30 30 f str t r :=
  ⟨h.returns, h.holds, h.str, h.temp⟩

/-! ## _utoa -/

theorem itoaStores_natCast (k num j : Nat) (temp : Mem (BitVec 8)) :
    itoaStores k num j temp = utoaStores k num j temp := by
  induction k generalizing num j temp with
  | zero => rfl
  | succ k ih =>
    have hdiv : (num : Int).tdiv 10 = (num / 10 : Nat) := rfl
    have hmod : (num : Int).tmod 10 + 48 = (num % 10 + 48 : Nat) := rfl
    rw [itoaStores, utoaStores, hdiv, hmod, BitVec.ofInt_natCast, ih]
    simp only [ne_eq, Int.natCast_eq_zero]

/-- **_utoa** returns the text `utoa num`, and stays inside its arrays. -/
theorem utoaBuffers_returns (num : BitVec 64) (str : Mem (BitVec 8)) :
    ∃ r, ConvertsIn 30 30 (fun k => utoaBuffers k num str) str (utoa num) r := by
  have hlt := num.isLt
  unfold utoaBuffers utoa
  by_cases hz : num = 0
  · simp only [if_pos hz]
    exact ⟨_, Returns.pure _, CharPtr.holds_ofText _, Mem.WritesIn.refl _ _, Mem.WritesIn.refl _ _⟩
  · simp only [if_neg hz, ← itoaStores_natCast, ← itoaLoop_natCast]
    have hsmall : (num.toNat : Int).natAbs < 10 ^ 20 := by omega
    obtain ⟨r, hr⟩ := stores_spec hsmall [] (Nat.zero_le 1) str
    exact ⟨r, hr.sized⟩

/-! ## _itoh and _ptoa -/

/-- The digits that the loop stores are those of `hexLoop`, in reverse. -/
theorem hexStores_eq {w : Nat} (uppercase : Bool) (n i : Nat) (num : BitVec w)
    (temp : Mem (BitVec 8)) :
    ∃ ds : List (BitVec 8), ds.length = n ∧ (∀ acc, hexLoop uppercase n num acc = ds.reverse ++ acc) ∧
      hexStores uppercase n i num temp = temp.writeList i ds := by
  induction n generalizing i num temp with
  | zero => exact ⟨[], rfl, fun _ => rfl, rfl⟩
  | succ n ih =>
    obtain ⟨ds, hlen, hloop, hstores⟩ := ih (i + 1) (num >>> 4)
      (temp.write i (hexDigit uppercase (num.toNat % 16)))
    refine ⟨hexDigit uppercase (num.toNat % 16) :: ds, congrArg (· + 1) hlen, fun acc => ?_, ?_⟩
    · rw [hexLoop, hloop, List.reverse_cons, List.append_assoc]
      rfl
    · rw [hexStores, hstores]
      rfl

/-- The characters below `n`, in reverse. -/
def backwards (temp : Mem (BitVec 8)) (n : Nat) : List (BitVec 8) :=
  ((List.range n).map temp.read).reverse

theorem backwards_succ (temp : Mem (BitVec 8)) (n : Nat) :
    backwards temp (n + 1) = temp.read n :: backwards temp n := by
  simp [backwards, List.range_succ]

theorem backwards_write (temp : Mem (BitVec 8)) (n : Nat) (c : BitVec 8) :
    backwards (temp.write n c) n = backwards temp n := by
  refine congrArg List.reverse (List.map_congr_left fun i hi => ?_)
  have hlt := List.mem_range.mp hi
  exact Mem.read_write_of_ne temp c (by omega)

/-- The loop leaves what `stripZeros` does: it takes a zero off as long as another digit is
behind it. -/
theorem stripStores_spec (i : Nat) (temp : Mem (BitVec 8)) :
    ∃ temp', stripStores (i + 1) temp = ((stripZeros (backwards temp (i + 1))).length, temp') ∧
      Mem.WritesIn {k | k < i + 1} temp temp' ∧
      backwards temp' (stripZeros (backwards temp (i + 1))).length =
        stripZeros (backwards temp (i + 1)) := by
  induction i generalizing temp with
  | zero =>
    refine ⟨temp, ?_, Mem.WritesIn.refl _ _, rfl⟩
    rw [stripStores, if_neg fun h => absurd h.2 (Nat.lt_irrefl 1)]
    rfl
  | succ i ih =>
    have hstrip : stripZeros (backwards temp (i + 2)) =
        if temp.read (i + 1) = chr '0' then stripZeros (backwards temp (i + 1))
        else backwards temp (i + 2) := by
      rw [backwards_succ, backwards_succ, stripZeros]
    rw [hstrip, stripStores]
    by_cases hzero : temp.read (i + 1) = chr '0'
    · obtain ⟨temp', hres, hwrites, hback⟩ := ih (temp.write (i + 1) 0)
      rw [backwards_write] at hres hback
      refine ⟨temp', ?_, ?_, ?_⟩
      · rw [if_pos ⟨hzero, by omega⟩, if_pos hzero, hres]
      · have hlast : i + 1 ∈ {k | k < i + 1 + 1} := Nat.lt_succ_self _
        exact (Mem.WritesIn.write temp 0 hlast).trans
          (hwrites.mono fun k hk => Nat.lt_succ_of_lt hk)
      · rw [if_pos hzero, hback]
    · refine ⟨temp, ?_, Mem.WritesIn.refl _ _, ?_⟩
      · rw [if_neg fun h => hzero h.1, if_neg hzero]
        simp [backwards]
      · rw [if_neg hzero]
        simp [backwards]

/-- A text copied behind the text `s` that is there, and its NUL. -/
theorem copyBack_spec {a : Nat} {str temp : Mem (BitVec 8)} {s t : List (BitVec 8)}
    (hs : ∀ i c, s[i]? = some c → str.read i = c) (ht : backwards temp t.length = t)
    (hroom : s.length + t.length < a) :
    ∃ str', copyBack t.length s.length temp str = (s.length + t.length, str') ∧
      CharPtr.Holds ⟨(str'.write (s.length + t.length) 0).read, 0⟩ (s ++ t) ∧
      Mem.WritesIn {i | i < a} str (str'.write (s.length + t.length) 0) := by
  have hframe := Mem.writesIn_writeList str s.length t
  refine ⟨str.writeList s.length t, ?_, CharPtr.holds_of_getElem? (fun i c hi => ?_) ?_, ?_⟩
  · rw [copyBack_eq]
    exact congrArg (fun t => (_, str.writeList s.length t)) ht
  · have hlt : i < (s ++ t).length := (List.getElem?_eq_some_iff.mp hi).1
    rw [List.length_append] at hlt
    rw [Nat.zero_add, Mem.read_write_of_ne _ _ (by omega)]
    by_cases his : i < s.length
    · rw [hframe.read i fun hin => absurd hin.1 (by omega)]
      rw [List.getElem?_append_left his] at hi
      exact hs i c hi
    · rw [List.getElem?_append_right (by omega)] at hi
      have hread := Mem.read_writeList str s.length hi
      rwa [Nat.add_sub_cancel' (by omega)] at hread
  · rw [Nat.zero_add, List.length_append, Mem.read_write_self]
  · refine (hframe.mono fun i hi => ?_).trans (Mem.WritesIn.write _ 0 hroom)
    exact Nat.lt_trans hi.2 hroom

/-- The digits of the loop, read back from `temp`. -/
theorem backwards_hexStores {w : Nat} (uppercase : Bool) (n : Nat) (num : BitVec w) :
    backwards (hexStores uppercase n 0 num emptyTemp) n = hexLoop uppercase n num [] ∧
      (hexLoop uppercase n num []).length = n ∧
      Mem.WritesIn {i | i < n} emptyTemp (hexStores uppercase n 0 num emptyTemp) := by
  obtain ⟨ds, rfl, hloop, hstores⟩ := hexStores_eq uppercase n 0 num emptyTemp
  rw [hstores, hloop, List.append_nil, backwards, map_read_writeList, List.length_reverse]
  refine ⟨rfl, rfl, (Mem.writesIn_writeList emptyTemp 0 ds).mono fun i hi => ?_⟩
  have hlt : i < 0 + ds.length := hi.2
  show i < ds.length
  omega

theorem length_stripZeros_le (t : List (BitVec 8)) : (stripZeros t).length ≤ t.length := by
  fun_induction stripZeros t with
  | case1 e ds ih => exact Nat.le_succ_of_le ih
  | case2 d e ds hd => exact Nat.le_refl _
  | case3 ds hds => exact Nat.le_refl _

/-- **_itoh** returns the text `itoh num uppercase`, and stays inside its arrays. -/
theorem itohBuffers_returns (num : BitVec 64) (uppercase : Bool) (hex : Mem (BitVec 8)) :
    ∃ r, ConvertsIn 17 16 (fun _ => some (itohBuffers num uppercase hex)) hex
      (itoh num uppercase) r := by
  obtain ⟨hback, hlen, htemp⟩ := backwards_hexStores uppercase 16 num
  obtain ⟨temp, hstrip, hwrites, hstripped⟩ :=
    stripStores_spec 15 (hexStores uppercase 16 0 num emptyTemp)
  rw [hback] at hstrip hstripped
  have hle := length_stripZeros_le (hexLoop uppercase 16 num [])
  have hnil : ∀ i c, ([] : List (BitVec 8))[i]? = some c → hex.read i = c :=
    fun i c hi => absurd hi (by simp)
  obtain ⟨str, hcopy, hholds, hstr⟩ := copyBack_spec (a := 17) hnil hstripped
    (by rw [List.length_nil]; omega)
  rw [List.length_nil, Nat.zero_add] at hcopy hholds hstr
  have hresult : itohBuffers num uppercase hex =
      ⟨⟨(str.write (itoh num uppercase).length 0).read, 0⟩,
        str.write (itoh num uppercase).length 0, temp⟩ := by
    unfold itohBuffers
    rw [hstrip]
    dsimp only
    rw [hcopy]
    rfl
  rw [hresult]
  exact ⟨_, Returns.pure _, hholds, hstr, htemp.trans hwrites⟩

/-- **_ptoa** returns the text `ptoa num`, stays inside its arrays and leaves the "0x". -/
theorem ptoaBuffers_returns (num : BitVec 32) (hex : PtoaArray) :
    ∃ r, ConvertsIn 11 8 (fun _ => some (ptoaBuffers num hex.mem)) hex.mem (ptoa num) r ∧
      ∃ hex' : PtoaArray, hex'.mem = r.str := by
  obtain ⟨hback, hlen, htemp⟩ := backwards_hexStores false 8 num
  have hprefix : ∀ i c, [chr '0', chr 'x'][i]? = some c → hex.mem.read i = c := by
    intro i c hi
    match i with
    | 0 => exact hex.zero.trans (Option.some.inj hi)
    | 1 => exact hex.x.trans (Option.some.inj hi)
    | i + 2 => cases hi
  obtain ⟨str, hcopy, hholds, hstr⟩ := copyBack_spec (a := 11) hprefix
    (t := hexLoop false 8 num []) (by rw [hlen, hback]) (by rw [hlen]; decide)
  rw [hlen] at hcopy hholds hstr
  have hresult : ptoaBuffers num hex.mem = ⟨⟨(str.write 10 0).read, 0⟩, str.write 10 0,
      hexStores false 8 0 num emptyTemp⟩ := by
    unfold ptoaBuffers
    dsimp only
    rw [show copyBack 8 2 _ hex.mem = _ from hcopy]
    rfl
  rw [hresult]
  refine ⟨_, ⟨Returns.pure _, hholds, hstr, htemp⟩, ⟨_, ?_, ?_⟩, rfl⟩
  · exact hholds.1
  · exact hholds.2.1

/-- However often it has been called, `_ptoa` finds its "0x". -/
theorem exists_ptoaArray (nums : List (BitVec 32)) :
    ∃ hex : PtoaArray,
      hex.mem = nums.foldl (fun mem num => (ptoaBuffers num mem).str) PtoaArray.init.mem := by
  induction nums using List.reverseRecOn with
  | nil => exact ⟨PtoaArray.init, rfl⟩
  | append_singleton nums num ih =>
    obtain ⟨hex, hmem⟩ := ih
    obtain ⟨r, hr, hex', hmem'⟩ := ptoaBuffers_returns num hex
    have hresult : ptoaBuffers num hex.mem = r := (Returns.pure _).unique hr.returns
    refine ⟨hex', ?_⟩
    rw [List.foldl_append, List.foldl_cons, List.foldl_nil, ← hmem, hresult, hmem']

/-- **Numerals.** For every argument and whatever earlier calls have left in the static arrays,
`_utoa` returns the decimal numeral, `_itoh` the hexadecimal one in the case asked for, and
`_ptoa` "0x" and 8 digits, each of the argument's value; every store is inside the arrays. -/
theorem numerals_exact :
    (∀ (num : BitVec 64) (str : Mem (BitVec 8)), ∃ t r,
      ConvertsIn 30 30 (fun k => utoaBuffers k num str) str t r ∧
        NumeralText 10 decimalDigit? (chr '0') t num.toNat) ∧
    (∀ (num : BitVec 64) (uppercase : Bool) (hex : Mem (BitVec 8)), ∃ t r,
      ConvertsIn 17 16 (fun _ => some (itohBuffers num uppercase hex)) hex t r ∧
        NumeralText 16 (hexDigit? uppercase) (chr '0') t num.toNat) ∧
    ∀ (num : BitVec 32) (hex : PtoaArray), ∃ t r,
      ConvertsIn 11 8 (fun _ => some (ptoaBuffers num hex.mem)) hex.mem t r ∧
        (∃ hex' : PtoaArray, hex'.mem = r.str) ∧ PointerText t num.toNat := by
  refine ⟨fun num str => ?_, fun num uppercase hex => ?_, fun num hex => ?_⟩
  · obtain ⟨r, hr⟩ := utoaBuffers_returns num str
    refine ⟨utoa num, r, hr, ?_⟩
    rw [utoa_eq_numeral]
    exact numeralText_decimal num.toNat
  · obtain ⟨r, hr⟩ := itohBuffers_returns num uppercase hex
    refine ⟨itoh num uppercase, r, hr, ?_⟩
    rw [itoh_eq_numeral]
    exact numeralText_map (by decide) (fun _ hd => hexDigit?_hexDigit uppercase hd) num.toNat
  · obtain ⟨r, hr, hkept⟩ := ptoaBuffers_returns num hex
    exact ⟨ptoa num, r, hr, hkept, pointerText_ptoa num⟩

end ListaOS.Stdio
