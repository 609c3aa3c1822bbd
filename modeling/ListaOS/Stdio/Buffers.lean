/-
  The arrays of the number conversions (libkernel/stdio.c).

  `_itoa` stores its digits into `temp`, lowest first, and copies them back to front into the
  static `str`, which keeps what earlier calls left behind the NUL. `itoaBuffers` is that code,
  store by store, and `itoaBuffers_returns` says that it returns the text `itoa num` and stores
  below index 30 of both arrays, whatever `num` is.
-/
import ListaOS.Stdio.Decimal
import ListaOS.Stdio.Format

namespace ListaOS.Stdio

open Lib

/-- What a conversion returns, and its arrays afterwards. -/
structure Conversion where
  result : CharPtr
  str : Mem (BitVec 8)
  temp : Mem (BitVec 8)

/-- `char temp[30] = {'\0'};` -/
def emptyTemp : Mem (BitVec 8) := Mem.fresh fun _ => 0

/-- `while (num != 0)`: `temp[j++] = (char)(num % 10 + '0')`, `num /= 10`. -/
def itoaStores : Nat → Int → Nat → Mem (BitVec 8) → Option (Nat × Mem (BitVec 8))
  | 0, _, _, _ => none
  | k + 1, num, j, temp =>
      if num ≠ 0 then
        itoaStores k (num.tdiv 10) (j + 1) (temp.write j (BitVec.ofInt 8 (num.tmod 10 + 48)))
      else some (j, temp)

/-- `while (j > 0) str[i++] = temp[--j];` -/
def copyBack : Nat → Nat → Mem (BitVec 8) → Mem (BitVec 8) → Nat × Mem (BitVec 8)
  | 0, i, _, str => (i, str)
  | j + 1, i, temp, str => copyBack j (i + 1) temp (str.write i (temp.read j))

/-- `_itoa`, with `str` as the last call left it. -/
def itoaBuffers (k : Nat) (num : BitVec 64) (str : Mem (BitVec 8)) : Option Conversion :=
  if num = 0 then some ⟨CharPtr.ofText [chr '0'], str, emptyTemp⟩
  else
    let (i, str, num) :=
      if num.toInt < 0 then (1, str.write 0 (chr '-'), -num) else (0, str, num)
    (itoaStores k num.toInt 0 emptyTemp).map fun (j, temp) =>
      let (i, str) := copyBack j i temp str
      let str := str.write i 0
      ⟨⟨str.read, 0⟩, str, temp⟩

/-! ## The loops -/

/-- The digits that the loop stores are those of `itoaLoop`, in reverse. -/
theorem itoaStores_returns (n : Nat) {num : Int} (h : num.natAbs < 10 ^ n) (j : Nat)
    (temp : Mem (BitVec 8)) :
    ∃ ds : List (BitVec 8), ds.length ≤ n ∧ (∀ acc, itoaLoop n num acc = ds.reverse ++ acc) ∧
      Returns (fun k => itoaStores k num j temp) (j + ds.length, temp.writeList j ds) := by
  induction n generalizing num j temp with
  | zero =>
    obtain rfl : num = 0 := by omega
    exact ⟨[], Nat.le_refl 0, fun acc => rfl, Returns.succ (Returns.pure _)⟩
  | succ n ih =>
    by_cases hz : num = 0
    · refine ⟨[], Nat.zero_le _, fun acc => ?_, Returns.succ ((Returns.pure _).congr fun k => ?_)⟩
      · rw [itoaLoop, if_pos hz]
        rfl
      · rw [itoaStores, if_neg (not_not.mpr hz)]
        rfl
    · have hnext : (num.tdiv 10).natAbs < 10 ^ n := by
        rw [Nat.pow_succ] at h
        rw [Int.natAbs_tdiv]
        show num.natAbs / 10 < 10 ^ n
        omega
      obtain ⟨ds, hlen, hloop, hret⟩ := ih hnext (j + 1)
        (temp.write j (BitVec.ofInt 8 (num.tmod 10 + 48)))
      refine ⟨BitVec.ofInt 8 (num.tmod 10 + 48) :: ds, ?_, fun acc => ?_, ?_⟩
      · exact Nat.succ_le_succ hlen
      · rw [itoaLoop, if_neg hz, hloop, List.reverse_cons, List.append_assoc]
        rfl
      · rw [Nat.add_assoc, Nat.add_comm 1] at hret
        refine Returns.succ (hret.congr fun k => ?_)
        rw [itoaStores, if_pos hz]

/-- The characters below `j`, in reverse, from `i` on. -/
theorem copyBack_eq (j i : Nat) (temp str : Mem (BitVec 8)) :
    copyBack j i temp str = (i + j, str.writeList i ((List.range j).map temp.read).reverse) := by
  induction j generalizing i str with
  | zero => rfl
  | succ j ih =>
    rw [copyBack, ih, List.range_succ, List.map_append, List.reverse_append, Nat.add_assoc,
      Nat.add_comm 1]
    rfl

theorem map_read_writeList (temp : Mem (BitVec 8)) (ds : List (BitVec 8)) :
    (List.range ds.length).map (temp.writeList 0 ds).read = ds := by
  apply List.ext_getElem
  · rw [List.length_map, List.length_range]
  · intro i hi hi'
    have hread := Mem.read_writeList temp 0 (List.getElem?_eq_getElem hi')
    rw [Nat.zero_add] at hread
    rw [List.getElem_map, List.getElem_range, hread]

/-! ## The text -/

theorem CharPtr.holds_of_getElem? {f : Nat → BitVec 8} {t : List (BitVec 8)} {a : Nat}
    (htext : ∀ i c, t[i]? = some c → f (a + i) = c) (hnul : f (a + t.length) = 0) :
    CharPtr.Holds ⟨f, a⟩ t := by
  induction t generalizing a with
  | nil => exact hnul
  | cons c t ih =>
    refine ⟨htext 0 c rfl, ih (a := a + 1) (fun i d hi => ?_) ?_⟩
    · rw [Nat.add_assoc, Nat.add_comm 1]
      exact htext (i + 1) d hi
    · rw [Nat.add_assoc, Nat.add_comm 1]
      exact hnul

/-- A pointer holds one text without a NUL. -/
theorem CharPtr.holds_unique {p : CharPtr} {t u : List (BitVec 8)} (ht : p.Holds t) (hu : p.Holds u)
    (ht0 : ∀ c ∈ t, c ≠ 0) (hu0 : ∀ c ∈ u, c ≠ 0) : t = u := by
  induction t generalizing p u with
  | nil =>
    cases u with
    | nil => rfl
    | cons d u =>
      have hd : d = 0 := hu.1.symm.trans ht
      exact absurd hd (hu0 d List.mem_cons_self)
  | cons c t ih =>
    cases u with
    | nil =>
      have hc : c = 0 := ht.1.symm.trans hu
      exact absurd hc (ht0 c List.mem_cons_self)
    | cons d u =>
      rw [ht.1.symm.trans hu.1, ih ht.2 hu.2 (fun e he => ht0 e (List.mem_cons_of_mem c he))
        fun e he => hu0 e (List.mem_cons_of_mem d he)]

/-- A text stored from the start of `str`, and its NUL. -/
theorem holds_stored (str : Mem (BitVec 8)) (t : List (BitVec 8)) :
    CharPtr.Holds ⟨((str.writeList 0 t).write t.length 0).read, 0⟩ t := by
  refine CharPtr.holds_of_getElem? (fun i c hi => ?_) ?_
  · have hlt : i < t.length := (List.getElem?_eq_some_iff.mp hi).1
    rw [Mem.read_write_of_ne _ _ (by omega)]
    exact Mem.read_writeList str 0 hi
  · rw [Nat.zero_add, Mem.read_write_self]

theorem writesIn_stored (str : Mem (BitVec 8)) {t : List (BitVec 8)} (h : t.length < 30) :
    Mem.WritesIn {i | i < 30} str ((str.writeList 0 t).write t.length 0) := by
  refine ((Mem.writesIn_writeList str 0 t).mono fun i hi => ?_).trans
    (Mem.WritesIn.write _ 0 h)
  have hlt : i < 0 + t.length := hi.2
  show i < 30
  omega

/-- The call returns the text `t`, and stores below index 30 of the arrays. -/
structure ConvertsTo (f : Nat → Option Conversion) (str : Mem (BitVec 8)) (t : List (BitVec 8))
    (r : Conversion) : Prop where
  returns : Returns f r
  holds : r.result.Holds t
  str : Mem.WritesIn {i | i < 30} str r.str
  temp : Mem.WritesIn {i | i < 30} emptyTemp r.temp

/-- The two loops and the NUL, for a sign `s` already in `str`. -/
theorem stores_spec {num : Int} (h : num.natAbs < 10 ^ 20) (s : List (BitVec 8))
    (hs : s.length ≤ 1) (str : Mem (BitVec 8)) :
    ∃ r : Conversion, ConvertsTo (fun k => (itoaStores k num 0 emptyTemp).map fun (j, temp) =>
      let (i, str) := copyBack j s.length temp (str.writeList 0 s)
      let str := str.write i 0
      ⟨⟨str.read, 0⟩, str, temp⟩) str (s ++ itoaLoop 30 num []) r := by
  obtain ⟨ds, hlen, hloop, hret⟩ := itoaStores_returns 20 h 0 emptyTemp
  have htext : itoaLoop 30 num [] = ds.reverse := by
    rw [itoaLoop_add 20 10 h, hloop, List.append_nil]
  have hcopy : copyBack (0 + ds.length) s.length (emptyTemp.writeList 0 ds) (str.writeList 0 s) =
      ((s ++ ds.reverse).length, str.writeList 0 (s ++ ds.reverse)) := by
    rw [copyBack_eq, Nat.zero_add, map_read_writeList, Mem.writeList_append, List.length_append,
      List.length_reverse, Nat.zero_add]
  have hlength : (s ++ ds.reverse).length < 30 := by
    rw [List.length_append, List.length_reverse]
    omega
  rw [htext]
  refine ⟨_, ⟨hret.map _, ?_, ?_, ?_⟩⟩
  · dsimp only
    rw [hcopy]
    exact holds_stored str _
  · dsimp only
    rw [hcopy]
    exact writesIn_stored str hlength
  · refine (Mem.writesIn_writeList emptyTemp 0 ds).mono fun i hi => ?_
    have hlt : i < 0 + ds.length := hi.2
    show i < 30
    omega

/-- **_itoa** returns the text `itoa num`, and stays inside its arrays. -/
theorem itoaBuffers_returns (num : BitVec 64) (str : Mem (BitVec 8)) :
    ∃ r, ConvertsTo (fun k => itoaBuffers k num str) str (itoa num) r := by
  have hsmall : ∀ x : BitVec 64, x.toInt.natAbs < 10 ^ 20 := by
    intro x
    have hx := x.isLt
    rw [BitVec.toInt_eq_toNat_cond]
    split
    · omega
    · omega
  unfold itoaBuffers itoa
  by_cases hz : num = 0
  · rw [if_pos hz]
    simp only [if_pos hz]
    exact ⟨_, ⟨Returns.pure _, CharPtr.holds_ofText _, Mem.WritesIn.refl _ _,
      Mem.WritesIn.refl _ _⟩⟩
  · simp only [if_neg hz]
    by_cases hneg : num.toInt < 0
    · simp only [if_pos hneg]
      exact stores_spec (hsmall (-num)) [chr '-'] (Nat.le_refl 1) str
    · simp only [if_neg hneg]
      exact stores_spec (hsmall num) [] (Nat.zero_le 1) str

/-- What `_itoa` returns is `itoa num`, and no other text without a NUL. -/
theorem itoa_of_convertsTo {num : BitVec 64} {str : Mem (BitVec 8)} {t : List (BitVec 8)}
    {r : Conversion} (h : ConvertsTo (fun k => itoaBuffers k num str) str t r)
    (ht : ∀ c ∈ t, c ≠ 0) : t = itoa num := by
  obtain ⟨r', h'⟩ := itoaBuffers_returns num str
  obtain rfl := h.returns.unique h'.returns
  exact CharPtr.holds_unique h.holds h'.holds ht (plain_itoa num).ne_zero

/-- **_itoa** writes its argument in decimal, inside its arrays, exactly if the argument is not
the least 64-bit number. -/
theorem itoa_decimal_iff (num : BitVec 64) (str : Mem (BitVec 8)) :
    (∃ t r, ConvertsTo (fun k => itoaBuffers k num str) str t r ∧ DecimalText t num.toInt) ↔
      num ≠ BitVec.intMin 64 := by
  rw [← decimalText_itoa_iff]
  constructor
  · rintro ⟨t, r, hconv, htext⟩
    rwa [itoa_of_convertsTo hconv htext.ne_zero] at htext
  · intro htext
    obtain ⟨r, hconv⟩ := itoaBuffers_returns num str
    exact ⟨itoa num, r, hconv, htext⟩

/-- -9223372036854775808 comes out as a sign and 19 characters of which none is above '0'. -/
theorem itoa_intMin :
    ¬ ∃ t r, ConvertsTo (fun k => itoaBuffers k 0x8000000000000000 (Mem.fresh fun _ => 0))
      (Mem.fresh fun _ => 0) t r ∧ DecimalText t (0x8000000000000000 : BitVec 64).toInt := by
  rintro ⟨t, r, hconv, htext⟩
  rw [itoa_of_convertsTo hconv htext.ne_zero] at htext
  exact not_decimalText_intMin htext

end ListaOS.Stdio
