/-
  The UEFI loader (bootloader/UEFI/main.c), which lists the memory map.

  `GetMemoryMap` is what the boot service leaves: the bytes of `memmap`, a length and a
  descriptor size. A descriptor is read at `memmap + i * size`; where its fields lie in it is
  `Offsets`. Output is the text handed to OutputString, 16-bit characters. A read behind the 8192
  bytes of `memmap`, a store behind `numstr` and the division by a size of 0 are `none`.
  `efiMain_lists`: EfiMain gets to `while (1)` exactly if no read lies behind `memmap`, with a line
  for each descriptor of type 7, and the lines can be read back.
-/
import ListaOS.Lib.Numeral
import ListaOS.Lib.Run

namespace ListaOS.Boot

open Lib

/-- Where the fields of efi_memory_descriptor_t lie that EfiMain reads. -/
structure Offsets where
  type : Nat
  physicalStart : Nat
  numberOfPages : Nat

structure GetMemoryMap where
  status : BitVec 64
  len : BitVec 64
  size : BitVec 64
  memmap : Fin 8192 → BitVec 8

namespace GetMemoryMap

/-- `len / size` -/
def count (r : GetMemoryMap) : Nat := (r.len / r.size).toNat

/-- Byte `a` of `memmap`. -/
def byte (r : GetMemoryMap) (a : Nat) : Option (BitVec 8) :=
  if h : a < 8192 then some (r.memmap ⟨a, h⟩) else none

/-- The little-endian number in the `n` bytes from `a` on. -/
def load (r : GetMemoryMap) : Nat → Nat → Option Nat
  | 0, _ => some 0
  | n + 1, a => (r.byte a).bind fun b => (r.load n (a + 1)).map fun v => b.toNat + 256 * v

/-- A 64-bit field. -/
def load64 (r : GetMemoryMap) (a : Nat) : Option (BitVec 64) := (r.load 8 a).map (BitVec.ofNat 64)

end GetMemoryMap

/-- A wide string constant. -/
def wide (cs : List Char) : List (BitVec 16) := cs.map fun c => BitVec.ofNat 16 c.toNat

/-- `while (num != 0)`; there is room for `n` more digits. -/
def numLoop : Nat → BitVec 64 → List (BitVec 16) → Option (List (BitVec 16))
  | 0, num, numstr => if num = 0 then some numstr else none
  | n + 1, num, numstr =>
      if num = 0 then some numstr
      else numLoop n (num / 10) ((0x30 + num % 10).setWidth 16 :: numstr)

/-- `PrintNum`: the digits are stored from the lowest on and printed backwards. -/
def printNum (num : BitVec 64) : Option (List (BitVec 16)) :=
  if num = 0 then some (wide ['0']) else numLoop 32 num []

def hello : List (BitVec 16) := wide ['H', 'e', 'l', 'l', 'o', ' ', 'U', 'E', 'F', 'I', '\r', '\n']

def mapFailed : List (BitVec 16) :=
  wide ['G', 'e', 't', 'M', 'e', 'm', 'o', 'r', 'y', 'M', 'a', 'p', ' ', 'f', 'a', 'i', 'l', 'e', 'd',
    '\r', '\n']

def startAt : List (BitVec 16) :=
  wide ['P', 'h', 'y', 's', 'i', 'c', 'a', 'l', ' ', 'S', 't', 'a', 'r', 't', ' ', 'a', 't', ' ']

def pageNumberIs : List (BitVec 16) :=
  wide [',', ' ', 'P', 'a', 'g', 'e', ' ', 'N', 'u', 'm', 'b', 'e', 'r', ' ']

def endOfLine : List (BitVec 16) := wide ['\r', '\n']

/-- The body of the loop over the descriptors. -/
def efiEntry (o : Offsets) (r : GetMemoryMap) (out : List (BitVec 16)) (i : Nat) :
    Option (List (BitVec 16)) :=
  (r.load 4 (i * r.size.toNat + o.type)).bind fun type =>
    if type ≠ 7 then some out
    else
      (r.load64 (i * r.size.toNat + o.physicalStart)).bind fun physicalStart =>
        (printNum physicalStart).bind fun start =>
          (r.load64 (i * r.size.toNat + o.numberOfPages)).bind fun numberOfPages =>
            (printNum numberOfPages).bind fun pages =>
              some (out ++ startAt ++ start ++ pageNumberIs ++ pages ++ endOfLine)

/-- What is on the console when the loop starts. -/
def greeting (r : GetMemoryMap) : List (BitVec 16) :=
  if r.status ≠ 0 then hello ++ mapFailed else hello

/-- What is on the console at `while (1)`. -/
def efiMain (o : Offsets) (r : GetMemoryMap) : Option (List (BitVec 16)) :=
  if r.size = 0 then none else run (efiEntry o r) (greeting r) (List.range r.count)

/-! ## PrintNum -/

/-- The character of a decimal digit. -/
def wideDigit (d : Nat) : BitVec 16 := BitVec.ofNat 16 (d + 48)

/-- A number as PrintNum prints it. -/
def wideDecimal (n : Nat) : List (BitVec 16) := (numeral 10 n).map wideDigit

theorem toNat_wideDigit {d : Nat} (h : d < 10) : (wideDigit d).toNat = d + 48 := by
  rw [wideDigit, BitVec.toNat_ofNat]
  omega

/-- The digit that the loop stores. -/
theorem stored_digit (num : BitVec 64) :
    (0x30 + num % 10).setWidth 16 = wideDigit (num.toNat % 10) := by
  apply BitVec.eq_of_toNat_eq
  rw [toNat_wideDigit (Nat.mod_lt _ (by decide)), BitVec.toNat_setWidth, BitVec.toNat_add,
    BitVec.toNat_umod]
  simp only [BitVec.reduceToNat]
  omega

/-- `n` digits are enough below 10^n. -/
theorem numLoop_eq (n : Nat) {num : BitVec 64} (h : num.toNat < 10 ^ n) (numstr : List (BitVec 16)) :
    numLoop n num numstr = some ((Nat.digits 10 num.toNat).reverse.map wideDigit ++ numstr) := by
  induction n generalizing num numstr with
  | zero =>
    have hzero : num = 0 := by
      rw [Nat.pow_zero, Nat.lt_one_iff] at h
      exact BitVec.eq_of_toNat_eq h
    rw [numLoop, if_pos hzero, hzero]
    rfl
  | succ n ih =>
    rw [numLoop]
    by_cases hzero : num = 0
    · rw [if_pos hzero, hzero]
      rfl
    · have hpos : num.toNat ≠ 0 := fun hz => hzero (BitVec.eq_of_toNat_eq hz)
      have hdiv : (num / 10).toNat = num.toNat / 10 := BitVec.toNat_udiv
      have hlt : (num / 10).toNat < 10 ^ n := by
        rw [Nat.pow_succ] at h
        omega
      rw [if_neg hzero, ih hlt, stored_digit, hdiv, digits_step (by decide) hpos, List.map_append,
        List.append_assoc]
      rfl

/-- **PrintNum prints the decimal numeral**, and `numstr` has room for it. -/
theorem printNum_eq (num : BitVec 64) : printNum num = some (wideDecimal num.toNat) := by
  unfold printNum wideDecimal numeral
  by_cases hzero : num = 0
  · rw [if_pos hzero, if_pos (by rw [hzero]; rfl)]
    rfl
  · have hpos : num.toNat ≠ 0 := fun hz => hzero (BitVec.eq_of_toNat_eq hz)
    have hlt : num.toNat < 10 ^ 32 := Nat.lt_trans num.isLt (by decide)
    rw [if_neg hzero, if_neg hpos, numLoop_eq 32 hlt, List.append_nil]

theorem wideDecimal_digits (n : Nat) : ∀ c ∈ wideDecimal n, 48 ≤ c.toNat ∧ c.toNat ≤ 57 := by
  intro c hc
  obtain ⟨d, hd, rfl⟩ := List.mem_map.mp hc
  have hlt := (canonical_numeral (by decide) n).digits d hd
  rw [toNat_wideDigit hlt]
  omega

theorem wideDecimal_inj {n k : Nat} (h : wideDecimal n = wideDecimal k) : n = k := by
  have hvalues : ∀ m, ((wideDecimal m).map fun c => c.toNat - 48) = numeral 10 m := by
    intro m
    rw [wideDecimal, List.map_map]
    refine (List.map_congr_left fun d hd => ?_).trans (List.map_id _)
    have hlt := (canonical_numeral (by decide) m).digits d hd
    show (wideDigit d).toNat - 48 = d
    rw [toNat_wideDigit hlt]
    omega
  have hdigits := congrArg (List.map fun c : BitVec 16 => c.toNat - 48) h
  rw [hvalues, hvalues] at hdigits
  have hnum := congrArg (numeralValue 10) hdigits
  rwa [numeralValue_numeral, numeralValue_numeral] at hnum

/-! ## The listing -/

/-- The line of a descriptor: where it starts, and its pages. -/
def mapLine (e : BitVec 64 × BitVec 64) : List (BitVec 16) :=
  startAt ++ (wideDecimal e.1.toNat ++ (pageNumberIs ++ (wideDecimal e.2.toNat ++ endOfLine)))

/-- Descriptor `i`, if it is one of conventional memory. -/
def conventional? (o : Offsets) (r : GetMemoryMap) (i : Nat) : Option (BitVec 64 × BitVec 64) :=
  (r.load 4 (i * r.size.toNat + o.type)).bind fun type =>
    if type ≠ 7 then none
    else
      (r.load64 (i * r.size.toNat + o.physicalStart)).bind fun physicalStart =>
        (r.load64 (i * r.size.toNat + o.numberOfPages)).map fun numberOfPages =>
          (physicalStart, numberOfPages)

def conventional (o : Offsets) (r : GetMemoryMap) : List (BitVec 64 × BitVec 64) :=
  (List.range r.count).filterMap (conventional? o r)

/-- What EfiMain reads of descriptor `i` lies in `memmap`. -/
def Readable (o : Offsets) (r : GetMemoryMap) (i : Nat) : Prop :=
  i * r.size.toNat + o.type + 4 ≤ 8192 ∧
    (r.load 4 (i * r.size.toNat + o.type) = some 7 →
      i * r.size.toNat + o.physicalStart + 8 ≤ 8192 ∧ i * r.size.toNat + o.numberOfPages + 8 ≤ 8192)

theorem load_isSome (r : GetMemoryMap) {n : Nat} (hn : 0 < n) (a : Nat) :
    (r.load n a).isSome ↔ a + n ≤ 8192 := by
  induction n generalizing a with
  | zero => exact absurd hn (Nat.lt_irrefl 0)
  | succ n ih =>
    rw [GetMemoryMap.load, GetMemoryMap.byte]
    by_cases ha : a < 8192
    · rw [dif_pos ha, Option.bind_some, Option.isSome_map]
      cases n with
      | zero => exact ⟨fun _ => ha, fun _ => rfl⟩
      | succ n =>
        rw [ih (Nat.succ_pos n)]
        omega
    · rw [dif_neg ha]
      exact ⟨fun h => (nomatch h), fun h => absurd h (by omega)⟩

theorem load64_isSome (r : GetMemoryMap) (a : Nat) : (r.load64 a).isSome ↔ a + 8 ≤ 8192 := by
  rw [GetMemoryMap.load64, Option.isSome_map]
  exact load_isSome r (by decide) a

/-- The line of a descriptor is put where its reads lie in `memmap`. -/
theorem efiEntry_eq {o : Offsets} {r : GetMemoryMap} {i : Nat} (h : Readable o r i)
    (out : List (BitVec 16)) :
    efiEntry o r out i = some (out ++ (conventional? o r i).toList.flatMap mapLine) := by
  obtain ⟨htype, hfields⟩ := h
  obtain ⟨type, hload⟩ := Option.isSome_iff_exists.mp ((load_isSome r (by decide) _).mpr htype)
  rw [efiEntry, conventional?, hload, Option.bind_some, Option.bind_some]
  by_cases hseven : type = 7
  · obtain ⟨hstart, hpages⟩ := hfields (hload.trans (congrArg some hseven))
    obtain ⟨start, hstart⟩ := Option.isSome_iff_exists.mp ((load64_isSome r _).mpr hstart)
    obtain ⟨pages, hpages⟩ := Option.isSome_iff_exists.mp ((load64_isSome r _).mpr hpages)
    rw [if_neg (not_not_intro hseven), if_neg (not_not_intro hseven), hstart, hpages]
    simp only [Option.bind_some, Option.map_some, printNum_eq, Option.toList_some,
      List.flatMap_singleton, mapLine, List.append_assoc]
  · rw [if_pos hseven, if_pos hseven]
    exact congrArg some (List.append_nil out).symm

theorem readable_of_efiEntry {o : Offsets} {r : GetMemoryMap} {i : Nat} {out out' : List (BitVec 16)}
    (h : efiEntry o r out i = some out') : Readable o r i := by
  obtain ⟨type, hload, h⟩ := Option.bind_eq_some_iff.mp h
  refine ⟨(load_isSome r (by decide) _).mp (Option.isSome_iff_exists.mpr ⟨type, hload⟩),
    fun hseven => ?_⟩
  have htype : type = 7 := Option.some.inj (hload.symm.trans hseven)
  rw [if_neg (not_not_intro htype)] at h
  obtain ⟨start, hstart, h⟩ := Option.bind_eq_some_iff.mp h
  obtain ⟨_, -, h⟩ := Option.bind_eq_some_iff.mp h
  obtain ⟨pages, hpages, -⟩ := Option.bind_eq_some_iff.mp h
  exact ⟨(load64_isSome r _).mp (Option.isSome_iff_exists.mpr ⟨start, hstart⟩),
    (load64_isSome r _).mp (Option.isSome_iff_exists.mpr ⟨pages, hpages⟩)⟩

/-- The loop ends exactly where all its reads lie in `memmap`, and has listed the descriptors. -/
theorem run_efiEntry (o : Offsets) (r : GetMemoryMap) (is : List Nat) (out out' : List (BitVec 16)) :
    run (efiEntry o r) out is = some out' ↔
      (∀ i ∈ is, Readable o r i) ∧
        out' = out ++ (is.filterMap (conventional? o r)).flatMap mapLine := by
  induction is generalizing out with
  | nil =>
    rw [List.filterMap_nil, List.flatMap_nil, List.append_nil]
    exact ⟨fun h => ⟨fun i hi => absurd hi List.not_mem_nil, (Option.some.inj h).symm⟩,
      fun h => congrArg some h.2.symm⟩
  | cons i is ih =>
    have hline : ((i :: is).filterMap (conventional? o r)).flatMap mapLine =
        (conventional? o r i).toList.flatMap mapLine ++
          (is.filterMap (conventional? o r)).flatMap mapLine := by
      rw [← List.flatMap_append]
      cases hi : conventional? o r i with
      | none => rw [List.filterMap_cons_none hi, Option.toList_none, List.nil_append]
      | some e => rw [List.filterMap_cons_some hi, Option.toList_some, List.singleton_append]
    rw [hline, List.forall_mem_cons, ← List.append_assoc, run_cons_eq_some]
    constructor
    · rintro ⟨out₁, hfirst, hrest⟩
      have hread := readable_of_efiEntry hfirst
      obtain rfl := Option.some.inj ((efiEntry_eq hread out).symm.trans hfirst)
      obtain ⟨hall, hout⟩ := (ih _).mp hrest
      exact ⟨⟨hread, hall⟩, hout⟩
    · rintro ⟨⟨hread, hall⟩, hout⟩
      exact ⟨_, efiEntry_eq hread out, (ih _).mpr ⟨hall, hout⟩⟩

/-- A line can be read up to its end. -/
theorem mapLine_append_inj {e e' : BitVec 64 × BitVec 64} {u v : List (BitVec 16)}
    (h : mapLine e ++ u = mapLine e' ++ v) : e = e' ∧ u = v := by
  have hcomma : ∀ n, (0x2c : BitVec 16) ∉ wideDecimal n := fun n hin =>
    absurd (wideDecimal_digits n _ hin).1 (by decide)
  have hreturn : ∀ n, (0x0d : BitVec 16) ∉ wideDecimal n := fun n hin =>
    absurd (wideDecimal_digits n _ hin).1 (by decide)
  have hline : ∀ (e : BitVec 64 × BitVec 64) (u : List (BitVec 16)), mapLine e ++ u =
      startAt ++ (wideDecimal e.1.toNat ++ 0x2c :: (pageNumberIs.tail ++
        (wideDecimal e.2.toNat ++ 0x0d :: (endOfLine.tail ++ u)))) := by
    intro e u
    simp only [mapLine, List.append_assoc]
    rfl
  rw [hline, hline] at h
  obtain ⟨hstart, hrest⟩ := append_cons_inj (hcomma _) (hcomma _) (List.append_cancel_left h)
  obtain ⟨hpages, hend⟩ := append_cons_inj (hreturn _) (hreturn _) (List.append_cancel_left hrest)
  exact ⟨Prod.ext (BitVec.eq_of_toNat_eq (wideDecimal_inj hstart))
    (BitVec.eq_of_toNat_eq (wideDecimal_inj hpages)), List.append_cancel_left hend⟩

theorem flatMap_mapLine_inj {l l' : List (BitVec 64 × BitVec 64)}
    (h : l.flatMap mapLine = l'.flatMap mapLine) : l = l' := by
  induction l generalizing l' with
  | nil =>
    cases l' with
    | nil => rfl
    | cons e l' => cases h
  | cons e l ih =>
    cases l' with
    | nil => cases h
    | cons e' l' =>
      obtain ⟨rfl, hrest⟩ := mapLine_append_inj h
      rw [ih hrest]

/-- The descriptors that GetMemoryMap has stored, `len` bytes of them, lie in `memmap`. -/
theorem readable_of_len {o : Offsets} {r : GetMemoryMap} (hlen : r.len.toNat ≤ 8192)
    (htype : o.type + 4 ≤ r.size.toNat) (hstart : o.physicalStart + 8 ≤ r.size.toNat)
    (hpages : o.numberOfPages + 8 ≤ r.size.toNat) {i : Nat} (hi : i < r.count) :
    Readable o r i := by
  have hcount : r.count = r.len.toNat / r.size.toNat := BitVec.toNat_udiv
  have hend : (i + 1) * r.size.toNat ≤ 8192 :=
    calc (i + 1) * r.size.toNat ≤ r.len.toNat / r.size.toNat * r.size.toNat :=
        Nat.mul_le_mul_right _ (hcount ▸ hi)
      _ ≤ 8192 := (Nat.div_mul_le_self _ _).trans hlen
  rw [Nat.succ_mul] at hend
  exact ⟨by omega, fun _ => ⟨by omega, by omega⟩⟩

/-- **The listing.** EfiMain gets to `while (1)` exactly if GetMemoryMap has left a descriptor size and
no read of a descriptor lies behind `memmap`. It has then printed a line for each descriptor of
conventional memory, in order, with its start and its pages in decimal. Two memory maps that the
service gave without error leave the same text exactly if their descriptors of conventional memory
are the same. -/
theorem efiMain_lists (o : Offsets) (r : GetMemoryMap) :
    (∀ out, efiMain o r = some out ↔ r.size ≠ 0 ∧ (∀ i < r.count, Readable o r i) ∧
      out = greeting r ++ (conventional o r).flatMap mapLine) ∧
    ∀ r' : GetMemoryMap, r.status = 0 → r'.status = 0 → (efiMain o r).isSome →
      (efiMain o r').isSome →
        (efiMain o r = efiMain o r' ↔ conventional o r = conventional o r') := by
  have hlist : ∀ (r : GetMemoryMap) (out : List (BitVec 16)), efiMain o r = some out ↔
      r.size ≠ 0 ∧ (∀ i < r.count, Readable o r i) ∧
        out = greeting r ++ (conventional o r).flatMap mapLine := by
    intro r out
    rw [efiMain]
    by_cases hsize : r.size = 0
    · rw [if_pos hsize]
      exact ⟨fun h => (nomatch h), fun h => absurd hsize h.1⟩
    · have hrange : (∀ i ∈ List.range r.count, Readable o r i) ↔
          ∀ i < r.count, Readable o r i := by
        simp only [List.mem_range]
      rw [if_neg hsize, run_efiEntry, hrange]
      exact ⟨fun h => ⟨hsize, h⟩, fun h => h.2⟩
  refine ⟨hlist r, fun r' hok hok' hr hr' => ?_⟩
  obtain ⟨out, hout⟩ := Option.isSome_iff_exists.mp hr
  obtain ⟨out', hout'⟩ := Option.isSome_iff_exists.mp hr'
  have htext := ((hlist r out).mp hout).2.2
  have htext' := ((hlist r' out').mp hout').2.2
  rw [greeting, hok, if_neg (not_not_intro rfl)] at htext
  rw [greeting, hok', if_neg (not_not_intro rfl)] at htext'
  rw [hout, hout', htext, htext', Option.some.injEq]
  constructor
  · exact fun h => flatMap_mapLine_inj (List.append_cancel_left h)
  · intro h
    rw [h]

/-- Type, physical start and number of pages in a descriptor of 40 bytes. -/
def uefiOffsets : Offsets := ⟨0, 8, 24⟩

/-- A reserved page, and two pages of conventional memory at 0x1000. -/
def smallMap : GetMemoryMap :=
  ⟨0, 80, 40, fun i =>
    if i = 24 then 1 else if i = 40 then 7 else if i = 49 then 0x10 else if i = 64 then 2 else 0⟩

theorem efiMain_lists_small :
    efiMain uefiOffsets smallMap =
        some (hello ++ (conventional uefiOffsets smallMap).flatMap mapLine) ∧
      conventional uefiOffsets smallMap = [(0x1000, 2)] ∧
      efiMain uefiOffsets { smallMap with len := 8240 } = none := by
  obtain ⟨hlist, -⟩ := efiMain_lists uefiOffsets smallMap
  refine ⟨(hlist _).mpr ⟨by decide, fun i hi => ?_, rfl⟩, by decide, ?_⟩
  · exact readable_of_len (by decide) (by decide) (by decide) (by decide) hi
  · -- Descriptor 205 starts at byte 8200.
    have hbehind : ¬ Readable uefiOffsets { smallMap with len := 8240 } 205 := by
      intro h
      exact absurd h.1 (by decide)
    refine Option.eq_none_iff_forall_ne_some.mpr fun out hout => hbehind ?_
    obtain ⟨hlist', -⟩ := efiMain_lists uefiOffsets { smallMap with len := 8240 }
    exact ((hlist' out).mp hout).2.1 205 (by decide)

end ListaOS.Boot
