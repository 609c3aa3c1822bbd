/-
  Well-formed formats, and what vprintf prints for one.

  A `Format` is literal runs with a supported conversion after each, and a last literal run;
  its text is what the format string holds. `Conv.text` is a conversion's text for its
  argument. `vprintf_spec`: on a format string that holds the text of a `Format`, and with no
  infinite `double` for a `%f` (`FiniteFloats`), vprintf ends, and hands `putc` the literal runs
  and the conversions' texts in order. With one it does not end (`finiteFloats_of_vprintfLoop`).

  The number it returns is an `int`: `vprintf_renders_iff` is about all it does, and says when
  that is the number of `putc` calls.
-/
import ListaOS.Stdio.Basic

namespace ListaOS.Stdio

open Lib

/-- The supported conversions. -/
inductive Conv where
  | c | d | f | s | p | u | x | X | percent
  | ld | lu | lx | lX
  | lld | llu | llx | llX
deriving DecidableEq

namespace Conv

/-- The letters after '%'. -/
def letters : Conv → List (BitVec 8)
  | c => [chr 'c']
  | d => [chr 'd']
  | f => [chr 'f']
  | s => [chr 's']
  | p => [chr 'p']
  | u => [chr 'u']
  | x => [chr 'x']
  | X => [chr 'X']
  | percent => [chr '%']
  | ld => [chr 'l', chr 'd']
  | lu => [chr 'l', chr 'u']
  | lx => [chr 'l', chr 'x']
  | lX => [chr 'l', chr 'X']
  | lld => [chr 'l', chr 'l', chr 'd']
  | llu => [chr 'l', chr 'l', chr 'u']
  | llx => [chr 'l', chr 'l', chr 'x']
  | llX => [chr 'l', chr 'l', chr 'X']

/-- Argument words. -/
def words : Conv → Nat
  | percent => 0
  | f | lld | llu | llx | llX => 2
  | _ => 1

/-- The text for the next argument. -/
def text (E : Env) (args : VaList) : Conv → List (BitVec 8)
  | c => [args.word.setWidth 8]
  | d | ld => itoa (args.word.signExtend 64)
  | f => ftoa (E.parts args.dword)
  | s => (E.str args.word).text
  | p => ptoa args.word
  | u | lu => utoa (args.word.setWidth 64)
  | x | lx => itoh (args.word.setWidth 64) false
  | X | lX => itoh (args.word.setWidth 64) true
  | percent => [chr '%']
  | lld => itoa args.dword
  | llu => utoa args.dword
  | llx => itoh args.dword false
  | llX => itoh args.dword true

end Conv

/-- A literal run and the conversion after it. -/
structure Seg where
  lit : List (BitVec 8)
  plain : Plain lit
  conv : Conv

structure Format where
  segs : List Seg
  tail : List (BitVec 8)
  plain : Plain tail

/-- The format string of the segments. -/
def segText : List Seg → List (BitVec 8)
  | [] => []
  | g :: gs => g.lit ++ chr '%' :: (g.conv.letters ++ segText gs)

def Format.text (F : Format) : List (BitVec 8) := segText F.segs ++ F.tail

/-- Argument words of the segments. -/
def segWords : List Seg → Nat
  | [] => 0
  | g :: gs => g.conv.words + segWords gs

/-- What is written for the segments when `tx` is the text of a conversion. -/
def segOut (tx : VaList → Conv → List (BitVec 8)) : List Seg → VaList → List (BitVec 8)
  | [], _ => []
  | g :: gs, args => g.lit ++ (tx args g.conv ++ segOut tx gs (args.skip g.conv.words))

/-- No `%f` argument of the segments is infinite. -/
def FiniteFloats : List Seg → VaList → Prop
  | [], _ => True
  | g :: gs, args =>
      (g.conv = .f → ¬ IsInfinite args.dword) ∧ FiniteFloats gs (args.skip g.conv.words)

/-- One round of a loop over the format: the literal run, '%' and the conversion. -/
theorem Seg.length_round (g : Seg) : g.lit.length + 1 + (g.conv.letters.length - 1) + 1 =
    (g.lit ++ chr '%' :: g.conv.letters).length := by
  have hpos : 0 < g.conv.letters.length := by cases g.conv <;> decide
  rw [List.length_append, List.length_cons]
  omega

theorem segText_cons_append (g : Seg) (gs : List Seg) (tail : List (BitVec 8)) :
    segText (g :: gs) ++ tail = g.lit ++ chr '%' :: (g.conv.letters ++ (segText gs ++ tail)) := by
  simp [segText]

theorem length_segText_cons (g : Seg) (gs : List Seg) (tail : List (BitVec 8)) :
    (g.lit ++ chr '%' :: g.conv.letters).length + (segText gs ++ tail).length =
      (segText (g :: gs) ++ tail).length := by
  rw [segText_cons_append, ← List.length_append, List.append_assoc]
  rfl

theorem segOut_cons_append (tx : VaList → Conv → List (BitVec 8)) (g : Seg) (gs : List Seg)
    (args : VaList) (tail : List (BitVec 8)) : segOut tx (g :: gs) args ++ tail =
      g.lit ++ tx args g.conv ++ (segOut tx gs (args.skip g.conv.words) ++ tail) := by
  simp [segOut]

/-! ## Strings in memory -/

namespace CharPtr

def advance (p : CharPtr) (n : Nat) : CharPtr := { p with pos := p.pos + n }

@[simp] theorem advance_zero (p : CharPtr) : p.advance 0 = p := rfl

@[simp] theorem advance_advance (p : CharPtr) (m n : Nat) :
    (p.advance m).advance n = p.advance (m + n) := by
  simp [advance, Nat.add_assoc]

theorem next_eq (p : CharPtr) : p.next = p.advance 1 := rfl

/-- The characters from `p` on are `t` and a NUL. -/
def Holds (p : CharPtr) : List (BitVec 8) → Prop
  | [] => p.deref = 0
  | c :: t => p.deref = c ∧ Holds p.next t

theorem Holds.drop {p : CharPtr} {t u : List (BitVec 8)} (h : p.Holds (t ++ u)) :
    (p.advance t.length).Holds u := by
  induction t generalizing p with
  | nil => exact h
  | cons c t ih =>
    have hrest := ih h.2
    rwa [next_eq, advance_advance, Nat.add_comm] at hrest

theorem holds_getD (t u : List (BitVec 8)) :
    Holds ⟨fun i => (t ++ u).getD i 0, t.length⟩ u := by
  induction u generalizing t with
  | nil =>
    show (t ++ []).getD t.length 0 = 0
    simp
  | cons c u ih =>
    refine ⟨?_, ?_⟩
    · show (t ++ c :: u).getD t.length 0 = c
      simp
    · have hrest := ih (t ++ [c])
      rw [List.append_assoc, List.length_append] at hrest
      exact hrest

theorem holds_ofText (t : List (BitVec 8)) : (ofText t).Holds t := holds_getD [] t

end CharPtr

@[simp] theorem VaList.skip_zero (args : VaList) : args.skip 0 = args := rfl

@[simp] theorem VaList.skip_skip (args : VaList) (m n : Nat) :
    (args.skip m).skip n = args.skip (m + n) := by
  simp [VaList.skip, Nat.add_assoc]

/-- A literal run ends at a '%' or at the NUL. -/
def Stops : List (BitVec 8) → Prop
  | [] => True
  | c :: _ => c = chr '%'

theorem stops_deref {p : CharPtr} {u : List (BitVec 8)} (h : p.Holds u) (hu : Stops u) :
    ¬ (p.deref ≠ chr '%' ∧ p.deref ≠ 0) := by
  intro hne
  cases u with
  | nil => exact hne.2 h
  | cons c u => exact hne.1 (h.1.trans hu)

/-- At the first character of a text that is not empty. -/
theorem deref_ne_zero {p : CharPtr} {t u : List (BitVec 8)} (ht : Plain t)
    (h : p.Holds (t ++ chr '%' :: u)) : p.deref ≠ 0 := by
  cases t with
  | nil =>
    rw [h.1]
    decide
  | cons c t =>
    rw [h.1]
    exact (ht c List.mem_cons_self).1

/-! ## puts and the literal run -/

/-- The count of two texts, one after the other. -/
theorem ofNat_length_append (t u : List (BitVec 8)) : BitVec.ofNat 32 (t ++ u).length =
    BitVec.ofNat 32 t.length + BitVec.ofNat 32 u.length := by
  rw [List.length_append, BitVec.ofNat_add]

theorem puts_spec {t : List (BitVec 8)} (ht : ∀ c ∈ t, c ≠ 0) {str : CharPtr} (h : str.Holds t)
    (len : BitVec 32) (out : List (BitVec 8)) :
    Returns (fun n => puts n str len out) (out ++ t, len + BitVec.ofNat 32 t.length) := by
  induction t generalizing str len out with
  | nil =>
    apply Returns.succ
    refine (Returns.pure _).congr fun n => ?_
    have hz : ¬ str.deref ≠ 0 := fun hne => hne h
    rw [puts, if_neg hz, List.append_nil, List.length_nil, BitVec.add_zero]
  | cons c t ih =>
    have hc : str.deref = c := h.1
    have hrest := ih (fun d hd => ht d (List.mem_cons_of_mem c hd)) h.2 (len + 1) (out ++ [c])
    have hlen : len + 1 + BitVec.ofNat 32 t.length = len + BitVec.ofNat 32 (c :: t).length := by
      rw [BitVec.add_assoc]
      exact congrArg (len + ·) (ofNat_length_append [c] t).symm
    rw [List.append_assoc, hlen] at hrest
    apply Returns.succ
    refine hrest.congr fun n => ?_
    rw [puts, hc, if_pos (ht c List.mem_cons_self)]

namespace Printing

/-- The state after printing `t`, reading `chars` of the format and `words` arguments. -/
def after (s : Printing) (t : List (BitVec 8)) (chars words : Nat) : Printing where
  out := s.out ++ t
  len := s.len + BitVec.ofNat 32 t.length
  format := s.format.advance chars
  args := s.args.skip words

theorem after_after (s : Printing) (t u : List (BitVec 8)) (a b c d : Nat) :
    (s.after t a b).after u c d = s.after (t ++ u) (a + c) (b + d) := by
  simp only [after, ofNat_length_append, List.append_assoc, BitVec.add_assoc,
    CharPtr.advance_advance, VaList.skip_skip]

theorem next_after (s : Printing) (t : List (BitVec 8)) (a b : Nat) :
    (s.after t a b).next = s.after t (a + 1) b := rfl

theorem after_nil (s : Printing) : s.after [] 0 0 = s := by
  simp [after]

theorem start_after (format : CharPtr) (args : VaList) (t : List (BitVec 8)) (chars words : Nat) :
    (⟨[], 0, format, args⟩ : Printing).after t chars words =
      ⟨t, BitVec.ofNat 32 t.length, format.advance chars, args.skip words⟩ := by
  have hzero : 0 + BitVec.ofNat 32 t.length = BitVec.ofNat 32 t.length := BitVec.zero_add _
  rw [after, hzero]
  rfl

theorem putArg_spec (s : Printing) (words : Nat) {t : List (BitVec 8)} (ht : ∀ c ∈ t, c ≠ 0) :
    Returns (fun n => s.putArg n words t) (s.after t 0 words) := by
  have hputs := puts_spec ht (CharPtr.holds_ofText t) 0#32 s.out
  have hmap := hputs.map fun r => ({ s with
    args := s.args.skip words
    out := r.1
    len := s.len + r.2 } : Printing)
  rw [BitVec.zero_add] at hmap
  exact hmap

end Printing

theorem vprintfLiteral_spec {t u : List (BitVec 8)} (ht : Plain t) (hu : Stops u) {s : Printing}
    (h : s.format.Holds (t ++ u)) :
    Returns (fun n => vprintfLiteral n s) (s.after t t.length 0) := by
  induction t generalizing s with
  | nil =>
    apply Returns.succ
    refine (Returns.pure _).congr fun n => ?_
    rw [vprintfLiteral, if_neg (stops_deref h hu)]
    exact congrArg some s.after_nil.symm
  | cons c t ih =>
    have hc : s.format.deref = c := h.1
    obtain ⟨hz, hp⟩ := ht c List.mem_cons_self
    have hrest := ih ht.tail (s := (s.putc c).next) h.2
    have hafter : (s.putc c).next.after t t.length 0 = s.after (c :: t) (c :: t).length 0 := by
      have hone : (s.putc c).next = s.after [c] 1 0 := rfl
      rw [hone, Printing.after_after, List.length_cons, Nat.add_comm 1]
      rfl
    rw [hafter] at hrest
    apply Returns.succ
    refine hrest.congr fun n => ?_
    rw [vprintfLiteral, hc, if_pos ⟨hp, hz⟩]

/-- With any fuel. -/
theorem vprintfLiteral_some {n : Nat} {s s' : Printing} {t u : List (BitVec 8)} (ht : Plain t)
    (hu : Stops u) (h : s.format.Holds (t ++ u)) (hs : vprintfLiteral n s = some s') :
    s' = s.after t t.length 0 := by
  induction n generalizing t s with
  | zero => cases hs
  | succ n ih =>
    rw [vprintfLiteral] at hs
    cases t with
    | nil =>
      rw [if_neg (stops_deref h hu)] at hs
      exact (Option.some.inj hs).symm.trans s.after_nil.symm
    | cons c t =>
      obtain ⟨hz, hp⟩ := ht c List.mem_cons_self
      rw [h.1, if_pos ⟨hp, hz⟩] at hs
      have hone : (s.putc c).next = s.after [c] 1 0 := rfl
      rw [ih ht.tail (s := (s.putc c).next) h.2 hs, hone, Printing.after_after, Nat.add_comm 1]
      rfl

/-! ## The switch -/

/-- Number texts and strings have no NUL. -/
theorem Conv.text_ne_zero (E : Env) (args : VaList) {k : Conv} (hk : k ≠ .c) :
    ∀ c ∈ k.text E args, c ≠ 0 := by
  cases k with
  | c => exact absurd rfl hk
  | s => exact (E.str args.word).noNul
  | d | ld | lld => exact (plain_itoa _).ne_zero
  | f => exact (plain_ftoa _).ne_zero
  | p => exact (plain_ptoa _).ne_zero
  | u | lu | llu => exact (plain_utoa _).ne_zero
  | x | X | lx | lX | llx | llX => exact (plain_itoh _ _).ne_zero
  | percent =>
    intro c hc
    rw [List.mem_singleton.mp hc]
    decide

@[simp] theorem Printing.next_format (s : Printing) : s.next.format = s.format.next := rfl

@[simp] theorem Printing.next_args (s : Printing) : s.next.args = s.args := rfl

/-- The two conversions that print a character without `puts`. -/
def Conv.isChar : Conv → Bool
  | .c | .percent => true
  | _ => false

/-- At the letters of a conversion, the switch of vprintf puts its text. -/
theorem vprintfSwitch_eq (E : Env) {k : Conv} (hk : k.isChar = false) {u : List (BitVec 8)}
    {s : Printing} (h : s.format.Holds (k.letters ++ u))
    (hfin : k = .f → ¬ IsInfinite s.args.dword) (n : Nat) :
    vprintfSwitch E n s =
      { s with format := s.format.advance (k.letters.length - 1) }.putArg n k.words
        (k.text E s.args) := by
  cases k with
  | c | percent => cases hk
  | d | s | p | u | x | X =>
    obtain ⟨h0, _⟩ := h
    simp [vprintfSwitch, h0, chr, Conv.letters, Conv.words, Conv.text]
  | f =>
    obtain ⟨h0, _⟩ := h
    simp [vprintfSwitch, h0, chr, Conv.letters, Conv.words, Conv.text, Env.split, hfin rfl]
  | ld | lu | lx | lX =>
    obtain ⟨h0, h1, _⟩ := h
    simp [vprintfSwitch, vprintfLong, h0, h1, chr, Conv.letters, Conv.words, Conv.text]
    rfl
  | lld | llu | llx | llX =>
    obtain ⟨h0, h1, h2, _⟩ := h
    simp [vprintfSwitch, vprintfLong, vprintfLongLong, h0, h1, h2, chr, Conv.letters, Conv.words,
      Conv.text]
    rfl

/-- At a `%f` whose argument is infinite, it does not end. -/
theorem vprintfSwitch_infinite (E : Env) {s : Printing} (hf : s.format.deref = chr 'f')
    (hinf : IsInfinite s.args.dword) (n : Nat) : vprintfSwitch E n s = none := by
  simp [vprintfSwitch, hf, chr, Env.split, hinf]

/-- The other two conversions put their character. -/
theorem vprintfSwitch_isChar (E : Env) {k : Conv} (hk : k.isChar = true) {u : List (BitVec 8)}
    {s : Printing} (h : s.format.Holds (k.letters ++ u)) (n : Nat) :
    vprintfSwitch E n s = some (s.after (k.text E s.args) (k.letters.length - 1) k.words) := by
  cases k with
  | c =>
    have h0 : s.format.deref = chr 'c' := h.1
    exact if_pos h0
  | percent =>
    have h0 : s.format.deref = chr '%' := h.1
    simp [vprintfSwitch, h0, chr]
    rfl
  | _ => cases hk

theorem vprintfSwitch_spec (E : Env) (k : Conv) {u : List (BitVec 8)} {s : Printing}
    (h : s.format.Holds (k.letters ++ u)) (hfin : k = .f → ¬ IsInfinite s.args.dword) :
    Returns (fun n => vprintfSwitch E n s)
      (s.after (k.text E s.args) (k.letters.length - 1) k.words) := by
  cases hk : k.isChar with
  | false =>
    have hne : k ≠ .c := fun he => by rw [he] at hk; cases hk
    refine Returns.congr ?_ fun n => vprintfSwitch_eq E hk h hfin n
    exact Printing.putArg_spec { s with format := s.format.advance (k.letters.length - 1) }
      k.words (Conv.text_ne_zero E s.args hne)
  | true =>
    exact (Returns.pure _).congr fun n => vprintfSwitch_isChar E hk h n

theorem Printing.putArg_some {s s' : Printing} {n words : Nat} {t : List (BitVec 8)}
    (h : s.putArg n words t = some s') : s'.format = s.format ∧ s'.args = s.args.skip words := by
  obtain ⟨r, -, rfl⟩ := Option.map_eq_some_iff.mp h
  exact ⟨rfl, rfl⟩

/-- Where the switch has ended, it passed over the conversion and its argument. -/
theorem vprintfSwitch_some {E : Env} {k : Conv} {u : List (BitVec 8)} {n : Nat} {s s' : Printing}
    (h : s.format.Holds (k.letters ++ u)) (hs : vprintfSwitch E n s = some s') :
    (k = .f → ¬ IsInfinite s.args.dword) ∧ s'.format = s.format.advance (k.letters.length - 1) ∧
      s'.args = s.args.skip k.words := by
  have hfin : k = .f → ¬ IsInfinite s.args.dword := by
    rintro rfl hinf
    rw [vprintfSwitch_infinite E h.1 hinf] at hs
    cases hs
  refine ⟨hfin, ?_⟩
  cases hk : k.isChar with
  | false =>
    rw [vprintfSwitch_eq E hk h hfin] at hs
    exact Printing.putArg_some hs
  | true =>
    rw [vprintfSwitch_isChar E hk h] at hs
    rw [← Option.some.inj hs]
    exact ⟨rfl, rfl⟩

/-! ## The loop -/

/-- The last literal run ends the loop. -/
theorem vprintfLoop_tail (E : Env) {t : List (BitVec 8)} (ht : Plain t) {s : Printing}
    (h : s.format.Holds t) : Returns (fun n => vprintfLoop E n s) (s.after t t.length 0) := by
  apply Returns.succ
  cases t with
  | nil =>
    have hz : s.format.deref = 0 := h
    refine (Returns.pure _).congr fun n => ?_
    rw [vprintfLoop, if_pos hz]
    exact congrArg some s.after_nil.symm
  | cons c t =>
    have hc : s.format.deref ≠ 0 := h.1 ▸ (ht c List.mem_cons_self).1
    rw [← List.append_nil (c :: t)] at h
    have hlit := vprintfLiteral_spec (u := []) ht trivial h
    have hend : (s.after (c :: t) (c :: t).length 0).format.deref = 0 := h.drop
    refine (hlit.bind (g := fun n s => if s.format.deref = 0 then some s
      else (vprintfSwitch E n s.next).bind fun s => vprintfLoop E n s.next) ?_).congr fun n => ?_
    · exact (Returns.pure _).congr fun n => if_pos hend
    · rw [vprintfLoop, if_neg hc]

/-- One round of the loop: a literal run, a '%' and a conversion. -/
theorem vprintfLoop_seg (E : Env) (g : Seg) {u : List (BitVec 8)} {s r : Printing}
    (h : s.format.Holds (g.lit ++ chr '%' :: (g.conv.letters ++ u)))
    (hfin : g.conv = .f → ¬ IsInfinite s.args.dword)
    (hrest : Returns (fun n => vprintfLoop E n (s.after (g.lit ++ g.conv.text E s.args)
      (g.lit ++ chr '%' :: g.conv.letters).length g.conv.words)) r) :
    Returns (fun n => vprintfLoop E n s) r := by
  have hc := deref_ne_zero g.plain h
  have hlit := vprintfLiteral_spec g.plain (show Stops (chr '%' :: _) from rfl) h
  have hat := h.drop
  have hpercent : (s.after g.lit g.lit.length 0).format.deref = chr '%' := hat.1
  have hswitch := vprintfSwitch_spec E g.conv (s := (s.after g.lit g.lit.length 0).next) hat.2 hfin
  rw [Printing.next_after, Printing.after_after] at hswitch
  apply Returns.succ
  refine (hlit.bind (g := fun n s => if s.format.deref = 0 then some s
    else (vprintfSwitch E n s.next).bind fun s => vprintfLoop E n s.next) ?_).congr fun n => ?_
  · have hround := hswitch.bind (g := fun n s => vprintfLoop E n s.next) (b := r) ?_
    · refine hround.congr fun n => ?_
      rw [if_neg (by rw [hpercent]; decide)]
      rfl
    · rw [Printing.next_after, g.length_round, Nat.zero_add]
      exact hrest
  · rw [vprintfLoop, if_neg hc]

/-- **vprintf.** On a string that holds segments and a last literal run, vprintf ends at the
NUL with the literal runs and the conversions' texts printed, in order. -/
theorem vprintfLoop_spec (E : Env) (gs : List Seg) {tail : List (BitVec 8)} (ht : Plain tail)
    {s : Printing} (h : s.format.Holds (segText gs ++ tail)) (hfin : FiniteFloats gs s.args) :
    Returns (fun n => vprintfLoop E n s)
      (s.after (segOut (fun args k => k.text E args) gs s.args ++ tail)
        (segText gs ++ tail).length (segWords gs)) := by
  induction gs generalizing s with
  | nil => exact vprintfLoop_tail E ht h
  | cons g gs ih =>
    rw [segText_cons_append] at h
    refine vprintfLoop_seg E g h hfin.1 ?_
    have hdrop : (s.format.advance (g.lit ++ chr '%' :: g.conv.letters).length).Holds
        (segText gs ++ tail) := by
      apply CharPtr.Holds.drop
      rw [List.append_assoc]
      exact h
    have hrest := ih (s := s.after (g.lit ++ g.conv.text E s.args)
      (g.lit ++ chr '%' :: g.conv.letters).length g.conv.words) hdrop hfin.2
    rw [Printing.after_after] at hrest
    rw [show (s.after (g.lit ++ g.conv.text E s.args) (g.lit ++ chr '%' :: g.conv.letters).length
      g.conv.words).args = s.args.skip g.conv.words from rfl, length_segText_cons] at hrest
    rw [segOut_cons_append]
    exact hrest

/-- Where the loop has ended, every `%f` that it came to was finite. -/
theorem finiteFloats_of_vprintfLoop {E : Env} (gs : List Seg) {tail : List (BitVec 8)} {n : Nat}
    {s r : Printing} (h : s.format.Holds (segText gs ++ tail)) (hr : vprintfLoop E n s = some r) :
    FiniteFloats gs s.args := by
  induction gs generalizing n s with
  | nil => trivial
  | cons g gs ih =>
    cases n with
    | zero => cases hr
    | succ n =>
      rw [segText_cons_append] at h
      rw [vprintfLoop, if_neg (deref_ne_zero g.plain h)] at hr
      obtain ⟨s₁, h₁, hr⟩ := Option.bind_eq_some_iff.mp hr
      obtain rfl := vprintfLiteral_some g.plain (show Stops (chr '%' :: _) from rfl) h h₁
      have hat := h.drop
      have hpercent : (s.after g.lit g.lit.length 0).format.deref = chr '%' := hat.1
      rw [if_neg (by rw [hpercent]; decide)] at hr
      obtain ⟨s₂, h₂, hr⟩ := Option.bind_eq_some_iff.mp hr
      obtain ⟨hfin, hformat, hargs⟩ := vprintfSwitch_some
        (s := (s.after g.lit g.lit.length 0).next) hat.2 h₂
      have hnext : s₂.next.args = s.args.skip g.conv.words := hargs
      have hrest := ih (s := s₂.next) ?_ hr
      · rw [hnext] at hrest
        exact ⟨hfin, hrest⟩
      · have hpos : 0 < g.conv.letters.length := by cases g.conv <;> decide
        rw [Printing.next_format, hformat, CharPtr.next_eq, CharPtr.advance_advance,
          Nat.sub_add_cancel hpos]
        exact CharPtr.Holds.drop hat.2

theorem vprintf_spec (E : Env) (F : Format) {format : CharPtr} (h : format.Holds F.text)
    {args : VaList} (hfin : FiniteFloats F.segs args) :
    Returns (fun n => vprintf E n format args)
      (segOut (fun args k => k.text E args) F.segs args ++ F.tail,
        BitVec.ofNat 32 (segOut (fun args k => k.text E args) F.segs args ++ F.tail).length) := by
  have hloop := vprintfLoop_spec E F.segs F.plain (s := ⟨[], 0, format, args⟩) h hfin
  rw [Printing.start_after] at hloop
  exact hloop.map fun s => (s.out, s.len)

theorem finiteFloats_of_vprintf {E : Env} (F : Format) {format : CharPtr}
    (h : format.Holds F.text) {args : VaList} {r : List (BitVec 8) × BitVec 32}
    (hret : Returns (fun n => vprintf E n format args) r) : FiniteFloats F.segs args := by
  obtain ⟨N, hN⟩ := hret
  obtain ⟨s, hs, -⟩ := Option.map_eq_some_iff.mp (hN N (Nat.le_refl N))
  exact finiteFloats_of_vprintfLoop F.segs (s := ⟨[], 0, format, args⟩) h hs

/-- A conversion's text depends on the words of its own width only. -/
theorem Conv.text_congr (E : Env) (k : Conv) {args args' : VaList} (hpos : args'.pos = args.pos)
    (hwords : ∀ i < k.words, args'.words (args.pos + i) = args.words (args.pos + i)) :
    k.text E args' = k.text E args := by
  have hword : 0 < k.words → args'.word = args.word := by
    intro h
    unfold VaList.word
    rw [hpos]
    exact hwords 0 h
  have hdword : 1 < k.words → args'.dword = args.dword := by
    intro h
    unfold VaList.dword
    rw [hpos, hwords 1 h]
    exact congrArg (_ ++ ·) (hwords 0 (Nat.lt_of_succ_lt h))
  cases k with
  | percent => rfl
  | c | d | s | p | u | x | X | ld | lu | lx | lX => simp only [text, hword (by decide)]
  | f | lld | llu | llx | llX => simp only [text, hdword (by decide)]

theorem segOut_congr (E : Env) (gs : List Seg) {args args' : VaList} (hpos : args'.pos = args.pos)
    (hwords : ∀ i < segWords gs, args'.words (args.pos + i) = args.words (args.pos + i)) :
    segOut (fun args k => k.text E args) gs args' =
      segOut (fun args k => k.text E args) gs args := by
  induction gs generalizing args args' with
  | nil => rfl
  | cons g gs ih =>
    unfold segWords at hwords
    have hpos' : (args'.skip g.conv.words).pos = (args.skip g.conv.words).pos :=
      congrArg (· + g.conv.words) hpos
    have hrest := ih hpos' fun i hi => by
      have hi' := hwords (g.conv.words + i) (by omega)
      rw [← Nat.add_assoc] at hi'
      exact hi'
    rw [segOut, segOut, g.conv.text_congr E hpos fun i hi => hwords i (by omega), hrest]

/-- So does what a `%f` finds. -/
theorem finiteFloats_congr (gs : List Seg) {args args' : VaList} (hpos : args'.pos = args.pos)
    (hwords : ∀ i < segWords gs, args'.words (args.pos + i) = args.words (args.pos + i))
    (h : FiniteFloats gs args) : FiniteFloats gs args' := by
  induction gs generalizing args args' with
  | nil => trivial
  | cons g gs ih =>
    unfold segWords at hwords
    have hpos' : (args'.skip g.conv.words).pos = (args.skip g.conv.words).pos :=
      congrArg (· + g.conv.words) hpos
    refine ⟨fun hconv => ?_, ih hpos' (fun i hi => ?_) h.2⟩
    · have htwo : g.conv.words = 2 := by
        rw [hconv]
        rfl
      have hdword : args'.dword = args.dword := by
        unfold VaList.dword
        rw [hpos, hwords 1 (by omega)]
        exact congrArg (_ ++ ·) (hwords 0 (by omega))
      rw [hdword]
      exact h.1 hconv
    · have hi' := hwords (g.conv.words + i) (by omega)
      rw [← Nat.add_assoc] at hi'
      exact hi'

/-- What vprintf should do. At the NUL of the format it has handed `putc` the literal runs and the
texts of the conversions in order, each conversion has taken the words of its width after those
of the one before, and no other word matters; the `int` it returns is the number of `putc`
calls. -/
structure Rendered (E : Env) (F : Format) (format : CharPtr) (args : VaList) (s : Printing) :
    Prop where
  ends : Returns (fun n => vprintfLoop E n ⟨[], 0, format, args⟩) s
  out : s.out = segOut (fun args k => k.text E args) F.segs args ++ F.tail
  taken : s.args = args.skip (segWords F.segs)
  read : s.format = format.advance F.text.length
  count : s.len.toInt = s.out.length
  returned : ∀ args' : VaList, args'.pos = args.pos →
    (∀ i < segWords F.segs, args'.words (args.pos + i) = args.words (args.pos + i)) →
      Returns (fun n => vprintf E n format args') (s.out, s.len)

/-- An `int` holds the numbers below 2^31. -/
theorem toInt_ofNat_iff (k : Nat) : (BitVec.ofNat 32 k).toInt = k ↔ k < 2 ^ 31 := by
  have hlt := (BitVec.ofNat 32 k).isLt
  constructor
  · intro heq
    have hle := @BitVec.toInt_lt 32 (BitVec.ofNat 32 k)
    omega
  · intro hk
    have hnat : (BitVec.ofNat 32 k).toNat = k := by
      rw [BitVec.toNat_ofNat, Nat.mod_eq_of_lt (by omega)]
    rw [BitVec.toInt_eq_toNat_of_lt (by omega), hnat]

/-- **vprintf prints the format** exactly where no `%f` argument is infinite and fewer than 2^31
characters are to be put. -/
theorem vprintf_renders_iff (E : Env) (F : Format) (format : CharPtr) (h : format.Holds F.text)
    (args : VaList) :
    (∃ s, Rendered E F format args s) ↔ FiniteFloats F.segs args ∧
      (segOut (fun args k => k.text E args) F.segs args ++ F.tail).length < 2 ^ 31 := by
  constructor
  · rintro ⟨s, hs⟩
    have hret := hs.returned args rfl fun _ _ => rfl
    have hfin := finiteFloats_of_vprintf F h hret
    have hlen := congrArg Prod.snd (hret.unique (vprintf_spec E F h hfin))
    have hcount := hs.count
    dsimp only at hlen
    rw [hlen, hs.out] at hcount
    exact ⟨hfin, (toInt_ofNat_iff _).mp hcount⟩
  · rintro ⟨hfin, hlen⟩
    have hloop := vprintfLoop_spec E F.segs F.plain (s := ⟨[], 0, format, args⟩) h hfin
    rw [Printing.start_after] at hloop
    refine ⟨_, hloop, rfl, rfl, rfl, (toInt_ofNat_iff _).mpr hlen, fun args' hpos hwords => ?_⟩
    have hprint := vprintf_spec E F h (finiteFloats_congr F.segs hpos hwords hfin)
    rwa [segOut_congr E F.segs hpos hwords] at hprint

/-- `"n=%d%%"` with 7. -/
theorem vprintf_renders_iff_number :
    let E : Env := ⟨fun _ => ⟨[], fun _ hc => absurd hc List.not_mem_nil⟩, fun _ => 0,
      fun _ => ⟨false, 0, 0, 0⟩⟩
    let F : Format :=
      ⟨[⟨[chr 'n', chr '='], by decide, .d⟩, ⟨[], Plain.nil, .percent⟩], [], Plain.nil⟩
    ∃ s, Rendered E F (CharPtr.ofText F.text) ⟨fun _ => 7, 0⟩ s ∧
      s.out = [chr 'n', chr '=', chr '7', chr '%'] := by
  intro E F
  have hfin : FiniteFloats F.segs ⟨fun _ => 7, 0⟩ := by simp [F, FiniteFloats]
  obtain ⟨s, hs⟩ := (vprintf_renders_iff E F (CharPtr.ofText F.text) (CharPtr.holds_ofText _)
    ⟨fun _ => 7, 0⟩).mpr ⟨hfin, by decide⟩
  exact ⟨s, hs, hs.out.trans (by decide)⟩

/-- `"%f"` with an infinite argument: vprintf does not end. -/
theorem vprintf_infinite :
    let E : Env := ⟨fun _ => ⟨[], fun _ hc => absurd hc List.not_mem_nil⟩, fun _ => 0,
      fun _ => ⟨false, 0, 0, 0⟩⟩
    let F : Format := ⟨[⟨[], Plain.nil, .f⟩], [], Plain.nil⟩
    let args : VaList := ⟨fun i => if i = 1 then 0x7ff00000 else 0, 0⟩
    (∀ r, ¬ Returns (fun n => vprintf E n (CharPtr.ofText F.text) args) r) ∧
      ¬ ∃ s, Rendered E F (CharPtr.ofText F.text) args s := by
  intro E F args
  have hinf : IsInfinite args.dword := by decide
  have hends : ∀ r, ¬ Returns (fun n => vprintf E n (CharPtr.ofText F.text) args) r := fun r hr =>
    (finiteFloats_of_vprintf F (CharPtr.holds_ofText _) hr).1 rfl hinf
  exact ⟨hends, fun ⟨s, hs⟩ => hends _ (hs.returned args rfl fun _ _ => rfl)⟩

end ListaOS.Stdio
