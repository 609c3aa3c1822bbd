/-
  What sprintf writes for a well-formed format.

  `Conv.sprintfText` is a conversion's text in sprintf: its `%u` and `%llu` call _itoa.
  A nested sprintf call on a text without '%' writes that text and a NUL, and reads no
  argument (`sprintf_plain`); the next store overwrites the NUL. `sprintf_spec`: if no
  `%s` argument has a '%' and no `%f` argument is infinite, sprintf ends with the literal runs and
  the texts in the buffer.
-/
import ListaOS.Stdio.Format

namespace ListaOS.Stdio

open Lib

/-- The text for the next argument, in sprintf. -/
def Conv.sprintfText (E : Env) (args : VaList) : Conv → List (BitVec 8)
  | u => itoa (args.word.setWidth 64)
  | llu => itoa args.dword
  | k => k.text E args

/-- No `%s` argument of the segments has a '%'. -/
def NoPercent (E : Env) : List Seg → VaList → Prop
  | [], _ => True
  | g :: gs, args =>
      (g.conv = .s → ∀ c ∈ (E.str args.word).text, c ≠ chr '%') ∧
        NoPercent E gs (args.skip g.conv.words)

namespace Sprinting

/-- `s'` is `s` after writing `t`, reading `chars` of the format and `words` arguments. -/
structure After (s : Sprinting) (t : List (BitVec 8)) (chars words : Nat) (s' : Sprinting) :
    Prop where
  buf : Mem.Wrote s.current t s.buf s'.buf
  current : s'.current = s.current + t.length
  format : s'.format = s.format.advance chars
  args : s'.args = s.args.skip words

namespace After

variable {s s' s'' : Sprinting} {t u : List (BitVec 8)} {a b c d : Nat}

theorem nil (s : Sprinting) : s.After [] 0 0 s := ⟨Mem.Wrote.nil _ _, rfl, rfl, rfl⟩

theorem putc (s : Sprinting) (ch : BitVec 8) : s.After [ch] 0 0 (s.putc ch) :=
  ⟨Mem.Wrote.single _ _ _, rfl, rfl, rfl⟩

theorem trans (h : s.After t a b s') (h' : s'.After u c d s'') :
    s.After (t ++ u) (a + c) (b + d) s'' where
  buf := by
    have hbuf := h'.buf
    rw [h.current] at hbuf
    exact h.buf.trans hbuf
  current := by rw [h'.current, h.current, List.length_append, Nat.add_assoc]
  format := by rw [h'.format, h.format, CharPtr.advance_advance]
  args := by rw [h'.args, h.args, VaList.skip_skip]

theorem next (h : s.After t a b s') : s.After t (a + 1) b s'.next :=
  ⟨h.buf, h.current, by rw [Sprinting.next, h.format]; rfl, h.args⟩

end After

end Sprinting

theorem sprintfLiteral_spec {t u : List (BitVec 8)} (ht : Plain t) (hu : Stops u) {s : Sprinting}
    (h : s.format.Holds (t ++ u)) :
    ∃ s', Returns (fun n => sprintfLiteral n s) s' ∧ s.After t t.length 0 s' := by
  induction t generalizing s with
  | nil =>
    refine ⟨s, Returns.succ ((Returns.pure s).congr fun n => ?_), Sprinting.After.nil s⟩
    rw [sprintfLiteral, if_neg (stops_deref h hu)]
  | cons c t ih =>
    have hc : s.format.deref = c := h.1
    obtain ⟨hz, hp⟩ := ht c List.mem_cons_self
    obtain ⟨s', hret, hafter⟩ := ih ht.tail (s := (s.putc c).next) h.2
    refine ⟨s', Returns.succ (hret.congr fun n => ?_), ?_⟩
    · rw [sprintfLiteral, hc, if_pos ⟨hp, hz⟩]
    · have hone := (Sprinting.After.putc s c).next.trans hafter
      rw [Nat.zero_add, Nat.add_comm 1] at hone
      exact hone

/-- The rest of a round of the loop, after the literal run. -/
def sprintfRound (E : Env) (n : Nat) (s : Sprinting) : Option Sprinting :=
  if s.format.deref = 0 then some s
  else
    (sprintfSwitch E (fun buf str format => sprintf E n buf str format ⟨E.stack, 0⟩) s.next).bind
      fun s => sprintfLoop E n s.next

theorem sprintfLoop_succ (E : Env) (n : Nat) (s : Sprinting) :
    sprintfLoop E (n + 1) s =
      if s.format.deref = 0 then some s else (sprintfLiteral n s).bind (sprintfRound E n) := rfl

/-- A nested call with fuel `n`. -/
def nestedSprintf (E : Env) (n : Nat) : Nested :=
  fun buf str format => sprintf E n buf str format ⟨E.stack, 0⟩

/-- The loop with the nested calls `call`. -/
def loopWith (E : Env) (call : Nat → Nested) : Nat → Sprinting → Option Sprinting
  | 0, _ => none
  | n + 1, s =>
      if s.format.deref = 0 then some s
      else
        (sprintfLiteral n s).bind fun s =>
          if s.format.deref = 0 then some s
          else (sprintfSwitch E (call n) s.next).bind fun s => loopWith E call n s.next

theorem sprintfLoop_eq_loopWith (E : Env) (n : Nat) (s : Sprinting) :
    sprintfLoop E n s = loopWith E (nestedSprintf E) n s := by
  induction n generalizing s with
  | zero => rfl
  | succ n ih =>
    rw [sprintfLoop_succ, loopWith]
    congr 2
    funext t
    unfold sprintfRound
    congr 2
    funext u
    exact ih u.next

/-- The last literal run ends the loop. -/
theorem loopWith_tail (E : Env) (call : Nat → Nested) {t : List (BitVec 8)} (ht : Plain t)
    {s : Sprinting} (h : s.format.Holds t) :
    ∃ s', Returns (fun n => loopWith E call n s) s' ∧ s.After t t.length 0 s' := by
  cases t with
  | nil =>
    have hz : s.format.deref = 0 := h
    refine ⟨s, Returns.succ ((Returns.pure s).congr fun n => ?_), Sprinting.After.nil s⟩
    rw [loopWith, if_pos hz]
  | cons c t =>
    have hc : s.format.deref ≠ 0 := h.1 ▸ (ht c List.mem_cons_self).1
    rw [← List.append_nil (c :: t)] at h
    obtain ⟨s', hret, hafter⟩ := sprintfLiteral_spec (u := []) ht trivial h
    have hend : s'.format.deref = 0 := by
      rw [hafter.format]
      exact h.drop
    refine ⟨s', Returns.succ ((hret.bind (g := fun n s => if s.format.deref = 0 then some s
      else (sprintfSwitch E (call n) s.next).bind fun s => loopWith E call n s.next) ?_).congr
        fun n => ?_), hafter⟩
    · exact (Returns.pure s').congr fun n => if_pos hend
    · rw [loopWith, if_neg hc]

/-- sprintf on a text without '%' writes the text and a NUL, and fetches no argument. -/
theorem sprintfLoop_plain (E : Env) {t : List (BitVec 8)} (ht : Plain t) (buf : Mem (BitVec 8))
    (str : Nat) (args : VaList) :
    ∃ s', Returns (fun n => sprintfLoop E n ⟨buf, str, CharPtr.ofText t, args⟩) s' ∧
      Sprinting.After ⟨buf, str, CharPtr.ofText t, args⟩ t t.length 0 s' := by
  obtain ⟨s', hret, hafter⟩ := loopWith_tail E (nestedSprintf E) ht
    (s := ⟨buf, str, CharPtr.ofText t, args⟩) (CharPtr.holds_ofText t)
  exact ⟨s', hret.congr fun n => sprintfLoop_eq_loopWith E n _, hafter⟩

theorem sprintf_plain (E : Env) {t : List (BitVec 8)} (ht : Plain t) (buf : Mem (BitVec 8))
    (str : Nat) (args : VaList) :
    ∃ buf', Returns (fun n => sprintf E n buf str (CharPtr.ofText t) args) (buf', t.length) ∧
      Mem.Wrote str t buf buf' := by
  obtain ⟨s', hret, hafter⟩ := sprintfLoop_plain E ht buf str args
  have hcur : s'.current = str + t.length := hafter.current
  have hmap := hret.map fun s => (s.buf.write s.current 0, s.current - str)
  rw [hcur, Nat.add_sub_cancel_left] at hmap
  exact ⟨_, hmap, hafter.buf.terminate 0⟩

/-! ## The switch -/

/-- On a text without '%', the nested calls end and write the text. -/
def WritesPlain (call : Nat → Nested) : Prop :=
  ∀ t, Plain t → ∀ buf str, ∃ buf',
    Returns (fun n => call n buf str (CharPtr.ofText t)) (buf', t.length) ∧
      Mem.Wrote str t buf buf'

theorem nestedSprintf_writesPlain (E : Env) : WritesPlain (nestedSprintf E) :=
  fun _ ht buf str => sprintf_plain E ht buf str ⟨E.stack, 0⟩

section

variable (E : Env) {call : Nat → Nested} (hcall : WritesPlain call)
include hcall

theorem Sprinting.putArg_spec (s : Sprinting) (words : Nat) {t : List (BitVec 8)}
    (ht : Plain t) :
    ∃ s', Returns (fun n => s.putArg (call n) words t) s' ∧ s.After t 0 words s' := by
  obtain ⟨buf', hret, hwrote⟩ := hcall t ht s.buf s.current
  have hmap := hret.map fun r => ({ s with
    buf := r.1
    current := s.current + r.2
    args := s.args.skip words } : Sprinting)
  exact ⟨_, hmap, hwrote, rfl, rfl, rfl⟩

end

/-- Texts of the nested calls. -/
theorem Conv.plain_sprintfText (E : Env) (args : VaList) {k : Conv} (hk : k.isChar = false)
    (hs : k = .s → ∀ c ∈ (E.str args.word).text, c ≠ chr '%') : Plain (k.sprintfText E args) := by
  cases k with
  | c | percent => cases hk
  | s => exact fun c hc => ⟨(E.str args.word).noNul c hc, hs rfl c hc⟩
  | d | u | ld | lld | llu => exact plain_itoa _
  | lu => exact plain_utoa _
  | f => exact plain_ftoa _
  | p => exact plain_ptoa _
  | x | X | lx | lX | llx | llX => exact plain_itoh _ _

@[simp] theorem Sprinting.next_format (s : Sprinting) : s.next.format = s.format.next := rfl

@[simp] theorem Sprinting.next_args (s : Sprinting) : s.next.args = s.args := rfl

/-- At the letters of a conversion, the switch of sprintf calls sprintf on its text. -/
theorem sprintfSwitch_eq (E : Env) {k : Conv} (hk : k.isChar = false) {u : List (BitVec 8)}
    {s : Sprinting} (h : s.format.Holds (k.letters ++ u))
    (hfin : k = .f → ¬ IsInfinite s.args.dword) (call : Nested) :
    sprintfSwitch E call s =
      { s with format := s.format.advance (k.letters.length - 1) }.putArg call k.words
        (k.sprintfText E s.args) := by
  cases k with
  | c | percent => cases hk
  | d | s | p | u | x | X =>
    obtain ⟨h0, _⟩ := h
    simp [sprintfSwitch, h0, chr, Conv.letters, Conv.words, Conv.sprintfText, Conv.text]
  | f =>
    obtain ⟨h0, _⟩ := h
    simp [sprintfSwitch, h0, chr, Conv.letters, Conv.words, Conv.sprintfText, Conv.text, Env.split,
      hfin rfl]
  | ld | lu | lx | lX =>
    obtain ⟨h0, h1, _⟩ := h
    simp [sprintfSwitch, sprintfLong, h0, h1, chr, Conv.letters, Conv.words, Conv.sprintfText,
      Conv.text]
    rfl
  | lld | llu | llx | llX =>
    obtain ⟨h0, h1, h2, _⟩ := h
    simp [sprintfSwitch, sprintfLong, sprintfLongLong, h0, h1, h2, chr, Conv.letters, Conv.words,
      Conv.sprintfText, Conv.text]
    rfl

/-- At a `%f` whose argument is infinite, it does not end. -/
theorem sprintfSwitch_infinite (E : Env) {s : Sprinting} (hf : s.format.deref = chr 'f')
    (hinf : IsInfinite s.args.dword) (call : Nested) : sprintfSwitch E call s = none := by
  simp [sprintfSwitch, hf, chr, Env.split, hinf]

/-- At the other two, it stores their character. -/
theorem sprintfSwitch_char (E : Env) {k : Conv} (hk : k.isChar = true) {u : List (BitVec 8)}
    {s : Sprinting} (h : s.format.Holds (k.letters ++ u)) :
    ∃ s', (∀ call, sprintfSwitch E call s = some s') ∧
      s.After (k.sprintfText E s.args) (k.letters.length - 1) k.words s' := by
  cases k with
  | c =>
    have h0 : s.format.deref = chr 'c' := h.1
    exact ⟨_, fun call => if_pos h0, Mem.Wrote.single _ _ _, rfl, rfl, rfl⟩
  | percent =>
    have h0 : s.format.deref = chr '%' := h.1
    refine ⟨s.putc (chr '%'), fun call => ?_, Sprinting.After.putc s _⟩
    simp [sprintfSwitch, h0, chr]
  | _ => cases hk

section

variable (E : Env) {call : Nat → Nested} (hcall : WritesPlain call)
include hcall

theorem sprintfSwitch_spec (k : Conv) {u : List (BitVec 8)} {s : Sprinting}
    (h : s.format.Holds (k.letters ++ u))
    (hs : k = .s → ∀ c ∈ (E.str s.args.word).text, c ≠ chr '%')
    (hfin : k = .f → ¬ IsInfinite s.args.dword) :
    ∃ s', Returns (fun n => sprintfSwitch E (call n) s) s' ∧
      s.After (k.sprintfText E s.args) (k.letters.length - 1) k.words s' := by
  cases hk : k.isChar with
  | false =>
    obtain ⟨s', hret, hafter⟩ := Sprinting.putArg_spec hcall
      { s with format := s.format.advance (k.letters.length - 1) } k.words
      (Conv.plain_sprintfText E s.args hk hs)
    refine ⟨s', hret.congr fun n => sprintfSwitch_eq E hk h hfin _, ?_⟩
    exact ⟨hafter.buf, hafter.current, hafter.format, hafter.args⟩
  | true =>
    obtain ⟨s', hswitch, hafter⟩ := sprintfSwitch_char E hk h
    exact ⟨s', (Returns.pure s').congr fun n => hswitch (call n), hafter⟩

/-! ## The loop -/

/-- One round of the loop: a literal run, a '%' and a conversion. -/
theorem loopWith_seg (g : Seg) {u : List (BitVec 8)} {s : Sprinting}
    (h : s.format.Holds (g.lit ++ chr '%' :: (g.conv.letters ++ u)))
    (hs : g.conv = .s → ∀ c ∈ (E.str s.args.word).text, c ≠ chr '%')
    (hfin : g.conv = .f → ¬ IsInfinite s.args.dword) :
    ∃ s', s.After (g.lit ++ g.conv.sprintfText E s.args)
        (g.lit ++ chr '%' :: g.conv.letters).length g.conv.words s' ∧
      ∀ r, Returns (fun n => loopWith E call n s') r → Returns (fun n => loopWith E call n s) r := by
  have hc := deref_ne_zero g.plain h
  obtain ⟨s₁, hlit, hafter₁⟩ :=
    sprintfLiteral_spec g.plain (show Stops (chr '%' :: _) from rfl) h
  have hat := h.drop
  rw [← hafter₁.format] at hat
  have hargs : s₁.args = s.args := hafter₁.args
  obtain ⟨s₂, hswitch, hafter₂⟩ := sprintfSwitch_spec E hcall g.conv (s := s₁.next) hat.2
    (by rw [Sprinting.next_args, hargs]; exact hs) (by rw [Sprinting.next_args, hargs]; exact hfin)
  rw [Sprinting.next_args, hargs] at hafter₂
  have hround := (hafter₁.next.trans hafter₂).next
  rw [g.length_round, Nat.zero_add] at hround
  refine ⟨s₂.next, hround, fun r hrest => Returns.succ ?_⟩
  refine (hlit.bind (g := fun n s => if s.format.deref = 0 then some s
    else (sprintfSwitch E (call n) s.next).bind fun s => loopWith E call n s.next) ?_).congr
      fun n => ?_
  · refine (hswitch.bind (g := fun n s => loopWith E call n s.next) hrest).congr fun n => ?_
    rw [if_neg (by rw [hat.1]; decide)]
  · rw [loopWith, if_neg hc]

theorem loopWith_spec (gs : List Seg) {tail : List (BitVec 8)} (ht : Plain tail)
    {s : Sprinting} (h : s.format.Holds (segText gs ++ tail)) (hs : NoPercent E gs s.args)
    (hfin : FiniteFloats gs s.args) :
    ∃ s', Returns (fun n => loopWith E call n s) s' ∧
      s.After (segOut (fun args k => k.sprintfText E args) gs s.args ++ tail)
        (segText gs ++ tail).length (segWords gs) s' := by
  induction gs generalizing s with
  | nil => exact loopWith_tail E call ht h
  | cons g gs ih =>
    rw [segText_cons_append] at h
    obtain ⟨s₁, hafter, hloop⟩ := loopWith_seg E hcall g h hs.1 hfin.1
    have hdrop : s₁.format.Holds (segText gs ++ tail) := by
      rw [hafter.format]
      apply CharPtr.Holds.drop
      rw [List.append_assoc]
      exact h
    obtain ⟨s₂, hret, hafter₂⟩ := ih hdrop (by rw [hafter.args]; exact hs.2)
      (by rw [hafter.args]; exact hfin.2)
    refine ⟨s₂, hloop s₂ hret, ?_⟩
    have hall := hafter.trans hafter₂
    rw [hafter.args, length_segText_cons] at hall
    rw [segOut_cons_append]
    exact hall

end

theorem sprintfLoop_spec (E : Env) (gs : List Seg) {tail : List (BitVec 8)} (ht : Plain tail)
    {s : Sprinting} (h : s.format.Holds (segText gs ++ tail)) (hs : NoPercent E gs s.args)
    (hfin : FiniteFloats gs s.args) :
    ∃ s', Returns (fun n => sprintfLoop E n s) s' ∧
      s.After (segOut (fun args k => k.sprintfText E args) gs s.args ++ tail)
        (segText gs ++ tail).length (segWords gs) s' := by
  obtain ⟨s', hret, hafter⟩ := loopWith_spec E (nestedSprintf_writesPlain E) gs ht h hs hfin
  exact ⟨s', hret.congr fun n => sprintfLoop_eq_loopWith E n s, hafter⟩

/-- **sprintf.** On a string that holds a format, with no '%' in a `%s` argument and no infinite
`%f` argument, sprintf ends with the literal runs and the conversions' texts in the buffer, a NUL after them, and
nothing else stored to. -/
theorem sprintf_spec (E : Env) (F : Format) {format : CharPtr} (h : format.Holds F.text)
    {args : VaList} (hs : NoPercent E F.segs args) (hfin : FiniteFloats F.segs args)
    (buf : Mem (BitVec 8)) (str : Nat) :
    ∃ buf', Returns (fun n => sprintf E n buf str format args)
        (buf', (segOut (fun args k => k.sprintfText E args) F.segs args ++ F.tail).length) ∧
      Mem.Wrote str (segOut (fun args k => k.sprintfText E args) F.segs args ++ F.tail) buf buf' ∧
      buf'.read
        (str + (segOut (fun args k => k.sprintfText E args) F.segs args ++ F.tail).length) = 0 := by
  obtain ⟨s', hret, hafter⟩ := sprintfLoop_spec E F.segs F.plain
    (s := ⟨buf, str, format, args⟩) h hs hfin
  have hcur := hafter.current
  have hmap := hret.map fun s => (s.buf.write s.current 0, s.current - str)
  dsimp only at hcur hmap
  rw [hcur, Nat.add_sub_cancel_left] at hmap
  exact ⟨_, hmap, hafter.buf.terminate 0, Mem.read_write_self _ _ _⟩

end ListaOS.Stdio
