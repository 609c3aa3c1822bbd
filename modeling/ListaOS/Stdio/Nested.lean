/-
  Argument text as a format (libkernel/stdio.c, sprintf).

  sprintf writes the text of an argument by calling itself with that text as the format.
  `quietLoop` is sprintf with every nested call refused that fetches an argument: a run of it
  is a run of sprintf (`sprintf_of_quiet`) in which only the outer format fetches. A nested
  call that fetches nothing writes at most one character for each one it reads, and at a '%'
  fewer (`nested_length`). Hence `sprintf_verbatim_iff`: sprintf writes every `%s` argument
  byte for byte and fetches no argument for it exactly when none of them has a '%' and sprintf
  meets no infinite number.
-/
import ListaOS.Stdio.Reads
import Mathlib.Data.List.GetD

namespace ListaOS.Stdio

open Lib

/-- A nested call, refused if it fetched an argument. -/
def quietSprintf (E : Env) (n : Nat) : Nested := fun buf str format =>
  (sprintfLoop E n ⟨buf, str, format, ⟨E.stack, 0⟩⟩).bind fun t =>
    if t.args.pos = 0 then some (t.buf.write t.current 0, t.current - str) else none

/-- sprintf, for as long as no nested call fetches an argument. -/
def quietLoop (E : Env) : Nat → Sprinting → Option Sprinting := loopWith E (quietSprintf E)

theorem quietSprintf_writesPlain (E : Env) : WritesPlain (quietSprintf E) := by
  intro t ht buf str
  obtain ⟨s', hret, hafter⟩ := sprintfLoop_plain E ht buf str ⟨E.stack, 0⟩
  have hcur : s'.current = str + t.length := hafter.current
  have hpos : s'.args.pos = 0 := by
    rw [hafter.args]
    rfl
  refine ⟨s'.buf.write (str + t.length) 0, ?_, hafter.buf.terminate 0⟩
  refine hret.bind (g := fun _ t => if t.args.pos = 0 then
    some (t.buf.write t.current 0, t.current - str) else none) ?_
  refine (Returns.pure _).congr fun n => ?_
  rw [if_pos hpos, hcur, Nat.add_sub_cancel_left]

/-! ## A quiet run is a run of sprintf -/

theorem nested_of_quiet {E : Env} {n : Nat} {buf : Mem (BitVec 8)} {str : Nat} {format : CharPtr}
    {r : Mem (BitVec 8) × Nat} (h : quietSprintf E n buf str format = some r) :
    nestedSprintf E n buf str format = some r := by
  obtain ⟨t, ht, h⟩ := Option.bind_eq_some_iff.mp h
  unfold nestedSprintf sprintf
  rw [ht, Option.map_some]
  split at h
  · exact h
  · cases h

theorem Sprinting.putArg_mono {call call' : Nested} {s s' : Sprinting}
    {words : Nat} {t : List (BitVec 8)}
    (hcall : ∀ buf str format r, call buf str format = some r → call' buf str format = some r)
    (h : s.putArg call words t = some s') : s.putArg call' words t = some s' := by
  obtain ⟨r, hr, rfl⟩ := Option.map_eq_some_iff.mp h
  unfold Sprinting.putArg
  rw [hcall _ _ _ _ hr, Option.map_some]

theorem sprintfSwitch_mono (E : Env) {call call' : Nested} {s s' : Sprinting}
    (hcall : ∀ buf str format r, call buf str format = some r → call' buf str format = some r)
    (h : sprintfSwitch E call s = some s') : sprintfSwitch E call' s = some s' := by
  cases sprintfSwitch_moves E (finite_of_sprintfSwitch h) with
  | converts hconv =>
    cases hconv with
    | call t _ _ hput =>
      rw [hput] at h
      exact (hput call').trans (Sprinting.putArg_mono hcall h)
    | skip _ hsome => exact (hsome call').trans ((hsome call).symm.trans h)
  | char _ ch hsome => exact (hsome call').trans ((hsome call).symm.trans h)
  | percent _ _ hsome => exact (hsome call').trans ((hsome call).symm.trans h)

/-- What a round of the loop does. -/
theorem loopWith_cases {E : Env} {call : Nat → Nested} {n : Nat} {s s' : Sprinting}
    (h : loopWith E call (n + 1) s = some s') :
    s.format.deref = 0 ∧ s' = s ∨
      ∃ s₁, sprintfLiteral n s = some s₁ ∧
        (s₁.format.deref = 0 ∧ s' = s₁ ∨
          s₁.format.deref ≠ 0 ∧
            ∃ s₂, sprintfSwitch E (call n) s₁.next = some s₂ ∧
              loopWith E call n s₂.next = some s') := by
  rw [loopWith] at h
  split at h
  case isTrue hz => exact .inl ⟨hz, (Option.some.inj h).symm⟩
  case isFalse =>
    obtain ⟨s₁, h₁, h⟩ := Option.bind_eq_some_iff.mp h
    refine .inr ⟨s₁, h₁, ?_⟩
    split at h
    case isTrue hz => exact .inl ⟨hz, (Option.some.inj h).symm⟩
    case isFalse hz => exact .inr ⟨hz, Option.bind_eq_some_iff.mp h⟩

theorem sprintf_of_quiet {E : Env} {n : Nat} {s s' : Sprinting} (h : quietLoop E n s = some s') :
    sprintfLoop E n s = some s' := by
  rw [sprintfLoop_eq_loopWith]
  unfold quietLoop at h
  induction n generalizing s with
  | zero => cases h
  | succ n ih =>
    rw [loopWith] at h ⊢
    split at h
    case isTrue hz =>
      rw [if_pos hz]
      exact h
    case isFalse hz =>
      obtain ⟨s₁, h₁, h⟩ := Option.bind_eq_some_iff.mp h
      rw [if_neg hz, h₁, Option.bind_some]
      split at h
      case isTrue hz₁ =>
        rw [if_pos hz₁]
        exact h
      case isFalse hz₁ =>
        obtain ⟨s₂, h₂, h⟩ := Option.bind_eq_some_iff.mp h
        rw [if_neg hz₁, sprintfSwitch_mono E (fun _ _ _ _ => nested_of_quiet) h₂, Option.bind_some]
        exact ih h

/-! ## What a call writes that fetches nothing -/

/-- The literal run copies `k` characters, none of them a '%' or the NUL, and stops at one. -/
theorem sprintfLiteral_run {n : Nat} {s s' : Sprinting} (h : sprintfLiteral n s = some s') :
    ∃ k, s'.format = s.format.advance k ∧ s'.current = s.current + k ∧ s'.args = s.args ∧
      (∀ i < k, (s.format.advance i).deref ≠ chr '%' ∧ (s.format.advance i).deref ≠ 0) ∧
      ¬ (s'.format.deref ≠ chr '%' ∧ s'.format.deref ≠ 0) := by
  induction n generalizing s with
  | zero => cases h
  | succ n ih =>
    rw [sprintfLiteral] at h
    split at h
    case isTrue hc =>
      obtain ⟨k, hat, hcur, hargs, hrun, hstop⟩ := ih h
      refine ⟨k + 1, ?_, ?_, hargs, fun i hi => ?_, hstop⟩
      · rw [hat, Nat.add_comm, ← CharPtr.advance_advance]
        rfl
      · rw [hcur, Nat.add_comm k, ← Nat.add_assoc]
        rfl
      · cases i with
        | zero => exact hc
        | succ i =>
          rw [Nat.add_comm, ← CharPtr.advance_advance]
          exact hrun i (by omega)
    case isFalse hc =>
      obtain rfl := Option.some.inj h
      exact ⟨0, rfl, rfl, rfl, fun i hi => absurd hi (Nat.not_lt_zero i), hc⟩

theorem sprintfSwitch_args {E : Env} {call : Nested} {s s' : Sprinting}
    (h : sprintfSwitch E call s = some s') :
    s'.format = s.format.advance (convLength s.format - 1) ∧ s.args.pos ≤ s'.args.pos ∧
      (s'.args.pos = s.args.pos → s'.current = s.current ∨
        s.format.deref = chr '%' ∧ s'.current = s.current + 1) := by
  obtain ⟨hat, hargs⟩ := sprintfSwitch_at h
  have hpos : s'.args.pos = s.args.pos + fetched (conversionAt s.format) :=
    congrArg VaList.pos hargs
  refine ⟨hat, by omega, fun hquiet => ?_⟩
  cases sprintfSwitch_moves E (finite_of_sprintfSwitch h) with
  | converts hconv =>
    cases hconv with
    | call t hw _ hput => omega
    | skip _ hsome =>
      obtain rfl := Option.some.inj ((hsome call).symm.trans h)
      exact .inl rfl
  | char hw ch hsome => omega
  | percent _ hp hsome =>
    obtain rfl := Option.some.inj ((hsome call).symm.trans h)
    exact .inr ⟨hp, rfl⟩

theorem loopWith_args {E : Env} {call : Nat → Nested} {n : Nat} {s s' : Sprinting}
    (h : loopWith E call n s = some s') : s.args.pos ≤ s'.args.pos := by
  induction n generalizing s with
  | zero => cases h
  | succ n ih =>
    obtain ⟨-, rfl⟩ | ⟨s₁, h₁, hround⟩ := loopWith_cases h
    · exact Nat.le_refl _
    obtain ⟨_, -, -, hargs, -, -⟩ := sprintfLiteral_run h₁
    rw [← hargs]
    obtain ⟨-, rfl⟩ | ⟨-, s₂, h₂, hrest⟩ := hround
    · exact Nat.le_refl _
    · exact Nat.le_trans (sprintfSwitch_args h₂).2.1 (ih (s := s₂.next) hrest)

section

variable {t : List (BitVec 8)} (ht : ∀ c ∈ t, c ≠ 0)

theorem lt_length_of_getD {i : Nat} (h : t.getD i 0 ≠ 0) : i < t.length := by
  by_contra hge
  exact h (List.getD_eq_default _ _ (Nat.le_of_not_lt hge))

include ht in
theorem length_le_of_getD {i : Nat} (h : t.getD i 0 = 0) : t.length ≤ i := by
  by_contra hlt
  have hi : i < t.length := Nat.lt_of_not_le hlt
  rw [List.getD_eq_getElem _ _ hi] at h
  exact ht _ (List.getElem_mem hi) h

/-- The text has a '%' from position `p` on. -/
def PercentFrom (t : List (BitVec 8)) (p : Nat) : Prop := ∃ i, p ≤ i ∧ t.getD i 0 = chr '%'

theorem not_percentFrom {p : Nat} (h : t.length ≤ p) : ¬ PercentFrom t p := by
  intro hper
  obtain ⟨i, hi, hp⟩ := hper
  have hlt : i < t.length := lt_length_of_getD (by rw [hp]; decide)
  omega

theorem deref_text {p : CharPtr} (hmem : p.mem = (CharPtr.ofText t).mem) :
    p.deref = t.getD p.pos 0 := congrFun hmem p.pos

/-- `s'` comes from `s` by copying characters of the text, none of them a '%'. -/
structure Copied (t : List (BitVec 8)) (s s' : Sprinting) : Prop where
  mem : s'.format.mem = (CharPtr.ofText t).mem
  args : s'.args = s.args
  current : s'.current + s.format.pos = s.current + s'.format.pos
  inside : s'.format.pos = s.format.pos ∨ s'.format.pos ≤ t.length
  percent : PercentFrom t s.format.pos → PercentFrom t s'.format.pos

theorem copied_of_literal {n : Nat} {s s' : Sprinting}
    (hmem : s.format.mem = (CharPtr.ofText t).mem) (h : sprintfLiteral n s = some s') :
    Copied t s s' := by
  obtain ⟨k, hat, hcur, hargs, hrun, -⟩ := sprintfLiteral_run h
  have hderef : ∀ i, (s.format.advance i).deref = t.getD (s.format.pos + i) 0 :=
    fun i => congrFun hmem (s.format.pos + i)
  have hpos : s'.format.pos = s.format.pos + k := congrArg CharPtr.pos hat
  refine ⟨?_, hargs, by omega, ?_, fun hper => ?_⟩
  · rw [hat]
    exact hmem
  · cases k with
    | zero => exact .inl hpos
    | succ k =>
      have hne := (hrun k (Nat.lt_succ_self k)).2
      rw [hderef] at hne
      have hlt := lt_length_of_getD hne
      exact .inr (by omega)
  · obtain ⟨i, hi, hp⟩ := hper
    refine ⟨i, ?_, hp⟩
    by_contra hlt
    have hne := (hrun (i - s.format.pos) (by omega)).1
    rw [hderef, Nat.add_sub_cancel' hi] at hne
    exact hne hp

/-- A conversion reads two characters or more; one that fetches nothing writes one or none. -/
theorem switch_text {E : Env} {call : Nested} {s s' : Sprinting}
    (hmem : s.format.mem = (CharPtr.ofText t).mem) (h : sprintfSwitch E call s.next = some s') :
    s'.next.format.mem = (CharPtr.ofText t).mem ∧ s.format.pos + 2 ≤ s'.next.format.pos ∧
      s.args.pos ≤ s'.args.pos ∧
      (s'.args.pos = s.args.pos → s'.current = s.current ∨
        s.format.pos + 1 < t.length ∧ s'.current = s.current + 1) := by
  obtain ⟨hat, hmono, hwrote⟩ := sprintfSwitch_args h
  have hnext : s'.next.format = (s.next.format.advance (convLength s.next.format - 1)).next := by
    rw [Sprinting.next_format, hat]
  refine ⟨?_, ?_, hmono, fun hargs => ?_⟩
  · rw [hnext]
    exact hmem
  · rw [hnext]
    show s.format.pos + 2 ≤ s.format.pos + 1 + (convLength s.next.format - 1) + 1
    omega
  · obtain hsame | ⟨hp, hone⟩ := hwrote hargs
    · exact .inl hsame
    · have hhere : t.getD (s.format.pos + 1) 0 = chr '%' :=
        (deref_text (p := s.next.format) hmem).symm.trans hp
      exact .inr ⟨lt_length_of_getD (by rw [hhere]; decide), hone⟩

include ht in
/-- A call that fetches no argument writes no more than it reads, and less where it meets a
'%'. -/
theorem loopWith_length {E : Env} {call : Nat → Nested} {n : Nat} {s s' : Sprinting}
    (hmem : s.format.mem = (CharPtr.ofText t).mem) (h : loopWith E call n s = some s')
    (hargs : s'.args.pos = s.args.pos) :
    s'.current ≤ s.current + (t.length - s.format.pos) ∧
      (PercentFrom t s.format.pos → s'.current < s.current + (t.length - s.format.pos)) := by
  induction n generalizing s with
  | zero => cases h
  | succ n ih =>
    obtain ⟨hz, rfl⟩ | ⟨s₁, h₁, hround⟩ := loopWith_cases h
    · rw [deref_text hmem] at hz
      have hend := length_le_of_getD ht hz
      exact ⟨Nat.le_add_right _ _, fun hper => absurd hper (not_percentFrom hend)⟩
    have hcopy := copied_of_literal hmem h₁
    have hcur := hcopy.current
    have hinside := hcopy.inside
    obtain ⟨hz, rfl⟩ | ⟨hz, s₂, h₂, hrest⟩ := hround
    · rw [deref_text hcopy.mem] at hz
      have hend := length_le_of_getD ht hz
      exact ⟨by omega, fun hper => absurd (hcopy.percent hper) (not_percentFrom hend)⟩
    · rw [deref_text hcopy.mem] at hz
      have hlt := lt_length_of_getD hz
      obtain ⟨hmem₂, hpos₂, hmono, hwrote⟩ := switch_text hcopy.mem h₂
      have hlast : s₂.args.pos ≤ s'.args.pos := loopWith_args (s := s₂.next) hrest
      rw [hcopy.args] at hmono hwrote
      have hquiet : s₂.args.pos = s.args.pos := by omega
      have hrest' := (ih hmem₂ hrest (hargs.trans hquiet.symm)).1
      have hcur₂ : s₂.next.current = s₂.current := rfl
      have hless : s'.current < s.current + (t.length - s.format.pos) := by
        obtain hsame | ⟨hnext, hone⟩ := hwrote hquiet
        · omega
        · omega
      exact ⟨Nat.le_of_lt hless, fun _ => hless⟩

include ht in
theorem nested_length {E : Env} {n : Nat} {buf : Mem (BitVec 8)} {str : Nat}
    {r : Mem (BitVec 8) × Nat} (h : quietSprintf E n buf str (CharPtr.ofText t) = some r) :
    r.2 ≤ t.length ∧ (chr '%' ∈ t → r.2 < t.length) := by
  obtain ⟨s', hloop, h⟩ := Option.bind_eq_some_iff.mp h
  split at h
  case isFalse => cases h
  case isTrue hpos =>
    obtain rfl := Option.some.inj h
    rw [sprintfLoop_eq_loopWith] at hloop
    obtain ⟨hle, hlt⟩ := loopWith_length ht rfl hloop hpos
    have hcur : s'.current ≤ str + t.length := hle
    refine ⟨by omega, fun hmem => ?_⟩
    obtain ⟨i, hi, hc⟩ := List.getElem_of_mem hmem
    have hper : PercentFrom t 0 := ⟨i, Nat.zero_le i, by rw [List.getD_eq_getElem _ _ hi, hc]⟩
    have hless : s'.current < str + t.length := hlt hper
    have hpositive : 0 < t.length := Nat.lt_of_le_of_lt (Nat.zero_le i) hi
    show s'.current - str < t.length
    omega

end

/-! ## The outer format -/

/-- The text of a nested call has no NUL. -/
theorem Conv.sprintfText_ne_zero (E : Env) (args : VaList) {k : Conv} (hk : k.isChar = false) :
    ∀ c ∈ k.sprintfText E args, c ≠ 0 := by
  by_cases hs : k = .s
  · rw [hs]
    exact (E.str args.word).noNul
  · exact fun c hc => (Conv.plain_sprintfText E args hk (fun he => absurd he hs) c hc).1

theorem Conv.finite_of_sprintfSwitch {E : Env} {call : Nested} {k : Conv} {u : List (BitVec 8)}
    {s s' : Sprinting} (h : s.format.Holds (k.letters ++ u))
    (hs : sprintfSwitch E call s = some s') (hf : k = .f) : ¬ IsInfinite s.args.dword := by
  subst hf
  exact Stdio.finite_of_sprintfSwitch hs h.1

/-- At a conversion a quiet call writes at most the conversion's text, and less for a string
with a '%'. -/
theorem quietSwitch_length {E : Env} {n : Nat} {k : Conv} {u : List (BitVec 8)}
    {s s' : Sprinting} (h : s.format.Holds (k.letters ++ u))
    (hs : sprintfSwitch E (quietSprintf E n) s = some s') :
    s'.format = s.format.advance (k.letters.length - 1) ∧ s'.args = s.args.skip k.words ∧
      s'.current ≤ s.current + (k.sprintfText E s.args).length ∧
      (k = .s → chr '%' ∈ (E.str s.args.word).text →
        s'.current < s.current + (k.sprintfText E s.args).length) := by
  cases hk : k.isChar with
  | true =>
    obtain ⟨s'', hsome, hafter⟩ := sprintfSwitch_char E hk h
    obtain rfl := Option.some.inj ((hsome _).symm.trans hs)
    refine ⟨hafter.format, hafter.args, Nat.le_of_eq hafter.current, fun he => ?_⟩
    rw [he] at hk
    cases hk
  | false =>
    rw [sprintfSwitch_eq E hk h (Conv.finite_of_sprintfSwitch h hs)] at hs
    obtain ⟨r, hr, rfl⟩ := Option.map_eq_some_iff.mp hs
    obtain ⟨hle, hlt⟩ := nested_length (Conv.sprintfText_ne_zero E s.args hk) hr
    refine ⟨rfl, rfl, Nat.add_le_add_left hle _, fun he hper => ?_⟩
    refine Nat.add_lt_add_left (hlt ?_) _
    rw [he]
    exact hper

theorem sprintfLiteral_copy {n : Nat} {s s' : Sprinting} {t u : List (BitVec 8)} (ht : Plain t)
    (hu : Stops u) (h : s.format.Holds (t ++ u)) (hs : sprintfLiteral n s = some s') :
    s'.format = s.format.advance t.length ∧ s'.current = s.current + t.length ∧
      s'.args = s.args := by
  obtain ⟨hat, hargs⟩ := sprintfLiteral_format ht hu h hs
  obtain ⟨k, hat', hcur, -, -, -⟩ := sprintfLiteral_run hs
  have hpos : s.format.pos + k = s.format.pos + t.length :=
    congrArg CharPtr.pos (hat'.symm.trans hat)
  obtain rfl : k = t.length := Nat.add_left_cancel hpos
  exact ⟨hat, hcur, hargs⟩

/-- A round of a quiet run: the literal run, and at most the conversion's text, which is not that
of an infinite number. -/
theorem quietRound_length {E : Env} {g : Seg} {u : List (BitVec 8)} {n : Nat} {s s' : Sprinting}
    (h : s.format.Holds (g.lit ++ chr '%' :: (g.conv.letters ++ u)))
    (hs : loopWith E (quietSprintf E) (n + 1) s = some s') :
    ∃ s₂, loopWith E (quietSprintf E) n s₂ = some s' ∧ s₂.format.Holds u ∧
      s₂.args = s.args.skip g.conv.words ∧ (g.conv = .f → ¬ IsInfinite s.args.dword) ∧
      s₂.current ≤ s.current + (g.lit.length + (g.conv.sprintfText E s.args).length) ∧
      (g.conv = .s → chr '%' ∈ (E.str s.args.word).text →
        s₂.current < s.current + (g.lit.length + (g.conv.sprintfText E s.args).length)) := by
  obtain ⟨hz, -⟩ | ⟨s₁, h₁, hround⟩ := loopWith_cases hs
  · exact absurd hz (deref_ne_zero g.plain h)
  obtain ⟨hat, hcur, hargs⟩ :=
    sprintfLiteral_copy g.plain (show Stops (chr '%' :: _) from rfl) h h₁
  have hholds := h.drop
  rw [← hat] at hholds
  obtain ⟨hz, -⟩ | ⟨-, s₂, h₂, hrest⟩ := hround
  · rw [hholds.1] at hz
    exact absurd hz (by decide)
  obtain ⟨hat₂, hargs₂, hle, hlt⟩ := quietSwitch_length (s := s₁.next) hholds.2 h₂
  have hfin := Conv.finite_of_sprintfSwitch (s := s₁.next) hholds.2 h₂
  rw [Sprinting.next_args, hargs] at hargs₂ hle hlt hfin
  have hcur₁ : s₁.next.current = s.current + g.lit.length := hcur
  have hcur₂ : s₂.next.current = s₂.current := rfl
  refine ⟨s₂.next, hrest, ?_, hargs₂, hfin, by omega, fun hconv hper => ?_⟩
  · have hpos : 0 < g.conv.letters.length := by cases g.conv <;> decide
    have hend : s₂.next.format = s₁.next.format.advance g.conv.letters.length := by
      rw [Sprinting.next_format, hat₂, CharPtr.next_eq, CharPtr.advance_advance,
        Nat.sub_add_cancel hpos]
    rw [hend]
    exact CharPtr.Holds.drop hholds.2
  · have hshort := hlt hconv hper
    omega

theorem quietTail_length {E : Env} {tail : List (BitVec 8)} (ht : Plain tail) {n : Nat}
    {s s' : Sprinting} (h : s.format.Holds tail)
    (hs : loopWith E (quietSprintf E) n s = some s') : s'.current ≤ s.current + tail.length := by
  cases n with
  | zero => cases hs
  | succ n =>
    obtain ⟨-, rfl⟩ | ⟨s₁, h₁, hround⟩ := loopWith_cases hs
    · exact Nat.le_add_right _ _
    have hholds : s.format.Holds (tail ++ []) := by
      rw [List.append_nil]
      exact h
    obtain ⟨hat, hcur, -⟩ := sprintfLiteral_copy (u := []) ht trivial hholds h₁
    have hend : s₁.format.deref = 0 := by
      rw [hat]
      exact hholds.drop
    obtain ⟨-, rfl⟩ | ⟨hz, -⟩ := hround
    · exact Nat.le_of_eq hcur
    · exact absurd hend hz

/-- A '%' is in the first conversion's string or in a later one's. -/
theorem not_noPercent_cons {E : Env} {g : Seg} {gs : List Seg} {args : VaList}
    (h : ¬ NoPercent E (g :: gs) args) :
    (g.conv = .s ∧ chr '%' ∈ (E.str args.word).text) ∨
      ¬ NoPercent E gs (args.skip g.conv.words) := by
  by_contra hnot
  obtain ⟨hhere, hrest⟩ := not_or.mp hnot
  refine h ⟨fun hconv c hc he => hhere ⟨hconv, he ▸ hc⟩, ?_⟩
  exact not_not.mp hrest

/-- The whole text bounds what a quiet run writes, and a string with a '%' leaves it short. No
number it has written is infinite. -/
theorem quietLoop_length {E : Env} (gs : List Seg) {tail : List (BitVec 8)} (ht : Plain tail)
    {n : Nat} {s s' : Sprinting} (h : s.format.Holds (segText gs ++ tail))
    (hs : loopWith E (quietSprintf E) n s = some s') :
    s'.current ≤ s.current +
        (segOut (fun args k => k.sprintfText E args) gs s.args ++ tail).length ∧
      (¬ NoPercent E gs s.args → s'.current < s.current +
        (segOut (fun args k => k.sprintfText E args) gs s.args ++ tail).length) ∧
      FiniteFloats gs s.args := by
  induction gs generalizing n s with
  | nil => exact ⟨quietTail_length ht h hs, fun hno => absurd trivial hno, trivial⟩
  | cons g gs ih =>
    cases n with
    | zero => cases hs
    | succ n =>
      rw [segText_cons_append] at h
      obtain ⟨s₂, hrest, hholds, hargs, hfin, hle, hlt⟩ := quietRound_length h hs
      obtain ⟨hle', hlt', hfin'⟩ := ih hholds hrest
      rw [hargs] at hle' hlt' hfin'
      have hlen : (segOut (fun args k => k.sprintfText E args) (g :: gs) s.args ++ tail).length =
          g.lit.length + (g.conv.sprintfText E s.args).length +
            (segOut (fun args k => k.sprintfText E args) gs (s.args.skip g.conv.words) ++
              tail).length := by
        simp only [segOut, List.length_append]
        omega
      rw [hlen]
      refine ⟨by omega, fun hno => ?_, hfin, hfin'⟩
      obtain ⟨hconv, hper⟩ | hrestno := not_noPercent_cons hno
      · have hshort := hlt hconv hper
        omega
      · have hshort := hlt' hrestno
        omega

/-- sprintf ends with the literal runs and the texts of the arguments in the buffer, every `%s`
string byte for byte; it fetched the words of the outer format's conversions in order, and no
nested call fetched one. -/
def Verbatim (E : Env) (F : Format) (s : Sprinting) : Prop :=
  ∃ s', Returns (fun n => sprintfLoop E n s) s' ∧ Returns (fun n => quietLoop E n s) s' ∧
    s.After (segOut (fun args k => k.sprintfText E args) F.segs s.args ++ F.tail) F.text.length
      (segWords F.segs) s'

theorem noPercent_of_verbatim {E : Env} {F : Format} {s : Sprinting} (h : s.format.Holds F.text)
    (hv : Verbatim E F s) : NoPercent E F.segs s.args ∧ FiniteFloats F.segs s.args := by
  obtain ⟨s', -, ⟨N, hN⟩, hafter⟩ := hv
  obtain ⟨-, hshort, hfin⟩ := quietLoop_length F.segs F.plain h (hN N (Nat.le_refl N))
  refine ⟨?_, hfin⟩
  by_contra hno
  have hless := hshort hno
  have hcur := hafter.current
  omega

/-- **Arguments are not formats** exactly where no `%s` string has a '%' and no `%f` argument is
infinite. Behind its NUL a `%s` string is followed by zeros in memory (`CharPtr.ofText`). -/
theorem sprintf_verbatim_iff (E : Env) (F : Format) (s : Sprinting) (h : s.format.Holds F.text) :
    Verbatim E F s ↔ NoPercent E F.segs s.args ∧ FiniteFloats F.segs s.args := by
  refine ⟨noPercent_of_verbatim h, fun ⟨hs, hfin⟩ => ?_⟩
  obtain ⟨s', ⟨N, hN⟩, hafter⟩ :=
    loopWith_spec E (quietSprintf_writesPlain E) F.segs F.plain h hs hfin
  exact ⟨s', ⟨N, fun n hn => sprintf_of_quiet (hN n hn)⟩, ⟨N, hN⟩, hafter⟩

/-- `"%s"` with the string `text`, where the stack holds sevens. -/
def stringEnv (text : CString) : Env := ⟨fun _ => text, fun _ => 7, fun _ => ⟨false, 0, 0, 0⟩⟩

def stringFormat : Format := ⟨[⟨[], Plain.nil, .s⟩], [], Plain.nil⟩

def stringCall : Sprinting :=
  ⟨Mem.fresh fun _ => 0, 0, CharPtr.ofText stringFormat.text, ⟨fun _ => 0, 0⟩⟩

theorem sprintf_verbatim_iff_ok :
    let E := stringEnv ⟨[chr 'o', chr 'k'], by decide⟩
    Verbatim E stringFormat stringCall ↔
      NoPercent E stringFormat.segs stringCall.args ∧
        FiniteFloats stringFormat.segs stringCall.args :=
  sprintf_verbatim_iff _ stringFormat stringCall (CharPtr.holds_ofText _)

/-- With the string `"%d"` the nested call fetches a seven, and writes it. -/
theorem sprintf_string_percent :
    let E := stringEnv ⟨[chr '%', chr 'd'], by decide⟩
    ¬ Verbatim E stringFormat stringCall ∧
      (sprintf E 8 stringCall.buf 0 stringCall.format stringCall.args).map
        (fun r => (r.1.read 0, r.2)) = some (chr '7', 1) := by
  intro E
  refine ⟨fun hv => ?_, by decide⟩
  have hno := noPercent_of_verbatim (CharPtr.holds_ofText _) hv
  exact hno.1.1 rfl (chr '%') List.mem_cons_self rfl

end ListaOS.Stdio
