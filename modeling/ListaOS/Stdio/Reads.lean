/-
  Which characters of the format vprintf and sprintf read.

  The loops of vprintf and sprintf scan the format in the same way. `Scanner` is that loop
  over a literal run and a switch of its own, with the positions it reads; both functions
  are instances (`vprintfLoop_eq`, `sprintfLoop_eq`). A text is `Complete` if it does not
  end inside a conversion. On a complete text a scanner reads up to the NUL and ends there
  (`reads_within`, `loop_end`); on any other text the `++format` after the switch steps
  over the NUL and the loop goes on behind it (`reads_past`).

  A '%' sequence is a '%' with the characters that the switch passes over: one, or two or three
  after an 'l' (`Sequence`); `sequences` cuts a text into them. `vprintfSwitch_moves` and
  `sprintfSwitch_moves` are what a switch does: how far it moves the format, how many argument
  words it fetches, and whether it puts a text. It does not end at a "%f" whose argument is
  infinite; `FiniteText` says that the text comes to none.
-/
import ListaOS.Stdio.Agree

namespace ListaOS.Stdio

open Lib

/-! ## Complete texts -/

/-- Where a character stands: in a literal run, after '%', after "%l", or after "%l" and a
character that is no conversion. -/
inductive ScanState where
  | text | percent | long | longLong
deriving DecidableEq

/-- The letters that end a conversion after 'l'. -/
def longLetters : List (BitVec 8) := [chr 'd', chr 'u', chr 'X', chr 'x']

def scanStep : ScanState → BitVec 8 → ScanState
  | .text, c => if c = chr '%' then .percent else .text
  | .percent, c => if c = chr 'l' then .long else .text
  | .long, c => if c ∈ longLetters then .text else .longLong
  | .longLong, _ => .text

/-- The text does not end inside a conversion. -/
def Complete (t : List (BitVec 8)) : Prop := t.foldl scanStep .text = .text

instance (t : List (BitVec 8)) : Decidable (Complete t) :=
  inferInstanceAs (Decidable (_ = _))

theorem foldl_plain {t : List (BitVec 8)} (ht : Plain t) : t.foldl scanStep .text = .text := by
  induction t with
  | nil => rfl
  | cons c t ih =>
    have hc : scanStep .text c = .text := if_neg (ht c List.mem_cons_self).2
    rw [List.foldl_cons, hc]
    exact ih ht.tail

theorem complete_percent {lit v : List (BitVec 8)} (hlit : Plain lit) :
    Complete (lit ++ chr '%' :: v) ↔ v.foldl scanStep .percent = .text := by
  rw [Complete, List.foldl_append, foldl_plain hlit, List.foldl_cons]
  rfl

/-- A literal run, and the end of the text or a '%'. -/
theorem exists_literal (t : List (BitVec 8)) (ht : ∀ c ∈ t, c ≠ 0) :
    ∃ lit u, t = lit ++ u ∧ Plain lit ∧ Stops u := by
  induction t with
  | nil => exact ⟨[], [], rfl, fun c hc => absurd hc List.not_mem_nil, trivial⟩
  | cons c t ih =>
    by_cases hc : c = chr '%'
    · exact ⟨[], c :: t, rfl, fun d hd => absurd hd List.not_mem_nil, hc⟩
    · obtain ⟨lit, u, rfl, hlit, hu⟩ := ih fun d hd => ht d (List.mem_cons_of_mem c hd)
      refine ⟨c :: lit, u, rfl, fun d hd => ?_, hu⟩
      rcases List.mem_cons.mp hd with rfl | hd
      · exact ⟨ht d List.mem_cons_self, hc⟩
      · exact hlit d hd

/-! ## Sequences -/

/-- What stands behind a '%' up to where the literal characters go on. -/
inductive Sequence : List (BitVec 8) → Prop
  | one {c : BitVec 8} (hc : c ≠ chr 'l') : Sequence [c]
  | two {d : BitVec 8} (hd : d ∈ longLetters) : Sequence [chr 'l', d]
  | three {c d : BitVec 8} (hc : c ∉ longLetters) : Sequence [chr 'l', c, d]

/-- What stands behind a '%' where the text ends too early. -/
inductive Truncated : List (BitVec 8) → Prop
  | percent : Truncated []
  | long : Truncated [chr 'l']
  | longLong {c : BitVec 8} (hc : c ∉ longLetters) : Truncated [chr 'l', c]

theorem sequence_or_truncated (v : List (BitVec 8)) :
    (∃ q w, Sequence q ∧ v = q ++ w) ∨ Truncated v := by
  match v with
  | [] => exact .inr .percent
  | c :: v =>
    by_cases hl : c = chr 'l'
    · subst hl
      match v with
      | [] => exact .inr .long
      | d :: v =>
        by_cases hd : d ∈ longLetters
        · exact .inl ⟨[chr 'l', d], v, .two hd, rfl⟩
        · match v with
          | [] => exact .inr (.longLong hd)
          | e :: v => exact .inl ⟨[chr 'l', d, e], v, .three hd, rfl⟩
    · exact .inl ⟨[c], v, .one hl, rfl⟩

/-- Behind a sequence the text is scanned as a text of its own. -/
theorem foldl_sequence {q : List (BitVec 8)} (hq : Sequence q) (w : List (BitVec 8)) :
    (q ++ w).foldl scanStep .percent = .text ↔ Complete w := by
  cases hq with
  | one hc => simp [Complete, scanStep, hc]
  | two hd => simp [Complete, scanStep, hd]
  | three hc => simp [Complete, scanStep, hc]

theorem foldl_truncated {v : List (BitVec 8)} (hv : Truncated v) :
    v.foldl scanStep .percent ≠ .text := by
  cases hv with
  | percent => exact fun hs => nomatch hs
  | long => simp [scanStep]
  | longLong hc => simp [scanStep, hc]

/-- A text that is complete behind a '%' starts with a sequence. -/
theorem exists_sequence {v : List (BitVec 8)} (hc : v.foldl scanStep .percent = .text) :
    ∃ q w, Sequence q ∧ v = q ++ w ∧ Complete w := by
  obtain ⟨q, w, hq, rfl⟩ | hv := sequence_or_truncated v
  · exact ⟨q, w, hq, rfl, (foldl_sequence hq w).mp hc⟩
  · exact absurd hc (foldl_truncated hv)

/-- The sequences of a text that is scanned from `st` on, with `q` behind the last '%'. -/
def sequencesFrom : ScanState → List (BitVec 8) → List (BitVec 8) → List (List (BitVec 8))
  | _, _, [] => []
  | .text, _, c :: t => sequencesFrom (scanStep .text c) [] t
  | st, q, c :: t =>
      if scanStep st c = .text then (q ++ [c]) :: sequencesFrom .text [] t
      else sequencesFrom (scanStep st c) (q ++ [c]) t

def sequences (t : List (BitVec 8)) : List (List (BitVec 8)) := sequencesFrom .text [] t

theorem sequencesFrom_plain {lit : List (BitVec 8)} (hlit : Plain lit) (u : List (BitVec 8)) :
    sequences (lit ++ u) = sequences u := by
  induction lit with
  | nil => rfl
  | cons c lit ih =>
    have hc : scanStep .text c = .text := if_neg (hlit c List.mem_cons_self).2
    rw [List.cons_append, sequences, sequencesFrom, hc]
    exact ih hlit.tail

theorem sequences_plain {t : List (BitVec 8)} (ht : Plain t) : sequences t = [] := by
  have happend := sequencesFrom_plain ht []
  rwa [List.append_nil] at happend

theorem sequences_sequence {q : List (BitVec 8)} (hq : Sequence q) (w : List (BitVec 8)) :
    sequences (chr '%' :: (q ++ w)) = q :: sequences w := by
  rw [sequences, sequencesFrom, scanStep, if_pos rfl]
  cases hq with
  | one hc => simp [sequencesFrom, scanStep, hc, sequences]
  | two hd => simp [sequencesFrom, scanStep, hd, sequences]
  | three hc => simp [sequencesFrom, scanStep, hc, sequences]

theorem sequences_truncated {v : List (BitVec 8)} (hv : Truncated v) :
    sequences (chr '%' :: v) = [] := by
  rw [sequences, sequencesFrom, scanStep, if_pos rfl]
  cases hv with
  | percent => rfl
  | long => simp [sequencesFrom, scanStep]
  | longLong hc => simp [sequencesFrom, scanStep, hc]

theorem sequences_percent {lit : List (BitVec 8)} (hlit : Plain lit) {q : List (BitVec 8)}
    (hq : Sequence q) (w : List (BitVec 8)) :
    sequences (lit ++ chr '%' :: (q ++ w)) = q :: sequences w :=
  (sequencesFrom_plain hlit _).trans (sequences_sequence hq w)

/-! ## Reads -/

@[simp] theorem CharPtr.advance_pos (p : CharPtr) (n : Nat) : (p.advance n).pos = p.pos + n := rfl

/-- `*format` in the literal loop. -/
def literalReads : Nat → CharPtr → List Nat
  | 0, _ => []
  | n + 1, p =>
      p.pos :: if p.deref ≠ chr '%' ∧ p.deref ≠ 0 then literalReads n p.next else []

/-- Characters the switch reads: the one it is at, after 'l' the next one, and a third one
if that is no conversion. -/
def convLength (p : CharPtr) : Nat :=
  if p.deref = chr 'l' then if p.next.deref ∈ longLetters then 2 else 3 else 1

/-- Behind "%l" the switch looks at one character, or at two. -/
theorem convLength_of_l {p : CharPtr} (h : p.deref = chr 'l') :
    convLength p - 1 = 1 + if p.next.deref ∈ longLetters then 0 else 1 := by
  rw [convLength, if_pos h]
  split_ifs <;> rfl

theorem one_le_convLength (p : CharPtr) : 1 ≤ convLength p := by
  unfold convLength
  split_ifs <;> decide

/-- The characters that the switch passes over, from the one it is at. -/
def conversionAt (p : CharPtr) : List (BitVec 8) :=
  (List.range (convLength p)).map fun i => (p.advance i).deref

/-- The one-letter conversions with an argument of one word. -/
def wordLetters : List (BitVec 8) :=
  [chr 'c', chr 'd', chr 'p', chr 's', chr 'u', chr 'X', chr 'x']

/-- The argument words that the switch fetches at a sequence. -/
def fetched : List (BitVec 8) → Nat
  | [c] => if wordLetters.contains c then 1 else if c = chr 'f' then 2 else 0
  | [_, _] => 1
  | [_, _, d] => if longLetters.contains d then 2 else 0
  | _ => 0

theorem conversionAt_one {p : CharPtr} (hl : p.deref ≠ chr 'l') : conversionAt p = [p.deref] := by
  simp [conversionAt, convLength, hl]

/-- At an 'l' the switch looks for a conversion at the second character, then at the third. -/
theorem fetched_long {p : CharPtr} (hl : p.deref = chr 'l') :
    fetched (conversionAt p) = if p.next.deref ∈ longLetters then 1
      else if p.next.next.deref ∈ longLetters then 2 else 0 := by
  by_cases hc : p.next.deref ∈ longLetters
  · have hlen : convLength p = 2 := by rw [convLength, if_pos hl, if_pos hc]
    simp [conversionAt, hlen, List.range_succ, fetched, hc]
  · have hlen : convLength p = 3 := by rw [convLength, if_pos hl, if_neg hc]
    rw [if_neg hc, CharPtr.next_eq, CharPtr.next_eq, CharPtr.advance_advance]
    simp [conversionAt, hlen, List.range_succ, fetched]

theorem conversionAt_eq {q w : List (BitVec 8)} (hq : Sequence q) {p : CharPtr}
    (h : p.Holds (q ++ w)) : conversionAt p = q ∧ convLength p = q.length := by
  cases hq with
  | one hc =>
    obtain ⟨h0, -⟩ := h
    have hlen : convLength p = 1 := by rw [convLength, h0, if_neg hc]
    refine ⟨?_, hlen⟩
    simp [conversionAt, hlen, h0]
  | two hd =>
    obtain ⟨h0, h1, -⟩ := h
    have hlen : convLength p = 2 := by rw [convLength, if_pos h0, h1, if_pos hd]
    refine ⟨?_, hlen⟩
    rw [CharPtr.next_eq] at h1
    simp [conversionAt, hlen, List.range_succ, h0, h1]
  | three hc =>
    obtain ⟨h0, h1, h2, -⟩ := h
    have hlen : convLength p = 3 := by rw [convLength, if_pos h0, h1, if_neg hc]
    refine ⟨?_, hlen⟩
    rw [CharPtr.next_eq] at h1
    rw [CharPtr.next_eq, CharPtr.next_eq, CharPtr.advance_advance] at h2
    simp [conversionAt, hlen, List.range_succ, h0, h1, h2]

/-- A truncated conversion reaches over the NUL. -/
theorem length_lt_convLength {v : List (BitVec 8)} (hv : Truncated v) {p : CharPtr}
    (h : p.Holds v) : v.length < convLength p := by
  have hnul : (0 : BitVec 8) ∉ longLetters := by decide
  cases hv with
  | percent => exact one_le_convLength p
  | long =>
    have hnext : p.next.deref = 0 := h.2
    have hlen : convLength p = 3 := by
      rw [convLength, if_pos h.1, if_neg (by rw [hnext]; exact hnul)]
    simp [hlen]
  | longLong hc =>
    have hlen : convLength p = 3 := by rw [convLength, if_pos h.1, h.2.1, if_neg hc]
    simp [hlen]

/-- It starts with an 'l', if it starts at all. -/
theorem deref_truncated {v : List (BitVec 8)} (hv : Truncated v) {p : CharPtr} (h : p.Holds v) :
    p.deref = 0 ∨ p.deref = chr 'l' := by
  cases hv with
  | percent => exact .inl h
  | long => exact .inr h.1
  | longLong => exact .inr h.1

/-! ## Arguments -/

/-- `P` holds of every sequence, with the arguments that are left when the switch comes to it. -/
def EachSequence (P : List (BitVec 8) → VaList → Prop) : List (List (BitVec 8)) → VaList → Prop
  | [], _ => True
  | q :: qs, args => P q args ∧ EachSequence P qs (args.skip (fetched q))

section

variable {P : List (BitVec 8) → VaList → Prop} {v : List (BitVec 8)} {args : VaList}
  (h : EachSequence P (sequences (chr '%' :: v)) args) {p : CharPtr} (hp : p.Holds v)

include h hp

/-- At a conversion of one letter. -/
theorem EachSequence.here {c : BitVec 8} (h0 : c ≠ 0) (hl : c ≠ chr 'l') (hc : p.deref = c) :
    P [c] args := by
  obtain ⟨q, w, hq, rfl⟩ | hv := sequence_or_truncated v
  · rw [sequences_sequence hq] at h
    have hone : q = [c] := by
      rw [← (conversionAt_eq hq hp).1, conversionAt_one (hc ▸ hl), hc]
    exact hone ▸ h.1
  · obtain hz | hlong := deref_truncated hv hp
    · exact absurd (hc.symm.trans hz) h0
    · exact absurd (hc.symm.trans hlong) hl

/-- Behind the sequence. -/
theorem EachSequence.behind {q w : List (BitVec 8)} (hq : Sequence q) (hv : v = q ++ w) :
    EachSequence P (sequences w) (args.skip (fetched (conversionAt p))) := by
  subst hv
  rw [sequences_sequence hq] at h
  rw [(conversionAt_eq hq hp).1]
  exact h.2

end

/-- A "%f" does not find an infinite argument. -/
def FiniteAt (q : List (BitVec 8)) (args : VaList) : Prop :=
  q = [chr 'f'] → ¬ IsInfinite args.dword

/-- No "%f" of the text finds one. -/
def FiniteText (t : List (BitVec 8)) (args : VaList) : Prop :=
  EachSequence FiniteAt (sequences t) args

/-! ## Scanners -/

/-- The loop over a format: a literal run, a test for the NUL, a switch at the next
character, and `++format`. -/
structure Scanner (σ : Type) where
  format : σ → CharPtr
  /-- `++format` -/
  next : σ → σ
  literal : Nat → σ → Option σ
  switch : Nat → σ → Option σ
  next_format : ∀ s, format (next s) = (format s).next
  literal_format : ∀ {n s s' t u}, Plain t → Stops u → (format s).Holds (t ++ u) →
    literal n s = some s' → format s' = (format s).advance t.length
  switch_format : ∀ {n s s'}, switch n s = some s' →
    format s' = (format s).advance (convLength (format s) - 1)

namespace Scanner

variable {σ : Type} (S : Scanner σ)

/-- `while (*format != '\0')` -/
def loop : Nat → σ → Option σ
  | 0, _ => none
  | n + 1, s =>
      if (S.format s).deref = 0 then some s
      else
        (S.literal n s).bind fun s =>
          if (S.format s).deref = 0 then some s
          else (S.switch n (S.next s)).bind fun s => loop n (S.next s)

/-- Positions of the format that `loop` reads. -/
def reads : Nat → σ → List Nat
  | 0, _ => []
  | n + 1, s =>
      (S.format s).pos ::
        if (S.format s).deref = 0 then []
        else
          literalReads n (S.format s) ++ (S.literal n s).elim [] fun s =>
            (S.format s).pos ::
              if (S.format s).deref = 0 then []
              else
                List.range' (S.format s).next.pos (convLength (S.format s).next) ++
                  (S.switch n (S.next s)).elim [] fun s => reads n (S.next s)

end Scanner

theorem literalReads_within {t u : List (BitVec 8)} (ht : Plain t) (hu : Stops u) {n : Nat}
    {p : CharPtr} (h : p.Holds (t ++ u)) {i : Nat} (hi : i ∈ literalReads n p) :
    p.pos ≤ i ∧ i ≤ p.pos + t.length := by
  induction n generalizing t p with
  | zero => cases hi
  | succ n ih =>
    rcases List.mem_cons.mp hi with rfl | hi
    · omega
    · cases t with
      | nil =>
        rw [if_neg (stops_deref h hu)] at hi
        cases hi
      | cons c t =>
        split at hi
        · obtain ⟨hlo, hhi⟩ := ih ht.tail h.2 hi
          simp only [CharPtr.next, List.length_cons] at hlo hhi ⊢
          omega
        · cases hi

/-- A text with no character left to print is a literal run; any other one has a '%'. -/
theorem literal_or_percent {t : List (BitVec 8)} (ht : ∀ c ∈ t, c ≠ 0) :
    Plain t ∨ ∃ lit v, t = lit ++ chr '%' :: v ∧ Plain lit ∧ ∀ c ∈ v, c ≠ 0 := by
  obtain ⟨lit, u, rfl, hlit, hu⟩ := exists_literal t ht
  cases u with
  | nil => exact .inl (by rwa [List.append_nil])
  | cons c v =>
    obtain rfl : c = chr '%' := hu
    refine .inr ⟨lit, v, rfl, hlit, fun c hc => ?_⟩
    exact ht c (List.mem_append_right lit (List.mem_cons_of_mem _ hc))

namespace Scanner

variable {σ : Type} (S : Scanner σ)

/-! ## One round -/

/-- What a round of the loop does. -/
theorem loop_cases {n : Nat} {s s' : σ} (h : S.loop (n + 1) s = some s') :
    (S.format s).deref = 0 ∧ s' = s ∨
      ∃ s₁, S.literal n s = some s₁ ∧
        ((S.format s₁).deref = 0 ∧ s' = s₁ ∨
          (S.format s₁).deref ≠ 0 ∧
            ∃ s₂, S.switch n (S.next s₁) = some s₂ ∧ S.loop n (S.next s₂) = some s') := by
  rw [loop] at h
  split at h
  case isTrue hz => exact .inl ⟨hz, (Option.some.inj h).symm⟩
  case isFalse =>
    obtain ⟨s₁, h₁, h⟩ := Option.bind_eq_some_iff.mp h
    refine .inr ⟨s₁, h₁, ?_⟩
    split at h
    case isTrue hz => exact .inl ⟨hz, (Option.some.inj h).symm⟩
    case isFalse hz => exact .inr ⟨hz, Option.bind_eq_some_iff.mp h⟩

/-- What a round of the loop reads. -/
theorem reads_cases {n : Nat} {s : σ} {i : Nat} (h : i ∈ S.reads (n + 1) s) :
    i = (S.format s).pos ∨ i ∈ literalReads n (S.format s) ∨
      ∃ s₁, S.literal n s = some s₁ ∧
        (i = (S.format s₁).pos ∨
          (S.format s₁).deref ≠ 0 ∧
            (i ∈ List.range' (S.format s₁).next.pos (convLength (S.format s₁).next) ∨
              ∃ s₂, S.switch n (S.next s₁) = some s₂ ∧ i ∈ S.reads n (S.next s₂))) := by
  rw [reads, List.mem_cons] at h
  refine h.imp_right fun h => ?_
  split at h
  · cases h
  refine (List.mem_append.mp h).imp_right fun h => ?_
  cases h₁ : S.literal n s with
  | none =>
    rw [h₁] at h
    cases h
  | some s₁ =>
    rw [h₁, Option.elim_some, List.mem_cons] at h
    refine ⟨s₁, rfl, h.imp_right fun h => ?_⟩
    split at h
    · cases h
    refine ⟨‹_›, (List.mem_append.mp h).imp_right fun h => ?_⟩
    cases h₂ : S.switch n (S.next s₁) with
    | none =>
      rw [h₂] at h
      cases h
    | some s₂ =>
      rw [h₂] at h
      exact ⟨s₂, rfl, h⟩

/-- The last literal run stands at the NUL. -/
theorem literal_last {t : List (BitVec 8)} (ht : Plain t) {n : Nat} {s s₁ : σ}
    (h : (S.format s).Holds t) (h₁ : S.literal n s = some s₁) :
    S.format s₁ = (S.format s).advance t.length ∧ (S.format s₁).deref = 0 := by
  rw [← List.append_nil t] at h
  have hat := S.literal_format (u := []) ht trivial h h₁
  exact ⟨hat, hat ▸ h.drop⟩

section Percent

variable {lit v : List (BitVec 8)} (hlit : Plain lit) {n : Nat} {s s₁ : σ}
  (h : (S.format s).Holds (lit ++ chr '%' :: v)) (h₁ : S.literal n s = some s₁)

include hlit h h₁

theorem literal_percent :
    S.format s₁ = (S.format s).advance lit.length ∧ (S.format s₁).deref ≠ 0 := by
  have hat := S.literal_format hlit (show Stops (chr '%' :: v) from rfl) h h₁
  refine ⟨hat, ?_⟩
  rw [hat, h.drop.1]
  decide

/-- The next loop head stands behind the conversion. -/
theorem round_format {m : Nat} {s₂ : σ} (h₂ : S.switch m (S.next s₁) = some s₂) :
    S.format (S.next s₂) =
      ((S.format s).advance (lit.length + 1)).advance
        (convLength ((S.format s).advance (lit.length + 1))) := by
  have hat := (S.literal_percent hlit h h₁).1
  have hnext : S.format (S.next s₁) = (S.format s).advance (lit.length + 1) := by
    rw [S.next_format, hat, CharPtr.next_eq, CharPtr.advance_advance]
  have hlen := one_le_convLength ((S.format s).advance (lit.length + 1))
  rw [S.next_format, S.switch_format h₂, hnext, CharPtr.next_eq, CharPtr.advance_advance,
    Nat.sub_add_cancel hlen]

end Percent

/-! ## Complete texts -/

/-- On a complete text the scanner reads up to the NUL. -/
theorem reads_within {n : Nat} {t : List (BitVec 8)} (ht : ∀ c ∈ t, c ≠ 0) (hc : Complete t)
    {s : σ} (h : (S.format s).Holds t) {i : Nat} (hi : i ∈ S.reads n s) :
    (S.format s).pos ≤ i ∧ i ≤ (S.format s).pos + t.length := by
  induction n generalizing t s with
  | zero => cases hi
  | succ n ih =>
    obtain hlit | ⟨lit, v, rfl, hlit, hv⟩ := literal_or_percent ht
    · obtain rfl | hi | ⟨s₁, h₁, rfl | ⟨hz, -⟩⟩ := S.reads_cases hi
      · omega
      · exact literalReads_within (u := []) hlit trivial (by rwa [List.append_nil]) hi
      · rw [(S.literal_last hlit h h₁).1, CharPtr.advance_pos]
        omega
      · exact absurd (S.literal_last hlit h h₁).2 hz
    · rw [complete_percent hlit] at hc
      have hafter : ((S.format s).advance (lit.length + 1)).Holds v := h.drop.2
      obtain ⟨q, w, hq, rfl, hcw⟩ := exists_sequence hc
      have hlen := (conversionAt_eq hq hafter).2
      rw [List.length_append, List.length_cons, List.length_append]
      obtain rfl | hi | ⟨s₁, h₁, hi⟩ := S.reads_cases hi
      · omega
      · have hrun := literalReads_within hlit (show Stops (chr '%' :: (q ++ w)) from rfl) h hi
        omega
      · have hat := (S.literal_percent hlit h h₁).1
        rw [hat, CharPtr.next_eq, CharPtr.advance_advance, List.mem_range'_1,
          CharPtr.advance_pos, CharPtr.advance_pos] at hi
        obtain rfl | ⟨-, hi | ⟨s₂, h₂, hi⟩⟩ := hi
        · omega
        · omega
        · have hround := S.round_format hlit h h₁ h₂
          rw [hlen] at hround
          have hrest := ih (fun c hc => hv c (List.mem_append_right q hc)) hcw
            (by rw [hround]; exact hafter.drop) hi
          rw [hround, CharPtr.advance_pos, CharPtr.advance_pos] at hrest
          omega

/-- On a complete text the scanner ends, if it does, at the NUL. -/
theorem loop_end {n : Nat} {t : List (BitVec 8)} (ht : ∀ c ∈ t, c ≠ 0) (hc : Complete t)
    {s s' : σ} (h : (S.format s).Holds t) (hs : S.loop n s = some s') :
    S.format s' = (S.format s).advance t.length := by
  induction n generalizing t s with
  | zero => cases hs
  | succ n ih =>
    obtain hlit | ⟨lit, v, rfl, hlit, hv⟩ := literal_or_percent ht
    · obtain ⟨hz, rfl⟩ | ⟨s₁, h₁, ⟨-, rfl⟩ | ⟨hz, -⟩⟩ := S.loop_cases hs
      · cases t with
        | nil => rfl
        | cons c t => exact absurd (h.1.symm.trans hz) (ht c List.mem_cons_self)
      · exact (S.literal_last hlit h h₁).1
      · exact absurd (S.literal_last hlit h h₁).2 hz
    · rw [complete_percent hlit] at hc
      have hafter : ((S.format s).advance (lit.length + 1)).Holds v := h.drop.2
      obtain ⟨q, w, hq, rfl, hcw⟩ := exists_sequence hc
      obtain ⟨hz, -⟩ | ⟨s₁, h₁, ⟨hz, -⟩ | ⟨-, s₂, h₂, hs⟩⟩ := S.loop_cases hs
      · exact absurd hz (deref_ne_zero hlit h)
      · exact absurd hz (S.literal_percent hlit h h₁).2
      · have hround := S.round_format hlit h h₁ h₂
        rw [(conversionAt_eq hq hafter).2] at hround
        have hrest := ih (fun c hc => hv c (List.mem_append_right q hc)) hcw
          (by rw [hround]; exact hafter.drop) hs
        rw [hrest, hround, CharPtr.advance_advance, CharPtr.advance_advance, List.length_append,
          List.length_cons, List.length_append]
        congr 1
        omega

/-! ## Ending -/

/-- From a state with `Q` of the text that it stands at, the literal run and the switch end, and
leave a state with `Q` of the rest. -/
structure Ends (Q : List (BitVec 8) → σ → Prop) : Prop where
  literal : ∀ {s t u}, Q (t ++ u) s → Plain t → Stops u → (S.format s).Holds (t ++ u) →
    ∃ s', Returns (fun n => S.literal n s) s' ∧ Q u s'
  switch : ∀ {s v}, Q (chr '%' :: v) s → (S.format s).Holds (chr '%' :: v) →
    ∃ s', Returns (fun n => S.switch n (S.next s)) s' ∧
      ∀ {q w}, Sequence q → v = q ++ w → Q w (S.next s')

variable {S} {Q : List (BitVec 8) → σ → Prop} (E : S.Ends Q)

include E

theorem Ends.last {t : List (BitVec 8)} (ht : Plain t) {s : σ} (hq : Q t s)
    (h : (S.format s).Holds t) : ∃ s', Returns (fun n => S.loop n s) s' := by
  by_cases hz : (S.format s).deref = 0
  · refine ⟨s, 1, fun n hn => ?_⟩
    obtain ⟨m, rfl⟩ : ∃ m, n = m + 1 := ⟨n - 1, by omega⟩
    show S.loop (m + 1) s = some s
    rw [loop, if_pos hz]
  · obtain ⟨s₁, hret, -⟩ := E.literal (t := t) (u := []) (by rwa [List.append_nil]) ht trivial
      (by rwa [List.append_nil])
    obtain ⟨N, hN⟩ := hret
    have hend := (S.literal_last ht h (hN N (Nat.le_refl N))).2
    refine ⟨s₁, N + 1, fun n hn => ?_⟩
    obtain ⟨m, rfl⟩ : ∃ m, n = m + 1 := ⟨n - 1, by omega⟩
    have h₁ : S.literal m s = some s₁ := hN m (by omega)
    show S.loop (m + 1) s = some s₁
    rw [loop, if_neg hz, h₁, Option.bind_some, if_pos hend]

/-- The literal run and the switch of a round at a '%'. -/
theorem Ends.percent {lit v : List (BitVec 8)} (hlit : Plain lit) {s : σ}
    (hq : Q (lit ++ chr '%' :: v) s) (h : (S.format s).Holds (lit ++ chr '%' :: v)) :
    ∃ s₁ s₂, Returns (fun n => S.literal n s) s₁ ∧
      Returns (fun n => S.switch n (S.next s₁)) s₂ ∧
      S.format s₁ = (S.format s).advance lit.length ∧ (S.format s₁).deref ≠ 0 ∧
      ∀ {q w}, Sequence q → v = q ++ w → Q w (S.next s₂) := by
  have hstop : Stops (chr '%' :: v) := rfl
  obtain ⟨s₁, hret₁, hq₁⟩ := E.literal hq hlit hstop h
  obtain ⟨N, hN⟩ := id hret₁
  obtain ⟨hat, hz₁⟩ := S.literal_percent hlit h (hN N (Nat.le_refl N))
  obtain ⟨s₂, hret₂, hq₂⟩ := E.switch hq₁ (by rw [hat]; exact h.drop)
  exact ⟨s₁, s₂, hret₁, hret₂, hat, hz₁, hq₂⟩

/-- A round at a '%' ends at the next loop head, which the loop runs from and reads. -/
theorem Ends.round {lit v : List (BitVec 8)} (hlit : Plain lit) {s : σ}
    (hq : Q (lit ++ chr '%' :: v) s) (h : (S.format s).Holds (lit ++ chr '%' :: v)) :
    ∃ s', (∀ {q w}, Sequence q → v = q ++ w → Q w s') ∧
      S.format s' = ((S.format s).advance (lit.length + 1)).advance
        (convLength ((S.format s).advance (lit.length + 1))) ∧
      ∃ N, ∀ n, N ≤ n →
        S.loop (n + 1) s = S.loop n s' ∧ ∀ i ∈ S.reads n s', i ∈ S.reads (n + 1) s := by
  have hz := deref_ne_zero hlit h
  obtain ⟨s₁, s₂, ⟨N, hN⟩, ⟨M, hM⟩, -, hz₁, hq₂⟩ := E.percent hlit hq h
  refine ⟨S.next s₂, hq₂,
    S.round_format hlit h (hN N (Nat.le_refl N)) (hM M (Nat.le_refl M)), max N M, fun n hn => ?_⟩
  have h₁ : S.literal n s = some s₁ := hN n (by omega)
  have h₂ : S.switch n (S.next s₁) = some s₂ := hM n (by omega)
  refine ⟨?_, fun i hi => ?_⟩
  · rw [loop, if_neg hz, h₁, Option.bind_some, if_neg hz₁, h₂, Option.bind_some]
  · rw [reads, if_neg hz, h₁, Option.elim_some, if_neg hz₁, h₂, Option.elim_some]
    exact List.mem_cons_of_mem _ (List.mem_append_right _ (List.mem_cons_of_mem _
      (List.mem_append_right _ hi)))

/-- On a complete text the scanner ends. -/
theorem Ends.returns {t : List (BitVec 8)} (ht : ∀ c ∈ t, c ≠ 0) (hc : Complete t) {s : σ}
    (hq : Q t s) (h : (S.format s).Holds t) : ∃ s', Returns (fun n => S.loop n s) s' := by
  induction hk : t.length using Nat.strong_induction_on generalizing t s with
  | _ k ih =>
    obtain hlit | ⟨lit, v, rfl, hlit, hv⟩ := literal_or_percent ht
    · exact E.last hlit hq h
    · rw [complete_percent hlit] at hc
      have hafter : ((S.format s).advance (lit.length + 1)).Holds v := h.drop.2
      obtain ⟨q, w, hseq, rfl, hcw⟩ := exists_sequence hc
      obtain ⟨s₁, hq₁, hat, N, hN⟩ := E.round hlit hq h
      rw [(conversionAt_eq hseq hafter).2] at hat
      have hlt : w.length < k := by
        rw [← hk, List.length_append, List.length_cons, List.length_append]
        omega
      obtain ⟨s', M, hM⟩ := ih w.length hlt (fun c hc => hv c (List.mem_append_right q hc)) hcw
        (hq₁ hseq rfl) (by rw [hat]; exact hafter.drop) rfl
      refine ⟨s', max N M + 1, fun n hn => ?_⟩
      obtain ⟨m, rfl⟩ : ∃ m, n = m + 1 := ⟨n - 1, by omega⟩
      exact (hN m (by omega)).1.trans (hM m (by omega))

/-- On any other text the scanner reads a position behind the NUL. -/
theorem Ends.reads_past {t : List (BitVec 8)} (ht : ∀ c ∈ t, c ≠ 0) (hc : ¬ Complete t) {s : σ}
    (hq : Q t s) (h : (S.format s).Holds t) :
    ∃ i, (S.format s).pos + t.length < i ∧ ∃ N, ∀ n, N ≤ n → i ∈ S.reads n s := by
  induction hk : t.length using Nat.strong_induction_on generalizing t s with
  | _ k ih =>
    obtain hlit | ⟨lit, v, rfl, hlit, hv⟩ := literal_or_percent ht
    · exact absurd (foldl_plain hlit) hc
    · rw [complete_percent hlit] at hc
      have hafter : ((S.format s).advance (lit.length + 1)).Holds v := h.drop.2
      obtain ⟨s₁, hq₁, hat, N, hN⟩ := E.round hlit hq h
      have hpos := congrArg CharPtr.pos hat
      rw [CharPtr.advance_pos, CharPtr.advance_pos] at hpos
      rw [List.length_append, List.length_cons] at hk
      obtain ⟨q, w, hseq, rfl⟩ | htrunc := sequence_or_truncated v
      · rw [(conversionAt_eq hseq hafter).2] at hat hpos
        rw [List.length_append] at hk
        obtain ⟨i, hi, M, hM⟩ := ih w.length (by omega)
          (fun c hc => hv c (List.mem_append_right q hc))
          (fun hw => hc ((foldl_sequence hseq w).mpr hw)) (hq₁ hseq rfl)
          (by rw [hat]; exact hafter.drop) rfl
        refine ⟨i, by omega, max N M + 1, fun n hn => ?_⟩
        obtain ⟨m, rfl⟩ : ∃ m, n = m + 1 := ⟨n - 1, by omega⟩
        exact (hN m (by omega)).2 i (hM m (by omega))
      · -- The conversion reaches over the NUL: the next loop head is behind it.
        have hlen := length_lt_convLength htrunc hafter
        refine ⟨(S.format s₁).pos, by omega, N + 2, fun n hn => ?_⟩
        obtain ⟨m, rfl⟩ : ∃ m, n = m + 2 := ⟨n - 2, by omega⟩
        exact (hN (m + 1) (by omega)).2 _ List.mem_cons_self

end Scanner

/-! ## vprintf -/

theorem vprintfLiteral_format {n : Nat} {s s' : Printing} {t u : List (BitVec 8)} (ht : Plain t)
    (hu : Stops u) (h : s.format.Holds (t ++ u)) (hs : vprintfLiteral n s = some s') :
    s'.format = s.format.advance t.length := congrArg Printing.format (vprintfLiteral_some ht hu h hs)

/-- A property of both branches of a test is one of the function that tests. -/
theorem fun_ite {α β : Type} {P : (α → β) → Prop} {c : Prop} [Decidable c] {f g : α → β}
    (hf : c → P f) (hg : ¬ c → P g) : P fun a => if c then f a else g a := by
  by_cases h : c
  · simp only [if_pos h]
    exact hf h
  · simp only [if_neg h]
    exact hg h

/-- What the switch of vprintf does: it moves the format by `k`, and puts a text after `words`
argument words or changes the state in one step. -/
def Printing.Moves (s : Printing) (k words : Nat) (f : Nat → Option Printing) : Prop :=
  (∃ t, (∀ c ∈ t, c ≠ 0) ∧
    ∀ n, f n = { s with format := s.format.advance k }.putArg n words t) ∨
  ∃ s', s'.format = s.format.advance k ∧ s'.args = s.args.skip words ∧ ∀ n, f n = some s'

/-- Where it has ended. -/
theorem Printing.Moves.some {s u : Printing} {k words n : Nat} {f : Nat → Option Printing}
    (h : s.Moves k words f) (hu : f n = some u) :
    u.format = s.format.advance k ∧ u.args = s.args.skip words := by
  obtain ⟨t, -, h⟩ | ⟨s', hformat, hargs, h⟩ := h
  · exact Printing.putArg_some ((h n).symm.trans hu)
  · rw [← Option.some.inj ((h n).symm.trans hu)]
    exact ⟨hformat, hargs⟩

/-- It does end. -/
theorem Printing.Moves.returns {s : Printing} {k words : Nat} {f : Nat → Option Printing}
    (h : s.Moves k words f) : ∃ u, Returns f u := by
  obtain ⟨t, ht, h⟩ | ⟨s', -, -, h⟩ := h
  · exact ⟨_, (Printing.putArg_spec _ words ht).congr h⟩
  · exact ⟨s', (Returns.pure s').congr h⟩

theorem Printing.Moves.of_next {s : Printing} {k words : Nat} {f : Nat → Option Printing}
    (h : s.next.Moves k words f) : s.Moves (1 + k) words f := by
  have hat : s.next.format.advance k = s.format.advance (1 + k) := by
    rw [← CharPtr.advance_advance]
    rfl
  obtain ⟨t, ht, h⟩ | ⟨s', hformat, hargs, h⟩ := h
  · exact .inl ⟨t, ht, fun n => hat ▸ h n⟩
  · exact .inr ⟨s', hformat.trans hat, hargs, h⟩

theorem Printing.moves_putArg (s : Printing) (words : Nat) {t : List (BitVec 8)} (ht : Plain t) :
    s.Moves 0 words fun n => s.putArg n words t :=
  .inl ⟨t, ht.ne_zero, fun _ => rfl⟩

theorem vprintfLongLong_moves (s : Printing) :
    s.Moves 0 (if s.format.deref ∈ longLetters then 2 else 0) fun n => vprintfLongLong n s := by
  by_cases hl : s.format.deref ∈ longLetters
  · rw [if_pos hl]
    unfold vprintfLongLong
    refine fun_ite (fun _ => s.moves_putArg 2 (plain_itoa _)) fun hd => ?_
    refine fun_ite (fun _ => s.moves_putArg 2 (plain_utoa _)) fun hu => ?_
    refine fun_ite (fun _ => s.moves_putArg 2 (plain_itoh _ _)) fun hX => ?_
    refine fun_ite (fun _ => s.moves_putArg 2 (plain_itoh _ _)) fun hx => ?_
    simp [longLetters, hd, hu, hX, hx] at hl
  · rw [if_neg hl]
    simp only [longLetters, List.mem_cons, List.not_mem_nil, or_false, not_or] at hl
    obtain ⟨hd, hu, hX, hx⟩ := hl
    refine .inr ⟨s, rfl, rfl, fun n => ?_⟩
    show vprintfLongLong n s = some s
    rw [vprintfLongLong, if_neg hd, if_neg hu, if_neg hX, if_neg hx]

theorem vprintfLong_moves (s : Printing) :
    s.Moves (if s.format.deref ∈ longLetters then 0 else 1)
      (if s.format.deref ∈ longLetters then 1
        else if s.format.next.deref ∈ longLetters then 2 else 0) fun n => vprintfLong n s := by
  by_cases hl : s.format.deref ∈ longLetters
  · rw [if_pos hl, if_pos hl]
    unfold vprintfLong
    refine fun_ite (fun _ => s.moves_putArg 1 (plain_itoa _)) fun hd => ?_
    refine fun_ite (fun _ => s.moves_putArg 1 (plain_utoa _)) fun hu => ?_
    refine fun_ite (fun _ => s.moves_putArg 1 (plain_itoh _ _)) fun hX => ?_
    refine fun_ite (fun _ => s.moves_putArg 1 (plain_itoh _ _)) fun hx => ?_
    simp [longLetters, hd, hu, hX, hx] at hl
  · rw [if_neg hl, if_neg hl]
    simp only [longLetters, List.mem_cons, List.not_mem_nil, or_false, not_or] at hl
    obtain ⟨hd, hu, hX, hx⟩ := hl
    have heq : (fun n => vprintfLong n s) = fun n => vprintfLongLong n s.next := by
      funext n
      rw [vprintfLong, if_neg hd, if_neg hu, if_neg hX, if_neg hx]
    rw [heq]
    exact (vprintfLongLong_moves s.next).of_next

theorem Printing.moves_letter {s : Printing} {c : BitVec 8} (h : s.format.deref = c)
    (hc : c ∈ wordLetters) {t : List (BitVec 8)} (ht : ∀ c ∈ t, c ≠ 0) :
    s.Moves 0 (fetched [s.format.deref]) fun n => s.putArg n 1 t := by
  have hone : fetched [s.format.deref] = 1 := if_pos (List.contains_iff_mem.mpr (h ▸ hc))
  rw [hone]
  exact .inl ⟨t, ht, fun _ => rfl⟩

/-- At a "%f" it ends only for an argument that is not infinite. -/
theorem finite_of_vprintfSwitch {E : Env} {n : Nat} {s u : Printing}
    (h : vprintfSwitch E n s = some u) (hf : s.format.deref = chr 'f') :
    ¬ IsInfinite s.args.dword := by
  intro hinf
  rw [vprintfSwitch_infinite E hf hinf] at h
  cases h

theorem vprintfSwitch_moves (E : Env) {s : Printing}
    (hfin : s.format.deref = chr 'f' → ¬ IsInfinite s.args.dword) :
    s.Moves (convLength s.format - 1) (fetched (conversionAt s.format))
      fun n => vprintfSwitch E n s := by
  by_cases hl : s.format.deref = chr 'l'
  · have heq : (fun n => vprintfSwitch E n s) = fun n => vprintfLong n s.next := by
      funext n
      unfold vprintfSwitch
      rw [hl, if_neg (by decide), if_neg (by decide), if_neg (by decide), if_pos rfl]
    rw [heq, convLength_of_l hl, fetched_long hl]
    exact (vprintfLong_moves s.next).of_next
  · rw [conversionAt_one hl, convLength, if_neg hl]
    unfold vprintfSwitch
    refine fun_ite (fun h => ?_) fun hc => ?_
    · rw [h]
      refine .inr ⟨_, ?_, ?_, fun _ => rfl⟩
      · rfl
      · rfl
    refine fun_ite (fun h => Printing.moves_letter h (by simp [wordLetters])
      (plain_itoa _).ne_zero) fun hd => ?_
    refine fun_ite (fun h => ?_) fun hf => ?_
    · rw [Env.split, if_neg (hfin h), h]
      exact s.moves_putArg 2 (plain_ftoa _)
    refine fun_ite (fun h => absurd h hl) fun _ => ?_
    refine fun_ite (fun h => Printing.moves_letter h (by simp [wordLetters])
      (plain_ptoa _).ne_zero) fun hp => ?_
    refine fun_ite (fun h => Printing.moves_letter h (by simp [wordLetters])
      (E.str s.args.word).noNul) fun hs => ?_
    refine fun_ite (fun h => Printing.moves_letter h (by simp [wordLetters])
      (plain_utoa _).ne_zero) fun hu => ?_
    refine fun_ite (fun h => Printing.moves_letter h (by simp [wordLetters])
      (plain_itoh _ _).ne_zero) fun hX => ?_
    refine fun_ite (fun h => Printing.moves_letter h (by simp [wordLetters])
      (plain_itoh _ _).ne_zero) fun hx => ?_
    have hnone : fetched [s.format.deref] = 0 := by
      simp [fetched, wordLetters, hc, hd, hf, hp, hs, hu, hX, hx]
    rw [hnone]
    refine fun_ite (fun _ => .inr ⟨s.putc (chr '%'), rfl, rfl, fun _ => rfl⟩) fun _ => ?_
    exact .inr ⟨s, rfl, rfl, fun _ => rfl⟩

theorem vprintfSwitch_at {E : Env} {n : Nat} {s u : Printing} (h : vprintfSwitch E n s = some u) :
    u.format = s.format.advance (convLength s.format - 1) ∧
      u.args = s.args.skip (fetched (conversionAt s.format)) :=
  Printing.Moves.some (vprintfSwitch_moves E (finite_of_vprintfSwitch h)) h

def vprintfScanner (E : Env) : Scanner Printing where
  format := Printing.format
  next := Printing.next
  literal := vprintfLiteral
  switch := vprintfSwitch E
  next_format _ := rfl
  literal_format := vprintfLiteral_format
  switch_format h := (vprintfSwitch_at h).1

theorem vprintfLoop_eq (E : Env) (n : Nat) (s : Printing) :
    vprintfLoop E n s = (vprintfScanner E).loop n s := by
  induction n generalizing s with
  | zero => rfl
  | succ n ih =>
    rw [vprintfLoop, Scanner.loop]
    simp only [ih]
    rfl

theorem vprintfScanner_ends (E : Env) :
    (vprintfScanner E).Ends fun t s => FiniteText t s.args where
  literal := by
    intro s t u hq ht hu h
    unfold FiniteText at hq
    rw [sequencesFrom_plain ht] at hq
    exact ⟨_, vprintfLiteral_spec ht hu h, hq⟩
  switch := by
    intro s v hq h
    have hmoves := vprintfSwitch_moves E (s := s.next) fun hf =>
      EachSequence.here hq h.2 (by decide) (by decide) hf rfl
    obtain ⟨u, hu⟩ := hmoves.returns
    refine ⟨u, hu, fun {q w} hseq hv => ?_⟩
    obtain ⟨N, hN⟩ := hu
    have hargs : u.args = s.args.skip (fetched (conversionAt s.next.format)) :=
      (hmoves.some (hN N (Nat.le_refl N))).2
    show FiniteText w u.args
    rw [hargs]
    exact EachSequence.behind hq h.2 hseq hv

theorem vprintfLiteral_args {n : Nat} {s s' : Printing} (h : vprintfLiteral n s = some s') :
    s'.args = s.args := by
  induction n generalizing s with
  | zero => cases h
  | succ n ih =>
    rw [vprintfLiteral] at h
    split at h
    · exact (ih h).trans rfl
    · rw [Option.some.inj h]

/-- Where vprintf has ended, no "%f" found an infinite argument. -/
theorem finiteText_of_vprintfLoop {E : Env} {n : Nat} {t : List (BitVec 8)} (ht : ∀ c ∈ t, c ≠ 0)
    {s s' : Printing} (h : s.format.Holds t) (hs : vprintfLoop E n s = some s') :
    FiniteText t s.args := by
  rw [vprintfLoop_eq] at hs
  induction n generalizing t s with
  | zero => cases hs
  | succ n ih =>
    unfold FiniteText
    obtain hlit | ⟨lit, v, rfl, hlit, hv⟩ := literal_or_percent ht
    · rw [sequences_plain hlit]
      trivial
    obtain ⟨hz, -⟩ | ⟨s₁, h₁, ⟨hz, -⟩ | ⟨-, s₂, h₂, hs⟩⟩ := (vprintfScanner E).loop_cases hs
    · exact absurd hz (deref_ne_zero hlit h)
    · exact absurd hz ((vprintfScanner E).literal_percent hlit h h₁).2
    rw [sequencesFrom_plain hlit]
    obtain ⟨q, w, hseq, rfl⟩ | htrunc := sequence_or_truncated v
    · have hat : s₁.format = s.format.advance lit.length :=
        ((vprintfScanner E).literal_percent hlit h h₁).1
      have hlit₁ : vprintfLiteral n s = some s₁ := h₁
      have hargs₁ : s₁.args = s.args := vprintfLiteral_args hlit₁
      have hargs : s₁.next.args = s.args := hargs₁
      have hround := (vprintfScanner E).round_format hlit h h₁ h₂
      have hbehind : (s.format.advance (lit.length + 1)).Holds (q ++ w) := h.drop.2
      have hnext : s₁.next.format = s.format.advance (lit.length + 1) := by
        rw [Printing.next_format, hat, CharPtr.next_eq, CharPtr.advance_advance]
      obtain ⟨hletters, hlen⟩ := conversionAt_eq hseq hbehind
      have hswitch : vprintfSwitch E n s₁.next = some s₂ := h₂
      have hargs₂ := (vprintfSwitch_at hswitch).2
      rw [hnext, hletters, hargs] at hargs₂
      rw [sequences_sequence hseq]
      refine ⟨fun hq => ?_, ?_⟩
      · rw [← hargs]
        refine finite_of_vprintfSwitch hswitch ?_
        rw [hnext]
        rw [hq] at hbehind
        exact hbehind.1
      · have hrest := ih (fun c hc => hv c (List.mem_append_right q hc)) (s := s₂.next) ?_ hs
        · rw [← hargs₂]
          exact hrest
        · have hformat : s₂.next.format = (s.format.advance (lit.length + 1)).advance q.length := by
            rw [← hlen]
            exact hround
          rw [hformat]
          exact hbehind.drop
    · rw [sequences_truncated htrunc]
      trivial

/-! ## sprintf -/

theorem sprintfLiteral_format {n : Nat} {s s' : Sprinting} {t u : List (BitVec 8)} (ht : Plain t)
    (hu : Stops u) (h : s.format.Holds (t ++ u)) (hs : sprintfLiteral n s = some s') :
    s'.format = s.format.advance t.length ∧ s'.args = s.args := by
  induction n generalizing t s with
  | zero => cases hs
  | succ n ih =>
    rw [sprintfLiteral] at hs
    cases t with
    | nil =>
      rw [if_neg (stops_deref h hu)] at hs
      rw [← Option.some.inj hs]
      exact ⟨rfl, rfl⟩
    | cons c t =>
      obtain ⟨hz, hp⟩ := ht c List.mem_cons_self
      rw [h.1, if_pos ⟨hp, hz⟩] at hs
      obtain ⟨hat, hargs⟩ := ih ht.tail h.2 hs
      refine ⟨?_, hargs⟩
      rw [hat, List.length_cons, Nat.add_comm, ← CharPtr.advance_advance]
      rfl

/-- `temp` of a nested call: a number, or at an 's' the string of the argument. -/
def Temp (E : Env) (s : Sprinting) (t : List (BitVec 8)) : Prop :=
  Plain t ∨ s.format.deref = chr 's' ∧ t = (E.str s.args.word).text

/-- With the format moved by `k`, sprintf is called on a `temp` of the kind `T` after `words`
argument words, or nothing happens. -/
inductive Sprinting.Converts (s : Sprinting) (T : List (BitVec 8) → Prop) (k words : Nat)
    (f : Nested → Option Sprinting) : Prop
  | call (t : List (BitVec 8)) (hw : 0 < words) (ht : T t)
      (h : ∀ call, f call = { s with format := s.format.advance k }.putArg call words t)
  | skip (hw : words = 0) (h : ∀ call, f call = some { s with format := s.format.advance k })

theorem Sprinting.Converts.mono {s : Sprinting} {T T' : List (BitVec 8) → Prop} {k words : Nat}
    {f : Nested → Option Sprinting} (hT : ∀ t, T t → T' t) (h : s.Converts T k words f) :
    s.Converts T' k words f := by
  cases h with
  | call t hw ht h => exact .call t hw (hT t ht) h
  | skip hw h => exact .skip hw h

theorem Sprinting.Converts.of_next {s : Sprinting} {T : List (BitVec 8) → Prop} {k words : Nat}
    {f : Nested → Option Sprinting} (h : s.next.Converts T k words f) :
    s.Converts T (1 + k) words f := by
  have hat : s.next.format.advance k = s.format.advance (1 + k) := by
    rw [← CharPtr.advance_advance]
    rfl
  cases h with
  | call t hw ht h => exact .call t hw ht fun call => hat ▸ h call
  | skip hw h => exact .skip hw fun call => hat ▸ h call

theorem Sprinting.converts_putArg (s : Sprinting) {words : Nat} (hw : 0 < words)
    {t : List (BitVec 8)} (ht : Plain t) :
    s.Converts Plain 0 words fun call => s.putArg call words t :=
  .call t hw ht fun _ => rfl

theorem sprintfLongLong_converts (s : Sprinting) :
    s.Converts Plain 0 (if s.format.deref ∈ longLetters then 2 else 0)
      fun call => sprintfLongLong call s := by
  by_cases hl : s.format.deref ∈ longLetters
  · have htwo := Nat.two_pos
    rw [if_pos hl]
    unfold sprintfLongLong
    refine fun_ite (fun _ => s.converts_putArg htwo (plain_itoa _)) fun hd => ?_
    refine fun_ite (fun _ => s.converts_putArg htwo (plain_itoa _)) fun hu => ?_
    refine fun_ite (fun _ => s.converts_putArg htwo (plain_itoh _ _)) fun hX => ?_
    refine fun_ite (fun _ => s.converts_putArg htwo (plain_itoh _ _)) fun hx => ?_
    simp [longLetters, hd, hu, hX, hx] at hl
  · rw [if_neg hl]
    simp only [longLetters, List.mem_cons, List.not_mem_nil, or_false, not_or] at hl
    obtain ⟨hd, hu, hX, hx⟩ := hl
    refine .skip rfl fun call => ?_
    show sprintfLongLong call s = some s
    rw [sprintfLongLong, if_neg hd, if_neg hu, if_neg hX, if_neg hx]

theorem sprintfLong_converts (s : Sprinting) :
    s.Converts Plain (if s.format.deref ∈ longLetters then 0 else 1)
      (if s.format.deref ∈ longLetters then 1
        else if s.format.next.deref ∈ longLetters then 2 else 0) fun call => sprintfLong call s := by
  by_cases hl : s.format.deref ∈ longLetters
  · have hone := Nat.one_pos
    rw [if_pos hl, if_pos hl]
    unfold sprintfLong
    refine fun_ite (fun _ => s.converts_putArg hone (plain_itoa _)) fun hd => ?_
    refine fun_ite (fun _ => s.converts_putArg hone (plain_utoa _)) fun hu => ?_
    refine fun_ite (fun _ => s.converts_putArg hone (plain_itoh _ _)) fun hX => ?_
    refine fun_ite (fun _ => s.converts_putArg hone (plain_itoh _ _)) fun hx => ?_
    simp [longLetters, hd, hu, hX, hx] at hl
  · rw [if_neg hl, if_neg hl]
    simp only [longLetters, List.mem_cons, List.not_mem_nil, or_false, not_or] at hl
    obtain ⟨hd, hu, hX, hx⟩ := hl
    have heq : (fun call => sprintfLong call s) = fun call => sprintfLongLong call s.next := by
      funext call
      rw [sprintfLong, if_neg hd, if_neg hu, if_neg hX, if_neg hx]
    rw [heq]
    exact (sprintfLongLong_converts s.next).of_next

/-- The switch converts, or stores a character: an argument, or a '%' at a '%'. -/
inductive Sprinting.Moves (E : Env) (s : Sprinting) (k words : Nat)
    (f : Nested → Option Sprinting) : Prop
  | converts (h : s.Converts (Temp E s) k words f)
  | char (hw : words = 1) (ch : BitVec 8)
      (h : ∀ call, f call =
        some ({ s with format := s.format.advance k, args := s.args.skip 1 }.putc ch))
  | percent (hw : words = 0) (hp : s.format.deref = chr '%')
      (h : ∀ call, f call = some ({ s with format := s.format.advance k }.putc (chr '%')))

theorem Sprinting.putArg_some {s u : Sprinting} {call : Nested} {words : Nat}
    {t : List (BitVec 8)} (h : s.putArg call words t = some u) :
    u.format = s.format ∧ u.args = s.args.skip words := by
  obtain ⟨r, -, rfl⟩ := Option.map_eq_some_iff.mp h
  exact ⟨rfl, rfl⟩

/-- Where it has ended. -/
theorem Sprinting.Moves.some {E : Env} {s u : Sprinting} {k words : Nat} {call : Nested}
    {f : Nested → Option Sprinting} (h : s.Moves E k words f) (hu : f call = some u) :
    u.format = s.format.advance k ∧ u.args = s.args.skip words := by
  cases h with
  | converts h =>
    cases h with
    | call t _ _ h => exact Sprinting.putArg_some ((h call).symm.trans hu)
    | skip hw h =>
      rw [← Option.some.inj ((h call).symm.trans hu), hw]
      exact ⟨rfl, rfl⟩
  | char hw ch h =>
    rw [← Option.some.inj ((h call).symm.trans hu), hw]
    exact ⟨rfl, rfl⟩
  | percent hw _ h =>
    rw [← Option.some.inj ((h call).symm.trans hu), hw]
    exact ⟨rfl, rfl⟩

theorem Sprinting.moves_letter {E : Env} {s : Sprinting} {c : BitVec 8} (h : s.format.deref = c)
    (hc : c ∈ wordLetters) {t : List (BitVec 8)} (ht : Temp E s t) :
    s.Moves E 0 (fetched [s.format.deref]) fun call => s.putArg call 1 t := by
  have hone : fetched [s.format.deref] = 1 := if_pos (List.contains_iff_mem.mpr (h ▸ hc))
  rw [hone]
  exact .converts (.call t Nat.one_pos ht fun _ => rfl)

/-- At a "%f" it ends only for an argument that is not infinite. -/
theorem finite_of_sprintfSwitch {E : Env} {call : Nested} {s u : Sprinting}
    (h : sprintfSwitch E call s = some u) (hf : s.format.deref = chr 'f') :
    ¬ IsInfinite s.args.dword := by
  intro hinf
  rw [sprintfSwitch_infinite E hf hinf] at h
  cases h

theorem sprintfSwitch_moves (E : Env) {s : Sprinting}
    (hfin : s.format.deref = chr 'f' → ¬ IsInfinite s.args.dword) :
    s.Moves E (convLength s.format - 1) (fetched (conversionAt s.format))
      fun call => sprintfSwitch E call s := by
  by_cases hl : s.format.deref = chr 'l'
  · have heq : (fun call => sprintfSwitch E call s) = fun call => sprintfLong call s.next := by
      funext call
      unfold sprintfSwitch
      rw [hl, if_neg (by decide), if_neg (by decide), if_neg (by decide), if_pos rfl]
    rw [heq, convLength_of_l hl, fetched_long hl]
    exact .converts ((sprintfLong_converts s.next).of_next.mono fun t ht => .inl ht)
  · rw [conversionAt_one hl, convLength, if_neg hl]
    unfold sprintfSwitch
    refine fun_ite (fun h => ?_) fun hc => ?_
    · rw [h]
      exact .char rfl _ fun _ => rfl
    refine fun_ite (fun h => Sprinting.moves_letter h (by simp [wordLetters])
      (.inl (plain_itoa _))) fun hd => ?_
    refine fun_ite (fun h => ?_) fun hf => ?_
    · rw [Env.split, if_neg (hfin h), h]
      exact .converts (.call _ Nat.two_pos (.inl (plain_ftoa _)) fun _ => rfl)
    refine fun_ite (fun h => absurd h hl) fun _ => ?_
    refine fun_ite (fun h => Sprinting.moves_letter h (by simp [wordLetters])
      (.inl (plain_ptoa _))) fun hp => ?_
    refine fun_ite (fun h => Sprinting.moves_letter h (by simp [wordLetters])
      (.inr ⟨h, rfl⟩)) fun hs => ?_
    refine fun_ite (fun h => Sprinting.moves_letter h (by simp [wordLetters])
      (.inl (plain_itoa _))) fun hu => ?_
    refine fun_ite (fun h => Sprinting.moves_letter h (by simp [wordLetters])
      (.inl (plain_itoh _ _))) fun hX => ?_
    refine fun_ite (fun h => Sprinting.moves_letter h (by simp [wordLetters])
      (.inl (plain_itoh _ _))) fun hx => ?_
    have hnone : fetched [s.format.deref] = 0 := by
      simp [fetched, wordLetters, hc, hd, hf, hp, hs, hu, hX, hx]
    rw [hnone]
    refine fun_ite (fun hper => .percent rfl hper fun _ => rfl) fun _ => ?_
    exact .converts (.skip rfl fun _ => rfl)

theorem sprintfSwitch_at {E : Env} {call : Nested} {s u : Sprinting}
    (h : sprintfSwitch E call s = some u) :
    u.format = s.format.advance (convLength s.format - 1) ∧
      u.args = s.args.skip (fetched (conversionAt s.format)) :=
  Sprinting.Moves.some (sprintfSwitch_moves E (finite_of_sprintfSwitch h)) h

def sprintfScanner (E : Env) : Scanner Sprinting where
  format := Sprinting.format
  next := Sprinting.next
  literal := sprintfLiteral
  switch n s := sprintfSwitch E (nestedSprintf E n) s
  next_format _ := rfl
  literal_format ht hu h hs := (sprintfLiteral_format ht hu h hs).1
  switch_format hs := (sprintfSwitch_at hs).1

theorem sprintfLoop_eq (E : Env) (n : Nat) (s : Sprinting) :
    sprintfLoop E n s = (sprintfScanner E).loop n s := by
  induction n generalizing s with
  | zero => rfl
  | succ n ih =>
    rw [sprintfLoop_succ, Scanner.loop]
    unfold sprintfRound
    simp only [ih]
    rfl

/-- A "%s" finds a string that a nested call, which takes it for a format, returns on. -/
def StringAt (E : Env) (q : List (BitVec 8)) (args : VaList) : Prop :=
  q = [chr 's'] → ∀ buf str, ∃ r, Returns (fun n =>
    nestedSprintf E n buf str (CharPtr.ofText (E.str args.word).text)) r

/-- Every "%s" of the text does. -/
def NestedReturn (E : Env) (t : List (BitVec 8)) (args : VaList) : Prop :=
  EachSequence (StringAt E) (sequences t) args

/-- The switch ends where the "%f" and the "%s" at it do. -/
theorem sprintfSwitch_returns (E : Env) {s : Sprinting}
    (hfin : s.format.deref = chr 'f' → ¬ IsInfinite s.args.dword)
    (hstr : s.format.deref = chr 's' → StringAt E [chr 's'] s.args) :
    ∃ u, Returns (fun n => sprintfSwitch E (nestedSprintf E n) s) u := by
  cases sprintfSwitch_moves E hfin with
  | converts h =>
    cases h with
    | call t hw ht h =>
      have hcall : ∃ r, Returns (fun n =>
          nestedSprintf E n s.buf s.current (CharPtr.ofText t)) r := by
        obtain ht | ⟨hs, rfl⟩ := ht
        · obtain ⟨buf', hret, -⟩ := sprintf_plain E ht s.buf s.current ⟨E.stack, 0⟩
          exact ⟨_, hret⟩
        · exact hstr hs rfl _ _
      obtain ⟨r, hret⟩ := hcall
      exact ⟨_, (hret.map fun r => _).congr fun n => h _⟩
    | skip _ h => exact ⟨_, (Returns.pure _).congr fun n => h _⟩
  | char _ ch h => exact ⟨_, (Returns.pure _).congr fun n => h _⟩
  | percent _ _ h => exact ⟨_, (Returns.pure _).congr fun n => h _⟩

theorem sprintfScanner_ends (E : Env) :
    (sprintfScanner E).Ends fun t s => FiniteText t s.args ∧ NestedReturn E t s.args where
  literal := by
    intro s t u hq ht hu h
    unfold FiniteText NestedReturn at hq
    rw [sequencesFrom_plain ht] at hq
    obtain ⟨s', hret, hafter⟩ := sprintfLiteral_spec ht hu h
    have hargs : s'.args = s.args := hafter.args
    refine ⟨s', hret, ?_⟩
    rw [hargs]
    exact hq
  switch := by
    intro s v hq h
    obtain ⟨hfin, hstr⟩ := hq
    obtain ⟨u, hu⟩ := sprintfSwitch_returns E (s := s.next)
      (fun hf => EachSequence.here hfin h.2 (by decide) (by decide) hf rfl)
      (fun hs => EachSequence.here hstr h.2 (by decide) (by decide) hs)
    refine ⟨u, hu, fun {q w} hseq hv => ?_⟩
    obtain ⟨N, hN⟩ := hu
    have hargs : u.args = s.args.skip (fetched (conversionAt s.next.format)) :=
      (sprintfSwitch_at (hN N (Nat.le_refl N))).2
    show FiniteText w u.args ∧ NestedReturn E w u.args
    rw [hargs]
    exact ⟨EachSequence.behind hfin h.2 hseq hv, EachSequence.behind hstr h.2 hseq hv⟩

/-! ## Reads inside the string -/

/-- vprintf reads a format of `len` characters up to its NUL, and ends there. -/
def VprintfStays (E : Env) (format : CharPtr) (len : Nat) (args : VaList) : Prop :=
  (∀ n, ∀ i ∈ (vprintfScanner E).reads n ⟨[], 0, format, args⟩,
    format.pos ≤ i ∧ i ≤ format.pos + len) ∧
  ∃ s, Returns (fun n => vprintfLoop E n ⟨[], 0, format, args⟩) s ∧
    s.format = format.advance len

/-- sprintf reads a format `t` up to its NUL, ends only there, and ends if every nested call on a
`%s` string of the format does (`NestedReturn`). -/
def SprintfStays (E : Env) (format : CharPtr) (t : List (BitVec 8)) (args : VaList)
    (buf : Mem (BitVec 8)) (str : Nat) : Prop :=
  (∀ n, ∀ i ∈ (sprintfScanner E).reads n ⟨buf, str, format, args⟩,
    format.pos ≤ i ∧ i ≤ format.pos + t.length) ∧
  (∀ n s, sprintfLoop E n ⟨buf, str, format, args⟩ = some s →
    s.format = format.advance t.length) ∧
  (NestedReturn E t args → ∃ s, Returns (fun n => sprintfLoop E n ⟨buf, str, format, args⟩) s)

section

variable (E : Env) {format : CharPtr} {t : List (BitVec 8)} (ht : ∀ c ∈ t, c ≠ 0)
  (h : format.Holds t) {args : VaList}

include ht h

theorem vprintf_stays (hc : Complete t) (hfin : FiniteText t args) :
    VprintfStays E format t.length args := by
  obtain ⟨s, hret⟩ := (vprintfScanner_ends E).returns ht hc hfin
    (s := ⟨[], 0, format, args⟩) h
  have hloop := hret.congr fun n => vprintfLoop_eq E n _
  obtain ⟨N, hN⟩ := hret
  refine ⟨fun n i hi => ?_, s, hloop, ?_⟩
  · exact (vprintfScanner E).reads_within ht hc (s := ⟨[], 0, format, args⟩) h hi
  · exact (vprintfScanner E).loop_end ht hc (s := ⟨[], 0, format, args⟩) h (hN N (Nat.le_refl N))

theorem sprintf_stays (hc : Complete t) (hfin : FiniteText t args) (buf : Mem (BitVec 8))
    (str : Nat) : SprintfStays E format t args buf str := by
  refine ⟨fun n i hi => ?_, fun n s hs => ?_, fun hn => ?_⟩
  · exact (sprintfScanner E).reads_within ht hc (s := ⟨buf, str, format, args⟩) h hi
  · rw [sprintfLoop_eq] at hs
    exact (sprintfScanner E).loop_end ht hc (s := ⟨buf, str, format, args⟩) h hs
  · obtain ⟨s, hret⟩ := (sprintfScanner_ends E).returns ht hc ⟨hfin, hn⟩
      (s := ⟨buf, str, format, args⟩) h
    exact ⟨s, hret.congr fun n => sprintfLoop_eq E n _⟩

/-- **Reads.** vprintf and sprintf read a format up to its NUL and end there exactly if it does
not end inside a conversion and no "%f" finds an infinite argument. sprintf ends if the nested
calls on its `%s` strings do. -/
theorem reads_stay_iff (buf : Mem (BitVec 8)) (str : Nat) :
    VprintfStays E format t.length args ∧ SprintfStays E format t args buf str ↔
      Complete t ∧ FiniteText t args := by
  constructor
  · rintro ⟨⟨hreads, s, ⟨N, hN⟩, -⟩, -⟩
    have hfin : FiniteText t args :=
      finiteText_of_vprintfLoop ht (s := ⟨[], 0, format, args⟩) h (hN N (Nat.le_refl N))
    refine ⟨?_, hfin⟩
    by_contra hc
    obtain ⟨i, hi, N, hN⟩ := (vprintfScanner_ends E).reads_past ht hc hfin
      (s := ⟨[], 0, format, args⟩) h
    have hle := (hreads N i (hN N (Nat.le_refl N))).2
    have hlt : format.pos + t.length < i := hi
    omega
  · exact fun ⟨hc, hfin⟩ =>
      ⟨vprintf_stays E ht h hc hfin, sprintf_stays E ht h hc hfin buf str⟩

end

/-- `"n=%ld"`. -/
theorem reads_stay_iff_number :
    let t := [chr 'n', chr '=', chr '%', chr 'l', chr 'd']
    VprintfStays emptyEnv (CharPtr.ofText t) 5 ⟨fun _ => 7, 0⟩ ∧
        SprintfStays emptyEnv (CharPtr.ofText t) t ⟨fun _ => 7, 0⟩ (Mem.fresh fun _ => 0xff)
          0x1000 ↔
      Complete t ∧ FiniteText t ⟨fun _ => 7, 0⟩ :=
  reads_stay_iff emptyEnv (by decide) (CharPtr.holds_ofText _) _ _

/-- `"%"` with an 'A' behind its NUL: both functions print the 'A'. -/
theorem percent_reads_past :
    let format : CharPtr := ⟨fun i => [chr '%', 0, chr 'A'].getD i 0, 0⟩
    let args : VaList := ⟨fun _ => 0, 0⟩
    let buf : Mem (BitVec 8) := Mem.fresh fun _ => 0
    format.Holds [chr '%'] ∧ vprintf emptyEnv 4 format args = some ([chr 'A'], 1) ∧
      (sprintf emptyEnv 4 buf 0 format args).map (fun r => (r.1.read 0, r.2)) =
        some (chr 'A', 1) ∧
      ¬ (VprintfStays emptyEnv format 1 args ∧ SprintfStays emptyEnv format [chr '%'] args buf 0)
    := by
  refine ⟨⟨rfl, rfl⟩, by decide, by decide, fun h => ?_⟩
  have hle := (h.1.1 4 2 (by decide)).2
  exact absurd hle (by decide)

end ListaOS.Stdio
