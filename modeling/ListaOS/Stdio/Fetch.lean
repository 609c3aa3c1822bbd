/-
  Which '%' sequences vprintf fetches arguments for (libkernel/stdio.c, vprintf).

  `vprintfTrace` is vprintf with a record of the '%' sequences it met and of the argument words it
  fetched for each; on a complete format it meets `sequences` of the format, in order, if no "%f"
  finds an infinite argument (`vprintfTrace_returns`).

  Behind "%l" the switch looks at the next character for a conversion, and if that is none it
  goes on to the one behind it without a test for a second 'l'. So `%lqd` fetches two words like
  `%lld` does, and that is the only way to fetch for a sequence that is no conversion
  (`fetch_right_iff`, `vprintf_fetches_iff`).
-/
import ListaOS.Stdio.Reads
import Mathlib.Algebra.GroupWithZero.Nat

namespace ListaOS.Stdio

open Lib

/-! ## Traces -/

namespace Scanner

variable {σ β : Type} (S : Scanner σ) (f : σ → σ → β)

/-- The loop, with what `f` sees of the states before and after each switch. -/
def trace : Nat → σ → Option (σ × List β)
  | 0, _ => none
  | n + 1, s =>
      if (S.format s).deref = 0 then some (s, [])
      else
        (S.literal n s).bind fun s =>
          if (S.format s).deref = 0 then some (s, [])
          else
            (S.switch n (S.next s)).bind fun u =>
              (trace n (S.next u)).map fun r => (r.1, f (S.next s) u :: r.2)

/-- Looking does not change the loop. -/
theorem trace_fst (n : Nat) (s : σ) : (S.trace f n s).map Prod.fst = S.loop n s := by
  induction n generalizing s with
  | zero => rfl
  | succ n ih =>
    rw [trace, loop]
    split
    · rfl
    rw [Option.map_bind]
    refine congrArg _ (funext fun s₁ => ?_)
    rw [Function.comp_apply]
    split
    · rfl
    rw [Option.map_bind]
    refine congrArg _ (funext fun s₂ => ?_)
    rw [Function.comp_apply, Option.map_map, ← ih]
    rfl

variable {S f} {Q : List (BitVec 8) → σ → Prop}

theorem Ends.trace_last (E : S.Ends Q) {t : List (BitVec 8)} (ht : Plain t) {s : σ} (hq : Q t s)
    (h : (S.format s).Holds t) : ∃ s', Returns (fun n => S.trace f n s) (s', []) := by
  by_cases hz : (S.format s).deref = 0
  · refine ⟨s, Returns.succ ((Returns.pure _).congr fun n => ?_)⟩
    rw [trace, if_pos hz]
  · obtain ⟨s₁, ⟨N, hN⟩, -⟩ := E.literal (t := t) (u := []) (by rwa [List.append_nil]) ht trivial
      (by rwa [List.append_nil])
    have hend := (S.literal_last ht h (hN N (Nat.le_refl N))).2
    refine ⟨s₁, Returns.succ ⟨N, fun n hn => ?_⟩⟩
    have h₁ : S.literal n s = some s₁ := hN n hn
    show S.trace f (n + 1) s = some (s₁, [])
    rw [trace, if_neg hz, h₁, Option.bind_some, if_pos hend]

/-- A round at a '%' adds what is seen of its switch, and goes on behind the conversion. -/
theorem Ends.trace_round (E : S.Ends Q) {lit v : List (BitVec 8)} (hlit : Plain lit) {s : σ}
    (hq : Q (lit ++ chr '%' :: v) s) (h : (S.format s).Holds (lit ++ chr '%' :: v)) :
    ∃ s₁ s₂, S.format s₁ = (S.format s).advance (lit.length + 1) ∧
      (∀ {q w}, Sequence q → v = q ++ w → Q w (S.next s₂)) ∧
      ∃ N, ∀ n, N ≤ n → S.switch n s₁ = some s₂ ∧
        S.trace f (n + 1) s =
          (S.trace f n (S.next s₂)).map fun r => (r.1, f s₁ s₂ :: r.2) := by
  have hz := deref_ne_zero hlit h
  obtain ⟨s₁, s₂, ⟨N, hN⟩, ⟨M, hM⟩, hat, hz₁, hq₂⟩ := E.percent hlit hq h
  refine ⟨S.next s₁, s₂, ?_, hq₂, max N M, fun n hn => ⟨hM n (by omega), ?_⟩⟩
  · rw [S.next_format, hat, CharPtr.next_eq, CharPtr.advance_advance]
  · have h₁ : S.literal n s = some s₁ := hN n (by omega)
    have h₂ : S.switch n (S.next s₁) = some s₂ := hM n (by omega)
    rw [trace, if_neg hz, h₁, Option.bind_some, if_neg hz₁, h₂, Option.bind_some]

/-- On a complete text the loop ends, and it has passed over the sequences of the text. -/
theorem Ends.trace_returns (E : S.Ends Q) {spec : List (BitVec 8) → β}
    (hf : ∀ {n s u q w}, Sequence q → (S.format s).Holds (q ++ w) →
      S.switch n s = some u → f s u = spec q)
    {t : List (BitVec 8)} (ht : ∀ c ∈ t, c ≠ 0) (hc : Complete t) {s : σ} (hq : Q t s)
    (h : (S.format s).Holds t) :
    ∃ s', Returns (fun n => S.trace f n s) (s', (sequences t).map spec) := by
  induction hk : t.length using Nat.strong_induction_on generalizing t s with
  | _ k ih =>
    obtain hlit | ⟨lit, v, rfl, hlit, hv⟩ := literal_or_percent ht
    · rw [sequences_plain hlit]
      exact E.trace_last hlit hq h
    · rw [complete_percent hlit] at hc
      obtain ⟨q, w, hseq, rfl, hcw⟩ := exists_sequence hc
      obtain ⟨s₁, s₂, hat, hq₂, N, hN⟩ := E.trace_round (f := f) hlit hq h
      have hafter : (S.format s₁).Holds (q ++ w) := hat ▸ h.drop.2
      have hnext : (S.format (S.next s₂)).Holds w := by
        have hround := S.switch_format (hN N (Nat.le_refl N)).1
        rw [S.next_format, hround, CharPtr.next_eq, CharPtr.advance_advance,
          Nat.sub_add_cancel (one_le_convLength _), (conversionAt_eq hseq hafter).2]
        exact hafter.drop
      have hlt : w.length < k := by
        rw [← hk, List.length_append, List.length_cons, List.length_append]
        omega
      obtain ⟨s', M, hM⟩ := ih w.length hlt (fun c hc => hv c (List.mem_append_right q hc)) hcw
        (hq₂ hseq rfl) hnext rfl
      refine ⟨s', Returns.succ ⟨max N M, fun n hn => ?_⟩⟩
      obtain ⟨hswitch, htrace⟩ := hN n (by omega)
      have hrest : S.trace f n (S.next s₂) = some (s', (sequences w).map spec) := hM n (by omega)
      show S.trace f (n + 1) s = _
      rw [htrace, hrest, sequences_percent hlit hseq, hf hseq hafter hswitch]
      rfl

end Scanner

/-! ## The trace of vprintf -/

/-- A '%' sequence that vprintf has passed over, and the argument words it fetched for it. -/
structure Fetch where
  letters : List (BitVec 8)
  words : Nat

/-- From the states before and after the switch. -/
def fetchAt (s u : Printing) : Fetch where
  letters := (List.range (u.format.pos + 1 - s.format.pos)).map fun i => (s.format.advance i).deref
  words := u.args.pos - s.args.pos

/-- vprintf, with the sequences it has passed over. -/
def vprintfTrace (E : Env) : Nat → Printing → Option (Printing × List Fetch) :=
  (vprintfScanner E).trace fetchAt

theorem vprintfTrace_fst (E : Env) (n : Nat) (s : Printing) :
    (vprintfTrace E n s).map Prod.fst = vprintfLoop E n s := by
  rw [vprintfLoop_eq]
  exact (vprintfScanner E).trace_fst fetchAt n s

theorem fetchAt_switch {E : Env} {n : Nat} {s u : Printing} (h : vprintfSwitch E n s = some u) :
    fetchAt s u = ⟨conversionAt s.format, fetched (conversionAt s.format)⟩ := by
  obtain ⟨hformat, hargs⟩ := vprintfSwitch_at h
  have hpos := one_le_convLength s.format
  have hlen : s.format.pos + (convLength s.format - 1) + 1 - s.format.pos =
      convLength s.format := by omega
  unfold fetchAt
  rw [hformat, hargs, CharPtr.advance_pos, hlen]
  congr 1
  exact Nat.add_sub_cancel_left s.args.pos _

theorem vprintfTrace_returns (E : Env) {t : List (BitVec 8)} (ht : ∀ c ∈ t, c ≠ 0)
    (hc : Complete t) {s : Printing} (h : s.format.Holds t) (hfin : FiniteText t s.args) :
    ∃ s', Returns (fun n => vprintfTrace E n s)
      (s', (sequences t).map fun q => ⟨q, fetched q⟩) := by
  refine (vprintfScanner_ends E).trace_returns ?_ ht hc hfin h
  intro n s u q w hq h hs
  have hletters : conversionAt s.format = q := (conversionAt_eq hq h).1
  rw [fetchAt_switch hs, hletters]

/-- The words in the trace are all that was fetched. -/
theorem vprintfTrace_args {E : Env} {n : Nat} {s s' : Printing} {tr : List Fetch}
    (h : vprintfTrace E n s = some (s', tr)) :
    s'.args = s.args.skip (tr.map Fetch.words).sum := by
  unfold vprintfTrace at h
  induction n generalizing s tr with
  | zero => cases h
  | succ n ih =>
    rw [Scanner.trace] at h
    split at h
    · obtain ⟨rfl, rfl⟩ := Prod.mk.inj (Option.some.inj h)
      rfl
    obtain ⟨s₁, h₁, h⟩ := Option.bind_eq_some_iff.mp h
    rw [← vprintfLiteral_args h₁]
    split at h
    · obtain ⟨rfl, rfl⟩ := Prod.mk.inj (Option.some.inj h)
      rfl
    obtain ⟨s₂, h₂, h⟩ := Option.bind_eq_some_iff.mp h
    obtain ⟨⟨s₃, tr'⟩, h₃, hlast⟩ := Option.map_eq_some_iff.mp h
    obtain ⟨rfl, rfl⟩ := Prod.mk.inj hlast
    have hswitch : vprintfSwitch E n s₁.next = some s₂ := h₂
    have hargs : s₂.args = s₁.args.skip (fetchAt s₁.next s₂).words := by
      rw [fetchAt_switch hswitch]
      exact (vprintfSwitch_at hswitch).2
    calc s₃.args = s₂.args.skip (tr'.map Fetch.words).sum := ih (s := s₂.next) h₃
      _ = s₁.args.skip ((fetchAt s₁.next s₂).words + (tr'.map Fetch.words).sum) := by
        rw [hargs, VaList.skip_skip]

/-! ## Conversions -/

/-- A sequence fetches the words of the conversion it is, and none if it is no conversion. -/
structure Fetch.Right (f : Fetch) : Prop where
  supported : ∀ k : Conv, k.letters = f.letters → f.words = k.words
  unsupported : (∀ k : Conv, k.letters ≠ f.letters) → f.words = 0

/-- `%lcd` with a letter `d` of the long conversions and no second 'l'. -/
def Misread (q : List (BitVec 8)) : Prop :=
  ∃ c d, q = [chr 'l', c, d] ∧ c ≠ chr 'l' ∧ d ∈ longLetters

theorem Conv.fetched_letters (k : Conv) : fetched k.letters = k.words := by
  cases k <;> rfl

theorem exists_conv_word {c : BitVec 8} (h : c ∈ wordLetters) : ∃ k : Conv, k.letters = [c] := by
  simp only [wordLetters, List.mem_cons, List.not_mem_nil, or_false] at h
  rcases h with rfl | rfl | rfl | rfl | rfl | rfl | rfl
  · exact ⟨.c, rfl⟩
  · exact ⟨.d, rfl⟩
  · exact ⟨.p, rfl⟩
  · exact ⟨.s, rfl⟩
  · exact ⟨.u, rfl⟩
  · exact ⟨.X, rfl⟩
  · exact ⟨.x, rfl⟩

theorem exists_conv_long {d : BitVec 8} (h : d ∈ longLetters) :
    (∃ k : Conv, k.letters = [chr 'l', d]) ∧ ∃ k : Conv, k.letters = [chr 'l', chr 'l', d] := by
  simp only [longLetters, List.mem_cons, List.not_mem_nil, or_false] at h
  rcases h with rfl | rfl | rfl | rfl
  · exact ⟨⟨.ld, rfl⟩, .lld, rfl⟩
  · exact ⟨⟨.lu, rfl⟩, .llu, rfl⟩
  · exact ⟨⟨.lX, rfl⟩, .llX, rfl⟩
  · exact ⟨⟨.lx, rfl⟩, .llx, rfl⟩

/-- A sequence that fetches is a conversion, or is misread. -/
theorem exists_conv {q : List (BitVec 8)} (hq : Sequence q) (h : fetched q ≠ 0) :
    (∃ k : Conv, k.letters = q) ∨ Misread q := by
  cases hq with
  | @one c hc =>
    refine .inl ?_
    by_cases hword : c ∈ wordLetters
    · exact exists_conv_word hword
    by_cases hf : c = chr 'f'
    · subst hf
      exact ⟨.f, rfl⟩
    · simp [fetched, hword, hf] at h
  | two hd => exact .inl (exists_conv_long hd).1
  | @three c d hc =>
    have hd : d ∈ longLetters := by
      by_contra hd
      exact h (if_neg fun hmem => hd (List.contains_iff_mem.mp hmem))
    by_cases hl : c = chr 'l'
    · subst hl
      exact .inl (exists_conv_long hd).2
    · exact .inr ⟨c, d, rfl, hl, hd⟩

theorem Misread.not_conv {q : List (BitVec 8)} (h : Misread q) (k : Conv) : k.letters ≠ q := by
  obtain ⟨c, d, rfl, hc, -⟩ := h
  cases k <;> simp [Conv.letters, hc.symm]

theorem fetch_right_iff {q : List (BitVec 8)} (hq : Sequence q) :
    Fetch.Right ⟨q, fetched q⟩ ↔ ¬ Misread q := by
  constructor
  · intro hright hmis
    have hzero : fetched q = 0 := hright.unsupported hmis.not_conv
    obtain ⟨c, d, rfl, -, hd⟩ := hmis
    rw [fetched, if_pos (List.contains_iff_mem.mpr hd)] at hzero
    cases hzero
  · intro hmis
    refine ⟨fun k hk => ?_, fun hnone => ?_⟩
    · rw [← k.fetched_letters]
      exact congrArg fetched hk.symm
    · by_contra hne
      obtain ⟨k, hk⟩ | h := exists_conv hq hne
      · exact hnone k hk
      · exact hmis h

theorem sequence_of_mem {t q : List (BitVec 8)} (ht : ∀ c ∈ t, c ≠ 0) (hc : Complete t)
    (hq : q ∈ sequences t) : Sequence q := by
  induction hk : t.length using Nat.strong_induction_on generalizing t with
  | _ k ih =>
    obtain hlit | ⟨lit, v, rfl, hlit, hv⟩ := literal_or_percent ht
    · rw [sequences_plain hlit] at hq
      cases hq
    · rw [complete_percent hlit] at hc
      obtain ⟨q', w, hseq, rfl, hcw⟩ := exists_sequence hc
      rw [sequences_percent hlit hseq] at hq
      obtain rfl | hq := List.mem_cons.mp hq
      · exact hseq
      · refine ih w.length ?_ (fun c hc => hv c (List.mem_append_right q' hc)) hcw hq rfl
        rw [← hk, List.length_append, List.length_cons, List.length_append]
        omega

/-- vprintf ends, it has passed over the sequences of the text in order, and it has fetched for
each of them what is right, and nothing else. -/
def FetchesRight (E : Env) (format : CharPtr) (t : List (BitVec 8)) (args : VaList) : Prop :=
  ∃ s tr, Returns (fun n => vprintfTrace E n ⟨[], 0, format, args⟩) (s, tr) ∧
    tr.map Fetch.letters = sequences t ∧ s.args = args.skip (tr.map Fetch.words).sum ∧
    ∀ f ∈ tr, f.Right

section

variable (E : Env) {format : CharPtr} {t : List (BitVec 8)} (ht : ∀ c ∈ t, c ≠ 0)
  (h : format.Holds t) (hc : Complete t) {args : VaList}

include ht h

theorem finiteText_of_fetches (hright : FetchesRight E format t args) : FiniteText t args := by
  obtain ⟨s, tr, ⟨N, hN⟩, -⟩ := hright
  have htrace : vprintfTrace E N ⟨[], 0, format, args⟩ = some (s, tr) := hN N (Nat.le_refl N)
  have hloop : vprintfLoop E N ⟨[], 0, format, args⟩ = some s := by
    rw [← vprintfTrace_fst, htrace]
    rfl
  exact finiteText_of_vprintfLoop ht (s := ⟨[], 0, format, args⟩) h hloop

include hc

theorem not_misread_of_fetches (hright : FetchesRight E format t args) :
    ∀ q ∈ sequences t, ¬ Misread q := by
  intro q hq
  have hfin := finiteText_of_fetches E ht h hright
  obtain ⟨s, hret⟩ := vprintfTrace_returns E ht hc (s := ⟨[], 0, format, args⟩) h hfin
  obtain ⟨s', tr, hret', -, -, hall⟩ := hright
  obtain ⟨-, rfl⟩ := Prod.mk.inj (hret'.unique hret)
  exact (fetch_right_iff (sequence_of_mem ht hc hq)).mp (hall _ (List.mem_map_of_mem hq))

theorem fetches_of_not_misread (hmis : ∀ q ∈ sequences t, ¬ Misread q) (hfin : FiniteText t args) :
    FetchesRight E format t args := by
  obtain ⟨s, hret⟩ := vprintfTrace_returns E ht hc (s := ⟨[], 0, format, args⟩) h hfin
  obtain ⟨N, hN⟩ := id hret
  refine ⟨s, _, hret, ?_, vprintfTrace_args (hN N (Nat.le_refl N)), fun f hf => ?_⟩
  · rw [List.map_map]
    exact List.map_id _
  · obtain ⟨q, hq, rfl⟩ := List.mem_map.mp hf
    exact (fetch_right_iff (sequence_of_mem ht hc hq)).mpr (hmis q hq)

/-- **Fetches.** On a format that does not end inside a conversion, vprintf fetches for the
sequences that are conversions, and only for these, exactly if none of them is `%l`, a
character other than 'l', and one of d, u, x and X, and no "%f" finds an infinite argument. -/
theorem vprintf_fetches_iff :
    FetchesRight E format t args ↔ (∀ q ∈ sequences t, ¬ Misread q) ∧ FiniteText t args :=
  ⟨fun hright => ⟨not_misread_of_fetches E ht h hc hright, finiteText_of_fetches E ht h hright⟩,
    fun ⟨hmis, hfin⟩ => fetches_of_not_misread E ht h hc hmis hfin⟩

end

/-- `"%ld"`. -/
theorem vprintf_fetches_iff_long :
    FetchesRight emptyEnv (CharPtr.ofText [chr '%', chr 'l', chr 'd'])
        [chr '%', chr 'l', chr 'd'] ⟨fun _ => 7, 0⟩ ↔
      (∀ q ∈ sequences [chr '%', chr 'l', chr 'd'], ¬ Misread q) ∧
        FiniteText [chr '%', chr 'l', chr 'd'] ⟨fun _ => 7, 0⟩ :=
  vprintf_fetches_iff emptyEnv (by decide) (CharPtr.holds_ofText _) (by decide)

/-- `"%lqd"` is no conversion, and two words are fetched for it. -/
theorem vprintf_misreads :
    let t := [chr '%', chr 'l', chr 'q', chr 'd']
    let args : VaList := ⟨fun _ => 7, 0⟩
    Complete t ∧ (∀ k : Conv, k.letters ≠ [chr 'l', chr 'q', chr 'd']) ∧
      ¬ FetchesRight emptyEnv (CharPtr.ofText t) t args ∧
      (vprintfLoop emptyEnv 32 ⟨[], 0, CharPtr.ofText t, args⟩).map (fun s => s.args.pos) =
        some 2 := by
  intro t args
  have hmis : Misread [chr 'l', chr 'q', chr 'd'] :=
    ⟨chr 'q', chr 'd', rfl, by decide, by decide⟩
  refine ⟨by decide, hmis.not_conv, fun hright => ?_, by decide⟩
  have hq : [chr 'l', chr 'q', chr 'd'] ∈ sequences t := by decide
  exact not_misread_of_fetches emptyEnv (by decide) (CharPtr.holds_ofText t) (by decide) hright
    _ hq hmis

end ListaOS.Stdio
