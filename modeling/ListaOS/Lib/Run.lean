/-
  Runs of a step function over a list of events.

  `run step s es` is `none` as soon as an event is not enabled. `run_invariant` is
  the one induction: what each enabled step preserves, every run preserves;
  `run_invariant_events` is for invariants that speak of the events so far, and
  `exists_run_invariant` for those that enable the next step. Steps that are always enabled are
  folded with `List.foldl`; `foldl_invariant` is the same rule for them. `Along` says
  that every step of such a run meets a condition; `forall_prefix_iff_along` is for
  invariants that a step keeps exactly under one, and `foldl_simulates` is forward
  simulation where each step commits to the abstract steps `commits s e`, and `run_refines` where
  steps that may fail implement steps that do not.
-/
import Mathlib.Tactic.Common

namespace ListaOS.Lib

variable {σ ε : Type}

/-- Fire the events in order; `none` if one of them is not enabled. -/
def run (step : σ → ε → Option σ) : σ → List ε → Option σ
  | s, [] => some s
  | s, e :: es => (step s e).bind fun t => run step t es

variable {step : σ → ε → Option σ}

theorem run_cons (s : σ) (e : ε) (es : List ε) :
    run step s (e :: es) = (step s e).bind fun t => run step t es := rfl

theorem run_cons_eq_some {s u : σ} {e : ε} {es : List ε} :
    run step s (e :: es) = some u ↔ ∃ t, step s e = some t ∧ run step t es = some u := by
  rw [run_cons, Option.bind_eq_some_iff]

theorem run_append (s : σ) (es fs : List ε) :
    run step s (es ++ fs) = (run step s es).bind fun t => run step t fs := by
  induction es generalizing s with
  | nil => rfl
  | cons e es ih =>
    rw [List.cons_append, run_cons, run_cons, Option.bind_assoc]
    exact congrArg (Option.bind (step s e)) (funext ih)

theorem run_invariant (I : σ → Prop) (hstep : ∀ s e t, I s → step s e = some t → I t)
    {s t : σ} {es : List ε} (hs : I s) (h : run step s es = some t) : I t := by
  induction es generalizing s with
  | nil => exact Option.some.inj h ▸ hs
  | cons e es ih =>
    obtain ⟨u, hu, ht⟩ := run_cons_eq_some.mp h
    exact ih (hstep s e u hs hu) ht

/-- An invariant that also speaks of the events so far. -/
theorem run_invariant_events (I : List ε → σ → Prop)
    (hstep : ∀ past s e t, I past s → step s e = some t → I (past ++ [e]) t) {past : List ε}
    {s t : σ} {es : List ε} (hs : I past s) (h : run step s es = some t) : I (past ++ es) t := by
  induction es generalizing past s with
  | nil =>
    rw [List.append_nil]
    exact Option.some.inj h ▸ hs
  | cons e es ih =>
    obtain ⟨u, hu, ht⟩ := run_cons_eq_some.mp h
    have hrest := ih (hstep past s e u hs hu) ht
    rwa [List.append_assoc] at hrest

/-- Where `I` enables the events and is kept by them, the whole run is enabled and keeps it. -/
theorem exists_run_invariant (I : σ → Prop) {es : List ε}
    (hstep : ∀ s, I s → ∀ e ∈ es, ∃ t, step s e = some t ∧ I t) {s : σ} (hs : I s) :
    ∃ t, run step s es = some t ∧ I t := by
  induction es generalizing s with
  | nil => exact ⟨s, rfl, hs⟩
  | cons e es ih =>
    obtain ⟨u, hu, hI⟩ := hstep s hs e List.mem_cons_self
    obtain ⟨t, ht, hend⟩ := ih (fun s hs f hf => hstep s hs f (List.mem_cons_of_mem e hf)) hI
    exact ⟨t, run_cons_eq_some.mpr ⟨u, hu, ht⟩, hend⟩

theorem exists_run (I : σ → Prop) {es : List ε}
    (hstep : ∀ s, I s → ∀ e ∈ es, ∃ t, step s e = some t ∧ I t) {s : σ} (hs : I s) :
    ∃ t, run step s es = some t :=
  let ⟨t, ht, _⟩ := exists_run_invariant I hstep hs
  ⟨t, ht⟩

/-- Steps that agree where `I` holds have the same run. -/
theorem exists_run_of_agree (I : σ → Prop) {step' : σ → ε → Option σ} {es : List ε}
    (hstep : ∀ s, I s → ∀ e ∈ es, ∃ t, step s e = some t ∧ step' s e = some t ∧ I t) {s : σ}
    (hs : I s) : ∃ t, run step s es = some t ∧ run step' s es = some t ∧ I t := by
  induction es generalizing s with
  | nil => exact ⟨s, rfl, rfl, hs⟩
  | cons e es ih =>
    obtain ⟨u, hu, hu', hI⟩ := hstep s hs e List.mem_cons_self
    obtain ⟨t, ht, ht', hend⟩ := ih (fun s hs f hf => hstep s hs f (List.mem_cons_of_mem e hf)) hI
    exact ⟨t, run_cons_eq_some.mpr ⟨u, hu, ht⟩, run_cons_eq_some.mpr ⟨u, hu', ht'⟩, hend⟩

theorem run_map {α : Type} (f : α → ε) (s : σ) (es : List α) :
    run step s (es.map f) = run (fun s e => step s (f e)) s es := by
  induction es generalizing s with
  | nil => rfl
  | cons e es ih => exact congrArg (Option.bind (step s (f e))) (funext ih)

theorem foldl_invariant {step : σ → ε → σ} (I : σ → Prop) (hstep : ∀ s e, I s → I (step s e))
    {s : σ} (hs : I s) (es : List ε) : I (es.foldl step s) := by
  induction es generalizing s with
  | nil => exact hs
  | cons e es ih => exact ih (hstep s e hs)

/-! ## Simulation -/

/-- Every step of the run from `s` meets `P` where it is taken. -/
def Along (step : σ → ε → σ) (P : σ → ε → Prop) : σ → List ε → Prop
  | _, [] => True
  | s, e :: es => P s e ∧ Along step P (step s e) es

instance decidableAlong (step : σ → ε → σ) (P : σ → ε → Prop) [∀ s e, Decidable (P s e)] :
    ∀ s es, Decidable (Along step P s es)
  | _, [] => isTrue trivial
  | s, e :: es =>
      have := decidableAlong step P (step s e) es
      inferInstanceAs (Decidable (P s e ∧ Along step P (step s e) es))

theorem Along.congr {step : σ → ε → σ} {P Q : σ → ε → Prop} (h : ∀ s e, P s e ↔ Q s e) (s : σ)
    (es : List ε) : Along step P s es ↔ Along step Q s es := by
  induction es generalizing s with
  | nil => exact Iff.rfl
  | cons e es ih => exact and_congr (h s e) (ih (step s e))

/-- The same, where the conditions agree in the states that every step stays in. -/
theorem Along.congr_of_invariant {step : σ → ε → σ} {P Q : σ → ε → Prop} {J : σ → Prop}
    (hJ : ∀ s e, J s → J (step s e)) (h : ∀ s e, J s → (P s e ↔ Q s e)) {s : σ} (hs : J s)
    (es : List ε) : Along step P s es ↔ Along step Q s es := by
  induction es generalizing s with
  | nil => exact Iff.rfl
  | cons e es ih => exact and_congr (h s e hs) (ih (hJ s e hs))

theorem Along.of_append {step : σ → ε → σ} {P : σ → ε → Prop} {s : σ} {es fs : List ε}
    (h : Along step P s (es ++ fs)) : Along step P s es := by
  induction es generalizing s with
  | nil => trivial
  | cons e es ih => exact ⟨h.1, ih h.2⟩

/-- Where a step keeps `I` exactly if it meets `P`, a run keeps `I` in every state exactly if
every step meets `P`; `J` is what all steps keep. -/
theorem forall_prefix_iff_along {step : σ → ε → σ} {P : σ → ε → Prop} {I J : σ → Prop}
    (hJ : ∀ s e, J s → J (step s e)) (hI : ∀ s e, J s → I s → (I (step s e) ↔ P s e)) {s : σ}
    (hj : J s) (hi : I s) (es : List ε) :
    (∀ pre, pre <+: es → I (pre.foldl step s)) ↔ Along step P s es := by
  induction es generalizing s with
  | nil =>
    refine iff_of_true (fun pre hpre => ?_) trivial
    rw [List.prefix_nil.mp hpre]
    exact hi
  | cons e es ih =>
    constructor
    · intro h
      have hnext : I (step s e) := h [e] (List.prefix_cons_iff.mpr
        (Or.inr ⟨[], rfl, List.nil_prefix⟩))
      refine ⟨(hI s e hj hi).mp hnext, (ih (hJ s e hj) hnext).mp fun pre hpre => ?_⟩
      exact h (e :: pre) (List.prefix_cons_iff.mpr (Or.inr ⟨pre, rfl, hpre⟩))
    · intro h pre hpre
      obtain ⟨he, hes⟩ := h
      have hnext := (hI s e hj hi).mpr he
      obtain rfl | ⟨rest, rfl, hrest⟩ := List.prefix_cons_iff.mp hpre
      · exact hi
      · exact (ih (hJ s e hj) hnext).mpr hes rest hrest

variable {τ ω : Type}

/-- The abstract steps a run commits to, in order. -/
def commitsOf (step : σ → ε → σ) (commits : σ → ε → List ω) : σ → List ε → List ω
  | _, [] => []
  | s, e :: es => commits s e ++ commitsOf step commits (step s e) es

/-- What holds of everything a run commits to holds of what each of its steps commits to. -/
theorem forall_commitsOf_iff_along {step : σ → ε → σ} {commits : σ → ε → List ω} {P : ω → Prop}
    (s : σ) (es : List ε) :
    (∀ w ∈ commitsOf step commits s es, P w) ↔
      Along step (fun s e => ∀ w ∈ commits s e, P w) s es := by
  induction es generalizing s with
  | nil => exact iff_of_true (fun w hw => absurd hw List.not_mem_nil) trivial
  | cons e es ih =>
    rw [commitsOf, List.forall_mem_append, Along, ih]

/-- Steps that may fail beside steps that do not; `R` says when they may. -/
theorem run_refines {step : τ → ε → Option τ} {astep : σ → ε → σ} (R : σ → Option τ → Prop)
    (hstep : ∀ s t e, R s t → R (astep s e) (t.bind fun t => step t e)) {s : σ} {t : Option τ}
    (hR : R s t) (es : List ε) : R (es.foldl astep s) (t.bind fun t => run step t es) := by
  induction es generalizing s t with
  | nil =>
    have hnil : (t.bind fun t => run step t []) = t := Option.bind_fun_some t
    rwa [hnil]
  | cons e es ih =>
    have hcons : (t.bind fun t => run step t (e :: es)) =
        (t.bind fun t => step t e).bind fun t => run step t es := by
      rw [Option.bind_assoc]
      rfl
    rw [hcons]
    exact ih (hstep s t e hR)

theorem foldl_simulates {step : σ → ε → σ} {commits : σ → ε → List ω} {astep : τ → ω → τ}
    {P : σ → ε → Prop} (R : σ → τ → Prop)
    (hstep : ∀ s t e, R s t → P s e → R (step s e) ((commits s e).foldl astep t))
    {s : σ} {t : τ} {es : List ε} (hR : R s t) (hP : Along step P s es) :
    R (es.foldl step s) ((commitsOf step commits s es).foldl astep t) := by
  induction es generalizing s t with
  | nil => exact hR
  | cons e es ih =>
    obtain ⟨he, hes⟩ := hP
    rw [commitsOf, List.foldl_append]
    exact ih (hstep s t e hR he) hes

end ListaOS.Lib
