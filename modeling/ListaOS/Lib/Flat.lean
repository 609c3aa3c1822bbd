/-
  Flat memories, and memories that cannot be told from one.

  A memory that finds room for its cells as it goes knows the contents of some of them only
  (`known`). `Serves` is what one access has to do: a load returns the cell, which is known
  from then on, a store makes its cell known, and nothing known is lost. `run_flat`: such a
  memory returns what a flat memory returns, where the cells not known at the start hold
  whatever the memory finds in the room it gives them later.
-/
import ListaOS.Lib.Run
import Mathlib.Logic.Function.Basic

namespace ListaOS.Lib

/-- A use of a memory with addresses `A` and values `V`. -/
inductive Access (A V : Type) where
  | load (a : A)
  | store (a : A) (v : V)

/-- The address of an access. -/
def Access.addr {A V : Type} : Access A V → A
  | .load a => a
  | .store a _ => a

/-- A cell for every address, and what the loads so far have returned. -/
structure Flat (A V : Type) where
  cells : A → V
  loaded : List V

variable {A V : Type} [DecidableEq A]

def Flat.step (m : Flat A V) : Access A V → Flat A V
  | .load a => { m with loaded := m.loaded ++ [m.cells a] }
  | .store a v => { m with cells := Function.update m.cells a v }

section

variable {σ : Type} (known : σ → A → Option V) (loaded : σ → List V)

/-- From `s` to `t`, what is known of the cells in `B` stays known. -/
def Keeps (B : Set A) (s t : σ) : Prop := ∀ b ∈ B, ∀ v, known s b = some v → known t b = some v

/-- The access `e` takes the memory `s` to `t` as it should. -/
def Serves (s : σ) (e : Access A V) (t : σ) : Prop :=
  match e with
  | .load a => Keeps known Set.univ s t ∧ ∃ v, known t a = some v ∧ loaded t = loaded s ++ [v]
  | .store a v => Keeps known {b | b ≠ a} s t ∧ known t a = some v ∧ loaded t = loaded s

/-- The flat cells hold what is known of `s`. -/
def Agrees (s : σ) (cells : A → V) : Prop := ∀ a v, known s a = some v → cells a = v

omit [DecidableEq A] in
theorem exists_agrees [Inhabited V] (s : σ) : ∃ cells, Agrees known s cells :=
  ⟨fun a => (known s a).getD default, fun a v h => by
    show (known s a).getD default = v
    rw [h, Option.getD_some]⟩

variable {known loaded}

/-- Cells for the memory after a load are cells for the memory before it. -/
theorem Serves.of_load {s t : σ} {a : A} (h : Serves known loaded s (.load a) t) {cells : A → V}
    (ht : Agrees known t cells) :
    Agrees known s cells ∧ Flat.step ⟨cells, loaded s⟩ (.load a) = ⟨cells, loaded t⟩ := by
  obtain ⟨hkeep, v, hv, hload⟩ := h
  refine ⟨fun b w hb => ht b w (hkeep b trivial w hb), ?_⟩
  rw [Flat.step, hload]
  dsimp only
  rw [ht a v hv]

/-- Before a store its cell may have held anything. -/
theorem Serves.of_store [Inhabited V] {s t : σ} {a : A} {v : V}
    (h : Serves known loaded s (.store a v) t) {cells : A → V} (ht : Agrees known t cells) :
    ∃ before, Agrees known s before ∧
      Flat.step ⟨before, loaded s⟩ (.store a v) = ⟨cells, loaded t⟩ := by
  obtain ⟨hkeep, hv, hload⟩ := h
  obtain ⟨old, hold⟩ := exists_agrees known s
  refine ⟨Function.update cells a (old a), fun b w hb => ?_, ?_⟩
  · by_cases hba : b = a
    · subst hba
      rw [Function.update_self]
      exact hold b w hb
    · rw [Function.update_of_ne hba]
      exact ht b w (hkeep b hba w hb)
  · rw [Flat.step, hload]
    dsimp only
    rw [Function.update_idem, ← ht a v hv, Function.update_eq_self]

/-- Cells for the memory after an access are made of cells for the memory before it. -/
theorem Serves.back [Inhabited V] {s t : σ} {e : Access A V} (h : Serves known loaded s e t)
    {cells : A → V} (ht : Agrees known t cells) :
    ∃ before, Agrees known s before ∧ Flat.step ⟨before, loaded s⟩ e = ⟨cells, loaded t⟩ := by
  cases e with
  | load a => exact ⟨cells, h.of_load ht⟩
  | store a v => exact h.of_store ht

variable (known loaded) in
/-- An event that is an access is served, and any other keeps what is known. -/
def Answers (s : σ) (e : Option (Access A V)) (t : σ) : Prop :=
  match e with
  | some e => Serves known loaded s e t
  | none => Keeps known Set.univ s t ∧ loaded t = loaded s

omit [DecidableEq A] in
/-- An event keeps what is known of the cells that it does not use. -/
theorem Answers.keeps {s t : σ} {e : Option (Access A V)} (h : Answers known loaded s e t) :
    Keeps known {b | ∀ a, e = some a → a.addr ≠ b} s t := by
  intro b hb v hv
  cases e with
  | none => exact h.1 b trivial v hv
  | some e =>
    cases e with
    | load a => exact h.1 b trivial v hv
    | store a w => exact h.1 b (Ne.symm (hb _ rfl)) v hv

/-- **A memory that serves every access is flat**, whatever happens between the accesses. Where
`I` is kept and every event that meets `P` is answered, a run returns what a flat memory with
some cells returns. -/
theorem run_flat [Inhabited V] {ε : Type} {step : σ → ε → Option σ}
    {access? : ε → Option (Access A V)} {I : σ → Prop} {P : ε → Prop}
    (hstep : ∀ s e t, I s → P e → step s e = some t → I t ∧ Answers known loaded s (access? e) t)
    {s t : σ} {es : List ε} (hs : I s) (hes : ∀ e ∈ es, P e) (hrun : run step s es = some t) :
    ∃ cells, Agrees known s cells ∧
      ((es.filterMap access?).foldl Flat.step ⟨cells, loaded s⟩).loaded = loaded t ∧
      Agrees known t ((es.filterMap access?).foldl Flat.step ⟨cells, loaded s⟩).cells := by
  induction es generalizing s with
  | nil =>
    obtain rfl := Option.some.inj hrun
    obtain ⟨cells, hcells⟩ := exists_agrees known s
    exact ⟨cells, hcells, rfl, hcells⟩
  | cons e es ih =>
    obtain ⟨u, hu, hrest⟩ := run_cons_eq_some.mp hrun
    obtain ⟨hI, hanswers⟩ := hstep s e u hs (hes e List.mem_cons_self) hu
    obtain ⟨cells, hcells, hend⟩ := ih hI (fun f hf => hes f (List.mem_cons_of_mem e hf)) hrest
    cases haccess : access? e with
    | none =>
      rw [haccess] at hanswers
      obtain ⟨hkeep, hload⟩ := hanswers
      rw [List.filterMap_cons_none haccess, ← hload]
      exact ⟨cells, fun b w hb => hcells b w (hkeep b trivial w hb), hend⟩
    | some a =>
      rw [haccess] at hanswers
      obtain ⟨before, hagree, hflat⟩ := Serves.back hanswers hcells
      rw [List.filterMap_cons_some haccess]
      refine ⟨before, hagree, ?_⟩
      rw [List.foldl_cons, hflat]
      exact hend

end

end ListaOS.Lib
