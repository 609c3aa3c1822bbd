/-
  Functions with fuel.

  `f n` is `none` when `n` steps were too few. `Returns f a` says that `f` ends: from some
  fuel on it is `some a`. It is a total-correctness statement, composed by `bind` along the
  sequencing of the code and by `succ` at each unfolding of a loop; `unique` says that a
  function with fuel has one result.
-/
import Mathlib.Tactic.Common

namespace ListaOS.Lib

variable {α β : Type}

def Returns (f : Nat → Option α) (a : α) : Prop := ∃ N, ∀ n, N ≤ n → f n = some a

namespace Returns

theorem pure (a : α) : Returns (fun _ => some a) a := ⟨0, fun _ _ => rfl⟩

/-- One unfolding of a loop costs one unit. -/
theorem succ {f : Nat → Option α} {a : α} (h : Returns (fun n => f (n + 1)) a) : Returns f a := by
  obtain ⟨N, hN⟩ := h
  refine ⟨N + 1, fun n hn => ?_⟩
  obtain ⟨m, rfl⟩ : ∃ m, n = m + 1 := ⟨n - 1, by omega⟩
  exact hN m (by omega)

theorem bind {f : Nat → Option α} {g : Nat → α → Option β} {a : α} {b : β} (hf : Returns f a)
    (hg : Returns (fun n => g n a) b) : Returns (fun n => (f n).bind (g n)) b := by
  obtain ⟨N, hN⟩ := hf
  obtain ⟨M, hM⟩ := hg
  refine ⟨max N M, fun n hn => ?_⟩
  dsimp only
  rw [hN n (by omega), Option.bind_some]
  exact hM n (by omega)

theorem map {f : Nat → Option α} {a : α} (g : α → β) (hf : Returns f a) :
    Returns (fun n => (f n).map g) (g a) := by
  obtain ⟨N, hN⟩ := hf
  refine ⟨N, fun n hn => ?_⟩
  dsimp only
  rw [hN n hn, Option.map_some]

theorem congr {f g : Nat → Option α} {a : α} (hf : Returns f a) (h : ∀ n, g n = f n) :
    Returns g a := by
  obtain ⟨N, hN⟩ := hf
  exact ⟨N, fun n hn => by rw [h, hN n hn]⟩

theorem unique {f : Nat → Option α} {a b : α} (ha : Returns f a) (hb : Returns f b) : a = b := by
  obtain ⟨N, hN⟩ := ha
  obtain ⟨M, hM⟩ := hb
  have h := hN (max N M) (by omega)
  rw [hM (max N M) (by omega)] at h
  exact (Option.some.inj h).symm

end Returns

end ListaOS.Lib
