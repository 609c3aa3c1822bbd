/-
  Queues with their history, and rings of cells that hold a queue.

  A `Fifo` carries what was pushed, what was popped and what is queued; the order law
  `pushed = popped ++ queue` is a field, so every queue that can be built pops in
  arrival order and loses nothing.

  `ring n cell head used` is the queue a ring of `n` cells holds: the `used` cells
  after `head`, wrapping at `n`. `ring_push` stores after the last one, `ring_pop`
  moves the head, and `ring_write_of_free` says that a store outside the used cells
  changes nothing.
-/
import Mathlib.Tactic.Common
import Mathlib.Logic.Function.Basic
import Mathlib.Data.Nat.ModEq

namespace ListaOS.Lib

variable {α : Type}

/-- A queue and its history. -/
structure Fifo (α : Type) where
  queue : List α
  pushed : List α
  popped : List α
  order : pushed = popped ++ queue

namespace Fifo

def empty : Fifo α := ⟨[], [], [], rfl⟩

def push (f : Fifo α) (a : α) : Fifo α where
  queue := f.queue ++ [a]
  pushed := f.pushed ++ [a]
  popped := f.popped
  order := by rw [f.order, List.append_assoc]

/-- Pop the oldest entry; an empty queue stays as it is. -/
def pop (f : Fifo α) : Option α × Fifo α :=
  match h : f.queue with
  | [] => (none, f)
  | a :: q => (some a, ⟨q, f.pushed, f.popped ++ [a], by rw [f.order, h, List.append_assoc]; rfl⟩)

theorem pop_of_nil {f : Fifo α} (h : f.queue = []) : f.pop = (none, f) := by
  unfold pop
  split
  · rfl
  · rename_i h'
    rw [h] at h'
    cases h'

theorem pop_of_cons {f : Fifo α} {a : α} {q : List α} (h : f.queue = a :: q) :
    f.pop.1 = some a ∧ f.pop.2.queue = q ∧ f.pop.2.pushed = f.pushed ∧
      f.pop.2.popped = f.popped ++ [a] := by
  unfold pop
  split
  · rename_i h'
    rw [h] at h'
    cases h'
  · rename_i h'
    rw [h] at h'
    cases h'
    exact ⟨rfl, rfl, rfl, rfl⟩

@[simp] theorem pushed_pop (f : Fifo α) : f.pop.2.pushed = f.pushed := by
  cases h : f.queue with
  | nil => rw [pop_of_nil h]
  | cons a q => exact (pop_of_cons h).2.2.1

end Fifo

/-! ## Rings -/

/-- The `used` cells after `head` in a ring of `n`. -/
def ring (n : Nat) (cell : Nat → α) (head used : Nat) : List α :=
  (List.range used).map fun i => cell ((head + 1 + i) % n)

theorem ring_pop (n : Nat) (cell : Nat → α) (head used : Nat) :
    ring n cell head (used + 1) =
      cell ((head + 1) % n) :: ring n cell ((head + 1) % n) used := by
  unfold ring
  rw [List.range_succ_eq_map, List.map_cons, List.map_map, Nat.add_zero]
  congr 1
  apply List.map_congr_left
  intro i _
  show cell ((head + 1 + (i + 1)) % n) = cell (((head + 1) % n + 1 + i) % n)
  rw [Nat.add_assoc ((head + 1) % n), Nat.mod_add_mod, Nat.add_comm 1 i]

/-- Two offsets below the size of the ring name two cells. -/
theorem ring_index_inj {n head i j : Nat} (hi : i < n) (hj : j < n)
    (h : (head + i) % n = (head + j) % n) : i = j := by
  have := Nat.ModEq.add_left_cancel' head h
  rwa [Nat.ModEq, Nat.mod_eq_of_lt hi, Nat.mod_eq_of_lt hj] at this

/-- A store outside the used cells leaves the queue alone. -/
theorem ring_write_of_free {n head used : Nat} (cell : Nat → α) (k : Nat) (a : α)
    (hk : ∀ i < used, (head + 1 + i) % n ≠ k) :
    ring n (Function.update cell k a) head used = ring n cell head used := by
  unfold ring
  apply List.map_congr_left
  intro i hi
  exact Function.update_of_ne (hk i (List.mem_range.mp hi)) a cell

theorem ring_push {n head used : Nat} (cell : Nat → α) (a : α) (h : used < n) :
    ring n (Function.update cell ((head + used + 1) % n) a) head (used + 1) =
      ring n cell head used ++ [a] := by
  have hfree : ∀ i < used, (head + 1 + i) % n ≠ (head + used + 1) % n := by
    intro i hi he
    rw [show head + used + 1 = head + 1 + used by omega] at he
    have := ring_index_inj (by omega) h he
    omega
  rw [ring, List.range_succ, List.map_append]
  refine congrArg₂ (· ++ ·) ?_ ?_
  · exact ring_write_of_free cell _ a hfree
  · rw [List.map_singleton, show head + 1 + used = head + used + 1 by omega,
      Function.update_self]

end ListaOS.Lib
