/-
  Pools: the abstract resource allocator.

  A pool splits a finite stock into the free units and the units handed out; the two
  are disjoint by construction. `Step.take` hands out the least free unit, `Step.give`
  takes a unit back. Over any run the stock is constant (`Steps.stock_eq`), and so is
  the number of free units plus the number handed out (`Steps.card_eq`).
-/
import Mathlib.Data.Finset.Max
import Mathlib.Data.Finset.Card
import Mathlib.Logic.Relation

namespace ListaOS.Lib

/-- Free units and units handed out; no unit is both. -/
structure Pool (α : Type) [DecidableEq α] where
  free : Finset α
  out : Finset α
  disjoint : Disjoint free out

namespace Pool

variable {α : Type} [LinearOrder α]

@[ext] theorem ext {p q : Pool α} (hf : p.free = q.free) (ho : p.out = q.out) : p = q := by
  cases p; cases q
  simp only at hf ho
  subst hf ho
  rfl

theorem not_mem_out {p : Pool α} {a : α} (h : a ∈ p.free) : a ∉ p.out :=
  Finset.disjoint_left.mp p.disjoint h

theorem not_mem_free {p : Pool α} {a : α} (h : a ∈ p.out) : a ∉ p.free :=
  Finset.disjoint_right.mp p.disjoint h

/-- Hand out the free unit `a`. -/
def take (p : Pool α) (a : α) (_ : a ∈ p.free) : Pool α where
  free := p.free.erase a
  out := insert a p.out
  disjoint := by
    rw [Finset.disjoint_insert_right]
    exact ⟨Finset.notMem_erase a _, p.disjoint.mono_left (Finset.erase_subset a _)⟩

/-- Take the unit `a` back. -/
def give (p : Pool α) (a : α) (_ : a ∈ p.out) : Pool α where
  free := insert a p.free
  out := p.out.erase a
  disjoint := by
    rw [Finset.disjoint_insert_left]
    exact ⟨Finset.notMem_erase a _, p.disjoint.mono_right (Finset.erase_subset a _)⟩

/-- The units of the pool, free or handed out. -/
def stock (p : Pool α) : Finset α := p.free ∪ p.out

theorem card_stock (p : Pool α) : p.stock.card = p.free.card + p.out.card :=
  Finset.card_union_of_disjoint p.disjoint

theorem stock_take (p : Pool α) {a : α} (h : a ∈ p.free) : (p.take a h).stock = p.stock := by
  unfold stock take
  rw [Finset.union_insert, ← Finset.insert_union, Finset.insert_erase h]

theorem stock_give (p : Pool α) {a : α} (h : a ∈ p.out) : (p.give a h).stock = p.stock := by
  unfold stock give
  rw [Finset.insert_union, ← Finset.union_insert, Finset.insert_erase h]

/-! ## Runs -/

/-- One use of the pool: the least free unit goes out, or a unit comes back. -/
inductive Step : Pool α → Pool α → Prop
  | take {p : Pool α} {a : α} (h : IsLeast (p.free : Set α) a) : Step p (p.take a h.1)
  | give {p : Pool α} {a : α} (h : a ∈ p.out) : Step p (p.give a h)

/-- Any number of uses. -/
abbrev Steps : Pool α → Pool α → Prop := Relation.ReflTransGen Step

theorem Step.stock_eq {p q : Pool α} (h : Step p q) : q.stock = p.stock := by
  cases h with
  | take h => exact stock_take p h.1
  | give h => exact stock_give p h

theorem Steps.stock_eq {p q : Pool α} (h : Steps p q) : q.stock = p.stock := by
  induction h with
  | refl => rfl
  | tail _ hstep ih => rw [hstep.stock_eq, ih]

theorem Steps.card_eq {p q : Pool α} (h : Steps p q) :
    q.free.card + q.out.card = p.free.card + p.out.card := by
  rw [← card_stock, ← card_stock, h.stock_eq]

end Pool

end ListaOS.Lib
