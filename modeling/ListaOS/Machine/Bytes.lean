/-
  Bytes of demand paged memory.

  `loadByte` and `storeByte` are accesses of the kernel to its own data, with the page fault that
  each may raise. `Shows s va x` says that the page of `va` is present and holds `x` there: then a
  load returns `x` and changes nothing. Stores show what they store, and keep what is shown
  elsewhere (`Ready.storeBytes`); stores to other frames keep what is shown (`Shows.of_grows`).
-/
import ListaOS.Machine.Demand

namespace ListaOS

open Lib Mm Paging

namespace Machine

def loadByte (s : Machine) (va : BitVec 32) : Option (Machine × BitVec 8) :=
  (s.touch va 0).map fun r => (r.1, r.1.mmu.mem.read r.2)

/-- An address and what is stored there. -/
def storeByte (s : Machine) (w : BitVec 32 × BitVec 8) : Option Machine :=
  (s.touch w.1 2).map fun r => r.1.writePhys r.2 w.2

end Machine

/-- The page of `va` is present and holds `x` there. -/
def Shows (s : Machine) (va : BitVec 32) (x : BitVec 8) : Prop := s.mmu.readByte va = some x

/-- What is shown is what a load returns. -/
theorem Shows.loadByte {s : Machine} {va : BitVec 32} {x : BitVec 8} (h : Shows s va x) :
    s.loadByte va = some (s, x) := by
  obtain ⟨a, ha, rfl⟩ := Option.map_eq_some_iff.mp h
  unfold Machine.loadByte Machine.touch
  rw [ha]
  rfl

/-- Stores to other frames keep the bytes of the pages `D`. -/
theorem Shows.of_grows {F D G : Set Nat} {s t : Machine} {ms : MmState} (h : Paged F D s ms)
    (hg : Grows G s t) (hG : ∀ q ∈ F, q ∉ G) {va : BitVec 32} (hva : pageNumber va ∈ D) {x : BitVec 8}
    (hx : Shows s va x) : Shows t va x :=
  keeps_of_grows h hg hG [] [] ⟨va, hva⟩ trivial x hx

namespace Ready

variable {F D : Set Nat} {T : Finset Nat} {b : Machine}

theorem storeByte {s : Machine} {ms : MmState} (h : Ready F D T b s ms) {w : BitVec 32 × BitVec 8}
    (hw : pageNumber w.1 ∈ D) (hT : pageNumber w.1 ∈ T) :
    ∃ t ms', s.storeByte w = some t ∧ Ready F D T b t ms' ∧ Shows t w.1 w.2 ∧
      ∀ vb y, pageNumber vb ∈ D → w.1 ≠ vb → Shows s vb y → Shows t vb y := by
  obtain ⟨t, ht, ⟨ms', hready⟩, hkept, hstored, -⟩ :=
    access_serves (s := (s, [])) h (e := .store ⟨w.1, hw⟩ w.2) hT
  have haccess : Machine.access (D := D) (s, []) (.store ⟨w.1, hw⟩ w.2) =
      (s.storeByte w).map fun t => (t, []) := by
    rw [Machine.access, Machine.storeByte, Option.map_map]
    rfl
  rw [haccess] at ht
  obtain ⟨u, hu, hut⟩ := Option.map_eq_some_iff.mp ht
  obtain rfl : u = t.1 := congrArg Prod.fst hut
  refine ⟨t.1, ms', hu, hready, hstored, fun vb y hvb hne hy => ?_⟩
  exact hkept ⟨vb, hvb⟩ (fun heq => hne (congrArg Subtype.val heq).symm) y hy

/-- Stores to different addresses. -/
theorem storeBytes {s : Machine} {ms : MmState} (h : Ready F D T b s ms)
    {ws : List (BitVec 32 × BitVec 8)} (hws : ∀ w ∈ ws, pageNumber w.1 ∈ D ∧ pageNumber w.1 ∈ T)
    (hnodup : (ws.map Prod.fst).Nodup) :
    ∃ t ms', run Machine.storeByte s ws = some t ∧ Ready F D T b t ms' ∧
      (∀ w ∈ ws, Shows t w.1 w.2) ∧
      ∀ vb y, pageNumber vb ∈ D → vb ∉ ws.map Prod.fst → Shows s vb y → Shows t vb y := by
  induction ws generalizing s ms with
  | nil => exact ⟨s, ms, rfl, h, fun w hw => absurd hw List.not_mem_nil, fun _ _ _ _ hy => hy⟩
  | cons w ws ih =>
    obtain ⟨⟨hD, hT⟩, hrest⟩ := List.forall_mem_cons.mp hws
    obtain ⟨hnew, hnodup'⟩ := List.nodup_cons.mp hnodup
    obtain ⟨t, mt, ht, hready, hstored, hkept⟩ := h.storeByte hD hT
    obtain ⟨u, mu, hu, hready', hstored', hkept'⟩ := ih hready hrest hnodup'
    refine ⟨u, mu, run_cons_eq_some.mpr ⟨t, ht, hu⟩, hready',
      List.forall_mem_cons.mpr ⟨hkept' _ _ hD hnew hstored, hstored'⟩, ?_⟩
    intro vb y hvb hnot hy
    rw [List.map_cons, List.mem_cons, not_or] at hnot
    exact hkept' vb y hvb hnot.2 (hkept vb y hvb (Ne.symm hnot.1) hy)

end Ready

end ListaOS
