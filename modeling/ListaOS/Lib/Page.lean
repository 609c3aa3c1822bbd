/-
  Text laid out on a grid, in reading order.

  A page of width `W` is the list of the cells before the cursor, row after row; the cells from
  the cursor on are blank. A glyph takes the next cell, the end of a line and a tab skip cells (a
  tab as many as a function of the column says), and a backspace takes back a cell of the cursor's
  row. `cell_lines`: a text of lines shorter
  than a row puts line `r` in row `r`.
-/
import Mathlib.Data.List.GetD
import Mathlib.Tactic.Common

namespace ListaOS.Lib

inductive Mark (α : Type) where
  | glyph (a : α)
  | line
  | tab
  | back

namespace Page

variable {α : Type} (W : Nat) (T : Nat → Nat) (blank : α)

/-- The page after a mark; a tab skips `T col` cells. -/
def step (p : List α) : Mark α → List α
  | .glyph a => p ++ [a]
  | .line => p ++ List.replicate (W - p.length % W) blank
  | .tab => p ++ List.replicate (T (p.length % W)) blank
  | .back => if p.length % W = 0 then p else p.dropLast

/-- Cell `n` of the page. -/
def cell (p : List α) (n : Nat) : α := p.getD n blank

variable {W T blank} {p : List α}

theorem cell_length : cell blank p p.length = blank := List.getD_eq_default _ _ (Nat.le_refl _)

theorem cell_glyph (a : α) (n : Nat) :
    cell blank (p ++ [a]) n = if n = p.length then a else cell blank p n := by
  unfold cell
  obtain hlt | rfl | hgt := Nat.lt_trichotomy n p.length
  · rw [if_neg (Nat.ne_of_lt hlt), List.getD_append _ _ _ _ hlt]
  · rw [if_pos rfl, List.getD_append_right _ _ _ _ (Nat.le_refl _), Nat.sub_self]
    rfl
  · rw [if_neg (Nat.ne_of_gt hgt), List.getD_eq_default _ _ (Nat.le_of_lt hgt),
      List.getD_eq_default]
    rw [List.length_append]
    exact hgt

/-- Skipped cells are as blank as before. -/
theorem cell_skip (k n : Nat) : cell blank (p ++ List.replicate k blank) n = cell blank p n := by
  unfold cell
  by_cases hlt : n < p.length
  · rw [List.getD_append _ _ _ _ hlt]
  · have hge := Nat.le_of_not_lt hlt
    rw [List.getD_append_right _ _ _ _ hge, List.getD_eq_default _ _ hge]
    by_cases hin : n - p.length < k
    · exact List.getD_replicate _ hin
    · exact List.getD_eq_default _ _ (by rw [List.length_replicate]; omega)

theorem cell_dropLast (n : Nat) :
    cell blank p.dropLast n = if n = p.length - 1 then blank else cell blank p n := by
  unfold cell
  by_cases hlt : n < p.length - 1
  · rw [if_neg (Nat.ne_of_lt hlt), List.getD_eq_getElem?_getD, List.getD_eq_getElem?_getD,
      List.getElem?_dropLast, if_pos hlt]
  · have hend : p.dropLast.getD n blank = blank :=
      List.getD_eq_default _ _ (by rw [List.length_dropLast]; omega)
    rw [hend]
    split
    · rfl
    · exact (List.getD_eq_default _ _ (by omega)).symm

/-! ## Lines -/

theorem foldl_glyphs (l : List α) :
    (l.map Mark.glyph).foldl (step W T blank) p = p ++ l := by
  induction l generalizing p with
  | nil => rw [List.append_nil]; rfl
  | cons a l ih =>
    rw [List.map_cons, List.foldl_cons, ih, step, List.append_assoc]
    rfl

/-- A line and its end fill a row. -/
theorem foldl_line {l : List α} (hl : l.length < W) (hp : p.length % W = 0) :
    (l.map Mark.glyph ++ [Mark.line]).foldl (step W T blank) p =
      p ++ (l ++ List.replicate (W - l.length) blank) := by
  have hcol : (p ++ l).length % W = l.length := by
    rw [List.length_append, Nat.add_mod, hp, Nat.zero_add, Nat.mod_mod, Nat.mod_eq_of_lt hl]
  rw [List.foldl_append, foldl_glyphs, List.foldl_cons, List.foldl_nil, step, hcol,
    List.append_assoc]

/-- The marks of a text of whole lines. -/
def marks (lines : List (List α)) : List (Mark α) :=
  lines.flatMap fun l => l.map Mark.glyph ++ [Mark.line]

theorem foldl_lines {lines : List (List α)} (h : ∀ l ∈ lines, l.length < W)
    (hp : p.length % W = 0) :
    (marks lines).foldl (step W T blank) p =
      p ++ lines.flatMap fun l => l ++ List.replicate (W - l.length) blank := by
  induction lines generalizing p with
  | nil =>
    rw [List.flatMap_nil, List.append_nil]
    rfl
  | cons l lines ih =>
    obtain ⟨hl, hlines⟩ := List.forall_mem_cons.mp h
    have hrow : (p ++ (l ++ List.replicate (W - l.length) blank)).length % W = 0 := by
      rw [List.length_append, List.length_append, List.length_replicate,
        Nat.add_sub_cancel' (Nat.le_of_lt hl), Nat.add_mod_right, hp]
    rw [marks, List.flatMap_cons, List.foldl_append, foldl_line hl hp]
    rw [marks] at ih
    rw [ih hlines hrow, List.flatMap_cons, List.append_assoc]

/-- The row of a line. -/
theorem cell_row {l : List α} (hl : l.length < W) (q : List α) {c : Nat} (hc : c < W) :
    cell blank (l ++ List.replicate (W - l.length) blank ++ q) c = l.getD c blank := by
  have hlen : (l ++ List.replicate (W - l.length) blank).length = W := by
    rw [List.length_append, List.length_replicate]
    omega
  rw [cell, List.getD_append _ _ _ _ (by omega)]
  exact cell_skip _ _

/-- **Line `r` is in row `r`.** -/
theorem cell_lines {lines : List (List α)} (h : ∀ l ∈ lines, l.length < W) {r c : Nat}
    (hc : c < W) :
    cell blank ((marks lines).foldl (step W T blank) []) (r * W + c) =
      (lines.getD r []).getD c blank := by
  rw [foldl_lines (p := []) h (Nat.zero_mod W), List.nil_append]
  induction lines generalizing r with
  | nil =>
    rw [List.flatMap_nil, cell, List.getD_nil, List.getD_nil, List.getD_nil]
  | cons l lines ih =>
    obtain ⟨hl, hlines⟩ := List.forall_mem_cons.mp h
    rw [List.flatMap_cons]
    cases r with
    | zero =>
      rw [Nat.zero_mul, Nat.zero_add, List.getD_cons_zero]
      exact cell_row hl _ hc
    | succ r =>
      have hlen : (l ++ List.replicate (W - l.length) blank).length = W := by
        rw [List.length_append, List.length_replicate]
        omega
      have hskip : (r + 1) * W + c - W = r * W + c := by
        rw [Nat.succ_mul]
        omega
      rw [List.getD_cons_succ, ← ih hlines, cell, List.getD_append_right _ _ _ _ (by
        rw [hlen, Nat.succ_mul]
        omega), hlen, hskip]
      rfl

end Page

end ListaOS.Lib
