/-
  The screen as a page of text.

  As long as no text runs over the last row, what the console has printed is a page in reading
  order (Lib.Page): `page W text` is the list of its cells up to the cursor. `Shows` relates
  the text grid and the cursor to a page; each print_char is a step of the page
  (`Shows.printChar`), and toggle_cursor none (`Shows.toggleCursor`).

  A tab moves the row by `(col + 8) / consoleWidth` and the column to the next stop, so near the
  end of a row it skips up to the stop in the next row (`tabSkip`). '\r' has no place here: it takes
  the cursor back over cells that stay. Neither the kernel's texts nor the keymap have one.
-/
import ListaOS.Console.Cursor
import ListaOS.Console.Motion
import ListaOS.Lib.Page
import Mathlib.Data.List.Infix

namespace ListaOS.Console

open Lib

def mark (ch : BitVec 8) : Mark (BitVec 8) :=
  if ch = 0x08 then .back else if ch = 0x0a then .line else if ch = 0x09 then .tab else .glyph ch

/-- The cells that a tab skips: from the column to the next stop, and a row if eight columns on is
the next one. -/
def tabSkip (W col : Nat) : Nat := (col + 8) / W * W + tabStop col % W - col

/-- A character on a page; NUL prints nothing. -/
def typeChar (W : Nat) (p : List (BitVec 8)) (ch : BitVec 8) : List (BitVec 8) :=
  if ch = 0 then p else Page.step W (tabSkip W) 0x20 p (mark ch)

/-- The page of a text. -/
def page (W : Nat) (text : List (BitVec 8)) : List (BitVec 8) := text.foldl (typeChar W) []

/-- Cell `n` of the page of a text. -/
def pageCell (W : Nat) (text : List (BitVec 8)) (n : Nat) : BitVec 8 := Page.cell 0x20 (page W text) n

/-- A text without '\r' stays on a screen of `W` columns and `H` rows: it never runs over the last
row. -/
def FitsScreen (W H : Nat) (text : List (BitVec 8)) : Prop :=
  ∀ pre, pre <+: text → (page W pre).length < W * H

/-- As a test of each prefix. -/
theorem fitsScreen_iff (W H : Nat) (text : List (BitVec 8)) :
    FitsScreen W H text ↔ ∀ pre ∈ text.inits, (page W pre).length < W * H := by
  simp only [FitsScreen, List.mem_inits]

instance (W H : Nat) (text : List (BitVec 8)) : Decidable (FitsScreen W H text) :=
  decidable_of_iff _ (fitsScreen_iff W H text).symm

theorem FitsScreen.of_prefix {W H : Nat} {text pre : List (BitVec 8)} (h : FitsScreen W H text)
    (hpre : pre <+: text) : FitsScreen W H pre :=
  fun q hq => h q (hq.trans hpre)

theorem page_snoc (W : Nat) (text : List (BitVec 8)) (ch : BitVec 8) :
    page W (text ++ [ch]) = typeChar W (page W text) ch := by
  unfold page
  rw [List.foldl_append, List.foldl_cons, List.foldl_nil]

/-- The text and the cursor are those of a page. -/
structure Shows (info : VbeModeInfo) (x : Screen) (p : List (BitVec 8)) : Prop where
  inText : InText info x.console
  position : x.console.position = p.length
  cells : ∀ c r : Nat, c < x.console.consoleWidth →
    x.text c r = Page.cell 0x20 p (r * x.console.consoleWidth + c)

variable {info : VbeModeInfo} {fontData : Int → BitVec 8} {x : Screen} {p : List (BitVec 8)}

/-! ## Positions -/

/-- Column and row of a place in reading order. -/
theorem index_eq_iff {W c r c' r' : Nat} (hc : c < W) (hc' : c' < W) :
    r * W + c = r' * W + c' ↔ c = c' ∧ r = r' := by
  constructor
  · intro heq
    have hmod := congrArg (· % W) heq
    simp only [Nat.mul_add_mod_self_right, Nat.mod_eq_of_lt hc, Nat.mod_eq_of_lt hc'] at hmod
    subst hmod
    have hmul : r * W = r' * W := by omega
    exact ⟨rfl, Nat.eq_of_mul_eq_mul_right (by omega) hmul⟩
  · rintro ⟨rfl, rfl⟩
    rfl

theorem Shows.mod_length (h : Shows info x p) : p.length % x.console.consoleWidth = x.console.col := by
  rw [← h.position, ConsoleState.position, Nat.mul_add_mod_self_right, Nat.mod_eq_of_lt h.inText.col]

/-- The cursor stands on a blank. -/
theorem Shows.blank (h : Shows info x p) : x.Blank := by
  have hcell := h.cells x.console.col x.console.row h.inText.col
  have hpos : x.console.row * x.console.consoleWidth + x.console.col = p.length := h.position
  rw [hpos, Page.cell_length] at hcell
  exact hcell

/-! ## Where print_char goes -/

section

variable {s t : ConsoleState}

/-- Inside the screen neither the wrap at 2^32 nor the clamp plays a part. -/
theorem position_of_inside (h : InText info s) {n m : Nat} (hn : n ≤ s.consoleWidth)
    (hm : m < 2 ^ 32)
    (hinside : s.row * s.consoleWidth + ((s.col + n) / s.consoleWidth * s.consoleWidth +
      m % s.consoleWidth) < s.consoleWidth * s.consoleHeight)
    (hwidth : t.consoleWidth = s.consoleWidth) (hheight : t.consoleHeight = s.consoleHeight)
    (hrow : t.row = (s.row + (s.col + n) % 2 ^ 32 / s.consoleWidth) % 2 ^ 32)
    (hcol : t.col = m % 2 ^ 32 % s.consoleWidth) :
    (clampRow t).position = s.row * s.consoleWidth +
      ((s.col + n) / s.consoleWidth * s.consoleWidth + m % s.consoleWidth) := by
  have hX := info.xResolution.isLt
  have hY := info.yResolution.isLt
  have hW := h.width
  have hH := h.height
  have hin := h.col
  have hlast : s.row + (s.col + n) / s.consoleWidth < s.consoleHeight := by
    rw [← Nat.add_assoc, ← Nat.add_mul] at hinside
    have hmul := Nat.lt_of_le_of_lt (Nat.le_add_right _ _) hinside
    rw [Nat.mul_comm] at hmul
    exact Nat.lt_of_mul_lt_mul_left hmul
  rw [Nat.mod_eq_of_lt (show s.col + n < 2 ^ 32 by omega), Nat.mod_eq_of_lt (by omega)] at hrow
  rw [Nat.mod_eq_of_lt hm] at hcol
  have hclamp : clampRow t = t := clampRow_of_lt (by omega)
  rw [hclamp, ConsoleState.position, hwidth, hrow, hcol, Nat.add_mul, Nat.add_assoc]

variable (info fontData)

theorem printChar_of_ne {ch : BitVec 8} (h0 : ch ≠ 0) :
    printChar info fontData s ch =
      clampRow (printSwitch info fontData (s.drawChar info fontData 0x20) ch) := if_neg h0

variable {info fontData}

theorem position_glyph (h : InText info s) {ch : BitVec 8} (hp : Printable ch)
    (hinside : s.position + 1 < s.consoleWidth * s.consoleHeight) :
    (printChar info fontData s ch).position = s.position + 1 := by
  have hX := info.xResolution.isLt
  have hW := h.width
  have hin := h.col
  have hnext : s.position + 1 = s.row * s.consoleWidth +
      ((s.col + 1) / s.consoleWidth * s.consoleWidth + (s.col + 1) % s.consoleWidth) := by
    rw [Nat.div_add_mod', ConsoleState.position, Nat.add_assoc]
  simp only [Printable, List.mem_cons, List.not_mem_nil, or_false, not_or] at hp
  obtain ⟨h0, hb, ht, hn, hr⟩ := hp
  rw [hnext] at hinside ⊢
  rw [printChar_of_ne info fontData h0, printSwitch, if_neg hb, if_neg hn, if_neg hr, if_neg ht]
  exact position_of_inside (n := 1) (m := s.col + 1) h (by omega) (by omega) hinside rfl rfl rfl rfl

theorem position_line (h : InText info s)
    (hinside : s.row * s.consoleWidth + s.consoleWidth < s.consoleWidth * s.consoleHeight) :
    (printChar info fontData s 0x0a).position = s.row * s.consoleWidth + s.consoleWidth := by
  have hY := info.yResolution.isLt
  have hH := h.height
  have hrow := h.row
  have hlast : s.row + 1 < s.consoleHeight := by
    rw [← Nat.succ_mul, Nat.mul_comm] at hinside
    exact Nat.lt_of_mul_lt_mul_left hinside
  have hmod : (s.row + 1) % 2 ^ 32 = s.row + 1 := Nat.mod_eq_of_lt (by omega)
  rw [printChar_of_ne info fontData (by decide), printSwitch, if_neg (by decide), if_pos rfl,
    clampRow_of_lt (show (s.row + 1) % 2 ^ 32 < s.consoleHeight by rw [hmod]; exact hlast)]
  show (s.row + 1) % 2 ^ 32 * s.consoleWidth + 0 = _
  rw [hmod, Nat.succ_mul, Nat.add_zero]

/-- A tab goes on, not back. -/
theorem le_tab {W col : Nat} (hW : 8 ≤ W) (hcol : col < W) :
    col ≤ (col + 8) / W * W + tabStop col % W := by
  by_cases hnear : col + 8 < W
  · have hstop := tabStop_le col
    rw [Nat.mod_eq_of_lt (by omega), tabStop]
    omega
  · have hone : (col + 8) / W = 1 := Nat.div_eq_of_lt_le (by omega) (by omega)
    rw [hone]
    omega

theorem position_tab (h : InText info s) (hx : 64 ≤ info.xResolution.toNat)
    (hinside : s.position + tabSkip s.consoleWidth s.col < s.consoleWidth * s.consoleHeight) :
    (printChar info fontData s 0x09).position = s.position + tabSkip s.consoleWidth s.col := by
  have hX := info.xResolution.isLt
  have hW := h.width
  have hin := h.col
  have hstop := tabStop_le s.col
  have hwide := (h.bounds hx).1
  have hle := le_tab hwide hin
  have hskip : s.position + tabSkip s.consoleWidth s.col = s.row * s.consoleWidth +
      ((s.col + 8) / s.consoleWidth * s.consoleWidth + tabStop s.col % s.consoleWidth) := by
    rw [ConsoleState.position, tabSkip]
    omega
  rw [hskip] at hinside ⊢
  rw [printChar_of_ne info fontData (by decide), printSwitch, if_neg (by decide),
    if_neg (by decide), if_neg (by decide), if_pos rfl]
  refine position_of_inside (n := 8) h hwide (by omega) hinside rfl rfl rfl ?_
  rw [← tabStop_eq]
  rfl

theorem position_back (h : InText info s) :
    (printChar info fontData s 0x08).position =
      if s.col = 0 then s.position else s.position - 1 := by
  have hlast : ∀ t : ConsoleState, t.row = s.row → t.consoleHeight = s.consoleHeight →
      clampRow t = t := fun t hrow hheight => clampRow_of_lt (by rw [hrow, hheight]; exact h.row)
  have hcol : (s.drawChar info fontData 0x20).col = s.col := rfl
  rw [printChar_of_ne info fontData (by decide), printSwitch, if_pos rfl, hcol]
  by_cases hzero : s.col = 0
  · rw [if_neg (show ¬ 0 < s.col by omega), if_pos hzero,
      hlast (s.drawChar info fontData 0x20) rfl rfl]
    rfl
  · have hmoved := hlast (({ s.drawChar info fontData 0x20 with
      col := s.col - 1 } : ConsoleState).drawChar info fontData 0x20) rfl rfl
    rw [if_pos (show 0 < s.col by omega), if_neg hzero]
    dsimp only at hmoved ⊢
    rw [hmoved]
    show s.row * s.consoleWidth + (s.col - 1) = s.row * s.consoleWidth + s.col - 1
    omega

end

/-! ## Steps -/

/-- Every character but NUL and '\r' is a mark. -/
theorem printable_or_mark {ch : BitVec 8} (h0 : ch ≠ 0) (hr : ch ≠ 0x0d) :
    Printable ch ∧ mark ch = .glyph ch ∨ ch = 0x08 ∨ ch = 0x09 ∨ ch = 0x0a := by
  by_cases hb : ch = 0x08
  · exact .inr (.inl hb)
  by_cases ht : ch = 0x09
  · exact .inr (.inr (.inl ht))
  by_cases hn : ch = 0x0a
  · exact .inr (.inr (.inr hn))
  · refine .inl ⟨?_, by rw [mark, if_neg hb, if_neg hn, if_neg ht]⟩
    simp only [Printable, List.mem_cons, List.not_mem_nil, or_false, not_or]
    exact ⟨h0, hb, ht, hn, hr⟩

theorem consoleWidth_printChar (h : InText info x.console) (hx : 64 ≤ info.xResolution.toNat)
    (ch : BitVec 8) :
    (printChar info fontData x.console ch).consoleWidth = x.console.consoleWidth :=
  (h.printChar fontData hx ch).width.trans h.width.symm

namespace Shows

/-- The text after a character that finds a blank under the cursor. -/
theorem text (h : Shows info x p) {ch : BitVec 8} (h0 : ch ≠ 0) :
    (screenStep info fontData x (.printChar ch)).text =
      (x.console.switchDraws ch).foldl TextGrid.put x.text := by
  rw [text_printChar info fontData x h0, put_erase h.blank]

/-- A character moves the cursor to the end of the new page. -/
theorem position_printChar (h : Shows info x p) (hx : 64 ≤ info.xResolution.toNat) {ch : BitVec 8}
    (h0 : ch ≠ 0) (hr : ch ≠ 0x0d)
    (hfit : (typeChar x.console.consoleWidth p ch).length <
      x.console.consoleWidth * x.console.consoleHeight) :
    (printChar info fontData x.console ch).position =
      (typeChar x.console.consoleWidth p ch).length := by
  have hpos := h.position
  have hcol := h.inText.col
  rw [typeChar, if_neg h0] at hfit ⊢
  obtain ⟨hp, hmark⟩ | rfl | rfl | rfl := printable_or_mark h0 hr
  case inl =>
    rw [hmark, Page.step, List.length_append, List.length_singleton, ← hpos] at hfit ⊢
    exact position_glyph h.inText hp hfit
  case inr.inl =>
    have hback : mark 0x08 = .back := rfl
    rw [hback, Page.step, h.mod_length, position_back h.inText, hpos, apply_ite List.length,
      List.length_dropLast]
  case inr.inr.inl =>
    have htabmark : mark 0x09 = .tab := rfl
    rw [htabmark, Page.step, h.mod_length, List.length_append, List.length_replicate, ← hpos]
      at hfit ⊢
    exact position_tab h.inText hx hfit
  case inr.inr.inr =>
    have hline : mark 0x0a = .line := rfl
    have hlen : p.length + (x.console.consoleWidth - x.console.col) =
        x.console.row * x.console.consoleWidth + x.console.consoleWidth := by
      rw [← hpos, ConsoleState.position]
      omega
    rw [hline, Page.step, h.mod_length, List.length_append, List.length_replicate, hlen] at hfit ⊢
    exact position_line h.inText hfit

/-- What a character draws is what it adds to the page. -/
theorem cells_printChar (h : Shows info x p) {ch : BitVec 8} (h0 : ch ≠ 0) (hr : ch ≠ 0x0d)
    {c r : Nat} (hc : c < x.console.consoleWidth) :
    (screenStep info fontData x (.printChar ch)).text c r =
      Page.cell 0x20 (typeChar x.console.consoleWidth p ch) (r * x.console.consoleWidth + c) := by
  have hpos : x.console.row * x.console.consoleWidth + x.console.col = p.length := h.position
  have hcol := h.inText.col
  rw [h.text h0, typeChar, if_neg h0]
  obtain ⟨hp, hmark⟩ | rfl | rfl | rfl := printable_or_mark h0 hr
  case inl =>
    rw [hmark, Page.step, Page.cell_glyph, ← hpos, if_congr (index_eq_iff hc hcol) rfl rfl,
      ← h.cells c r hc, ConsoleState.switchDraws, if_pos hp]
    show (if (c : Int) = x.console.col ∧ (r : Int) = x.console.row then ch else _) = _
    simp only [Int.ofNat_inj]
  case inr.inl =>
    have hback : mark 0x08 = .back := rfl
    have hnot : ¬ Printable 0x08 := by decide
    rw [hback, Page.step, h.mod_length, ConsoleState.switchDraws, if_neg hnot]
    by_cases hzero : x.console.col = 0
    · rw [if_neg fun hand => absurd hand.2 (by omega), if_pos hzero]
      exact h.cells c r hc
    · have hlast : p.length - 1 = x.console.row * x.console.consoleWidth + (x.console.col - 1) := by
        omega
      rw [if_pos ⟨rfl, by omega⟩, if_neg hzero, Page.cell_dropLast, hlast,
        if_congr (index_eq_iff hc (by omega)) rfl rfl, ← h.cells c r hc]
      show (if (c : Int) = (x.console.col - 1 : Nat) ∧ (r : Int) = x.console.row then _ else _) = _
      simp only [Int.ofNat_inj]
      rfl
  case inr.inr.inl =>
    have htabmark : mark 0x09 = .tab := rfl
    rw [htabmark, Page.step, Page.cell_skip]
    exact h.cells c r hc
  case inr.inr.inr =>
    have hline : mark 0x0a = .line := rfl
    rw [hline, Page.step, Page.cell_skip]
    exact h.cells c r hc

/-- **print_char is a step of the page.** -/
theorem printChar (h : Shows info x p) (hx : 64 ≤ info.xResolution.toNat) {ch : BitVec 8}
    (hr : ch ≠ 0x0d)
    (hfit : (typeChar x.console.consoleWidth p ch).length <
      x.console.consoleWidth * x.console.consoleHeight) :
    Shows info (screenStep info fontData x (.printChar ch))
      (typeChar x.console.consoleWidth p ch) := by
  by_cases h0 : ch = 0
  · subst h0
    have hconsole : (screenStep info fontData x (.printChar 0)).console = x.console :=
      @printChar_nul info fontData x.console
    have hpage : typeChar x.console.consoleWidth p 0 = p := if_pos rfl
    rw [hpage]
    constructor
    case inText =>
      rw [hconsole]
      exact h.inText
    case position =>
      rw [hconsole]
      exact h.position
    case cells =>
      rw [hconsole, text_printNul]
      exact h.cells
  · refine ⟨h.inText.printChar fontData hx ch, h.position_printChar hx h0 hr hfit, ?_⟩
    intro c r hc
    have hwidth := @consoleWidth_printChar info fontData x h.inText hx ch
    change c < (Console.printChar info fontData x.console ch).consoleWidth at hc
    show _ = Page.cell 0x20 _
      (r * (Console.printChar info fontData x.console ch).consoleWidth + c)
    rw [hwidth] at hc ⊢
    exact h.cells_printChar h0 hr hc

/-- toggle_cursor takes nothing off the page. -/
theorem toggleCursor (h : Shows info x p) :
    Shows info (screenStep info fontData x .toggleCursor) p := by
  have htext : (screenStep info fontData x .toggleCursor).text = x.text := by
    rw [text_toggleCursor, put_erase h.blank, ite_self]
  obtain ⟨-, -, hcol, hrow⟩ := toggleCursor_keeps info fontData x.console
  have hnext := h.inText.toggleCursor fontData
  have hwidth : (Console.toggleCursor info fontData x.console).consoleWidth =
      x.console.consoleWidth := hnext.width.trans h.inText.width.symm
  constructor
  case inText => exact hnext
  case position =>
    show (Console.toggleCursor info fontData x.console).row *
      (Console.toggleCursor info fontData x.console).consoleWidth +
      (Console.toggleCursor info fontData x.console).col = p.length
    rw [hrow, hcol, hwidth]
    exact h.position
  case cells =>
    intro c r hc
    rw [htext]
    show _ = Page.cell 0x20 p
      (r * (Console.toggleCursor info fontData x.console).consoleWidth + c)
    rw [hwidth]
    exact h.cells c r (hwidth ▸ hc)

end Shows

/-! ## Runs -/

def TextOp.char? : TextOp → Option (BitVec 8)
  | .printChar ch => some ch
  | .toggleCursor => none

/-- The text that the calls print. -/
def chars (ops : List TextOp) : List (BitVec 8) := ops.filterMap TextOp.char?

theorem chars_append (ops ops' : List TextOp) : chars (ops ++ ops') = chars ops ++ chars ops' :=
  List.filterMap_append

theorem Shows.step (h : Shows info x p) (hx : 64 ≤ info.xResolution.toNat) (op : TextOp)
    (hop : ∀ ch ∈ chars [op], ch ≠ 0x0d ∧
      (typeChar x.console.consoleWidth p ch).length <
        x.console.consoleWidth * x.console.consoleHeight) :
    Shows info (screenStep info fontData x op)
      ((chars [op]).foldl (typeChar x.console.consoleWidth) p) := by
  cases op with
  | printChar ch =>
    obtain ⟨hr, hfit⟩ := hop ch List.mem_cons_self
    exact h.printChar hx hr hfit
  | toggleCursor => exact h.toggleCursor

/-- **The screen shows the page of the text**, while it stays on the screen. -/
theorem shows_run (h : Shows info x []) (hx : 64 ≤ info.xResolution.toNat) {ops : List TextOp}
    (hr : 0x0d ∉ chars ops)
    (hfit : FitsScreen (info.xResolution.toNat / 8) (info.yResolution.toNat / 16) (chars ops)) :
    Shows info (ops.foldl (screenStep info fontData) x)
      (page (info.xResolution.toNat / 8) (chars ops)) := by
  induction ops using List.reverseRecOn with
  | nil => exact h
  | append_singleton ops op ih =>
    rw [chars_append] at hr hfit ⊢
    have hprev := ih (fun h => hr (List.mem_append_left _ h))
      (hfit.of_prefix (List.prefix_append _ _))
    have hnext := @Shows.step info fontData _ _ hprev hx op fun ch hch => by
      rw [hprev.inText.width, hprev.inText.height]
      have hmem : ch ∈ chars ops ++ chars [op] := List.mem_append_right _ hch
      have hone : chars [op] = [ch] := by
        cases op with
        | printChar ch' => exact congrArg (fun c => [c]) (List.mem_singleton.mp hch).symm
        | toggleCursor => exact absurd hch List.not_mem_nil
      have hlen := hfit _ (List.prefix_refl _)
      rw [hone, page_snoc] at hlen
      exact ⟨fun h => hr (h ▸ hmem), hlen⟩
    rw [hprev.inText.width] at hnext
    rw [List.foldl_append, page, List.foldl_append]
    exact hnext

/-- What holds of blanks and of the printable characters of a text holds of its page. -/
theorem forall_mem_page {P : BitVec 8 → Prop} (hblank : P 0x20) {W : Nat} {text : List (BitVec 8)}
    (hr : 0x0d ∉ text) (h : ∀ ch ∈ text, Printable ch → P ch) : ∀ ch ∈ page W text, P ch := by
  have hskip : ∀ {p : List (BitVec 8)} (k : Nat), (∀ ch ∈ p, P ch) →
      ∀ ch ∈ p ++ List.replicate k 0x20, P ch := fun k hp =>
    List.forall_mem_append.mpr ⟨hp, fun ch hch => (List.eq_of_mem_replicate hch) ▸ hblank⟩
  induction text using List.reverseRecOn with
  | nil => exact fun ch hch => absurd hch List.not_mem_nil
  | append_singleton text ch ih =>
    rw [List.mem_append, not_or, List.mem_singleton] at hr
    obtain ⟨hprev, hlast⟩ := List.forall_mem_append.mp h
    have hp := ih hr.1 hprev
    rw [page_snoc, typeChar]
    by_cases h0 : ch = 0
    · rw [if_pos h0]
      exact hp
    · rw [if_neg h0]
      obtain ⟨hprint, hmark⟩ | rfl | rfl | rfl := printable_or_mark h0 (Ne.symm hr.2)
      case inl =>
        rw [hmark]
        exact List.forall_mem_append.mpr
          ⟨hp, List.forall_mem_singleton.mpr (hlast ch List.mem_cons_self hprint)⟩
      case inr.inl =>
        show ∀ ch ∈ if (page W text).length % W = 0 then page W text else (page W text).dropLast, P ch
        split
        · exact hp
        · exact fun ch hch => hp ch (List.mem_of_mem_dropLast hch)
      case inr.inr.inl => exact hskip _ hp
      case inr.inr.inr => exact hskip _ hp

/-! ## Lines -/

/-- The text of whole lines. -/
def linesText (lines : List (List (BitVec 8))) : List (BitVec 8) :=
  lines.flatMap fun l => l ++ [0x0a]

/-- Lines of printable characters, each shorter than a row. -/
def ShortLines (W : Nat) (lines : List (List (BitVec 8))) : Prop :=
  ∀ l ∈ lines, l.length < W ∧ ∀ ch ∈ l, Printable ch

instance (W : Nat) (lines : List (List (BitVec 8))) : Decidable (ShortLines W lines) :=
  inferInstanceAs (Decidable (∀ l ∈ lines, _ ∧ _))

theorem mark_of_printable {ch : BitVec 8} (h : Printable ch) : ch ≠ 0 ∧ mark ch = .glyph ch := by
  simp only [Printable, List.mem_cons, List.not_mem_nil, or_false, not_or] at h
  obtain ⟨h0, hb, ht, hn, -⟩ := h
  exact ⟨h0, by rw [mark, if_neg hb, if_neg hn, if_neg ht]⟩

theorem foldl_typeChar (W : Nat) {text : List (BitVec 8)} (h : ∀ ch ∈ text, ch ≠ 0)
    (p : List (BitVec 8)) :
    text.foldl (typeChar W) p = (text.map mark).foldl (Page.step W (tabSkip W) 0x20) p := by
  induction text generalizing p with
  | nil => rfl
  | cons ch text ih =>
    obtain ⟨h0, hrest⟩ := List.forall_mem_cons.mp h
    rw [List.map_cons, List.foldl_cons, List.foldl_cons, typeChar, if_neg h0, ih hrest]

theorem map_mark_linesText {W : Nat} {lines : List (List (BitVec 8))} (h : ShortLines W lines) :
    (linesText lines).map mark = Page.marks lines := by
  unfold linesText Page.marks
  rw [List.map_flatMap]
  refine List.flatMap_congr fun l hl => ?_
  rw [List.map_append, List.map_singleton]
  exact congrArg₂ List.append (List.map_congr_left fun ch hch =>
    (mark_of_printable ((h l hl).2 ch hch)).2) rfl

/-- Its characters are printable, or ends of lines. -/
theorem not_mem_linesText {W : Nat} {lines : List (List (BitVec 8))} (h : ShortLines W lines)
    {ch : BitVec 8} (hp : ¬ Printable ch) (hn : ch ≠ 0x0a) : ch ∉ linesText lines := by
  intro hch
  obtain ⟨l, hl, hmem⟩ := List.mem_flatMap.mp hch
  obtain hin | hend := List.mem_append.mp hmem
  · exact hp ((h l hl).2 ch hin)
  · exact hn (List.mem_singleton.mp hend)

theorem page_linesText {W : Nat} {lines : List (List (BitVec 8))} (h : ShortLines W lines) :
    page W (linesText lines) = (Page.marks lines).foldl (Page.step W (tabSkip W) 0x20) [] := by
  rw [page, foldl_typeChar, map_mark_linesText h]
  exact fun ch hch h0 => not_mem_linesText h (by decide) (by decide) (h0 ▸ hch)

/-- Only a backspace shortens the page. -/
theorem length_le_typeChar (W : Nat) (p : List (BitVec 8)) {ch : BitVec 8} (h : ch ≠ 0x08) :
    p.length ≤ (typeChar W p ch).length := by
  unfold typeChar mark
  by_cases h0 : ch = 0
  · rw [if_pos h0]
  · rw [if_neg h0, if_neg h]
    split_ifs
    all_goals
      rw [Page.step, List.length_append]
      exact Nat.le_add_right _ _

theorem length_page_le (W : Nat) {pre rest : List (BitVec 8)} (h : 0x08 ∉ rest) :
    (page W pre).length ≤ (page W (pre ++ rest)).length := by
  induction rest using List.reverseRecOn with
  | nil =>
    rw [List.append_nil]
  | append_singleton rest ch ih =>
    rw [List.mem_append, not_or, List.mem_singleton] at h
    rw [← List.append_assoc, page_snoc]
    exact Nat.le_trans (ih h.1) (length_le_typeChar W _ (Ne.symm h.2))

theorem length_page_linesText {W : Nat} {lines : List (List (BitVec 8))} (h : ShortLines W lines) :
    (page W (linesText lines)).length = lines.length * W := by
  rw [page_linesText h, Page.foldl_lines (p := []) (fun l hl => (h l hl).1) (Nat.zero_mod W),
    List.nil_append]
  have hrow : ∀ l ∈ lines,
      (l ++ List.replicate (W - l.length) (0x20 : BitVec 8)).length = W := by
    intro l hl
    have hlt := (h l hl).1
    rw [List.length_append, List.length_replicate]
    omega
  rw [List.length_flatMap, List.map_congr_left hrow, List.map_const', List.sum_replicate_nat]

theorem noReturn_linesText {W : Nat} {lines : List (List (BitVec 8))} (h : ShortLines W lines) :
    0x0d ∉ linesText lines := not_mem_linesText h (by decide) (by decide)

/-- Fewer lines than rows stay on the screen. -/
theorem fitsScreen_linesText {W H : Nat} {lines : List (List (BitVec 8))} (h : ShortLines W lines)
    (hW : 0 < W) (hlines : lines.length < H) : FitsScreen W H (linesText lines) := by
  rintro pre ⟨rest, hrest⟩
  have hback : 0x08 ∉ rest := fun hmem =>
    not_mem_linesText h (by decide) (by decide) (hrest ▸ List.mem_append_right pre hmem)
  have hle := @length_page_le W pre rest hback
  rw [hrest, length_page_linesText h] at hle
  refine Nat.lt_of_le_of_lt hle ?_
  rw [Nat.mul_comm]
  exact Nat.mul_lt_mul_of_pos_left hlines hW

end ListaOS.Console
