/-
  The text on the screen, and what changes it.

  The text of a cell is the character last drawn there, without the cursor glyph. print_char
  draws a blank at the cursor before it looks at the character, and toggle_cursor draws one
  when it takes the glyph off, so a cell under the cursor can lose its text. `TextLaw` is
  the intended law of a step; `textLaw_iff` says when a step keeps it.
-/
import ListaOS.Console.Basic
import ListaOS.Lib.Run

namespace ListaOS.Console

open Lib

/-- A call that draws text. -/
inductive TextOp where
  | printChar (ch : BitVec 8)
  | toggleCursor

def TextOp.toConsole : TextOp → ConsoleOp
  | .printChar ch => .printChar ch
  | .toggleCursor => .toggleCursor

/-- The character last drawn at column `c` of row `r`. -/
abbrev TextGrid := Int → Int → BitVec 8

def TextGrid.put (g : TextGrid) (d : FontCall) : TextGrid :=
  fun c r => if c = d.col ∧ r = d.row then d.ch else g c r

structure Screen where
  console : ConsoleState
  text : TextGrid

namespace Screen

/-- The cursor stands on a blank. -/
def Blank (x : Screen) : Prop := x.text x.console.col x.console.row = 0x20

instance (x : Screen) : Decidable x.Blank := inferInstanceAs (Decidable (_ = _))

end Screen

/-- Whether what the call draws is the cursor glyph. -/
def glyph (s : ConsoleState) : TextOp → Bool
  | .printChar _ => false
  | .toggleCursor => !s.cursorState

section

variable (info : VbeModeInfo) (fontData : Int → BitVec 8)

/-- The step of the console, with the text of the calls of `_draw_font` it made. -/
def screenStep (x : Screen) (op : TextOp) : Screen :=
  let s := consoleStep info fontData x.console op.toConsole
  { console := s
    text :=
      if glyph x.console op then x.text
      else (s.drawn.drop x.console.drawn.length).foldl TextGrid.put x.text }

end

/-- The characters of the `default` branch. -/
def Printable (ch : BitVec 8) : Prop := ch ∉ [(0x00 : BitVec 8), 0x08, 0x09, 0x0a, 0x0d]

instance (ch : BitVec 8) : Decidable (Printable ch) := inferInstanceAs (Decidable (¬ _))

/-- The cells that a call may change: where a printable character is printed, and where '\b'
moves the cursor to. -/
def MayChange (s : ConsoleState) (c r : Int) : TextOp → Prop
  | .printChar ch =>
      Printable ch ∧ c = s.col ∧ r = s.row ∨
        ch = 0x08 ∧ 0 < s.col ∧ c = (s.col - 1 : Nat) ∧ r = s.row
  | .toggleCursor => False

/-- A call changes the text of these cells only. -/
def TextLaw (info : VbeModeInfo) (fontData : Int → BitVec 8) (x : Screen) (op : TextOp) : Prop :=
  ∀ c r, (screenStep info fontData x op).text c r ≠ x.text c r → MayChange x.console c r op

/-- A call that blanks the cell under the cursor finds it blank. -/
def ErasesBlank (x : Screen) : TextOp → Prop
  | .printChar ch => ch = 0x00 ∨ Printable ch ∨ x.Blank
  | .toggleCursor => x.console.cursorState = false ∨ x.Blank

instance (x : Screen) : ∀ op, Decidable (ErasesBlank x op)
  | .printChar _ => inferInstanceAs (Decidable (_ ∨ _))
  | .toggleCursor => inferInstanceAs (Decidable (_ ∨ _))

/-! ## What print_char draws -/

namespace ConsoleState

/-- A character at column `col` of the cursor's row. -/
def fontCall (s : ConsoleState) (ch : BitVec 8) (col : Nat) : FontCall :=
  ⟨ch, col, s.row, s.fontColor, s.backColor⟩

/-- The calls of `_draw_font` in the `switch` of print_char. -/
def switchDraws (s : ConsoleState) (ch : BitVec 8) : List FontCall :=
  if Printable ch then [s.fontCall ch s.col]
  else if ch = 0x08 ∧ 0 < s.col then [s.fontCall 0x20 (s.col - 1)]
  else []

end ConsoleState

variable {info : VbeModeInfo} {fontData : Int → BitVec 8}

@[simp] theorem drawn_clampRow (s : ConsoleState) : (clampRow s).drawn = s.drawn := by
  unfold clampRow
  split <;> rfl

theorem drawn_printSwitch (s : ConsoleState) {ch : BitVec 8} (h0 : ch ≠ 0) :
    (printSwitch info fontData s ch).drawn = s.drawn ++ s.switchDraws ch := by
  have happ : s.drawn = s.drawn ++ [] := (List.append_nil _).symm
  unfold printSwitch
  split
  case isTrue hb =>
    subst hb
    have hdraws : s.switchDraws 0x08 = if 0 < s.col then [s.fontCall 0x20 (s.col - 1)] else [] := by
      simp [ConsoleState.switchDraws, Printable]
    rw [hdraws]
    split
    · rfl
    · exact happ
  case isFalse hb =>
    have hnone : ¬ Printable ch → s.switchDraws ch = [] := fun hp => by
      rw [ConsoleState.switchDraws, if_neg hp, if_neg fun h => hb h.1]
    split
    case isTrue hn =>
      rw [hnone (by rw [hn]; decide)]
      exact happ
    case isFalse hn =>
      split
      case isTrue hr =>
        rw [hnone (by rw [hr]; decide)]
        exact happ
      case isFalse hr =>
        split
        case isTrue ht =>
          rw [hnone (by rw [ht]; decide)]
          exact happ
        case isFalse ht =>
          have hp : Printable ch := by
            simp only [Printable, List.mem_cons, List.not_mem_nil, or_false, not_or]
            exact ⟨h0, hb, ht, hn, hr⟩
          rw [ConsoleState.switchDraws, if_pos hp]
          rfl

theorem drawn_printChar (s : ConsoleState) {ch : BitVec 8} (h0 : ch ≠ 0) :
    (printChar info fontData s ch).drawn =
      s.drawn ++ s.fontCall 0x20 s.col :: s.switchDraws ch := by
  unfold printChar
  rw [if_neg h0, drawn_clampRow, drawn_printSwitch _ h0]
  exact List.append_assoc s.drawn [_] _

/-- With the glyph shown, toggle_cursor draws a blank over it. -/
theorem drawn_toggleCursor {s : ConsoleState} (h : s.cursorState = true) :
    (toggleCursor info fontData s).drawn = s.drawn ++ [s.fontCall 0x20 s.col] := by
  unfold toggleCursor
  rw [if_pos h]
  rfl

/-! ## The text after a step -/

section

variable (info fontData) (x : Screen)

theorem text_printChar {ch : BitVec 8} (h0 : ch ≠ 0) :
    (screenStep info fontData x (.printChar ch)).text =
      (x.console.switchDraws ch).foldl TextGrid.put
        (x.text.put (x.console.fontCall 0x20 x.console.col)) := by
  show ((printChar info fontData x.console ch).drawn.drop _).foldl TextGrid.put x.text = _
  rw [drawn_printChar x.console h0, List.drop_left, List.foldl_cons]

theorem text_printNul : (screenStep info fontData x (.printChar 0)).text = x.text := by
  show ((printChar info fontData x.console 0).drawn.drop _).foldl TextGrid.put x.text = _
  unfold printChar
  rw [if_pos rfl, List.drop_length, List.foldl_nil]

theorem text_toggleCursor :
    (screenStep info fontData x .toggleCursor).text =
      if x.console.cursorState then x.text.put (x.console.fontCall 0x20 x.console.col)
      else x.text := by
  cases h : x.console.cursorState with
  | false => simp [screenStep, glyph, h]
  | true =>
    have hglyph : glyph x.console .toggleCursor = false := by rw [glyph, h, Bool.not_true]
    show (if glyph x.console .toggleCursor then x.text
      else ((toggleCursor info fontData x.console).drawn.drop _).foldl TextGrid.put x.text) = _
    rw [hglyph, drawn_toggleCursor h, List.drop_left]
    rfl

end

variable {x : Screen}

theorem put_self (g : TextGrid) (d : FontCall) : g.put d d.col d.row = d.ch := if_pos ⟨rfl, rfl⟩

theorem eq_of_put_ne {g : TextGrid} {d : FontCall} {c r : Int} (h : g.put d c r ≠ g c r) :
    c = d.col ∧ r = d.row := by
  by_contra hne
  exact h (if_neg hne)

/-- On a blank, drawing a blank changes nothing. -/
theorem put_erase (h : x.Blank) : x.text.put (x.console.fontCall 0x20 x.console.col) = x.text := by
  funext c r
  by_contra hne
  obtain ⟨rfl, rfl⟩ := eq_of_put_ne hne
  exact hne ((put_self _ _).trans h.symm)

theorem textLaw_printable {ch : BitVec 8} (h0 : ch ≠ 0) (hp : Printable ch) :
    TextLaw info fontData x (.printChar ch) := by
  intro c r hne
  refine Or.inl ⟨hp, ?_⟩
  rw [text_printChar info fontData x h0, ConsoleState.switchDraws, if_pos hp] at hne
  by_contra hcell
  exact hne ((if_neg hcell).trans (if_neg hcell))

/-- '\b', '\n', '\r' and '\t' blank the cell under the cursor. -/
theorem textLaw_control_iff {ch : BitVec 8} (h0 : ch ≠ 0) (hp : ¬ Printable ch) :
    TextLaw info fontData x (.printChar ch) ↔ x.Blank := by
  constructor
  · intro hlaw
    by_contra hblank
    have herased : (screenStep info fontData x (.printChar ch)).text x.console.col
        x.console.row = 0x20 := by
      rw [text_printChar info fontData x h0, ConsoleState.switchDraws, if_neg hp]
      split
      case isTrue hb =>
        have hleft : ¬ ((x.console.col : Int) = (x.console.col - 1 : Nat) ∧
            (x.console.row : Int) = x.console.row) := by omega
        exact (if_neg hleft).trans (put_self _ _)
      case isFalse => exact put_self _ _
    have hmay := hlaw x.console.col x.console.row fun heq => hblank (heq.symm.trans herased)
    obtain ⟨hp', -⟩ | ⟨-, hpos, hleft, -⟩ := hmay
    · exact hp hp'
    · omega
  · intro hblank c r hne
    rw [text_printChar info fontData x h0, put_erase hblank, ConsoleState.switchDraws,
      if_neg hp] at hne
    split at hne
    case isTrue hb =>
      obtain ⟨hc, hr⟩ := eq_of_put_ne hne
      exact Or.inr ⟨hb.1, hb.2, hc, hr⟩
    case isFalse => exact absurd rfl hne

theorem textLaw_toggleCursor_iff :
    TextLaw info fontData x .toggleCursor ↔ x.console.cursorState = false ∨ x.Blank := by
  by_cases hshown : x.console.cursorState = true
  · constructor
    · intro hlaw
      refine Or.inr (by_contra fun hblank => hlaw x.console.col x.console.row ?_)
      rw [text_toggleCursor, if_pos hshown]
      exact fun heq => hblank (heq.symm.trans (put_self _ _))
    · intro hcond c r hne
      have hblank : x.Blank := hcond.resolve_left (by simp [hshown])
      rw [text_toggleCursor, if_pos hshown, put_erase hblank] at hne
      exact absurd rfl hne
  · refine iff_of_true (fun c r hne => absurd ?_ hne) (Or.inl (by simpa using hshown))
    rw [text_toggleCursor, if_neg hshown]

/-- **A step keeps the law** exactly if what it blanks under the cursor is blank. -/
theorem textLaw_iff (x : Screen) (op : TextOp) : TextLaw info fontData x op ↔ ErasesBlank x op := by
  cases op with
  | printChar ch =>
    by_cases h0 : ch = 0
    · subst h0
      refine iff_of_true (fun c r hne => absurd ?_ hne) (Or.inl rfl)
      rw [text_printNul]
    by_cases hp : Printable ch
    · exact iff_of_true (textLaw_printable h0 hp) (Or.inr (Or.inl hp))
    · exact (textLaw_control_iff h0 hp).trans
        ⟨fun hblank => Or.inr (Or.inr hblank), fun h => (h.resolve_left h0).resolve_left hp⟩
  | toggleCursor => exact textLaw_toggleCursor_iff

/-- **Text on the screen.** In a run from any state, every call changes the text only where it
prints a character or backspaces to, exactly if every call that blanks the cell under the
cursor finds it blank. -/
theorem text_law_iff (info : VbeModeInfo) (fontData : Int → BitVec 8) (x : Screen)
    (ops : List TextOp) :
    Along (screenStep info fontData) (TextLaw info fontData) x ops ↔
      Along (screenStep info fontData) ErasesBlank x ops :=
  Along.congr (fun x op => textLaw_iff x op) x ops

/-- 'A', '\r' and '\n' on an empty screen of 80x25 cells: the '\n' takes the 'A' away. -/
theorem newline_erases_text :
    let info : VbeModeInfo := ⟨0x98, 2560, 640, 400, 32, 6, 0xe0000000⟩
    let x : Screen :=
      ⟨consoleInit info (ConsoleState.boot (Mem.fresh fun _ => 0)), fun _ _ => 0x20⟩
    let step := screenStep info fun _ => 0
    x.console.col < x.console.consoleWidth ∧ x.console.row < x.console.consoleHeight ∧
      ([.printChar 0x41, .printChar 0x0d].foldl step x).text 0 0 = 0x41 ∧
      ([.printChar 0x41, .printChar 0x0d, .printChar 0x0a].foldl step x).text 0 0 = 0x20 ∧
      ¬ Along step (TextLaw info fun _ => 0) x [.printChar 0x41, .printChar 0x0d, .printChar 0x0a] := by
  intro info x step
  refine ⟨by decide, by decide, by decide, by decide, ?_⟩
  rw [Along.congr fun x op => textLaw_iff x op]
  decide

end ListaOS.Console
