/-
  The text console (libkernel/console.c).

  `row` and `col` are `unsigned int`: they wrap at 2^32. The `int` arguments of _draw_font
  are `Int`. A zero `consoleWidth` is a divide error in print_char; no statement is about
  one. The font table is a parameter: `fontData i` is the byte at index `i`, whatever the
  index. `drawn` is the log of the _draw_font calls.
-/
import ListaOS.Console.Display

namespace ListaOS.Console

open Lib

/-- A call of `_draw_font`. -/
structure FontCall where
  ch : BitVec 8
  col : Int
  row : Int
  fontColor : RGB
  backColor : RGB

structure ConsoleState where
  row : Nat
  col : Nat
  cursorState : Bool
  consoleWidth : Nat
  consoleHeight : Nat
  backColor : RGB
  cursorColor : RGB
  fontColor : RGB
  vram : Mem (BitVec 8)
  drawn : List FontCall

/-- Zeroed .bss. -/
def ConsoleState.boot (vram : Mem (BitVec 8)) : ConsoleState where
  row := 0
  col := 0
  cursorState := false
  consoleWidth := 0
  consoleHeight := 0
  backColor := ⟨0, 0, 0⟩
  cursorColor := ⟨0, 0, 0⟩
  fontColor := ⟨0, 0, 0⟩
  vram := vram
  drawn := []

section

variable (info : VbeModeInfo) (fontData : Int → BitVec 8)

def consoleInit (s : ConsoleState) : ConsoleState :=
  let display := getDisplayInfo info
  { s with
    fontColor := colorWhite
    cursorColor := colorGrey
    backColor := colorBlack
    consoleWidth := display.width / 8
    consoleHeight := display.height / 16 }

/-- The inner loop of `_draw_font`: pixels `j`, `j + 1`, ... of a line, `n` of them. -/
def drawLine (col row : Int) (fontColor backColor : RGB) :
    Nat → Nat → BitVec 8 → Mem (BitVec 8) → Mem (BitVec 8)
  | 0, _, _, m => m
  | n + 1, j, data, m =>
      let m :=
        if data &&& 0x80 ≠ 0 then drawPixel info (col + j) row fontColor m
        else drawPixel info (col + j) row backColor m
      drawLine col row fontColor backColor n (j + 1) (data <<< 1) m

/-- `_draw_font`; `char` is signed. -/
def drawFont (d : FontCall) (m : Mem (BitVec 8)) : Mem (BitVec 8) :=
  let col := d.col * 8
  let row := d.row * 16
  (List.range 16).foldl
    (fun m (i : Nat) =>
      drawLine info col (row + i) d.fontColor d.backColor 8 0 (fontData (d.ch.toInt * 16 + i)) m)
    m

def ConsoleState.draw (s : ConsoleState) (d : FontCall) : ConsoleState :=
  { s with
    vram := drawFont info fontData d s.vram
    drawn := s.drawn ++ [d] }

/-- `_draw_font(ch, col, row, FONT_COLOR, BACK_COLOR)`. -/
def ConsoleState.drawChar (s : ConsoleState) (ch : BitVec 8) : ConsoleState :=
  s.draw info fontData ⟨ch, s.col, s.row, s.fontColor, s.backColor⟩

/-- The `switch` of `print_char`. -/
def printSwitch (s : ConsoleState) (ch : BitVec 8) : ConsoleState :=
  if ch = 0x08 then -- '\b'
    if 0 < s.col then
      let s := { s with col := s.col - 1 }
      s.drawChar info fontData 0x20
    else s
  else if ch = 0x0a then -- '\n'
    { s with row := (s.row + 1) % 2 ^ 32, col := 0 }
  else if ch = 0x0d then -- '\r'
    { s with col := 0 }
  else if ch = 0x09 then -- '\t'
    { s with
      row := (s.row + (s.col + 8) % 2 ^ 32 / s.consoleWidth) % 2 ^ 32
      col := (s.col + 8 - s.col % 8) % 2 ^ 32 % s.consoleWidth }
  else
    let s := s.drawChar info fontData ch
    { s with
      row := (s.row + (s.col + 1) % 2 ^ 32 / s.consoleWidth) % 2 ^ 32
      col := (s.col + 1) % 2 ^ 32 % s.consoleWidth }

/-- `if (row == consoleHeight) row--;` -/
def clampRow (s : ConsoleState) : ConsoleState :=
  if s.row = s.consoleHeight then { s with row := (s.row + (2 ^ 32 - 1)) % 2 ^ 32 } else s

def printChar (s : ConsoleState) (ch : BitVec 8) : ConsoleState :=
  if ch = 0 then s
  else clampRow (printSwitch info fontData (s.drawChar info fontData 0x20) ch)

def toggleCursor (s : ConsoleState) : ConsoleState :=
  let s :=
    if s.cursorState then s.drawChar info fontData 0x20
    else s.draw info fontData ⟨0x7c, s.col, s.row, s.cursorColor, s.backColor⟩
  { s with cursorState := !s.cursorState }

/-- A call into the console or the display. -/
inductive ConsoleOp where
  | printChar (ch : BitVec 8)
  | toggleCursor
  | screenClear

def consoleStep (s : ConsoleState) : ConsoleOp → ConsoleState
  | .printChar ch => printChar info fontData s ch
  | .toggleCursor => toggleCursor info fontData s
  | .screenClear => { s with vram := screenClear info s.vram }

end

/-! ## Cells -/

/-- The bytes of the 8x16 pixels of a cell. -/
def cellBytes (info : VbeModeInfo) (col row : Nat) : Set Nat :=
  {a | ∃ j < 8, ∃ i < 16, a ∈ pixelBytes info (8 * col + j) (16 * row + i)}

/-- The cell lies in the text grid of the mode. -/
def InGrid (info : VbeModeInfo) (col row : Nat) : Prop :=
  col < info.xResolution.toNat / 8 ∧ row < info.yResolution.toNat / 16

namespace InGrid

variable {info : VbeModeInfo} {col row : Nat}

theorem pixel_lt (h : InGrid info col row) {j i : Nat} (hj : j < 8) (hi : i < 16) :
    8 * col + j < info.xResolution.toNat ∧ 16 * row + i < info.yResolution.toNat := by
  obtain ⟨hc, hr⟩ := h
  exact ⟨by omega, by omega⟩

theorem cellBytes_subset_window (h : InGrid info col row) (hs : Suitable info) :
    cellBytes info col row ⊆ window := by
  intro a ha
  obtain ⟨j, hj, i, hi, hpix⟩ := ha
  obtain ⟨hx, hy⟩ := h.pixel_lt hj hi
  exact hs.pixelBytes_subset_window hx hy hpix

/-- Distinct cells share no byte. -/
theorem cellBytes_disjoint (h : InGrid info col row) {col' row' : Nat}
    (h' : InGrid info col' row') (hne : (col, row) ≠ (col', row')) :
    Disjoint (cellBytes info col row) (cellBytes info col' row') := by
  rw [Set.disjoint_left]
  intro a ha ha'
  obtain ⟨j, hj, i, hi, hpix⟩ := ha
  obtain ⟨j', hj', i', hi', hpix'⟩ := ha'
  have hpixel : (8 * col + j, 16 * row + i) ≠ (8 * col' + j', 16 * row' + i') := by
    intro heq
    obtain ⟨hx, hy⟩ := Prod.mk.inj heq
    apply hne
    rw [show col = col' by omega, show row = row' by omega]
  have hdisj := Suitable.pixelBytes_disjoint (h.pixel_lt hj hi).1 (h'.pixel_lt hj' hi').1 hpixel
  exact Set.disjoint_left.mp hdisj hpix hpix'

end InGrid

variable {info : VbeModeInfo} {fontData : Int → BitVec 8}

/-- A line of the glyph stores into its 8 pixels. -/
theorem writesIn_drawLine (hs : Suitable info) {col row i : Nat} (h : InGrid info col row)
    (hi : i < 16) {S : Set Nat} (hS : ∀ j < 8, pixelBytes info (8 * col + j) (16 * row + i) ⊆ S)
    (fontColor backColor : RGB) (n j : Nat) (hj : j + n ≤ 8) (data : BitVec 8)
    (m : Mem (BitVec 8)) :
    Mem.WritesIn S m
      (drawLine info ((col : Int) * 8) ((row : Int) * 16 + i) fontColor backColor n j data m) := by
  induction n generalizing j data m with
  | zero => exact Mem.WritesIn.refl _ m
  | succ n ih =>
    have hj8 : j < 8 := by omega
    obtain ⟨hx, hy⟩ := h.pixel_lt hj8 hi
    have hpixel : ∀ rgb, Mem.WritesIn S m
        (drawPixel info ((col : Int) * 8 + j) ((row : Int) * 16 + i) rgb m) := by
      intro rgb
      have hcol : (col : Int) * 8 + j = ((8 * col + j : Nat) : Int) := by omega
      have hrow : (row : Int) * 16 + i = ((16 * row + i : Nat) : Int) := by omega
      rw [hcol, hrow]
      exact (hs.writesIn_drawPixel hx hy rgb m).mono (hS j hj8)
    refine Mem.WritesIn.trans ?_ (ih (j + 1) (by omega) (data <<< 1) _)
    split
    · exact hpixel fontColor
    · exact hpixel backColor

/-- **_draw_font stays in its cell.** -/
theorem writesIn_drawFont (hs : Suitable info) {col row : Nat} (h : InGrid info col row)
    (ch : BitVec 8) (fontColor backColor : RGB) (m : Mem (BitVec 8)) :
    Mem.WritesIn (cellBytes info col row) m
      (drawFont info fontData ⟨ch, col, row, fontColor, backColor⟩ m) := by
  unfold drawFont
  apply Mem.WritesIn.foldl
  intro i hi m
  have hi16 := List.mem_range.mp hi
  have hcell : ∀ j < 8, pixelBytes info (8 * col + j) (16 * row + i) ⊆ cellBytes info col row :=
    fun j hj a ha => ⟨j, hj, i, hi16, ha⟩
  exact writesIn_drawLine hs h hi16 hcell fontColor backColor 8 0 (Nat.le_refl 8) _ m

end ListaOS.Console
