/-
  The console stays inside video memory.

  For a suitable mode of at least 64x16 pixels the grid has at least 8 columns and one row,
  so no character moves the row by two and the equality test of `clampRow` is enough
  (`InText.printSwitch`). A step draws cells of the grid only (`Redraws`); `Draws` says what
  that leaves in memory and in the log. The run theorem is `console_in_window`.
-/
import ListaOS.Console.Basic

namespace ListaOS.Console

open Lib

variable {info : VbeModeInfo} (fontData : Int → BitVec 8)

/-- The cursor is on the text grid of the mode. -/
structure InText (info : VbeModeInfo) (s : ConsoleState) : Prop where
  width : s.consoleWidth = info.xResolution.toNat / 8
  height : s.consoleHeight = info.yResolution.toNat / 16
  col : s.col < s.consoleWidth
  row : s.row < s.consoleHeight

theorem InText.inGrid {s : ConsoleState} (h : InText info s) : InGrid info s.col s.row :=
  ⟨h.width ▸ h.col, h.height ▸ h.row⟩

/-- `t` comes from `s` by `_draw_font` calls in the grid. -/
structure Draws (info : VbeModeInfo) (s t : ConsoleState) : Prop where
  vram : Mem.WritesIn window s.vram t.vram
  drawn : ∀ d ∈ t.drawn, d ∈ s.drawn ∨ ∃ col row : Nat, d.col = col ∧ d.row = row ∧ InGrid info col row

namespace Draws

variable {s t u : ConsoleState}

theorem same (hv : t.vram = s.vram) (hd : t.drawn = s.drawn) : Draws info s t where
  vram := by
    rw [hv]
    exact Mem.WritesIn.refl _ _
  drawn := fun d hmem => Or.inl (hd ▸ hmem)

theorem trans (h : Draws info s t) (h' : Draws info t u) : Draws info s u where
  vram := h.vram.trans h'.vram
  drawn := by
    intro d hd
    obtain hd | hd := h'.drawn d hd
    · exact h.drawn d hd
    · exact Or.inr hd

theorem draw (hs : Suitable info) (s : ConsoleState) {col row : Nat} (h : InGrid info col row)
    (ch : BitVec 8) (fontColor backColor : RGB) :
    Draws info s (s.draw info fontData ⟨ch, col, row, fontColor, backColor⟩) where
  vram := (writesIn_drawFont hs h ch fontColor backColor s.vram).mono (h.cellBytes_subset_window hs)
  drawn := by
    intro d hd
    obtain hd | hd := List.mem_append.mp hd
    · exact Or.inl hd
    · rw [List.mem_singleton.mp hd]
      exact Or.inr ⟨col, row, rfl, rfl, h⟩

end Draws

/-- `t` comes from `s` by drawing cells of the grid; the other fields may change. -/
inductive Redraws (info : VbeModeInfo) (fontData : Int → BitVec 8) :
    ConsoleState → ConsoleState → Prop
  | same {s t : ConsoleState} (hv : t.vram = s.vram) (hd : t.drawn = s.drawn) :
      Redraws info fontData s t
  | draw (s : ConsoleState) {col row : Nat} (h : InGrid info col row) (ch : BitVec 8)
      (fontColor backColor : RGB) :
      Redraws info fontData s (s.draw info fontData ⟨ch, col, row, fontColor, backColor⟩)
  | trans {s t u : ConsoleState} (h : Redraws info fontData s t) (h' : Redraws info fontData t u) :
      Redraws info fontData s u

theorem Redraws.draws (hs : Suitable info) {s t : ConsoleState}
    (h : Redraws info fontData s t) : Draws info s t := by
  induction h with
  | same hv hd => exact Draws.same hv hd
  | draw s h ch fontColor backColor => exact Draws.draw fontData hs s h ch fontColor backColor
  | trans _ _ ih ih' => exact ih.trans ih'

/-! ## The cursor -/

section

variable {s : ConsoleState}

theorem InText.draw (h : InText info s) (d : FontCall) : InText info (s.draw info fontData d) :=
  ⟨h.width, h.height, h.col, h.row⟩

/-- Grid sizes of a mode of at least 64x16 pixels. -/
theorem InText.bounds (h : InText info s) (hx : 64 ≤ info.xResolution.toNat) :
    8 ≤ s.consoleWidth ∧ s.consoleWidth < 2 ^ 16 ∧ s.consoleHeight < 2 ^ 16 := by
  rw [h.width, h.height]
  have hX := info.xResolution.isLt
  have hY := info.yResolution.isLt
  omega

/-- Going right by at most a width moves the row by at most one. -/
theorem rowStep_le {row col W n : Nat} (hrow : row < 2 ^ 16) (hcol : col < W) (hW : W < 2 ^ 16)
    (hn : n ≤ W) : (row + (col + n) % 2 ^ 32 / W) % 2 ^ 32 ≤ row + 1 := by
  have hsmall : (col + n) % 2 ^ 32 = col + n := Nat.mod_eq_of_lt (by omega)
  have hquot : (col + n) / W < 2 := Nat.div_lt_of_lt_mul (by omega)
  rw [hsmall, Nat.mod_eq_of_lt (by omega)]
  omega

/-- Before the clamp the row is at most one past the last. -/
structure AlmostInText (info : VbeModeInfo) (s : ConsoleState) : Prop where
  width : s.consoleWidth = info.xResolution.toNat / 8
  height : s.consoleHeight = info.yResolution.toNat / 16
  col : s.col < s.consoleWidth
  row : s.row ≤ s.consoleHeight

theorem InText.almost (h : InText info s) : AlmostInText info s :=
  ⟨h.width, h.height, h.col, Nat.le_of_lt h.row⟩

theorem AlmostInText.clampRow (h : AlmostInText info s) (hpos : 0 < s.consoleHeight) :
    InText info (clampRow s) := by
  have hlt : s.consoleHeight < 2 ^ 16 := by
    have hY := info.yResolution.isLt
    rw [h.height]
    omega
  unfold Console.clampRow
  split
  · rename_i heq
    refine ⟨h.width, h.height, h.col, ?_⟩
    show (s.row + (2 ^ 32 - 1)) % 2 ^ 32 < s.consoleHeight
    omega
  · rename_i hne
    exact ⟨h.width, h.height, h.col, Nat.lt_of_le_of_ne h.row hne⟩

/-- Each character: the row moves by at most one, the column stays in range. -/
theorem InText.printSwitch (h : InText info s) (hx : 64 ≤ info.xResolution.toNat) (ch : BitVec 8) :
    AlmostInText info (printSwitch info fontData s ch) := by
  obtain ⟨hW8, hW, hH⟩ := h.bounds hx
  have hcol := h.col
  have hrow := h.row
  have hrow16 : s.row < 2 ^ 16 := Nat.lt_trans hrow hH
  have hone : 1 ≤ s.consoleWidth := Nat.le_trans (by decide) hW8
  unfold Console.printSwitch
  split
  · -- backspace
    split
    · exact ⟨h.width, h.height, Nat.lt_of_le_of_lt (Nat.sub_le _ _) hcol, Nat.le_of_lt hrow⟩
    · exact h.almost
  split
  · -- newline
    refine ⟨h.width, h.height, Nat.zero_lt_of_lt hcol, ?_⟩
    show (s.row + 1) % 2 ^ 32 ≤ s.consoleHeight
    rw [Nat.mod_eq_of_lt (by omega)]
    exact hrow
  split
  · -- carriage return
    exact ⟨h.width, h.height, Nat.zero_lt_of_lt hcol, Nat.le_of_lt hrow⟩
  split
  · -- tab
    exact ⟨h.width, h.height, Nat.mod_lt _ (by omega),
      Nat.le_trans (rowStep_le hrow16 hcol hW hW8) hrow⟩
  · exact ⟨h.width, h.height, Nat.mod_lt _ (Nat.zero_lt_of_lt hcol),
      Nat.le_trans (rowStep_le hrow16 hcol hW hone) hrow⟩

theorem redraws_printSwitch (h : InText info s) (ch : BitVec 8) :
    Redraws info fontData s (printSwitch info fontData s ch) := by
  have hgrid := h.inGrid
  unfold Console.printSwitch
  split
  · split
    · have hleft : InGrid info (s.col - 1) s.row :=
        ⟨Nat.lt_of_le_of_lt (Nat.sub_le _ _) hgrid.1, hgrid.2⟩
      have hmove : Redraws info fontData s { s with col := s.col - 1 } := .same rfl rfl
      exact hmove.trans (.draw { s with col := s.col - 1 } hleft 0x20 s.fontColor s.backColor)
    · exact .same rfl rfl
  split
  · exact .same rfl rfl
  split
  · exact .same rfl rfl
  split
  · exact .same rfl rfl
  · exact (Redraws.draw s hgrid ch s.fontColor s.backColor).trans (.same rfl rfl)

theorem redraws_clampRow (s : ConsoleState) : Redraws info fontData s (clampRow s) := by
  unfold clampRow
  split
  · exact .same rfl rfl
  · exact .same rfl rfl

theorem redraws_printChar (h : InText info s) (ch : BitVec 8) :
    Redraws info fontData s (printChar info fontData s ch) := by
  unfold printChar
  split
  · exact .same rfl rfl
  · have hblank : Redraws info fontData s (s.drawChar info fontData 0x20) :=
      .draw s h.inGrid 0x20 s.fontColor s.backColor
    have hdraw : InText info (s.drawChar info fontData 0x20) := h.draw fontData _
    exact (hblank.trans (redraws_printSwitch fontData hdraw ch)).trans (redraws_clampRow fontData _)

theorem redraws_toggleCursor (h : InText info s) :
    Redraws info fontData s (toggleCursor info fontData s) := by
  unfold toggleCursor
  split
  · exact (Redraws.draw s h.inGrid 0x20 s.fontColor s.backColor).trans (.same rfl rfl)
  · exact (Redraws.draw s h.inGrid 0x7c s.cursorColor s.backColor).trans (.same rfl rfl)

theorem InText.printChar (h : InText info s) (hx : 64 ≤ info.xResolution.toNat) (ch : BitVec 8) :
    InText info (printChar info fontData s ch) := by
  unfold Console.printChar
  split
  · exact h
  · have hdraw : InText info (s.drawChar info fontData 0x20) := h.draw fontData _
    have hswitch := hdraw.printSwitch fontData hx ch
    have hheight := hswitch.height.trans hdraw.height.symm
    refine hswitch.clampRow ?_
    rw [hheight]
    exact Nat.zero_lt_of_lt hdraw.row

theorem InText.toggleCursor (h : InText info s) :
    InText info (toggleCursor info fontData s) := by
  unfold Console.toggleCursor
  split
  · exact ⟨h.width, h.height, h.col, h.row⟩
  · exact ⟨h.width, h.height, h.col, h.row⟩

end

/-! ## Steps and runs -/

/-- What one call keeps: the cursor on the grid, and every store in the window. -/
theorem consoleStep_spec (hs : Suitable info) (hx : 64 ≤ info.xResolution.toNat)
    {s : ConsoleState} (h : InText info s) (op : ConsoleOp) :
    InText info (consoleStep info fontData s op) ∧ Draws info s (consoleStep info fontData s op) := by
  cases op with
  | printChar ch =>
    exact ⟨h.printChar fontData hx ch, (redraws_printChar fontData h ch).draws fontData hs⟩
  | toggleCursor =>
    exact ⟨h.toggleCursor fontData, (redraws_toggleCursor fontData h).draws fontData hs⟩
  | screenClear =>
    exact ⟨⟨h.width, h.height, h.col, h.row⟩, hs.writesIn_screenClear s.vram,
      fun _ hd => Or.inl hd⟩

/-- The console after console_init and a sequence of calls. -/
def consoleRun (info : VbeModeInfo) (ram : Nat → BitVec 8) (ops : List ConsoleOp) : ConsoleState :=
  ops.foldl (consoleStep info fontData) (consoleInit info (ConsoleState.boot (Mem.fresh ram)))

theorem inText_consoleInit (ram : Nat → BitVec 8) (hx : 64 ≤ info.xResolution.toNat)
    (hy : 16 ≤ info.yResolution.toNat) :
    InText info (consoleInit info (ConsoleState.boot (Mem.fresh ram))) where
  width := rfl
  height := rfl
  col := show 0 < info.xResolution.toNat / 8 by omega
  row := show 0 < info.yResolution.toNat / 16 by omega

theorem consoleRun_spec (hs : Suitable info) (hx : 64 ≤ info.xResolution.toNat)
    (hy : 16 ≤ info.yResolution.toNat) (ram : Nat → BitVec 8) (ops : List ConsoleOp) :
    InText info (consoleRun fontData info ram ops) ∧
      Draws info (consoleInit info (ConsoleState.boot (Mem.fresh ram)))
        (consoleRun fontData info ram ops) := by
  refine foldl_invariant
    (fun s => InText info s ∧
      Draws info (consoleInit info (ConsoleState.boot (Mem.fresh ram))) s) ?_
    ⟨inText_consoleInit ram hx hy, Draws.same rfl rfl⟩ ops
  intro s op hinv
  obtain ⟨htext, hdraws⟩ := hinv
  obtain ⟨htext', hdraws'⟩ := consoleStep_spec fontData hs hx htext op
  exact ⟨htext', hdraws.trans hdraws'⟩

/-- **The console stays in video memory.** For every accepted mode of at least 64x16 pixels,
every font table, every content of memory and every sequence of calls: the cursor is on the
grid, every byte stored to is in the window, every _draw_font call was for a cell of the
grid and stores only into the bytes of its pixels, and distinct cells share no byte. -/
theorem console_in_window (probed : List VbeModeInfo) (info : VbeModeInfo)
    (hacc : Accepted probed info) (hx : 64 ≤ info.xResolution.toNat)
    (hy : 16 ≤ info.yResolution.toNat) (ram : Nat → BitVec 8) (ops : List ConsoleOp) :
    let s := consoleRun fontData info ram ops
    s.col < s.consoleWidth ∧ s.row < s.consoleHeight ∧ (∀ a ∈ s.vram.log, a ∈ window) ∧
      (∀ d ∈ s.drawn, ∃ col row : Nat, d.col = col ∧ d.row = row ∧ col < s.consoleWidth ∧
        row < s.consoleHeight ∧
        ∀ m, Mem.WritesIn (cellBytes info col row) m (drawFont info fontData d m)) ∧
      ∀ col row col' row', col < s.consoleWidth → row < s.consoleHeight →
        col' < s.consoleWidth → row' < s.consoleHeight → (col, row) ≠ (col', row') →
        Disjoint (cellBytes info col row) (cellBytes info col' row') := by
  intro s
  have hs := hacc.suitable
  obtain ⟨htext, hdraws⟩ := consoleRun_spec fontData hs hx hy ram ops
  have hgrid : ∀ {col row : Nat}, InGrid info col row ↔
      col < s.consoleWidth ∧ row < s.consoleHeight := by
    intro col row
    rw [InGrid, htext.width, htext.height]
  refine ⟨htext.col, htext.row, ?_, ?_, ?_⟩
  · exact hdraws.vram.mem_of_log fun a ha => absurd ha (List.not_mem_nil)
  · intro d hd
    obtain hd | ⟨col, row, hcol, hrow, hin⟩ := hdraws.drawn d hd
    · exact absurd hd List.not_mem_nil
    · obtain ⟨hc, hr⟩ := hgrid.mp hin
      refine ⟨col, row, hcol, hrow, hc, hr, fun m => ?_⟩
      obtain ⟨ch, dcol, drow, fontColor, backColor⟩ := d
      obtain rfl : dcol = col := hcol
      obtain rfl : drow = row := hrow
      exact writesIn_drawFont hs hin ch fontColor backColor m
  · intro col row col' row' hc hr hc' hr' hne
    exact (hgrid.mpr ⟨hc, hr⟩).cellBytes_disjoint (hgrid.mpr ⟨hc', hr'⟩) hne

/-- A 640x480 mode with 32 bits per pixel, the first one probed. -/
theorem console_in_window_vga :
    let info : VbeModeInfo := ⟨0x98, 2560, 640, 480, 32, 6, 0xe0000000⟩
    let s := consoleRun (fun _ => 0) info (fun _ => 0) [.printChar 0x41, .toggleCursor]
    s.col < s.consoleWidth ∧ s.row < s.consoleHeight ∧ (∀ a ∈ s.vram.log, a ∈ window) ∧
      (∀ d ∈ s.drawn, ∃ col row : Nat, d.col = col ∧ d.row = row ∧ col < s.consoleWidth ∧
        row < s.consoleHeight ∧
        ∀ m, Mem.WritesIn (cellBytes info col row) m (drawFont info (fun _ => 0) d m)) ∧
      ∀ col row col' row', col < s.consoleWidth → row < s.consoleHeight →
        col' < s.consoleWidth → row' < s.consoleHeight → (col, row) ≠ (col', row') →
        Disjoint (cellBytes info col row) (cellBytes info col' row') := by
  have hacc : Accepted [] ⟨0x98, 2560, 640, 480, 32, 6, 0xe0000000⟩ :=
    ⟨0, 1228800, rfl, by decide⟩
  exact console_in_window (fun _ => 0) [] _ hacc (by decide) (by decide) (fun _ => 0) _

end ListaOS.Console
