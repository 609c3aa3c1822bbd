/-
  What is on the screen, pixel by pixel.

  `Painted` relates the log of the _draw_font calls to the text: a cell was last drawn with its
  text, if it does not display the cursor glyph; the pixels tell which of the two it is
  (`cellIs_cursor_iff`). With the page of Console.Page this gives the whole frame buffer
  (`screen_shows_page`): every cell has the glyph of its character on the page, but the one where
  the cursor glyph is displayed. So the pixels tell the page (`page_of_screen`).
-/
import ListaOS.Console.Page
import ListaOS.Console.Pixels

namespace ListaOS.Console

open Lib

variable {info : VbeModeInfo} {fontData : Int → BitVec 8}

/-- The text after drawing is what was drawn last. -/
theorem foldl_put (g : TextGrid) (l : List FontCall) (c r : Int) :
    l.foldl TextGrid.put g c r = ((shown l c r).map FontCall.ch).getD (g c r) := by
  induction l using List.reverseRecOn with
  | nil => rfl
  | append_singleton l d ih =>
    rw [List.foldl_append, List.foldl_cons, List.foldl_nil, shown_append, shown_singleton]
    by_cases hcell : d.col = c ∧ d.row = r
    · rw [if_pos hcell]
      exact if_pos ⟨hcell.1.symm, hcell.2.symm⟩
    · rw [if_neg hcell, Option.none_or, ← ih]
      exact if_neg fun h => hcell ⟨h.1.symm, h.2.symm⟩

theorem shown_eq_some {l : List FontCall} {c r : Int} {d : FontCall} (h : shown l c r = some d) :
    d ∈ l ∧ d.col = c ∧ d.row = r := by
  obtain ⟨hmem, hcell⟩ := List.mem_filter.mp (List.mem_of_getLast? h)
  exact ⟨hmem, of_decide_eq_true hcell⟩

/-- A cell without the cursor glyph was last drawn with its text, or never and is blank. -/
def Painted (x : Screen) : Prop :=
  ∀ c r : Int, ¬ ShowsCursor x.console c r →
    shown x.console.drawn c r = some ⟨x.text c r, c, r, colorWhite, colorBlack⟩ ∨
      shown x.console.drawn c r = none ∧ x.text c r = 0x20

/-- The colors of console_init, and no other background. -/
structure Inked (s : ConsoleState) : Prop where
  colored : Colored s
  back : s.backColor = colorBlack
  drawn : ∀ d ∈ s.drawn, d.backColor = colorBlack

theorem backColor_printChar (s : ConsoleState) (ch : BitVec 8) :
    (printChar info fontData s ch).backColor = s.backColor := by
  have hclamp : ∀ t : ConsoleState, (clampRow t).backColor = t.backColor := by
    intro t
    unfold clampRow
    split
    · rfl
    · rfl
  unfold printChar
  split
  · rfl
  · rw [hclamp]
    unfold printSwitch
    split_ifs
    all_goals rfl

theorem backColor_switchDraws (s : ConsoleState) (ch : BitVec 8) :
    ∀ d ∈ s.switchDraws ch, d.backColor = s.backColor := by
  unfold ConsoleState.switchDraws
  intro d hd
  split_ifs at hd
  · rw [List.mem_singleton.mp hd]
    rfl
  · rw [List.mem_singleton.mp hd]
    rfl
  · exact absurd hd List.not_mem_nil

/-- What a step draws: text, or the cursor glyph. -/
theorem drawn_textStep (s : ConsoleState) (op : TextOp) :
    ∃ l, (textStep info fontData s op).drawn = s.drawn ++ l ∧
      (∀ d ∈ l, d.backColor = s.backColor) ∧
      (glyph s op = false → ∀ d ∈ l, d.fontColor = s.fontColor) := by
  cases op with
  | printChar ch =>
    by_cases h0 : ch = 0
    · subst h0
      refine ⟨[], ?_, fun d hd => absurd hd List.not_mem_nil, fun _ d hd => absurd hd List.not_mem_nil⟩
      show (printChar info fontData s 0).drawn = _
      rw [printChar_nul, List.append_nil]
    · refine ⟨s.fontCall 0x20 s.col :: s.switchDraws ch, drawn_printChar s h0, ?_, fun _ => ?_⟩
      · exact List.forall_mem_cons.mpr ⟨rfl, backColor_switchDraws s ch⟩
      · exact List.forall_mem_cons.mpr ⟨rfl, fontColor_switchDraws s ch⟩
  | toggleCursor =>
    cases hstate : s.cursorState with
    | true =>
      exact ⟨[s.fontCall 0x20 s.col], drawn_toggleCursor hstate,
        List.forall_mem_singleton.mpr rfl, fun _ => List.forall_mem_singleton.mpr rfl⟩
    | false =>
      refine ⟨[⟨0x7c, s.col, s.row, s.cursorColor, s.backColor⟩], ?_,
        List.forall_mem_singleton.mpr rfl, fun hglyph => ?_⟩
      · show (toggleCursor info fontData s).drawn = _
        unfold toggleCursor
        rw [hstate]
        rfl
      · rw [glyph, hstate] at hglyph
        cases hglyph

theorem Inked.step {s : ConsoleState} (h : Inked s) (op : TextOp) :
    Inked (textStep info fontData s op) := by
  obtain ⟨l, hl, hback, -⟩ := @drawn_textStep info fontData s op
  refine ⟨h.colored.step op, ?_, ?_⟩
  · cases op with
    | printChar ch => exact (backColor_printChar s ch).trans h.back
    | toggleCursor =>
      show (toggleCursor info fontData s).backColor = _
      unfold toggleCursor
      split
      · exact h.back
      · exact h.back
  · rw [hl]
    exact List.forall_mem_append.mpr ⟨h.drawn, fun d hd => (hback d hd).trans h.back⟩

theorem Painted.step {x : Screen} (h : Painted x) (hs : Inked x.console) (op : TextOp) :
    Painted (screenStep info fontData x op) := by
  obtain ⟨l, hl, hback, hfont⟩ := @drawn_textStep info fontData x.console op
  have hcursor : (textStep info fontData x.console op).cursorColor = x.console.cursorColor :=
    (hs.colored.step op).cursor.trans hs.colored.cursor.symm
  intro c r hno
  change ¬ ShowsCursor (textStep info fontData x.console op) c r at hno
  show shown (textStep info fontData x.console op).drawn c r = _ ∨
    shown (textStep info fontData x.console op).drawn c r = none ∧ _
  have hdrop : (textStep info fontData x.console op).drawn.drop x.console.drawn.length = l := by
    rw [hl, List.drop_left]
  have htext : (screenStep info fontData x op).text =
      if glyph x.console op then x.text else l.foldl TextGrid.put x.text := by
    rw [← hdrop]
    rfl
  rw [hl, shown_append]
  cases hnew : shown l c r with
  | none =>
    -- not drawn by this step
    have hsame : (screenStep info fontData x op).text c r = x.text c r := by
      rw [htext]
      split
      · rfl
      · rw [foldl_put, hnew]
        rfl
    have hbefore : ¬ ShowsCursor x.console c r := by
      intro hshows
      refine hno ?_
      unfold ShowsCursor at hshows ⊢
      rw [hl, shown_append, hnew, Option.none_or, hcursor]
      exact hshows
    rw [Option.none_or, hsame]
    exact h c r hbefore
  | some d =>
    obtain ⟨hmem, hcol, hrow⟩ := shown_eq_some hnew
    rw [Option.some_or]
    cases hglyph : glyph x.console op with
    | false =>
      refine Or.inl (congrArg some ?_)
      rw [htext, hglyph, if_neg (by decide), foldl_put, hnew]
      obtain ⟨dch, dcol, drow, dfont, dbackc⟩ := d
      obtain rfl : dcol = c := hcol
      obtain rfl : drow = r := hrow
      have hf : dfont = colorWhite := (hfont hglyph _ hmem).trans hs.colored.font
      have hb : dbackc = colorBlack := (hback _ hmem).trans hs.back
      rw [hf, hb]
      rfl
    | true =>
      -- the cursor glyph, so the cell shows it
      exfalso
      cases op with
      | printChar ch => cases hglyph
      | toggleCursor =>
        have hstate : x.console.cursorState = false := by simpa [glyph] using hglyph
        have hdraw : (toggleCursor info fontData x.console).drawn = x.console.drawn ++
            [⟨0x7c, x.console.col, x.console.row, x.console.cursorColor, x.console.backColor⟩] := by
          unfold toggleCursor
          rw [hstate]
          rfl
        have hlist : l = [⟨0x7c, x.console.col, x.console.row, x.console.cursorColor,
            x.console.backColor⟩] := List.append_cancel_left (hl.symm.trans hdraw)
        rw [hlist, List.mem_singleton] at hmem
        subst hmem
        exact hno ((showsCursor_toggleCursor hstate c r).mpr (Or.inl ⟨hcol.symm, hrow.symm⟩))

/-! ## The frame buffer -/

/-- The frame buffer shows the page of a text, and the cursor at its end. -/
structure ShowsText (info : VbeModeInfo) (fontData : Int → BitVec 8) (s : ConsoleState)
    (text : List (BitVec 8)) : Prop where
  position : s.position = (page (info.xResolution.toNat / 8) text).length
  cells : ∀ c r, InGrid info c r → ¬ ShowsCursor s c r →
    CellIs info fontData s.vram c r
      (pageCell (info.xResolution.toNat / 8) text (r * (info.xResolution.toNat / 8) + c))
      colorWhite colorBlack
  cursor : ∀ c r : Nat, InGrid info c r → ShowsCursor s c r →
    c = s.col ∧ r = s.row ∧ CellIs info fontData s.vram c r 0x7c colorGrey colorBlack

/-- The text is shown by any memory with the same bytes in the window. -/
theorem ShowsText.congr (hs : Suitable info) {s : ConsoleState} {text : List (BitVec 8)}
    (h : ShowsText info fontData s text) {m : Mem (BitVec 8)}
    (hm : ∀ a ∈ window, m.read a = s.vram.read a) :
    ShowsText info fontData { s with vram := m } text where
  position := h.position
  cells := fun c r hgrid hno => (h.cells c r hgrid hno).congr hs fun a ha =>
    hm a (hgrid.cellBytes_subset_window hs ha)
  cursor := by
    intro c r hgrid hshown
    obtain ⟨hc, hr, hcell⟩ := h.cursor c r hgrid hshown
    exact ⟨hc, hr, hcell.congr hs fun a ha => hm a (hgrid.cellBytes_subset_window hs ha)⟩

theorem foldl_screenStep (x : Screen) (ops : List TextOp) :
    (ops.foldl (screenStep info fontData) x).console =
      ops.foldl (textStep info fontData) x.console := by
  induction ops generalizing x with
  | nil => rfl
  | cons op ops ih => exact ih _

/-- A cell that was never drawn shows a blank. -/
theorem cellIs_blank (around : Int → BitVec 8) {m : Mem (BitVec 8)} {c r : Nat}
    (hs : Suitable info) (h : ∀ a ∈ cellBytes info c r, m.read a = 0) :
    CellIs info (Font.fontData around) m c r 0x20 colorWhite colorBlack := by
  intro j hj i hi
  have hbit : glyphBit (Font.fontData around) 0x20 j i = false := by
    rw [glyphBit, Font.fontData_blank around hi]
    exact BitVec.getLsbD_zero
  have hbytes := hs.bytes_pos
  have hread : ∀ k < 3, m.read (pixelBase info (8 * c + j) (16 * r + i) + k) = 0 :=
    fun k hk => h _ ⟨j, hj, i, hi, k, by omega, rfl⟩
  rw [hbit]
  exact ⟨hread 0 (by decide), hread 1 (by decide), hread 2 (by decide)⟩

/-- A cell that was drawn shows the glyph that was drawn last. -/
theorem Displayed.cellIs (hs : Suitable info) {s : ConsoleState} {c r : Nat} (h : InGrid info c r)
    (hd : Displayed info fontData s c r) {ch : BitVec 8} {fontColor backColor : RGB}
    (hshown : shown s.drawn c r = some ⟨ch, c, r, fontColor, backColor⟩) :
    CellIs info fontData s.vram c r ch fontColor backColor := by
  unfold Displayed at hd
  rw [hshown] at hd
  obtain ⟨m, hm⟩ := hd
  exact (cellIs_drawFont hs h ch fontColor backColor m).congr hs hm

section

variable (fontData)

theorem inText_textStart (hx : 64 ≤ info.xResolution.toNat) (hy : 16 ≤ info.yResolution.toNat)
    (ram : Nat → BitVec 8) : InText info (textStart info fontData ram) := by
  have hinit := inText_consoleInit ram hx hy
  exact ⟨hinit.width, hinit.height, hinit.col, hinit.row⟩

/-- The empty screen. -/
theorem shows_textStart (hx : 64 ≤ info.xResolution.toNat) (hy : 16 ≤ info.yResolution.toNat)
    (ram : Nat → BitVec 8) :
    Shows info ⟨textStart info fontData ram, fun _ _ => 0x20⟩ [] where
  inText := inText_textStart fontData hx hy ram
  position := Nat.zero_mul _
  cells := fun _ _ _ => rfl

/-- What the calls keep. -/
theorem painted_run (ram : Nat → BitVec 8) (ops : List TextOp) :
    Painted (ops.foldl (screenStep info fontData) ⟨textStart info fontData ram, fun _ _ => 0x20⟩) ∧
      Inked (textRun info fontData ram ops) := by
  have hrun := foldl_invariant (fun x : Screen => Painted x ∧ Inked x.console)
    (fun x op h => ⟨@Painted.step info fontData x h.1 h.2 op, @Inked.step info fontData _ h.2 op⟩)
    (s := ⟨textStart info fontData ram, fun _ _ => 0x20⟩)
    ⟨fun _ _ _ => .inr ⟨rfl, rfl⟩, ⟨rfl, rfl⟩, rfl, fun _ hd => absurd hd List.not_mem_nil⟩ ops
  rw [foldl_screenStep] at hrun
  exact hrun

end

/-! ## The cursor glyph -/

section

variable {probed : List VbeModeInfo} (hacc : Accepted probed info)
  (hx : 64 ≤ info.xResolution.toNat) (hy : 16 ≤ info.yResolution.toNat) (around : Int → BitVec 8)
  (ram : Nat → BitVec 8) (ops : List TextOp) {c r : Nat} (hgrid : InGrid info c r)

include hacc hx hy hgrid

/-- A cell without the cursor glyph has the pixels of its text. -/
theorem cellIs_text (hno : ¬ ShowsCursor (textRun info (Font.fontData around) ram ops) c r) :
    CellIs info (Font.fontData around) (textRun info (Font.fontData around) ram ops).vram c r
      ((ops.foldl (screenStep info (Font.fontData around))
        ⟨textStart info (Font.fontData around) ram, fun _ _ => 0x20⟩).text c r)
      colorWhite colorBlack := by
  have hs := hacc.suitable
  obtain ⟨hpainted, -⟩ := @painted_run info (Font.fontData around) ram ops
  have hconsole := @foldl_screenStep info (Font.fontData around)
    ⟨textStart info (Font.fontData around) ram, fun _ _ => 0x20⟩ ops
  have hd : Displayed info (Font.fontData around) (textRun info (Font.fontData around) ram ops) c r :=
    displayed_textRun hacc hx hy ram ops hgrid
  unfold Painted at hpainted
  rw [hconsole] at hpainted
  obtain hdrawn | ⟨hnone, hblank⟩ := hpainted c r hno
  · exact hd.cellIs hs hgrid hdrawn
  · change shown (textRun info (Font.fontData around) ram ops).drawn c r = none at hnone
    unfold Displayed at hd
    rw [hnone] at hd
    rw [hblank]
    exact cellIs_blank around hs hd

/-- A cell with the cursor glyph has its pixels. -/
theorem cellIs_cursor (hshown : ShowsCursor (textRun info (Font.fontData around) ram ops) c r) :
    CellIs info (Font.fontData around) (textRun info (Font.fontData around) ram ops).vram c r 0x7c
      colorGrey colorBlack := by
  obtain ⟨-, hinked⟩ := @painted_run info (Font.fontData around) ram ops
  obtain ⟨d, hd, hch, hcolor⟩ := hshown
  obtain ⟨hmem, hcol, hrow⟩ := shown_eq_some hd
  obtain ⟨dch, dcol, drow, dfont, dback⟩ := d
  obtain rfl : dch = 0x7c := hch
  obtain rfl : dcol = c := hcol
  obtain rfl : drow = r := hrow
  obtain rfl : dfont = colorGrey := hcolor.trans hinked.colored.cursor
  obtain rfl : dback = colorBlack := hinked.drawn _ hmem
  have hdisplayed : Displayed info (Font.fontData around)
      (textRun info (Font.fontData around) ram ops) c r := displayed_textRun hacc hx hy ram ops hgrid
  exact hdisplayed.cellIs hacc.suitable hgrid hd

/-- **The cursor's pixels.** In the font of font.c a cell has the pixels of the cursor glyph
exactly if the cursor glyph was the last that was drawn in it: no white character looks so. -/
theorem cellIs_cursor_iff :
    CellIs info (Font.fontData around) (textRun info (Font.fontData around) ram ops).vram c r 0x7c
        colorGrey colorBlack ↔ ShowsCursor (textRun info (Font.fontData around) ram ops) c r := by
  refine ⟨fun hcell => ?_, cellIs_cursor hacc hx hy around ram ops hgrid⟩
  by_contra hno
  have htext := (cellIs_text hacc hx hy around ram ops hgrid hno 3 (by decide) 2 (by decide)).red
  have hbit : glyphBit (Font.fontData around) 0x7c 3 2 = true := by
    rw [glyphBit, Font.fontData_ascii around (by decide) (by decide)]
    decide
  have hgrey := (hcell 3 (by decide) 2 (by decide)).red
  rw [hbit, if_pos rfl] at hgrey
  have hred := hgrey.symm.trans htext
  split at hred
  · exact absurd hred (by decide)
  · exact absurd hred (by decide)

/-- A cell with the pixels of the cursor glyph is the one under the cursor. -/
theorem cursor_pixels (hcell : CellIs info (Font.fontData around)
    (textRun info (Font.fontData around) ram ops).vram c r 0x7c colorGrey colorBlack) :
    c = (textRun info (Font.fontData around) ram ops).col ∧
      r = (textRun info (Font.fontData around) ram ops).row := by
  obtain ⟨hc, hr⟩ := (tidy_textRun ram ops).noTrail c r
    ((cellIs_cursor_iff hacc hx hy around ram ops hgrid).mp hcell)
  exact ⟨Int.ofNat.inj hc, Int.ofNat.inj hr⟩

omit hgrid in
/-- The flag tells whether the glyph is displayed exactly if it tells whether the pixels under the
cursor are the glyph's. -/
theorem synced_iff_pixels :
    Synced (textRun info (Font.fontData around) ram ops) ↔
      ((textRun info (Font.fontData around) ram ops).cursorState = true ↔
        CellIs info (Font.fontData around) (textRun info (Font.fontData around) ram ops).vram
          (textRun info (Font.fontData around) ram ops).col
          (textRun info (Font.fontData around) ram ops).row 0x7c colorGrey colorBlack) := by
  have hin : InText info (textRun info (Font.fontData around) ram ops) :=
    foldl_invariant (InText info) (fun _ op h => (h.textStep hx op).1)
      (inText_textStart (Font.fontData around) hx hy ram) ops
  have hgrid : InGrid info (textRun info (Font.fontData around) ram ops).col
      (textRun info (Font.fontData around) ram ops).row := hin.inGrid
  rw [cellIs_cursor_iff hacc hx hy around ram ops hgrid]
  rfl

end

/-! ## The page -/

/-- **The frame buffer shows the text.** In an accepted mode of at least 64x16 pixels, after
console_init on a cleared screen and any print_char and toggle_cursor calls whose text has no '\r'
and stays on the screen, every cell has the pixels of its character in the text's page, but the one that
displays the cursor glyph, and that is the one under the cursor. -/
theorem screen_shows_page {probed : List VbeModeInfo} (hacc : Accepted probed info)
    (hx : 64 ≤ info.xResolution.toNat) (hy : 16 ≤ info.yResolution.toNat)
    (around : Int → BitVec 8) (ram : Nat → BitVec 8) (ops : List TextOp) (hr : 0x0d ∉ chars ops)
    (hfit : FitsScreen (info.xResolution.toNat / 8) (info.yResolution.toNat / 16) (chars ops)) :
    ShowsText info (Font.fontData around) (textRun info (Font.fontData around) ram ops)
      (chars ops) := by
  have hshows := @shows_run info (Font.fontData around) _
    (shows_textStart (Font.fontData around) hx hy ram) hx ops hr hfit
  have hconsole := @foldl_screenStep info (Font.fontData around)
    ⟨textStart info (Font.fontData around) ram, fun _ _ => 0x20⟩ ops
  constructor
  case position =>
    have hpos := hshows.position
    rw [hconsole] at hpos
    exact hpos
  case cells =>
    intro c r hgrid hno
    have hcell := hshows.cells c r (by rw [hshows.inText.width]; exact hgrid.1)
    rw [hshows.inText.width] at hcell
    rw [pageCell, ← hcell]
    exact cellIs_text hacc hx hy around ram ops hgrid hno
  case cursor =>
    intro c r hgrid hshown
    have hcell := cellIs_cursor hacc hx hy around ram ops hgrid hshown
    obtain ⟨hc, hrow⟩ := cursor_pixels hacc hx hy around ram ops hgrid hcell
    exact ⟨hc, hrow, hcell⟩

/-! ## Lines -/

/-- Without toggle_cursor no cell displays the cursor glyph. -/
theorem not_showsCursor_printed (ram : Nat → BitVec 8) (text : List (BitVec 8)) (c r : Int) :
    ¬ ShowsCursor (textRun info fontData ram (text.map .printChar)) c r := by
  induction text using List.reverseRecOn with
  | nil => exact @not_showsCursor_textStart info fontData ram c r
  | append_singleton text ch ih =>
    have hstep : textRun info fontData ram ((text ++ [ch]).map .printChar) =
        printChar info fontData (textRun info fontData ram (text.map .printChar)) ch := by
      rw [textRun, List.map_append, List.foldl_append]
      rfl
    rw [hstep]
    by_cases h0 : ch = 0
    · rw [h0, printChar_nul]
      exact ih
    · have htidy := @tidy_textRun info fontData ram (text.map .printChar)
      exact not_showsCursor_printChar htidy.colored htidy.noTrail h0 c r

theorem chars_printed (text : List (BitVec 8)) : chars (text.map .printChar) = text := by
  unfold chars
  rw [List.filterMap_map]
  exact List.filterMap_some

/-- **A text of lines is shown line by line.** Printed on the cleared screen of an accepted mode,
fewer lines than rows, each of printable characters and shorter than a row: row `r` of the
frame buffer shows line `r`, and blanks behind it and below the last line. -/
theorem screen_shows_lines {probed : List VbeModeInfo} (hacc : Accepted probed info)
    (hx : 64 ≤ info.xResolution.toNat) (hy : 16 ≤ info.yResolution.toNat)
    (around : Int → BitVec 8) (ram : Nat → BitVec 8) (lines : List (List (BitVec 8)))
    (hshort : ShortLines (info.xResolution.toNat / 8) lines)
    (hlines : lines.length < info.yResolution.toNat / 16) :
    ∀ c r, InGrid info c r →
      CellIs info (Font.fontData around)
        (textRun info (Font.fontData around) ram ((linesText lines).map .printChar)).vram c r
        ((lines.getD r []).getD c 0x20) colorWhite colorBlack := by
  intro c r hgrid
  have hfit : FitsScreen (info.xResolution.toNat / 8) (info.yResolution.toNat / 16)
      (chars ((linesText lines).map .printChar)) := by
    rw [chars_printed]
    exact fitsScreen_linesText hshort (by omega) hlines
  have hr : 0x0d ∉ chars ((linesText lines).map .printChar) := by
    rw [chars_printed]
    exact noReturn_linesText hshort
  have hshows := screen_shows_page hacc hx hy around ram _ hr hfit
  have hcell := hshows.cells c r hgrid (not_showsCursor_printed ram _ c r)
  rw [chars_printed, pageCell, page_linesText hshort,
    Page.cell_lines (fun l hl => (hshort l hl).1) hgrid.1] at hcell
  exact hcell

/-- "Hi" and an empty line at 640x480: the second character, and what is below it. -/
theorem screen_shows_lines_hi :
    CellIs ⟨0x98, 2560, 640, 480, 32, 6, 0xe0000000⟩ (Font.fontData fun _ => 0)
        (textRun ⟨0x98, 2560, 640, 480, 32, 6, 0xe0000000⟩ (Font.fontData fun _ => 0) (fun _ => 0)
          ((linesText [[0x48, 0x69], []]).map .printChar)).vram 1 0 0x69 colorWhite colorBlack ∧
      CellIs ⟨0x98, 2560, 640, 480, 32, 6, 0xe0000000⟩ (Font.fontData fun _ => 0)
        (textRun ⟨0x98, 2560, 640, 480, 32, 6, 0xe0000000⟩ (Font.fontData fun _ => 0) (fun _ => 0)
          ((linesText [[0x48, 0x69], []]).map .printChar)).vram 1 1 0x20 colorWhite colorBlack := by
  have hacc : Accepted [] ⟨0x98, 2560, 640, 480, 32, 6, 0xe0000000⟩ :=
    ⟨0, 1228800, rfl, by decide⟩
  have hcells := screen_shows_lines hacc (by decide) (by decide) (fun _ => 0) (fun _ => 0)
    [[0x48, 0x69], []] (by decide) (by decide)
  exact ⟨hcells 1 0 ⟨by decide, by decide⟩, hcells 1 1 ⟨by decide, by decide⟩⟩

/-! ## Reading the screen -/

/-- The characters of the font with glyphs of their own. -/
def Graphic (ch : BitVec 8) : Prop := 0x20 ≤ ch.toNat ∧ ch.toNat < 0x80

instance (ch : BitVec 8) : Decidable (Graphic ch) := inferInstanceAs (Decidable (_ ∧ _))

theorem graphic_pageCell {W : Nat} {text : List (BitVec 8)} (hr : 0x0d ∉ text)
    (h : ∀ ch ∈ text, Printable ch → Graphic ch) (n : Nat) : Graphic (pageCell W text n) := by
  have hpage := @forall_mem_page Graphic (by decide) W text hr h
  unfold pageCell Page.cell
  rw [List.getD_eq_getElem?_getD]
  cases hget : (page W text)[n]? with
  | none => exact (by decide : Graphic 0x20)
  | some ch => exact hpage ch (List.mem_of_getElem? hget)

/-- The pixels of every cell have the same colors. -/
def SamePixels (info : VbeModeInfo) (m m' : Mem (BitVec 8)) : Prop :=
  ∀ c r, InGrid info c r → ∀ j < 8, ∀ i < 16, ∀ k < 3,
    m.read (pixelBase info (8 * c + j) (16 * r + i) + k) =
      m'.read (pixelBase info (8 * c + j) (16 * r + i) + k)

theorem SamePixels.cellIs {m m' : Mem (BitVec 8)} (h : SamePixels info m m') {c r : Nat}
    (hgrid : InGrid info c r) {ch : BitVec 8} {fontColor backColor : RGB}
    (hcell : CellIs info fontData m' c r ch fontColor backColor) :
    CellIs info fontData m c r ch fontColor backColor := by
  intro j hj i hi
  have hpixel := hcell j hj i hi
  exact ⟨(h c r hgrid j hj i hi 0 (by decide)).trans hpixel.blue,
    (h c r hgrid j hj i hi 1 (by decide)).trans hpixel.green,
    (h c r hgrid j hj i hi 2 (by decide)).trans hpixel.red⟩

/-- A cell with the same glyph has the same colors. -/
theorem samePixels_of_cells {m m' : Mem (BitVec 8)}
    (h : ∀ c r, InGrid info c r → ∃ ch fontColor backColor,
      CellIs info fontData m c r ch fontColor backColor ∧
        CellIs info fontData m' c r ch fontColor backColor) : SamePixels info m m' := by
  intro c r hgrid j hj i hi k hk
  obtain ⟨ch, fontColor, backColor, hcell, hcell'⟩ := h c r hgrid
  have hpixel := hcell j hj i hi
  have hpixel' := hcell' j hj i hi
  match k, hk with
  | 0, _ => exact hpixel.blue.trans hpixel'.blue.symm
  | 1, _ => exact hpixel.green.trans hpixel'.green.symm
  | 2, _ => exact hpixel.red.trans hpixel'.red.symm

/-- **The screen can be read.** Two texts of the font's characters without '\r' that stay on the
screen leave the same colors in every cell exactly if they have the same page. -/
theorem page_of_screen {probed : List VbeModeInfo} (hacc : Accepted probed info)
    (hx : 64 ≤ info.xResolution.toNat) (hy : 16 ≤ info.yResolution.toNat)
    (around : Int → BitVec 8) (ram ram' : Nat → BitVec 8) (text text' : List (BitVec 8))
    (hr : 0x0d ∉ text) (hr' : 0x0d ∉ text')
    (hfit : FitsScreen (info.xResolution.toNat / 8) (info.yResolution.toNat / 16) text)
    (hfit' : FitsScreen (info.xResolution.toNat / 8) (info.yResolution.toNat / 16) text')
    (hgraphic : ∀ ch ∈ text, Printable ch → Graphic ch)
    (hgraphic' : ∀ ch ∈ text', Printable ch → Graphic ch) :
    SamePixels info (textRun info (Font.fontData around) ram (text.map .printChar)).vram
        (textRun info (Font.fontData around) ram' (text'.map .printChar)).vram ↔
      ∀ c r, InGrid info c r →
        pageCell (info.xResolution.toNat / 8) text (r * (info.xResolution.toNat / 8) + c) =
          pageCell (info.xResolution.toNat / 8) text' (r * (info.xResolution.toNat / 8) + c) := by
  have hcells : ∀ (ram : Nat → BitVec 8) (text : List (BitVec 8)), 0x0d ∉ text →
      FitsScreen (info.xResolution.toNat / 8) (info.yResolution.toNat / 16) text →
      ∀ c r, InGrid info c r → CellIs info (Font.fontData around)
        (textRun info (Font.fontData around) ram (text.map .printChar)).vram c r
        (pageCell (info.xResolution.toNat / 8) text (r * (info.xResolution.toNat / 8) + c))
        colorWhite colorBlack := by
    intro ram text hr hfit c r hgrid
    rw [← chars_printed text] at hr hfit
    have hcell := (screen_shows_page hacc hx hy around ram _ hr hfit).cells c r hgrid
      (not_showsCursor_printed ram text c r)
    rwa [chars_printed] at hcell
  constructor
  · intro hsame c r hgrid
    exact CellIs.unique (graphic_pageCell hr hgraphic _) (graphic_pageCell hr' hgraphic' _)
      (hcells ram text hr hfit c r hgrid)
      (hsame.cellIs hgrid (hcells ram' text' hr' hfit' c r hgrid))
  · intro hpage
    refine samePixels_of_cells fun c r hgrid => ⟨_, _, _, hcells ram text hr hfit c r hgrid, ?_⟩
    rw [hpage c r hgrid]
    exact hcells ram' text' hr' hfit' c r hgrid

/-- At 800x600, 'B', a backspace, a tab and 'A', and eight blanks and 'A'. -/
theorem page_of_screen_a :
    SamePixels ⟨0x98, 3200, 800, 600, 32, 6, 0xe0000000⟩
      (textRun ⟨0x98, 3200, 800, 600, 32, 6, 0xe0000000⟩ (Font.fontData fun _ => 0) (fun _ => 0)
        ([0x42, 0x08, 0x09, 0x41].map .printChar)).vram
      (textRun ⟨0x98, 3200, 800, 600, 32, 6, 0xe0000000⟩ (Font.fontData fun _ => 0) (fun _ => 0xff)
        ((List.replicate 8 0x20 ++ [0x41]).map .printChar)).vram := by
  have hacc : Accepted [] ⟨0x98, 3200, 800, 600, 32, 6, 0xe0000000⟩ :=
    ⟨0, 1920000, rfl, by decide⟩
  have hpage : page 100 [0x42, 0x08, 0x09, 0x41] = page 100 (List.replicate 8 0x20 ++ [0x41]) := by
    decide
  have hfit : FitsScreen 100 37 [0x42, 0x08, 0x09, 0x41] := by decide
  have hfit' : FitsScreen 100 37 (List.replicate 8 0x20 ++ [0x41]) := by decide
  have hiff := page_of_screen hacc (by decide) (by decide) (fun _ => 0) (fun _ => 0)
    (fun _ => 0xff) [0x42, 0x08, 0x09, 0x41] (List.replicate 8 0x20 ++ [0x41]) (by decide)
    (by decide) hfit hfit' (by decide) (by decide)
  refine hiff.mpr fun c r hgrid => ?_
  have hwidth : (800 : BitVec 16).toNat / 8 = 100 := rfl
  dsimp only
  rw [hwidth, pageCell, pageCell, hpage]

end ListaOS.Console
