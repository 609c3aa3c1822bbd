/-
  The cursor glyph on the screen.

  A cell shows what the last _draw_font call for it drew: in the grid of an accepted mode no
  call stores into another cell (`displayed_textRun`). Every print_char, and every
  toggle_cursor that finds cursorState set, first draws a blank under the cursor
  (`showsCursor_erase`), so the glyph is never left behind (`no_cursor_trail`).
  print_char leaves cursorState as it is; `cursor_synced_iff`: the flag tells whether the glyph
  is displayed exactly while nothing is printed with the flag set.
-/
import ListaOS.Console.Text
import ListaOS.Console.Window

namespace ListaOS.Console

open Lib

/-- The last `_draw_font` call for the cell. -/
def shown (drawn : List FontCall) (c r : Int) : Option FontCall :=
  (drawn.filter fun d => d.col = c ∧ d.row = r).getLast?

/-- The cell displays the cursor glyph: '|' in CURSOR_COLOR. -/
def ShowsCursor (s : ConsoleState) (c r : Int) : Prop :=
  ∃ d, shown s.drawn c r = some d ∧ d.ch = 0x7c ∧ d.fontColor = s.cursorColor

/-- No cell but the one under the cursor displays the glyph. -/
def NoTrail (s : ConsoleState) : Prop :=
  ∀ c r : Int, ShowsCursor s c r → c = s.col ∧ r = s.row

/-- `cursorState` tells whether the glyph is displayed. -/
def Synced (s : ConsoleState) : Prop := s.cursorState = true ↔ ShowsCursor s s.col s.row

/-- A call that prints finds `cursorState` 0. -/
def HiddenPrint (s : ConsoleState) : TextOp → Prop
  | .printChar ch => ch = 0 ∨ s.cursorState = false
  | .toggleCursor => True

section

variable (info : VbeModeInfo) (fontData : Int → BitVec 8)

def textStep (s : ConsoleState) (op : TextOp) : ConsoleState :=
  consoleStep info fontData s op.toConsole

/-- console_init on a cleared screen. -/
def textStart (ram : Nat → BitVec 8) : ConsoleState :=
  consoleStep info fontData (consoleInit info (ConsoleState.boot (Mem.fresh ram))) .screenClear

def textRun (ram : Nat → BitVec 8) (ops : List TextOp) : ConsoleState :=
  ops.foldl (textStep info fontData) (textStart info fontData ram)

/-- toggle_cursor flips what is displayed under the cursor. -/
def Flips (s : ConsoleState) : Prop :=
  ShowsCursor (textStep info fontData s .toggleCursor) s.col s.row ↔ ¬ ShowsCursor s s.col s.row

end

variable {info : VbeModeInfo} {fontData : Int → BitVec 8}

/-! ## What a call leaves alone -/

/-- The colors of console_init. -/
structure Colored (s : ConsoleState) : Prop where
  font : s.fontColor = colorWhite
  cursor : s.cursorColor = colorGrey

theorem Colored.ne {s : ConsoleState} (h : Colored s) : s.fontColor ≠ s.cursorColor := by
  rw [h.font, h.cursor]
  exact fun heq => absurd (congrArg RGB.R heq) (by decide)

section

variable (info fontData)

/-- print_char changes neither colors nor cursorState. -/
theorem printChar_keeps (s : ConsoleState) (ch : BitVec 8) :
    (printChar info fontData s ch).fontColor = s.fontColor ∧
      (printChar info fontData s ch).cursorColor = s.cursorColor ∧
      (printChar info fontData s ch).cursorState = s.cursorState := by
  have hclamp : ∀ t : ConsoleState, (clampRow t).fontColor = t.fontColor ∧
      (clampRow t).cursorColor = t.cursorColor ∧ (clampRow t).cursorState = t.cursorState := by
    intro t
    unfold clampRow
    split
    · exact ⟨rfl, rfl, rfl⟩
    · exact ⟨rfl, rfl, rfl⟩
  have hswitch : ∀ t : ConsoleState, (printSwitch info fontData t ch).fontColor = t.fontColor ∧
      (printSwitch info fontData t ch).cursorColor = t.cursorColor ∧
      (printSwitch info fontData t ch).cursorState = t.cursorState := by
    intro t
    unfold printSwitch
    split_ifs
    all_goals exact ⟨rfl, rfl, rfl⟩
  unfold printChar
  split
  · exact ⟨rfl, rfl, rfl⟩
  · obtain ⟨hfont, hcursor, hstate⟩ := hclamp
      (printSwitch info fontData (s.drawChar info fontData 0x20) ch)
    obtain ⟨hfont', hcursor', hstate'⟩ := hswitch (s.drawChar info fontData 0x20)
    exact ⟨hfont.trans hfont', hcursor.trans hcursor', hstate.trans hstate'⟩

theorem toggleCursor_keeps (s : ConsoleState) :
    (toggleCursor info fontData s).fontColor = s.fontColor ∧
      (toggleCursor info fontData s).cursorColor = s.cursorColor ∧
      (toggleCursor info fontData s).col = s.col ∧ (toggleCursor info fontData s).row = s.row := by
  unfold toggleCursor
  split
  · exact ⟨rfl, rfl, rfl, rfl⟩
  · exact ⟨rfl, rfl, rfl, rfl⟩

theorem toggleCursor_state (s : ConsoleState) :
    (toggleCursor info fontData s).cursorState = !s.cursorState := by
  unfold toggleCursor
  split
  · rfl
  · rfl

end

theorem Colored.step {s : ConsoleState} (h : Colored s) (op : TextOp) :
    Colored (textStep info fontData s op) := by
  cases op with
  | printChar ch =>
    obtain ⟨hfont, hcursor, -⟩ := printChar_keeps info fontData s ch
    exact ⟨hfont.trans h.font, hcursor.trans h.cursor⟩
  | toggleCursor =>
    obtain ⟨hfont, hcursor, -⟩ := toggleCursor_keeps info fontData s
    exact ⟨hfont.trans h.font, hcursor.trans h.cursor⟩

/-! ## The cell under the cursor -/

theorem shown_append (l l' : List FontCall) (c r : Int) :
    shown (l ++ l') c r = (shown l' c r).or (shown l c r) := by
  unfold shown
  rw [List.filter_append, List.getLast?_append]

theorem shown_singleton (d : FontCall) (c r : Int) :
    shown [d] c r = if d.col = c ∧ d.row = r then some d else none := by
  by_cases h : d.col = c ∧ d.row = r
  · simp [shown, h]
  · simp [shown, h]

/-- After a blank under the cursor and other text, the glyph is where it was before, but not
under the cursor. -/
theorem showsCursor_erase {s t : ConsoleState} (hs : Colored s) {text : List FontCall}
    (hdrawn : t.drawn = s.drawn ++ s.fontCall 0x20 s.col :: text)
    (htext : ∀ d ∈ text, d.fontColor = s.fontColor) (hcursor : t.cursorColor = s.cursorColor)
    {c r : Int} (h : ShowsCursor t c r) :
    ShowsCursor s c r ∧ ¬ (c = s.col ∧ r = s.row) := by
  obtain ⟨d, hd, hch, hcolor⟩ := h
  rw [hdrawn, shown_append] at hd
  rw [hcursor] at hcolor
  cases hnew : shown (s.fontCall 0x20 s.col :: text) c r with
  | some e =>
    rw [hnew, Option.some_or, Option.some_inj] at hd
    have hmem := (List.mem_filter.mp (List.mem_of_getLast? hnew)).1
    have hfont : e.fontColor = s.fontColor := by
      obtain rfl | hmem := List.mem_cons.mp hmem
      · rfl
      · exact htext e hmem
    rw [← hd, hfont] at hcolor
    exact absurd hcolor hs.ne
  | none =>
    rw [hnew, Option.none_or] at hd
    refine ⟨⟨d, hd, hch, hcolor⟩, fun hcell => ?_⟩
    obtain ⟨rfl, rfl⟩ := hcell
    have hempty := List.getLast?_eq_none_iff.mp hnew
    have hblank := List.filter_eq_nil_iff.mp hempty _ List.mem_cons_self
    exact hblank (decide_eq_true ⟨rfl, rfl⟩)

/-- print_char draws text only. -/
theorem fontColor_switchDraws (s : ConsoleState) (ch : BitVec 8) :
    ∀ d ∈ s.switchDraws ch, d.fontColor = s.fontColor := by
  unfold ConsoleState.switchDraws
  intro d hd
  split_ifs at hd
  · rw [List.mem_singleton.mp hd]
    rfl
  · rw [List.mem_singleton.mp hd]
    rfl
  · exact absurd hd List.not_mem_nil

/-- After print_char of a character, no cell displays the glyph. -/
theorem not_showsCursor_printChar {s : ConsoleState} (hs : Colored s) (htrail : NoTrail s)
    {ch : BitVec 8} (h0 : ch ≠ 0) (c r : Int) :
    ¬ ShowsCursor (printChar info fontData s ch) c r := by
  intro h
  obtain ⟨hbefore, hcell⟩ := showsCursor_erase hs (drawn_printChar s h0)
    (fontColor_switchDraws s ch) (printChar_keeps info fontData s ch).2.1 h
  exact hcell (htrail c r hbefore)

/-- With cursorState set, toggle_cursor takes the glyph away. -/
theorem not_showsCursor_toggleCursor {s : ConsoleState} (hs : Colored s) (htrail : NoTrail s)
    (hstate : s.cursorState = true) (c r : Int) :
    ¬ ShowsCursor (toggleCursor info fontData s) c r := by
  intro h
  obtain ⟨hbefore, hcell⟩ := showsCursor_erase hs (drawn_toggleCursor hstate)
    (fun d hd => absurd hd List.not_mem_nil) (toggleCursor_keeps info fontData s).2.1 h
  exact hcell (htrail c r hbefore)

/-- With cursorState 0, toggle_cursor displays it under the cursor, and leaves the other cells. -/
theorem showsCursor_toggleCursor {s : ConsoleState} (hstate : s.cursorState = false) (c r : Int) :
    ShowsCursor (toggleCursor info fontData s) c r ↔
      c = s.col ∧ r = s.row ∨ ShowsCursor s c r := by
  have hdrawn : (toggleCursor info fontData s).drawn =
      s.drawn ++ [⟨0x7c, s.col, s.row, s.cursorColor, s.backColor⟩] := by
    unfold toggleCursor
    rw [hstate]
    rfl
  have hcursor := (toggleCursor_keeps info fontData s).2.1
  unfold ShowsCursor
  rw [hdrawn, shown_append, hcursor]
  by_cases hcell : c = s.col ∧ r = s.row
  · obtain ⟨rfl, rfl⟩ := hcell
    refine iff_of_true ⟨⟨0x7c, s.col, s.row, s.cursorColor, s.backColor⟩, ?_, rfl, rfl⟩
      (Or.inl ⟨rfl, rfl⟩)
    rw [shown_singleton, if_pos ⟨rfl, rfl⟩, Option.some_or]
  · have hne : ¬ ((s.col : Int) = c ∧ (s.row : Int) = r) := fun h => hcell ⟨h.1.symm, h.2.symm⟩
    rw [shown_singleton, if_neg hne, Option.none_or, or_iff_right hcell]

/-! ## The pixels of a cell -/

/-- The pixels of a cell are as the last call for it left them; with none, they are blank. -/
def Displayed (info : VbeModeInfo) (fontData : Int → BitVec 8) (s : ConsoleState) (c r : Nat) :
    Prop :=
  match shown s.drawn c r with
  | some d => ∃ m, ∀ a ∈ cellBytes info c r, s.vram.read a = (drawFont info fontData d m).read a
  | none => ∀ a ∈ cellBytes info c r, s.vram.read a = 0

theorem Displayed.draw (hs : Suitable info) {s : ConsoleState} {c r col row : Nat}
    (h : InGrid info c r) (h' : InGrid info col row) (hd : Displayed info fontData s c r)
    (ch : BitVec 8) (fontColor backColor : RGB) :
    Displayed info fontData (s.draw info fontData ⟨ch, col, row, fontColor, backColor⟩) c r := by
  have hdrawn : (s.draw info fontData ⟨ch, col, row, fontColor, backColor⟩).drawn =
      s.drawn ++ [⟨ch, col, row, fontColor, backColor⟩] := rfl
  unfold Displayed at hd ⊢
  rw [hdrawn, shown_append, shown_singleton]
  by_cases hcell : (col, row) = (c, r)
  · obtain ⟨rfl, rfl⟩ := Prod.mk.inj hcell
    rw [if_pos ⟨rfl, rfl⟩, Option.some_or]
    exact ⟨s.vram, fun a _ => rfl⟩
  · have hne : ¬ ((col : Int) = c ∧ (row : Int) = r) := by
      intro heq
      exact hcell (Prod.ext (Int.ofNat.inj heq.1) (Int.ofNat.inj heq.2))
    have hread : ∀ a ∈ cellBytes info c r,
        (drawFont info fontData ⟨ch, col, row, fontColor, backColor⟩ s.vram).read a =
          s.vram.read a := by
      intro a ha
      refine (writesIn_drawFont hs h' ch fontColor backColor s.vram).read a fun ha' => ?_
      exact Set.disjoint_left.mp (h'.cellBytes_disjoint h hcell) ha' ha
    rw [if_neg hne, Option.none_or]
    revert hd
    cases shown s.drawn c r with
    | some d =>
      intro hd
      obtain ⟨m, hm⟩ := hd
      exact ⟨m, fun a ha => (hread a ha).trans (hm a ha)⟩
    | none => exact fun hd a ha => (hread a ha).trans (hd a ha)

theorem Redraws.displayed (hs : Suitable info) {c r : Nat} (h : InGrid info c r)
    {s t : ConsoleState} (hst : Redraws info fontData s t) (hd : Displayed info fontData s c r) :
    Displayed info fontData t c r := by
  induction hst with
  | same hv hdrawn =>
    unfold Displayed
    rw [hv, hdrawn]
    exact hd
  | draw s h' ch fontColor backColor => exact hd.draw hs h h' ch fontColor backColor
  | trans _ _ ih ih' => exact ih' (ih hd)

theorem displayed_textStart (hs : Suitable info) {c r : Nat} (h : InGrid info c r)
    (ram : Nat → BitVec 8) : Displayed info fontData (textStart info fontData ram) c r := by
  intro a ha
  obtain ⟨j, hj, i, hi, hpix⟩ := ha
  obtain ⟨hx, hy⟩ := h.pixel_lt hj hi
  exact hs.read_screenClear hx hy _ hpix

theorem InText.textStep (hx : 64 ≤ info.xResolution.toNat) {s : ConsoleState} (h : InText info s)
    (op : TextOp) :
    InText info (textStep info fontData s op) ∧
      Redraws info fontData s (Console.textStep info fontData s op) := by
  cases op with
  | printChar ch => exact ⟨h.printChar fontData hx ch, redraws_printChar fontData h ch⟩
  | toggleCursor => exact ⟨h.toggleCursor fontData, redraws_toggleCursor fontData h⟩

/-- **What is on the screen.** In an accepted mode of at least 64x16 pixels, after console_init on
a cleared screen and any calls, every cell holds what the last _draw_font call for it drew. -/
theorem displayed_textRun {probed : List VbeModeInfo} (hacc : Accepted probed info)
    (hx : 64 ≤ info.xResolution.toNat) (hy : 16 ≤ info.yResolution.toNat) (ram : Nat → BitVec 8)
    (ops : List TextOp) {c r : Nat} (h : InGrid info c r) :
    Displayed info fontData (textRun info fontData ram ops) c r := by
  have hs := hacc.suitable
  have hstart : InText info (textStart info fontData ram) := by
    have hinit := inText_consoleInit ram hx hy
    exact ⟨hinit.width, hinit.height, hinit.col, hinit.row⟩
  refine (foldl_invariant (fun s => InText info s ∧ Displayed info fontData s c r) ?_
    ⟨hstart, displayed_textStart hs h ram⟩ ops).2
  intro s op hinv
  obtain ⟨htext, hd⟩ := hinv
  obtain ⟨htext', hdraws⟩ := htext.textStep hx op
  exact ⟨htext', hdraws.displayed hs h hd⟩

/-! ## Steps and runs -/

theorem printChar_nul (s : ConsoleState) : printChar info fontData s 0 = s := by
  unfold printChar
  rw [if_pos rfl]

theorem NoTrail.step {s : ConsoleState} (h : NoTrail s) (hs : Colored s) (op : TextOp) :
    NoTrail (textStep info fontData s op) := by
  intro c r hshows
  cases op with
  | printChar ch =>
    change ShowsCursor (printChar info fontData s ch) c r at hshows
    by_cases h0 : ch = 0
    · show c = ((printChar info fontData s ch).col : Int) ∧ r = (printChar info fontData s ch).row
      rw [h0, printChar_nul] at hshows ⊢
      exact h c r hshows
    · exact absurd hshows (not_showsCursor_printChar hs h h0 c r)
  | toggleCursor =>
    change ShowsCursor (toggleCursor info fontData s) c r at hshows
    obtain ⟨-, -, hcol, hrow⟩ := toggleCursor_keeps info fontData s
    show c = ((toggleCursor info fontData s).col : Int) ∧ r = (toggleCursor info fontData s).row
    rw [hcol, hrow]
    cases hstate : s.cursorState with
    | true => exact absurd hshows (not_showsCursor_toggleCursor hs h hstate c r)
    | false =>
      obtain hcell | hbefore := (showsCursor_toggleCursor hstate c r).mp hshows
      · exact hcell
      · exact h c r hbefore

/-- What every call keeps. -/
structure Tidy (s : ConsoleState) : Prop where
  colored : Colored s
  noTrail : NoTrail s

theorem Tidy.step {s : ConsoleState} (h : Tidy s) (op : TextOp) :
    Tidy (textStep info fontData s op) :=
  ⟨h.colored.step op, h.noTrail.step h.colored op⟩

theorem not_showsCursor_textStart (ram : Nat → BitVec 8) (c r : Int) :
    ¬ ShowsCursor (textStart info fontData ram) c r := by
  intro h
  obtain ⟨d, hd, -⟩ := h
  cases hd

theorem tidy_textStart (ram : Nat → BitVec 8) : Tidy (textStart info fontData ram) :=
  ⟨⟨rfl, rfl⟩, fun c r h => absurd h (not_showsCursor_textStart ram c r)⟩

theorem tidy_textRun (ram : Nat → BitVec 8) (ops : List TextOp) :
    Tidy (textRun info fontData ram ops) :=
  foldl_invariant Tidy (fun _ op h => h.step op) (tidy_textStart ram) ops

/-- **No cursor trail.** After console_init on a cleared screen and any sequence of print_char
and toggle_cursor calls, no cell but the one under the cursor displays the glyph. Console.Screen has
the same of the pixels (`cursor_pixels`). -/
theorem no_cursor_trail (info : VbeModeInfo) (fontData : Int → BitVec 8) (ram : Nat → BitVec 8)
    (ops : List TextOp) : NoTrail (textRun info fontData ram ops) :=
  (tidy_textRun ram ops).noTrail

/-- A call keeps the flag in step with the screen exactly if it does not print with the flag
set. -/
theorem synced_step_iff {s : ConsoleState} (h : Tidy s) (hsync : Synced s) (op : TextOp) :
    Synced (textStep info fontData s op) ↔ HiddenPrint s op := by
  cases op with
  | printChar ch =>
    show Synced (printChar info fontData s ch) ↔ (ch = 0 ∨ s.cursorState = false)
    by_cases h0 : ch = 0
    · rw [h0, printChar_nul]
      exact iff_of_true hsync (Or.inl rfl)
    · have hstate := (printChar_keeps info fontData s ch).2.2
      unfold Synced
      rw [iff_false_right (not_showsCursor_printChar h.colored h.noTrail h0 _ _), hstate,
        or_iff_right h0, Bool.not_eq_true]
  | toggleCursor =>
    obtain ⟨-, -, hcol, hrow⟩ := toggleCursor_keeps info fontData s
    refine iff_of_true ?_ trivial
    show Synced (toggleCursor info fontData s)
    unfold Synced
    cases hstate : s.cursorState with
    | true =>
      have hoff : ¬ (toggleCursor info fontData s).cursorState = true := by
        rw [toggleCursor_state, hstate, Bool.not_true]
        exact Bool.false_ne_true
      refine iff_of_false hoff ?_
      exact not_showsCursor_toggleCursor h.colored h.noTrail hstate _ _
    | false =>
      have hon : (toggleCursor info fontData s).cursorState = true := by
        rw [toggleCursor_state, hstate, Bool.not_false]
      refine iff_of_true hon ?_
      rw [hcol, hrow]
      exact (showsCursor_toggleCursor hstate _ _).mpr (Or.inl ⟨rfl, rfl⟩)

theorem Tidy.flips {s : ConsoleState} (h : Tidy s) (hsync : Synced s) :
    Flips info fontData s := by
  unfold Flips
  have hflag : s.cursorState = true ↔ ShowsCursor s s.col s.row := hsync
  cases hstate : s.cursorState with
  | true =>
    have hhere := hflag.mp hstate
    have hgone : ¬ ShowsCursor (textStep info fontData s .toggleCursor) s.col s.row :=
      not_showsCursor_toggleCursor h.colored h.noTrail hstate _ _
    exact iff_of_false hgone (not_not_intro hhere)
  | false =>
    have hnot : ¬ ShowsCursor s s.col s.row := by
      rw [← hflag, hstate]
      exact Bool.false_ne_true
    exact iff_of_true ((showsCursor_toggleCursor hstate _ _).mpr (Or.inl ⟨rfl, rfl⟩)) hnot

/-- **The cursor flag.** In a run from console_init, `cursorState` is nonzero exactly while the
glyph is displayed under the cursor, and toggle_cursor flips what is displayed, in every
state, exactly if every print_char of a character finds the flag 0. Console.Screen has the same of
the pixels (`synced_iff_pixels`). -/
theorem cursor_synced_iff (info : VbeModeInfo) (fontData : Int → BitVec 8) (ram : Nat → BitVec 8)
    (ops : List TextOp) :
    (∀ pre, pre <+: ops →
        Synced (textRun info fontData ram pre) ∧
          Flips info fontData (textRun info fontData ram pre)) ↔
      Along (textStep info fontData) HiddenPrint (textStart info fontData ram) ops := by
  have hsynced : (∀ pre, pre <+: ops → Synced (textRun info fontData ram pre)) ↔
      Along (textStep info fontData) HiddenPrint (textStart info fontData ram) ops :=
    forall_prefix_iff_along (J := Tidy) (fun _ op h => h.step op)
      (fun _ op h hsync => synced_step_iff h hsync op) (tidy_textStart ram)
      (iff_of_false Bool.false_ne_true (not_showsCursor_textStart ram _ _)) ops
  rw [← hsynced]
  refine ⟨fun h pre hpre => (h pre hpre).1, fun h pre hpre => ⟨h pre hpre, ?_⟩⟩
  exact (tidy_textRun ram pre).flips (h pre hpre)

/-- toggle_cursor, then 'A': the flag is set and the glyph is nowhere. -/
theorem print_hides_cursor :
    let info : VbeModeInfo := ⟨0x98, 2560, 640, 400, 32, 6, 0xe0000000⟩
    let s := textRun info (fun _ => 0) (fun _ => 0) [.toggleCursor, .printChar 0x41]
    s.cursorState = true ∧ (∀ c r, ¬ ShowsCursor s c r) ∧ ¬ Synced s := by
  intro info s
  have hshown : Tidy (textRun info (fun _ => 0) (fun _ => 0) [.toggleCursor]) :=
    (tidy_textStart _).step .toggleCursor
  have hnowhere : ∀ c r, ¬ ShowsCursor s c r :=
    not_showsCursor_printChar hshown.colored hshown.noTrail (show (0x41 : BitVec 8) ≠ 0 by decide)
  have hstate : s.cursorState = true := (printChar_keeps info _ _ 0x41).2.2
  exact ⟨hstate, hnowhere, fun hsync => hnowhere _ _ (hsync.mp hstate)⟩

end ListaOS.Console
