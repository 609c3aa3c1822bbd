/-
  How print_char moves the cursor, above the last row.

  A printable character moves it one cell on in reading order. A tab moves the row by
  `(col + 8) / consoleWidth` and the column to the next tab stop: one motion exactly if
  `col + 8` and the stop lie on the same row (`motionLaw_iff`), as they always do where the
  width is a multiple of 8 (`motionLaw_of_dvd`).
-/
import ListaOS.Console.Text
import ListaOS.Console.Window

namespace ListaOS.Console

/-- Cells before the cursor, in reading order. -/
def ConsoleState.position (s : ConsoleState) : Nat := s.row * s.consoleWidth + s.col

/-- The next tab stop after a column. -/
def tabStop (col : Nat) : Nat := 8 * (col / 8 + 1)

/-- A printable character moves the cursor by one cell; a tab moves it to the next stop, on
this row if the stop is. -/
structure MotionLaw (info : VbeModeInfo) (fontData : Int → BitVec 8) (s : ConsoleState)
    (ch : BitVec 8) : Prop where
  printable : Printable ch → (printChar info fontData s ch).position = s.position + 1
  tab : ch = 0x09 →
    (printChar info fontData s ch).position = s.row * s.consoleWidth + tabStop s.col
  row : ch = 0x09 → tabStop s.col < s.consoleWidth → (printChar info fontData s ch).row = s.row

/-- A tab whose stop is on the row while eight columns on is the next row. -/
def StraddlesEnd (s : ConsoleState) : Prop :=
  tabStop s.col < s.consoleWidth ∧ s.consoleWidth ≤ s.col + 8

variable {info : VbeModeInfo} {fontData : Int → BitVec 8} {s : ConsoleState}

theorem tabStop_eq (col : Nat) : col + 8 - col % 8 = tabStop col := by
  unfold tabStop
  omega

theorem tabStop_le (col : Nat) : tabStop col ≤ col + 8 := by
  unfold tabStop
  omega

theorem clampRow_of_lt (h : s.row < s.consoleHeight) : clampRow s = s := by
  unfold clampRow
  rw [if_neg (Nat.ne_of_lt h)]

/-- Row and column after `row += (col + n) / consoleWidth` and `col = m % consoleWidth`. -/
structure Moved (s t : ConsoleState) (n m : Nat) : Prop where
  width : t.consoleWidth = s.consoleWidth
  row : t.row = s.row + (s.col + n) / s.consoleWidth
  col : t.col = m % s.consoleWidth

/-- Above the last row neither the wrap at 2^32 nor the clamp plays a part. -/
theorem moved_clampRow (h : InText info s) (hlast : s.row + 1 < s.consoleHeight) {n m : Nat}
    (hn : n ≤ s.consoleWidth) (hm : m < 2 ^ 32) {t : ConsoleState}
    (hwidth : t.consoleWidth = s.consoleWidth) (hheight : t.consoleHeight = s.consoleHeight)
    (hrow : t.row = (s.row + (s.col + n) % 2 ^ 32 / s.consoleWidth) % 2 ^ 32)
    (hcol : t.col = m % 2 ^ 32 % s.consoleWidth) : Moved s (clampRow t) n m := by
  have hX := info.xResolution.isLt
  have hY := info.yResolution.isLt
  have hW := h.width
  have hH := h.height
  have hin := h.col
  have hquot : (s.col + n) / s.consoleWidth ≤ 1 :=
    Nat.lt_succ_iff.mp (Nat.div_lt_of_lt_mul (by omega))
  rw [Nat.mod_eq_of_lt (show s.col + n < 2 ^ 32 by omega), Nat.mod_eq_of_lt (by omega)] at hrow
  rw [Nat.mod_eq_of_lt hm] at hcol
  have hclamp : clampRow t = t := clampRow_of_lt (by omega)
  rw [hclamp]
  exact ⟨hwidth, hrow, hcol⟩

theorem printChar_printable (h : InText info s) (hwide : 8 ≤ s.consoleWidth)
    (hlast : s.row + 1 < s.consoleHeight) {ch : BitVec 8} (hp : Printable ch) :
    Moved s (printChar info fontData s ch) 1 (s.col + 1) := by
  simp only [Printable, List.mem_cons, List.not_mem_nil, or_false, not_or] at hp
  obtain ⟨h0, hb, ht, hn, hr⟩ := hp
  have hsmall : s.col + 1 < 2 ^ 32 := by
    have hX := info.xResolution.isLt
    have hW := h.width
    have hin := h.col
    omega
  unfold printChar printSwitch
  rw [if_neg h0, if_neg hb, if_neg hn, if_neg hr, if_neg ht]
  exact moved_clampRow h hlast (Nat.le_trans (by decide) hwide) hsmall rfl rfl rfl rfl

theorem printChar_tab (h : InText info s) (hwide : 8 ≤ s.consoleWidth)
    (hlast : s.row + 1 < s.consoleHeight) :
    Moved s (printChar info fontData s 0x09) 8 (tabStop s.col) := by
  have hsmall : tabStop s.col < 2 ^ 32 := by
    have hX := info.xResolution.isLt
    have hW := h.width
    have hin := h.col
    have hstop := tabStop_le s.col
    omega
  unfold printChar printSwitch
  rw [if_neg (by decide), if_neg (by decide), if_neg (by decide), if_neg (by decide), if_pos rfl]
  refine moved_clampRow h hlast hwide hsmall rfl rfl rfl ?_
  rw [← tabStop_eq]
  rfl

/-- The cursor moves to `m` in reading order exactly if `col + n` and `m` are on one row. -/
theorem Moved.position_eq_iff {t : ConsoleState} {n m : Nat} (h : Moved s t n m)
    (hpos : 0 < s.consoleWidth) :
    t.position = s.row * s.consoleWidth + m ↔
      (s.col + n) / s.consoleWidth = m / s.consoleWidth := by
  have hm := Nat.div_add_mod' m s.consoleWidth
  unfold ConsoleState.position
  rw [h.width, h.row, h.col, Nat.add_mul, Nat.add_assoc]
  constructor
  · intro heq
    have hmul : (s.col + n) / s.consoleWidth * s.consoleWidth =
        m / s.consoleWidth * s.consoleWidth := by
      omega
    exact Nat.eq_of_mul_eq_mul_right hpos hmul
  · intro heq
    rw [heq]
    omega

theorem motionLaw_of_printable (h : InText info s) (hwide : 8 ≤ s.consoleWidth)
    (hlast : s.row + 1 < s.consoleHeight) {ch : BitVec 8} (hp : Printable ch) :
    (printChar info fontData s ch).position = s.position + 1 :=
  ((printChar_printable h hwide hlast hp).position_eq_iff (by omega)).mpr rfl

/-- Eight columns on and the next stop are on one row unless the end of the row is between
them. -/
theorem quotients_eq_iff (h : InText info s) (hwide : 8 ≤ s.consoleWidth) :
    (s.col + 8) / s.consoleWidth = tabStop s.col / s.consoleWidth ↔ ¬ StraddlesEnd s := by
  have hin := h.col
  have hstop := tabStop_le s.col
  have hone : ∀ m, s.consoleWidth ≤ m → m < 2 * s.consoleWidth → m / s.consoleWidth = 1 := by
    intro m hle hlt
    exact Nat.div_eq_of_lt_le (by omega) (by omega)
  unfold StraddlesEnd
  by_cases hnear : s.col + 8 < s.consoleWidth
  · rw [Nat.div_eq_of_lt hnear, Nat.div_eq_of_lt (by omega)]
    exact iff_of_true rfl (by omega)
  · rw [hone (s.col + 8) (by omega) (by omega)]
    by_cases hfar : tabStop s.col < s.consoleWidth
    · rw [Nat.div_eq_of_lt hfar]
      exact iff_of_false (by decide) (by omega)
    · rw [hone (tabStop s.col) (by omega) (by omega)]
      exact iff_of_true rfl (by omega)

theorem motionLaw_of_not_straddlesEnd (h : InText info s) (hwide : 8 ≤ s.consoleWidth)
    (hlast : s.row + 1 < s.consoleHeight) {ch : BitVec 8} (hgood : ch = 0x09 → ¬ StraddlesEnd s) :
    MotionLaw info fontData s ch := by
  refine ⟨fun hp => motionLaw_of_printable h hwide hlast hp, ?_, ?_⟩
  · rintro rfl
    have hquot := (quotients_eq_iff h hwide).mpr (hgood rfl)
    exact ((printChar_tab h hwide hlast).position_eq_iff (by omega)).mpr hquot
  · rintro rfl hfar
    have hnear : s.col + 8 < s.consoleWidth := by
      by_contra hge
      exact hgood rfl ⟨hfar, Nat.le_of_not_lt hge⟩
    rw [(printChar_tab h hwide hlast).row, Nat.div_eq_of_lt hnear, Nat.add_zero]

/-- Where the width is a multiple of 8 the end of the row is a tab stop. -/
theorem motionLaw_of_dvd (h : InText info s) (hwide : 8 ≤ s.consoleWidth)
    (hlast : s.row + 1 < s.consoleHeight) (hdvd : 8 ∣ s.consoleWidth) (ch : BitVec 8) :
    MotionLaw info fontData s ch := by
  refine motionLaw_of_not_straddlesEnd h hwide hlast fun _ hend => ?_
  obtain ⟨hfar, hge⟩ := hend
  obtain ⟨k, hk⟩ := hdvd
  unfold tabStop at hfar
  omega

/-- **Cursor motion.** On a grid at least 8 columns wide and above the last row, a character
moves the cursor as it should exactly if it is not a tab whose stop is on the row while
eight columns on is the next row. -/
theorem motionLaw_iff (h : InText info s) (hwide : 8 ≤ s.consoleWidth)
    (hlast : s.row + 1 < s.consoleHeight) (ch : BitVec 8) :
    MotionLaw info fontData s ch ↔ ¬ (ch = 0x09 ∧ StraddlesEnd s) := by
  constructor
  · intro hlaw hbad
    obtain ⟨rfl, hend⟩ := hbad
    have htab : Moved s (printChar info fontData s 0x09) 8 (tabStop s.col) :=
      printChar_tab h hwide hlast
    have hquot := (htab.position_eq_iff (by omega)).mp (hlaw.tab rfl)
    exact (quotients_eq_iff h hwide).mp hquot hend
  · intro hgood
    exact motionLaw_of_not_straddlesEnd h hwide hlast fun hch hend => hgood ⟨hch, hend⟩

theorem motionLaw_iff_tab :
    let info : VbeModeInfo := ⟨0x98, 3200, 800, 600, 32, 6, 0xe0000000⟩
    let s := consoleInit info (ConsoleState.boot (Lib.Mem.fresh fun _ => 0))
    MotionLaw info (fun _ => 0) s 0x09 ↔ ¬ ((0x09 : BitVec 8) = 0x09 ∧ StraddlesEnd s) := by
  intro info s
  have h : InText info s := inText_consoleInit _ (by decide) (by decide)
  exact motionLaw_iff h (by decide) (by decide) 0x09

/-- 800 pixels make 100 columns. At column 93 the stop is 96, and the tab goes to column 96 of
the next row. -/
theorem tab_skips_row :
    let info : VbeModeInfo := ⟨0x98, 3200, 800, 600, 32, 6, 0xe0000000⟩
    let s := consoleRun (fun _ => 0) info (fun _ => 0)
      (List.replicate 11 (.printChar 0x09) ++ List.replicate 5 (.printChar 0x41))
    let t := printChar info (fun _ => 0) s 0x09
    (s.consoleWidth = 100 ∧ s.row = 0 ∧ s.col = 93) ∧ (t.row = 1 ∧ t.col = 96) ∧
      ¬ MotionLaw info (fun _ => 0) s 0x09 := by
  intro info s t
  have hs : s.consoleWidth = 100 ∧ s.row = 0 ∧ s.col = 93 := by decide +kernel
  have ht : t.row = 1 ∧ t.col = 96 := by decide +kernel
  refine ⟨hs, ht, fun h => ?_⟩
  have hrow : t.row = s.row := h.row rfl (by rw [hs.1, hs.2.2]; decide)
  rw [ht.1, hs.2.1] at hrow
  exact absurd hrow (by decide)

end ListaOS.Console
