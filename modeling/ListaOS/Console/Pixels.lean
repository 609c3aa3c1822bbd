/-
  The pixels that _draw_font leaves (libkernel/console.c, display.c).

  `PixelIs` says what color the three bytes of a pixel are, `CellIs` that a cell has the pixels
  of a glyph. `cellIs_drawFont`: that is what _draw_font leaves, in a suitable mode. With the
  font of font.c the pixels of a cell tell which character from ' ' on it has (`CellIs.unique`).
-/
import ListaOS.Console.Cursor
import ListaOS.Console.Font

namespace ListaOS.Console

open Lib

def pixelBase (info : VbeModeInfo) (x y : Nat) : Nat :=
  0xc1000000 + (info.xResolution.toNat * y + x) * (info.bitsPerPixel.toNat / 8)

/-- The pixel `(x, y)` has a color. -/
structure PixelIs (info : VbeModeInfo) (m : Mem (BitVec 8)) (x y : Nat) (rgb : RGB) : Prop where
  blue : m.read (pixelBase info x y) = rgb.B
  green : m.read (pixelBase info x y + 1) = rgb.G
  red : m.read (pixelBase info x y + 2) = rgb.R

/-- Pixel `j` of line `i` of the glyph of a character is set. -/
def glyphBit (fontData : Int → BitVec 8) (ch : BitVec 8) (j i : Nat) : Bool :=
  (fontData (ch.toInt * 16 + i)).getLsbD (7 - j)

/-- The cell has the pixels of the glyph of `ch`. -/
def CellIs (info : VbeModeInfo) (fontData : Int → BitVec 8) (m : Mem (BitVec 8)) (c r : Nat)
    (ch : BitVec 8) (fontColor backColor : RGB) : Prop :=
  ∀ j < 8, ∀ i < 16, PixelIs info m (8 * c + j) (16 * r + i)
    (if glyphBit fontData ch j i then fontColor else backColor)

variable {info : VbeModeInfo} {fontData : Int → BitVec 8}

/-! ## One pixel -/

theorem PixelIs.congr (hs : Suitable info) {m m' : Mem (BitVec 8)} {x y : Nat} {rgb : RGB}
    (h : PixelIs info m x y rgb) (hm : ∀ a ∈ pixelBytes info x y, m'.read a = m.read a) :
    PixelIs info m' x y rgb := by
  have hbytes := hs.bytes_pos
  have hin : ∀ k < 3, pixelBase info x y + k ∈ pixelBytes info x y :=
    fun k hk => ⟨k, by omega, rfl⟩
  exact ⟨(hm _ (hin 0 (by decide))).trans h.blue, (hm _ (hin 1 (by decide))).trans h.green,
    (hm _ (hin 2 (by decide))).trans h.red⟩

theorem pixelIs_drawPixel (hs : Suitable info) {x y : Nat} (hx : x < info.xResolution.toNat)
    (hy : y < info.yResolution.toNat) (rgb : RGB) (m : Mem (BitVec 8)) :
    PixelIs info (drawPixel info x y rgb m) x y rgb := by
  have hend := pixel_end_le (B := info.bitsPerPixel.toNat / 8) hx hy
  have hframe := hs.frame_le
  have hbytes := hs.bytes_pos
  have hbase : (pixelAddr info x y).toNat = pixelBase info x y := hs.toNat_pixelAddr hx hy
  have hlt : pixelBase info x y + 2 < 2 ^ 32 := by
    unfold pixelBase
    omega
  have hnext : ∀ b : BitVec 32, b.toNat ≤ 2 →
      (pixelAddr info x y + b).toNat = pixelBase info x y + b.toNat := by
    intro b hb
    rw [BitVec.toNat_add, hbase]
    omega
  have hone : (pixelAddr info x y + 1).toNat = pixelBase info x y + 1 := hnext 1 (by decide)
  have htwo : (pixelAddr info x y + 2).toNat = pixelBase info x y + 2 := hnext 2 (by decide)
  unfold drawPixel
  dsimp only
  rw [hbase, hone, htwo]
  constructor
  case blue =>
    rw [Mem.read_write_of_ne _ _ (by omega), Mem.read_write_of_ne _ _ (by omega),
      Mem.read_write_self]
  case green => rw [Mem.read_write_of_ne _ _ (by omega), Mem.read_write_self]
  case red => exact Mem.read_write_self _ _ _

/-- The other pixels keep their colors. -/
theorem PixelIs.drawPixel_of_ne (hs : Suitable info) {m : Mem (BitVec 8)} {x y x' y' : Nat}
    {rgb : RGB} (h : PixelIs info m x y rgb) (hx : x < info.xResolution.toNat)
    (hx' : x' < info.xResolution.toNat) (hy' : y' < info.yResolution.toNat)
    (hne : (x, y) ≠ (x', y')) (rgb' : RGB) :
    PixelIs info (drawPixel info x' y' rgb' m) x y rgb := by
  refine h.congr hs fun a ha => (hs.writesIn_drawPixel hx' hy' rgb' m).read a fun ha' => ?_
  exact Set.disjoint_left.mp (Suitable.pixelBytes_disjoint hx hx' hne) ha ha'

/-! ## One line of a glyph -/

/-- The test of `_draw_font`. -/
theorem bit_seven (data : BitVec 8) : data &&& 0x80 ≠ 0 ↔ data.getLsbD 7 = true := by
  revert data
  decide

/-- Drawing pixel `j` of a line, with the coordinates as natural numbers. -/
theorem drawPixel_cell (c r j i : Nat) (rgb : RGB) (m : Mem (BitVec 8)) :
    drawPixel info ((c : Int) * 8 + j) ((r : Int) * 16 + i) rgb m =
      drawPixel info (8 * c + j : Nat) (16 * r + i : Nat) rgb m := by
  have hcol : (c : Int) * 8 + j = ((8 * c + j : Nat) : Int) := by omega
  have hrow : (r : Int) * 16 + i = ((16 * r + i : Nat) : Int) := by omega
  rw [hcol, hrow]

theorem drawLine_succ (c r i : Nat) (fontColor backColor : RGB) (n j : Nat) (data : BitVec 8)
    (m : Mem (BitVec 8)) :
    drawLine info ((c : Int) * 8) ((r : Int) * 16 + i) fontColor backColor (n + 1) j data m =
      drawLine info ((c : Int) * 8) ((r : Int) * 16 + i) fontColor backColor n (j + 1) (data <<< 1)
        (drawPixel info (8 * c + j : Nat) (16 * r + i : Nat)
          (if data.getLsbD 7 then fontColor else backColor) m) := by
  rw [drawLine, drawPixel_cell, drawPixel_cell]
  by_cases hbit : data.getLsbD 7 = true
  · rw [if_pos ((bit_seven data).mpr hbit), if_pos hbit]
  · rw [if_neg fun h => hbit ((bit_seven data).mp h), if_neg hbit]

section

variable (hs : Suitable info) {c r : Nat} (hgrid : InGrid info c r)

include hs hgrid

/-- A line leaves the pixels that it does not draw. -/
theorem PixelIs.drawLine {m : Mem (BitVec 8)} {x y : Nat} {rgb : RGB} (h : PixelIs info m x y rgb)
    (hx : x < info.xResolution.toNat) {i : Nat} (hi : i < 16) (fontColor backColor : RGB)
    (n j : Nat) (hj : j + n ≤ 8) (data : BitVec 8)
    (hother : ∀ k, j ≤ k → k < 8 → (x, y) ≠ (8 * c + k, 16 * r + i)) :
    PixelIs info (Console.drawLine info ((c : Int) * 8) ((r : Int) * 16 + i) fontColor backColor n j
      data m) x y rgb := by
  induction n generalizing j data m with
  | zero => exact h
  | succ n ih =>
    obtain ⟨hx', hy'⟩ := hgrid.pixel_lt (j := j) (by omega) hi
    rw [drawLine_succ]
    exact ih (h.drawPixel_of_ne hs hx hx' hy' (hother j (Nat.le_refl _) (by omega)) _) (j + 1)
      (by omega) (data <<< 1) fun k hk hk8 => hother k (by omega) hk8

/-- What a line draws: bit `7 - k` of the byte in pixel `k` from the current one on. -/
theorem pixelIs_drawLine {i : Nat} (hi : i < 16) (fontColor backColor : RGB) (n j : Nat)
    (hj : j + n ≤ 8) (data : BitVec 8) (m : Mem (BitVec 8)) {k : Nat} (hk : k < n) :
    PixelIs info (Console.drawLine info ((c : Int) * 8) ((r : Int) * 16 + i) fontColor backColor n j
      data m) (8 * c + (j + k)) (16 * r + i)
      (if data.getLsbD (7 - k) then fontColor else backColor) := by
  induction n generalizing j data m k with
  | zero => exact absurd hk (Nat.not_lt_zero k)
  | succ n ih =>
    rw [drawLine_succ]
    cases k with
    | zero =>
      obtain ⟨hx, hy⟩ := hgrid.pixel_lt (j := j) (by omega) hi
      refine PixelIs.drawLine hs hgrid (pixelIs_drawPixel hs hx hy _ m) hx hi fontColor backColor
        n (j + 1) (by omega) (data <<< 1) fun k hk _ heq => ?_
      have hcol := congrArg Prod.fst heq
      simp only at hcol
      omega
    | succ k =>
      have hbit : (data <<< 1).getLsbD (7 - k) = data.getLsbD (7 - (k + 1)) := by
        rw [BitVec.getLsbD_shiftLeft]
        have hlt : 7 - k < 8 := by omega
        have hge : ¬ 7 - k < 1 := by omega
        simp only [hlt, hge, decide_true, decide_false, Bool.not_false, Bool.true_and]
        congr 1
      have hrest := ih (j + 1) (by omega) (data <<< 1) (drawPixel info (8 * c + j : Nat)
        (16 * r + i : Nat) (if data.getLsbD 7 then fontColor else backColor) m) (k := k) (by omega)
      rw [hbit] at hrest
      rw [show j + (k + 1) = j + 1 + k by omega]
      exact hrest

/-! ## A cell -/

/-- **_draw_font draws the glyph.** -/
theorem cellIs_drawFont (ch : BitVec 8) (fontColor backColor : RGB) (m : Mem (BitVec 8)) :
    CellIs info fontData (drawFont info fontData ⟨ch, c, r, fontColor, backColor⟩ m) c r ch fontColor
      backColor := by
  -- the lines drawn so far keep their pixels while the next ones are drawn
  have hlines : ∀ n ≤ 16, ∀ j < 8, ∀ i < n,
      PixelIs info ((List.range n).foldl (fun m (i : Nat) =>
        drawLine info ((c : Int) * 8) ((r : Int) * 16 + i) fontColor backColor 8 0
          (fontData (ch.toInt * 16 + i)) m) m) (8 * c + j) (16 * r + i)
        (if glyphBit fontData ch j i then fontColor else backColor) := by
    intro n hn
    induction n with
    | zero => exact fun _ _ i hi => absurd hi (Nat.not_lt_zero i)
    | succ n ih =>
      intro j hj i hi
      rw [List.range_succ, List.foldl_append, List.foldl_cons, List.foldl_nil]
      obtain hlt | rfl := Nat.lt_succ_iff_lt_or_eq.mp hi
      · have hx := (hgrid.pixel_lt hj (show i < 16 by omega)).1
        refine PixelIs.drawLine hs hgrid (ih (by omega) j hj i hlt) hx (by omega) fontColor backColor
          8 0 (by decide) _ fun k _ _ heq => ?_
        have hrow := congrArg Prod.snd heq
        simp only at hrow
        omega
      · have hdrawn := pixelIs_drawLine hs hgrid (i := i) (by omega) fontColor backColor 8 0
          (by decide) (fontData (ch.toInt * 16 + i)) (m := (List.range i).foldl (fun m (i : Nat) =>
            drawLine info ((c : Int) * 8) ((r : Int) * 16 + i) fontColor backColor 8 0
              (fontData (ch.toInt * 16 + i)) m) m) hj
        rw [Nat.zero_add] at hdrawn
        exact hdrawn
  exact fun j hj i hi => hlines 16 (Nat.le_refl _) j hj i hi

omit hgrid in
theorem CellIs.congr {m m' : Mem (BitVec 8)} {ch : BitVec 8} {fontColor backColor : RGB}
    (h : CellIs info fontData m c r ch fontColor backColor)
    (hm : ∀ a ∈ cellBytes info c r, m'.read a = m.read a) :
    CellIs info fontData m' c r ch fontColor backColor :=
  fun j hj i hi => (h j hj i hi).congr hs fun a ha => hm a ⟨j, hj, i, hi, ha⟩

end

/-- A pixel is white or black, not both. -/
theorem PixelIs.bit_unique {m : Mem (BitVec 8)} {x y : Nat} {b b' : Bool}
    (h : PixelIs info m x y (if b then colorWhite else colorBlack))
    (h' : PixelIs info m x y (if b' then colorWhite else colorBlack)) : b = b' := by
  have hred := h.red.symm.trans h'.red
  revert hred
  cases b <;> cases b' <;> decide

/-- The pixels of a cell tell its character. -/
theorem CellIs.unique {around : Int → BitVec 8} {m : Mem (BitVec 8)} {c r : Nat} {ch ch' : BitVec 8}
    (hch : 0x20 ≤ ch.toNat ∧ ch.toNat < 0x80) (hch' : 0x20 ≤ ch'.toNat ∧ ch'.toNat < 0x80)
    (h : CellIs info (Font.fontData around) m c r ch colorWhite colorBlack)
    (h' : CellIs info (Font.fontData around) m c r ch' colorWhite colorBlack) : ch = ch' := by
  refine Font.glyph_injective around hch hch' fun i hi => BitVec.eq_of_getLsbD_eq fun k hk => ?_
  have hbit := (h (7 - k) (by omega) i hi).bit_unique (h' (7 - k) (by omega) i hi)
  unfold glyphBit at hbit
  rwa [show 7 - (7 - k) = k by omega] at hbit

end ListaOS.Console
