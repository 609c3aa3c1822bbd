/-
  Pixels and the scan lines of the card.

  A VBE scan line is bytesPerScanLine bytes long, at least the bytes of its pixels.
  draw_pixel takes it to be exactly as long (`toNat_pixelAddr`). `onScanLines_iff`: pixels
  and glyph rows lie where the card displays them exactly if the lines are unpadded, or
  there is only one.
-/
import ListaOS.Console.Basic

namespace ListaOS.Console

open Lib

/-- Where the card looks for pixel `(x, y)`, from the frame buffer base. -/
def vbeOffset (info : VbeModeInfo) (x y : Nat) : Nat :=
  y * info.bytesPerScanLine.toNat + x * (info.bitsPerPixel.toNat / 8)

/-- The bytes that the card displays as line `y`. -/
def scanLine (info : VbeModeInfo) (y : Nat) : Set Nat :=
  {a | 0xc1000000 + vbeOffset info 0 y ≤ a ∧
    a < 0xc1000000 + vbeOffset info info.xResolution.toNat y}

/-- `m'` comes from `m` by storing a color at `a`. -/
structure Stored (a : Nat) (rgb : RGB) (m m' : Mem (BitVec 8)) : Prop where
  log : m'.log = (a + 2) :: (a + 1) :: a :: m.log
  blue : m'.read a = rgb.B
  green : m'.read (a + 1) = rgb.G
  red : m'.read (a + 2) = rgb.R

/-- Every pixel is stored at its VBE offset, within 8 MB, and row `i` of a glyph in text row `r`
on scan line `16 * r + i`. -/
structure OnScanLines (info : VbeModeInfo) : Prop where
  pixel : ∀ x < info.xResolution.toNat, ∀ y < info.yResolution.toNat, ∀ rgb m,
    Stored (0xc1000000 + vbeOffset info x y) rgb m (drawPixel info x y rgb m)
  fits : ∀ x < info.xResolution.toNat, ∀ y < info.yResolution.toNat,
    vbeOffset info x y + info.bitsPerPixel.toNat / 8 ≤ 0x800000
  glyph : ∀ col row, InGrid info col row → ∀ i < 16, ∀ fontColor backColor data m,
    Mem.WritesIn (scanLine info (16 * row + i)) m
      (drawLine info ((col : Int) * 8) ((row : Int) * 16 + i) fontColor backColor 8 0 data m)

variable {info : VbeModeInfo}

theorem Stored.unique {a b : Nat} {rgb : RGB} {m m' : Mem (BitVec 8)} (h : Stored a rgb m m')
    (h' : Stored b rgb m m') : a = b := by
  have hlog := h.log.symm.trans h'.log
  injection hlog with hhead
  omega

theorem stored_drawPixel (hs : Suitable info) {x y : Nat} (hx : x < info.xResolution.toNat)
    (hy : y < info.yResolution.toNat) (rgb : RGB) (m : Mem (BitVec 8)) :
    Stored (0xc1000000 + (info.xResolution.toNat * y + x) * (info.bitsPerPixel.toNat / 8)) rgb m
      (drawPixel info x y rgb m) := by
  have hend := pixel_end_le (B := info.bitsPerPixel.toNat / 8) hx hy
  have hframe := hs.frame_le
  have haddr := hs.toNat_pixelAddr hx hy
  have hgreen : (pixelAddr info x y + 1).toNat = (pixelAddr info x y).toNat + 1 := by
    rw [BitVec.toNat_add, haddr, show (1 : BitVec 32).toNat = 1 from rfl]
    omega
  have hred : (pixelAddr info x y + 2).toNat = (pixelAddr info x y).toNat + 2 := by
    rw [BitVec.toNat_add, haddr, show (2 : BitVec 32).toNat = 2 from rfl]
    omega
  rw [← haddr]
  unfold drawPixel
  dsimp only
  rw [hgreen, hred]
  refine ⟨rfl, ?_, ?_, Mem.read_write_self _ _ _⟩
  · rw [Mem.read_write_of_ne _ _ (by omega), Mem.read_write_of_ne _ _ (by omega),
      Mem.read_write_self]
  · rw [Mem.read_write_of_ne _ _ (by omega), Mem.read_write_self]

/-- Where the lines hold no padding, a pixel's bytes are those at its VBE offset. -/
theorem vbeOffset_eq {x y : Nat} (hline : y * info.bytesPerScanLine.toNat =
      info.xResolution.toNat * y * (info.bitsPerPixel.toNat / 8)) :
    vbeOffset info x y =
      (info.xResolution.toNat * y + x) * (info.bitsPerPixel.toNat / 8) := by
  rw [vbeOffset, hline, Nat.add_mul]

theorem pixelBytes_subset_scanLine {x y : Nat} (hx : x < info.xResolution.toNat)
    (hline : y * info.bytesPerScanLine.toNat =
      info.xResolution.toNat * y * (info.bitsPerPixel.toNat / 8)) :
    pixelBytes info x y ⊆ scanLine info y := by
  intro a ha
  obtain ⟨k, hk, rfl⟩ := ha
  have hend : x * (info.bitsPerPixel.toNat / 8) + info.bitsPerPixel.toNat / 8 ≤
      info.xResolution.toNat * (info.bitsPerPixel.toNat / 8) := by
    rw [← Nat.succ_mul]
    exact Nat.mul_le_mul_right _ hx
  rw [← vbeOffset_eq hline]
  unfold scanLine vbeOffset
  exact ⟨by omega, by omega⟩

theorem onScanLines_of_unpadded (hs : Suitable info)
    (hline : ∀ y < info.yResolution.toNat, y * info.bytesPerScanLine.toNat =
      info.xResolution.toNat * y * (info.bitsPerPixel.toNat / 8)) : OnScanLines info where
  pixel := by
    intro x hx y hy rgb m
    rw [vbeOffset_eq (hline y hy)]
    exact stored_drawPixel hs hx hy rgb m
  fits := by
    intro x hx y hy
    rw [vbeOffset_eq (hline y hy)]
    exact Nat.le_trans (pixel_end_le hx hy) hs.frame_le
  glyph := by
    intro col row h i hi fontColor backColor data m
    refine writesIn_drawLine hs h hi ?_ fontColor backColor 8 0 (Nat.le_refl 8) data m
    intro j hj
    obtain ⟨hx, hy⟩ := h.pixel_lt hj hi
    exact pixelBytes_subset_scanLine hx (hline _ hy)

/-- **Pixels and scan lines.** In an accepted mode, whatever bytesPerScanLine it reports, every
pixel is stored at its VBE offset within 8 MB and every glyph row on its scan line exactly
if the scan lines hold no padding or there is only one. The offset is from VRAM_BASE, the base that
draw_pixel uses; it is the frame buffer's own base if physBasePtr is page-aligned, as is meant. -/
theorem onScanLines_iff (probed : List VbeModeInfo) (info : VbeModeInfo)
    (hacc : Accepted probed info) :
    OnScanLines info ↔
      info.bytesPerScanLine.toNat = info.xResolution.toNat * (info.bitsPerPixel.toNat / 8) ∨
        info.yResolution.toNat ≤ 1 := by
  have hs := hacc.suitable
  constructor
  · intro h
    refine (Nat.lt_or_ge 1 info.yResolution.toNat).imp (fun hy => ?_) id
    -- the first pixel of the second line
    have hx := hacc.xResolution_pos
    have hoff := (h.pixel 0 hx 1 hy colorBlack (Mem.fresh fun _ => 0)).unique
      (stored_drawPixel hs hx hy colorBlack _)
    unfold vbeOffset at hoff
    rw [Nat.one_mul, Nat.mul_one, Nat.add_zero, Nat.zero_mul, Nat.add_zero] at hoff
    exact Nat.add_left_cancel hoff
  · intro h
    refine onScanLines_of_unpadded hs fun y hy => ?_
    obtain hpitch | hone := h
    · rw [hpitch, Nat.mul_comm info.xResolution.toNat y, Nat.mul_assoc]
    · rw [show y = 0 by omega, Nat.zero_mul, Nat.mul_zero, Nat.zero_mul]

theorem onScanLines_iff_vga :
    let info : VbeModeInfo := ⟨0x98, 2560, 640, 480, 32, 6, 0xe0000000⟩
    OnScanLines info ↔
      info.bytesPerScanLine.toNat = info.xResolution.toNat * (info.bitsPerPixel.toNat / 8) ∨
        info.yResolution.toNat ≤ 1 := by
  have hacc : Accepted [] ⟨0x98, 2560, 640, 480, 32, 6, 0xe0000000⟩ :=
    ⟨0, 1228800, rfl, by decide⟩
  exact onScanLines_iff [] _ hacc

/-- 1366x768 with lines of 5504 bytes: draw_pixel stores the first pixel of the second line 40
bytes before the line. -/
theorem padded_line :
    let info : VbeModeInfo := ⟨0x98, 5504, 1366, 768, 32, 6, 0xe0000000⟩
    Accepted [] info ∧
      info.xResolution.toNat * (info.bitsPerPixel.toNat / 8) ≤ info.bytesPerScanLine.toNat ∧
      (pixelAddr info 0 1).toNat + 40 = 0xc1000000 + vbeOffset info 0 1 ∧ ¬ OnScanLines info := by
  intro info
  have haddr : (pixelAddr info 0 1).toNat + 40 = 0xc1000000 + vbeOffset info 0 1 := by
    decide +kernel
  have hacc : Accepted [] info := ⟨0, 4196352, rfl, by decide⟩
  refine ⟨hacc, by decide, haddr, fun h => ?_⟩
  have hstored := stored_drawPixel hacc.suitable (x := 0) (y := 1) (by decide) (by decide)
    colorBlack (Mem.fresh fun _ => 0)
  have hoff := (h.pixel 0 (by decide) 1 (by decide) colorBlack _).unique hstored
  exact absurd hoff (by decide +kernel)

end ListaOS.Console
