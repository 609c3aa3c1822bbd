/-
  Pixels in video memory (libkernel/display.c, color.c).

  draw_pixel computes `(X_RES * y + x) * BYTE_PER_PIXEL` in `int` and adds VRAM_BASE; the
  address is taken mod 2^32 at the end, so the model computes in `Int`. Video memory is the
  byte memory at virtual addresses; its log is what was stored to.

  For a suitable mode, `pixelBytes` are the bytes of one pixel: inside the window
  0xc1000000..0xc17fffff (`pixelBytes_subset_window`), and of different pixels disjoint
  (`pixelBytes_disjoint`). display_init maps the window (`displayInit_maps`).
-/
import ListaOS.Console.VideoMode
import ListaOS.Paging.Window
import Mathlib.Data.Set.Lattice
import Mathlib.Order.CompletePartialOrder

namespace ListaOS.Console

open Lib

structure RGB where
  R : BitVec 8
  G : BitVec 8
  B : BitVec 8

def colorBlack : RGB := ⟨0x00, 0x00, 0x00⟩

def colorWhite : RGB := ⟨0xff, 0xff, 0xff⟩

def colorGrey : RGB := ⟨0x80, 0x80, 0x80⟩

def vramBase : BitVec 32 := 0xc1000000

/-- The address of pixel `(x, y)`. -/
def pixelAddr (info : VbeModeInfo) (x y : Int) : BitVec 32 :=
  BitVec.ofInt 32 ((info.xResolution.toNat * y + x) * ((info.bitsPerPixel.toNat / 8 : Nat) : Int)) +
    vramBase

def drawPixel (info : VbeModeInfo) (x y : Int) (rgb : RGB) (m : Mem (BitVec 8)) : Mem (BitVec 8) :=
  let pixelAddr := pixelAddr info x y
  let m := m.write pixelAddr.toNat rgb.B
  let m := m.write (pixelAddr + 1).toNat rgb.G
  m.write (pixelAddr + 2).toNat rgb.R

structure DisplayInfo where
  width : Nat
  height : Nat
  bytePerPixel : Nat

def getDisplayInfo (info : VbeModeInfo) : DisplayInfo where
  width := info.xResolution.toNat
  height := info.yResolution.toNat
  bytePerPixel := info.bitsPerPixel.toNat / 8

/-- `memset` of `X_RES * Y_RES * BYTE_PER_PIXEL` bytes. -/
def screenClear (info : VbeModeInfo) (m : Mem (BitVec 8)) : Mem (BitVec 8) :=
  Mem.repStosb 0
    (info.xResolution.toNat * info.yResolution.toNat * (info.bitsPerPixel.toNat / 8) % 2 ^ 32)
    vramBase m

/-! ## Bytes of a pixel -/

/-- The mapped video memory. -/
def window : Set Nat := {a | 0xc1000000 ≤ a ∧ a < 0xc1800000}

def pixelBytes (info : VbeModeInfo) (x y : Nat) : Set Nat :=
  {a | ∃ k < info.bitsPerPixel.toNat / 8,
    a = 0xc1000000 + (info.xResolution.toNat * y + x) * (info.bitsPerPixel.toNat / 8) + k}

/-- A pixel's last byte lies before the end of the frame buffer. -/
theorem pixel_end_le {X Y B x y : Nat} (hx : x < X) (hy : y < Y) :
    (X * y + x) * B + B ≤ X * Y * B := by
  have hrow : X * y + x + 1 ≤ X * Y := by
    calc X * y + x + 1 ≤ X * y + X := by omega
      _ = X * (y + 1) := by rw [Nat.mul_succ]
      _ ≤ X * Y := Nat.mul_le_mul_left X hy
  calc (X * y + x) * B + B = (X * y + x + 1) * B := by rw [Nat.succ_mul]
    _ ≤ X * Y * B := Nat.mul_le_mul_right B hrow

/-- Quotient of a division by `B` with its remainder split off. -/
theorem quotient_inj {B q q' k k' : Nat} (hk : k < B) (hk' : k' < B)
    (h : B * q + k = B * q' + k') : q = q' := by
  have hB : 0 < B := Nat.zero_lt_of_lt hk
  have hdiv : (B * q + k) / B = (B * q' + k') / B := by rw [h]
  rwa [Nat.mul_add_div hB, Nat.mul_add_div hB, Nat.div_eq_of_lt hk, Nat.div_eq_of_lt hk'] at hdiv

namespace Suitable

variable {info : VbeModeInfo}

/-- Whole bytes per pixel: the frame buffer still fits. -/
theorem frame_le (h : Suitable info) :
    info.xResolution.toNat * info.yResolution.toNat * (info.bitsPerPixel.toNat / 8) ≤ 0x800000 := by
  refine Nat.le_trans ?_ h.vram
  unfold VbeModeInfo.vram
  rw [Nat.le_div_iff_mul_le (by decide), Nat.mul_assoc, Nat.mul_assoc info.bitsPerPixel.toNat,
    Nat.mul_comm info.bitsPerPixel.toNat]
  exact Nat.mul_le_mul_left _ (Nat.div_mul_le_self _ _)

theorem bytes_pos (h : Suitable info) : 3 ≤ info.bitsPerPixel.toNat / 8 := by
  have := h.depth
  omega

theorem pixelBytes_subset_window (h : Suitable info) {x y : Nat}
    (hx : x < info.xResolution.toNat) (hy : y < info.yResolution.toNat) :
    pixelBytes info x y ⊆ window := by
  intro a ha
  obtain ⟨k, hk, rfl⟩ := ha
  have hend := pixel_end_le (B := info.bitsPerPixel.toNat / 8) hx hy
  have hframe := h.frame_le
  exact ⟨by omega, by omega⟩

theorem pixelBytes_disjoint {x y x' y' : Nat} (hx : x < info.xResolution.toNat)
    (hx' : x' < info.xResolution.toNat) (hne : (x, y) ≠ (x', y')) :
    Disjoint (pixelBytes info x y) (pixelBytes info x' y') := by
  rw [Set.disjoint_left]
  intro a ha ha'
  obtain ⟨k, hk, rfl⟩ := ha
  obtain ⟨k', hk', heq⟩ := ha'
  have hpix : info.xResolution.toNat * y + x = info.xResolution.toNat * y' + x' := by
    refine quotient_inj hk hk' ?_
    rw [Nat.mul_comm _ (_ + x), Nat.mul_comm _ (_ + x')]
    omega
  have hyy : y = y' := quotient_inj hx hx' hpix
  subst hyy
  exact hne (by rw [Nat.add_left_cancel hpix])

theorem toNat_pixelAddr (h : Suitable info) {x y : Nat} (hx : x < info.xResolution.toNat)
    (hy : y < info.yResolution.toNat) :
    (pixelAddr info x y).toNat =
      0xc1000000 + (info.xResolution.toNat * y + x) * (info.bitsPerPixel.toNat / 8) := by
  have hend := pixel_end_le (B := info.bitsPerPixel.toNat / 8) hx hy
  have hframe := h.frame_le
  have hint : ((info.xResolution.toNat : Int) * y + x) *
      ((info.bitsPerPixel.toNat / 8 : Nat) : Int) =
      (((info.xResolution.toNat * y + x) * (info.bitsPerPixel.toNat / 8) : Nat) : Int) := by
    push_cast
    rfl
  rw [pixelAddr, hint, BitVec.ofInt_natCast, BitVec.toNat_add, BitVec.toNat_ofNat,
    show vramBase.toNat = 0xc1000000 from rfl]
  omega

/-- draw_pixel stores into its own pixel. -/
theorem writesIn_drawPixel (h : Suitable info) {x y : Nat} (hx : x < info.xResolution.toNat)
    (hy : y < info.yResolution.toNat) (rgb : RGB) (m : Mem (BitVec 8)) :
    Mem.WritesIn (pixelBytes info x y) m (drawPixel info x y rgb m) := by
  have hend := pixel_end_le (B := info.bitsPerPixel.toNat / 8) hx hy
  have hframe := h.frame_le
  have hbytes := h.bytes_pos
  have haddr := h.toNat_pixelAddr hx hy
  have hnext : ∀ k < 3, ∀ b : BitVec 32, b.toNat = k →
      (pixelAddr info x y + b).toNat ∈ pixelBytes info x y := by
    intro k hk b hb
    refine ⟨k, by omega, ?_⟩
    rw [BitVec.toNat_add, haddr, hb]
    omega
  unfold drawPixel
  dsimp only
  refine ((Mem.WritesIn.write m rgb.B ?_).trans (Mem.WritesIn.write _ rgb.G ?_)).trans
    (Mem.WritesIn.write _ rgb.R ?_)
  · exact ⟨0, by omega, haddr⟩
  · exact hnext 1 (by decide) 1 rfl
  · exact hnext 2 (by decide) 2 rfl

theorem writesIn_screenClear (h : Suitable info) (m : Mem (BitVec 8)) :
    Mem.WritesIn window m (screenClear info m) := by
  have hframe := h.frame_le
  have hbase : vramBase.toNat = 0xc1000000 := rfl
  have hmod := Nat.mod_le
    (info.xResolution.toNat * info.yResolution.toNat * (info.bitsPerPixel.toNat / 8)) (2 ^ 32)
  refine (Mem.writesIn_repStosb 0 _ vramBase m (by omega)).mono ?_
  intro a ha
  obtain ⟨hlo, hhi⟩ := ha
  rw [hbase] at hlo hhi
  exact ⟨hlo, by omega⟩

/-- screen_clear blanks every pixel. -/
theorem read_screenClear (h : Suitable info) {x y : Nat} (hx : x < info.xResolution.toNat)
    (hy : y < info.yResolution.toNat) (m : Mem (BitVec 8)) {a : Nat} (ha : a ∈ pixelBytes info x y) :
    (screenClear info m).read a = 0 := by
  obtain ⟨k, hk, rfl⟩ := ha
  have hend := pixel_end_le (B := info.bitsPerPixel.toNat / 8) hx hy
  have hframe := h.frame_le
  have hbase : vramBase.toNat = 0xc1000000 := rfl
  unfold screenClear
  rw [Nat.mod_eq_of_lt (by omega)]
  exact Mem.read_repStosb 0 _ vramBase m (by omega) (by omega) (by omega)

end Suitable

/-! ## The window is mapped -/

/-- The `i`-th kernel_page_mmap of display_init: present, user, writable. -/
def displayMap (info : VbeModeInfo) (i : Nat) : Paging.PageOp :=
  .mmap (info.physBasePtr / 0x1000 + BitVec.ofNat 32 i) (vramBase / 0x1000 + BitVec.ofNat 32 i)
    (0x1 ||| 0x4 ||| 0x2)

def displayMaps (info : VbeModeInfo) (n : Nat) : List Paging.PageOp :=
  (List.range n).map (displayMap info)

/-- `display_init`: map the frame buffer, then clear the screen. -/
def displayInit (info : VbeModeInfo) (s : Mmu) (vram : Mem (BitVec 8)) :
    Option (Mmu × Mem (BitVec 8)) :=
  (run Paging.pageStep s (displayMaps info (0x800000 / 0x1000))).map fun t =>
    (t, screenClear info vram)

theorem run_displayMaps (info : VbeModeInfo) {s : Mmu} (h : Paging.KernelMap s) {n : Nat}
    (hn : n ≤ 0x800) :
    ∃ t, run Paging.pageStep s (displayMaps info n) = some t ∧ Paging.KernelMap t ∧
      ∀ i < n, t.walk (0xc1000 + i) =
        some ((info.physBasePtr / 0x1000 + BitVec.ofNat 32 i).toNat % 2 ^ 20, 7) := by
  induction n with
  | zero => exact ⟨s, rfl, h, fun _ hi => absurd hi (Nat.not_lt_zero _)⟩
  | succ n ih =>
    obtain ⟨t, hrun, ht, hwalk⟩ := ih (by omega)
    have hpage : (displayMap info n).vpage = 0xc1000 + n := by
      show (vramBase / 0x1000 + BitVec.ofNat 32 n).toNat = 0xc1000 + n
      rw [BitVec.toNat_add, BitVec.toNat_ofNat,
        show (vramBase / 0x1000).toNat = 0xc1000 from rfl]
      omega
    have hv : (displayMap info n).vpage < 0xffbff := by omega
    obtain ⟨u, hstep, hu, hself, hother⟩ := Paging.pageStep_spec ht hv
    refine ⟨u, ?_, hu, ?_⟩
    · rw [displayMaps, List.range_succ, List.map_append, run_append]
      rw [displayMaps] at hrun
      rw [hrun]
      exact run_cons_eq_some.mpr ⟨u, hstep, rfl⟩
    · intro i hi
      by_cases hin : i = n
      · subst hin
        rw [← hpage]
        exact hself
      · rw [hother (0xc1000 + i) (by omega) (by omega)]
        exact hwalk i (by omega)

/-- **Video memory is mapped.** After display_init every page of the window is present and
maps the frame of the linear frame buffer. -/
theorem displayInit_maps (info : VbeModeInfo) {s : Mmu} (h : Paging.KernelMap s)
    (vram : Mem (BitVec 8)) :
    ∃ t, displayInit info s vram = some (t, screenClear info vram) ∧ Paging.KernelMap t ∧
      ∀ i < 0x800, t.walk (0xc1000 + i) =
        some ((info.physBasePtr / 0x1000 + BitVec.ofNat 32 i).toNat % 2 ^ 20, 7) := by
  obtain ⟨t, hrun, ht, hwalk⟩ := run_displayMaps info h (Nat.le_refl 0x800)
  refine ⟨t, ?_, ht, hwalk⟩
  rw [displayInit, hrun, Option.map_some]

end ListaOS.Console
