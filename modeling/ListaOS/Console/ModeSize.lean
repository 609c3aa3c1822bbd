/-
  The size of a mode (bootloader/BIOS/init_display.s: is_suitable_video_mode).

  `frameSize` is the arithmetic of is_suitable_video_mode on its registers: a 16-bit multiply
  whose halves are put together in `%eax`, a 32-bit one into `%edx:%eax`, and a division by 8
  whose quotient has to fit in `%eax`. No bit is lost on the way (`frameSize_eq`), so
  is_suitable_video_mode compares the size itself. What it does not do is look at `%edx`: for a
  size of 2^32 bytes and more `divl` raises a divide error, where the function was to refuse the
  mode as larger than 8 MB (`mode_returns_right_iff`).
-/
import ListaOS.Console.VideoMode

namespace ListaOS.Console

open Lib

/-! ## Instructions -/

/-- `mulw %cx`: `%dx` and `%ax`. -/
def mulw (ax cx : BitVec 16) : BitVec 16 × BitVec 16 :=
  let product := ax.setWidth 32 * cx.setWidth 32
  (product.extractLsb' 16 16, product.extractLsb' 0 16)

/-- `mull %ecx`: `%edx` and `%eax`. -/
def mull (eax ecx : BitVec 32) : BitVec 32 × BitVec 32 :=
  let product := eax.setWidth 64 * ecx.setWidth 64
  (product.extractLsb' 32 32, product.extractLsb' 0 32)

/-- `divl %ecx`: the quotient, or a divide error. -/
def divl (edx eax ecx : BitVec 32) : Option (BitVec 32) :=
  let dividend := edx ++ eax
  if ecx = 0 ∨ 2 ^ 32 ≤ dividend.toNat / ecx.toNat then none
  else some (BitVec.ofNat 32 (dividend.toNat / ecx.toNat))

/-- From `xorl %eax, %eax` to `divl %ecx`. -/
def frameSize (info : VbeModeInfo) : Option (BitVec 32) :=
  let eax : BitVec 32 := info.bitsPerPixel.setWidth 32
  let (dx, ax) := mulw (eax.setWidth 16) info.xResolution
  let eax := eax.extractLsb' 16 16 ++ ax
  let edx := (0 : BitVec 16) ++ dx
  let eax := eax + edx <<< 16
  let ecx := info.yResolution.setWidth 32
  let (edx, eax) := mull eax ecx
  divl edx eax 8

/-- is_suitable_video_mode: `SuitableModeVRAM` afterwards, and `%ax`. -/
def isSuitableVideoModeRegs (suitableModeVRAM : BitVec 32) (info : VbeModeInfo) :
    Option (BitVec 32 × BitVec 16) :=
  if info.modeAttributes &&& 0x98 ≠ 0x98 then some (suitableModeVRAM, 0)
  else if info.memoryModel ≠ 0x06 then some (suitableModeVRAM, 0)
  else if info.bitsPerPixel.slt 24 then some (suitableModeVRAM, 0)
  else
    (frameSize info).map fun eax =>
      if maxVramSize.slt eax then (suitableModeVRAM, 0)
      else if suitableModeVRAM.slt eax then (eax, 1)
      else (suitableModeVRAM, 0)

/-! ## The arithmetic -/

/-- The halves of a word. -/
theorem halves_append {w : Nat} (x : BitVec (w + w)) :
    x.extractLsb' w w ++ x.extractLsb' 0 w = x := by
  apply BitVec.eq_of_getLsbD_eq
  intro i hi
  rw [BitVec.getLsbD_append, BitVec.getLsbD_extractLsb', BitVec.getLsbD_extractLsb']
  split
  case isTrue h => simp [h]
  case isFalse h =>
    have hlt : i - w < w := by omega
    rw [show w + (i - w) = i by omega]
    simp [hlt]

/-- A register of twice the width holds the whole product. -/
theorem toNat_mul_setWidth {v w : Nat} (x y : BitVec v) (h : v + v ≤ w) :
    (x.setWidth w * y.setWidth w).toNat = x.toNat * y.toNat := by
  have hprod : x.toNat * y.toNat < 2 ^ w := by
    calc x.toNat * y.toNat < 2 ^ v * 2 ^ v := Nat.mul_lt_mul'' x.isLt y.isLt
      _ = 2 ^ (v + v) := (Nat.pow_add 2 v v).symm
      _ ≤ 2 ^ w := Nat.pow_le_pow_right Nat.two_pos h
  rw [BitVec.toNat_mul, BitVec.toNat_setWidth_of_le (by omega), BitVec.toNat_setWidth_of_le (by omega),
    Nat.mod_eq_of_lt hprod]

theorem mulw_spec (ax cx : BitVec 16) :
    (mulw ax cx).1.toNat = ax.toNat * cx.toNat / 2 ^ 16 ∧
      (mulw ax cx).2.toNat = ax.toNat * cx.toNat % 2 ^ 16 := by
  have hprod := toNat_mul_setWidth ax cx (w := 32) (by decide)
  have hlt := (ax.setWidth 32 * cx.setWidth 32).isLt
  rw [hprod] at hlt
  unfold mulw
  rw [BitVec.extractLsb'_toNat, BitVec.extractLsb'_toNat, hprod, Nat.shiftRight_eq_div_pow]
  exact ⟨Nat.mod_eq_of_lt (by omega), rfl⟩

theorem mull_spec (eax ecx : BitVec 32) :
    ((mull eax ecx).1 ++ (mull eax ecx).2).toNat = eax.toNat * ecx.toNat := by
  have hhalves := halves_append (w := 32) (eax.setWidth 64 * ecx.setWidth 64)
  unfold mull
  rw [hhalves]
  exact toNat_mul_setWidth eax ecx (by decide)

/-- `%eax` after the 16-bit multiply is the whole product. -/
theorem toNat_rowBits (info : VbeModeInfo) :
    let eax : BitVec 32 := info.bitsPerPixel.setWidth 32
    let r := mulw (eax.setWidth 16) info.xResolution
    (eax.extractLsb' 16 16 ++ r.2 + ((0 : BitVec 16) ++ r.1) <<< 16).toNat =
      info.bitsPerPixel.toNat * info.xResolution.toNat := by
  intro eax r
  have hb := info.bitsPerPixel.isLt
  have hx := info.xResolution.isLt
  have hlt : info.bitsPerPixel.toNat * info.xResolution.toNat < 2 ^ 8 * 2 ^ 16 :=
    Nat.mul_lt_mul'' hb hx
  have heax : eax.toNat = info.bitsPerPixel.toNat := BitVec.toNat_setWidth_of_le (by decide)
  have hax : (eax.setWidth 16).toNat = info.bitsPerPixel.toNat := by
    rw [BitVec.toNat_setWidth, heax]
    exact Nat.mod_eq_of_lt (by omega)
  obtain ⟨hhigh, hlow⟩ := mulw_spec (eax.setWidth 16) info.xResolution
  rw [hax] at hhigh hlow
  have hzero : eax.extractLsb' 16 16 = 0 := by
    apply BitVec.eq_of_toNat_eq
    rw [BitVec.extractLsb'_toNat, heax, Nat.shiftRight_eq_div_pow]
    show info.bitsPerPixel.toNat / 2 ^ 16 % 2 ^ 16 = 0
    omega
  have happend : ∀ z : BitVec 16, ((0 : BitVec 16) ++ z).toNat = z.toNat := by
    intro z
    rw [BitVec.toNat_append]
    simp
  rw [hzero, BitVec.toNat_add, BitVec.toNat_shiftLeft, happend, happend, hhigh, hlow,
    Nat.shiftLeft_eq]
  omega

/-- **The size is exact.** `divl` gives the whole quotient, or a divide error if it takes more
than 32 bits. -/
theorem frameSize_eq (info : VbeModeInfo) :
    frameSize info = if 2 ^ 32 ≤ info.vram then none else some (BitVec.ofNat 32 info.vram) := by
  have hrow := toNat_rowBits info
  have hy : (info.yResolution.setWidth 32).toNat = info.yResolution.toNat :=
    BitVec.toNat_setWidth_of_le (by decide)
  have height : (8 : BitVec 32).toNat = 8 := rfl
  have hne : (8 : BitVec 32) ≠ 0 := by decide
  unfold frameSize divl VbeModeInfo.vram
  dsimp only at hrow ⊢
  rw [mull_spec, hrow, hy, height]
  exact if_congr (or_iff_right hne) rfl rfl

theorem isSuitableVideoModeRegs_eq (v : BitVec 32) (info : VbeModeInfo) :
    isSuitableVideoModeRegs v info = isSuitableVideoMode v info := by
  unfold isSuitableVideoModeRegs isSuitableVideoMode
  rw [frameSize_eq]
  refine if_congr Iff.rfl rfl (if_congr Iff.rfl rfl (if_congr Iff.rfl rfl ?_))
  by_cases hfits : 2 ^ 32 ≤ info.vram
  · rw [if_pos hfits, if_pos hfits]
    rfl
  · rw [if_neg hfits, if_neg hfits, Option.map_some, apply_ite some, apply_ite some]

/-! ## One call -/

/-- The call returns; a mode is accepted only if it is no larger than 8 MB and larger than the
last one accepted, and its size is kept; otherwise `SuitableModeVRAM` stays. -/
def ReturnsRight (v : BitVec 32) (info : VbeModeInfo) : Prop :=
  ∃ w ax, isSuitableVideoModeRegs v info = some (w, ax) ∧
    (ax = 1 → info.vram ≤ 0x800000 ∧ v.toNat < info.vram ∧ w.toNat = info.vram) ∧
    (ax ≠ 1 → w = v)

theorem fits_iff (info : VbeModeInfo) :
    Fits info ↔ (Passes info →
      info.bitsPerPixel.toNat * info.xResolution.toNat * info.yResolution.toNat < 2 ^ 35) := by
  unfold Fits VbeModeInfo.vram
  exact imp_congr_right fun _ => by omega

theorem returnsRight_of_fits {v : BitVec 32} (hv : v.toNat ≤ 0x800000) {info : VbeModeInfo}
    (h : Fits info) : ReturnsRight v info := by
  unfold ReturnsRight
  rw [isSuitableVideoModeRegs_eq]
  by_cases himproves : Improves v info
  · refine ⟨_, _, isSuitableVideoMode_of_improves hv himproves, fun _ => ?_, fun hax => absurd rfl hax⟩
    exact ⟨himproves.2.1, himproves.2.2, himproves.toNat_vram⟩
  · refine ⟨_, _, isSuitableVideoMode_of_not_improves hv h himproves, fun hax => ?_, fun _ => rfl⟩
    exact absurd hax (by decide)

theorem fits_of_returnsRight {v : BitVec 32} {info : VbeModeInfo} (h : ReturnsRight v info) :
    Fits info := by
  by_contra hfits
  obtain ⟨w, ax, hsome, -, -⟩ := h
  rw [isSuitableVideoModeRegs_eq, isSuitableVideoMode_of_not_fits hfits] at hsome
  cases hsome

/-- **is_suitable_video_mode.** After any modes probed before, it returns, accepts and keeps the
sizes that it should exactly if the block fails a test or has fewer than 2^35 bits. -/
theorem mode_returns_right_iff (probed : List VbeModeInfo) (v : BitVec 32)
    (h : run probe 0 probed = some v) (info : VbeModeInfo) :
    ReturnsRight v info ↔ (Passes info →
      info.bitsPerPixel.toNat * info.xResolution.toNat * info.yResolution.toNat < 2 ^ 35) := by
  rw [← fits_iff]
  exact ⟨fits_of_returnsRight, returnsRight_of_fits (probed_le h)⟩

/-- 1024x768 with 32 bits, as the first mode. -/
theorem mode_returns_right_iff_first :
    let info : VbeModeInfo := ⟨0x9b, 4096, 1024, 768, 32, 6, 0xe0000000⟩
    ReturnsRight 0 info ↔ (Passes info →
      info.bitsPerPixel.toNat * info.xResolution.toNat * info.yResolution.toNat < 2 ^ 35) :=
  mode_returns_right_iff [] 0 rfl _

/-- 65535x65535 with 32 bits: a divide error. -/
theorem huge_mode_faults :
    let info : VbeModeInfo := ⟨0x98, 0xffff, 0xffff, 0xffff, 32, 6, 0⟩
    isSuitableVideoModeRegs 0 info = none ∧ ¬ ReturnsRight 0 info := by
  intro info
  have hnone : isSuitableVideoModeRegs 0 info = none := by decide +kernel
  refine ⟨hnone, fun hright => ?_⟩
  obtain ⟨w, ax, hsome, -, -⟩ := hright
  rw [hnone] at hsome
  cases hsome

end ListaOS.Console
