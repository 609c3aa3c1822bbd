/-
  The choice of the video mode (bootloader/BIOS/init_display.s): is_suitable_video_mode.

  The mode info block at 0x7e00 is the record `VbeModeInfo` of the fields that this code
  and display.c read, with the length of a scan line; the assembly's offsets (0, 16, 18,
  20, 25, 27, 40) are those of the C struct. `isSuitableVideoMode` is `none` where `divl`
  raises a divide error; `isSuitableVideoMode_eq_some_iff` is the whole function.
  `SuitableModeVRAM` starts at 0 and is carried from probe to probe.
-/
import ListaOS.Lib.Run
import Mathlib.Tactic.SplitIfs
import Mathlib.Algebra.Group.Nat.Defs

namespace ListaOS.Console

open Lib

/-- `VBE_MODE_INFO`. -/
structure VbeModeInfo where
  modeAttributes : BitVec 16
  bytesPerScanLine : BitVec 16
  xResolution : BitVec 16
  yResolution : BitVec 16
  bitsPerPixel : BitVec 8
  memoryModel : BitVec 8
  physBasePtr : BitVec 32

/-- `MAX_VRAM_SIZE_BIT`: 8 MB. -/
def maxVramSize : BitVec 32 := 0x00800000

/-- Bytes of the frame buffer: `mulw` and `mull` keep the whole product in `%edx:%eax`,
`divl` divides it by 8. -/
def VbeModeInfo.vram (info : VbeModeInfo) : Nat :=
  info.bitsPerPixel.toNat * info.xResolution.toNat * info.yResolution.toNat / 8

/-- `SuitableModeVRAM` afterwards, and `%ax`. -/
def isSuitableVideoMode (suitableModeVRAM : BitVec 32) (info : VbeModeInfo) :
    Option (BitVec 32 × BitVec 16) :=
  if info.modeAttributes &&& 0x98 ≠ 0x98 then some (suitableModeVRAM, 0)
  else if info.memoryModel ≠ 0x06 then some (suitableModeVRAM, 0)
  -- `cmpb; jl` is signed
  else if info.bitsPerPixel.slt 24 then some (suitableModeVRAM, 0)
  -- the quotient does not fit in `%eax`
  else if 2 ^ 32 ≤ info.vram then none
  else
    let eax := BitVec.ofNat 32 info.vram
    if maxVramSize.slt eax then some (suitableModeVRAM, 0)
    else if suitableModeVRAM.slt eax then some (eax, 1)
    else some (suitableModeVRAM, 0)

/-- Probe a mode; `SuitableModeVRAM` goes on. -/
def probe (suitableModeVRAM : BitVec 32) (info : VbeModeInfo) : Option (BitVec 32) :=
  (isSuitableVideoMode suitableModeVRAM info).map Prod.fst

/-- `is_suitable_video_mode` returns 1 for the mode after the modes probed before it. -/
def Accepted (probed : List VbeModeInfo) (info : VbeModeInfo) : Prop :=
  ∃ v v', run probe 0 probed = some v ∧ isSuitableVideoMode v info = some (v', 1)

/-- What an accepted mode is known to meet. -/
structure Suitable (info : VbeModeInfo) : Prop where
  depth : 24 ≤ info.bitsPerPixel.toNat
  vram : info.vram ≤ 0x800000

/-- A block that passes the first three tests. -/
structure Passes (info : VbeModeInfo) : Prop where
  attributes : info.modeAttributes &&& 0x98 = 0x98
  memoryModel : info.memoryModel = 0x06
  depth : 24 ≤ info.bitsPerPixel.toNat
  depth_lt : info.bitsPerPixel.toNat < 128

/-- The quotient of `divl` fits in `%eax`, if the code gets there. -/
def Fits (info : VbeModeInfo) : Prop := Passes info → info.vram < 2 ^ 32

theorem depth_iff_not_slt (bpp : BitVec 8) :
    ¬ bpp.slt 24 = true ↔ 24 ≤ bpp.toNat ∧ bpp.toNat < 128 := by
  have h24 : (24 : BitVec 8).toInt = 24 := rfl
  rw [BitVec.slt_iff_toInt_lt, BitVec.toInt_eq_toNat_cond, h24]
  split_ifs <;> omega

/-- The signed comparisons with the bound and with a number up to the bound. -/
theorem grows_iff {v : BitVec 32} (hv : v.toNat ≤ 0x800000) (x : BitVec 32) :
    ¬ maxVramSize.slt x = true ∧ v.slt x = true ↔ x.toNat ≤ 0x800000 ∧ v.toNat < x.toNat := by
  have hmax : maxVramSize.toInt = 0x800000 := rfl
  rw [BitVec.slt_iff_toInt_lt, BitVec.slt_iff_toInt_lt, hmax, BitVec.toInt_eq_toNat_cond,
    BitVec.toInt_eq_toNat_cond]
  split_ifs <;> omega

theorem isSuitableVideoMode_of_not_passes {info : VbeModeInfo} (h : ¬ Passes info)
    (v : BitVec 32) : isSuitableVideoMode v info = some (v, 0) := by
  unfold isSuitableVideoMode
  split
  · rfl
  split
  · rfl
  split
  · rfl
  rename_i hattributes hmodel hdepth
  obtain ⟨hge, hlt⟩ := (depth_iff_not_slt _).mp hdepth
  exact absurd ⟨not_not.mp hattributes, not_not.mp hmodel, hge, hlt⟩ h

theorem isSuitableVideoMode_of_passes {info : VbeModeInfo} (h : Passes info) (v : BitVec 32) :
    isSuitableVideoMode v info =
      if 2 ^ 32 ≤ info.vram then none
      else if maxVramSize.slt (BitVec.ofNat 32 info.vram) then some (v, 0)
      else if v.slt (BitVec.ofNat 32 info.vram) then some (BitVec.ofNat 32 info.vram, 1)
      else some (v, 0) := by
  have hdepth := (depth_iff_not_slt _).mpr ⟨h.depth, h.depth_lt⟩
  unfold isSuitableVideoMode
  rw [if_neg (not_not.mpr h.attributes), if_neg (not_not.mpr h.memoryModel), if_neg hdepth]

/-- A block that takes the place of the best one so far. -/
def Improves (v : BitVec 32) (info : VbeModeInfo) : Prop :=
  Passes info ∧ info.vram ≤ 0x800000 ∧ v.toNat < info.vram

theorem Improves.suitable {v : BitVec 32} {info : VbeModeInfo} (h : Improves v info) :
    Suitable info := ⟨h.1.depth, h.2.1⟩

theorem Improves.toNat_vram {v : BitVec 32} {info : VbeModeInfo} (h : Improves v info) :
    (BitVec.ofNat 32 info.vram).toNat = info.vram := by
  have hle := h.2.1
  rw [BitVec.toNat_ofNat]
  omega

theorem isSuitableVideoMode_of_not_fits {info : VbeModeInfo} (h : ¬ Fits info) (v : BitVec 32) :
    isSuitableVideoMode v info = none := by
  obtain ⟨hpass, hover⟩ := Classical.not_imp.mp h
  rw [isSuitableVideoMode_of_passes hpass, if_pos (Nat.le_of_not_lt hover)]

theorem isSuitableVideoMode_of_improves {v : BitVec 32} (hv : v.toNat ≤ 0x800000)
    {info : VbeModeInfo} (h : Improves v info) :
    isSuitableVideoMode v info = some (BitVec.ofNat 32 info.vram, 1) := by
  have hgrows := grows_iff hv (BitVec.ofNat 32 info.vram)
  rw [h.toNat_vram] at hgrows
  obtain ⟨hmax, hgrow⟩ := hgrows.mpr h.2
  have hfits : ¬ 2 ^ 32 ≤ info.vram := by
    have hle := h.2.1
    omega
  rw [isSuitableVideoMode_of_passes h.1, if_neg hfits, if_neg hmax, if_pos hgrow]

theorem isSuitableVideoMode_of_not_improves {v : BitVec 32} (hv : v.toNat ≤ 0x800000)
    {info : VbeModeInfo} (hfits : Fits info) (h : ¬ Improves v info) :
    isSuitableVideoMode v info = some (v, 0) := by
  by_cases hpass : Passes info
  case neg => exact isSuitableVideoMode_of_not_passes hpass v
  have hlt := hfits hpass
  have hgrows := grows_iff hv (BitVec.ofNat 32 info.vram)
  rw [BitVec.toNat_ofNat, Nat.mod_eq_of_lt hlt] at hgrows
  rw [isSuitableVideoMode_of_passes hpass, if_neg (Nat.not_le.mpr hlt)]
  split
  case isTrue => rfl
  case isFalse hmax => exact if_neg fun hgrow => h ⟨hpass, hgrows.mp ⟨hmax, hgrow⟩⟩

/-- The whole function: a divide error, a better mode, or no change. -/
theorem isSuitableVideoMode_eq_some_iff {v : BitVec 32} (hv : v.toNat ≤ 0x800000)
    (info : VbeModeInfo) (r : BitVec 32 × BitVec 16) :
    isSuitableVideoMode v info = some r ↔
      Fits info ∧ (Improves v info ∧ r = (BitVec.ofNat 32 info.vram, 1) ∨
        ¬ Improves v info ∧ r = (v, 0)) := by
  by_cases hfits : Fits info
  case neg =>
    rw [isSuitableVideoMode_of_not_fits hfits]
    simp [hfits]
  by_cases himp : Improves v info
  · rw [isSuitableVideoMode_of_improves hv himp]
    simp [hfits, himp, eq_comm]
  · rw [isSuitableVideoMode_of_not_improves hv hfits himp]
    simp [hfits, himp, eq_comm]

/-- A probe keeps `SuitableModeVRAM` and returns 0, or takes in the mode's size. -/
theorem isSuitableVideoMode_cases {v w : BitVec 32} {ax : BitVec 16} {info : VbeModeInfo}
    (hv : v.toNat ≤ 0x800000) (h : isSuitableVideoMode v info = some (w, ax)) :
    (w = v ∧ ax = 0) ∨
      (w.toNat = info.vram ∧ ax = 1 ∧ v.toNat < info.vram ∧ Suitable info) := by
  obtain ⟨himproves, heq⟩ | ⟨_, heq⟩ := ((isSuitableVideoMode_eq_some_iff hv info _).mp h).2
  · obtain ⟨rfl, rfl⟩ := Prod.mk.inj heq
    exact Or.inr ⟨himproves.toNat_vram, rfl, himproves.2.2, himproves.suitable⟩
  · exact Or.inl (Prod.mk.inj heq)

/-- `SuitableModeVRAM` never exceeds 8 MB. -/
theorem probed_le {probed : List VbeModeInfo} {v : BitVec 32} (h : run probe 0 probed = some v) :
    v.toNat ≤ 0x800000 := by
  refine run_invariant (fun v : BitVec 32 => v.toNat ≤ 0x800000) ?_ (by decide) h
  intro v info w hv hstep
  obtain ⟨⟨w', ax⟩, hsome, rfl⟩ := Option.map_eq_some_iff.mp hstep
  obtain ⟨rfl, _⟩ | ⟨hw, _, _, hsuit⟩ := isSuitableVideoMode_cases hv hsome
  · exact hv
  · rw [hw]
    exact hsuit.vram

theorem Accepted.spec {probed : List VbeModeInfo} {info : VbeModeInfo}
    (h : Accepted probed info) : 0 < info.vram ∧ Suitable info := by
  obtain ⟨v, w, hrun, hsome⟩ := h
  obtain ⟨_, hax⟩ | ⟨_, _, hlt, hsuit⟩ := isSuitableVideoMode_cases (probed_le hrun) hsome
  · exact absurd hax (by decide)
  · exact ⟨Nat.zero_lt_of_lt hlt, hsuit⟩

theorem Accepted.suitable {probed : List VbeModeInfo} {info : VbeModeInfo}
    (h : Accepted probed info) : Suitable info := h.spec.2

/-- An accepted mode has pixels. -/
theorem Accepted.xResolution_pos {probed : List VbeModeInfo} {info : VbeModeInfo}
    (h : Accepted probed info) : 0 < info.xResolution.toNat := by
  have hvram := h.spec.1
  by_contra hzero
  unfold VbeModeInfo.vram at hvram
  rw [Nat.eq_zero_of_not_pos hzero, Nat.mul_zero, Nat.zero_mul] at hvram
  exact absurd hvram (by decide)

end ListaOS.Console
