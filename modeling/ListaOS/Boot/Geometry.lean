/-
  The geometry that init.s computes.

  `Layout` are the volumes that the 16-bit arithmetic covers, `Loadable` those that find_file
  and load_file cover as well, and `Mounted` says that the variables hold the geometry of a
  volume. `_start` takes every field but one from the boot record at 0x8000: the reserved
  sectors are the constant 4. So it mounts a volume exactly if that is their number
  (`geometry_mounts_iff`).
-/
import ListaOS.Boot.Init
import ListaOS.Lib.Fat16

namespace ListaOS.Boot

open Lib

/-- Sector numbers up to the data area in 16 bits. -/
structure Layout (V : Volume) : Prop where
  sector : 0 < V.bytesPerSector
  fits : V.dataStart < 2 ^ 16

/-- Four reserved sectors, sectors of 512 to 4096 bytes, clusters of at most 64K, and sector
numbers up to the data area in 16 bits. -/
structure Loadable (V : Volume) : Prop where
  reserved : V.reserved = 4
  sector : ∃ k, 9 ≤ k ∧ k ≤ 12 ∧ V.bytesPerSector = 2 ^ k
  cluster : ∃ k, V.sectorsPerCluster = 2 ^ k
  small : V.bytesPerCluster ≤ 0x10000
  fits : V.dataStart < 2 ^ 16

/-- The variables hold the geometry of the volume. -/
structure Mounted (V : Volume) (s : InitState) : Prop where
  fat : s.fat1StartSector.toNat = V.fatStart
  rootSectors : s.rootEntrySectorCount.toNat = V.rootSectors
  root : s.rootDirStartSector.toNat = V.rootStart
  data : s.dataStartSector.toNat = V.dataStart
  sectorsPerCluster : s.sectorsPerCluster.toNat = V.sectorsPerCluster
  bytesPerSector : s.bytesPerSector.toNat = V.bytesPerSector
  bytesPerCluster : s.bytesPerCluster.toNat = V.bytesPerCluster

/-- The variables do not change with the memory and the packet. -/
theorem Mounted.update {V : Volume} {s : InitState} (h : Mounted V s) (m : Mem (BitVec 8))
    (p : InfoPacket) : Mounted V { s with mem := m, packet := p } :=
  ⟨h.fat, h.rootSectors, h.root, h.data, h.sectorsPerCluster, h.bytesPerSector, h.bytesPerCluster⟩

/-! ## Registers -/

theorem toNat_mulw (a b : BitVec 16) : (mulw a b).toNat = a.toNat * b.toNat := by
  have hlt : a.toNat * b.toNat < 2 ^ 16 * 2 ^ 16 :=
    Nat.mul_lt_mul'' a.isLt b.isLt
  unfold mulw
  rw [BitVec.toNat_mul, BitVec.toNat_setWidth_of_le (by decide),
    BitVec.toNat_setWidth_of_le (by decide)]
  exact Nat.mod_eq_of_lt (by omega)

theorem toNat_movw (x : BitVec 32) (w : BitVec 16) :
    (movw x w).toNat = x.toNat / 2 ^ 16 * 2 ^ 16 + w.toNat := by
  have hx := x.isLt
  unfold movw
  rw [BitVec.toNat_append, BitVec.extractLsb'_toNat, Nat.shiftRight_eq_div_pow,
    Nat.mod_eq_of_lt (by omega), Nat.shiftLeft_eq, Nat.mul_comm,
    ← Nat.two_pow_add_eq_or_of_lt w.isLt]

theorem divw_eq {a : BitVec 32} {b : BitVec 16} (hb : 0 < b.toNat)
    (h : a.toNat / b.toNat < 2 ^ 16) :
    divw a b = some (BitVec.ofNat 16 (a.toNat / b.toNat), BitVec.ofNat 16 (a.toNat % b.toNat)) := by
  have hne : ¬ b = 0 := by
    rintro rfl
    exact absurd hb (by decide)
  unfold divw
  rw [if_neg (by rw [not_or]; exact ⟨hne, by omega⟩)]

theorem ofNat_ne_zero {n : Nat} (hpos : 0 < n) (hlt : n < 2 ^ 16) : BitVec.ofNat 16 n ≠ 0 := by
  intro hz
  have hnat := congrArg BitVec.toNat hz
  rw [BitVec.toNat_ofNat, Nat.mod_eq_of_lt hlt] at hnat
  exact absurd hnat (Nat.ne_of_gt hpos)

/-- An `and` that clears the low `k` bits. -/
theorem toNat_and_allOnes_shiftLeft {w : Nat} (x : BitVec w) (k : Nat) :
    (x &&& BitVec.allOnes w <<< k).toNat = x.toNat / 2 ^ k * 2 ^ k := by
  have hlt : x.toNat / 2 ^ k * 2 ^ k < 2 ^ w :=
    Nat.lt_of_le_of_lt (Nat.div_mul_le_self _ _) x.isLt
  rw [← BitVec.shiftLeft_ushiftRight, BitVec.toNat_shiftLeft, BitVec.toNat_ushiftRight,
    Nat.shiftRight_eq_div_pow, Nat.shiftLeft_eq]
  exact Nat.mod_eq_of_lt hlt

/-- A division rounded up, as `divw` and `inc` make it. -/
theorem ceil_div {a b : Nat} (hb : 0 < b) :
    (a + (b - 1)) / b = if a % b = 0 then a / b else a / b + 1 := by
  split
  case isTrue h =>
    obtain ⟨q, rfl⟩ := Nat.dvd_of_mod_eq_zero h
    have hq : (b - 1) / b = 0 := Nat.div_eq_of_lt (by omega)
    rw [Nat.mul_add_div hb, hq, Nat.mul_div_cancel_left _ hb, Nat.add_zero]
  case isFalse h =>
    have hmod := Nat.mod_lt a hb
    have hq : (a % b - 1) / b = 0 := Nat.div_eq_of_lt (by omega)
    have hsum : a + (b - 1) = b * (a / b + 1) + (a % b - 1) := by
      calc a + (b - 1) = b * (a / b) + a % b + (b - 1) := by rw [Nat.div_add_mod a b]
        _ = b * (a / b) + b + (a % b - 1) := by omega
        _ = b * (a / b + 1) + (a % b - 1) := by rw [Nat.mul_succ]
    rw [hsum, Nat.mul_add_div hb, hq, Nat.add_zero]

/-- Sectors of 512 to 4096 bytes. -/
def SectorSize (V : Volume) : Prop := ∃ k, 9 ≤ k ∧ k ≤ 12 ∧ V.bytesPerSector = 2 ^ k

theorem SectorSize.bounds {V : Volume} (h : SectorSize V) :
    512 ≤ V.bytesPerSector ∧ V.bytesPerSector ≤ 4096 ∧ V.bytesPerSector % 32 = 0 := by
  obtain ⟨k, hlo, hhi, hk⟩ := h
  obtain rfl | rfl | rfl | rfl : k = 9 ∨ k = 10 ∨ k = 11 ∨ k = 12 := by omega
  all_goals
    rw [hk]
    decide

namespace Loadable

variable {V : Volume} (h : Loadable V)

include h

theorem sector_bounds : 512 ≤ V.bytesPerSector ∧ V.bytesPerSector ≤ 4096 ∧
    V.bytesPerSector % 32 = 0 :=
  SectorSize.bounds h.sector

theorem layout : Layout V := ⟨Nat.lt_of_lt_of_le (by decide) h.sector_bounds.1, h.fits⟩

end Loadable

/-! ## The first part of _start -/

/-- The volume of the boot record at 0x8000. -/
def bootVolume (bx : BitVec 16) (m : Mem (BitVec 8)) : Volume :=
  Volume.decode bx.toNat fun i => m.read (0x8000 + i)

section

variable {bx : BitVec 16} {m : Mem (BitVec 8)} (h : Layout (bootVolume bx m))

include h

theorem toNat_fatStart (hres : (bootVolume bx m).reserved = 4) :
    (bx + 0x0004).toNat = (bootVolume bx m).fatStart := by
  have hfat : (bootVolume bx m).fatStart = bx.toNat + 4 := congrArg (bx.toNat + ·) hres
  have hfits := h.fits
  rw [Volume.dataStart, Volume.rootStart] at hfits
  rw [BitVec.toNat_add, hfat]
  exact Nat.mod_eq_of_lt (by simp only [BitVec.reduceToNat]; omega)

/-- With another number of reserved sectors, the FAT is not where the code puts it. -/
theorem reserved_of_toNat_fatStart (hfat : (bx + 0x0004).toNat = (bootVolume bx m).fatStart) :
    (bootVolume bx m).reserved = 4 := by
  have hstart : (bootVolume bx m).fatStart = bx.toNat + (bootVolume bx m).reserved := rfl
  have hfits := h.fits
  rw [Volume.dataStart, Volume.rootStart] at hfits
  rw [BitVec.toNat_add, hstart, show (0x0004 : BitVec 16).toNat = 4 from rfl] at hfat
  omega

/-- `mulw` and `addw` keep the low word of the root directory's sector number. -/
theorem toNat_rootStart (hres : (bootVolume bx m).reserved = 4) :
    ((mulw ((m.read 0x8010).setWidth 16) (m.load16 0x8016)).setWidth 16 + (bx + 0x0004)).toNat =
      (bootVolume bx m).rootStart := by
  have hcount : ((m.read 0x8010).setWidth 16).toNat = (bootVolume bx m).fatCount :=
    BitVec.toNat_setWidth_of_le (by decide)
  have hsize : (m.load16 0x8016).toNat = (bootVolume bx m).sectorsPerFat := rfl
  have hfits := h.fits
  rw [Volume.dataStart, Volume.rootStart] at hfits
  rw [BitVec.toNat_add, BitVec.toNat_setWidth, toNat_mulw, hcount, hsize, toNat_fatStart h hres,
    Volume.rootStart, Nat.mod_add_mod, Nat.add_comm]
  exact Nat.mod_eq_of_lt (by omega)

/-- The division of the root directory's size by the sector size, rounded up. -/
theorem divw_rootSectors :
    ∃ ax dx, divw (mulw 0x20 (m.load16 0x8011)) (m.load16 0x800b) = some (ax, dx) ∧
      (if dx = 0 then ax else ax + 1).toNat = (bootVolume bx m).rootSectors := by
  have hpos := h.sector
  have hbps : (m.load16 0x800b).toNat = (bootVolume bx m).bytesPerSector := rfl
  have hword : (bootVolume bx m).bytesPerSector < 2 ^ 16 := (m.load16 0x800b).isLt
  have hentries : (mulw 0x20 (m.load16 0x8011)).toNat = 32 * (bootVolume bx m).rootEntries :=
    toNat_mulw _ _
  have hroots : (bootVolume bx m).rootSectors < 2 ^ 16 :=
    Nat.lt_of_le_of_lt (Nat.le_add_left _ _) h.fits
  rw [Volume.rootSectors, ceil_div hpos] at hroots
  have hquot : 32 * (bootVolume bx m).rootEntries / (bootVolume bx m).bytesPerSector < 2 ^ 16 := by
    split at hroots
    · exact hroots
    · exact Nat.lt_of_succ_lt hroots
  have hrem : 32 * (bootVolume bx m).rootEntries % (bootVolume bx m).bytesPerSector < 2 ^ 16 :=
    Nat.lt_trans (Nat.mod_lt _ hpos) hword
  refine ⟨_, _, divw_eq hpos (by rw [hentries, hbps]; exact hquot), ?_⟩
  rw [hentries, hbps, Volume.rootSectors, ceil_div hpos]
  have hzero : BitVec.ofNat 16 (32 * (bootVolume bx m).rootEntries % (bootVolume bx m).bytesPerSector)
      = 0 ↔ 32 * (bootVolume bx m).rootEntries % (bootVolume bx m).bytesPerSector = 0 := by
    rw [← BitVec.toNat_inj, BitVec.toNat_ofNat, Nat.mod_eq_of_lt hrem]
    rfl
  rw [if_congr hzero rfl rfl]
  split
  case isTrue =>
    rw [BitVec.toNat_ofNat]
    exact Nat.mod_eq_of_lt hquot
  case isFalse hne =>
    rw [if_neg hne] at hroots
    rw [BitVec.toNat_add, BitVec.toNat_ofNat, Nat.mod_eq_of_lt hquot]
    exact Nat.mod_eq_of_lt hroots

theorem geometry_of_reserved (hres : (bootVolume bx m).reserved = 4) :
    ∃ s, geometry bx (InitState.boot m) = .ok s ∧ Mounted (bootVolume bx m) s ∧ s.mem = m ∧
      s.packet.startSector = 0 := by
  obtain ⟨ax, dx, hdiv, hroots⟩ := divw_rootSectors h
  have hroot := toNat_rootStart h hres
  have hfits := h.fits
  have hmovw : ∀ w, (movw 0x00000000 w).toNat = w.toNat := fun w => by
    rw [toNat_movw]
    exact Nat.zero_add _
  have hmem : (InitState.boot m).mem = m := rfl
  refine ⟨_, by rw [geometry, hmem, hdiv],
    ⟨toNat_fatStart h hres, hroots, ?_, ?_, ?_, ?_, ?_⟩, rfl, rfl⟩
  · exact (hmovw _).trans hroot
  · refine (hmovw _).trans ?_
    rw [BitVec.toNat_add, hroots, hroot, Nat.add_comm]
    exact Nat.mod_eq_of_lt hfits
  · rfl
  · rfl
  · refine (toNat_mulw _ _).trans ?_
    rw [BitVec.toNat_setWidth_of_le (by decide)]
    rfl

theorem reserved_of_mounted {s : InitState} (hs : geometry bx (InitState.boot m) = .ok s)
    (hmounted : Mounted (bootVolume bx m) s) : (bootVolume bx m).reserved = 4 := by
  obtain ⟨ax, dx, hdiv, -⟩ := divw_rootSectors h
  have hmem : (InitState.boot m).mem = m := rfl
  rw [geometry, hmem, hdiv] at hs
  obtain rfl := Except.ok.inj hs
  exact reserved_of_toNat_fatStart h hmounted.fat

end

/-- **Geometry.** From the boot record at 0x8000, `_start` mounts its volume. -/
theorem geometry_spec {bx : BitVec 16} {m : Mem (BitVec 8)} (h : Loadable (bootVolume bx m)) :
    ∃ s, geometry bx (InitState.boot m) = .ok s ∧ Mounted (bootVolume bx m) s ∧ s.mem = m ∧
      s.packet.startSector = 0 :=
  geometry_of_reserved h.layout h.reserved

/-- **The layout of a volume.** Where its sector numbers fit in 16 bits, `_start` computes
where its FAT, its root directory and its data start, and the size of its clusters, exactly if
the volume has 4 reserved sectors. -/
theorem geometry_mounts_iff (bx : BitVec 16) (m : Mem (BitVec 8))
    (hsector : 0 < (bootVolume bx m).bytesPerSector)
    (hfits : (bootVolume bx m).dataStart < 2 ^ 16) :
    (∃ s, geometry bx (InitState.boot m) = .ok s ∧ Mounted (bootVolume bx m) s) ↔
      (bootVolume bx m).reserved = 4 := by
  have h : Layout (bootVolume bx m) := ⟨hsector, hfits⟩
  constructor
  · rintro ⟨s, hs, hmounted⟩
    exact reserved_of_mounted h hs hmounted
  · intro hres
    obtain ⟨s, hs, hmounted, -, -⟩ := geometry_of_reserved h hres
    exact ⟨s, hs, hmounted⟩

/-- A boot record at 0x8000: sectors of 512 bytes, clusters of 4 sectors, `reserved` reserved
sectors, two FATs of 32 sectors and 512 root directory entries. -/
def bootRecord (reserved : BitVec 8) : Mem (BitVec 8) :=
  Mem.fresh fun a =>
    if a = 0x800c then 0x02
    else if a = 0x800d then 0x04
    else if a = 0x800e then reserved
    else if a = 0x8010 then 0x02
    else if a = 0x8012 then 0x02
    else if a = 0x8016 then 0x20
    else 0

theorem geometry_mounts_4 :
    (∃ s, geometry 0x800 (InitState.boot (bootRecord 4)) = .ok s ∧
      Mounted (bootVolume 0x800 (bootRecord 4)) s) ↔
      (bootVolume 0x800 (bootRecord 4)).reserved = 4 :=
  geometry_mounts_iff 0x800 (bootRecord 4) (by decide) (by decide)

/-- With eight reserved sectors, of which init.bin takes three, the FAT is looked for four sectors
too early. -/
theorem geometry_misses_reserved_8 :
    0 < (bootVolume 0x800 (bootRecord 8)).bytesPerSector ∧
      (bootVolume 0x800 (bootRecord 8)).dataStart < 2 ^ 16 ∧
      ¬ ∃ s, geometry 0x800 (InitState.boot (bootRecord 8)) = .ok s ∧
        Mounted (bootVolume 0x800 (bootRecord 8)) s := by
  refine ⟨by decide, by decide, ?_⟩
  rintro ⟨s, hs, hmounted⟩
  have hres := reserved_of_mounted ⟨by decide, by decide⟩ hs hmounted
  exact absurd hres (by decide)

end ListaOS.Boot
