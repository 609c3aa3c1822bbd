/-
  load_file on any FAT.

  The loop's only exit test is the end mark of a link. `Ends` says that within so many
  clusters a chain comes to an end mark, or to a sector that cannot be read.
  `loadFile_stays_iff`: load_file returns, and stores only into the kernel's 64K and the
  sector buffer, exactly if the chain ends in the clusters that 64K hold.
-/
import ListaOS.Boot.LoadCluster

namespace ListaOS.Boot

open Lib

/-- Memory when load_file returns or fails. -/
def memoryOf : Outcome InitState → Mem (BitVec 8)
  | .ok s => s.mem
  | .error (_, s) => s.mem

/-- At most `room` clusters from `c` on are loaded, and nothing of the next one. -/
def Ends (D : Disk) (s : InitState) : Nat → BitVec 16 → Prop
  | 0, c => ¬ D.readable (fatSectorOf s c).toNat = true ∨
      ¬ D.readable (dataSectorOf s c).toNat = true
  | room + 1, c => ¬ D.readable (fatSectorOf s c).toNat = true ∨
      ¬ D.AllReadable s.sectorsPerCluster.toNat (dataSectorOf s c).toNat ∨
      ¬ nextOf D s c < 0xfff8 ∨ Ends D s room (nextOf D s c)

/-- The chain does not depend on what is loaded. -/
theorem ends_loaded (D : Disk) (s : InitState) (c : BitVec 16) (addr : BitVec 32) {room : Nat}
    {d : BitVec 16} : Ends D (loaded D s c addr) room d ↔ Ends D s room d := by
  induction room generalizing d with
  | zero => exact Iff.rfl
  | succ room ih =>
    rw [Ends, Ends, ih]
    exact Iff.rfl

/-- A chain that never comes to an end mark, on a disk without errors. -/
theorem not_ends_of_cycle {D : Disk} {s : InitState} (hread : ∀ n, D.readable n = true)
    {c : BitVec 16} (h : ∀ i, (nextOf D s)^[i + 1] c < 0xfff8) (room : Nat) : ¬ Ends D s room c := by
  induction room generalizing c with
  | zero =>
    rintro (hfat | hdata)
    · exact hfat (hread _)
    · exact hdata (hread _)
  | succ room ih =>
    rintro (hfat | hdata | hend | hrest)
    · exact hfat (hread _)
    · exact hdata fun i _ => hread _
    · exact hend (h 0)
    · exact ih (fun i => h (i + 1)) hrest

/-! ## Addresses -/

/-- The load address of the next cluster. -/
theorem toNat_next (s : InitState) (addr : BitVec 32)
    (h : addr.toNat + s.bytesPerCluster.toNat ≤ 0x30000) :
    (addr + s.bytesPerCluster).toNat = addr.toNat + s.bytesPerCluster.toNat :=
  BitVec.toNat_add_of_lt (by omega)

section

variable {D : Disk} {bios : Bios} (hb : Serves D bios) {s : InitState} (hs : Clusters D s)

include hs

theorem dvd_next {addr : BitVec 32} (ha : s.bytesPerCluster.toNat ∣ addr.toNat) :
    s.bytesPerCluster.toNat ∣ (addr + s.bytesPerCluster).toNat := by
  have h32 : s.bytesPerCluster.toNat ∣ 2 ^ 32 := Nat.dvd_trans hs.dvd_segment (by decide)
  rw [BitVec.toNat_add]
  exact (Nat.dvd_mod_iff h32).mpr (Nat.dvd_add ha (Nat.dvd_refl _))

include hb

/-- Whatever the loop does, the stores before it stay recorded. -/
theorem loadLoop_extends {n : Nat} {c : BitVec 16} {addr : BitVec 32}
    (ha : s.bytesPerCluster.toNat ∣ addr.toNat) {r : Outcome InitState}
    (hr : loadLoop bios n c addr s = some r) : Mem.WritesIn Set.univ s.mem (memoryOf r) := by
  induction n generalizing c addr s with
  | zero => cases hr
  | succ n ih =>
    have hwrites := (writesIn_loaded hs c addr).mono (Set.subset_univ _)
    rw [loadLoop] at hr
    by_cases hfat : D.readable (fatSectorOf s c).toNat = true
    · by_cases hdata : D.AllReadable s.sectorsPerCluster.toNat (dataSectorOf s c).toNat
      · rw [loadCluster_ok hb hs ha hfat hdata] at hr
        dsimp only at hr
        split at hr
        · exact hwrites.trans (ih (s := loaded D s c addr) (hs.update _ _) (dvd_next hs ha) hr)
        · cases hr
          exact hwrites
      · rw [loadCluster_data hb hs ha hfat hdata] at hr
        cases hr
        exact hwrites
    · rw [loadCluster_fat hb hs hfat] at hr
      cases hr
      exact Mem.WritesIn.refl _ _

/-- The stores of a round stay recorded. -/
theorem loaded_extends {c : BitVec 16} {addr : BitVec 32}
    (ha : s.bytesPerCluster.toNat ∣ addr.toNat)
    (hfat : D.readable (fatSectorOf s c).toNat = true) {r : Outcome InitState}
    (hr : Returns (fun n => loadLoop bios n c addr s) r) :
    Mem.WritesIn Set.univ (loaded D s c addr).mem (memoryOf r) := by
  by_cases hdata : D.AllReadable s.sectorsPerCluster.toNat (dataSectorOf s c).toNat
  case neg =>
    rw [hr.unique (loadLoop_error (loadCluster_data hb hs ha hfat hdata))]
    exact Mem.WritesIn.refl _ _
  have hok := loadCluster_ok hb hs ha hfat hdata
  by_cases hnext : (loaded D s c addr).mem.load16
      (0x9000 + BitVec.ofNat 16 (2 * c.toNat % s.bytesPerSector.toNat)).toNat < 0xfff8
  case neg =>
    rw [hr.unique (loadLoop_last hok hnext)]
    exact Mem.WritesIn.refl _ _
  obtain ⟨N, hN⟩ := (loadLoop_next hok hnext).mp hr
  exact loadLoop_extends hb (s := loaded D s c addr) (hs.update _ _) (dvd_next hs ha)
    (hN N (Nat.le_refl N))

end

/-! ## The kernel's region -/

/-- Where the loader may store. -/
def allowed (s : InitState) : Set Nat := kernelRegion ∪ buffer s.bytesPerSector.toNat

section

variable {D : Disk} {bios : Bios} (hb : Serves D bios) {s : InitState} (hs : Clusters D s)
  {c : BitVec 16} {addr : BitVec 32} (hdvd : s.bytesPerCluster.toNat ∣ addr.toNat)

include hs

/-- A cluster that ends in the region. -/
theorem writesIn_loaded_region (hlo : 0x20000 ≤ addr.toNat)
    (hhi : addr.toNat + s.bytesPerCluster.toNat ≤ 0x30000) :
    Mem.WritesIn (allowed s) s.mem (loaded D s c addr).mem := by
  have hpos := hs.bytes_pos
  refine (writesIn_loaded hs c addr).mono (Set.union_subset_union_left _ ?_)
  rw [dataPacket_addr s c addr (by omega)]
  rintro a ⟨h1, h2⟩
  exact ⟨by omega, by omega⟩

include hb hdvd

/-- A round that the loop does not go on from. -/
theorem round_stays (hlo : 0x20000 ≤ addr.toNat)
    (hhi : addr.toNat + s.bytesPerCluster.toNat ≤ 0x30000)
    (h : ¬ D.readable (fatSectorOf s c).toNat = true ∨
      ¬ D.AllReadable s.sectorsPerCluster.toNat (dataSectorOf s c).toNat ∨
      ¬ nextOf D s c < 0xfff8) :
    ∃ r, Returns (fun n => loadLoop bios n c addr s) r ∧
      Mem.WritesIn (allowed s) s.mem (memoryOf r) := by
  have hround := writesIn_loaded_region hs (c := c) hlo hhi
  have hpos := hs.bytes_pos
  by_cases hfat : D.readable (fatSectorOf s c).toNat = true
  case neg => exact ⟨_, loadLoop_error (loadCluster_fat hb hs hfat), Mem.WritesIn.refl _ _⟩
  by_cases hdata : D.AllReadable s.sectorsPerCluster.toNat (dataSectorOf s c).toNat
  case neg => exact ⟨_, loadLoop_error (loadCluster_data hb hs hdvd hfat hdata), hround⟩
  have hend := (h.resolve_left (not_not_intro hfat)).resolve_left (not_not_intro hdata)
  have hok := loadCluster_next hb hs hdvd (by omega) (by omega) hfat hdata
  exact ⟨_, loadLoop_last hok hend, hround⟩

/-- Behind the region, a cluster whose first sector cannot be read. -/
theorem round_stays_behind
    (h : ¬ D.readable (fatSectorOf s c).toNat = true ∨
      ¬ D.readable (dataSectorOf s c).toNat = true) :
    ∃ r, Returns (fun n => loadLoop bios n c addr s) r ∧
      Mem.WritesIn (allowed s) s.mem (memoryOf r) := by
  by_cases hfat : D.readable (fatSectorOf s c).toNat = true
  case neg => exact ⟨_, loadLoop_error (loadCluster_fat hb hs hfat), Mem.WritesIn.refl _ _⟩
  have hdata := h.resolve_left (not_not_intro hfat)
  have hspc := hs.sectors_pos
  have hsector := Mem.writesIn_writeList s.mem 0x9000 (D.sector (fatSectorOf s c).toNat)
  rw [D.length_sector, hs.size] at hsector
  refine ⟨_, loadLoop_error (loadCluster_data hb hs hdvd hfat fun hall => hdata (hall 0 hspc)), ?_⟩
  unfold memoryOf
  rw [loaded, D.read_of_not_readable hspc hdata]
  exact hsector.mono Set.subset_union_right

/-- A chain that ends is loaded into the region. -/
theorem loadLoop_stays {room : Nat} (hlo : 0x20000 ≤ addr.toNat)
    (hroom : addr.toNat + room * s.bytesPerCluster.toNat = 0x30000) (h : Ends D s room c) :
    ∃ r, Returns (fun n => loadLoop bios n c addr s) r ∧
      Mem.WritesIn (allowed s) s.mem (memoryOf r) := by
  induction room generalizing c addr s with
  | zero => exact round_stays_behind hb hs hdvd h
  | succ room ih =>
    rw [Nat.succ_mul] at hroom
    by_cases hstop : ¬ D.readable (fatSectorOf s c).toNat = true ∨
      ¬ D.AllReadable s.sectorsPerCluster.toNat (dataSectorOf s c).toNat ∨ ¬ nextOf D s c < 0xfff8
    case pos => exact round_stays hb hs hdvd hlo (by omega) hstop
    obtain ⟨hfat, hdata, hnext⟩ : D.readable (fatSectorOf s c).toNat = true ∧
        D.AllReadable s.sectorsPerCluster.toNat (dataSectorOf s c).toNat ∧
        nextOf D s c < 0xfff8 := by
      simpa only [not_or, not_not] using hstop
    have hrest : Ends D s room (nextOf D s c) := by
      obtain hfat' | hdata' | hend | hrest := h
      · exact absurd hfat hfat'
      · exact absurd hdata hdata'
      · exact absurd hnext hend
      · exact hrest
    have hpos := hs.bytes_pos
    have hok := loadCluster_next hb hs hdvd (by omega) (by omega) hfat hdata
    have hsum := toNat_next s addr (by omega)
    obtain ⟨r, hr, hwrites⟩ := ih (s := loaded D s c addr)
      (hs.update _ _) (dvd_next hs hdvd) (by omega)
      (show (addr + s.bytesPerCluster).toNat + room * s.bytesPerCluster.toNat = 0x30000 by omega)
      ((ends_loaded D s c addr).mpr hrest)
    exact ⟨r, (loadLoop_next hok hnext).mpr hr,
      (writesIn_loaded_region hs hlo (by omega)).trans hwrites⟩

/-- A cluster at 0x30000 stores its first byte there. -/
theorem not_stays_behind (haddr : addr.toNat = 0x30000)
    (hfat : D.readable (fatSectorOf s c).toNat = true)
    (hdata : D.readable (dataSectorOf s c).toNat = true) {r : Outcome InitState}
    (hr : Returns (fun n => loadLoop bios n c addr s) r) :
    ¬ Mem.WritesIn (allowed s) s.mem (memoryOf r) := by
  have hhi := hs.sector_bounds
  obtain ⟨l, hl, hmem⟩ := D.mem_log_read hs.sectors_pos (by rw [hs.size]; omega) hdata
    (dataPacket s c addr).addr (fatLoaded D s c)
  obtain ⟨l', hl', -⟩ := (Mem.writesIn_writeList s.mem 0x9000 (D.sector (fatSectorOf s c).toNat)).log
  rw [dataPacket_addr s c addr (by omega), haddr] at hmem
  -- the rest of the loop keeps the record of that store
  obtain ⟨l'', hl'', -⟩ := (loaded_extends hb hs hdvd hfat hr).log
  intro hwrites
  have hlog : (memoryOf r).log = (l'' ++ l ++ l') ++ s.mem.log := by
    rw [hl'', loaded, hl, fatLoaded, hl', List.append_assoc, List.append_assoc]
  have hin := hwrites.mem_of_append hlog (i := 0x30000) (by simp [hmem])
  obtain ⟨-, hle⟩ | ⟨-, hlt⟩ := hin <;> omega

/-- If only the region is stored to, the chain ends. -/
theorem ends_of_stays {room : Nat} (hlo : 0x20000 ≤ addr.toNat)
    (hroom : addr.toNat + room * s.bytesPerCluster.toNat = 0x30000) {r : Outcome InitState}
    (hr : Returns (fun n => loadLoop bios n c addr s) r)
    (hwrites : Mem.WritesIn (allowed s) s.mem (memoryOf r)) : Ends D s room c := by
  induction room generalizing c addr s with
  | zero =>
    unfold Ends
    rw [← not_and_or]
    rintro ⟨hfat, hdata⟩
    exact not_stays_behind hb hs hdvd (by omega) hfat hdata hr hwrites
  | succ room ih =>
    rw [Nat.succ_mul] at hroom
    have hpos := hs.bytes_pos
    by_cases hfat : D.readable (fatSectorOf s c).toNat = true
    case neg => exact .inl hfat
    by_cases hdata : D.AllReadable s.sectorsPerCluster.toNat (dataSectorOf s c).toNat
    case neg => exact .inr (.inl hdata)
    by_cases hnext : nextOf D s c < 0xfff8
    case neg => exact .inr (.inr (.inl hnext))
    have hok := loadCluster_next hb hs hdvd (by omega) (by omega) hfat hdata
    have hsum := toNat_next s addr (by omega)
    have hrest := hwrites.of_trans (writesIn_loaded_region hs hlo (by omega))
      (loaded_extends hb hs hdvd hfat hr)
    have hends := ih (s := loaded D s c addr) (hs.update _ _)
      (dvd_next hs hdvd) (by omega)
      (show (addr + s.bytesPerCluster).toNat + room * s.bytesPerCluster.toNat = 0x30000 by omega)
      ((loadLoop_next hok hnext).mp hr) hrest
    exact .inr (.inr (.inr ((ends_loaded D s c addr).mp hends)))

end

/-- **load_file stays in the kernel's region** exactly if its chain ends in the clusters that
64K hold. -/
theorem loadFile_stays_iff {D : Disk} {bios : Bios} (hb : Serves D bios) {s : InitState}
    (hs : Clusters D s) (bx : BitVec 16) :
    (∃ r, Returns (fun n => loadFile bios n 0x0000 0x2000 bx s) r ∧
      Mem.WritesIn (kernelRegion ∪ buffer s.bytesPerSector.toNat) s.mem (memoryOf r)) ↔
    Ends D s (0x10000 / s.bytesPerCluster.toNat) (s.mem.load16 (bx + 0x1a).toNat) := by
  have haddr : (0x00020000 : BitVec 32).toNat = 0x20000 := rfl
  have hdvd : s.bytesPerCluster.toNat ∣ (0x00020000 : BitVec 32).toNat :=
    Nat.dvd_trans hs.dvd_segment (by decide)
  have hroom : (0x00020000 : BitVec 32).toNat +
      0x10000 / s.bytesPerCluster.toNat * s.bytesPerCluster.toNat = 0x30000 := by
    rw [Nat.div_mul_cancel hs.dvd_segment, haddr]
  have hlo : 0x20000 ≤ (0x00020000 : BitVec 32).toNat := Nat.le_of_eq haddr.symm
  constructor
  · rintro ⟨r, hr, hwrites⟩
    exact ends_of_stays hb hs hdvd hlo hroom hr hwrites
  · exact loadLoop_stays hb hs hdvd hlo hroom

/-- A disk whose cluster 2 links to itself. -/
def cyclicDisk : Disk :=
  Disk.ofPrefixes 512 (fun n =>
    match n with
    | 4 => [0xf8, 0xff, 0xff, 0xff, 0x02, 0x00]
    | _ => []) fun n => by split <;> decide

/-- One-sector clusters of 512 bytes, and an entry with the first cluster 2 in the buffer. -/
def cyclicStart : InitState :=
  { InitState.boot (Mem.fresh fun a => if a = 0x901a then 0x02 else 0x00) with
    fat1StartSector := 4
    rootEntrySectorCount := 1
    rootDirStartSector := 5
    dataStartSector := 6
    sectorsPerCluster := 1
    bytesPerSector := 0x0200
    bytesPerCluster := 0x00000200 }

theorem clusters_cyclicStart : Clusters cyclicDisk cyclicStart :=
  ⟨rfl, ⟨9, by decide⟩, ⟨0, rfl⟩, rfl, by decide⟩

theorem loadFile_stays_iff_cyclic :
    (∃ r, Returns (fun n => loadFile (int13 cyclicDisk) n 0x0000 0x2000 0x9000 cyclicStart) r ∧
      Mem.WritesIn (kernelRegion ∪ buffer 0x200) cyclicStart.mem (memoryOf r)) ↔
    Ends cyclicDisk cyclicStart 128 2 :=
  loadFile_stays_iff (serves_int13 cyclicDisk) clusters_cyclicStart 0x9000

/-- load_file of a cyclic chain does not both return and stay in the region. -/
theorem cyclic_chain_leaves_region :
    ¬ ∃ r, Returns (fun n => loadFile (int13 cyclicDisk) n 0x0000 0x2000 0x9000 cyclicStart) r ∧
      Mem.WritesIn (kernelRegion ∪ buffer 0x200) cyclicStart.mem (memoryOf r) := by
  have hlink : nextOf cyclicDisk cyclicStart 2 = 2 := rfl
  have hcycle : ∀ i, (nextOf cyclicDisk cyclicStart)^[i + 1] 2 < 0xfff8 := fun i => by
    rw [Function.iterate_fixed hlink]
    decide
  rintro ⟨r, hr, hwrites⟩
  have hroom : (0x00020000 : BitVec 32).toNat + 128 * cyclicStart.bytesPerCluster.toNat = 0x30000 :=
    rfl
  have hends := ends_of_stays (serves_int13 cyclicDisk) clusters_cyclicStart (by decide) (by decide)
    hroom hr hwrites
  exact not_ends_of_cycle (fun _ => rfl) hcycle 128 hends

end ListaOS.Boot
