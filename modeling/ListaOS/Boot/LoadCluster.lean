/-
  One round of load_file.

  A round reads the FAT sector of a cluster into the buffer at 0x9000, and the cluster to the
  load address. `Clusters` are the geometries the loop is about: the load address stays a
  multiple of the cluster size, so a cluster never leaves its segment. `fatSectorOf`,
  `dataSectorOf` and `nextOf` are the sector numbers and the link as the registers have them;
  `loadCluster_ok`, `loadCluster_fat` and `loadCluster_data` are the three ends of a round, and
  `loadLoop_last`, `loadLoop_error` and `loadLoop_next` what the loop does with them.
-/
import ListaOS.Boot.FindFile

namespace ListaOS.Boot

open Lib

/-- Sectors of 512 to 4096 bytes, clusters of a power of two of sectors and at most 64K. -/
structure Clusters (D : Disk) (s : InitState) : Prop where
  size : D.size = s.bytesPerSector.toNat
  sector : ∃ k, 9 ≤ k ∧ k ≤ 12 ∧ s.bytesPerSector.toNat = 2 ^ k
  cluster : ∃ k, s.sectorsPerCluster.toNat = 2 ^ k
  bytes : s.bytesPerCluster.toNat = s.sectorsPerCluster.toNat * s.bytesPerSector.toNat
  small : s.bytesPerCluster.toNat ≤ 0x10000

/-- The geometry that `_start` computes is one of them. -/
theorem Mounted.clusters {V : Volume} {D : Disk} {s : InitState} (h : Mounted V s)
    (hV : Loadable V) (hD : D.size = V.bytesPerSector) : Clusters D s where
  size := by rw [hD, h.bytesPerSector]
  sector := by rw [h.bytesPerSector]; exact hV.sector
  cluster := by rw [h.sectorsPerCluster]; exact hV.cluster
  bytes := by rw [h.bytesPerCluster, h.sectorsPerCluster, h.bytesPerSector]; rfl
  small := by rw [h.bytesPerCluster]; exact hV.small

namespace Clusters

variable {D : Disk} {s : InitState} (h : Clusters D s)

include h

theorem update (m : Mem (BitVec 8)) (p : InfoPacket) :
    Clusters D { s with mem := m, packet := p } :=
  ⟨h.size, h.sector, h.cluster, h.bytes, h.small⟩

theorem sector_bounds : 512 ≤ s.bytesPerSector.toNat ∧ s.bytesPerSector.toNat ≤ 4096 := by
  obtain ⟨k, hlo, hhi, hk⟩ := h.sector
  rw [hk]
  show 2 ^ 9 ≤ 2 ^ k ∧ 2 ^ k ≤ 2 ^ 12
  exact ⟨Nat.pow_le_pow_right (by decide) hlo, Nat.pow_le_pow_right (by decide) hhi⟩

theorem sectors_pos : 0 < s.sectorsPerCluster.toNat := by
  obtain ⟨k, hk⟩ := h.cluster
  rw [hk]
  exact Nat.two_pow_pos k

theorem bytes_pos : 0 < s.bytesPerCluster.toNat := by
  have hlo := h.sector_bounds.1
  rw [h.bytes]
  exact Nat.mul_pos h.sectors_pos (by omega)

/-- A segment holds a whole number of clusters. -/
theorem dvd_segment : s.bytesPerCluster.toNat ∣ 0x10000 := by
  obtain ⟨k, -, -, hk⟩ := h.sector
  obtain ⟨j, hj⟩ := h.cluster
  have hpow : s.bytesPerCluster.toNat = 2 ^ (j + k) := by rw [h.bytes, hj, hk, Nat.pow_add]
  have hsmall := h.small
  rw [hpow] at hsmall ⊢
  have hle : j + k ≤ 16 := (Nat.pow_le_pow_iff_right Nat.one_lt_two).mp hsmall
  exact Nat.pow_dvd_pow 2 hle

end Clusters

/-! ## Registers of a round -/

/-- Sector number of the link of a cluster. -/
def fatSectorOf (s : InitState) (c : BitVec 16) : BitVec 16 :=
  BitVec.ofNat 16 (2 * c.toNat / s.bytesPerSector.toNat) + s.fat1StartSector

/-- Sector number of a cluster. -/
def dataSectorOf (s : InitState) (c : BitVec 16) : BitVec 32 :=
  mulw (s.sectorsPerCluster.setWidth 16) (c - 2) + s.dataStartSector

/-- The link of a cluster. -/
def nextOf (D : Disk) (s : InitState) (c : BitVec 16) : BitVec 16 :=
  Volume.word (D.byte (fatSectorOf s c).toNat) (2 * c.toNat % s.bytesPerSector.toNat)

def fatPacket (s : InitState) (c : BitVec 16) : InfoPacket :=
  ⟨0x0001, 0x9000, 0x0000, (fatSectorOf s c).setWidth 32⟩

/-- The segment of a load address. -/
def segment (addr : BitVec 32) : BitVec 16 := ((addr &&& 0xffff0000) >>> 4).setWidth 16

def dataPacket (s : InitState) (c : BitVec 16) (addr : BitVec 32) : InfoPacket :=
  ⟨s.sectorsPerCluster.setWidth 16, addr.setWidth 16, segment addr, dataSectorOf s c⟩

/-- Segment and offset make the load address. -/
theorem dataPacket_addr (s : InitState) (c : BitVec 16) (addr : BitVec 32)
    (h : addr.toNat < 0x100000) : (dataPacket s c addr).addr = addr.toNat := by
  have hseg : (segment addr).toNat = addr.toNat / 2 ^ 16 * 2 ^ 12 := by
    have hmask : (addr &&& 0xffff0000).toNat = addr.toNat / 2 ^ 16 * 2 ^ 16 :=
      toNat_and_allOnes_shiftLeft addr 16
    unfold segment
    rw [BitVec.toNat_setWidth, BitVec.toNat_ushiftRight, hmask,
      Nat.shiftRight_eq_div_pow]
    omega
  have hoff : (addr.setWidth 16).toNat = addr.toNat % 2 ^ 16 := BitVec.toNat_setWidth 16 addr
  unfold InfoPacket.addr
  rw [dataPacket, hseg, hoff]
  omega

/-- The link's place in the FAT fits the registers. -/
theorem divw_link {D : Disk} {s : InitState} (hs : Clusters D s) (c : BitVec 16) :
    divw (mulw 2 c) s.bytesPerSector = some (BitVec.ofNat 16 (2 * c.toNat / s.bytesPerSector.toNat),
      BitVec.ofNat 16 (2 * c.toNat % s.bytesPerSector.toNat)) := by
  have hmul : (mulw 2 c).toNat = 2 * c.toNat := toNat_mulw 2 c
  have hc := c.isLt
  have hlo := hs.sector_bounds.1
  have hmax := Nat.mul_le_mul_right (2 ^ 16) hlo
  have hquot : 2 * c.toNat / s.bytesPerSector.toNat < 2 ^ 16 := Nat.div_lt_of_lt_mul (by omega)
  have hdiv := divw_eq (a := mulw 2 c) (b := s.bytesPerSector) (by omega) (by rwa [hmul])
  rwa [hmul] at hdiv

theorem toNat_dataPacket_count (s : InitState) (c : BitVec 16) (addr : BitVec 32) :
    (dataPacket s c addr).sectorCount.toNat = s.sectorsPerCluster.toNat :=
  BitVec.toNat_setWidth_of_le (by decide)

/-- A cluster at a multiple of its size ends in its segment. -/
theorem dataPacket_fits {D : Disk} {s : InitState} (hs : Clusters D s) (c : BitVec 16)
    {addr : BitVec 32} (ha : s.bytesPerCluster.toNat ∣ addr.toNat) :
    (dataPacket s c addr).off.toNat + (dataPacket s c addr).sectorCount.toNat * D.size ≤ 0x10000 := by
  have hoff : (dataPacket s c addr).off.toNat = addr.toNat % 0x10000 := BitVec.toNat_setWidth 16 addr
  have hlt : addr.toNat % 0x10000 < 0x10000 := Nat.mod_lt _ (by decide)
  have hdvd : s.bytesPerCluster.toNat ∣ 0x10000 - addr.toNat % 0x10000 :=
    Nat.dvd_sub hs.dvd_segment ((Nat.dvd_mod_iff hs.dvd_segment).mpr ha)
  have hle := Nat.le_of_dvd (by omega) hdvd
  rw [toNat_dataPacket_count, hoff, hs.size, ← hs.bytes]
  omega

/-! ## The ends of a round -/

/-- Memory with the link's sector in the buffer. -/
def fatLoaded (D : Disk) (s : InitState) (c : BitVec 16) : Mem (BitVec 8) :=
  s.mem.writeList 0x9000 (D.sector (fatSectorOf s c).toNat)

/-- The state after the read of the cluster, as far as it can be read. -/
def loaded (D : Disk) (s : InitState) (c : BitVec 16) (addr : BitVec 32) : InitState :=
  { s with
    mem := (D.read s.sectorsPerCluster.toNat (dataSectorOf s c).toNat
      (dataPacket s c addr).addr (fatLoaded D s c)).1
    packet := dataPacket s c addr }

/-- A round is the read of the link's sector, the read of the cluster, and the link. -/
theorem loadCluster_eq (bios : Bios) {D : Disk} {s : InitState} (hs : Clusters D s) (c : BitVec 16)
    (addr : BitVec 32) :
    loadCluster bios c addr s =
      (readSector bios { s with packet := fatPacket s c }).bind fun t =>
        (readSector bios { t with packet :=
          ⟨t.sectorsPerCluster.setWidth 16, addr.setWidth 16, segment addr, dataSectorOf s c⟩ }).bind
          fun t => .ok (t.mem.load16
            (0x9000 + BitVec.ofNat 16 (2 * c.toNat % s.bytesPerSector.toNat)).toNat,
            addr + t.bytesPerCluster, t) := by
  unfold loadCluster
  rw [divw_link hs]
  rfl

section

variable {D : Disk} {bios : Bios} (hb : Serves D bios) {s : InitState} (hs : Clusters D s)
  {c : BitVec 16}

include hb hs

/-- Without the link's sector nothing is stored. -/
theorem loadCluster_fat {addr : BitVec 32} (h : ¬ D.readable (fatSectorOf s c).toNat = true) :
    loadCluster bios c addr s = .error (.loadError, { s with packet := fatPacket s c }) := by
  have hhi := hs.sector_bounds.2
  have hstart : (fatPacket s c).startSector.toNat = (fatSectorOf s c).toNat :=
    BitVec.toNat_setWidth_of_le (by decide)
  have hone : (fatPacket s c).sectorCount.toNat = 1 := rfl
  have hoff : (fatPacket s c).off.toNat = 0x9000 := rfl
  have hnot : ¬ D.AllReadable (fatPacket s c).sectorCount.toNat (fatPacket s c).startSector.toNat := by
    intro hall
    rw [hone, hstart] at hall
    exact h (hall 0 Nat.one_pos)
  have hkept : ((fatPacket s c).transfer D s.mem).1 = s.mem := by
    unfold InfoPacket.transfer
    rw [hstart, D.read_of_not_readable (hone ▸ Nat.one_pos) h]
  have hsector := readSector_error hb (s := { s with packet := fatPacket s c })
    (by rw [hone, hoff, hs.size]; omega) hnot
  rw [loadCluster_eq bios hs, hsector, Except.bind, hkept]

/-- The link's sector is in the buffer. -/
theorem readSector_fat (h : D.readable (fatSectorOf s c).toNat = true) :
    readSector bios { s with packet := fatPacket s c } =
      .ok { s with mem := fatLoaded D s c, packet := fatPacket s c } := by
  have hstart : ((fatSectorOf s c).setWidth 32).toNat = (fatSectorOf s c).toNat :=
    BitVec.toNat_setWidth_of_le (by decide)
  have hread := readSector_buffer hb (by rw [hs.size]; exact hs.sector_bounds.2)
    (s := { s with packet := fatPacket s c }) rfl (by rwa [hstart])
  rwa [hstart] at hread

/-- Then the cluster is read. -/
theorem loadCluster_read {addr : BitVec 32} (h : D.readable (fatSectorOf s c).toNat = true) :
    loadCluster bios c addr s =
      (readSector bios { s with mem := fatLoaded D s c, packet := dataPacket s c addr }).bind
        fun t => .ok (t.mem.load16
          (0x9000 + BitVec.ofNat 16 (2 * c.toNat % s.bytesPerSector.toNat)).toNat,
          addr + t.bytesPerCluster, t) := by
  rw [loadCluster_eq bios hs, readSector_fat hb hs h]
  rfl

variable {addr : BitVec 32} (ha : s.bytesPerCluster.toNat ∣ addr.toNat)
  (hfat : D.readable (fatSectorOf s c).toNat = true)

include ha hfat

/-- A sector of the cluster that cannot be read ends the loop. -/
theorem loadCluster_data
    (h : ¬ D.AllReadable s.sectorsPerCluster.toNat (dataSectorOf s c).toNat) :
    loadCluster bios c addr s = .error (.loadError, loaded D s c addr) := by
  have hcount := toNat_dataPacket_count s c addr
  have hsector := readSector_error hb
    (s := { s with mem := fatLoaded D s c, packet := dataPacket s c addr })
    (dataPacket_fits hs c ha) (by rw [hcount]; exact h)
  rw [InfoPacket.transfer, hcount] at hsector
  rw [loadCluster_read hb hs hfat, hsector]
  rfl

/-- Otherwise the round ends with the link. -/
theorem loadCluster_ok (h : D.AllReadable s.sectorsPerCluster.toNat (dataSectorOf s c).toNat) :
    loadCluster bios c addr s = .ok ((loaded D s c addr).mem.load16
      (0x9000 + BitVec.ofNat 16 (2 * c.toNat % s.bytesPerSector.toNat)).toNat,
      addr + s.bytesPerCluster, loaded D s c addr) := by
  have hcount := toNat_dataPacket_count s c addr
  have hsector := readSector_ok hb
    (s := { s with mem := fatLoaded D s c, packet := dataPacket s c addr })
    (dataPacket_fits hs c ha) (by rw [hcount]; exact h)
  rw [← D.read_data (by rw [hcount]; exact h), hcount] at hsector
  rw [loadCluster_read hb hs hfat, hsector]
  rfl

end

/-! ## After a round -/

/-- A round stores into the buffer and the cluster's place. -/
theorem writesIn_loaded {D : Disk} {s : InitState} (hs : Clusters D s) (c : BitVec 16)
    (addr : BitVec 32) :
    Mem.WritesIn ({a | (dataPacket s c addr).addr ≤ a ∧
      a < (dataPacket s c addr).addr + s.bytesPerCluster.toNat} ∪ buffer s.bytesPerSector.toNat)
      s.mem (loaded D s c addr).mem := by
  have hfat := Mem.writesIn_writeList s.mem 0x9000 (D.sector (fatSectorOf s c).toNat)
  have hdata := D.writesIn_read s.sectorsPerCluster.toNat (dataSectorOf s c).toNat
    (dataPacket s c addr).addr (fatLoaded D s c)
  rw [D.length_sector, hs.size] at hfat
  rw [hs.size, ← hs.bytes] at hdata
  exact (hfat.mono Set.subset_union_right).trans (hdata.mono Set.subset_union_left)

/-- The buffer still holds the link. -/
theorem load16_loaded {D : Disk} {s : InitState} (hs : Clusters D s) (c : BitVec 16)
    {addr : BitVec 32} (ha : 0xa000 ≤ (dataPacket s c addr).addr) :
    (loaded D s c addr).mem.load16
      (0x9000 + BitVec.ofNat 16 (2 * c.toNat % s.bytesPerSector.toNat)).toNat = nextOf D s c := by
  have hhi := hs.sector_bounds.2
  have heven : 2 * c.toNat % s.bytesPerSector.toNat % 2 = 0 ∧ s.bytesPerSector.toNat % 2 = 0 := by
    obtain ⟨k, hk, -, hpow⟩ := hs.sector
    have hdvd : 2 ^ 1 ∣ s.bytesPerSector.toNat := hpow ▸ Nat.pow_dvd_pow 2 (by omega)
    exact ⟨(Nat.mod_mod_of_dvd _ hdvd).trans (Nat.mul_mod_right 2 _), Nat.mod_eq_zero_of_dvd hdvd⟩
  have hlt : 2 * c.toNat % s.bytesPerSector.toNat < s.bytesPerSector.toNat :=
    Nat.mod_lt _ (by have := hs.sector_bounds.1; omega)
  have hbyte : ∀ j < s.bytesPerSector.toNat, (loaded D s c addr).mem.read (0x9000 + j) =
      D.byte (fatSectorOf s c).toNat j := by
    intro j hj
    have hkept := (D.writesIn_read s.sectorsPerCluster.toNat (dataSectorOf s c).toNat
      (dataPacket s c addr).addr (fatLoaded D s c)).read (0x9000 + j) fun hin => by
        have hlo := hin.1
        omega
    unfold loaded
    rw [hkept]
    exact holds_writeList D _ s.mem j (by rwa [hs.size])
  have hplace : (0x9000 + BitVec.ofNat 16 (2 * c.toNat % s.bytesPerSector.toNat)).toNat =
      0x9000 + 2 * c.toNat % s.bytesPerSector.toNat := by
    have h9000 : (0x9000 : BitVec 16).toNat = 0x9000 := rfl
    rw [BitVec.toNat_add, BitVec.toNat_ofNat, h9000]
    omega
  rw [Mem.load16, hplace, Nat.add_assoc, hbyte _ (by omega), hbyte _ hlt]
  rfl

/-- A round above the buffer ends with the link that the disk has. -/
theorem loadCluster_next {D : Disk} {bios : Bios} (hb : Serves D bios) {s : InitState}
    (hs : Clusters D s) {c : BitVec 16} {addr : BitVec 32}
    (ha : s.bytesPerCluster.toNat ∣ addr.toNat) (hlo : 0xa000 ≤ addr.toNat)
    (hhi : addr.toNat < 0x100000) (hfat : D.readable (fatSectorOf s c).toNat = true)
    (hdata : D.AllReadable s.sectorsPerCluster.toNat (dataSectorOf s c).toNat) :
    loadCluster bios c addr s =
      .ok (nextOf D s c, addr + s.bytesPerCluster, loaded D s c addr) := by
  have haddr := dataPacket_addr s c addr hhi
  rw [loadCluster_ok hb hs ha hfat hdata, load16_loaded hs c (by rwa [haddr])]

/-! ## The loop -/

section

variable {bios : Bios} {c c' : BitVec 16} {addr addr' : BitVec 32} {s s' : InitState}

theorem loadLoop_error {e : Exit × InitState} (h : loadCluster bios c addr s = .error e) :
    Returns (fun n => loadLoop bios n c addr s) (.error e) := by
  refine Returns.succ ((Returns.pure _).congr fun n => ?_)
  unfold loadLoop
  rw [h]

variable (h : loadCluster bios c addr s = .ok (c', addr', s'))

include h

/-- An end mark ends the loop. -/
theorem loadLoop_last (hc : ¬ c' < 0xfff8) : Returns (fun n => loadLoop bios n c addr s) (.ok s') := by
  refine Returns.succ ((Returns.pure _).congr fun n => ?_)
  unfold loadLoop
  rw [h]
  exact if_neg hc

/-- Any other link is followed. -/
theorem loadLoop_next (hc : c' < 0xfff8) {r : Outcome InitState} :
    Returns (fun n => loadLoop bios n c addr s) r ↔
      Returns (fun n => loadLoop bios n c' addr' s') r := by
  have hstep : ∀ n, loadLoop bios (n + 1) c addr s = loadLoop bios n c' addr' s' := fun n => by
    rw [loadLoop, h]
    exact if_pos hc
  constructor
  · rintro ⟨N, hN⟩
    exact ⟨N, fun n hn => (hstep n).symm.trans (hN (n + 1) (by omega))⟩
  · exact fun hr => Returns.succ (hr.congr hstep)

end

end ListaOS.Boot
