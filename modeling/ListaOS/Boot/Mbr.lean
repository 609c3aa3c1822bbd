/-
  The first stage of the boot loader (bootloader/BIOS/boot.s).

  `_start` loads sector 2, where the entries of the partition table begin, and takes the first
  sector of the first partition from it; then it loads four sectors from there, and calls
  init.bin behind the boot record. The variables are those of `info_packet`: they lie in the
  boot sector at 0x7c00, where no disk read stores. The messages are left out.

  `mbrStart_eq` says how `_start` ends on any disk. With sectors of 512 bytes, the boot record
  that init.s finds at 0x8000 is the partition's (`bootVolume_of_loaded`), so the two stages
  together load KERNEL.SYS of the first partition (`disk_to_kernel`).
-/
import ListaOS.Boot.LoadFile

namespace ListaOS.Boot

open Lib

structure MbrState where
  mem : Mem (BitVec 8)
  packet : InfoPacket

/-- The boot sector as it was assembled. -/
def MbrState.boot (mem : Mem (BitVec 8)) : MbrState := ⟨mem, ⟨0x0001, 0x8000, 0x0000, 0x00000000⟩⟩

/-- `read_sector`; the other end is `load_error`, which does not return. -/
def MbrState.readSector (bios : Bios) (s : MbrState) : Except MbrState MbrState :=
  let r := bios s.packet s.mem
  let s : MbrState := ⟨r.1, s.packet⟩
  if r.2 = 0x00 then .ok s else .error s

/-- `_start` up to the call of init.bin: `%bx`, and the state. -/
def mbrStart (bios : Bios) (s : MbrState) : Except MbrState (BitVec 16 × MbrState) := do
  let startSector := movw s.packet.startSector 0x0002
  let s ← MbrState.readSector bios ⟨s.mem, { s.packet with startSector := startSector }⟩
  let bx : BitVec 16 := 0x8000
  let ax := s.mem.load16 (bx + 0x20).toNat
  let startSector := movw s.packet.startSector ax
  let count := 0x0004
  let s ← MbrState.readSector bios
    ⟨s.mem, { s.packet with startSector := startSector, sectorCount := count }⟩
  pure (s.packet.startSector.setWidth 16, s)

/-! ## The partition table -/

/-- First sector of the first partition: the quadword at 0x20 of its entry, in sector 2. -/
def firstLba (D : Disk) : BitVec 64 :=
  Volume.word (D.byte 2) 0x26 ++ Volume.word (D.byte 2) 0x24 ++
    (Volume.word (D.byte 2) 0x22 ++ Volume.word (D.byte 2) 0x20)

/-- The part of it that `%ax` takes. -/
def firstSector (D : Disk) : BitVec 16 := Volume.word (D.byte 2) 0x20

theorem toNat_firstSector (D : Disk) : (firstSector D).toNat = (firstLba D).toNat % 2 ^ 16 := by
  have hlow : (firstLba D).setWidth 32 = Volume.word (D.byte 2) 0x22 ++ firstSector D :=
    BitVec.setWidth_append_eq_right
  have hword : ((firstLba D).setWidth 32).setWidth 16 = firstSector D := by
    rw [hlow]
    exact BitVec.setWidth_append_eq_right
  rw [← hword, BitVec.toNat_setWidth, BitVec.toNat_setWidth]
  omega

/-- The volume of the partition that starts at a sector. -/
def volumeAt (D : Disk) (p : Nat) : Volume := Volume.decode p (D.byte p)

/-! ## _start -/

/-- Memory when init.bin is called. -/
def mbrLoaded (D : Disk) (m : Mem (BitVec 8)) : Mem (BitVec 8) :=
  (m.writeList 0x8000 (D.sector 2)).writeList 0x8000 (D.data 4 (firstSector D).toNat)

section

variable {D : Disk}

/-- A read of sectors to 0x8000. -/
theorem MbrState.readSector_eq {bios : Bios} (hb : Serves D bios) {n x : Nat} (hn : n < 2 ^ 16) (hx : x < 2 ^ 32)
    (hroom : n * D.size ≤ 0x8000) (m : Mem (BitVec 8)) :
    MbrState.readSector bios ⟨m, ⟨BitVec.ofNat 16 n, 0x8000, 0x0000, BitVec.ofNat 32 x⟩⟩ =
      if D.AllReadable n x then
        .ok ⟨m.writeList 0x8000 (D.data n x), ⟨BitVec.ofNat 16 n, 0x8000, 0x0000, BitVec.ofNat 32 x⟩⟩
      else .error ⟨(D.read n x 0x8000 m).1,
        ⟨BitVec.ofNat 16 n, 0x8000, 0x0000, BitVec.ofNat 32 x⟩⟩ := by
  have hcount : (BitVec.ofNat 16 n).toNat = n := by
    rw [BitVec.toNat_ofNat]
    exact Nat.mod_eq_of_lt hn
  have hstart : (BitVec.ofNat 32 x).toNat = x := by
    rw [BitVec.toNat_ofNat]
    exact Nat.mod_eq_of_lt hx
  have hoff : (0x8000 : BitVec 16).toNat = 0x8000 := rfl
  have haddr : 16 * (0x0000 : BitVec 16).toNat + 0x8000 = 0x8000 := rfl
  have htransfer : InfoPacket.transfer ⟨BitVec.ofNat 16 n, 0x8000, 0x0000, BitVec.ofNat 32 x⟩ D m =
      D.read n x 0x8000 m := by
    unfold InfoPacket.transfer InfoPacket.addr
    rw [hcount, hstart, hoff, haddr]
  obtain ⟨hmem, hah⟩ := hb ⟨BitVec.ofNat 16 n, 0x8000, 0x0000, BitVec.ofNat 32 x⟩ m (by
    rw [hcount, hoff]
    omega)
  rw [htransfer] at hmem hah
  unfold MbrState.readSector
  by_cases hread : D.AllReadable n x
  · rw [if_pos hread, if_pos (hah.mpr (D.read_snd.mpr hread)), hmem, D.read_data hread]
  · rw [if_neg hread, if_neg fun h0 => hread (D.read_snd.mp (hah.mp h0)), hmem]

/-- `%ax` is the first sector of the first partition. -/
theorem load16_entry (hlo : 0x22 ≤ D.size) (m : Mem (BitVec 8)) :
    (m.writeList 0x8000 (D.data 1 2)).load16 (0x8000 + 0x20) = firstSector D := by
  have hbyte : ∀ i < D.size, (m.writeList 0x8000 (D.data 1 2)).read (0x8000 + i) = D.byte 2 i := by
    intro i hi
    refine Mem.read_writeList m 0x8000 ?_
    have hget := D.getElem?_data Nat.one_pos hi 2
    rwa [Nat.zero_mul, Nat.zero_add] at hget
  rw [Mem.load16, Nat.add_assoc, hbyte _ (by omega), hbyte _ (by omega)]
  rfl

/-- A store into a variable whose upper half is 0. -/
theorem movw_of_lt {x : BitVec 32} (hx : x.toNat < 2 ^ 16) (w : BitVec 16) :
    movw x w = BitVec.ofNat 32 w.toNat := by
  have hw := w.isLt
  apply BitVec.eq_of_toNat_eq
  rw [toNat_movw, Nat.div_eq_of_lt hx, BitVec.toNat_ofNat]
  omega

section

variable {bios : Bios} (hb : Serves D bios) (hlo : 0x22 ≤ D.size) (hhi : D.size ≤ 0x2000)
  (m : Mem (BitVec 8))

include hb hlo hhi

/-- `_start` on any disk. -/
theorem mbrStart_eq :
    mbrStart bios (MbrState.boot m) =
      if D.readable 2 = true then
        if D.AllReadable 4 (firstSector D).toNat then
          .ok (firstSector D,
            ⟨mbrLoaded D m, ⟨0x0004, 0x8000, 0x0000, BitVec.ofNat 32 (firstSector D).toNat⟩⟩)
        else .error ⟨(D.read 4 (firstSector D).toNat 0x8000 (m.writeList 0x8000 (D.sector 2))).1,
          ⟨0x0004, 0x8000, 0x0000, BitVec.ofNat 32 (firstSector D).toNat⟩⟩
      else .error ⟨m, ⟨0x0001, 0x8000, 0x0000, 0x00000002⟩⟩ := by
  have hp := (firstSector D).isLt
  have hone : D.AllReadable 1 2 ↔ D.readable 2 = true := by
    rw [D.allReadable_succ]
    exact and_iff_left fun i hi => absurd hi (Nat.not_lt_zero i)
  have htable := MbrState.readSector_eq hb (n := 1) (x := 2) (by decide) (by decide) (by omega) m
  have hdata := MbrState.readSector_eq hb (n := 4) (x := (firstSector D).toNat) (by decide)
    (by omega) (by omega) (m.writeList 0x8000 (D.data 1 2))
  have hpacket := movw_of_lt (x := BitVec.ofNat 32 2) (by decide) (firstSector D)
  have hbx : (BitVec.ofNat 32 (firstSector D).toNat).setWidth 16 = firstSector D := by
    apply BitVec.eq_of_toNat_eq
    rw [BitVec.toNat_setWidth, BitVec.toNat_ofNat]
    omega
  have hstart : mbrStart bios (MbrState.boot m) =
      (MbrState.readSector bios ⟨m, ⟨BitVec.ofNat 16 1, 0x8000, 0x0000, BitVec.ofNat 32 2⟩⟩).bind
        fun s => (MbrState.readSector bios ⟨s.mem, { s.packet with
          startSector := movw s.packet.startSector (s.mem.load16 (0x8000 + 0x20))
          sectorCount := BitVec.ofNat 16 4 }⟩).bind
            fun s => .ok (s.packet.startSector.setWidth 16, s) := by
    have hsecond : movw 0x00000000 0x0002 = BitVec.ofNat 32 2 := by decide
    have haddr : ((0x8000 : BitVec 16) + 0x20).toNat = 0x8000 + 0x20 := rfl
    unfold mbrStart MbrState.boot
    dsimp only
    rw [hsecond, haddr]
    rfl
  rw [hstart, htable, ← if_congr hone rfl rfl]
  by_cases hread : D.AllReadable 1 2
  · rw [if_pos hread, if_pos hread, Except.bind]
    dsimp only
    rw [load16_entry hlo m, hpacket, hdata, D.data_one]
    by_cases hread4 : D.AllReadable 4 (firstSector D).toNat
    · rw [if_pos hread4, if_pos hread4, Except.bind]
      dsimp only
      rw [hbx]
      rfl
    · rw [if_neg hread4, if_neg hread4]
      rfl
  · rw [if_neg hread, if_neg hread, D.read_of_not_readable Nat.one_pos (hone.not.mp hread)]
    rfl

/-- init.bin is called exactly if the sector of the partition table and the first four of the
partition can be read. -/
theorem mbrStart_ok_iff :
    (∃ r, mbrStart bios (MbrState.boot m) = .ok r) ↔
      D.readable 2 = true ∧ D.AllReadable 4 (firstSector D).toNat := by
  rw [mbrStart_eq hb hlo hhi]
  split
  case isFalse h => exact iff_of_false (fun ⟨_, hr⟩ => nomatch hr) fun hr => h hr.1
  case isTrue h =>
    split
    case isTrue h4 => exact iff_of_true ⟨_, rfl⟩ ⟨h, h4⟩
    case isFalse h4 => exact iff_of_false (fun ⟨_, hr⟩ => nomatch hr) fun hr => h4 hr.2

end

/-! ## What init.s finds -/

/-- Where boot.s stores. -/
def mbrCells (D : Disk) : Set Nat := {a | 0x8000 ≤ a ∧ a < 0x8000 + 4 * D.size}

theorem writesIn_mbrLoaded (m : Mem (BitVec 8)) : Mem.WritesIn (mbrCells D) m (mbrLoaded D m) := by
  have htable := Mem.writesIn_writeList m 0x8000 (D.sector 2)
  have hdata := Mem.writesIn_writeList (m.writeList 0x8000 (D.sector 2)) 0x8000
    (D.data 4 (firstSector D).toNat)
  rw [D.length_sector] at htable
  rw [D.length_data] at hdata
  refine (htable.mono ?_).trans hdata
  rintro a ⟨hlo, hhi⟩
  exact ⟨hlo, by omega⟩

/-- The first four sectors of the partition lie at 0x8000. -/
theorem read_mbrLoaded (m : Mem (BitVec 8)) {k i : Nat} (hk : k < 4) (hi : i < D.size) :
    (mbrLoaded D m).read (0x8000 + (k * D.size + i)) = D.byte ((firstSector D).toNat + k) i :=
  Mem.read_writeList _ 0x8000 (D.getElem?_data hk hi _)

/-- **The boot record at 0x8000** is the partition's, and `%bx` its sector. -/
theorem bootVolume_mbrLoaded (hlo : 0x22 ≤ D.size) (m : Mem (BitVec 8)) :
    bootVolume (firstSector D) (mbrLoaded D m) = volumeAt D (firstSector D).toNat := by
  have hbyte : ∀ i < D.size,
      (mbrLoaded D m).read (0x8000 + i) = D.byte (firstSector D).toNat i := by
    intro i hi
    have hread := read_mbrLoaded m (k := 0) (by decide) hi
    rwa [Nat.zero_mul, Nat.zero_add] at hread
  unfold bootVolume volumeAt Volume.decode Volume.word
  dsimp only
  rw [hbyte 0x0b (by omega), hbyte (0x0b + 1) (by omega), hbyte 0x0d (by omega),
    hbyte 0x0e (by omega), hbyte (0x0e + 1) (by omega), hbyte 0x10 (by omega),
    hbyte 0x11 (by omega), hbyte (0x11 + 1) (by omega), hbyte 0x16 (by omega),
    hbyte (0x16 + 1) (by omega)]

end

/-! ## Both stages -/

/-- A disk with sectors of 512 bytes and without errors, whose first partition starts at a
16-bit sector number and has a volume that init.s covers, with KERNEL.SYS in the clusters `cs`. -/
structure Bootable (D : Disk) (cs : List Nat) : Prop where
  size : D.size = 512
  readable : ∀ n, D.readable n = true
  lba : (firstLba D).toNat < 2 ^ 16
  volume : Loadable (volumeAt D (firstLba D).toNat)
  sector : (volumeAt D (firstLba D).toNat).bytesPerSector = 512
  file : KernelFile (volumeAt D (firstLba D).toNat) D cs

namespace Bootable

variable {D : Disk} {cs : List Nat} (h : Bootable D cs)

include h

theorem toNat_firstSector : (firstSector D).toNat = (firstLba D).toNat := by
  rw [Boot.toNat_firstSector]
  exact Nat.mod_eq_of_lt h.lba

/-- The sectors of init.bin stay in place while the kernel is loaded. -/
theorem read_placed {m m' : Mem (BitVec 8)}
    (hplaced : Placed (volumeAt D (firstLba D).toNat) D 0x20000 cs (mbrLoaded D m) m') {k i : Nat}
    (hk : k < 4) (hi : i < 512) :
    m'.read (0x8000 + (512 * k + i)) = D.byte ((firstLba D).toNat + k) i := by
  have hsize := h.size
  have hread := read_mbrLoaded (D := D) m hk (i := i) (by omega)
  rw [hsize, Nat.mul_comm, h.toNat_firstSector] at hread
  rw [hplaced.writes.read _ ?_, hread]
  rintro (⟨hlo, -⟩ | ⟨hlo, -⟩)
  · omega
  · omega

end Bootable

/-- **From the disk to the loaded kernel.** boot.s calls init.bin with the first four sectors of
the first partition at 0x8000, and init.bin loads the clusters of KERNEL.SYS, itself still in
place. -/
theorem disk_to_kernel {D : Disk} {bios : Bios} (hb : Serves D bios) {cs : List Nat}
    (h : Bootable D cs) (m : Mem (BitVec 8)) :
    ∃ s t, mbrStart bios (MbrState.boot m) = .ok (firstSector D, s) ∧
      Returns (fun n => initStart bios n (firstSector D) (InitState.boot s.mem)) (.ok t) ∧
      Placed (volumeAt D (firstLba D).toNat) D 0x20000 cs s.mem t.mem ∧
      Mem.WritesIn (mbrCells D) m s.mem ∧
      ∀ k < 4, ∀ i < 512,
        t.mem.read (0x8000 + (512 * k + i)) = D.byte ((firstLba D).toNat + k) i := by
  have hsize := h.size
  have hfour : D.AllReadable 4 (firstSector D).toNat := fun i _ => h.readable _
  have hstart := mbrStart_eq hb (by omega) (by omega) m
  rw [if_pos (h.readable 2), if_pos hfour] at hstart
  have hvolume := bootVolume_mbrLoaded (D := D) (by omega) m
  rw [h.toNat_firstSector] at hvolume
  have hload := @initStart_placed D bios hb h.readable (firstSector D) (mbrLoaded D m)
  rw [hvolume] at hload
  obtain ⟨t, hret, hplaced⟩ := hload h.volume (hsize.trans h.sector.symm) h.file
  exact ⟨_, t, hstart, hret, hplaced, writesIn_mbrLoaded m,
    fun k hk i hi => h.read_placed hplaced hk hi⟩

/-- A disk with its first partition at sector 0x800, and KERNEL.SYS in clusters 3 and 2. -/
def partitionedDisk : Disk :=
  Disk.ofPrefixes 512 (fun n =>
    match n with
    | 2 => List.replicate 0x20 0x00 ++ [0x00, 0x08]
    | 0x800 => List.replicate 0x0c 0x00 ++ [0x02, 0x01, 0x04, 0x00, 0x01, 0x10, 0x00, 0x00, 0x00,
        0x00, 0x01]
    | 0x804 => [0xf8, 0xff, 0xff, 0xff, 0xff, 0xff, 0x02, 0x00]
    | 0x805 => kernelFileName ++ [0x27] ++ List.replicate 14 0x00 ++ [0x03, 0x00]
    | 0x806 => [0x22]
    | 0x807 => [0x33]
    | _ => []) fun n => by split <;> decide

theorem bootable_partitionedDisk : Bootable partitionedDisk [3, 2] where
  size := rfl
  readable := fun _ => rfl
  lba := by decide
  volume := ⟨rfl, ⟨9, by decide⟩, ⟨0, rfl⟩, by decide, by decide⟩
  sector := rfl
  file :=
    { entry := ⟨0, ⟨by decide, rfl, fun j hj => absurd hj (Nat.not_lt_zero j)⟩, rfl⟩
      chain := ⟨by decide, by decide, rfl, by decide, by decide, by decide⟩
      fat := by decide
      size := by decide }

end ListaOS.Boot
