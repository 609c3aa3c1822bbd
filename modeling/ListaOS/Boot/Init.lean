/-
  The second stage of the boot loader (bootloader/BIOS/init.s): geometry of the FAT16
  volume, find_file and load_file.

  The variables of .data are fields beside the memory: they lie in the sectors loaded at
  0x8000, where no disk read of this code stores while the load address is below 1M.
  Registers are arguments. `bios` is interrupt 13h, function 42h: memory and `%ah`
  afterwards. `Exit` are the ends other than a return: the two error messages, and a divide
  error of `divw`.
-/
import ListaOS.Lib.Disk
import ListaOS.Lib.Fuel

namespace ListaOS.Boot

open Lib

/-- `info_packet`; the upper half of the sector number stays 0. -/
structure InfoPacket where
  sectorCount : BitVec 16
  off : BitVec 16
  seg : BitVec 16
  startSector : BitVec 32

structure InitState where
  mem : Mem (BitVec 8)
  packet : InfoPacket
  fat1StartSector : BitVec 16
  rootEntrySectorCount : BitVec 16
  rootDirStartSector : BitVec 32
  dataStartSector : BitVec 32
  sectorsPerCluster : BitVec 8
  bytesPerSector : BitVec 16
  bytesPerCluster : BitVec 32

/-- The .data section. -/
def InitState.boot (mem : Mem (BitVec 8)) : InitState where
  mem := mem
  packet := ⟨0x0001, 0x0000, 0x1000, 0x00000000⟩
  fat1StartSector := 0x0000
  rootEntrySectorCount := 0x0000
  rootDirStartSector := 0x00000000
  dataStartSector := 0x00000000
  sectorsPerCluster := 0x20
  bytesPerSector := 0x0200
  bytesPerCluster := 0x00004000

inductive Exit where
  | loadError | fileMissed | divideError
deriving DecidableEq

/-- What a step returns, or where and how it ends. -/
abbrev Outcome := Except (Exit × InitState)

/-- The BIOS call: memory afterwards and `%ah`. -/
abbrev Bios := InfoPacket → Mem (BitVec 8) → Mem (BitVec 8) × BitVec 8

/-- A 16-bit store into a 32-bit variable. -/
def movw (x : BitVec 32) (w : BitVec 16) : BitVec 32 := x.extractLsb' 16 16 ++ w

/-- `mulw`: `%dx:%ax`. -/
def mulw (a b : BitVec 16) : BitVec 32 := a.setWidth 32 * b.setWidth 32

/-- `divw`: quotient and remainder, or a divide error. -/
def divw (a : BitVec 32) (b : BitVec 16) : Option (BitVec 16 × BitVec 16) :=
  if b = 0 ∨ 2 ^ 16 ≤ a.toNat / b.toNat then none
  else some (BitVec.ofNat 16 (a.toNat / b.toNat), BitVec.ofNat 16 (a.toNat % b.toNat))

/-- The first part of `_start`; `bx` is the first sector of the volume. -/
def geometry (bx : BitVec 16) (s : InitState) : Outcome InitState :=
  let fat1StartSector := bx + 0x0004
  let sectorsPerCluster := s.mem.read 0x800d
  let fatSectors := mulw ((s.mem.read 0x8010).setWidth 16) (s.mem.load16 0x8016)
  let rootDir : BitVec 16 := fatSectors.setWidth 16 + fat1StartSector
  let bytesPerSector := s.mem.load16 0x800b
  match divw (mulw 0x20 (s.mem.load16 0x8011)) bytesPerSector with
  | none => .error (.divideError, s)
  | some (ax, dx) =>
      let ax := if dx = 0 then ax else ax + 1
      .ok { s with
        fat1StartSector := fat1StartSector
        rootEntrySectorCount := ax
        rootDirStartSector := movw s.rootDirStartSector rootDir
        dataStartSector := movw s.dataStartSector (ax + rootDir)
        sectorsPerCluster := sectorsPerCluster
        bytesPerSector := bytesPerSector
        bytesPerCluster := mulw (sectorsPerCluster.setWidth 16) bytesPerSector }

section

variable (bios : Bios)

def readSector (s : InitState) : Outcome InitState :=
  let r := bios s.packet s.mem
  let s := { s with mem := r.1 }
  if r.2 = 0x00 then .ok s else .error (.loadError, s)

/-! ## find_file -/

/-- `KernelFileName`. -/
def kernelFileName : List (BitVec 8) :=
  [0x4b, 0x45, 0x52, 0x4e, 0x45, 0x4c, 0x20, 0x20, 0x53, 0x59, 0x53]

/-- `repe cmpsb`: whether all bytes are equal, and `%di`. -/
def repeCmpsb (m : Mem (BitVec 8)) : List (BitVec 8) → BitVec 16 → Bool × BitVec 16
  | [], di => (true, di)
  | c :: cs, di =>
      if m.read di.toNat = c then repeCmpsb m cs (di + 1) else (false, di + 1)

/-- The loop over the entries of a loaded sector: `%ax` if one has the name. -/
def entryLoop (name : List (BitVec 8)) (m : Mem (BitVec 8)) :
    Nat → BitVec 16 → BitVec 16 → Option (Option (BitVec 16))
  | 0, _, _ => none
  | n + 1, di, dx =>
      let r := repeCmpsb m name di
      if r.1 then some (some (r.2 &&& 0xfff0))
      else
        let di := (r.2 &&& 0xfff0) + 0x0020
        let dx := dx - 0x0020
        if dx ≠ 0 then entryLoop name m n di dx else some none

/-- `find_start`; `left` is the local variable. -/
def sectorLoop (name : List (BitVec 8)) :
    Nat → BitVec 16 → InitState → Option (Outcome (BitVec 16 × InitState))
  | 0, _, _ => none
  | n + 1, left, s =>
      match readSector bios s with
      | .error e => some (.error e)
      | .ok s =>
          (entryLoop name s.mem n s.packet.off s.bytesPerSector).bind fun
            | some ax => some (.ok (ax, s))
            | none =>
                let left := left - 1
                if left = 0 then some (.ok (0x0000, s))
                else
                  let startSector := movw s.packet.startSector
                    (s.packet.startSector.setWidth 16 + 0x0001)
                  sectorLoop name n left { s with packet := { s.packet with startSector := startSector } }

/-- `name` are the 11 bytes that the argument points to. -/
def findFile (name : List (BitVec 8)) (n : Nat) (s : InitState) :
    Option (Outcome (BitVec 16 × InitState)) :=
  let startSector := movw s.packet.startSector (s.rootDirStartSector.setWidth 16)
  sectorLoop bios name n s.rootEntrySectorCount
    { s with packet := ⟨1, 0x9000, 0x0000, startSector⟩ }

/-! ## load_file -/

/-- The body of the loop: the next cluster and load address. -/
def loadCluster (c : BitVec 16) (addr : BitVec 32) (s : InitState) :
    Outcome (BitVec 16 × BitVec 32 × InitState) :=
  let dataSector := mulw (s.sectorsPerCluster.setWidth 16) (c - 2) + s.dataStartSector
  match divw (mulw 2 c) s.bytesPerSector with
  | none => .error (.divideError, s)
  | some (ax, dx) => do
      let fatSector := (ax + s.fat1StartSector).setWidth 32
      let s ← readSector bios { s with packet := ⟨0x0001, 0x9000, 0x0000, fatSector⟩ }
      let seg : BitVec 16 := ((addr &&& 0xffff0000) >>> 4).setWidth 16
      let s ← readSector bios
        { s with packet := ⟨s.sectorsPerCluster.setWidth 16, addr.setWidth 16, seg, dataSector⟩ }
      pure (s.mem.load16 (0x9000 + dx).toNat, addr + s.bytesPerCluster, s)

def loadLoop : Nat → BitVec 16 → BitVec 32 → InitState → Option (Outcome InitState)
  | 0, _, _, _ => none
  | n + 1, c, addr, s =>
      match loadCluster bios c addr s with
      | .error e => some (.error e)
      | .ok (c, addr, s) => if c < 0xfff8 then loadLoop n c addr s else some (.ok s)

/-- `load_file` of the directory entry at `bx`, to segment `dx` and offset `ax`. -/
def loadFile (n : Nat) (ax dx bx : BitVec 16) (s : InitState) : Option (Outcome InitState) :=
  let segment := dx.setWidth 32 <<< 4
  let addr := movw segment (segment.setWidth 16 + ax)
  loadLoop bios n (s.mem.load16 (bx + 0x1a).toNat) addr s

/-- `_start` up to the return of load_file. -/
def initStart (n : Nat) (bx : BitVec 16) (s : InitState) : Option (Outcome InitState) :=
  match geometry bx s with
  | .error e => some (.error e)
  | .ok s =>
      (findFile bios kernelFileName n s).bind fun
        | .error e => some (.error e)
        | .ok (ax, s) =>
            if ax = 0x0000 then some (.error (.fileMissed, s))
            else loadFile bios n 0x0000 0x2000 ax s

end

end ListaOS.Boot
