/-
  FAT16 volumes.

  A `Volume` is what the boot record says of one: where it starts and the sizes of its
  parts. On a disk it has a file allocation table of 16-bit links, clusters of data, and a
  root directory of 32-byte entries. `Chain` is a file's list of clusters, and `file` the
  bytes of them.
-/
import ListaOS.Lib.Disk

namespace ListaOS.Lib

structure Volume where
  /-- Sector of the boot record. -/
  start : Nat
  bytesPerSector : Nat
  sectorsPerCluster : Nat
  reserved : Nat
  fatCount : Nat
  sectorsPerFat : Nat
  rootEntries : Nat

namespace Volume

/-- A little-endian word at an offset. -/
def word (t : Nat → BitVec 8) (i : Nat) : BitVec 16 := t (i + 1) ++ t i

/-- The volume of the boot record `t` at sector `start`. -/
def decode (start : Nat) (t : Nat → BitVec 8) : Volume where
  start := start
  bytesPerSector := (word t 0x0b).toNat
  sectorsPerCluster := (t 0x0d).toNat
  reserved := (word t 0x0e).toNat
  fatCount := (t 0x10).toNat
  sectorsPerFat := (word t 0x16).toNat
  rootEntries := (word t 0x11).toNat

variable (V : Volume)

def fatStart : Nat := V.start + V.reserved

def rootStart : Nat := V.fatStart + V.fatCount * V.sectorsPerFat

/-- Sectors of the root directory, the last one not always full. -/
def rootSectors : Nat := (32 * V.rootEntries + (V.bytesPerSector - 1)) / V.bytesPerSector

def dataStart : Nat := V.rootStart + V.rootSectors

def bytesPerCluster : Nat := V.sectorsPerCluster * V.bytesPerSector

/-- The first sector of a cluster; clusters are numbered from 2. -/
def clusterStart (c : Nat) : Nat := V.dataStart + V.sectorsPerCluster * (c - 2)

/-- Sector of the table that holds the link of `c`. -/
def fatSector (c : Nat) : Nat := V.fatStart + 2 * c / V.bytesPerSector

variable (D : Disk)

/-- The link of a cluster. -/
def link (c : Nat) : BitVec 16 :=
  word (D.byte (V.fatSector c)) (2 * c % V.bytesPerSector)

def cluster (c : Nat) : List (BitVec 8) := D.data V.sectorsPerCluster (V.clusterStart c)

/-- A well-formed chain: data clusters, each linked to the next, the last one to an end mark. -/
def Chain : List Nat → Prop
  | [] => False
  | [c] => 2 ≤ c ∧ c < 0xfff0 ∧ 0xfff8 ≤ (V.link D c).toNat
  | c :: d :: cs => 2 ≤ c ∧ c < 0xfff0 ∧ (V.link D c).toNat = d ∧ Chain (d :: cs)

/-- The clusters of a file, in order. -/
def file (cs : List Nat) : List (BitVec 8) := cs.flatMap (V.cluster D)

/-! ## Root directory -/

/-- Byte `i` of root directory entry `k`. -/
def entryByte (k i : Nat) : BitVec 8 :=
  D.byte (V.rootStart + 32 * k / V.bytesPerSector) (32 * k % V.bytesPerSector + i)

/-- The name of an entry, blank padded. -/
def entryName (k : Nat) : List (BitVec 8) := (List.range 11).map (V.entryByte D k)

def entryCluster (k : Nat) : BitVec 16 := word (V.entryByte D k) 0x1a

/-- Entry `k` is the first one of that name. -/
def Finds (name : List (BitVec 8)) (k : Nat) : Prop :=
  k < V.rootEntries ∧ V.entryName D k = name ∧ ∀ j < k, V.entryName D j ≠ name

/-! ## Facts -/

variable {V D}

theorem Chain.head {c : Nat} {cs : List Nat} (h : V.Chain D (c :: cs)) : 2 ≤ c ∧ c < 0xfff0 := by
  cases cs with
  | nil => exact ⟨h.1, h.2.1⟩
  | cons d cs => exact ⟨h.1, h.2.1⟩

theorem length_cluster (hD : D.size = V.bytesPerSector) (c : Nat) :
    (V.cluster D c).length = V.bytesPerCluster := by
  rw [cluster, D.length_data, hD]
  rfl

theorem length_file (hD : D.size = V.bytesPerSector) (cs : List Nat) :
    (V.file D cs).length = cs.length * V.bytesPerCluster := by
  induction cs with
  | nil => rw [List.length_nil, Nat.zero_mul]; rfl
  | cons c cs ih =>
    have hcons : V.file D (c :: cs) = V.cluster D c ++ V.file D cs := rfl
    rw [hcons, List.length_append, length_cluster hD, ih, List.length_cons, Nat.succ_mul,
      Nat.add_comm]

end Volume

end ListaOS.Lib
