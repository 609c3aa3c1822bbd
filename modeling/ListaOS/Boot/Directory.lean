/-
  Which entry of the root directory find_file returns.

  find_file compares the 11 bytes of the name and looks at nothing else of an entry, so the
  first entry with the name is returned whatever its attributes are: a volume label, a
  directory and a part of a long name have names of 11 bytes as well. `findFile_finds_iff`:
  the entry is that of the file exactly if the first one with the name is a regular file.
-/
import ListaOS.Boot.FindFile
import Mathlib.Data.Nat.Find

namespace ListaOS.Boot

open Lib

section

variable (V : Volume) (D : Disk) (name : List (BitVec 8))

/-- Entries of all sectors of the root directory. -/
def dirEntries : Nat := V.rootSectors * entriesPerSector V

/-- A regular file: attribute bits 3 and 4 are clear. Volume labels have bit 3, directories
bit 4, and the parts of a long name the attributes 0x0f. -/
def Regular (K : Nat) : Prop := V.entryByte D K 0x0b &&& 0x18 = 0

instance (K : Nat) : Decidable (Regular V D K) := inferInstanceAs (Decidable (_ = _))

/-- The entry of a regular file with the name. -/
def IsFile (K : Nat) : Prop := V.entryName D K = name ∧ Regular V D K

/-- find_file returns the address of the first entry of a regular file with the name, its sector
in the buffer, and 0 exactly if there is none. -/
def FindsFile (bios : Bios) (s : InitState) : Prop :=
  ∃ ax s', Returns (fun n => findFile bios name n s) (.ok (ax, s')) ∧
    (∀ K < dirEntries V, IsFile V D name K → (∀ j < K, ¬ IsFile V D name j) →
      ax = entryAddr V K ∧ Holds D (V.rootStart + K / entriesPerSector V) s'.mem) ∧
    (ax = 0x0000 ↔ ∀ K < dirEntries V, ¬ IsFile V D name K)

/-- The first entry with the name, if there is one, is of a regular file. -/
def FirstIsRegular : Prop :=
  ∀ K < dirEntries V, V.entryName D K = name → (∀ j < K, V.entryName D j ≠ name) → Regular V D K

end

variable {V : Volume} {D : Disk} {name : List (BitVec 8)}

theorem firstEntry_eq_some {K : Nat} : firstEntry V D name 0 V.rootSectors = some K ↔
    K < dirEntries V ∧ V.entryName D K = name ∧ ∀ j < K, V.entryName D j ≠ name := by
  rw [firstEntry, Nat.zero_mul, List.find?_range'_eq_some, decide_eq_true_eq, List.mem_range'_1]
  simp only [Bool.not_eq_true', decide_eq_false_iff_not, dirEntries, Nat.zero_le, true_and,
    Nat.zero_add, forall_const]
  exact and_left_comm

theorem firstEntry_eq_none : firstEntry V D name 0 V.rootSectors = none ↔
    ∀ K < dirEntries V, V.entryName D K ≠ name := by
  rw [firstEntry, Nat.zero_mul, List.find?_range'_eq_none]
  simp only [Bool.not_eq_true', decide_eq_false_iff_not, dirEntries, Nat.zero_le, Nat.zero_add,
    forall_const]

/-- A predicate that holds somewhere below a bound holds first somewhere. -/
theorem exists_first {p : Nat → Prop} {n : Nat} (h : ¬ ∀ k < n, ¬ p k) :
    ∃ k < n, p k ∧ ∀ j < k, ¬ p j := by
  classical
  have hex : ∃ k, k < n ∧ p k := by
    by_contra hnone
    exact h fun k hk hp => hnone ⟨k, hk, hp⟩
  obtain ⟨hlt, hp⟩ := Nat.find_spec hex
  exact ⟨Nat.find hex, hlt, hp, fun j hj hpj => Nat.find_min hex hj ⟨Nat.lt_trans hj hlt, hpj⟩⟩

section

variable (hV : SectorSize V) (hD : D.size = V.bytesPerSector)

include hV

theorem entryAddr_inj {K L : Nat} (h : entryAddr V K = entryAddr V L) :
    K % entriesPerSector V = L % entriesPerSector V := by
  obtain ⟨hK, hlarge⟩ := entry_le hV K
  obtain ⟨hL, -⟩ := entry_le hV L
  have hnat := congrArg BitVec.toNat h
  rw [entryAddr, entryAddr, BitVec.toNat_ofNat, BitVec.toNat_ofNat] at hnat
  omega

include hD

/-- Two entries at one address of a buffer that holds the sectors of both are equal. -/
theorem entryByte_of_holds {K L : Nat} {m : Mem (BitVec 8)} (haddr : entryAddr V K = entryAddr V L)
    (hK : Holds D (V.rootStart + K / entriesPerSector V) m)
    (hL : Holds D (V.rootStart + L / entriesPerSector V) m) {b : Nat} (hb : b < 32) :
    V.entryByte D K b = V.entryByte D L b := by
  rw [← read_entry hV hD hK hb, ← read_entry hV hD hL hb, entryAddr_inj hV haddr]

end

section

variable {bios : Bios} {s s' : InitState} (hV : SectorSize V) (hD : D.size = V.bytesPerSector)
  (hret : Returns (fun n => findFile bios name n s)
    (.ok (((firstEntry V D name 0 V.rootSectors).map (entryAddr V)).getD 0x0000, s')))
  (hsearch : Searched V D (firstEntry V D name 0 V.rootSectors) s s')

include hV hret hsearch

theorem findsFile_of_first (h : FirstIsRegular V D name) : FindsFile V D name bios s := by
  cases hit : firstEntry V D name 0 V.rootSectors with
  | none =>
    have hnone := firstEntry_eq_none.mp hit
    rw [hit] at hret
    refine ⟨0x0000, s', hret, fun K hK hfile _ => absurd hfile.1 (hnone K hK), ?_⟩
    exact iff_of_true rfl fun K hK hfile => hnone K hK hfile.1
  | some K =>
    obtain ⟨hK, hname, hfirst⟩ := firstEntry_eq_some.mp hit
    have hfile : IsFile V D name K := ⟨hname, h K hK hname hfirst⟩
    rw [hit, Option.map_some, Option.getD_some] at hret
    refine ⟨_, s', hret, fun L hL hfileL hfirstL => ?_, ?_⟩
    · have hKL : K = L := by
        obtain hlt | heq | hlt := Nat.lt_trichotomy K L
        · exact absurd hfile (hfirstL K hlt)
        · exact heq
        · exact absurd hfileL.1 (hfirst L hlt)
      subst hKL
      exact ⟨rfl, hsearch.holds K hit⟩
    · exact iff_of_false (entryAddr_ne_zero hV K) fun hnone => hnone K hK hfile

include hD

theorem first_of_findsFile (h : FindsFile V D name bios s) : FirstIsRegular V D name := by
  obtain ⟨ax, u, hretu, hfinds, hzero⟩ := h
  intro K hK hname hfirst
  have hit := firstEntry_eq_some.mpr ⟨hK, hname, hfirst⟩
  rw [hit, Option.map_some, Option.getD_some] at hret
  obtain ⟨rfl, rfl⟩ := Prod.mk.inj (Except.ok.inj (hretu.unique hret))
  -- the address is that of a file, and that entry and `K` have the same bytes
  obtain ⟨L, hL, hfile, hfirstL⟩ := exists_first fun hnone =>
    entryAddr_ne_zero hV K (hzero.mpr hnone)
  obtain ⟨haddr, hholds⟩ := hfinds L hL hfile hfirstL
  rw [Regular, entryByte_of_holds hV hD haddr (hsearch.holds K hit) hholds (by decide)]
  exact hfile.2

end

/-- **find_file and attributes.** Over a root directory of any size, with 16-bit sector numbers
and a disk without errors, find_file finds the file of the wanted name exactly if the first
entry with that name, if any, is a regular file's. -/
theorem findFile_finds_iff (V : Volume) (D : Disk) (name : List (BitVec 8)) (bios : Bios)
    (s : InitState) (hV : RootDir V) (hD : D.size = V.bytesPerSector) (hb : Serves D bios)
    (hread : D.AllReadable V.rootSectors V.rootStart) (hname : name.length = 11)
    (hroot : s.rootDirStartSector.toNat = V.rootStart)
    (hsectors : s.rootEntrySectorCount.toNat = V.rootSectors)
    (hbps : s.bytesPerSector.toNat = V.bytesPerSector) (hp : s.packet.startSector = 0) :
    FindsFile V D name bios s ↔ FirstIsRegular V D name := by
  obtain ⟨s', hret, hsearch⟩ := findFile_returns hV hD hb hread hname hroot hsectors hbps hp
  exact ⟨first_of_findsFile hV.sector hD hret hsearch, findsFile_of_first hV.sector hret hsearch⟩

/-- A volume whose root directory is sector 5. -/
def rootVolume : Volume where
  start := 0
  bytesPerSector := 512
  sectorsPerCluster := 1
  reserved := 4
  fatCount := 1
  sectorsPerFat := 1
  rootEntries := 16

/-- Two entries named KERNEL.SYS: one with the attributes `attr`, and a regular file. -/
def rootDisk (attr : BitVec 8) : Disk :=
  Disk.ofPrefixes 512 (fun n =>
    match n with
    | 5 => kernelFileName ++ [attr] ++ List.replicate 20 0x00 ++ kernelFileName ++ [0x20]
    | _ => []) fun n => by
      split
      · exact Nat.le_of_ble_eq_true rfl
      · exact Nat.zero_le 512

/-- The variables for that root directory. -/
def rootState : InitState :=
  { InitState.boot (Mem.fresh fun _ => 0) with
    rootEntrySectorCount := 1
    rootDirStartSector := 5
    bytesPerSector := 512 }

theorem rootDir_rootVolume : RootDir rootVolume := ⟨⟨9, by decide⟩, by decide, by decide⟩

theorem findFile_finds_archive :
    FindsFile rootVolume (rootDisk 0x20) kernelFileName (int13 (rootDisk 0x20)) rootState ↔
      FirstIsRegular rootVolume (rootDisk 0x20) kernelFileName :=
  findFile_finds_iff rootVolume (rootDisk 0x20) kernelFileName (int13 (rootDisk 0x20)) rootState
    rootDir_rootVolume rfl (serves_int13 _) (fun _ _ => rfl) rfl rfl rfl rfl rfl

/-- A volume labelled "KERNEL  SYS": find_file returns the entry of the label. -/
theorem findFile_returns_label :
    ¬ FindsFile rootVolume (rootDisk 0x08) kernelFileName (int13 (rootDisk 0x08)) rootState := by
  intro h
  obtain ⟨s', hret, hsearch⟩ := findFile_returns (s := rootState)
    rootDir_rootVolume rfl (serves_int13 (rootDisk 0x08)) (fun _ _ => rfl)
    (show kernelFileName.length = 11 from rfl) rfl rfl rfl rfl
  have hfirst := first_of_findsFile rootDir_rootVolume.sector rfl hret hsearch h 0 (by decide)
    rfl fun j hj => absurd hj (Nat.not_lt_zero j)
  exact absurd hfirst (by decide)

end ListaOS.Boot
