/-
  load_file of init.s loads the kernel.

  `Placed` says that the clusters of a file lie in memory from an address on, and that only
  they and the sector buffer were stored to. A round places one cluster
  (`loadCluster_placed`), the loop a chain (`loadLoop_chain`), and with the geometry and
  find_file the whole of `_start` up to the call the kernel at 0x20000
  (`initStart_loads_kernel`).
-/
import ListaOS.Boot.LoadCluster

namespace ListaOS.Boot

open Lib

/-! ## Placed clusters -/

/-- The clusters `cs` lie in memory from `a` on. -/
structure Placed (V : Volume) (D : Disk) (a : Nat) (cs : List Nat) (m m' : Mem (BitVec 8)) :
    Prop where
  bytes : ∀ i b, (V.file D cs)[i]? = some b → m'.read (a + i) = b
  writes : Mem.WritesIn ({j | a ≤ j ∧ j < a + cs.length * V.bytesPerCluster} ∪
    buffer V.bytesPerSector) m m'

/-- Two runs of clusters, one behind the other and both above the buffer. -/
theorem Placed.append {V : Volume} {D : Disk} (hsmall : V.bytesPerSector ≤ 4096)
    (hD : D.size = V.bytesPerSector) {a : Nat} (ha : 0xa000 ≤ a) {cs ds : List Nat}
    {m m' m'' : Mem (BitVec 8)} (h : Placed V D a cs m m')
    (h' : Placed V D (a + cs.length * V.bytesPerCluster) ds m' m'') :
    Placed V D a (cs ++ ds) m m'' where
  bytes := by
    intro i b hi
    have hlen := Volume.length_file hD cs
    have happ : V.file D (cs ++ ds) = V.file D cs ++ V.file D ds := List.flatMap_append
    rw [happ] at hi
    by_cases hlt : i < (V.file D cs).length
    · rw [List.getElem?_append_left hlt] at hi
      rw [h'.writes.read (a + i) ?_]
      · exact h.bytes i b hi
      · rintro (⟨hlo, -⟩ | ⟨-, hhi⟩) <;> omega
    · rw [List.getElem?_append_right (by omega)] at hi
      have hread := h'.bytes _ b hi
      rwa [← hlen, Nat.add_assoc, Nat.add_sub_cancel' (by omega)] at hread
  writes := by
    rw [List.length_append, Nat.add_mul]
    refine (h.writes.mono ?_).trans (h'.writes.mono ?_)
    · apply Set.union_subset_union_left
      rintro j ⟨hlo, hhi⟩
      exact ⟨hlo, by omega⟩
    · apply Set.union_subset_union_left
      rintro j ⟨hlo, hhi⟩
      exact ⟨by omega, by omega⟩

/-! ## The registers on a mounted volume -/

section

variable {V : Volume} {s : InitState} (hs : Mounted V s) {c : BitVec 16}

include hs

theorem toNat_fatSectorOf (hc : V.fatSector c.toNat < 2 ^ 16) :
    (fatSectorOf s c).toNat = V.fatSector c.toNat := by
  rw [Volume.fatSector] at hc ⊢
  unfold fatSectorOf
  rw [BitVec.toNat_add, BitVec.toNat_ofNat, hs.fat, hs.bytesPerSector, Nat.add_comm,
    Nat.add_mod_mod]
  exact Nat.mod_eq_of_lt hc

/-- The multiplication and the addition stay below 2^32. -/
theorem toNat_dataSectorOf (hV : Loadable V) (hc : 2 ≤ c.toNat) :
    (dataSectorOf s c).toNat = V.clusterStart c.toNat := by
  have hclt := c.isLt
  have hfits := hV.fits
  have hcount : (s.sectorsPerCluster.setWidth 16).toNat = V.sectorsPerCluster :=
    (BitVec.toNat_setWidth_of_le (by decide)).trans hs.sectorsPerCluster
  have hsub : (c - 2).toNat = c.toNat - 2 := by
    have h2 : (2 : BitVec 16).toNat = 2 := rfl
    rw [BitVec.toNat_sub, h2]
    omega
  have hsmall : V.sectorsPerCluster < 256 := hs.sectorsPerCluster ▸ s.sectorsPerCluster.isLt
  have hmul : V.sectorsPerCluster * (c.toNat - 2) ≤ 256 * 2 ^ 16 :=
    Nat.mul_le_mul (by omega) (by omega)
  unfold dataSectorOf
  rw [BitVec.toNat_add, toNat_mulw, hcount, hsub, hs.data, Volume.clusterStart,
    Nat.add_comm]
  exact Nat.mod_eq_of_lt (by omega)

theorem nextOf_eq_link (D : Disk) (hc : V.fatSector c.toNat < 2 ^ 16) :
    nextOf D s c = V.link D c.toNat := by
  unfold nextOf
  rw [toNat_fatSectorOf hs hc, hs.bytesPerSector]
  rfl

end

/-! ## The loop along a chain -/

section

variable {V : Volume} {D : Disk} {bios : Bios} (hV : Loadable V) (hD : D.size = V.bytesPerSector)
  (hb : Serves D bios) (hread : ∀ n, D.readable n = true)

include hV hD hb hread

/-- A round places its cluster and returns its link. -/
theorem loadCluster_placed {s : InitState} (hs : Mounted V s) {c : BitVec 16} (hc : 2 ≤ c.toNat)
    (hfat : V.fatSector c.toNat < 2 ^ 16) {addr : BitVec 32}
    (hdvd : V.bytesPerCluster ∣ addr.toNat) (hlo : 0xa000 ≤ addr.toNat)
    (hhi : addr.toNat + V.bytesPerCluster ≤ 0x100000) :
    ∃ t, loadCluster bios c addr s = .ok (V.link D c.toNat, addr + s.bytesPerCluster, t) ∧
      Mounted V t ∧ t.bytesPerCluster = s.bytesPerCluster ∧
      Placed V D addr.toNat [c.toNat] s.mem t.mem := by
  have hcl := hs.clusters hV hD
  have hpos := hcl.bytes_pos
  rw [hs.bytesPerCluster] at hpos
  have haddr := dataPacket_addr s c addr (by omega)
  have hround := loadCluster_next hb hcl (by rwa [hs.bytesPerCluster]) hlo (by omega) (hread _)
    (c := c) fun i _ => hread _
  rw [nextOf_eq_link hs D hfat] at hround
  refine ⟨loaded D s c addr, hround, hs.update _ _, rfl, ?_, ?_⟩
  · intro i b hi
    have hcluster : V.file D [c.toNat] = V.cluster D c.toNat := List.append_nil _
    rw [hcluster, Volume.cluster] at hi
    unfold loaded
    rw [D.read_data fun i _ => hread _, haddr, hs.sectorsPerCluster,
      toNat_dataSectorOf hs hV hc]
    exact Mem.read_writeList _ _ hi
  · have hwrites := writesIn_loaded hcl c addr
    rw [haddr, hs.bytesPerCluster, hs.bytesPerSector] at hwrites
    rwa [List.length_singleton, Nat.one_mul]

/-- The loop places the clusters of a chain one behind the other. -/
theorem loadLoop_chain {ds : List Nat} {c : BitVec 16} (hchain : V.Chain D (c.toNat :: ds))
    (hfat : ∀ d ∈ c.toNat :: ds, V.fatSector d < 2 ^ 16) {s : InitState} (hs : Mounted V s)
    {addr : BitVec 32} (hdvd : V.bytesPerCluster ∣ addr.toNat) (hlo : 0xa000 ≤ addr.toNat)
    (hhi : addr.toNat + (c.toNat :: ds).length * V.bytesPerCluster ≤ 0x100000) :
    ∃ s', Returns (fun n => loadLoop bios n c addr s) (.ok s') ∧
      Placed V D addr.toNat (c.toNat :: ds) s.mem s'.mem := by
  induction ds generalizing c s addr with
  | nil =>
    rw [List.length_singleton, Nat.one_mul] at hhi
    obtain ⟨t, hround, -, -, hplaced⟩ := loadCluster_placed hV hD hb hread hs hchain.1
      (hfat _ (List.mem_singleton_self _)) hdvd hlo hhi
    have hend : ¬ V.link D c.toNat < 0xfff8 := Nat.not_lt.mpr hchain.2.2
    exact ⟨t, loadLoop_last hround hend, hplaced⟩
  | cons d ds ih =>
    obtain ⟨hc, -, rfl, hrest⟩ := hchain
    rw [List.length_cons, Nat.succ_mul] at hhi
    obtain ⟨t, hround, ht, hbpc, hplaced⟩ := loadCluster_placed hV hD hb hread hs hc
      (hfat _ List.mem_cons_self) hdvd hlo (by omega)
    have hnext : V.link D c.toNat < 0xfff8 := by
      have hlt := hrest.head.2
      rw [BitVec.lt_def]
      simp only [BitVec.reduceToNat]
      omega
    have hsum : (addr + s.bytesPerCluster).toNat = addr.toNat + V.bytesPerCluster := by
      rw [BitVec.toNat_add, hs.bytesPerCluster]
      exact Nat.mod_eq_of_lt (by omega)
    have hdvd' : V.bytesPerCluster ∣ (addr + s.bytesPerCluster).toNat := by
      rw [hsum]
      exact Nat.dvd_add hdvd (Nat.dvd_refl _)
    obtain ⟨s', hret, hplaced'⟩ := ih hrest (fun d hd => hfat d (List.mem_cons_of_mem _ hd)) ht
      hdvd' (by omega) (by rw [hsum]; omega)
    refine ⟨s', (loadLoop_next hround hnext).mpr hret, ?_⟩
    rw [hsum] at hplaced'
    refine Placed.append hV.sector_bounds.2.1 hD hlo hplaced ?_
    rwa [List.length_singleton, Nat.one_mul]

/-- load_file of the entry that find_file left in the buffer. -/
theorem loadFile_chain {K : Nat} {s s' : InitState} (hfound : Found V D K s s') {cs : List Nat}
    (hchain : V.Chain D cs) (hfirst : cs.head? = some (V.entryCluster D K).toNat)
    (hfat : ∀ c ∈ cs, V.fatSector c < 2 ^ 16) (hsize : cs.length * V.bytesPerCluster ≤ 0x60000) :
    ∃ t, Returns (fun n => loadFile bios n 0x0000 0x2000
        (BitVec.ofNat 16 (0x9000 + 32 * (K % entriesPerSector V))) s') (.ok t) ∧
      Placed V D 0x20000 cs s.mem t.mem := by
  obtain ⟨ds, rfl⟩ : ∃ ds, cs = (V.entryCluster D K).toNat :: ds := List.head?_eq_some_iff.mp hfirst
  have haddr : (0x00020000 : BitVec 32).toNat = 0x20000 := rfl
  have hdvd : V.bytesPerCluster ∣ (0x00020000 : BitVec 32).toNat := by
    have hcl := hfound.mounted.clusters hV hD
    have hseg := hcl.dvd_segment
    rw [hfound.mounted.bytesPerCluster] at hseg
    exact Nat.dvd_trans hseg (by decide)
  obtain ⟨t, hret, hplaced⟩ := loadLoop_chain hV hD hb hread hchain hfat hfound.mounted
    hdvd (by rw [haddr]; decide) (by rw [haddr]; omega)
  rw [haddr] at hplaced
  refine ⟨t, hret.congr fun n => ?_, hplaced.bytes,
    (hfound.writes.mono Set.subset_union_right).trans hplaced.writes⟩
  unfold loadFile
  rw [hfound.cluster hV hD]
  rfl

end

/-! ## _start -/

/-- The parts of `_start`, each of which goes on. -/
theorem initStart_returns {bios : Bios} {bx ax : BitVec 16} {s t u : InitState}
    {r : Outcome InitState} (hgeometry : geometry bx s = .ok t)
    (hfind : Returns (fun n => findFile bios kernelFileName n t) (.ok (ax, u))) (hax : ax ≠ 0x0000)
    (hload : Returns (fun n => loadFile bios n 0x0000 0x2000 ax u) r) :
    Returns (fun n => initStart bios n bx s) r := by
  obtain ⟨N, hN⟩ := hfind
  obtain ⟨M, hM⟩ := hload
  refine ⟨max N M, fun n hn => ?_⟩
  have hfound := hN n (by omega)
  have hloaded := hM n (by omega)
  dsimp only at hfound hloaded ⊢
  unfold initStart
  rw [hgeometry]
  dsimp only
  rw [hfound, Option.bind_some]
  dsimp only
  rw [if_neg hax, hloaded]

/-- The first root directory entry KERNEL.SYS starts the well-formed chain `cs`, of at most
0x60000 bytes and with its links in sectors of 16-bit numbers. -/
structure KernelFile (V : Volume) (D : Disk) (cs : List Nat) : Prop where
  entry : ∃ K, V.Finds D kernelFileName K ∧ cs.head? = some (V.entryCluster D K).toNat
  chain : V.Chain D cs
  fat : ∀ c ∈ cs, V.fatSector c < 2 ^ 16
  size : cs.length * V.bytesPerCluster ≤ 0x60000

section

variable {D : Disk} {bios : Bios} (hb : Serves D bios) (hread : ∀ n, D.readable n = true)
  {bx : BitVec 16} {m : Mem (BitVec 8)} (hV : Loadable (bootVolume bx m))
  (hD : D.size = (bootVolume bx m).bytesPerSector) {cs : List Nat}
  (hfile : KernelFile (bootVolume bx m) D cs)

include hb hread hV hD hfile

/-- The run of `_start`: geometry, find_file, load_file. -/
theorem initStart_placed :
    ∃ s, Returns (fun n => initStart bios n bx (InitState.boot m)) (.ok s) ∧
      Placed (bootVolume bx m) D 0x20000 cs m s.mem := by
  obtain ⟨⟨K, hK, hfirst⟩, hchain, hfat, hsize⟩ := hfile
  obtain ⟨s, hgeometry, hmounted, hmem, hpacket⟩ := geometry_spec hV
  obtain ⟨s', hfind, hfound⟩ := findFile_spec hV hD hb hread hK hmounted hpacket
  obtain ⟨t, hload, hplaced⟩ := loadFile_chain hV hD hb hread hfound hchain hfirst hfat hsize
  rw [hmem] at hplaced
  obtain ⟨hle, hlarge⟩ := entry_le hV.sector K
  have hentry : BitVec.ofNat 16 (0x9000 + 32 * (K % entriesPerSector (bootVolume bx m))) ≠ 0x0000 :=
    ofNat_ne_zero (by omega) (by omega)
  exact ⟨t, initStart_returns hgeometry hfind hentry hload, hplaced⟩

/-- **The loader loads the kernel.** On a volume that the 16-bit arithmetic covers, `_start`
returns from load_file with the clusters of KERNEL.SYS at 0x20000, and the disk reads stored
only there and into the sector buffer. -/
theorem initStart_loads_kernel :
    ∃ s, Returns (fun n => initStart bios n bx (InitState.boot m)) (.ok s) ∧
      (∀ i b, ((bootVolume bx m).file D cs)[i]? = some b → s.mem.read (0x20000 + i) = b) ∧
      Mem.WritesIn ({a | 0x20000 ≤ a ∧ a < 0x20000 + cs.length * (bootVolume bx m).bytesPerCluster} ∪
        buffer (bootVolume bx m).bytesPerSector) m s.mem := by
  obtain ⟨s, hret, hplaced⟩ := initStart_placed hb hread hV hD hfile
  exact ⟨s, hret, hplaced.bytes, hplaced.writes⟩

end

/-- A boot record at 0x8000: 512-byte sectors, one a cluster, one FAT of one sector, and one
sector of root directory. -/
def smallVolume : Mem (BitVec 8) :=
  Mem.fresh fun a =>
    match a with
    | 0x800c => 0x02
    | 0x800d => 0x01
    | 0x800e => 0x04
    | 0x8010 => 0x01
    | 0x8011 => 0x10
    | 0x8016 => 0x01
    | _ => 0x00

/-- KERNEL.SYS in clusters 3 and 2. -/
def smallDisk : Disk :=
  Disk.ofPrefixes 512 (fun n =>
    match n with
    | 4 => [0xf8, 0xff, 0xff, 0xff, 0xff, 0xff, 0x02, 0x00]
    | 5 => kernelFileName ++ [0x27] ++ List.replicate 14 0x00 ++ [0x03, 0x00]
    | 6 => [0x22]
    | 7 => [0x33]
    | _ => []) fun n => by split <;> decide

theorem loadable_smallVolume : Loadable (bootVolume 0 smallVolume) :=
  ⟨rfl, ⟨9, by decide⟩, ⟨0, rfl⟩, by decide, by decide⟩

theorem kernelFile_smallDisk : KernelFile (bootVolume 0 smallVolume) smallDisk [3, 2] where
  entry := ⟨0, ⟨by decide, rfl, fun j hj => absurd hj (Nat.not_lt_zero j)⟩, rfl⟩
  chain := ⟨by decide, by decide, rfl, by decide, by decide, by decide⟩
  fat := by decide
  size := by decide

theorem initStart_loads_kernel_two_clusters :
    ∃ s, Returns (fun n => initStart (int13 smallDisk) n 0 (InitState.boot smallVolume)) (.ok s) ∧
      (∀ i b, ((bootVolume 0 smallVolume).file smallDisk [3, 2])[i]? = some b →
        s.mem.read (0x20000 + i) = b) ∧
      Mem.WritesIn ({a | 0x20000 ≤ a ∧ a < 0x20000 + 2 * (bootVolume 0 smallVolume).bytesPerCluster} ∪
        buffer (bootVolume 0 smallVolume).bytesPerSector) smallVolume s.mem :=
  initStart_loads_kernel (serves_int13 smallDisk) (fun _ => rfl) loadable_smallVolume rfl
    kernelFile_smallDisk

end ListaOS.Boot
