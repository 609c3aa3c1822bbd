/-
  pci_init in demand paged memory.

  The pages of the list at PCI_FUNC_LIST_BASE are not mapped at boot: the stores of pci_init raise
  the page faults that give them frames. `Machine.pciInit` is pci.c with its stores made one by
  one. It mirrors the array of Pci.Basic (`Mirrors`), as long as there are frames for the
  entries; and what the kernel then sees at `pci_get_func_list()` is what pci_init found
  (`ListInMemory`).
-/
import ListaOS.Machine.Memory
import ListaOS.Pci.Region

namespace ListaOS

open Lib Mm Paging Console Pci

/-! ## The code -/

/-- `&pci_func_list[i]`. -/
def funcAddr (i : Nat) : BitVec 32 := 0xc0020000 + BitVec.ofNat 32 (8 * i)

/-- The stores to the fields of entry `i`, `class_info` byte by byte. -/
def funcBytes (i : Nat) (f : PciFunc) : List (BitVec 32 × BitVec 8) :=
  [(funcAddr i, f.bus), (funcAddr i + 1, f.dev), (funcAddr i + 2, f.fun),
    (funcAddr i + 4, f.classInfo.extractLsb' 0 8), (funcAddr i + 5, f.classInfo.extractLsb' 8 8),
    (funcAddr i + 6, f.classInfo.extractLsb' 16 8), (funcAddr i + 7, f.classInfo.extractLsb' 24 8)]

namespace Machine

/-- The stores to `pci_func_list[count]`, and `count++`. -/
def pushFunc (s : Machine × Nat) (f : PciFunc) : Option (Machine × Nat) :=
  (run storeByte s.1 (funcBytes s.2 f)).map fun t => (t, s.2 + 1)

section

variable (C : ConfigSpace)

/-- The body of the loop over functions. -/
def addFunc (i j : BitVec 8) (s : Machine × Nat) (k : Nat) : Option (Machine × Nat) :=
  let k := BitVec.ofNat 8 k
  let reg0 := pciReadConfig C i j k 0
  if reg0 &&& 0xffff ≠ 0xffff then pushFunc s ⟨i, j, k, pciReadConfig C i j k 2⟩ else some s

/-- The body of the loop over devices. -/
def addDevice (i : BitVec 8) (s : Machine × Nat) (j : Nat) : Option (Machine × Nat) :=
  let j := BitVec.ofNat 8 j
  let vendor : BitVec 16 := (pciReadConfig C i j 0 0 &&& 0xffff).setWidth 16
  if vendor = 0xffff then some s
  else
    let headerType : BitVec 8 := (pciReadConfig C i j 0 3 >>> 16 &&& 0xff).setWidth 8
    let funcCount := if headerType &&& 0x80 ≠ 0 then 8 else 1
    run (addFunc C i j) s (List.range funcCount)

/-- The body of the loop over buses. -/
def addBus (s : Machine × Nat) (i : Nat) : Option (Machine × Nat) :=
  run (addDevice C (BitVec.ofNat 8 i)) s (List.range 32)

def pciInit (s : Machine) : Option Machine :=
  (run (addBus C) (s, 0) (List.range 256)).bind fun r =>
    run storeByte r.1 (funcBytes r.2 ⟨0xff, 0xff, 0xff, 0xffffffff⟩)

end

end Machine

/-! ## Entries in memory -/

theorem toNat_funcAddr {i k : Nat} (hi : i < listSize) (hk : k < 8) :
    (funcAddr i + BitVec.ofNat 32 k).toNat = 0xc0020000 + 8 * i + k := by
  unfold listSize at hi
  unfold funcAddr
  simp only [BitVec.toNat_add, BitVec.toNat_ofNat, BitVec.reduceToNat]
  omega

/-- An address of entry `i`. -/
def InEntry (i : Nat) (va : BitVec 32) : Prop :=
  0xc0020000 + 8 * i ≤ va.toNat ∧ va.toNat < 0xc0020000 + 8 * i + 8

theorem inEntry_funcBytes {i : Nat} (hi : i < listSize) (f : PciFunc) :
    ∀ w ∈ funcBytes i f, InEntry i w.1 := by
  have haddr : ∀ k < 8, InEntry i (funcAddr i + BitVec.ofNat 32 k) := by
    intro k hk
    have hnat := toNat_funcAddr hi hk
    exact ⟨by omega, by omega⟩
  have hzero : funcAddr i + BitVec.ofNat 32 0 = funcAddr i := BitVec.add_zero _
  intro w hw
  unfold funcBytes at hw
  simp only [List.mem_cons, List.not_mem_nil, or_false] at hw
  obtain rfl | rfl | rfl | rfl | rfl | rfl | rfl := hw
  · rw [← hzero]
    exact haddr 0 (by decide)
  · exact haddr 1 (by decide)
  · exact haddr 2 (by decide)
  · exact haddr 4 (by decide)
  · exact haddr 5 (by decide)
  · exact haddr 6 (by decide)
  · exact haddr 7 (by decide)

/-- The fields have different addresses. -/
theorem nodup_funcBytes {i : Nat} (hi : i < listSize) (f : PciFunc) :
    ((funcBytes i f).map Prod.fst).Nodup := by
  have hzero : funcAddr i + BitVec.ofNat 32 0 = funcAddr i := BitVec.add_zero _
  have hmap : (funcBytes i f).map Prod.fst =
      [0, 1, 2, 4, 5, 6, 7].map fun k => funcAddr i + BitVec.ofNat 32 k := by
    rw [List.map_cons, hzero]
    rfl
  rw [hmap]
  refine List.Nodup.map_on ?_ (by decide)
  intro k hk l hl heq
  have hlt : ∀ n ∈ [0, 1, 2, 4, 5, 6, 7], n < 8 := by decide
  have hnat := congrArg BitVec.toNat heq
  rw [toNat_funcAddr hi (hlt k hk), toNat_funcAddr hi (hlt l hl)] at hnat
  omega

/-- The pages of entry `i` are present, and its fields hold `f`. -/
def ShowsFunc (s : Machine) (i : Nat) (f : PciFunc) : Prop := ∀ w ∈ funcBytes i f, Shows s w.1 w.2

/-! ## pci_init -/

section

variable {F D : Set Nat} {T : Finset Nat} {b : Machine} {n : Nat} (hn : n < listSize)
  (hpages : ∀ i ≤ n, ∀ va, InEntry i va → pageNumber va ∈ D ∧ pageNumber va ∈ T)

include hn hpages

/-- The stores to an entry keep the entries before it. -/
theorem store_entry {s : Machine} {ms : MmState} (h : Ready F D T b s ms) {i : Nat} (hi : i ≤ n)
    (f : PciFunc) :
    ∃ t ms', run Machine.storeByte s (funcBytes i f) = some t ∧ Ready F D T b t ms' ∧
      ShowsFunc t i f ∧ ∀ j < i, ∀ g, ShowsFunc s j g → ShowsFunc t j g := by
  have hentry := inEntry_funcBytes (i := i) (by omega) f
  obtain ⟨t, ms', ht, hready, hstored, hkept⟩ := h.storeBytes
    (fun w hw => hpages i hi w.1 (hentry w hw)) (nodup_funcBytes (by omega) f)
  refine ⟨t, ms', ht, hready, hstored, fun j hj g hg w hw => ?_⟩
  have hbefore := inEntry_funcBytes (i := j) (by omega) g w hw
  refine hkept w.1 w.2 (hpages j (by omega) w.1 hbefore).1 (fun hin => ?_) (hg w hw)
  obtain ⟨w', hw', heq⟩ := List.mem_map.mp hin
  obtain ⟨hlo, -⟩ := hentry w' hw'
  obtain ⟨-, hhi⟩ := hbefore
  rw [heq] at hlo
  omega

omit hn hpages

/-- While there is room for the entries so far, the machine has the same count, and the entries
of the array in memory. -/
def Mirrors (F D : Set Nat) (T : Finset Nat) (b : Machine) (n : Nat) (s : Scan)
    (o : Option (Machine × Nat)) : Prop :=
  s.count ≤ n → ∃ t ms, o = some (t, s.count) ∧ Ready F D T b t ms ∧
    ∀ i < s.count, ShowsFunc t i (s.list.read i)

variable {s : Scan} {o : Option (Machine × Nat)} (h : Mirrors F D T b n s o)

include hn hpages h

theorem Mirrors.push (f : PciFunc) :
    Mirrors F D T b n (s.push f) (o.bind fun t => Machine.pushFunc t f) := by
  intro hle
  have hcount : (s.push f).count = s.count + 1 := rfl
  obtain ⟨t, ms, rfl, hready, hshown⟩ := h (by omega)
  obtain ⟨u, mu, hu, hready', hentry, hkept⟩ := store_entry hn hpages hready (i := s.count)
    (by omega) f
  refine ⟨u, mu, ?_, hready', fun i hi => ?_⟩
  · rw [Option.bind_some, Machine.pushFunc, hu]
    rfl
  · have hlist : (s.push f).list = s.list.write s.count f := rfl
    rw [hlist]
    by_cases hlast : i = s.count
    · subst hlast
      rw [Mem.read_write_self]
      exact hentry
    · rw [Mem.read_write_of_ne _ _ hlast]
      exact hkept i (by omega) _ (hshown i (by omega))

variable (C : ConfigSpace)

theorem Mirrors.addFunc (i j : BitVec 8) (k : Nat) :
    Mirrors F D T b n (Pci.addFunc C i j s k) (o.bind fun t => Machine.addFunc C i j t k) := by
  unfold Pci.addFunc Machine.addFunc
  dsimp only
  split
  · exact h.push hn hpages _
  · rwa [Option.bind_fun_some]

theorem Mirrors.addDevice (i : BitVec 8) (j : Nat) :
    Mirrors F D T b n (Pci.addDevice C i s j) (o.bind fun t => Machine.addDevice C i t j) := by
  unfold Pci.addDevice Machine.addDevice
  dsimp only
  split
  · rwa [Option.bind_fun_some]
  · exact run_refines (Mirrors F D T b n) (fun _ _ k hk => hk.addFunc hn hpages C _ _ k) h _

theorem Mirrors.addBus (i : Nat) :
    Mirrors F D T b n (Pci.addBus C s i) (o.bind fun t => Machine.addBus C t i) :=
  run_refines (Mirrors F D T b n) (fun _ _ j hj => hj.addDevice hn hpages C _ j) h _

end

/-- The entries in memory are what pci_init found, and behind them is the terminator. -/
structure ListInMemory (C : ConfigSpace) (s : Machine) : Prop where
  entries : ∀ i f, (found C)[i]? = some f → ShowsFunc s i f
  terminator : ShowsFunc s (found C).length ⟨0xff, 0xff, 0xff, 0xffffffff⟩

/-- What keeps the bytes of the entries keeps the list. -/
theorem ListInMemory.keep {C : ConfigSpace} (hn : (found C).length < listSize) {s t : Machine}
    (h : ListInMemory C s) (hkeep : ∀ i ≤ (found C).length, ∀ va x, InEntry i va →
      Shows s va x → Shows t va x) : ListInMemory C t where
  entries := by
    intro i f hi w hw
    have hlt : i < (found C).length := (List.getElem?_eq_some_iff.mp hi).1
    exact hkeep i (by omega) w.1 w.2 (inEntry_funcBytes (by omega) f w hw) (h.entries i f hi w hw)
  terminator := fun w hw =>
    hkeep _ (Nat.le_refl _) w.1 w.2 (inEntry_funcBytes hn _ w hw) (h.terminator w hw)

/-- pci_init leaves what it finds in memory, with the terminator behind it. -/
theorem pciInit_shows {C : ConfigSpace} {F D : Set Nat} {T : Finset Nat} {b : Machine}
    (hn : (found C).length < listSize)
    (hpages : ∀ i ≤ (found C).length, ∀ va, InEntry i va → pageNumber va ∈ D ∧ pageNumber va ∈ T)
    {s : Machine} {ms : MmState} (h : Ready F D T b s ms) :
    ∃ t ms', Machine.pciInit C s = some t ∧ Ready F D T b t ms' ∧ ListInMemory C t := by
  -- the array beside the machine; what it holds at first does not matter
  have hstart : Mirrors F D T b (found C).length ⟨Mem.fresh fun _ => ⟨0, 0, 0, 0⟩, 0⟩ (some (s, 0)) :=
    fun _ => ⟨s, ms, rfl, h, fun i hi => absurd hi (Nat.not_lt_zero i)⟩
  obtain ⟨hwrote, hcount⟩ := wrote_foldl_push (found C) ⟨Mem.fresh fun _ => ⟨0, 0, 0, 0⟩, 0⟩
  have hrun := run_refines (Mirrors F D T b (found C).length)
    (fun _ _ i hi => hi.addBus hn hpages C i) hstart (List.range 256)
  rw [foldl_addBus, Option.bind_some] at hrun
  rw [Nat.zero_add] at hcount
  obtain ⟨t, mt, ht, hready, hshown⟩ := hrun (Nat.le_of_eq hcount)
  obtain ⟨u, mu, hu, hready', hlast, hkept⟩ := store_entry hn hpages hready
    (Nat.le_refl (found C).length) ⟨0xff, 0xff, 0xff, 0xffffffff⟩
  rw [hcount] at ht hshown
  refine ⟨u, mu, ?_, hready', fun i f hi => ?_, hlast⟩
  · rw [Machine.pciInit, ht, Option.bind_some]
    exact hu
  · have hlt : i < (found C).length := (List.getElem?_eq_some_iff.mp hi).1
    have hentry := hshown i hlt
    have hread := hwrote.text i f hi
    rw [Nat.zero_add] at hread
    rw [hread] at hentry
    exact hkept i hlt f hentry

/-! ## After boot -/

/-- The pages of the first `n` entries and the terminator, 512 entries a page. -/
def listPages (n : Nat) : Finset Nat := (Finset.range (n / 512 + 1)).image (0xc0020 + ·)

theorem pageNumber_inEntry {i : Nat} {va : BitVec 32} (h : InEntry i va) :
    pageNumber va = 0xc0020 + i / 512 := by
  obtain ⟨hlo, hhi⟩ := h
  unfold pageNumber
  omega

/-- The pages of the list are left to demand paging. -/
theorem mem_demandPages_list (info : VbeModeInfo) {v : Nat} (hlo : 0xc0020 ≤ v)
    (hhi : v < 0xc00a0) : v ∈ demandPages info := by
  refine ⟨by omega, ?_⟩
  unfold mainWalk
  rw [if_neg (by omega), if_neg (by omega)]
  by_contra hsome
  obtain ⟨⟨f, flags⟩, hwalk⟩ := Option.ne_none_iff_exists'.mp hsome
  have hout : ∀ r ∈ bootRegions, r.targetStartPageIndex.toNat + r.pageCount.toNat ≤ 0xc0020 ∨
      0xc00a0 ≤ r.targetStartPageIndex.toNat := by decide
  obtain ⟨q, hq, hcov, -⟩ := bootWalk_eq_some hwalk
  have hbefore := hcov.1
  have hbehind := hcov.2
  have happart := hout q hq
  omega

theorem inEntry_pages (info : VbeModeInfo) {n i : Nat} (hn : n < listSize) (hi : i ≤ n)
    {va : BitVec 32} (hva : InEntry i va) :
    pageNumber va ∈ demandPages info ∧ pageNumber va ∈ listPages n := by
  unfold listSize at hn
  rw [pageNumber_inEntry hva]
  refine ⟨mem_demandPages_list info (by omega) (by omega), ?_⟩
  exact Finset.mem_image.mpr ⟨i / 512, Finset.mem_range.mpr (by omega), rfl⟩

theorem listPages_lt {n : Nat} (hn : n < listSize) : ∀ v ∈ listPages n, v < 2 ^ 20 := by
  intro v hv
  obtain ⟨i, hi, rfl⟩ := Finset.mem_image.mp hv
  have hle := Finset.mem_range.mp hi
  unfold listSize at hn
  omega

/-- A host bridge alone on bus 0. -/
def hostBridge : ConfigSpace := fun bus dev func reg =>
  if bus = 0 ∧ dev = 0 ∧ func = 0 then (if reg = 0 then 0x12378086 else 0x06000002) else 0xffffffff

theorem not_reported_hostBridge {bus : BitVec 8} {dev : BitVec 5} {func : BitVec 3}
    (h : ¬ (bus = 0 ∧ dev = 0 ∧ func = 0)) : ¬ Reported hostBridge bus dev func := by
  rintro ⟨-, -, hrep⟩
  have hval : hostBridge bus dev func 0 = 0xffffffff := if_neg h
  exact hrep (congrArg (BitVec.setWidth 16) hval)

theorem length_found_hostBridge : (found hostBridge).length ≤ 1 := by
  have hone : reportedSet hostBridge ⊆ {(0, 0, 0)} := by
    rintro ⟨bus, dev, func⟩ hrep
    by_contra hne
    refine not_reported_hostBridge (fun h => hne ?_) hrep
    obtain ⟨rfl, rfl, rfl⟩ := h
    rfl
  calc (found hostBridge).length ≤ (reportedSet hostBridge).ncard := length_found_le hostBridge
    _ ≤ Set.ncard {(0, 0, 0)} := Set.ncard_le_ncard hone (Set.finite_singleton _)
    _ = 1 := Set.ncard_singleton _

theorem card_listPages_hostBridge : (listPages (found hostBridge).length).card ≤ 1 := by
  have hlen := length_found_hostBridge
  refine Nat.le_trans Finset.card_image_le ?_
  rw [Finset.card_range]
  omega

end ListaOS
