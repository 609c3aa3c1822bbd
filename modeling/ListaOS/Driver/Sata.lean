/-
  The SATA driver (libkernel/driver/sata.c) and main's loop over the PCI function list.

  A controller is what answers behind the frame that the pages at AHCI_MMIO_BASE map to:
  `hba` gives the registers of the one at a physical address. `mem` is memory at virtual
  addresses, for the memset; stores to the registers of a port are kept as `PortInit`, and
  the port states that are printed as `status`. The command lists and FIS areas of all
  controllers lie in the one window at AHCI_CMD_FIS_BASE, which every call of
  sata_driver_init clears. `Separate` is what initialising several controllers needs.
-/
import ListaOS.Lib.Run
import ListaOS.Mm.Basic
import ListaOS.Pci.Basic
import Mathlib.Data.Set.Lattice
import Mathlib.Tactic.IntervalCases
import Mathlib.Order.CompletePartialOrder

namespace ListaOS.Driver

open Lib Pci

def ahciMmioBase : BitVec 32 := 0xc00a0000

def ahciCmdFisBase : BitVec 32 := 0xc00a4000

/-- Present, writable, write-through and not cached. -/
def mmioFlags : BitVec 8 := 0x1 ||| 0x0 ||| 0x2 ||| 0x10 ||| 0x8

/-- The registers of an `HBA_MEM` that the driver reads. -/
structure HbaMem where
  ghc : BitVec 32
  pi : BitVec 32
  ssts : Nat → BitVec 32

/-- The stores to `hba_mem->ports[port]`, of the controller at `hba`. -/
structure PortInit where
  hba : BitVec 32
  port : Nat
  clb : BitVec 32
  clbu : BitVec 32
  fb : BitVec 32
  fbu : BitVec 32

structure SataState where
  mm : Mm.MmState
  mem : Mem (BitVec 8)
  /-- Stores to `hba_mem->ghc`. -/
  ghc : List (BitVec 32 × BitVec 32)
  ports : List PortInit
  /-- Ports printed, and whether as "Active". -/
  status : List (Nat × Bool)

/-- Before the loop. -/
def SataState.start (mm : Mm.MmState) (mem : Mem (BitVec 8)) : SataState := ⟨mm, mem, [], [], []⟩

/-- The first loop: four pages of registers at AHCI_MMIO_BASE. -/
def mapMmio (mm : Mm.MmState) (ahciBase : BitVec 32) : Mm.MmState :=
  (List.range 4).foldl
    (fun mm i =>
      Mm.kernelPageMmap mm (ahciBase / 0x1000 + BitVec.ofNat 32 i)
        (ahciMmioBase / 0x1000 + BitVec.ofNat 32 i) mmioFlags)
    mm

/-- The frame behind AHCI_MMIO_BASE. -/
def mmioFrame (mm : Mm.MmState) : BitVec 32 := mm.pageTable.read 0xc00a0 &&& 0xfffff000

/-- The body of the loop over ports. -/
def initPort (base : BitVec 32) (hbaMem : HbaMem) (s : SataState) (i : Nat) : SataState :=
  if hbaMem.pi &&& 1#32 <<< i ≠ 0 then
    let ssts := hbaMem.ssts i
    let activeDevice : Bool := ssts &&& 0xf = 0x3 ∧ ssts >>> 8 &&& 0xf = 0x1
    { s with
      ports := s.ports ++
        [{ hba := base
           port := i
           clb := ahciCmdFisBase + 0x2000 * BitVec.ofNat 32 i
           clbu := 0
           fb := ahciCmdFisBase + 0x2000 * BitVec.ofNat 32 i + 0x1000
           fbu := 0 }]
      status := s.status ++ [(i, activeDevice)] }
  else s

section

variable (hba : BitVec 32 → HbaMem)

def sataDriverInit (s : SataState) (ahciBase : BitVec 32) : SataState :=
  let mm := mapMmio s.mm ahciBase
  let mem := Mem.repStosb 0 (0x1000 * 64) ahciCmdFisBase s.mem
  let base := mmioFrame mm
  let hbaMem := hba base
  let s : SataState :=
    { s with
      mm := mm
      mem := mem
      ghc := s.ghc ++ [(base, hbaMem.ghc ||| 1#32 <<< 31)] }
  (List.range 32).foldl (initPort base hbaMem) s

/-- `class_code == 0x1 && subclass == 0x6` -/
def isAhci (f : PciFunc) : Bool :=
  let classCode : BitVec 8 := (f.classInfo >>> 24).setWidth 8
  let subclass : BitVec 8 := (f.classInfo >>> 16 &&& 0xff).setWidth 8
  classCode = 0x1 ∧ subclass = 0x6

/-- The loop of main over `pci_func_list`. -/
def mainLoop (C : ConfigSpace) (list : Mem PciFunc) : Nat → Nat → SataState → Option SataState
  | 0, _, _ => none
  | n + 1, i, s =>
      let f := list.read i
      if f.fun ≠ 0xff then
        if isAhci f then
          let ahciBar5 := pciReadConfig C f.bus f.dev f.fun 9
          mainLoop C list n (i + 1) (sataDriverInit hba s ahciBar5)
        else mainLoop C list n (i + 1) s
      else some s

end

/-! ## One controller -/

/-- The stores for port `i`. -/
def portInit (base : BitVec 32) (i : Nat) : PortInit where
  hba := base
  port := i
  clb := ahciCmdFisBase + 0x2000 * BitVec.ofNat 32 i
  clbu := 0
  fb := ahciCmdFisBase + 0x2000 * BitVec.ofNat 32 i + 0x1000
  fbu := 0

/-- The frame that BAR 5 gives. The code drops the offset in the page: it is meant for a
page-aligned BAR 5. -/
def frame (ahciBase : BitVec 32) : BitVec 32 := ahciBase &&& 0xfffff000

/-- The stores to the ports of the controller at `ahciBase`. -/
def portInits (hba : BitVec 32 → HbaMem) (ahciBase : BitVec 32) : List PortInit :=
  ((List.range 32).filter fun i => (hba (frame ahciBase)).pi &&& 1#32 <<< i ≠ 0).map
    (portInit (frame ahciBase))

/-- The page table entry of page `i` of the registers. -/
def mmioPte (ahciBase i : BitVec 32) : BitVec 32 :=
  (ahciBase / 0x1000 + i) <<< 12 ||| mmioFlags.setWidth 32

theorem read_mapMmio (mm : Mm.MmState) (ahciBase : BitVec 32) :
    (mapMmio mm ahciBase).pageTable.read 0xc00a0 = mmioPte ahciBase 0 := by
  have hpages : (mapMmio mm ahciBase).pageTable =
      (((mm.pageTable.write 0xc00a0 (mmioPte ahciBase 0)).write 0xc00a1
        (mmioPte ahciBase 1)).write 0xc00a2 (mmioPte ahciBase 2)).write 0xc00a3
        (mmioPte ahciBase 3) := rfl
  rw [hpages, Mem.read_write_of_ne _ _ (by decide), Mem.read_write_of_ne _ _ (by decide),
    Mem.read_write_of_ne _ _ (by decide), Mem.read_write_self]

/-- The window shows the controller at BAR 5. -/
theorem mmioFrame_mapMmio (mm : Mm.MmState) (ahciBase : BitVec 32) :
    mmioFrame (mapMmio mm ahciBase) = frame ahciBase := by
  have hdiv : ahciBase / (0x1000 : BitVec 32) = ahciBase >>> 12 := by
    apply BitVec.eq_of_toNat_eq
    rw [BitVec.toNat_udiv, BitVec.toNat_ushiftRight, Nat.shiftRight_eq_div_pow]
    rfl
  unfold mmioFrame
  rw [read_mapMmio, mmioPte, hdiv, frame]
  ext i hi
  simp only [BitVec.getElem_and, BitVec.getElem_or, BitVec.getElem_shiftLeft, mmioFlags]
  interval_cases i <;> simp

theorem foldl_initPort (base : BitVec 32) (hbaMem : HbaMem) (l : List Nat) (s : SataState) :
    (l.foldl (initPort base hbaMem) s).ports =
        s.ports ++ (l.filter fun i => hbaMem.pi &&& 1#32 <<< i ≠ 0).map (portInit base) ∧
      (l.foldl (initPort base hbaMem) s).mem = s.mem := by
  induction l generalizing s with
  | nil => exact ⟨(List.append_nil _).symm, rfl⟩
  | cons i l ih =>
    obtain ⟨hports, hmem⟩ := ih (initPort base hbaMem s i)
    rw [List.foldl_cons, hports, hmem]
    unfold initPort
    split
    case isTrue h =>
      rw [List.filter_cons_of_pos (by simpa using h), List.map_cons]
      exact ⟨List.append_assoc s.ports [_] _, rfl⟩
    case isFalse h =>
      rw [List.filter_cons_of_neg (by simpa using h)]
      exact ⟨rfl, rfl⟩

section

variable (hba : BitVec 32 → HbaMem) (s : SataState) (ahciBase : BitVec 32)

theorem ports_sataDriverInit :
    (sataDriverInit hba s ahciBase).ports = s.ports ++ portInits hba ahciBase := by
  unfold sataDriverInit
  rw [(foldl_initPort _ _ _ _).1, mmioFrame_mapMmio]
  rfl

theorem mem_sataDriverInit :
    (sataDriverInit hba s ahciBase).mem = Mem.repStosb 0 (0x1000 * 64) ahciCmdFisBase s.mem := by
  unfold sataDriverInit
  rw [(foldl_initPort _ _ _ _).2]

end

/-! ## Memory of the controllers -/

namespace PortInit

/-- The command list: 1K. -/
def commandList (p : PortInit) : Set Nat :=
  {a | p.clbu.toNat * 2 ^ 32 + p.clb.toNat ≤ a ∧ a < p.clbu.toNat * 2 ^ 32 + p.clb.toNat + 0x400}

/-- The FIS area: 256 bytes. -/
def fis (p : PortInit) : Set Nat :=
  {a | p.fbu.toNat * 2 ^ 32 + p.fb.toNat ≤ a ∧ a < p.fbu.toNat * 2 ^ 32 + p.fb.toNat + 0x100}

def areas (p : PortInit) : List (Set Nat) := [p.commandList, p.fis]

end PortInit

/-- Initialising the controller leaves the memory of the ports initialised before alone. -/
def Keeps (hba : BitVec 32 → HbaMem) (s : SataState) (ahciBase : BitVec 32) : Prop :=
  ∀ p ∈ s.ports, ∀ a ∈ p.areas, Mem.WritesIn (aᶜ) s.mem (sataDriverInit hba s ahciBase).mem

/-- Initialising the controllers in order: no two areas overlap, and no call clears memory that
an earlier call gave to a port. -/
def Separate (hba : BitVec 32 → HbaMem) (s : SataState) (bars : List (BitVec 32)) : Prop :=
  Along (sataDriverInit hba) (Keeps hba) s bars ∧
    ((bars.foldl (sataDriverInit hba) s).ports.flatMap PortInit.areas).Pairwise Disjoint

/-- The page `k` of the window at AHCI_CMD_FIS_BASE. -/
def slot (k : Nat) : Set Nat := {a | 0xc00a4000 + 0x1000 * k ≤ a ∧ a < 0xc00a5000 + 0x1000 * k}

theorem mem_slot {k a : Nat} :
    a ∈ slot k ↔ 0xc00a4000 + 0x1000 * k ≤ a ∧ a < 0xc00a5000 + 0x1000 * k := Iff.rfl

theorem disjoint_slot {k l : Nat} (h : k ≠ l) : Disjoint (slot k) (slot l) := by
  rw [Set.disjoint_left]
  intro a hk hl
  obtain ⟨hk1, hk2⟩ := hk
  obtain ⟨hl1, hl2⟩ := hl
  omega

section

variable (base : BitVec 32) {i : Nat} (hi : i < 32)

include hi

theorem clb_portInit : (portInit base i).clb.toNat = 0xc00a4000 + 0x2000 * i := by
  simp only [portInit, ahciCmdFisBase, BitVec.toNat_add, BitVec.toNat_mul, BitVec.toNat_ofNat,
    BitVec.reduceToNat]
  omega

theorem fb_portInit : (portInit base i).fb.toNat = 0xc00a5000 + 0x2000 * i := by
  simp only [portInit, ahciCmdFisBase, BitVec.toNat_add, BitVec.toNat_mul, BitVec.toNat_ofNat,
    BitVec.reduceToNat]
  omega

theorem commandList_subset : (portInit base i).commandList ⊆ slot (2 * i) := by
  intro a ha
  have hclbu : (portInit base i).clbu.toNat = 0 := rfl
  obtain ⟨hlo, hhi⟩ := ha
  rw [clb_portInit base hi, hclbu] at hlo hhi
  rw [mem_slot]
  omega

theorem fis_subset : (portInit base i).fis ⊆ slot (2 * i + 1) := by
  intro a ha
  have hfbu : (portInit base i).fbu.toNat = 0 := rfl
  obtain ⟨hlo, hhi⟩ := ha
  rw [fb_portInit base hi, hfbu] at hlo hhi
  rw [mem_slot]
  omega

theorem areas_subset : ∀ a ∈ (portInit base i).areas, ∃ b < 2, a ⊆ slot (2 * i + b) := by
  intro a ha
  rcases List.mem_cons.mp ha with rfl | ha
  · exact ⟨0, by decide, commandList_subset base hi⟩
  · rw [List.mem_singleton.mp ha]
    exact ⟨1, by decide, fis_subset base hi⟩

end

/-- The areas of one controller do not overlap. -/
theorem pairwise_areas_portInits (hba : BitVec 32 → HbaMem) (ahciBase : BitVec 32) :
    ((portInits hba ahciBase).flatMap PortInit.areas).Pairwise Disjoint := by
  refine List.pairwise_flatMap.mpr ⟨fun p hp => ?_, ?_⟩
  · obtain ⟨i, hi, rfl⟩ := List.mem_map.mp hp
    have hi32 := List.mem_range.mp (List.mem_filter.mp hi).1
    refine List.pairwise_pair.mpr ?_
    exact (disjoint_slot (by omega)).mono (commandList_subset _ hi32) (fis_subset _ hi32)
  · unfold portInits
    rw [List.pairwise_map]
    refine (List.pairwise_lt_range.filter _).imp_of_mem fun {i j} hi hj hlt a ha b hb => ?_
    obtain ⟨k, hk, ha⟩ := areas_subset _ (List.mem_range.mp (List.mem_filter.mp hi).1) a ha
    obtain ⟨l, hl, hb⟩ := areas_subset _ (List.mem_range.mp (List.mem_filter.mp hj).1) b hb
    exact (disjoint_slot (by omega)).mono ha hb

/-- The memset of a later call stores to every area. -/
theorem not_keeps (hba : BitVec 32 → HbaMem) {s : SataState} (ahciBase bar : BitVec 32)
    {p : PortInit} (hp : p ∈ portInits hba bar) (hs : p ∈ s.ports) : ¬ Keeps hba s ahciBase := by
  intro hkeeps
  obtain ⟨i, hi, rfl⟩ := List.mem_map.mp hp
  have hi32 := List.mem_range.mp (List.mem_filter.mp hi).1
  have hclb := clb_portInit (frame bar) hi32
  have hin : (portInit (frame bar) i).clb.toNat ∈ (portInit (frame bar) i).commandList := by
    have hclbu : (portInit (frame bar) i).clbu.toNat = 0 := rfl
    rw [PortInit.commandList, hclbu]
    exact ⟨by omega, by omega⟩
  have hbase : ahciCmdFisBase.toNat = 0xc00a4000 := rfl
  obtain ⟨l, hl, hmem⟩ := Mem.mem_log_repStosb 0 (0x1000 * 64) ahciCmdFisBase s.mem
    (by rw [hbase]; decide) (a := (portInit (frame bar) i).clb.toNat) (by omega) (by omega)
  have hframe := hkeeps _ hs _ List.mem_cons_self
  rw [mem_sataDriverInit] at hframe
  exact hframe.mem_of_append hl hmem hin

theorem portInits_eq_nil_iff (hba : BitVec 32 → HbaMem) (ahciBase : BitVec 32) :
    portInits hba ahciBase = [] ↔ (hba (frame ahciBase)).pi = 0 := by
  unfold portInits
  rw [List.map_eq_nil_iff, List.filter_eq_nil_iff]
  constructor
  · intro h
    ext i hi
    have hbit := h i (List.mem_range.mpr hi)
    simp only [ne_eq, decide_not, Bool.not_eq_true', decide_eq_false_iff_not, not_not] at hbit
    have hat := congrArg (fun x => x.getLsbD i) hbit
    simpa [hi] using hat
  · intro h i _
    simp [h]

/-! ## Several controllers -/

section

variable (hba : BitVec 32 → HbaMem)

/-- After a port is initialised, no further controller may be. -/
theorem along_keeps_nil {s : SataState} {bar : BitVec 32} {p : PortInit}
    (hp : p ∈ portInits hba bar) (hs : p ∈ s.ports) {bars : List (BitVec 32)}
    (h : Along (sataDriverInit hba) (Keeps hba) s bars) : bars = [] := by
  cases bars with
  | nil => rfl
  | cons b bars => exact absurd h.1 (not_keeps hba b bar hp hs)

theorem pi_of_along {s : SataState} {bars : List (BitVec 32)}
    (h : Along (sataDriverInit hba) (Keeps hba) s bars) :
    ∀ bar ∈ bars.dropLast, (hba (frame bar)).pi = 0 := by
  induction bars generalizing s with
  | nil => exact fun bar hbar => absurd hbar List.not_mem_nil
  | cons b bars ih =>
    cases bars with
    | nil => exact fun bar hbar => absurd hbar List.not_mem_nil
    | cons c bars =>
      intro bar hbar
      rcases List.mem_cons.mp hbar with rfl | hbar
      · rw [← portInits_eq_nil_iff, List.eq_nil_iff_forall_not_mem]
        intro p hp
        have hports : p ∈ (sataDriverInit hba s bar).ports := by
          rw [ports_sataDriverInit]
          exact List.mem_append_right _ hp
        exact absurd (along_keeps_nil hba hp hports h.2) (List.cons_ne_nil c bars)
      · exact ih h.2 bar hbar

theorem separate_of_pi {s : SataState} (hs : s.ports = []) {bars : List (BitVec 32)}
    (h : ∀ bar ∈ bars.dropLast, (hba (frame bar)).pi = 0) : Separate hba s bars := by
  induction bars generalizing s with
  | nil =>
    refine ⟨trivial, ?_⟩
    rw [List.foldl_nil, hs]
    exact List.Pairwise.nil
  | cons b bars ih =>
    have hkeeps : Keeps hba s b := fun p hp => absurd hp (hs ▸ List.not_mem_nil)
    have hports := ports_sataDriverInit hba s b
    rw [hs, List.nil_append] at hports
    cases bars with
    | nil =>
      refine ⟨⟨hkeeps, trivial⟩, ?_⟩
      rw [List.foldl_cons, List.foldl_nil, hports]
      exact pairwise_areas_portInits hba b
    | cons c bars =>
      have hnone := (portInits_eq_nil_iff hba b).mpr (h b List.mem_cons_self)
      obtain ⟨halong, hdisj⟩ := ih (hports.trans hnone)
        fun bar hbar => h bar (List.mem_cons_of_mem b hbar)
      refine ⟨And.intro hkeeps halong, ?_⟩
      rw [List.foldl_cons]
      exact hdisj

/-- BAR 5 of the AHCI controllers of the list. -/
def ahciBars (C : ConfigSpace) (fs : List PciFunc) : List (BitVec 32) :=
  (fs.filter isAhci).map fun f => pciReadConfig C f.bus f.dev f.fun 9

/-- The loop initialises the controllers of the list it reads. -/
theorem mainLoop_returns (C : ConfigSpace) (list : Mem PciFunc) {fs : List PciFunc} {a : Nat}
    {n : Nat} (h : readList list n a = some fs) (s : SataState) :
    Returns (fun n => mainLoop hba C list n a s) ((ahciBars C fs).foldl (sataDriverInit hba) s) := by
  induction n generalizing a fs s with
  | zero => cases h
  | succ n ih =>
    rw [readList] at h
    split at h
    case isTrue hfun =>
      obtain ⟨fs', hfs, rfl⟩ := Option.map_eq_some_iff.mp h
      cases hahci : isAhci (list.read a) with
      | true =>
        unfold ahciBars
        rw [List.filter_cons_of_pos hahci, List.map_cons, List.foldl_cons]
        refine Returns.succ ((ih hfs _).congr fun n => ?_)
        rw [mainLoop]
        exact (if_pos hfun).trans (if_pos hahci)
      | false =>
        have hnot : ¬ isAhci (list.read a) = true := by rw [hahci]; decide
        unfold ahciBars
        rw [List.filter_cons_of_neg hnot]
        refine Returns.succ ((ih hfs s).congr fun n => ?_)
        rw [mainLoop]
        exact (if_pos hfun).trans (if_neg hnot)
    case isFalse hfun =>
      obtain rfl := Option.some.inj h
      refine Returns.succ ((Returns.pure s).congr fun n => ?_)
      rw [mainLoop]
      exact if_neg hfun

/-- **Several controllers.** main's loop initialises the AHCI controllers of the list it reads,
in order; the memory it gives to their ports is separate exactly if no controller but the last
one implements a port. -/
theorem ahci_separate_iff (C : ConfigSpace) (hba : BitVec 32 → HbaMem) (list : Mem PciFunc)
    (fs : List PciFunc) (hlist : Returns (fun n => readList list n 0) fs) (mm : Mm.MmState)
    (mem : Mem (BitVec 8)) :
    Returns (fun n => mainLoop hba C list n 0 (SataState.start mm mem))
        ((ahciBars C fs).foldl (sataDriverInit hba) (SataState.start mm mem)) ∧
      (Separate hba (SataState.start mm mem) (ahciBars C fs) ↔
        ∀ bar ∈ (ahciBars C fs).dropLast, (hba (frame bar)).pi = 0) := by
  obtain ⟨N, hN⟩ := hlist
  refine ⟨mainLoop_returns hba C list (hN N (Nat.le_refl N)) _, fun h => ?_, fun h => ?_⟩
  · exact pi_of_along hba h.1
  · exact separate_of_pi hba rfl h

end

/-- Two controllers, of which the first implements no port, and a host bridge. -/
theorem ahci_separate_iff_two_controllers :
    let C : ConfigSpace := fun _ dev _ reg =>
      if reg = 9 then if dev = 3 then 0xfebf1000 else 0xfebf2000 else 0
    let hba : BitVec 32 → HbaMem := fun base =>
      ⟨0, if base = 0xfebf1000 then 0 else 3, fun _ => 0x113⟩
    let fs : List PciFunc := [⟨0, 0, 0, 0x06000002⟩, ⟨0, 3, 0, 0x01060102⟩, ⟨0, 31, 2, 0x01060102⟩]
    let list := Mem.fresh fun i => fs.getD i ⟨0xff, 0xff, 0xff, 0xffffffff⟩
    let start := SataState.start (Mm.bootState (fun _ => 0) (Mem.fresh fun _ => 0))
      (Mem.fresh fun _ => 0)
    Returns (fun n => mainLoop hba C list n 0 start)
        ((ahciBars C fs).foldl (sataDriverInit hba) start) ∧
      ahciBars C fs = [0xfebf1000, 0xfebf2000] ∧ Separate hba start (ahciBars C fs) := by
  intro C hba fs list start
  have hlist : Returns (fun n => readList list n 0) fs := by
    refine ⟨4, fun n hn => ?_⟩
    obtain ⟨m, rfl⟩ : ∃ m, n = m + 4 := ⟨n - 4, by omega⟩
    rfl
  obtain ⟨hloop, hseparate⟩ := ahci_separate_iff C hba list fs hlist
    (Mm.bootState (fun _ => 0) (Mem.fresh fun _ => 0)) (Mem.fresh fun _ => 0)
  have hbars : ahciBars C fs = [0xfebf1000, 0xfebf2000] := rfl
  refine ⟨hloop, hbars, hseparate.mpr fun bar hbar => ?_⟩
  rw [hbars] at hbar
  rw [List.mem_singleton.mp hbar]
  rfl

/-- Controllers at 0xfebf1000 and 0xfebf2000, each with port 0: both get the same command list,
and the second call clears it. -/
theorem two_controllers_share :
    let C : ConfigSpace := fun _ dev _ _ => if dev = 3 then 0xfebf1000 else 0xfebf2000
    let hba : BitVec 32 → HbaMem := fun _ => ⟨0, 1, fun _ => 0x113⟩
    let fs : List PciFunc := [⟨0, 3, 0, 0x01060100⟩, ⟨0, 31, 2, 0x01060100⟩]
    let list := Mem.fresh fun i => fs.getD i ⟨0xff, 0xff, 0xff, 0xffffffff⟩
    let start := SataState.start (Mm.bootState (fun _ => 0) (Mem.fresh fun _ => 0))
      (Mem.fresh fun _ => 0)
    ∃ s, Returns (fun n => mainLoop hba C list n 0 start) s ∧
      s.ports.map (fun p => (p.hba, p.port, p.clb)) =
        [(0xfebf1000, 0, 0xc00a4000), (0xfebf2000, 0, 0xc00a4000)] ∧
      ¬ Separate hba start (ahciBars C fs) := by
  intro C hba fs list start
  have hbars : ahciBars C fs = [0xfebf1000, 0xfebf2000] := rfl
  have hread : readList list 3 0 = some fs := rfl
  refine ⟨_, mainLoop_returns hba C list hread start, ?_, fun h => ?_⟩
  · rw [hbars, List.foldl_cons, List.foldl_cons, List.foldl_nil, ports_sataDriverInit,
      ports_sataDriverInit]
    decide
  · have hpi := pi_of_along hba h.1 0xfebf1000 (by rw [hbars]; exact List.mem_cons_self)
    exact absurd hpi (by decide)

end ListaOS.Driver
