/-
  Demand paging: runs of page_fault on not-present pages after mm_init.

  `Served s f`: the fault `f`, taken in the state `s`, leaves a present PTE for its page
  whose frame was marked free in `s` and lies above the kernel's memory. A run is safe
  (`FaultsSafe`) when every fault is served, no two are given the same frame, and every
  page still maps its own frame at the end.

  page_fault does not look at the result of alloc_4k_phys. On NULL it maps frame 0, the
  kernel stack, present and writable (`faultStep_exhausted`). `faults_safe_iff`: a run is
  safe exactly when it has no more faults than there were free pages.
-/
import ListaOS.Mm.Alloc
import ListaOS.Mm.MemoryMap
import Mathlib.Data.Finset.Max

namespace ListaOS.Mm

open Lib

/-- The arguments of `page_fault`. -/
structure Fault where
  addr : BitVec 32
  err : BitVec 32

/-- The virtual page the fault is on. -/
def Fault.page (f : Fault) : Nat := (f.addr / 0x1000).toNat

def faultStep (s : MmState) (f : Fault) : MmState := pageFault s f.addr f.err

/-- The frame the fault's page maps right after the fault. -/
def givenFrame (s : MmState) (f : Fault) : Nat :=
  ((faultStep s f).pageTable.read f.page >>> 12).toNat

structure Served (s : MmState) (f : Fault) : Prop where
  present : ((faultStep s f).pageTable.read f.page).getLsbD 0 = true
  free : givenFrame s f ∈ freePages s
  usable : 0x800000 ≤ 4096 * givenFrame s f

/-- Every fault of the run is served in the state it is taken in. -/
def AllServed : MmState → List Fault → Prop
  | _, [] => True
  | s, f :: fs => Served s f ∧ AllServed (faultStep s f) fs

/-- The frames given to the faults of the run, in order. -/
def givenFrames : MmState → List Fault → List Nat
  | _, [] => []
  | s, f :: fs => givenFrame s f :: givenFrames (faultStep s f) fs

structure FaultsSafe (s : MmState) (fs : List Fault) : Prop where
  served : AllServed s fs
  distinct : (givenFrames s fs).Nodup
  kept : ∀ f g, (f, g) ∈ fs.zip (givenFrames s fs) →
    ((fs.foldl faultStep s).pageTable.read f.page >>> 12).toNat = g

/-! ## One fault -/

/-- The PTE page_fault stores for the frame `q`. -/
theorem fault_pte (q : BitVec 32) (hq : q.toNat < 2 ^ 20) :
    (q <<< 12 ||| faultFlags.setWidth 32).getLsbD 0 = true ∧
      ((q <<< 12 ||| faultFlags.setWidth 32) >>> 12).toNat = q.toNat := by
  have hflags : faultFlags.setWidth 32 = 7#32 := by decide
  rw [hflags]
  constructor
  · rw [BitVec.getLsbD_or, show (7#32).getLsbD 0 = true from rfl, Bool.or_true]
  · rw [BitVec.toNat_ushiftRight, BitVec.toNat_or, BitVec.toNat_shiftLeft, Nat.shiftRight_or_distrib,
      Nat.mod_eq_of_lt (by rw [Nat.shiftLeft_eq]; omega), Nat.shiftLeft_shiftRight,
      show (7#32).toNat >>> 12 = 0 from rfl, Nat.or_zero]

/-- With a free page left, the fault takes the least one. -/
theorem faultStep_of_least {s : MmState} {f : Fault} (hf : f.err &&& 0x1 = 0) {p : Nat}
    (hp : IsLeast (freePages s : Set Nat) p) (hs : ∀ q ∈ freePages s, 0x800 ≤ q ∧ q < 2 ^ 20) :
    Served s f ∧ givenFrame s f = p ∧ freePages (faultStep s f) = (freePages s).erase p := by
  have hb := hs p hp.1
  rcases alloc4kPhys_cases s with ⟨_, hempty⟩ | ⟨q, hq, ha⟩
  · rw [hempty] at hp
    exact absurd hp.1 (Finset.notMem_empty p)
  · obtain rfl := hp.unique hq
    have hdiv : (frameAddr p / 0x1000).toNat = p := by
      rw [BitVec.toNat_udiv, frameAddr_toNat_of_lt hb.2, show (0x1000 : BitVec 32).toNat = 4096 from rfl]
      omega
    have hstep : faultStep s f = kernelPageMmap (s.withBitmap (Bitmap.clearBit s.physMemBitmap p))
        (frameAddr p / 0x1000) (f.addr / 0x1000) faultFlags := by
      unfold faultStep pageFault
      rw [if_pos hf, ha]
    have hpte : (faultStep s f).pageTable.read f.page =
        (frameAddr p / 0x1000) <<< 12 ||| faultFlags.setWidth 32 := by
      rw [hstep]
      exact Mem.read_write_self _ _ _
    obtain ⟨h1, h2⟩ := fault_pte (frameAddr p / 0x1000) (by omega)
    have hgiven : givenFrame s f = p := by
      unfold givenFrame
      rw [hpte, h2, hdiv]
    refine ⟨⟨by rw [hpte]; exact h1, by rw [hgiven]; exact hp.1, by rw [hgiven]; omega⟩, hgiven, ?_⟩
    rw [hstep, ← freePages_clearBit]
    rfl

/-- With no free page left, frame 0 is mapped. -/
theorem faultStep_exhausted {s : MmState} {f : Fault} (hf : f.err &&& 0x1 = 0)
    (hs : freePages s = ∅) : (faultStep s f).pageTable.read f.page = 7#32 := by
  rcases alloc4kPhys_cases s with ⟨ha, _⟩ | ⟨p, hp, _⟩
  · unfold faultStep pageFault
    rw [if_pos hf, ha]
    exact Mem.read_write_self _ _ _
  · rw [hs] at hp
    exact absurd hp.1 (Finset.notMem_empty p)

theorem not_served_of_exhausted {s : MmState} {f : Fault} (hs : freePages s = ∅) : ¬ Served s f := by
  intro h
  have := h.free
  rw [hs] at this
  exact Finset.notMem_empty _ this

/-- A fault on another page leaves the PTE alone. -/
theorem faultStep_read_of_ne (s : MmState) (f : Fault) {v : Nat} (hv : v ≠ f.page) :
    (faultStep s f).pageTable.read v = s.pageTable.read v := by
  unfold faultStep pageFault
  split
  · have hpt : (alloc4kPhys s).1.pageTable = s.pageTable := by
      rcases alloc4kPhys_cases s with ⟨ha, _⟩ | ⟨p, _, ha⟩ <;> rw [ha]
      rfl
    rw [← hpt]
    exact Mem.read_write_of_ne _ _ hv
  · rfl

/-! ## Runs of faults -/

theorem foldl_faultStep_read (s : MmState) (fs : List Fault) {v : Nat}
    (hv : v ∉ fs.map Fault.page) :
    (fs.foldl faultStep s).pageTable.read v = s.pageTable.read v := by
  induction fs generalizing s with
  | nil => rfl
  | cons f fs ih =>
    simp only [List.map_cons, List.mem_cons, not_or] at hv
    rw [List.foldl_cons, ih _ hv.2, faultStep_read_of_ne s f hv.1]

/-- The frames given in a served run were all free at its start. -/
theorem givenFrames_mem {s : MmState} {fs : List Fault} (hf : ∀ f ∈ fs, f.err &&& 0x1 = 0)
    (hs : ∀ q ∈ freePages s, 0x800 ≤ q ∧ q < 2 ^ 20) (h : AllServed s fs) :
    (∀ g ∈ givenFrames s fs, g ∈ freePages s) ∧ (givenFrames s fs).Nodup := by
  induction fs generalizing s with
  | nil => exact ⟨by simp [givenFrames], List.nodup_nil⟩
  | cons f fs ih =>
    obtain ⟨hserved, hrest⟩ := h
    have hne : (freePages s).Nonempty := ⟨_, hserved.free⟩
    have hleast := (freePages s).isLeast_min' hne
    obtain ⟨_, hgiven, hfree⟩ := faultStep_of_least (hf f (by simp)) hleast hs
    have hs' : ∀ q ∈ freePages (faultStep s f), 0x800 ≤ q ∧ q < 2 ^ 20 := by
      intro q hq
      rw [hfree] at hq
      exact hs q (Finset.mem_of_mem_erase hq)
    obtain ⟨hmem, hnodup⟩ := ih (fun g hg => hf g (List.mem_cons_of_mem f hg)) hs' hrest
    rw [hfree] at hmem
    constructor
    · intro g hg
      rcases List.mem_cons.mp hg with rfl | hg
      · exact hserved.free
      · exact Finset.mem_of_mem_erase (hmem g hg)
    · refine List.nodup_cons.mpr ⟨fun hg => ?_, hnodup⟩
      have := Finset.ne_of_mem_erase (hmem _ hg)
      exact this hgiven

theorem allServed_iff {s : MmState} {fs : List Fault} (hf : ∀ f ∈ fs, f.err &&& 0x1 = 0)
    (hs : ∀ q ∈ freePages s, 0x800 ≤ q ∧ q < 2 ^ 20) :
    AllServed s fs ↔ fs.length ≤ (freePages s).card := by
  induction fs generalizing s with
  | nil => simp [AllServed]
  | cons f fs ih =>
    rcases Finset.eq_empty_or_nonempty (freePages s) with hempty | hne
    · rw [hempty]
      simp only [AllServed, not_served_of_exhausted hempty, false_and, List.length_cons,
        Finset.card_empty, false_iff]
      omega
    · have hleast := (freePages s).isLeast_min' hne
      obtain ⟨hserved, _, hfree⟩ := faultStep_of_least (hf f (by simp)) hleast hs
      have hs' : ∀ q ∈ freePages (faultStep s f), 0x800 ≤ q ∧ q < 2 ^ 20 := by
        intro q hq
        rw [hfree] at hq
        exact hs q (Finset.mem_of_mem_erase hq)
      have hcard := Finset.card_erase_add_one hleast.1
      rw [AllServed, ih (fun g hg => hf g (List.mem_cons_of_mem f hg)) hs', hfree,
        List.length_cons, ← hcard]
      simp only [hserved, true_and, Nat.add_le_add_iff_right]

/-- On distinct pages a later fault does not undo an earlier mapping. -/
theorem givenFrames_kept {s : MmState} {fs : List Fault} (hd : (fs.map Fault.page).Nodup) :
    ∀ f g, (f, g) ∈ fs.zip (givenFrames s fs) →
      ((fs.foldl faultStep s).pageTable.read f.page >>> 12).toNat = g := by
  induction fs generalizing s with
  | nil => simp [givenFrames]
  | cons f fs ih =>
    rw [List.map_cons, List.nodup_cons] at hd
    intro f' g' hmem
    rw [givenFrames, List.zip_cons_cons] at hmem
    rcases List.mem_cons.mp hmem with he | hmem
    · obtain ⟨rfl, rfl⟩ := Prod.mk.inj he
      rw [List.foldl_cons, foldl_faultStep_read _ _ hd.1]
      rfl
    · exact ih hd.2 f' g' hmem

/-- **Demand paging is safe exactly while free pages last.** For a map below 4 GiB and
    not-present faults on distinct pages, every fault is given its own free frame above
    the kernel's memory if and only if there are at most `get_free_page_num()` faults. -/
theorem faults_safe_iff (m : List BiosMeminfo) (hm : LowMap m) (ram : Nat → BitVec 32)
    (pt : Mem (BitVec 32)) (fs : List Fault) (hf : ∀ f ∈ fs, f.err &&& 0x1 = 0)
    (hd : (fs.map Fault.page).Nodup) :
    FaultsSafe (mmInit m (bootState ram pt)) fs ↔
      fs.length ≤ getFreePageNum (mmInit m (bootState ram pt)) := by
  have hs : ∀ q ∈ freePages (mmInit m (bootState ram pt)), 0x800 ≤ q ∧ q < 2 ^ 20 :=
    fun q hq => freePages_mmInit_bounds hm ram pt hq
  rw [getFreePageNum_eq_card, ← allServed_iff hf hs]
  constructor
  · exact fun h => h.served
  · exact fun h => ⟨h, (givenFrames_mem hf hs h).2, givenFrames_kept hd⟩

/-- One free page and one fault on it. -/
theorem faults_safe_one_page :
    FaultsSafe (mmInit [⟨0x800000, 0x1000, 1⟩] (bootState (fun _ => 0) (Mem.fresh fun _ => 0)))
      [⟨0x1000, 2⟩] :=
  (faults_safe_iff _ (by decide) _ _ _ (by decide) (by decide)).mpr (by decide +kernel)

/-- One free page and two faults: the second maps frame 0, present and writable. -/
theorem second_fault_maps_frame_zero :
    ((([⟨0x1000, 2⟩, ⟨0x2000, 2⟩] : List Fault).foldl faultStep
        (mmInit [⟨0x800000, 0x1000, 1⟩] (bootState (fun _ => 0) (Mem.fresh fun _ => 0)))
      ).pageTable.read 2 = 7#32) ∧
      ¬ FaultsSafe
        (mmInit [⟨0x800000, 0x1000, 1⟩] (bootState (fun _ => 0) (Mem.fresh fun _ => 0)))
        [⟨0x1000, 2⟩, ⟨0x2000, 2⟩] := by
  refine ⟨by decide +kernel, fun h => ?_⟩
  have hlen := (allServed_iff (by decide)
    (fun q hq => freePages_mmInit_bounds (by decide) _ _ hq)).mp h.served
  rw [← getFreePageNum_eq_card] at hlen
  exact absurd hlen (by decide +kernel)

end ListaOS.Mm
