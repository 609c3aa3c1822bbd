/-
  What a controller reaches by DMA (libkernel/driver/sata.c).

  A device takes clb and fb as physical addresses. `physAddr pageTable v` is where the page
  table sends the virtual address `v`; the pages of the window at AHCI_CMD_FIS_BASE have the
  frames that page_fault gave them, at the latest when memset touches them (`touchPage`).
  sata_driver_init stores the virtual addresses. `dma_right_iff`: what the controller is given
  is what memset cleared exactly if the two pages of every implemented port are mapped to the
  frames of their own numbers.
-/
import ListaOS.Driver.Sata
import ListaOS.Lib.PageWalk

namespace ListaOS.Driver

open Lib

/-- The physical address of `v`. -/
def physAddr (pageTable : Mem (BitVec 32)) (v : Nat) : Option Nat :=
  (Mmu.entry (pageTable.read (v / 0x1000))).map fun e => e.1 * 0x1000 + v % 0x1000

/-- The page `v` is mapped to the frame `v`. -/
def IdentityPage (pageTable : Mem (BitVec 32)) (v : Nat) : Prop :=
  (pageTable.read v).toNat / 0x1000 = v

/-- memset reaches page `k` of the window; page_fault maps it if it is not present. -/
def touchPage (mm : Mm.MmState) (k : Nat) : Mm.MmState :=
  if Mmu.entry (mm.pageTable.read (0xc00a4 + k)) = none then
    Mm.pageFault mm (ahciCmdFisBase + 0x1000 * BitVec.ofNat 32 k) 0x2
  else mm

def touchWindow (mm : Mm.MmState) : Mm.MmState := (List.range 64).foldl touchPage mm

/-- The pages of the window are present. -/
def WindowMapped (pageTable : Mem (BitVec 32)) : Prop :=
  ∀ k < 64, Mmu.entry (pageTable.read (0xc00a4 + k)) ≠ none

/-- A port's registers name the memory the kernel prepared for it. -/
structure DmaPrepared (pageTable : Mem (BitVec 32)) (mem : Mem (BitVec 8)) (p : PortInit) :
    Prop where
  clb : physAddr pageTable (0xc00a4000 + 0x2000 * p.port) =
    some (p.clbu.toNat * 2 ^ 32 + p.clb.toNat)
  fb : physAddr pageTable (0xc00a4000 + 0x2000 * p.port + 0x1000) =
    some (p.fbu.toNat * 2 ^ 32 + p.fb.toNat)
  zeroed : ∀ area ∈ p.areas, ∀ a ∈ area, ∃ v, 0xc00a4000 ≤ v ∧ v < 0xc00e4000 ∧
    physAddr pageTable v = some a ∧ mem.read v = 0

/-- sata_driver_init stores to the registers of each implemented port, gives it the memory the
kernel prepared, and no memory twice. -/
def DmaRight (hba : BitVec 32 → HbaMem) (mm : Mm.MmState) (mem : Mem (BitVec 8))
    (ahciBase : BitVec 32) : Prop :=
  let s := sataDriverInit hba (SataState.start mm mem) ahciBase
  s.ports.map PortInit.port =
      (List.range 32).filter (fun i => (hba (frame ahciBase)).pi &&& 1#32 <<< i ≠ 0) ∧
    (∀ p ∈ s.ports, DmaPrepared (touchWindow s.mm).pageTable s.mem p) ∧
    (s.ports.flatMap PortInit.areas).Pairwise Disjoint

/-! ## The page table afterwards -/

theorem mm_sataDriverInit (hba : BitVec 32 → HbaMem) (s : SataState) (ahciBase : BitVec 32) :
    (sataDriverInit hba s ahciBase).mm = mapMmio s.mm ahciBase := by
  unfold sataDriverInit
  refine foldl_invariant (fun t : SataState => t.mm = mapMmio s.mm ahciBase) ?_ rfl _
  intro t i ht
  unfold initPort
  split
  · exact ht
  · exact ht

/-- The registers' pages are not in the window. -/
theorem read_mapMmio_window (mm : Mm.MmState) (ahciBase : BitVec 32) {v : Nat} (hv : 0xc00a4 ≤ v) :
    (mapMmio mm ahciBase).pageTable.read v = mm.pageTable.read v := by
  have hpages : (mapMmio mm ahciBase).pageTable =
      (((mm.pageTable.write 0xc00a0 (mmioPte ahciBase 0)).write 0xc00a1
        (mmioPte ahciBase 1)).write 0xc00a2 (mmioPte ahciBase 2)).write 0xc00a3
        (mmioPte ahciBase 3) := rfl
  rw [hpages, Mem.read_write_of_ne _ _ (by omega), Mem.read_write_of_ne _ _ (by omega),
    Mem.read_write_of_ne _ _ (by omega), Mem.read_write_of_ne _ _ (by omega)]

/-- Pages that are present are touched without a fault. -/
theorem touchWindow_of_mapped {mm : Mm.MmState} (h : WindowMapped mm.pageTable) :
    touchWindow mm = mm := by
  unfold touchWindow
  have hall : ∀ l : List Nat, (∀ k ∈ l, k < 64) → l.foldl touchPage mm = mm := by
    intro l
    induction l with
    | nil => exact fun _ => rfl
    | cons k l ih =>
      intro hl
      rw [List.foldl_cons, touchPage, if_neg (h k (hl k List.mem_cons_self))]
      exact ih fun j hj => hl j (List.mem_cons_of_mem k hj)
  exact hall _ fun k hk => List.mem_range.mp hk

/-- The page table after sata_driver_init, in the window. -/
theorem read_touchWindow {mm : Mm.MmState} (h : WindowMapped mm.pageTable)
    (hba : BitVec 32 → HbaMem) (mem : Mem (BitVec 8)) (ahciBase : BitVec 32) {v : Nat}
    (hv : 0xc00a4 ≤ v) :
    (touchWindow (sataDriverInit hba (SataState.start mm mem) ahciBase).mm).pageTable.read v =
      mm.pageTable.read v := by
  have hread : ∀ {u : Nat}, 0xc00a4 ≤ u →
      (mapMmio mm ahciBase).pageTable.read u = mm.pageTable.read u :=
    fun hu => read_mapMmio_window mm ahciBase hu
  have hmapped : WindowMapped (mapMmio mm ahciBase).pageTable := by
    intro k hk
    rw [hread (Nat.le_add_right _ k)]
    exact h k hk
  have hmm : (sataDriverInit hba (SataState.start mm mem) ahciBase).mm = mapMmio mm ahciBase :=
    mm_sataDriverInit hba (SataState.start mm mem) ahciBase
  rw [hmm, touchWindow_of_mapped hmapped, hread hv]

/-! ## Addresses of a port -/

theorem physAddr_of_present {pageTable : Mem (BitVec 32)} {v : Nat}
    (h : Mmu.entry (pageTable.read (v / 0x1000)) ≠ none) :
    physAddr pageTable v =
      some ((pageTable.read (v / 0x1000)).toNat / 0x1000 * 0x1000 + v % 0x1000) := by
  unfold Mmu.entry at h
  unfold physAddr Mmu.entry
  split
  case isTrue hz =>
    rw [if_pos hz] at h
    exact absurd rfl h
  case isFalse => rfl

/-- A present page holds its own addresses exactly if it is an identity page. -/
theorem physAddr_self_iff {pageTable : Mem (BitVec 32)} {v : Nat}
    (h : Mmu.entry (pageTable.read (v / 0x1000)) ≠ none) :
    physAddr pageTable v = some v ↔ IdentityPage pageTable (v / 0x1000) := by
  rw [physAddr_of_present h, Option.some_inj, IdentityPage]
  omega

/-- What memset left in the window. -/
theorem window_zero (hba : BitVec 32 → HbaMem) (s : SataState) (ahciBase : BitVec 32) {v : Nat}
    (hlo : 0xc00a4000 ≤ v) (hhi : v < 0xc00e4000) : (sataDriverInit hba s ahciBase).mem.read v = 0 := by
  have hbase : ahciCmdFisBase.toNat = 0xc00a4000 := rfl
  rw [mem_sataDriverInit]
  exact Mem.read_repStosb 0 (0x1000 * 64) ahciCmdFisBase s.mem (by rw [hbase]; decide)
    (by omega) (by omega)

section

variable {pageTable : Mem (BitVec 32)} (h : WindowMapped pageTable)

include h

theorem window_present {v : Nat} (hlo : 0xc00a4000 ≤ v) (hhi : v < 0xc00e4000) :
    Mmu.entry (pageTable.read (v / 0x1000)) ≠ none := by
  have hpage := h (v / 0x1000 - 0xc00a4) (by omega)
  rwa [Nat.add_sub_cancel' (by omega)] at hpage

/-- An address of page `q` of the window is its own physical address. -/
theorem window_self_iff {v q : Nat} (hq : v / 0x1000 = q) (hlo : 0xc00a4000 ≤ v)
    (hhi : v < 0xc00e4000) : physAddr pageTable v = some v ↔ IdentityPage pageTable q := by
  rw [physAddr_self_iff (window_present h hlo hhi), hq]

/-- The two pages of port `i`. -/
theorem dmaPrepared_iff (base : BitVec 32) {i : Nat} (hi : i < 32) {mem : Mem (BitVec 8)}
    (hzero : ∀ v, 0xc00a4000 ≤ v → v < 0xc00e4000 → mem.read v = 0) :
    DmaPrepared pageTable mem (portInit base i) ↔
      IdentityPage pageTable (0xc00a4 + 2 * i) ∧ IdentityPage pageTable (0xc00a4 + 2 * i + 1) := by
  have hport : (portInit base i).port = i := rfl
  have hclb : (portInit base i).clbu.toNat * 2 ^ 32 + (portInit base i).clb.toNat =
      0xc00a4000 + 0x2000 * i := by
    rw [clb_portInit base hi, show (portInit base i).clbu.toNat = 0 from rfl, Nat.zero_mul,
      Nat.zero_add]
  have hfb : (portInit base i).fbu.toNat * 2 ^ 32 + (portInit base i).fb.toNat =
      0xc00a4000 + 0x2000 * i + 0x1000 := by
    rw [fb_portInit base hi, show (portInit base i).fbu.toNat = 0 from rfl, Nat.zero_mul]
    omega
  have hfirst := window_self_iff h (v := 0xc00a4000 + 0x2000 * i) (q := 0xc00a4 + 2 * i)
    (by omega) (by omega) (by omega)
  have hsecond := window_self_iff h (v := 0xc00a4000 + 0x2000 * i + 0x1000)
    (q := 0xc00a4 + 2 * i + 1) (by omega) (by omega) (by omega)
  constructor
  · intro hp
    have hpclb := hp.clb
    have hpfb := hp.fb
    rw [hport, hclb] at hpclb
    rw [hport, hfb] at hpfb
    exact ⟨hfirst.mp hpclb, hsecond.mp hpfb⟩
  · rintro ⟨hid, hid'⟩
    refine ⟨?_, ?_, fun area harea a ha => ?_⟩
    · rw [hport, hclb]
      exact hfirst.mpr hid
    · rw [hport, hfb]
      exact hsecond.mpr hid'
    · obtain ⟨b, hb, hsub⟩ := areas_subset base hi area harea
      obtain ⟨hlo, hhi⟩ := mem_slot.mp (hsub ha)
      have hstart : 0xc00a4000 ≤ a := by omega
      have hend : a < 0xc00e4000 := by omega
      refine ⟨a, hstart, hend, ?_, hzero a hstart hend⟩
      obtain rfl | rfl : b = 0 ∨ b = 1 := by omega
      · exact (window_self_iff h (by omega) hstart hend).mpr hid
      · exact (window_self_iff h (by omega) hstart hend).mpr hid'

end

section

variable (hba : BitVec 32 → HbaMem) {mm : Mm.MmState} (mem : Mem (BitVec 8))
  (ahciBase : BitVec 32)

theorem ports_start : (sataDriverInit hba (SataState.start mm mem) ahciBase).ports =
    portInits hba ahciBase := by
  rw [ports_sataDriverInit, show (SataState.start mm mem).ports = [] from rfl, List.nil_append]

theorem mem_portInits {i : Nat} (hi : i < 32) (h : (hba (frame ahciBase)).pi &&& 1#32 <<< i ≠ 0) :
    portInit (frame ahciBase) i ∈ portInits hba ahciBase := by
  refine List.mem_map.mpr ⟨i, List.mem_filter.mpr ⟨List.mem_range.mpr hi, ?_⟩, rfl⟩
  exact decide_eq_true h

/-- Port `i`, in terms of the page table before sata_driver_init. -/
theorem dmaPrepared_after (h : WindowMapped mm.pageTable) {i : Nat} (hi : i < 32) :
    DmaPrepared (touchWindow (sataDriverInit hba (SataState.start mm mem) ahciBase).mm).pageTable
        (sataDriverInit hba (SataState.start mm mem) ahciBase).mem (portInit (frame ahciBase) i) ↔
      IdentityPage mm.pageTable (0xc00a4 + 2 * i) ∧
        IdentityPage mm.pageTable (0xc00a4 + 2 * i + 1) := by
  have hread : ∀ {v : Nat}, 0xc00a4 ≤ v → _ := fun hv => read_touchWindow h hba mem ahciBase hv
  have hmapped : WindowMapped
      (touchWindow (sataDriverInit hba (SataState.start mm mem) ahciBase).mm).pageTable := by
    intro k hk
    rw [hread (Nat.le_add_right _ k)]
    exact h k hk
  rw [dmaPrepared_iff hmapped _ hi fun v hlo hhi => window_zero hba _ ahciBase hlo hhi]
  unfold IdentityPage
  rw [hread (by omega), hread (by omega)]

end

/-- **DMA.** With the pages of the window mapped to any frames, the controller is given the
memory the kernel prepared exactly if the two pages of each implemented port are mapped to the
frames of their own numbers. The ports are those of the controller at the page of BAR 5, which is
BAR 5 itself if it is page-aligned (`frame`). -/
theorem dma_right_iff (hba : BitVec 32 → HbaMem) (mm : Mm.MmState) (mem : Mem (BitVec 8))
    (ahciBase : BitVec 32) (h : WindowMapped mm.pageTable) :
    DmaRight hba mm mem ahciBase ↔
      ∀ i < 32, (hba (frame ahciBase)).pi &&& 1#32 <<< i ≠ 0 →
        IdentityPage mm.pageTable (0xc00a4 + 2 * i) ∧
          IdentityPage mm.pageTable (0xc00a4 + 2 * i + 1) := by
  unfold DmaRight
  dsimp only
  rw [ports_start]
  constructor
  · rintro ⟨-, hall, -⟩ i hi himpl
    exact (dmaPrepared_after hba mem ahciBase h hi).mp
      (hall _ (mem_portInits hba ahciBase hi himpl))
  · intro hid
    refine ⟨?_, fun p hp => ?_, pairwise_areas_portInits hba ahciBase⟩
    · unfold portInits
      rw [List.map_map]
      exact List.map_id _
    · obtain ⟨i, hi, rfl⟩ := List.mem_map.mp hp
      obtain ⟨hlt, himpl⟩ := List.mem_filter.mp hi
      have hi32 := List.mem_range.mp hlt
      exact (dmaPrepared_after hba mem ahciBase h hi32).mpr (hid i hi32 (of_decide_eq_true himpl))

/-- A window of identity pages, and a controller with port 0. -/
theorem dma_right_iff_identity :
    let hba : BitVec 32 → HbaMem := fun _ => ⟨0, 1, fun _ => 0x113⟩
    let pageTable : Mem (BitVec 32) := Mem.fresh fun v => BitVec.ofNat 32 (0x1000 * v + 7)
    DmaRight hba (Mm.bootState (fun _ => 0) pageTable) (Mem.fresh fun _ => 0xff) 0xfebf1000 ↔
      ∀ i < 32, (hba (frame 0xfebf1000)).pi &&& 1#32 <<< i ≠ 0 →
        IdentityPage pageTable (0xc00a4 + 2 * i) ∧ IdentityPage pageTable (0xc00a4 + 2 * i + 1) :=
  dma_right_iff _ _ _ _ (by unfold WindowMapped; decide +kernel)

/-- The window on first touch, with the frames from 8 MiB on free. -/
def touchedMm : Mm.MmState :=
  touchWindow ⟨Mem.fresh fun i => if i = 64 ∨ i = 65 then 0xffffffff else 0, 66, true,
    Mem.fresh fun _ => 0⟩

/-- Port 0 gets 0xc00a4000, and the frame behind that page is 0x800. -/
theorem dma_first_touch :
    let hba : BitVec 32 → HbaMem := fun _ => ⟨0, 1, fun _ => 0x113⟩
    WindowMapped touchedMm.pageTable ∧ physAddr touchedMm.pageTable 0xc00a4000 = some 0x800000 ∧
      ¬ DmaRight hba touchedMm (Mem.fresh fun _ => 0) 0xfebf1000 := by
  intro hba
  obtain ⟨hmapped, hframe⟩ :
      WindowMapped touchedMm.pageTable ∧ touchedMm.pageTable.read 0xc00a4 = 0x800007 := by
    unfold WindowMapped
    decide +kernel
  have hphys : physAddr touchedMm.pageTable 0xc00a4000 = some 0x800000 := by
    unfold physAddr
    rw [show 0xc00a4000 / 0x1000 = 0xc00a4 from rfl, hframe]
    rfl
  refine ⟨hmapped, hphys, fun hright => ?_⟩
  obtain ⟨-, hall, -⟩ := hright
  rw [ports_start] at hall
  have hport := hall _ (mem_portInits hba 0xfebf1000 (i := 0) (by decide) (by decide))
  have hid := ((dmaPrepared_after hba _ _ hmapped (by decide)).mp hport).1
  unfold IdentityPage at hid
  rw [Nat.mul_zero, Nat.add_zero, hframe] at hid
  exact absurd hid (by decide)

end ListaOS.Driver
