/-
  The machine when main is entered, and the edits of display_init and idt_init.

  protect_mode_start leaves a machine that represents the arrays of Mm.Basic (`represents_start`)
  and sees the records of the probe (`seesMap_start`). The maps of display_init edit the array
  (`Represents.pageOps`), and the gates of idt_init lie outside of it (`Represents.idtInit`).
  `mainArrays` is what mm_init then makes of the arrays, and `mainWalk` the page table.
-/
import ListaOS.Machine.MemoryMap
import ListaOS.Paging.Layout
import ListaOS.Console.Display
import ListaOS.Interrupt.Idt

namespace ListaOS

open Lib Mm Paging Boot Interrupt

/-- What the memory of `s` holds where mm.c has its arrays. -/
def arraysOf (s : Mmu) : MmState :=
  bootState (fun i => s.mem.load32 (0x600000 + 4 * i))
    (Mem.fresh fun v => s.mem.load32 (0x200000 + 4 * v))

/-- The machine when main is entered. -/
def Machine.start (mmu : Mmu) : Machine := ⟨mmu, 0, false⟩

theorem represents_start (ram : Mem (BitVec 8)) :
    Represents (Machine.start (protectModeStart ram)) (arraysOf (protectModeStart ram)) where
  map := selfMap_protectModeStart ram
  cr3 := rfl
  table := fun _ _ => rfl
  window := maps_protectModeStart ram (r := ⟨0x600, 0x200, 0xc0600⟩) (by decide)
  words := fun _ _ => rfl
  size := rfl
  fits := Nat.zero_le _
  initialed := rfl

/-- After the probe the machine sees the records. -/
theorem seesMap_start {responses : List Response} (m : Mem (BitVec 8))
    (h : (records responses).length ≤ 204) :
    SeesMap (records responses) (Machine.start (protectModeStart (probe responses m))) := by
  have hprobed := probed_of_le m h
  have hlow : ∀ a, 0x7000 ≤ a → a + 4 ≤ 0x10800 →
      (protectModeStart (probe responses m)).mem.load32 a = (probe responses m).load32 a :=
    fun a hlo hhi => Mem.load32_congr fun b hb hb' => protectModeStart_low _ (by omega) (by omega)
  constructor
  case page => exact maps_protectModeStart _ (r := ⟨0xe, 0x1, 0xc0012⟩) (by decide)
  case count => exact (congrArg BitVec.toNat (hlow 0xe000 (by decide) (by decide))).trans hprobed.count
  case records =>
    intro i e hi
    have hlt : i < (records responses).length := (List.getElem?_eq_some_iff.mp hi).1
    rw [← hprobed.stored i e hi]
    unfold readMeminfo
    show BiosMeminfo.mk (_ ++ _) (_ ++ _) _ = _
    rw [Machine.start, hlow _ (by omega) (by omega), hlow _ (by omega) (by omega),
      hlow _ (by omega) (by omega), hlow _ (by omega) (by omega), hlow _ (by omega) (by omega)]
  case short => exact h

/-! ## display_init -/

/-- The edit of a call in the array. -/
def Mm.editTable (ms : MmState) (op : PageOp) : MmState :=
  { ms with pageTable := ms.pageTable.write op.vpage op.pte }

theorem Represents.pageOps {s : Machine} {ms : MmState} (h : Represents s ms) {ops : List PageOp}
    (hops : ∀ op ∈ ops, Editable op.vpage) :
    ∃ mmu, run pageStep s.mmu ops = some mmu ∧
      Represents { s with mmu := mmu } (ops.foldl Mm.editTable ms) ∧
      Mem.WritesIn pageTableCells s.mmu.mem mmu.mem := by
  induction ops generalizing s ms with
  | nil => exact ⟨s.mmu, rfl, h, Mem.WritesIn.refl _ _⟩
  | cons op ops ih =>
    obtain ⟨hop, hrest⟩ := List.forall_mem_cons.mp hops
    have hlt : op.vpage < 2 ^ 20 := Nat.lt_trans hop.1 (by decide)
    have hfirst := h.storeEntry hop op.pte
    obtain ⟨mmu, hrun, hrep, hw⟩ := ih hfirst hrest
    refine ⟨mmu, run_cons_eq_some.mpr ⟨_, pageStep_eq h.map hlt, hrun⟩, hrep, ?_⟩
    exact (Represents.writesIn_storeEntry hlt op.pte).trans hw

theorem vpage_displayMap (info : Console.VbeModeInfo) {i : Nat} (hi : i < 0x800) :
    (Console.displayMap info i).vpage = 0xc1000 + i := by
  have hbase : (Console.vramBase / 0x1000).toNat = 0xc1000 := rfl
  show (Console.vramBase / 0x1000 + BitVec.ofNat 32 i).toNat = 0xc1000 + i
  rw [BitVec.toNat_add, BitVec.toNat_ofNat, hbase]
  omega

theorem exists_displayMap {info : Console.VbeModeInfo} {op : PageOp}
    (h : op ∈ Console.displayMaps info 0x800) :
    ∃ i < 0x800, op = Console.displayMap info i := by
  obtain ⟨i, hi, rfl⟩ := List.mem_map.mp h
  exact ⟨i, List.mem_range.mp hi, rfl⟩

theorem editable_displayMaps (info : Console.VbeModeInfo) :
    ∀ op ∈ Console.displayMaps info 0x800, Editable op.vpage := by
  intro op hop
  obtain ⟨i, hi, rfl⟩ := exists_displayMap hop
  rw [vpage_displayMap info hi]
  exact ⟨by omega, by omega⟩

/-- The array after edits of other pages. -/
theorem Mm.read_foldl_editTable (ms : MmState) {ops : List PageOp} {v : Nat}
    (h : ∀ op ∈ ops, op.vpage ≠ v) :
    (ops.foldl Mm.editTable ms).pageTable.read v = ms.pageTable.read v := by
  induction ops generalizing ms with
  | nil => rfl
  | cons op ops ih =>
    obtain ⟨hop, hrest⟩ := List.forall_mem_cons.mp h
    rw [List.foldl_cons, ih _ hrest]
    exact Mem.read_write_of_ne _ _ (Ne.symm hop)

theorem read_displayMaps (info : Console.VbeModeInfo) (ms : MmState) {v : Nat}
    (hv : v < 0xc1000 ∨ 0xc1800 ≤ v) :
    ((Console.displayMaps info 0x800).foldl Mm.editTable ms).pageTable.read v =
      ms.pageTable.read v := by
  refine Mm.read_foldl_editTable ms fun op hop => ?_
  obtain ⟨i, hi, rfl⟩ := exists_displayMap hop
  rw [vpage_displayMap info hi]
  omega

/-- An edit leaves the rest of mm.c's state alone. -/
theorem Mm.foldl_editTable (ms : MmState) (ops : List PageOp) :
    ops.foldl Mm.editTable ms =
      { ms with pageTable := (ops.foldl Mm.editTable ms).pageTable } := by
  induction ops generalizing ms with
  | nil => rfl
  | cons op ops ih => rw [List.foldl_cons, ih]; rfl

/-! ## idt_init -/

/-- The page of the IDT. -/
theorem Represents.idtPage {s : Machine} {ms : MmState} (h : Represents s ms)
    (hpage : ∃ flags, Mmu.entry (ms.pageTable.read 0xc0010) = some (0x10, flags)) :
    IdtPage s.mmu where
  map := h.map
  cr3 := h.cr3
  window := by
    intro i hi
    obtain rfl := Nat.lt_one_iff.mp hi
    obtain ⟨flags, hflags⟩ := hpage
    exact ⟨flags, (h.table.walk h.map (by decide)).trans hflags⟩

/-- The IDT lies outside of what mm.c has. -/
theorem Represents.idtInit {s : Machine} {ms : MmState} (h : Represents s ms)
    (hpage : IdtPage s.mmu) (handlers : Handlers) :
    ∃ mmu, Interrupt.idtInit handlers s.mmu = some mmu ∧ Represents { s with mmu := mmu } ms ∧
      (∀ v : BitVec 8, gateTable mmu v.toNat = initGate handlers v.toNat) ∧
      Mem.WritesIn idtCells s.mmu.mem mmu.mem := by
  obtain ⟨mmu, hrun, hmmu, hgates, hw⟩ := idtInit_spec hpage handlers
  have htables : SameTables 0x200000 s.mmu mmu := by
    refine ⟨hmmu.cr3.trans h.cr3.symm, fun a ha => hw.read a fun hin => ?_⟩
    have hdir : pageDirectoryBase.toNat = 0x1ff000 := rfl
    rw [h.cr3] at ha
    obtain ⟨-, hhi⟩ := hin
    obtain ⟨hlo, -⟩ | ⟨hlo, -⟩ := ha
    · omega
    · omega
  have hcells : ∀ a ∈ bitmapCells, mmu.mem.read a = s.mmu.mem.read a := by
    intro a ha
    refine hw.read a fun hin => ?_
    have hlo := ha.1
    have hhi := hin.2
    omega
  exact ⟨mmu, hrun, h.of_sameTables htables hcells rfl rfl, hgates, hw⟩

/-! ## What main leaves -/

/-- The arrays when display_init returns. -/
def displayArrays (info : Console.VbeModeInfo) (s : Mmu) : MmState :=
  bootState (fun i => s.mem.load32 (0x600000 + 4 * i))
    ((Console.displayMaps info 0x800).foldl Mm.editTable (arraysOf s)).pageTable

theorem read_displayArrays (info : Console.VbeModeInfo) (s : Mmu) {v : Nat}
    (hv : v < 0xc1000 ∨ 0xc1800 ≤ v) :
    (displayArrays info s).pageTable.read v = (arraysOf s).pageTable.read v := by
  unfold displayArrays bootState
  dsimp only
  exact read_displayMaps info (arraysOf s) hv

/-- The arrays when mm_init returns: mm_init of the records `l` on the memory `s`. -/
def mainArrays (info : Console.VbeModeInfo) (l : List BiosMeminfo) (s : Mmu) : MmState :=
  Mm.mmInit l (displayArrays info s)

/-- The page table then: the two identity maps are gone, the frame buffer is mapped, and the
other pages are as protect_mode_start left them. -/
def mainWalk (info : Console.VbeModeInfo) (v : Nat) : Option (Nat × Nat) :=
  if v = 0x8 ∨ v = 0x10 then none
  else if 0xc1000 ≤ v ∧ v < 0xc1800 then
    some ((info.physBasePtr / 0x1000 + BitVec.ofNat 32 (v - 0xc1000)).toNat % 2 ^ 20, 7)
  else bootWalk v

theorem Mm.foldl_addEntry_pageTable (l : List BiosMeminfo) (ms : MmState) :
    (l.foldl Mm.addEntry ms).pageTable = ms.pageTable :=
  foldl_invariant (fun s : MmState => s.pageTable = ms.pageTable)
    (fun s e hs => (addEntry_pageTable s e).trans hs) rfl l

theorem Mm.pageTable_mmInit (l : List BiosMeminfo) (ram : Nat → BitVec 32) (pt : Mem (BitVec 32)) :
    (Mm.mmInit l (bootState ram pt)).pageTable = (pt.write 0x8 0).write 0x10 0 :=
  Mm.foldl_addEntry_pageTable l
    (Mm.kernelPageUnmap (Mm.kernelPageUnmap (bootState ram pt) 0x8) 0x10)

/-- The page table of a machine that represents the arrays of main. -/
theorem walk_mainArrays {info : Console.VbeModeInfo} {l : List BiosMeminfo}
    {ram : Mem (BitVec 8)} {mmu : Mmu}
    (hrun : run pageStep (protectModeStart ram) (Console.displayMaps info 0x800) = some mmu)
    {s : Machine} (hs : Represents s (mainArrays info l (protectModeStart ram)))
    (v : Fin (2 ^ 20)) : s.mmu.walk v = mainWalk info v := by
  obtain ⟨t, hrun', hrep, -⟩ := (represents_start ram).pageOps (editable_displayMaps info)
  obtain rfl : t = mmu := Option.some.inj (hrun'.symm.trans hrun)
  have hdisplay : ∀ v : Fin (2 ^ 20), t.walk v =
      Mmu.entry (((Console.displayMaps info 0x800).foldl Mm.editTable
        (arraysOf (protectModeStart ram))).pageTable.read v) :=
    fun v => hrep.table.walk hrep.map v.isLt
  rw [hs.table.walk hs.map v.isLt, mainArrays, displayArrays, Mm.pageTable_mmInit, mainWalk]
  by_cases hback : v.val = 0x8 ∨ v.val = 0x10
  · rw [if_pos hback]
    obtain h8 | h10 := hback
    · rw [h8, Mem.read_write_of_ne _ _ (by decide), Mem.read_write_self, Mmu.entry_zero]
    · rw [h10, Mem.read_write_self, Mmu.entry_zero]
  · rw [if_neg hback, Mem.read_write_of_ne _ _ (fun h => hback (.inr h)),
      Mem.read_write_of_ne _ _ (fun h => hback (.inl h))]
    by_cases hwindow : 0xc1000 ≤ v.val ∧ v.val < 0xc1800
    · obtain ⟨u, hu, -, hwalk⟩ := Console.run_displayMaps info (selfMap_protectModeStart ram)
        (Nat.le_refl 0x800)
      obtain rfl : u = t := Option.some.inj (hu.symm.trans hrun')
      have hpage := hwalk (v.val - 0xc1000) (by omega)
      rw [Nat.add_sub_cancel' hwindow.1] at hpage
      rw [if_pos hwindow, ← hdisplay, hpage]
    · rw [if_neg hwindow, read_displayMaps info _ (by omega), ← walk_protectModeStart ram v]
      exact ((represents_start ram).table.walk (represents_start ram).map v.isLt).symm

end ListaOS
