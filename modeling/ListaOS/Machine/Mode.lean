/-
  The mode block, and what the kernel draws.

  display.c and console.c have no copy of the mode: they read it at VBE_INFO_ADDR, whenever they
  need it, through the page of 0x7e00, where set_suitable_video_mode has left the block. `HasMode`
  says that the block is there. A console call is a list of stores in the mode that it reads
  (`drawStep`), and printf a list of console calls.

  `Drawing info s c ms` is what drawing keeps: the machine reads the mode `info`, and its
  frame buffer holds what the console `c` has drawn. Nothing else is stored to (`FrameOnly`).
-/
import ListaOS.Machine.Monitor
import ListaOS.Console.Glyph
import ListaOS.Console.Screen
import ListaOS.Stdio.Format

namespace ListaOS

open Lib Mm Paging Boot Interrupt Console Stdio

/-! ## The code -/

/-- The fields of the block at `a`, at the offsets of the C struct. -/
def readVbeInfo (m : Mem (BitVec 8)) (a : Nat) : VbeModeInfo where
  modeAttributes := m.load16 a
  bytesPerScanLine := m.load16 (a + 16)
  xResolution := m.load16 (a + 18)
  yResolution := m.load16 (a + 20)
  bitsPerPixel := m.read (a + 25)
  memoryModel := m.read (a + 27)
  physBasePtr := m.load32 (a + 40)

/-- `*vbeInfo`, at VBE_INFO_ADDR; the block lies in one page. -/
def vbeInfo (s : Mmu) : Option VbeModeInfo := (s.translate 0xc0011e00).map (readVbeInfo s.mem)

/-- A kernel_page_mmap of display_init. -/
def displayMapReading (mmu : Mmu) (i : Nat) : Option Mmu :=
  (vbeInfo mmu).bind fun info => pageStep mmu (displayMap info i)

section

variable (fontData : Int → BitVec 8)

/-- A console call. It makes its stores one by one and never reads them back. -/
def drawStep (x : ConsoleState × Machine) (op : TextOp) : Option (ConsoleState × Machine) :=
  (vbeInfo x.2.mmu).bind fun info =>
    (run Machine.storeByte x.2 (stepStores info fontData x.1 op)).map fun s =>
      (textStep info fontData x.1 op, s)

/-- `putc` is print_char. -/
def printf (E : Env) (n : Nat) (x : ConsoleState × Machine) (format : CharPtr) (args : VaList) :
    Option (ConsoleState × Machine) :=
  (vprintf E n format args).bind fun r => run (drawStep fontData) x (r.1.map .printChar)

end

/-! ## The block stays -/

/-- The block at 0x7e00 is `info`, and VBE_INFO_ADDR leads there. -/
structure HasMode (info : VbeModeInfo) (s : Mmu) : Prop where
  page : Maps 0xc0011 0x7 1 s
  block : readVbeInfo s.mem 0x7e00 = info

theorem readVbeInfo_congr {m m' : Mem (BitVec 8)} {a : Nat}
    (h : ∀ i, a ≤ i → i < a + 44 → m'.read i = m.read i) : readVbeInfo m' a = readVbeInfo m a := by
  have hword : ∀ k, k + 2 ≤ 44 → m'.load16 (a + k) = m.load16 (a + k) := fun k hk =>
    Mem.load16_congr (h _ (by omega) (by omega)) (h _ (by omega) (by omega))
  have hfirst : m'.load16 a = m.load16 a := hword 0 (by decide)
  have hbase : m'.load32 (a + 40) = m.load32 (a + 40) :=
    Mem.load32_congr fun i hlo hhi => h i (by omega) (by omega)
  unfold readVbeInfo
  rw [hfirst, hword 16 (by decide), hword 18 (by decide), hword 20 (by decide),
    h (a + 25) (by omega) (by omega), h (a + 27) (by omega) (by omega), hbase]

namespace HasMode

variable {info : VbeModeInfo} {s t : Mmu}

theorem vbeInfo (h : HasMode info s) : ListaOS.vbeInfo s = some info := by
  have htranslate : s.translate 0xc0011e00 = some 0x7e00 := h.page.translate (k := 0xe00) rfl (by decide)
  rw [ListaOS.vbeInfo, htranslate, Option.map_some, h.block]

theorem keep (h : HasMode info s) (hwalk : t.walk 0xc0011 = s.walk 0xc0011)
    (hmem : ∀ a < 0x10000, t.mem.read a = s.mem.read a) : HasMode info t where
  page := h.page.congr fun i hi => by
    obtain rfl := Nat.lt_one_iff.mp hi
    exact hwalk
  block := (readVbeInfo_congr fun i _ hi => hmem i (by omega)).trans h.block

/-- Accesses and drawing leave the page and the block. -/
theorem of_grows {s t : Machine} (h : HasMode info s.mmu) {F : Set Nat} (hg : Grows F s t) :
    HasMode info t.mmu := by
  obtain ⟨flags, hpage⟩ := h.page 0 Nat.one_pos
  refine h.keep (hg.walk 0xc0011 (by decide) ?_) fun a ha => hg.writes.read a fun hin => ?_
  · rw [hpage]
    exact Option.some_ne_none _
  · have hlo : 0x200000 ≤ a := hin
    omega

/-- protect_mode_start maps the page, and the probe of the memory map stores behind the block. -/
theorem boot {responses : List Response} {m : Mem (BitVec 8)}
    (hlen : (records responses).length ≤ 204) (hblock : readVbeInfo m 0x7e00 = info) :
    HasMode info (protectModeStart (probe responses m)) where
  page := maps_protectModeStart (probe responses m) (r := ⟨0x7, 0x1, 0xc0011⟩) (by decide)
  block := by
    refine (readVbeInfo_congr fun i hlo hhi => ?_).trans hblock
    rw [protectModeStart_low _ (by omega) (by omega), (probed_of_le m hlen).writes.read i fun hin => ?_]
    have hin' := hin.1
    omega

end HasMode

/-! ## display_init -/

/-- The maps of display_init, with the block read at each. -/
theorem run_displayMapReading {info : VbeModeInfo} {mmu : Mmu} {ms : MmState}
    (hrep : Represents (Machine.start mmu) ms) (h : HasMode info mmu) :
    ∃ t, run displayMapReading mmu (List.range 0x800) = some t ∧
      run pageStep mmu (displayMaps info 0x800) = some t ∧ HasMode info t := by
  have hstep : ∀ s, ((∃ ms, Represents (Machine.start s) ms) ∧ HasMode info s) →
      ∀ i ∈ List.range 0x800, ∃ t, displayMapReading s i = some t ∧
        pageStep s (displayMap info i) = some t ∧
        ((∃ ms, Represents (Machine.start t) ms) ∧ HasMode info t) := by
    rintro s ⟨⟨ms, hs⟩, hmode⟩ i hi
    have hpage := vpage_displayMap info (List.mem_range.mp hi)
    have hedit : ∀ op ∈ [displayMap info i], Editable op.vpage := by
      intro op hop
      obtain rfl := List.mem_singleton.mp hop
      exact editable_displayMaps info _ (List.mem_map.mpr ⟨i, hi, rfl⟩)
    obtain ⟨t, ht, hrep, hw⟩ := hs.pageOps hedit
    obtain ⟨t', ht', hnil⟩ := run_cons_eq_some.mp ht
    obtain rfl := Option.some.inj hnil
    have hread : (Mm.editTable ms (displayMap info i)).pageTable.read 0xc0011 =
        ms.pageTable.read 0xc0011 := Mem.read_write_of_ne _ _ (by omega)
    refine ⟨t', ?_, ht', ⟨_, hrep⟩, hmode.keep ?_ fun a ha => hw.read a fun hin => ?_⟩
    · rw [displayMapReading, hmode.vbeInfo, Option.bind_some]
      exact ht'
    · exact (hrep.table.walk hrep.map (by decide)).trans
        ((congrArg Mmu.entry hread).trans (hs.table.walk hs.map (by decide)).symm)
    · have hlo := hin.1
      omega
  obtain ⟨t, ht, ht', -, hend⟩ := exists_run_of_agree
    (fun s => (∃ ms, Represents (Machine.start s) ms) ∧ HasMode info s) hstep ⟨⟨ms, hrep⟩, h⟩
  refine ⟨t, ht, ?_, hend⟩
  rw [displayMaps, run_map, ht']

/-! ## Drawing -/

/-- A mode that the probe has accepted, with at least 8x1 cells and a frame buffer of its own. -/
structure BootMode (info : VbeModeInfo) : Prop where
  accepted : ∃ probed, Accepted probed info
  wide : 64 ≤ info.xResolution.toNat
  tall : 16 ≤ info.yResolution.toNat
  frame : FrameBuffer info

theorem BootMode.suitable {info : VbeModeInfo} (h : BootMode info) : Suitable info :=
  h.accepted.elim fun _ hacc => hacc.suitable

/-- From `s` to `t` only the frame buffer is stored to. -/
structure FrameOnly (info : VbeModeInfo) (ms : MmState) (s t : Machine) : Prop where
  grows : Grows (framePages info) s t
  ready : ∀ {F D : Set Nat} {T : Finset Nat}, Ready F D T s s ms → Ready F D T t t ms

theorem FrameOnly.refl (info : VbeModeInfo) (ms : MmState) (s : Machine) : FrameOnly info ms s s :=
  ⟨Grows.refl _ s, id⟩

theorem FrameOnly.trans {info : VbeModeInfo} {ms : MmState} {s t u : Machine}
    (h : FrameOnly info ms s t) (h' : FrameOnly info ms t u) : FrameOnly info ms s u :=
  ⟨h.grows.trans h'.grows, fun hs => h'.ready (h.ready hs)⟩

/-- Between the mode block and the frame buffer: the IDT, the page table and the bitmap. -/
def coreCells : Set Nat := {a | 0x10000 ≤ a ∧ a < 0x800000}

structure Drawing (info : VbeModeInfo) (s : Machine) (c : ConsoleState) (ms : MmState) : Prop where
  screen : Monitors info s ms c.vram
  inText : InText info c
  mode : HasMode info s.mmu

namespace Drawing

variable {info : VbeModeInfo} {s t : Machine} {c : ConsoleState} {ms ms' : MmState}

/-- What keeps the pages of the mode block and of the window, and stores to neither. -/
theorem keep (hfb : FrameBuffer info) (h : Drawing info s c ms) (ht : Represents t ms')
    (hread : ∀ v, 0xc0011 ≤ v → v < 0xc1800 → ms'.pageTable.read v = ms.pageTable.read v)
    (hw : Mem.WritesIn coreCells s.mmu.mem t.mmu.mem) : Drawing info t c ms' where
  screen := by
    refine h.screen.keep ht (fun i hi => ?_) fun a ha => hw.read _ fun hin => ?_
    · exact h.screen.rep.walk_eq ht (by omega) (hread _ (by omega) (by omega))
    · have hlo : 0x800000 ≤ framePhys info a := (framePhys_mem hfb ha).1
      have hhi := hin.2
      omega
  inText := h.inText
  mode := by
    refine h.mode.keep (h.screen.rep.walk_eq ht (by decide) (hread _ (by decide) (by decide)))
      fun a ha => hw.read a fun hin => ?_
    have hlo := hin.1
    omega

/-- Stores to other frames. -/
theorem of_grows (hfb : FrameBuffer info) (h : Drawing info s c ms) {F : Set Nat}
    (hF : ∀ q ∈ F, q ∉ framePages info) (ht : Represents t ms') (hg : Grows F s t) :
    Drawing info t c ms' :=
  ⟨h.screen.of_grows hfb hF ht hg, h.inText, h.mode.of_grows hg⟩

variable (fontData : Int → BitVec 8) (hm : BootMode info)

include hm

/-- **A console call** draws on the frame buffer what the console draws. -/
theorem step (h : Drawing info s c ms) (op : TextOp) :
    ∃ t, drawStep fontData (c, s) op = some (textStep info fontData c op, t) ∧
      Drawing info t (textStep info fontData c op) ms ∧ FrameOnly info ms s t := by
  obtain ⟨hvram, hin⟩ := @textStep_stores info fontData hm.suitable hm.wide c h.inText op
  obtain ⟨t, ht, hscreen, hgrows, hready⟩ := h.screen.storeBytes hm.frame hin
  rw [← hvram] at hscreen
  obtain ⟨hinText, -⟩ := @InText.textStep info fontData hm.wide c h.inText op
  refine ⟨t, ?_, ⟨hscreen, hinText, h.mode.of_grows hgrows⟩, hgrows, hready⟩
  rw [drawStep, h.mode.vbeInfo, Option.bind_some, ht, Option.map_some]

theorem run (h : Drawing info s c ms) (ops : List TextOp) :
    ∃ t, Lib.run (drawStep fontData) (c, s) ops =
        some (ops.foldl (textStep info fontData) c, t) ∧
      Drawing info t (ops.foldl (textStep info fontData) c) ms ∧ FrameOnly info ms s t := by
  induction ops generalizing s c with
  | nil => exact ⟨s, rfl, h, FrameOnly.refl info ms s⟩
  | cons op ops ih =>
    obtain ⟨t, ht, hnext, hframe⟩ := h.step fontData hm op
    obtain ⟨u, hu, hend, hframe'⟩ := ih hnext
    exact ⟨u, run_cons_eq_some.mpr ⟨_, ht, hu⟩, hend, hframe.trans hframe'⟩

/-- printf draws what vprintf prints. -/
theorem printf (h : Drawing info s c ms) (E : Env) (f : Format) {args : VaList}
    (hfin : FiniteFloats f.segs args) {text : List (BitVec 8)}
    (htext : segOut (fun args k => k.text E args) f.segs args ++ f.tail = text) :
    ∃ t, Returns (fun n => ListaOS.printf fontData E n (c, s) (CharPtr.ofText f.text) args)
        (printText info fontData c text, t) ∧
      Drawing info t (printText info fontData c text) ms ∧ FrameOnly info ms s t := by
  obtain ⟨t, ht, hend, hframe⟩ := h.run fontData hm (text.map .printChar)
  have hdrawn : (text.map TextOp.printChar).foldl (textStep info fontData) c =
      printText info fontData c text := List.foldl_map
  rw [hdrawn] at ht hend
  have hprint := vprintf_spec E f (CharPtr.holds_ofText f.text) hfin
  rw [htext] at hprint
  have hdraw := hprint.bind (g := fun _ (r : List (BitVec 8) × BitVec 32) =>
    Lib.run (drawStep fontData) (c, s) (r.1.map TextOp.printChar))
    ((Returns.pure _).congr fun _ => ht)
  exact ⟨t, hdraw, hend, hframe⟩

end Drawing

end ListaOS
