/-
  The kernel after boot: its console and its memory.

  A run is a list of console calls and of accesses to demand paged data, each on physical
  memory. `Running` is what every step keeps: the pages in use have frames of their own among
  those that the BIOS reports, and the frame buffer, which is not among them, holds what the
  console drew. `kernel_runs`: behind mm_init's lines the screen shows the text and the loads
  return what was stored, whatever the order of the steps.
-/
import ListaOS.Machine.Memory
import ListaOS.Console.ModeList
import ListaOS.Kernel.Echo

namespace ListaOS

open Lib Mm Paging Boot Interrupt Console Stdio

/-- A console call, or an access to a page of `D`. -/
inductive KernelOp (D : Set Nat) where
  | text (op : TextOp)
  | data (e : Access (AddrOf D) (BitVec 8))

/-- What the loads have returned is kept beside the console and the machine. -/
structure KernelState where
  console : ConsoleState
  machine : Machine
  loaded : List (BitVec 8)

def kernelStep {D : Set Nat} (fontData : Int → BitVec 8) (x : KernelState) :
    KernelOp D → Option KernelState
  | .text op => (drawStep fontData (x.console, x.machine) op).map fun r =>
      { x with
        console := r.1
        machine := r.2 }
  | .data e => (Machine.access (x.machine, x.loaded) e).map fun r =>
      { x with
        machine := r.1
        loaded := r.2 }

section

variable {D : Set Nat}

def KernelOp.text? : KernelOp D → Option TextOp
  | .text op => some op
  | .data _ => none

def KernelOp.data? : KernelOp D → Option (Access (AddrOf D) (BitVec 8))
  | .text _ => none
  | .data e => some e

end

/-! ## The invariant -/

structure Running (info : VbeModeInfo) (F D : Set Nat) (T : Finset Nat) (s : Machine)
    (c : ConsoleState) (ms : MmState) : Prop where
  ready : Ready F D T s s ms
  drawing : Drawing info s c ms

namespace Running

variable {info : VbeModeInfo} (fontData : Int → BitVec 8) {F D : Set Nat} {T : Finset Nat}
  {s : Machine} {c : ConsoleState} {ms : MmState} (hm : BootMode info)
  (hF : ∀ q ∈ F, q ∉ framePages info)

include hm

/-- A console call draws on the frame buffer, and keeps what is known of the data. -/
theorem text (h : Running info F D T s c ms) (op : TextOp) :
    ∃ t, drawStep fontData (c, s) op = some (textStep info fontData c op, t) ∧
      Running info F D T t (textStep info fontData c op) ms ∧ Grows (framePages info) s t := by
  obtain ⟨t, ht, hdrawing, hframe⟩ := h.drawing.step fontData hm op
  exact ⟨t, ht, ⟨hframe.ready h.ready, hdrawing⟩, hframe.grows⟩

include hF

/-- What uses the pages `D` only leaves the frame buffer alone. -/
theorem of_ready (h : Running info F D T s c ms) {t : Machine} {ms' : MmState}
    (ht : Ready F D T s t ms') : Running info F D T t c ms' :=
  ⟨{ ht with grows := Grows.refl F t },
    h.drawing.of_grows hm.frame hF ht.paged.rep ht.grows⟩

end Running

/-! ## Runs -/

section

variable {info : VbeModeInfo} (fontData : Int → BitVec 8) {F D : Set Nat} {T : Finset Nat}
  (hm : BootMode info) (hF : ∀ q ∈ F, q ∉ framePages info)

include hm hF

/-- One step goes through, and is answered as by a flat memory; it stores to the frames only. -/
theorem kernelStep_answers {x : KernelState} {ms : MmState}
    (h : Running info F D T x.machine x.console ms) {op : KernelOp D}
    (hT : ∀ e, op.data? = some e → pageNumber e.addr.val ∈ T) :
    ∃ y ms', kernelStep fontData x op = some y ∧
      Running info F D T y.machine y.console ms' ∧
      y.console = (op.text?.toList).foldl (textStep info fontData) x.console ∧
      Grows (F ∪ framePages info) x.machine y.machine ∧
      Answers (fun x : KernelState => knownByte (x.machine, x.loaded)) KernelState.loaded x op.data?
        y := by
  obtain ⟨c, s, loaded⟩ := x
  cases op with
  | text op =>
    obtain ⟨t, ht, hrunning, hgrows⟩ := h.text fontData hm op
    have hstep : kernelStep (D := D) fontData ⟨c, s, loaded⟩ (.text op) =
        some ⟨textStep info fontData c op, t, loaded⟩ := by
      rw [kernelStep, ht]
      rfl
    exact ⟨⟨textStep info fontData c op, t, loaded⟩, ms, hstep, hrunning, rfl,
      hgrows.mono Set.subset_union_right, keeps_of_grows h.ready.paged hgrows hF loaded loaded, rfl⟩
  | data e =>
    obtain ⟨⟨t, out⟩, ht, ⟨ms', hready⟩, hserves⟩ :=
      access_serves (s := (s, loaded)) h.ready (hT e rfl)
    have hstep : kernelStep fontData ⟨c, s, loaded⟩ (.data e) = some ⟨c, t, out⟩ := by
      rw [kernelStep, ht]
      rfl
    refine ⟨⟨c, t, out⟩, ms', hstep, h.of_ready hm hF hready, rfl,
      hready.grows.mono Set.subset_union_left, ?_⟩
    cases e with
    | load va => exact hserves
    | store va v => exact hserves

/-- A run draws the console calls, in order, and keeps the bytes that it does not use. -/
theorem run_kernelStep {x : KernelState} {ms : MmState}
    (h : Running info F D T x.machine x.console ms) {ops : List (KernelOp D)}
    (hT : ∀ op ∈ ops, ∀ e, op.data? = some e → pageNumber e.addr.val ∈ T) :
    ∃ y ms', run (kernelStep fontData) x ops = some y ∧
      Running info F D T y.machine y.console ms' ∧
      y.console = (ops.filterMap KernelOp.text?).foldl (textStep info fontData) x.console ∧
      ∀ vb b, pageNumber vb ∈ D → (∀ op ∈ ops, ∀ e, op.data? = some e → e.addr.val ≠ vb) →
        Shows x.machine vb b → Shows y.machine vb b := by
  induction ops generalizing x ms with
  | nil => exact ⟨x, ms, rfl, h, rfl, fun _ _ _ _ hb => hb⟩
  | cons op ops ih =>
    obtain ⟨hop, hrest⟩ := List.forall_mem_cons.mp hT
    obtain ⟨y, my, hy, hnext, hconsole, -, hanswers⟩ :=
      kernelStep_answers fontData hm hF h hop
    obtain ⟨z, mz, hz, hend, hconsole', hkept⟩ := ih hnext hrest
    refine ⟨z, mz, run_cons_eq_some.mpr ⟨y, hy, hz⟩, hend, ?_, fun vb b hvb hnot hb => ?_⟩
    · rw [hconsole', hconsole, ← List.foldl_append]
      cases op with
      | text op => rfl
      | data e => rfl
    · obtain ⟨hfirst, hlater⟩ := List.forall_mem_cons.mp hnot
      refine hkept vb b hvb hlater ?_
      exact hanswers.keeps ⟨vb, hvb⟩ (fun e he heq => hfirst e he (congrArg Subtype.val heq)) b hb

/-- The loads of a run return what a flat memory returns. -/
theorem run_kernelStep_flat {x y : KernelState} {ms : MmState}
    (h : Running info F D T x.machine x.console ms) {ops : List (KernelOp D)}
    (hT : ∀ op ∈ ops, ∀ e, op.data? = some e → pageNumber e.addr.val ∈ T)
    (hrun : run (kernelStep fontData) x ops = some y) :
    ∃ cells, ((ops.filterMap KernelOp.data?).foldl Flat.step ⟨cells, x.loaded⟩).loaded =
      y.loaded := by
  have hstep : ∀ x op y, (∃ ms, Running info F D T x.machine x.console ms) →
      (∀ e, op.data? = some e → pageNumber e.addr.val ∈ T) →
      kernelStep fontData x op = some y →
      (∃ ms, Running info F D T y.machine y.console ms) ∧
        Answers (fun x : KernelState => knownByte (x.machine, x.loaded)) KernelState.loaded x
          (KernelOp.data? (D := D) op) y := by
    rintro x op y ⟨ms, h⟩ hop hy
    obtain ⟨z, mz, hz, hnext, -, -, hanswers⟩ :=
      kernelStep_answers fontData hm hF h hop
    obtain rfl := Option.some.inj (hz.symm.trans hy)
    exact ⟨⟨mz, hnext⟩, hanswers⟩
  obtain ⟨cells, -, hloaded, -⟩ := run_flat hstep ⟨ms, h⟩ hT hrun
  exact ⟨cells, hloaded⟩

end

/-! ## From boot -/

/-- main leaves the pages `T` to come, if there are frames for them. -/
theorem Entered.running {handlers : Handlers} {fontData : Int → BitVec 8} {info : VbeModeInfo}
    {l : List BiosMeminfo} {mmu : Mmu} {c : ConsoleState} {s : Machine}
    (h : Entered handlers fontData info l mmu c s) (hmap : LowMap l) {T : Finset Nat}
    (hT : ∀ v ∈ T, v < 2 ^ 20) (hroom : T.card ≤ getFreePageNum (mainArrays info l mmu)) :
    Running info (usableFrames l) (demandPages info) T s c (mainArrays info l mmu) :=
  ⟨ready_main hmap h.drawing.screen.rep h.walk hT hroom, h.drawing⟩

/-- A run, from where the text `boot` has been printed. -/
theorem kernelRun_shows {info : VbeModeInfo} (hm : BootMode info) (around : Int → BitVec 8)
    {F D : Set Nat} (hF : ∀ q ∈ F, q ∉ framePages info) {s : Machine} {ram : Nat → BitVec 8}
    {boot : List (BitVec 8)} {ms : MmState} {ops : List (KernelOp D)}
    (h : Running info F D (touched (ops.filterMap KernelOp.data?)) s
      (printText info (Font.fontData around) (textStart info (Font.fontData around) ram) boot) ms)
    (hr : 0x0d ∉ boot ++ chars (ops.filterMap KernelOp.text?))
    (hfit : FitsScreen (info.xResolution.toNat / 8) (info.yResolution.toNat / 16)
      (boot ++ chars (ops.filterMap KernelOp.text?))) :
    ∃ y cells, run (kernelStep (Font.fontData around))
        ⟨printText info (Font.fontData around) (textStart info (Font.fontData around) ram) boot, s,
          []⟩ ops = some y ∧
      y.loaded = ((ops.filterMap KernelOp.data?).foldl Flat.step ⟨cells, []⟩).loaded ∧
      ShowsText info (Font.fontData around) { y.console with vram := monitor info y.machine }
        (boot ++ chars (ops.filterMap KernelOp.text?)) := by
  obtain ⟨probed, hacc⟩ := hm.accepted
  have hT : ∀ op ∈ ops, ∀ e, op.data? = some e →
      pageNumber e.addr.val ∈ touched (ops.filterMap KernelOp.data?) := fun op hop e he =>
    mem_touched (List.mem_filterMap.mpr ⟨op, hop, he⟩)
  obtain ⟨y, my, hrun, hend, hconsole, -⟩ := run_kernelStep (Font.fontData around) hm hF
    (x := ⟨_, s, []⟩) h hT
  obtain ⟨cells, hloaded⟩ := run_kernelStep_flat (Font.fontData around) hm hF h hT hrun
  refine ⟨y, cells, hrun, hloaded.symm, ?_⟩
  have htext : chars (boot.map .printChar ++ ops.filterMap KernelOp.text?) =
      boot ++ chars (ops.filterMap KernelOp.text?) := by
    rw [chars_append, chars_printed]
  have hdrawn : textRun info (Font.fontData around) ram
      (boot.map .printChar ++ ops.filterMap KernelOp.text?) = y.console := by
    rw [hconsole, textRun, List.foldl_append, Kernel.foldl_printed]
    rfl
  rw [← htext] at hr hfit ⊢
  have hshows := screen_shows_page hacc hm.wide hm.tall around ram _ hr hfit
  rw [hdrawn] at hshows
  exact hshows.congr hm.suitable hend.drawing.screen.bytes

/-- An address that is not present after boot. -/
def lowAddr : AddrOf (demandPages Kernel.vgaMode) :=
  ⟨0x1000, mem_demandPages_low Kernel.vgaMode (by decide)⟩

/-- Two free pages at 8 MiB, and a frame buffer far above. -/
theorem apart_vgaMode : ∀ q ∈ usableFrames (records twoPages), q ∉ framePages Kernel.vgaMode := by
  rintro q ⟨e, he, -, -, -, -, hend⟩ ⟨hlo, -⟩
  obtain rfl := List.mem_singleton.mp he
  have haddr : (⟨0x800000, 0x2000, 1⟩ : BiosMeminfo).addr.toNat = 0x800000 := rfl
  have hsize : (⟨0x800000, 0x2000, 1⟩ : BiosMeminfo).size.toNat = 0x2000 := rfl
  have hbase : Kernel.vgaMode.physBasePtr.toNat / 0x1000 = 0xe0000 := rfl
  omega

/-- One mode, 640x480. -/
def vgaBios : Vbe where
  modeInfo mode := if mode = 0x112 then some Kernel.vgaMode else none
  setMode _ := 0

/-- What set_suitable_video_mode has chosen. -/
def vgaChoice : Choice := ⟨some 0x4112, 0, Kernel.vgaMode⟩

end ListaOS
