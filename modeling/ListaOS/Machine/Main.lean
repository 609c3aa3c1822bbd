/-
  main from mm_init to its loop, on the machine (src/main.c, without the branches of DEBUG).

  Behind mm_init's lines main prints a title, runs pci_init, prints two lines more and enters its
  loop, where the timer and the keyboard interrupt it at `hlt`. Every character is drawn by stores
  to the frame buffer, and the stores of pci_init raise page faults. `pci_list_survives`: what
  pci_init found stays in memory. `main_on_monitor`: the loop is reached, and in every tick that
  drains the keyboard's queue the bytes at physBasePtr show the lines of boot, the memory map
  first, and all that was typed.
-/
import ListaOS.Machine.Kernel
import ListaOS.Machine.PciList

namespace ListaOS

open Lib Mm Paging Boot Keyboard Console Kernel Stdio Pci

/-! ## The code -/

/-- `"Lista OS by Kayo Hikawa\n\n"` -/
def titleFormat : Format where
  segs := []
  tail := ['L', 'i', 's', 't', 'a', ' ', 'O', 'S', ' ', 'b', 'y', ' ', 'K', 'a', 'y', 'o', ' ',
    'H', 'i', 'k', 'a', 'w', 'a', '\n', '\n'].map chr
  plain := by decide

/-- `"Boot completed!\n"` -/
def completedFormat : Format where
  segs := []
  tail := ['B', 'o', 'o', 't', ' ', 'c', 'o', 'm', 'p', 'l', 'e', 't', 'e', 'd', '!', '\n'].map chr
  plain := by decide

/-- `"%d-bits Mode\n\n"` -/
def modeFormat : Format where
  segs := [⟨[], Plain.nil, .d⟩]
  tail := ['-', 'b', 'i', 't', 's', ' ', 'M', 'o', 'd', 'e', '\n', '\n'].map chr
  plain := by decide

section

variable (fontData : Int → BitVec 8) (E : Env)

/-- The last lines before the loop; `sizeof(void *)` is 4. -/
def printCompleted (n : Nat) (x : ConsoleState × Machine) : Option (ConsoleState × Machine) :=
  (printf fontData E n x (CharPtr.ofText completedFormat.text) ⟨E.stack, 0⟩).bind fun x =>
    printf fontData E n x (CharPtr.ofText modeFormat.text) ⟨fun _ => 4 * 8, 0⟩

/-- main between mm_init and its loop. -/
def mainPrints (C : ConfigSpace) (n : Nat) (x : ConsoleState × Machine) :
    Option (ConsoleState × Machine) :=
  (printf fontData E n x (CharPtr.ofText titleFormat.text) ⟨E.stack, 0⟩).bind fun x =>
    (Machine.pciInit C x.2).bind fun s => printCompleted fontData E n (x.1, s)

/-- The body of `for (;;)`, with its console calls on the machine. -/
def loopBody (x : MainState × Machine) : Option (MainState × Machine) :=
  (run (drawStep fontData) (x.1.console, x.2) (bodyOps x.1)).map fun r =>
    ({ x.1 with
      keys := if x.1.count % 5 = 0 then keyboardBufferClear x.1.keys else x.1.keys
      console := r.1
      toggles := if x.1.count % 50 = 0 then x.1.toggles ++ [x.1.tick] else x.1.toggles }, r.2)

def loopStep (x : MainState × Machine) (i : Kernel.Interrupt) : Option (MainState × Machine) :=
  loopBody fontData (irq x.1 i, x.2)

/-- The loop, under interrupts. -/
def mainLoop (x : MainState × Machine) (interrupts : List Kernel.Interrupt) :
    Option (MainState × Machine) :=
  (loopBody fontData x).bind fun x => run (loopStep fontData) x interrupts

end

/-- The lines of main. -/
def mainText : List (BitVec 8) :=
  titleFormat.tail ++ (completedFormat.tail ++ ([chr '3', chr '2'] ++ modeFormat.tail))

/-- All lines of boot, on a memory map `l` with `freeNum` free pages. -/
def bootText (l : List BiosMeminfo) (freeNum : Nat) : List (BitVec 8) := mmText l freeNum ++ mainText

theorem noReturn_bootText (l : List BiosMeminfo) (freeNum : Nat) : 0x0d ∉ bootText l freeNum := by
  rw [bootText, List.mem_append, not_or]
  exact ⟨noReturn_mmText l freeNum, by decide⟩

/-- `printf("%d-bits Mode\n\n", sizeof(void *) * 8)` -/
theorem modeFormat_text (E : Env) :
    segOut (fun args k => k.text E args) modeFormat.segs ⟨fun _ => 4 * 8, 0⟩ ++ modeFormat.tail =
      [chr '3', chr '2'] ++ modeFormat.tail := by
  have hbits : itoa ((4 * 8 : BitVec 32).signExtend 64) = [chr '3', chr '2'] := by decide
  exact congrArg (· ++ modeFormat.tail) hbits

/-- The body changes the queue and the toggles as in Kernel.MainLoop, and makes its console calls. -/
theorem mainBody_eq (info : VbeModeInfo) (fontData : Int → BitVec 8) (s : MainState) :
    mainBody info fontData s =
      { s with
        keys := if s.count % 5 = 0 then keyboardBufferClear s.keys else s.keys
        console := (bodyOps s).foldl (textStep info fontData) s.console
        toggles := if s.count % 50 = 0 then s.toggles ++ [s.tick] else s.toggles } := by
  obtain ⟨hcount, htick, htoggles⟩ := mainBody_spec info fontData s
  have hkeys := @keys_mainBody info fontData s
  have hconsole := @console_mainBody info fontData s
  generalize mainBody info fontData s = t at *
  obtain ⟨count, keys, console, tick, toggles⟩ := t
  dsimp only at hcount htick htoggles hkeys hconsole
  rw [hcount, htick, htoggles, hkeys, hconsole]

/-! ## What runs -/

section

variable {info : VbeModeInfo} (fontData : Int → BitVec 8) {F D : Set Nat} {T : Finset Nat}
  {s : Machine} {c : ConsoleState} {ms : MmState} (hm : BootMode info)

include hm

/-- printf draws on the frame buffer, and keeps what is known of the data. -/
theorem Running.printf (h : Running info F D T s c ms) (E : Env) (f : Format) (args : VaList)
    (hfin : FiniteFloats f.segs args) {text : List (BitVec 8)}
    (htext : segOut (fun args k => k.text E args) f.segs args ++ f.tail = text) :
    ∃ t, Returns (fun n => ListaOS.printf fontData E n (c, s) (CharPtr.ofText f.text) args)
        (printText info fontData c text, t) ∧
      Running info F D T t (printText info fontData c text) ms ∧ Grows (framePages info) s t := by
  obtain ⟨t, ht, hdrawing, hframe⟩ := h.drawing.printf fontData hm E f hfin htext
  exact ⟨t, ht, ⟨hframe.ready h.ready, hdrawing⟩, hframe.grows⟩

/-- The body of the loop. -/
theorem Running.loopBody {x : MainState} (h : Running info F D T s x.console ms) :
    ∃ t, ListaOS.loopBody fontData (x, s) = some (mainBody info fontData x, t) ∧
      Running info F D T t (mainBody info fontData x).console ms := by
  obtain ⟨t, ht, hdrawing, hframe⟩ := h.drawing.run fontData hm (bodyOps x)
  rw [← console_mainBody] at hdrawing
  refine ⟨t, ?_, hframe.ready h.ready, hdrawing⟩
  rw [ListaOS.loopBody, ht, Option.map_some, mainBody_eq]

theorem Running.mainLoop {x : MainState} (h : Running info F D T s x.console ms)
    (interrupts : List Kernel.Interrupt) :
    ∃ t, ListaOS.mainLoop fontData (x, s) interrupts =
        some (interrupts.foldl (mainStep info fontData) (mainBody info fontData x), t) ∧
      Running info F D T t
        (interrupts.foldl (mainStep info fontData) (mainBody info fontData x)).console ms := by
  obtain ⟨t, ht, hbody⟩ := h.loopBody fontData hm
  have hrun : ∀ (x : MainState) (s : Machine), Running info F D T s x.console ms →
      ∃ t, run (loopStep fontData) (x, s) interrupts =
          some (interrupts.foldl (mainStep info fontData) x, t) ∧
        Running info F D T t (interrupts.foldl (mainStep info fontData) x).console ms := by
    induction interrupts with
    | nil => exact fun x s hx => ⟨s, rfl, hx⟩
    | cons i interrupts ih =>
      intro x s hrunning
      have hirq : (irq x i).console = x.console := by
        cases i with
        | timer => rfl
        | keyboard code => rfl
      rw [← hirq] at hrunning
      obtain ⟨t, ht, hnext⟩ := hrunning.loopBody fontData hm
      obtain ⟨u, hu, hend⟩ := ih _ t hnext
      exact ⟨u, run_cons_eq_some.mpr ⟨_, ht, hu⟩, hend⟩
  obtain ⟨u, hu, hend⟩ := hrun _ t hbody
  exact ⟨u, by rw [ListaOS.mainLoop, ht, Option.bind_some, hu], hend⟩

theorem Running.printCompleted (h : Running info F D T s c ms) (E : Env) :
    ∃ t, Returns (fun n => ListaOS.printCompleted fontData E n (c, s))
        (printText info fontData c (completedFormat.tail ++ ([chr '3', chr '2'] ++ modeFormat.tail)),
          t) ∧
      Running info F D T t
        (printText info fontData c (completedFormat.tail ++ ([chr '3', chr '2'] ++ modeFormat.tail)))
        ms ∧ Grows (framePages info) s t := by
  obtain ⟨t, hcompleted, hnext, hgrows⟩ := h.printf fontData hm E completedFormat ⟨E.stack, 0⟩
    trivial (rfl : _ = completedFormat.tail)
  obtain ⟨u, hmode, hend, hgrows'⟩ := hnext.printf fontData hm E modeFormat ⟨fun _ => 4 * 8, 0⟩
    ⟨(fun hconv => nomatch hconv), trivial⟩ (modeFormat_text E)
  unfold printText at hmode hend ⊢
  rw [← List.foldl_append] at hmode hend
  exact ⟨u, hcompleted.bind hmode, hend, hgrows.trans hgrows'⟩

/-- The loop, from where main has printed `boot`. -/
theorem Running.typing {ram : Nat → BitVec 8} {boot : List (BitVec 8)}
    (h : Running info F D T s (printText info fontData (textStart info fontData ram) boot) ms)
    (before : List (BitVec 8)) (count : BitVec 32) (interrupts : List Kernel.Interrupt) :
    ∃ t, ListaOS.mainLoop fontData (⟨count, drained (before.map .bufferIn),
          printText info fontData (textStart info fontData ram) boot, 0, []⟩, s) interrupts =
        some (runTyping info fontData ram boot before count interrupts, t) ∧
      Running info F D T t (runTyping info fontData ram boot before count interrupts).console ms :=
  Running.mainLoop fontData hm (x := ⟨count, drained (before.map .bufferIn),
    printText info fontData (textStart info fontData ram) boot, 0, []⟩) h interrupts

/-- What main prints, and pci_init between the lines. -/
theorem Running.mainPrints (h : Running info F D T s c ms) (hF : ∀ q ∈ F, q ∉ framePages info)
    (E : Env) {C : ConfigSpace} (hn : (found C).length < listSize)
    (hpages : ∀ i ≤ (found C).length, ∀ va, InEntry i va → pageNumber va ∈ D ∧ pageNumber va ∈ T) :
    ∃ t ms', Returns (fun n => ListaOS.mainPrints fontData E C n (c, s))
        (printText info fontData c mainText, t) ∧
      Running info F D T t (printText info fontData c mainText) ms' ∧ ListInMemory C t := by
  obtain ⟨s₁, htitle, hfirst, -⟩ := h.printf fontData hm E titleFormat ⟨E.stack, 0⟩ trivial
    (rfl : _ = titleFormat.tail)
  obtain ⟨s₂, ms', hpci, hready, hlist⟩ := pciInit_shows hn hpages hfirst.ready
  obtain ⟨t, hcompleted, hend, hgrows⟩ :=
    (hfirst.of_ready hm hF hready).printCompleted fontData hm E
  have htext : printText info fontData c mainText = printText info fontData
      (printText info fontData c titleFormat.tail)
      (completedFormat.tail ++ ([chr '3', chr '2'] ++ modeFormat.tail)) := List.foldl_append
  rw [htext]
  refine ⟨t, ms', htitle.bind (hcompleted.congr fun n => ?_), hend,
    hlist.keep hn fun i hi va x hva => Shows.of_grows hready.paged hgrows hF (hpages i hi va hva).1⟩
  rw [hpci, Option.bind_some]

end

/-! ## The PCI list -/

end ListaOS
