/-
  The entry points of the interrupts (libkernel/intr_handler.s) on a processor.

  `code` is the text of intr_handler.s with the size of each instruction, and `step` runs it:
  one instruction, or one interrupt where the processor lets it in. What is not assembly is a
  parameter (`Compiled`): the program that is interrupted, and what its C functions do to the
  data they share. `Sound` is the calling convention that both keep; the program may not rely on
  the stack below `%esp`.
-/
import ListaOS.Interrupt.Idt
import ListaOS.Lib.Cpu

namespace ListaOS.Interrupt

open Lib

/-! ## The text -/

/-- The C functions that the entry points call. -/
inductive CFunction where
  | pageFault | irq0x20 | irq0x21 | irq0x27
deriving DecidableEq

inductive Instr where
  | cli | sti | iret | pushal | popal
  | pushl (r : Reg)
  | popl (r : Reg)
  | movl (src dst : Reg)
  /-- `movl disp(base), dst`. -/
  | loadl (disp : BitVec 32) (base dst : Reg)
  /-- `movl %cr2, dst`. -/
  | movCr2 (dst : Reg)
  | addl (n : BitVec 32) (r : Reg)
  | call (f : CFunction)

/-- The bytes of the encoding. -/
def Instr.size : Instr → BitVec 32
  | .cli => 1
  | .sti => 1
  | .iret => 1
  | .pushal => 1
  | .popal => 1
  | .pushl _ => 1
  | .popl _ => 1
  | .movl _ _ => 2
  | .loadl _ _ _ => 3
  | .movCr2 _ => 3
  | .addl _ _ => 3
  | .call _ => 5

def pageFaultHandler : List Instr :=
  [.cli, .pushl .ebp, .movl .esp .ebp, .pushal, .loadl 4 .ebp .eax, .pushl .eax, .movCr2 .eax,
    .pushl .eax, .call .pageFault, .addl 8 .esp, .popal, .popl .ebp, .addl 4 .esp, .sti, .iret]

/-- irq_0x20_handler, irq_0x21_handler and irq_0x27_handler. -/
def irqHandler (f : CFunction) : List Instr := [.cli, .pushal, .call f, .popal, .sti, .iret]

/-- Instructions with their offsets. -/
def layOut : BitVec 32 → List Instr → List (BitVec 32 × Instr)
  | _, [] => []
  | o, i :: is => (o, i) :: layOut (o + i.size) is

/-- The section of intr_handler.s. -/
def code : List (BitVec 32 × Instr) :=
  layOut 0 (pageFaultHandler ++ irqHandler .irq0x20 ++ irqHandler .irq0x21 ++ irqHandler .irq0x27)

/-- The instruction at `eip`, if that lies in the section. -/
def fetch (text eip : BitVec 32) : Option Instr := code.lookup (eip - text)

/-- The labels. -/
def handlersAt (text : BitVec 32) : Handlers := ⟨text, text + 28, text + 38, text + 48⟩

/-! ## Interrupts -/

inductive Irq where
  | timer | keyboard | spurious
deriving DecidableEq

namespace Irq

def vector : Irq → BitVec 8
  | .timer => 0x20
  | .keyboard => 0x21
  | .spurious => 0x27

def function : Irq → CFunction
  | .timer => .irq0x20
  | .keyboard => .irq0x21
  | .spurious => .irq0x27

/-- The offset of its entry point. -/
def entry : Irq → BitVec 32
  | .timer => 28
  | .keyboard => 38
  | .spurious => 48

end Irq

/-- Where the gate of a vector leads; type 0xe is an interrupt gate. -/
def target (text : BitVec 32) (v : BitVec 8) : Cpu.Target :=
  let e := initGate (handlersAt text) v.toNat
  ⟨e.selector, e.offset, e.typeAttr.extractLsb' 0 4 == 0xe⟩

/-! ## The system -/

/-- What one instruction comes to: it completes, or its operand's page is not present. -/
inductive Outcome (C D : Type) where
  | next (c : C) (data : D)
  | fault (addr err : BitVec 32) (c : C)

structure Compiled (P D : Type) where
  /-- Where the linker puts the section of intr_handler.s. -/
  text : BitVec 32
  /-- The program that is interrupted. -/
  program : P → D → Outcome P D
  /-- It lets interrupts in. -/
  enabled : P → Bool
  /-- Its instructions. -/
  exec : Cpu → D → Outcome Cpu D
  /-- The states of the processor that stand for a state of the program. -/
  Stands : P → Cpu → Prop
  /-- What irq_0x20, irq_0x21 and irq_0x27 do. -/
  irq : Irq → D → D
  /-- What page_fault does. -/
  pageFault : BitVec 32 → BitVec 32 → D → D
  /-- The processor behind the `ret` of a function that was entered in a state. -/
  returned : CFunction → Cpu → D → Cpu

structure Sys (D : Type) where
  cpu : Cpu
  data : D

inductive Event where
  | instr
  | irq (n : Irq)

variable {P D : Type}

namespace Compiled

/-- The processor where a function is entered: the return address is pushed. -/
def entered (c : Cpu) : Cpu := c.push (c.eip + 5)

/-- What a function does to the data; page_fault finds its arguments on the stack. -/
def effect (k : Compiled P D) : CFunction → Cpu → D → D
  | .pageFault, c, data =>
      k.pageFault (c.stack.load32 (c.esp.toNat + 4)) (c.stack.load32 (c.esp.toNat + 8)) data
  | .irq0x20, _, data => k.irq .timer data
  | .irq0x21, _, data => k.irq .keyboard data
  | .irq0x27, _, data => k.irq .spurious data

/-- An instruction of intr_handler.s. -/
def instr (k : Compiled P D) (s : Sys D) (i : Instr) : Sys D :=
  let c := s.cpu
  match i with
  | .cli => ⟨c.cli.next i.size, s.data⟩
  | .sti => ⟨{ c.sti with eip := c.eip + i.size }, s.data⟩
  | .iret => ⟨c.iret, s.data⟩
  | .pushal => ⟨c.pushal.next i.size, s.data⟩
  | .popal => ⟨c.popal.next i.size, s.data⟩
  | .pushl r => ⟨(c.push (c.regs r)).next i.size, s.data⟩
  | .popl r => ⟨(c.pop r).next i.size, s.data⟩
  | .movl src dst => ⟨(c.setReg dst (c.regs src)).next i.size, s.data⟩
  | .loadl disp base dst =>
      ⟨(c.setReg dst (c.stack.load32 (c.regs base + disp).toNat)).next i.size, s.data⟩
  | .movCr2 dst => ⟨(c.setReg dst c.cr2).next i.size, s.data⟩
  | .addl n r => ⟨(c.addl n r).next i.size, s.data⟩
  | .call f => ⟨k.returned f (entered c) s.data, k.effect f (entered c) s.data⟩

def step (k : Compiled P D) (s : Sys D) : Event → Option (Sys D)
  | .irq n =>
      if s.cpu.interruptible then some ⟨s.cpu.deliver (target k.text n.vector) none, s.data⟩
      else none
  | .instr =>
      match fetch k.text s.cpu.eip with
      | some i => some (k.instr s i)
      | none =>
          match k.exec s.cpu s.data with
          | .next c data => some ⟨c, data⟩
          | .fault addr err c =>
              some ⟨({ c with cr2 := addr }).deliver (target k.text 0x0e) (some err), s.data⟩

/-! ## The calling convention -/

/-- A function of `n` words of arguments returns: what the caller may rely on. -/
structure Returns (n : Nat) (c c' : Cpu) : Prop where
  eip : c'.eip = c.top
  esp : c'.esp = c.drop.esp
  stack : ∀ a, c.esp.toNat + 4 + 4 * n ≤ a → c'.stack.read a = c.stack.read a
  masked : c'.eflags.getLsbD 9 = c.eflags.getLsbD 9
  cr2 : c'.cr2 = c.cr2

/-- The words of a function's arguments. -/
def argWords : CFunction → Nat
  | .pageFault => 2
  | .irq0x20 => 0
  | .irq0x21 => 0
  | .irq0x27 => 0

/-- What the stubs rely on. -/
structure Sound (k : Compiled P D) : Prop where
  /-- The functions keep the calling convention, and do not fault. -/
  returns : ∀ f c data, Returns (argWords f) c (k.returned f c data)
  /-- The program's instructions are not in the section, and leave 64 bytes of stack. -/
  outside : ∀ p c, k.Stands p c → fetch k.text c.eip = none
  room : ∀ p c, k.Stands p c → 64 ≤ c.esp.toNat
  /-- The program does not rely on the stack below `%esp`. -/
  resumes : ∀ p c c', k.Stands p c → c.shadow = false → Cpu.Resumes c c' → k.Stands p c'
  enabled : ∀ p c, k.Stands p c → k.enabled p = c.interruptible
  /-- Its instructions do what the program does. -/
  next : ∀ p c data p' data', k.Stands p c → k.program p data = .next p' data' →
    ∃ c', k.exec c data = .next c' data' ∧ k.Stands p' c'
  fault : ∀ p c data addr err p', k.Stands p c → k.program p data = .fault addr err p' →
    ∃ c', k.exec c data = .fault addr err c' ∧ c'.shadow = false ∧ k.Stands p' c'

end Compiled

/-! ## The system without stubs -/

/-- The program with its interrupts as single steps; a page fault is pending until it is
served. -/
structure Atomic (P D : Type) where
  prog : P
  pending : Option (BitVec 32 × BitVec 32)
  data : D

inductive AtomicEvent where
  | instr
  | irq (n : Irq)
  | pageFault

def Compiled.atomicStep (k : Compiled P D) (s : Atomic P D) : AtomicEvent → Option (Atomic P D)
  | .instr =>
      match s.pending with
      | some _ => none
      | none =>
          match k.program s.prog s.data with
          | .next p data => some ⟨p, none, data⟩
          | .fault addr err p => some ⟨p, some (addr, err), s.data⟩
  | .irq n => if k.enabled s.prog then some { s with data := k.irq n s.data } else none
  | .pageFault =>
      match s.pending with
      | some (addr, err) => some ⟨s.prog, none, k.pageFault addr err s.data⟩
      | none => none

end ListaOS.Interrupt
