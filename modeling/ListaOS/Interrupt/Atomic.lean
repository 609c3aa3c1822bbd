/-
  Interrupts are single steps of the program.

  `FaultAt` and `IrqAt` say what holds at each instruction of an entry point: which words it has
  pushed over the interrupted program, and which registers it has yet to restore. Every
  instruction leads from one to the next (`FaultAt.step`, `IrqAt.step`), and the last resumes the
  program. Interrupts are off in the entry points but for the first instruction of
  page_fault_handler, behind a trap gate. `stubs_refine`: any run of instructions and interrupts
  is a run of the program with its interrupts as single steps.
-/
import ListaOS.Interrupt.Stubs
import ListaOS.Lib.Run

namespace ListaOS.Interrupt

open Lib Cpu

variable {P D : Type} {k : Compiled P D}

/-- Interrupts are off. -/
def Off (c : Cpu) : Prop := c.eflags.getLsbD 9 = false

theorem Off.interruptible {c : Cpu} (h : Off c) : c.interruptible = false := by
  unfold Cpu.interruptible
  rw [h]
  rfl

/-- At offset `o` of the section, with the words `ws` over the program `ctx`. -/
structure At (text : BitVec 32) (ctx : Cpu) (o : BitVec 32) (ws : List (BitVec 32)) (c : Cpu) :
    Prop where
  eip : c.eip = text + o
  stack : Over ctx c ws
  cr2 : c.cr2 = ctx.cr2

namespace At

variable {text o : BitVec 32} {ctx c : Cpu} {ws ws' : List (BitVec 32)}

/-- One instruction on. -/
theorem next (h : At text ctx o ws c) (c' : Cpu) (size : BitVec 32) (hover : Over ctx c' ws')
    (heip : c'.eip = c.eip) (hcr2 : c'.cr2 = c.cr2) :
    At text ctx (o + size) ws' (c'.next size) where
  eip := by
    show c'.eip + size = text + (o + size)
    rw [heip, h.eip, BitVec.add_assoc]
  stack := hover.congr rfl rfl
  cr2 := hcr2.trans h.cr2

theorem fetch (h : At text ctx o ws c) : Interrupt.fetch text c.eip = code.lookup o := by
  unfold Interrupt.fetch
  rw [h.eip, BitVec.add_comm, BitVec.add_sub_cancel]

theorem step {k : Compiled P D} (h : At k.text ctx o ws c) {i : Instr}
    (hi : code.lookup o = some i) (data : D) :
    k.step ⟨c, data⟩ .instr = some (k.instr ⟨c, data⟩ i) := by
  unfold Compiled.step
  dsimp only
  rw [h.fetch, hi]

/-- The stack below the words. -/
theorem room (h : At text ctx o ws c) {n : Nat} (hctx : n + 4 * ws.length ≤ ctx.esp.toNat) :
    n ≤ c.esp.toNat := by
  have hdepth := h.stack.depth
  omega

end At

/-! ## The entry points of the IRQs -/

/-- The state with `n` instructions of the entry point to go. -/
inductive IrqAt (text : BitVec 32) (n : Irq) (ctx : Cpu) : Nat → Cpu → Prop where
  | cli {c} : At text ctx n.entry ctx.frame c → SameRegs ctx c → Off c → IrqAt text n ctx 6 c
  | pushal {c} : At text ctx (n.entry + 1) ctx.frame c → SameRegs ctx c → Off c →
      IrqAt text n ctx 5 c
  | call {c s} : At text ctx (n.entry + 2) (s.saved ++ ctx.frame) c → SameRegs ctx s → Off c →
      IrqAt text n ctx 4 c
  | popal {c s} : At text ctx (n.entry + 7) (s.saved ++ ctx.frame) c → SameRegs ctx s → Off c →
      IrqAt text n ctx 3 c
  | sti {c} : At text ctx (n.entry + 8) ctx.frame c → SameRegs ctx c → Off c →
      IrqAt text n ctx 2 c
  | iret {c} : At text ctx (n.entry + 9) ctx.frame c → SameRegs ctx c → c.shadow = true →
      IrqAt text n ctx 1 c
  | resumed {c} : Resumes ctx c → c.cr2 = ctx.cr2 → IrqAt text n ctx 0 c

/-- What the function of an IRQ may have done before `n` instructions to go. -/
def irqData (k : Compiled P D) (n : Irq) (left : Nat) (data : D) : D :=
  if left = 4 then k.irq n data else data

/-- Where the return address of a call lies. -/
theorem At.entered {text o : BitVec 32} {ctx c : Cpu} {ws : List (BitVec 32)}
    (h : At text ctx o ws c) (hroom : 4 + 4 * ws.length ≤ ctx.esp.toNat) :
    Over ctx (Compiled.entered c) ((c.eip + 5) :: ws) := h.stack.push _ (h.room hroom)

/-- A function has returned. -/
theorem At.returned {text o : BitVec 32} {ctx c c' : Cpu} {args ws : List (BitVec 32)}
    (h : At text ctx o (args ++ ws) c) (hroom : 4 + 4 * (args ++ ws).length ≤ ctx.esp.toNat)
    (hret : Compiled.Returns args.length (Compiled.entered c) c') :
    ∃ args', args'.length = args.length ∧ At text ctx (o + 5) (args' ++ ws) c' := by
  have hentered := h.entered hroom
  have hkept : ∀ a, (Compiled.entered c).drop.esp.toNat + 4 * args.length ≤ a →
      c'.stack.read a = (Compiled.entered c).drop.stack.read a := by
    intro a ha
    have hesp : (Compiled.entered c).drop.esp = (Compiled.entered c).esp + 4 :=
      (Compiled.entered c).setReg_self .esp _
    rw [hesp, hentered.toNat_esp_drop] at ha
    exact hret.stack a ha
  obtain ⟨args', hlen, hover⟩ := hentered.drop.returns hret.esp hkept
  refine ⟨args', hlen, ?_, hover, hret.cr2.trans h.cr2⟩
  rw [hret.eip, hentered.top, h.eip, BitVec.add_assoc]

theorem IrqAt.interruptible {text : BitVec 32} {n : Irq} {ctx c : Cpu} {left : Nat}
    (h : IrqAt text n ctx (left + 1) c) : c.interruptible = false := by
  cases h with
  | cli _ _ hoff => exact hoff.interruptible
  | pushal _ _ hoff => exact hoff.interruptible
  | call _ _ hoff => exact hoff.interruptible
  | popal _ _ hoff => exact hoff.interruptible
  | sti _ _ hoff => exact hoff.interruptible
  | iret _ _ hshadow =>
    unfold Cpu.interruptible
    rw [hshadow]
    exact Bool.and_false _

/-- One instruction of an IRQ's entry point. -/
theorem IrqAt.step (hk : k.Sound) {n : Irq} {ctx c : Cpu} (hroom : 48 ≤ ctx.esp.toNat) {left : Nat}
    (h : IrqAt k.text n ctx (left + 1) c) (data : D) :
    ∃ c', k.step ⟨c, data⟩ .instr = some ⟨c', irqData k n (left + 1) data⟩ ∧
      IrqAt k.text n ctx left c' := by
  have hframe : ctx.frame.length = 3 := rfl
  cases h with
  | cli h hregs _ =>
    refine ⟨c.cli.next 1, h.step (i := .cli) (by cases n <;> rfl) data, ?_⟩
    exact .pushal (h.next c.cli 1 (h.stack.congr rfl rfl) rfl rfl) hregs (getLsbD_cli c)
  | pushal h hregs hoff =>
    refine ⟨c.pushal.next 1, h.step (i := .pushal) (by cases n <;> rfl) data, ?_⟩
    have hover := h.stack.pushal (h.room (by omega))
    have hnext := h.next c.pushal 1 hover rfl rfl
    rw [BitVec.add_assoc] at hnext
    exact .call hnext hregs hoff
  | call h hregs hoff =>
    have hret := hk.returns n.function (Compiled.entered c) data
    have hargs : Compiled.argWords n.function = 0 := by cases n <;> rfl
    rw [hargs] at hret
    have hdeep : 4 + 4 * 11 ≤ ctx.esp.toNat := by omega
    obtain ⟨args', hlen, hat⟩ := @At.returned k.text _ ctx c _ [] _ h hdeep hret
    obtain rfl := List.eq_nil_of_length_eq_zero hlen
    rw [BitVec.add_assoc] at hat
    refine ⟨_, ?_, .popal hat hregs (hret.masked.trans hoff)⟩
    rw [h.step (i := .call n.function) (by cases n <;> rfl) data]
    cases n <;> rfl
  | popal h hregs hoff =>
    refine ⟨c.popal.next 1, h.step (i := .popal) (by cases n <;> rfl) data, ?_⟩
    obtain ⟨hover, hback⟩ := h.stack.popal
    have hnext := h.next c.popal 1 hover rfl rfl
    rw [BitVec.add_assoc] at hnext
    have hnow : SameRegs ctx (c.popal.next 1) := by
      intro r hr
      rw [regs_next, hback r hr]
      exact hregs r hr
    exact .sti hnext hnow hoff
  | sti h hregs _ =>
    refine ⟨{ c.sti with eip := c.eip + 1 }, h.step (i := .sti) (by cases n <;> rfl) data, ?_⟩
    have hnext : At k.text ctx (n.entry + 9) ctx.frame { c.sti with eip := c.eip + 1 } := by
      refine ⟨?_, h.stack.congr rfl rfl, h.cr2⟩
      show c.eip + 1 = _
      rw [h.eip, BitVec.add_assoc, BitVec.add_assoc]
      rfl
    exact .iret hnext hregs rfl
  | iret h hregs _ =>
    refine ⟨c.iret, h.step (i := .iret) (by cases n <;> rfl) data, ?_⟩
    exact .resumed (h.stack.iret hregs) h.cr2

/-- The gate of an IRQ is an interrupt gate, to its entry point. -/
theorem target_irq (text : BitVec 32) (n : Irq) :
    (target text n.vector).offset = text + n.entry ∧ (target text n.vector).clears = true := by
  have hclears : ((0x8e : BitVec 8).extractLsb' 0 4 == 0xe) = true := by decide
  cases n with
  | timer => exact ⟨offset_entry ⟨0x20, (handlersAt text).irq0x20, 0x08, 0x8e⟩, hclears⟩
  | keyboard => exact ⟨offset_entry ⟨0x21, (handlersAt text).irq0x21, 0x08, 0x8e⟩, hclears⟩
  | spurious => exact ⟨offset_entry ⟨0x27, (handlersAt text).irq0x27, 0x08, 0x8e⟩, hclears⟩

theorem IrqAt.deliver (text : BitVec 32) (n : Irq) (c : Cpu) (hroom : 16 ≤ c.esp.toNat) :
    IrqAt text n c 6 (c.deliver (target text n.vector) none) := by
  obtain ⟨hoffset, hclears⟩ := target_irq text n
  refine .cli ⟨hoffset, Over.deliver c _ none hroom, rfl⟩ (fun r hr => regs_deliver c _ none hr) ?_
  rw [Off, getLsbD_deliver, hclears]
  rfl

/-! ## The entry point of page faults -/

/-- The registers of `ctx`, but for `%ebp`, which points at its saved value. -/
structure Based (ctx c : Cpu) : Prop where
  others : ∀ r, r ≠ .esp → r ≠ .ebp → c.regs r = ctx.regs r
  base : (c.regs .ebp).toNat + 20 = ctx.esp.toNat

/-- The error code over the frame. -/
def errorFrame (ctx : Cpu) (err : BitVec 32) : List (BitVec 32) := err :: ctx.frame

/-- `%ebp` over the error code. -/
def baseFrame (ctx : Cpu) (err : BitVec 32) : List (BitVec 32) :=
  ctx.regs .ebp :: errorFrame ctx err

/-- The state with `n` instructions of page_fault_handler to go. -/
inductive FaultAt (text : BitVec 32) (ctx : Cpu) (err : BitVec 32) : Nat → Cpu → Prop where
  | cli {c} : At text ctx 0 (errorFrame ctx err) c → SameRegs ctx c →
      c.eflags.getLsbD 9 = ctx.eflags.getLsbD 9 → FaultAt text ctx err 15 c
  | pushEbp {c} : At text ctx 1 (errorFrame ctx err) c → SameRegs ctx c → Off c →
      FaultAt text ctx err 14 c
  | movEbp {c} : At text ctx 2 (baseFrame ctx err) c → SameRegs ctx c → Off c →
      FaultAt text ctx err 13 c
  | pushal {c} : At text ctx 4 (baseFrame ctx err) c → Based ctx c → Off c →
      FaultAt text ctx err 12 c
  | loadErr {c s} : At text ctx 5 (s.saved ++ baseFrame ctx err) c → Based ctx s →
      c.regs .ebp = s.regs .ebp → Off c → FaultAt text ctx err 11 c
  | pushErr {c s} : At text ctx 8 (s.saved ++ baseFrame ctx err) c → Based ctx s →
      c.regs .eax = err → Off c → FaultAt text ctx err 10 c
  | movCr2 {c s} : At text ctx 9 (err :: (s.saved ++ baseFrame ctx err)) c → Based ctx s → Off c →
      FaultAt text ctx err 9 c
  | pushCr2 {c s} : At text ctx 12 (err :: (s.saved ++ baseFrame ctx err)) c → Based ctx s →
      c.regs .eax = ctx.cr2 → Off c → FaultAt text ctx err 8 c
  | call {c s} : At text ctx 13 (ctx.cr2 :: err :: (s.saved ++ baseFrame ctx err)) c →
      Based ctx s → Off c → FaultAt text ctx err 7 c
  | dropArgs {c s x y} : At text ctx 18 (x :: y :: (s.saved ++ baseFrame ctx err)) c →
      Based ctx s → Off c → FaultAt text ctx err 6 c
  | popal {c s} : At text ctx 21 (s.saved ++ baseFrame ctx err) c → Based ctx s → Off c →
      FaultAt text ctx err 5 c
  | popEbp {c} : At text ctx 22 (baseFrame ctx err) c → Based ctx c → Off c →
      FaultAt text ctx err 4 c
  | dropErr {c} : At text ctx 23 (errorFrame ctx err) c → SameRegs ctx c → Off c →
      FaultAt text ctx err 3 c
  | sti {c} : At text ctx 26 ctx.frame c → SameRegs ctx c → Off c → FaultAt text ctx err 2 c
  | iret {c} : At text ctx 27 ctx.frame c → SameRegs ctx c → c.shadow = true →
      FaultAt text ctx err 1 c
  | resumed {c} : Resumes ctx c → c.cr2 = ctx.cr2 → FaultAt text ctx err 0 c

/-- What page_fault may have done before `n` instructions to go. -/
def faultData (k : Compiled P D) (addr err : BitVec 32) (left : Nat) (data : D) : D :=
  if left = 7 then k.pageFault addr err data else data

/-- Only the first instruction lets interrupts in. -/
theorem FaultAt.interruptible {text err : BitVec 32} {ctx c : Cpu} {left : Nat}
    (h : FaultAt text ctx err (left + 1) c) (hleft : left ≠ 14) : c.interruptible = false := by
  cases h with
  | cli => exact absurd rfl hleft
  | pushEbp _ _ hoff => exact hoff.interruptible
  | movEbp _ _ hoff => exact hoff.interruptible
  | pushal _ _ hoff => exact hoff.interruptible
  | loadErr _ _ _ hoff => exact hoff.interruptible
  | pushErr _ _ _ hoff => exact hoff.interruptible
  | movCr2 _ _ hoff => exact hoff.interruptible
  | pushCr2 _ _ _ hoff => exact hoff.interruptible
  | call _ _ hoff => exact hoff.interruptible
  | dropArgs _ _ hoff => exact hoff.interruptible
  | popal _ _ hoff => exact hoff.interruptible
  | popEbp _ _ hoff => exact hoff.interruptible
  | dropErr _ _ hoff => exact hoff.interruptible
  | sti _ _ hoff => exact hoff.interruptible
  | iret _ _ hshadow =>
    unfold Cpu.interruptible
    rw [hshadow]
    exact Bool.and_false _

/-- `addl $4, %esp` drops a word. -/
theorem Over.addl_four {ctx c : Cpu} {w : BitVec 32} {ws : List (BitVec 32)}
    (h : Over ctx c (w :: ws)) : Over ctx (c.addl 4 .esp) ws := h.drop.congr rfl rfl

/-- `addl $8, %esp` drops two. -/
theorem Over.addl_eight {ctx c : Cpu} {w x : BitVec 32} {ws : List (BitVec 32)}
    (h : Over ctx c (w :: x :: ws)) : Over ctx (c.addl 8 .esp) ws := by
  refine h.drop.drop.congr ?_ rfl
  have hfirst : c.drop.esp = c.esp + 4 := c.setReg_self .esp _
  have hboth : c.drop.drop.esp = c.drop.esp + 4 := c.drop.setReg_self .esp _
  have hadd : (c.addl 8 .esp).esp = c.esp + 8 := c.setReg_self .esp _
  rw [hboth, hfirst, hadd, BitVec.add_assoc]
  rfl

/-- One instruction of page_fault_handler. -/
theorem FaultAt.step (hk : k.Sound) {ctx c : Cpu} {err : BitVec 32} (hroom : 64 ≤ ctx.esp.toNat)
    {left : Nat} (h : FaultAt k.text ctx err (left + 1) c) (data : D) :
    ∃ c', k.step ⟨c, data⟩ .instr = some ⟨c', faultData k ctx.cr2 err (left + 1) data⟩ ∧
      FaultAt k.text ctx err left c' := by
  cases h with
  | cli h hregs _ =>
    refine ⟨c.cli.next 1, h.step (i := .cli) rfl data, ?_⟩
    exact .pushEbp (h.next c.cli 1 (h.stack.congr rfl rfl) rfl rfl) hregs (getLsbD_cli c)
  | pushEbp h hregs hoff =>
    refine ⟨(c.push (c.regs .ebp)).next 1, h.step (i := .pushl .ebp) rfl data, ?_⟩
    have hover := h.stack.push (c.regs .ebp) (h.room (show 4 + 4 * 4 ≤ _ by omega))
    rw [hregs .ebp (by decide)] at hover
    refine .movEbp (h.next (c.push (c.regs .ebp)) 1 ?_ rfl rfl) (fun r hr => ?_) hoff
    · rw [hregs .ebp (by decide)]
      exact hover
    · exact (c.push_of_ne (c.regs .ebp) hr).trans (hregs r hr)
  | movEbp h hregs hoff =>
    refine ⟨(c.setReg .ebp c.esp).next 2, h.step (i := .movl .esp .ebp) rfl data, ?_⟩
    refine .pushal (h.next _ 2 (h.stack.congr (c.setReg_of_ne (by decide) _) rfl) rfl rfl)
      ⟨fun r hr hbp => ?_, ?_⟩ hoff
    · exact (c.setReg_of_ne hbp _).trans (hregs r hr)
    · have hdepth : c.esp.toNat + 4 * 5 = ctx.esp.toNat := h.stack.depth
      have hbase : ((c.setReg .ebp c.esp).next 2).regs .ebp = c.esp := c.setReg_self .ebp _
      rw [hbase]
      exact hdepth
  | pushal h hbased hoff =>
    refine ⟨c.pushal.next 1, h.step (i := .pushal) rfl data, ?_⟩
    have hover := h.stack.pushal (h.room (show 32 + 4 * 5 ≤ _ by omega))
    have hebp : (c.pushal.next 1).regs .ebp = c.regs .ebp := c.regs_pushal (r := .ebp) (by decide)
    exact .loadErr (h.next c.pushal 1 hover rfl rfl) hbased hebp hoff
  | @loadErr _ s h hbased hebp hoff =>
    refine ⟨(c.setReg .eax (c.stack.load32 (c.regs .ebp + 4).toNat)).next 3,
      h.step (i := .loadl 4 .ebp .eax) rfl data, ?_⟩
    refine .pushErr (h.next _ 3 (h.stack.congr (c.setReg_of_ne (by decide) _) rfl) rfl rfl) hbased
      ?_ hoff
    -- eight registers and %ebp lie below the error code
    have hdepth : c.esp.toNat + 4 * 13 = ctx.esp.toNat := h.stack.depth
    have hbase := hbased.base
    have hlt := ctx.esp.isLt
    have haddr : (c.regs .ebp + 4).toNat = c.esp.toNat + 4 * 9 := by
      rw [hebp, toNat_add_four (by omega)]
      omega
    have hword : c.stack.load32 (c.esp.toNat + 4 * 9) = err :=
      h.stack.words.2.2.2.2.2.2.2.2.2.1
    rw [haddr, hword]
    exact c.setReg_self .eax _
  | pushErr h hbased heax hoff =>
    refine ⟨(c.push (c.regs .eax)).next 1, h.step (i := .pushl .eax) rfl data, ?_⟩
    have hover := h.stack.push (c.regs .eax) (h.room (show 4 + 4 * 13 ≤ _ by omega))
    rw [heax] at hover
    refine .movCr2 (h.next _ 1 ?_ rfl rfl) hbased hoff
    rw [heax]
    exact hover
  | movCr2 h hbased hoff =>
    refine ⟨(c.setReg .eax c.cr2).next 3, h.step (i := .movCr2 .eax) rfl data, ?_⟩
    refine .pushCr2 (h.next _ 3 (h.stack.congr (c.setReg_of_ne (by decide) _) rfl) rfl rfl) hbased
      ?_ hoff
    rw [h.cr2]
    exact c.setReg_self .eax _
  | pushCr2 h hbased heax hoff =>
    refine ⟨(c.push (c.regs .eax)).next 1, h.step (i := .pushl .eax) rfl data, ?_⟩
    have hover := h.stack.push (c.regs .eax) (h.room (show 4 + 4 * 14 ≤ _ by omega))
    rw [heax] at hover
    refine .call (h.next _ 1 ?_ rfl rfl) hbased hoff
    rw [heax]
    exact hover
  | call h hbased hoff =>
    have hdeep : 4 + 4 * 15 ≤ ctx.esp.toNat := by omega
    have hret := hk.returns .pageFault (Compiled.entered c) data
    obtain ⟨args', hlen, hat⟩ := @At.returned k.text _ ctx c _ [ctx.cr2, err] _ h hdeep hret
    obtain ⟨x, y, rfl⟩ := List.length_eq_two.mp hlen
    have hentered := h.entered hdeep
    refine ⟨_, ?_, .dropArgs hat hbased (hret.masked.trans hoff)⟩
    rw [h.step (i := .call .pageFault) rfl data]
    have haddr : (Compiled.entered c).stack.load32 ((Compiled.entered c).esp.toNat + 4) = ctx.cr2 :=
      hentered.words.2.1
    have herr : (Compiled.entered c).stack.load32 ((Compiled.entered c).esp.toNat + 8) = err :=
      hentered.words.2.2.1
    unfold Compiled.instr Compiled.effect faultData
    dsimp only
    rw [haddr, herr]
    rfl
  | dropArgs h hbased hoff =>
    refine ⟨(c.addl 8 .esp).next 3, h.step (i := .addl 8 .esp) rfl data, ?_⟩
    exact .popal (h.next _ 3 (Over.addl_eight h.stack) rfl rfl) hbased
      ((c.getLsbD_addl _ _).trans hoff)
  | @popal _ s h hbased hoff =>
    refine ⟨c.popal.next 1, h.step (i := .popal) rfl data, ?_⟩
    obtain ⟨hover, hback⟩ := h.stack.popal
    have hnow : Based ctx (c.popal.next 1) := by
      constructor
      case others =>
        intro r hr hbp
        rw [regs_next, hback r hr]
        exact hbased.others r hr hbp
      case base =>
        rw [regs_next, hback .ebp (by decide)]
        exact hbased.base
    exact .popEbp (h.next c.popal 1 hover rfl rfl) hnow hoff
  | popEbp h hbased hoff =>
    refine ⟨(c.pop .ebp).next 1, h.step (i := .popl .ebp) rfl data, ?_⟩
    obtain ⟨hover, hebp, hothers⟩ := h.stack.pop (r := .ebp) (by decide)
    refine .dropErr (h.next _ 1 hover rfl rfl) (fun r hr => ?_) hoff
    by_cases hbp : r = .ebp
    · rw [hbp]
      exact hebp
    · exact (hothers r hbp hr).trans (hbased.others r hr hbp)
  | dropErr h hregs hoff =>
    refine ⟨(c.addl 4 .esp).next 3, h.step (i := .addl 4 .esp) rfl data, ?_⟩
    refine .sti (h.next _ 3 (Over.addl_four h.stack) rfl rfl) (fun r hr => ?_)
      ((c.getLsbD_addl _ _).trans hoff)
    exact (c.setReg_of_ne hr _).trans (hregs r hr)
  | sti h hregs _ =>
    refine ⟨{ c.sti with eip := c.eip + 1 }, h.step (i := .sti) rfl data, ?_⟩
    have hnext : At k.text ctx 27 ctx.frame { c.sti with eip := c.eip + 1 } := by
      refine ⟨?_, h.stack.congr rfl rfl, h.cr2⟩
      show c.eip + 1 = _
      rw [h.eip, BitVec.add_assoc]
      rfl
    exact .iret hnext hregs rfl
  | iret h hregs _ =>
    refine ⟨c.iret, h.step (i := .iret) rfl data, ?_⟩
    exact .resumed (h.stack.iret hregs) h.cr2

/-- The gate of page faults is a trap gate. -/
theorem FaultAt.deliver (text err : BitVec 32) (c : Cpu) (hroom : 16 ≤ c.esp.toNat) :
    FaultAt text c err 15 (c.deliver (target text 0x0e) (some err)) := by
  have hoffset : (target text 0x0e).offset = text + 0 :=
    (offset_entry ⟨0x0e, (handlersAt text).pageFault, 0x08, 0x8f⟩).trans (BitVec.add_zero _).symm
  have hkeeps : (target text 0x0e).clears = false :=
    (by decide : ((0x8f : BitVec 8).extractLsb' 0 4 == 0xe) = false)
  refine .cli ⟨hoffset, Over.deliver c _ (some err) hroom, rfl⟩
    (fun r hr => regs_deliver c _ (some err) hr) ?_
  rw [getLsbD_deliver, hkeeps]
  rfl

/-! ## Whole runs -/

/-- The processor has to finish `left` instructions of entry points to be where `a` says; the
IRQs `owed` were let in, but their functions are still to be called. -/
inductive Unwinds (k : Compiled P D) : Cpu → Atomic P D → List Irq → Nat → Prop where
  | program {c a} : a.pending = none → k.Stands a.prog c → Unwinds k c a [] 0
  | fault {ctx c a err left} : k.Stands a.prog ctx → ctx.shadow = false →
      FaultAt k.text ctx err (left + 1) c →
      a.pending = (if 7 ≤ left + 1 then some (ctx.cr2, err) else none) → Unwinds k c a [] (left + 1)
  | irq {ctx c a n left rest} : Unwinds k ctx a [] rest → ctx.interruptible = true →
      IrqAt k.text n ctx (left + 1) c →
      Unwinds k c a (if 4 ≤ left + 1 then [n] else []) (rest + (left + 1))

/-- The IRQs among the events. -/
def taken (es : List Event) : List Irq :=
  es.filterMap fun
    | .instr => none
    | .irq n => some n

/-- The IRQs that were served. -/
def served (es : List AtomicEvent) : List Irq :=
  es.filterMap fun
    | .instr => none
    | .irq n => some n
    | .pageFault => none

theorem shadow_of_interruptible {c : Cpu} (h : c.interruptible = true) : c.shadow = false := by
  unfold Cpu.interruptible at h
  simpa using (Bool.and_eq_true_iff.mp h).2

namespace Unwinds

variable {c : Cpu} {a : Atomic P D} {owed : List Irq} {left : Nat}

/-- The data lie beside the stack. -/
theorem setData (h : Unwinds k c a owed left) (data : D) :
    Unwinds k c { a with data := data } owed left := by
  induction h with
  | program hpending hstands => exact .program hpending hstands
  | fault hstands hshadow hat hpending => exact .fault hstands hshadow hat hpending
  | irq _ hopen hat ih => exact .irq ih hopen hat

/-- Where interrupts come in, there is stack for one, and the program lets them in. -/
theorem open_spec (hk : k.Sound) (h : Unwinds k c a owed left) (hc : c.interruptible = true) :
    owed = [] ∧ 48 ≤ c.esp.toNat ∧ k.enabled a.prog = true := by
  cases h with
  | program _ hstands =>
    have hroom := hk.room _ _ hstands
    exact ⟨rfl, by omega, (hk.enabled _ _ hstands).trans hc⟩
  | @fault ctx _ _ _ left hstands hshadow hat _ =>
    by_cases hleft : left = 14
    · subst hleft
      cases hat with
      | cli h _ hflag =>
        have hroom := hk.room _ _ hstands
        have hin : ctx.interruptible = c.interruptible := by
          unfold Cpu.interruptible
          rw [hflag, hshadow, shadow_of_interruptible hc]
        exact ⟨rfl, h.room (show 48 + 4 * 4 ≤ _ by omega),
          (hk.enabled _ _ hstands).trans (hin.trans hc)⟩
    · rw [hat.interruptible hleft] at hc
      cases hc
  | irq _ _ hat =>
    rw [hat.interruptible] at hc
    cases hc

/-- An interrupt between two instructions leaves the place as it was. -/
theorem resume (hk : k.Sound) (h : Unwinds k c a owed left) (hc : c.interruptible = true)
    {c' : Cpu} (hres : Resumes c c') (hcr2 : c'.cr2 = c.cr2) : Unwinds k c' a owed left := by
  have hesp : c'.esp = c.esp := congrFun hres.regs .esp
  cases h with
  | program hpending hstands =>
    exact .program hpending (hk.resumes _ _ _ hstands (shadow_of_interruptible hc) hres)
  | @fault ctx _ _ _ left hstands hshadow hat hpending =>
    by_cases hleft : left = 14
    · subst hleft
      cases hat with
      | cli h hregs hflag =>
        obtain ⟨args', hlen, hover⟩ := @Over.returns ctx c _ c' [] h.stack hesp hres.stack
        obtain rfl := List.eq_nil_of_length_eq_zero hlen
        refine .fault hstands hshadow (.cli ⟨hres.eip.trans h.eip, hover, hcr2.trans h.cr2⟩
          (fun r hr => ?_) ?_) hpending
        · rw [hres.regs]
          exact hregs r hr
        · rw [hres.eflags]
          exact hflag
    · rw [hat.interruptible hleft] at hc
      cases hc
  | irq _ _ hat =>
    rw [hat.interruptible] at hc
    cases hc

/-- One instruction of an entry point; the call of the function is the step of the program. -/
theorem instr (hk : k.Sound) (h : Unwinds k c a owed (left + 1)) :
    ∃ c' aes a' owed', k.step ⟨c, a.data⟩ .instr = some ⟨c', a'.data⟩ ∧
      run k.atomicStep a aes = some a' ∧ Unwinds k c' a' owed' left ∧
      served aes ++ owed' = owed := by
  generalize hn : left + 1 = n at h
  cases h with
  | program => cases hn
  | @fault ctx _ _ err m hstands hshadow hat hpending =>
    obtain rfl : m = left := by omega
    obtain ⟨c', hstep, hnext⟩ := hat.step hk (hk.room _ _ hstands) a.data
    -- the state of the program behind this instruction
    have hland : ∀ a' : Atomic P D, a'.prog = a.prog →
        a'.pending = (if 7 ≤ m then some (ctx.cr2, err) else none) → Unwinds k c' a' [] m := by
      intro a' hprog hpend
      cases m with
      | zero =>
        cases hnext with
        | resumed hres _ =>
          exact .program hpend (hprog.symm ▸ hk.resumes _ _ _ hstands hshadow hres)
      | succ m => exact .fault (hprog.symm ▸ hstands) hshadow hnext hpend
    by_cases hcall : m + 1 = 7
    · obtain rfl : m = 6 := by omega
      refine ⟨c', [.pageFault], ⟨a.prog, none, k.pageFault ctx.cr2 err a.data⟩, [], hstep, ?_,
        hland _ rfl rfl, rfl⟩
      rw [run_cons]
      unfold Compiled.atomicStep
      rw [hpending]
      rfl
    · refine ⟨c', [], a, [], ?_, rfl, hland a rfl ?_, rfl⟩
      · rw [hstep, faultData, if_neg hcall]
      · rw [hpending]
        exact if_congr (by omega) rfl rfl
  | @irq ctx _ _ n m rest hctx hopen hat =>
    obtain ⟨-, hroom, henabled⟩ := hctx.open_spec hk hopen
    obtain ⟨c', hstep, hnext⟩ := hat.step hk hroom a.data
    have hland : ∀ a' : Atomic P D, Unwinds k ctx a' [] rest →
        Unwinds k c' a' (if 4 ≤ m then [n] else []) left := by
      intro a' hctx'
      cases m with
      | zero =>
        obtain rfl : left = rest := by omega
        cases hnext with
        | resumed hres hcr2 => exact hctx'.resume hk hopen hres hcr2
      | succ m =>
        obtain rfl : left = rest + (m + 1) := by omega
        exact .irq hctx' hopen hnext
    by_cases hcall : m + 1 = 4
    · obtain rfl : m = 3 := by omega
      have hirq : k.atomicStep a (.irq n) = some { a with data := k.irq n a.data } :=
        if_pos henabled
      refine ⟨c', [.irq n], { a with data := k.irq n a.data }, _, hstep, ?_,
        hland _ (hctx.setData _), rfl⟩
      rw [run_cons, hirq]
      rfl
    · refine ⟨c', [], a, _, ?_, rfl, hland a hctx, ?_⟩
      · rw [hstep, irqData, if_neg hcall]
      · exact if_congr (by omega) rfl rfl

/-- One event. -/
theorem step (hk : k.Sound) (h : Unwinds k c a owed left) {e : Event} {t : Sys D}
    (hstep : k.step ⟨c, a.data⟩ e = some t) :
    ∃ aes a' owed' left', run k.atomicStep a aes = some a' ∧ Unwinds k t.cpu a' owed' left' ∧
      t.data = a'.data ∧ served aes ++ owed' = owed ++ taken [e] := by
  cases e with
  | irq n =>
    by_cases hc : c.interruptible = true
    · obtain rfl : _ = t := Option.some.inj ((if_pos hc).symm.trans hstep)
      obtain ⟨rfl, hroom, -⟩ := h.open_spec hk hc
      exact ⟨[], a, [n], _, rfl, .irq h hc (IrqAt.deliver _ n c (by omega)), rfl, rfl⟩
    · cases (if_neg hc).symm.trans hstep
  | instr =>
    cases left with
    | succ left =>
      obtain ⟨c', aes, a', owed', hinstr, hrun, hnext, hserved⟩ := h.instr hk
      obtain rfl := Option.some.inj (hinstr.symm.trans hstep)
      exact ⟨aes, a', owed', left, hrun, hnext, rfl, hserved.trans (List.append_nil _).symm⟩
    | zero =>
      cases h with
      | program hpending hstands =>
        unfold Compiled.step at hstep
        dsimp only at hstep
        rw [hk.outside _ _ hstands] at hstep
        cases hprog : k.program a.prog a.data with
        | next p data =>
          obtain ⟨c', hexec, hstands'⟩ := hk.next _ _ _ _ _ hstands hprog
          rw [hexec] at hstep
          obtain rfl := Option.some.inj hstep
          refine ⟨[.instr], ⟨p, none, data⟩, [], 0, ?_, .program rfl hstands', rfl, rfl⟩
          rw [run_cons]
          unfold Compiled.atomicStep
          rw [hpending, hprog]
          rfl
        | fault addr err p =>
          obtain ⟨c', hexec, hshadow, hstands'⟩ := hk.fault _ _ _ _ _ _ hstands hprog
          rw [hexec] at hstep
          obtain rfl := Option.some.inj hstep
          -- only %cr2 is new
          have hnow : k.Stands p { c' with cr2 := addr } :=
            hk.resumes _ _ _ hstands' hshadow ⟨rfl, rfl, rfl, rfl, hshadow, fun _ _ => rfl⟩
          have hroom := hk.room _ _ hnow
          refine ⟨[.instr], ⟨p, some (addr, err), a.data⟩, [], 15, ?_,
            .fault hnow hshadow (FaultAt.deliver _ err _ (by omega)) rfl, rfl, rfl⟩
          rw [run_cons]
          unfold Compiled.atomicStep
          rw [hpending, hprog]
          rfl

/-- The instructions of an entry point are in the section. -/
theorem fetch_ne_none (h : Unwinds k c a owed (left + 1)) : fetch k.text c.eip ≠ none := by
  have hsome : ∀ {o : BitVec 32} {ctx : Cpu} {ws : List (BitVec 32)}, At k.text ctx o ws c →
      code.lookup o ≠ none → fetch k.text c.eip ≠ none := by
    intro o ctx ws hat ho
    rw [hat.fetch]
    exact ho
  generalize hn : left + 1 = n at h
  cases h with
  | program => cases hn
  | fault _ _ hat _ =>
    cases hat with
    | cli h => exact hsome h nofun
    | pushEbp h => exact hsome h nofun
    | movEbp h => exact hsome h nofun
    | pushal h => exact hsome h nofun
    | loadErr h => exact hsome h nofun
    | pushErr h => exact hsome h nofun
    | movCr2 h => exact hsome h nofun
    | pushCr2 h => exact hsome h nofun
    | call h => exact hsome h nofun
    | dropArgs h => exact hsome h nofun
    | popal h => exact hsome h nofun
    | popEbp h => exact hsome h nofun
    | dropErr h => exact hsome h nofun
    | sti h => exact hsome h nofun
    | iret h => exact hsome h nofun
  | @irq _ _ _ n _ _ _ _ hat =>
    cases hat with
    | cli h => exact hsome h (by cases n <;> nofun)
    | pushal h => exact hsome h (by cases n <;> nofun)
    | call h => exact hsome h (by cases n <;> nofun)
    | popal h => exact hsome h (by cases n <;> nofun)
    | sti h => exact hsome h (by cases n <;> nofun)
    | iret h => exact hsome h (by cases n <;> nofun)

/-- An IRQ comes in at the program or at the first instruction of page_fault_handler. -/
theorem left_of_open (h : Unwinds k c a owed left) (hc : c.interruptible = true) : left ≤ 15 := by
  cases h with
  | program => exact Nat.zero_le _
  | fault _ _ hat _ =>
    cases hat <;> omega
  | irq _ _ hat =>
    rw [hat.interruptible] at hc
    cases hc

theorem left_le (h : Unwinds k c a owed left) : left ≤ 21 := by
  cases h with
  | program => exact Nat.zero_le _
  | fault _ _ hat _ =>
    cases hat <;> omega
  | irq hctx hopen hat =>
    have hrest := hctx.left_of_open hopen
    cases hat <;> omega

theorem run (hk : k.Sound) {es : List Event} (h : Unwinds k c a owed left) {t : Sys D}
    (hrun : Lib.run k.step ⟨c, a.data⟩ es = some t) :
    ∃ aes a' owed' left', Lib.run k.atomicStep a aes = some a' ∧ Unwinds k t.cpu a' owed' left' ∧
      t.data = a'.data ∧ served aes ++ owed' = owed ++ taken es := by
  induction es generalizing c a owed left with
  | nil =>
    obtain rfl := Option.some.inj hrun
    exact ⟨[], a, owed, left, rfl, h, rfl, (List.append_nil _).symm⟩
  | cons e es ih =>
    obtain ⟨u, hstep, hrest⟩ := run_cons_eq_some.mp hrun
    obtain ⟨aes, b, owed₁, left₁, hfirst, hb, hdata, hserved⟩ := h.step hk hstep
    have hu : u = ⟨u.cpu, b.data⟩ := hdata ▸ rfl
    rw [hu] at hrest
    obtain ⟨bes, a', owed', left', hlast, ha', hdata', hserved'⟩ := ih hb hrest
    refine ⟨aes ++ bes, a', owed', left', ?_, ha', hdata', ?_⟩
    · rw [run_append, hfirst, Option.bind_some, hlast]
    · have hsplit : taken (e :: es) = taken [e] ++ taken es := List.filterMap_append (l := [e])
      have happend : served (aes ++ bes) = served aes ++ served bes := List.filterMap_append
      rw [happend, List.append_assoc, hserved', hsplit, ← List.append_assoc, hserved,
        List.append_assoc]

/-- The entry points return, if nothing else comes in. -/
theorem exists_return (hk : k.Sound) (h : Unwinds k c a owed left) :
    ∃ u aes a', Lib.run k.step ⟨c, a.data⟩ (List.replicate left .instr) = some u ∧
      Lib.run k.atomicStep a aes = some a' ∧ u.data = a'.data ∧ a'.pending = none ∧
      k.Stands a'.prog u.cpu ∧ served aes = owed := by
  induction left generalizing c a owed with
  | zero =>
    cases h with
    | program hpending hstands =>
      exact ⟨⟨c, a.data⟩, [], a, rfl, rfl, rfl, hpending, hstands, rfl⟩
  | succ left ih =>
    obtain ⟨c', aes, b, owed', hstep, hfirst, hb, hserved⟩ := h.instr hk
    obtain ⟨u, bes, a', hrest, hlast, hdata, hpending, hstands, hserved'⟩ := ih hb
    refine ⟨u, aes ++ bes, a', ?_, ?_, hdata, hpending, hstands, ?_⟩
    · rw [List.replicate_succ, run_cons, hstep, Option.bind_some, hrest]
    · rw [run_append, hfirst, Option.bind_some, hlast]
    · have happend : served (aes ++ bes) = served aes ++ served bes := List.filterMap_append
      rw [happend, hserved', hserved]

end Unwinds

/-! ## A program -/

/-- A program that stores to a page until the store succeeds; the data count the ticks and say
whether the page is present. -/
def storing : Compiled Unit (Nat × Bool) where
  text := 0xc0001000
  program := fun p data => if data.2 then .next p data else .fault 0x123 2 p
  enabled := fun _ => true
  exec := fun c data =>
    if data.2 then .next { c with shadow := false } data else .fault 0x123 2 { c with shadow := false }
  Stands := fun _ c =>
    c.eip = 0xc0000100 ∧ c.eflags.getLsbD 9 = true ∧ c.shadow = false ∧ 64 ≤ c.esp.toNat
  irq := fun n data => if n = .timer then (data.1 + 1, data.2) else data
  pageFault := fun _ _ data => (data.1, true)
  returned := fun _ c _ => { c.drop with eip := c.top }

theorem sound_storing : storing.Sound where
  returns := fun _ _ _ => ⟨rfl, rfl, fun _ _ => rfl, rfl, rfl⟩
  outside := by
    rintro p c ⟨heip, -, -, -⟩
    rw [heip]
    decide
  room := fun _ _ h => h.2.2.2
  resumes := by
    rintro p c c' ⟨heip, hflag, -, hroom⟩ - hres
    refine ⟨hres.eip.trans heip, ?_, hres.shadow, ?_⟩
    · rw [hres.eflags, hflag]
    · rw [show c'.esp = c.esp from congrFun hres.regs .esp]
      exact hroom
  enabled := by
    rintro p c ⟨-, hflag, hshadow, -⟩
    unfold Cpu.interruptible
    rw [hflag, hshadow]
    rfl
  next := by
    rintro p c data p' data' ⟨heip, hflag, -, hroom⟩ hprog
    refine ⟨{ c with shadow := false }, ?_, heip, hflag, rfl, hroom⟩
    revert hprog
    unfold storing
    dsimp only
    split
    · intro hprog
      cases hprog
      rfl
    · intro hprog
      cases hprog
  fault := by
    rintro p c data addr err p' ⟨heip, hflag, -, hroom⟩ hprog
    refine ⟨{ c with shadow := false }, ?_, rfl, heip, hflag, rfl, hroom⟩
    revert hprog
    unfold storing
    dsimp only
    split
    · intro hprog
      cases hprog
    · intro hprog
      cases hprog
      rfl

/-- The processor before the store. -/
def storingCpu : Cpu :=
  ⟨fun _ => 0xffbfe000, 0xc0000100, 8, 0x202, 0, false, Mem.fresh fun _ => 0⟩

theorem stands_storingCpu : storing.Stands () storingCpu := ⟨rfl, by decide, rfl, by decide⟩

/-- A tick behind the fault of the store, before page_fault_handler has run. -/
def storingTick : Sys (Nat × Bool) :=
  ⟨(({ storingCpu with cr2 := 0x123 }).deliver (target 0xc0001000 0x0e) (some 2)).deliver
    (target 0xc0001000 0x20) none, (0, false)⟩

theorem run_storing : run storing.step ⟨storingCpu, (0, false)⟩ [.instr, .irq .timer] =
    some storingTick := rfl

/-- **Interrupts are single steps.** From where the processor stands for the program, every run
of instructions and interrupts is a run of the program with its page faults and IRQs as single
steps: the data are the same, and wherever the processor is not in an entry point, it stands for
the program there. The IRQs are served in the order in which they came in, none twice, and at
most the last is still owed. -/
theorem stubs_refine (k : Compiled P D) (hk : k.Sound) (p : P) (c : Cpu) (data : D)
    (hc : k.Stands p c) (es : List Event) (t : Sys D) (hrun : run k.step ⟨c, data⟩ es = some t) :
    ∃ aes a owed, run k.atomicStep ⟨p, none, data⟩ aes = some a ∧ t.data = a.data ∧
      served aes ++ owed = taken es ∧ owed.length ≤ 1 ∧
      (fetch k.text t.cpu.eip = none → a.pending = none ∧ k.Stands a.prog t.cpu ∧ owed = []) := by
  have hstart : Unwinds k c ⟨p, none, data⟩ [] 0 := .program rfl hc
  obtain ⟨aes, a, owed, left, hatomic, h, hdata, hserved⟩ := hstart.run hk hrun
  refine ⟨aes, a, owed, hatomic, hdata, hserved, ?_, fun hfetch => ?_⟩
  · cases h with
    | program => exact Nat.zero_le _
    | fault => exact Nat.zero_le _
    | irq =>
      split
      · exact Nat.le_refl _
      · exact Nat.zero_le _
  · cases left with
    | zero =>
      cases h with
      | program hpending hstands => exact ⟨hpending, hstands, rfl⟩
    | succ left => exact absurd hfetch h.fetch_ne_none

theorem stubs_refine_storing :
    ∃ aes a owed, run storing.atomicStep ⟨(), none, (0, false)⟩ aes = some a ∧
      storingTick.data = a.data ∧ served aes ++ owed = taken [.instr, .irq .timer] ∧
      owed.length ≤ 1 ∧
      (fetch storing.text storingTick.cpu.eip = none →
        a.pending = none ∧ storing.Stands a.prog storingTick.cpu ∧ owed = []) :=
  stubs_refine storing sound_storing () storingCpu (0, false) stands_storingCpu
    [.instr, .irq .timer] storingTick run_storing

/-- **Entry points return.** Wherever a run has got to, at most 21 more instructions of the entry
points lead back to the program, a call of a C function counted as one, and every IRQ that came in
has then been served once. -/
theorem stubs_return (k : Compiled P D) (hk : k.Sound) (p : P) (c : Cpu) (data : D)
    (hc : k.Stands p c) (es : List Event) (t : Sys D) (hrun : run k.step ⟨c, data⟩ es = some t) :
    ∃ n ≤ 21, ∃ u aes a, run k.step t (List.replicate n .instr) = some u ∧
      run k.atomicStep ⟨p, none, data⟩ aes = some a ∧ u.data = a.data ∧ a.pending = none ∧
      k.Stands a.prog u.cpu ∧ served aes = taken es := by
  have hstart : Unwinds k c ⟨p, none, data⟩ [] 0 := .program rfl hc
  obtain ⟨aes, b, owed, left, hfirst, h, hdata, hserved⟩ := hstart.run hk hrun
  obtain ⟨u, bes, a, hback, hlast, hdata', hpending, hstands, hserved'⟩ := h.exists_return hk
  have ht : t = ⟨t.cpu, b.data⟩ := hdata ▸ rfl
  rw [← ht] at hback
  refine ⟨left, h.left_le, u, aes ++ bes, a, hback, ?_, hdata', hpending, hstands, ?_⟩
  · rw [run_append, hfirst, Option.bind_some, hlast]
  · have happend : served (aes ++ bes) = served aes ++ served bes := List.filterMap_append
    rw [happend, hserved', hserved]
    rfl

theorem stubs_return_storing :
    ∃ n ≤ 21, ∃ u aes a, run storing.step storingTick (List.replicate n .instr) = some u ∧
      run storing.atomicStep ⟨(), none, (0, false)⟩ aes = some a ∧ u.data = a.data ∧
      a.pending = none ∧ storing.Stands a.prog u.cpu ∧ served aes = taken [.instr, .irq .timer] :=
  stubs_return storing sound_storing () storingCpu (0, false) stands_storingCpu
    [.instr, .irq .timer] storingTick run_storing

end ListaOS.Interrupt
