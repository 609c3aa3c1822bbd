/-
  A 32-bit processor and its stack.

  `Cpu` has the registers, the flags and the bytes of the stack; the rest of memory belongs to
  the program that runs. `Over ctx c ws` says that the words `ws` were pushed since `ctx` and
  that what lay on the stack before is still there: pushes and pops keep it (`Over.push`,
  `Over.drop`), and so does the delivery of an interrupt (`Over.deliver`). When the frame is all
  that is left and the registers are back, `iret` resumes `ctx` (`Over.iret`).
-/
import ListaOS.Lib.Mem
import Mathlib.Logic.Function.Basic

namespace ListaOS.Lib

inductive Reg where
  | eax | ecx | edx | ebx | esp | ebp | esi | edi
deriving DecidableEq

structure Cpu where
  regs : Reg → BitVec 32
  eip : BitVec 32
  cs : BitVec 16
  eflags : BitVec 32
  /-- The address of the last page fault. -/
  cr2 : BitVec 32
  /-- `sti` holds interrupts back for one more instruction. -/
  shadow : Bool
  stack : Mem (BitVec 8)

namespace Cpu

def esp (c : Cpu) : BitVec 32 := c.regs .esp

def setReg (c : Cpu) (r : Reg) (x : BitVec 32) : Cpu :=
  { c with regs := Function.update c.regs r x }

def push (c : Cpu) (x : BitVec 32) : Cpu :=
  { c.setReg .esp (c.esp - 4) with stack := c.stack.store32 (c.esp - 4).toNat x }

/-- The word on top of the stack. -/
def top (c : Cpu) : BitVec 32 := c.stack.load32 c.esp.toNat

/-- The stack without it. -/
def drop (c : Cpu) : Cpu := c.setReg .esp (c.esp + 4)

def pop (c : Cpu) (r : Reg) : Cpu := c.drop.setReg r c.top

/-- `pushal` pushes `%esp` as it was. -/
def pushal (c : Cpu) : Cpu :=
  let esp := c.esp
  let c := ((c.push (c.regs .eax)).push (c.regs .ecx)).push (c.regs .edx)
  let c := ((c.push (c.regs .ebx)).push esp).push (c.regs .ebp)
  (c.push (c.regs .esi)).push (c.regs .edi)

/-- `popal` skips the saved `%esp`. -/
def popal (c : Cpu) : Cpu :=
  let c := ((c.pop .edi).pop .esi).pop .ebp
  let c := (c.drop.pop .ebx).pop .edx
  (c.pop .ecx).pop .eax

/-- The status flags that arithmetic sets: CF, PF, AF, ZF, SF and OF. -/
def statusFlags : BitVec 32 := 0x8d5

/-- What an addition sets them to. -/
def addFlags (x y : BitVec 32) : BitVec 32 :=
  let sum := x + y
  let flag (b : Bool) (i : Nat) : BitVec 32 := (BitVec.ofBool b).setWidth 32 <<< i
  flag (2 ^ 32 ≤ x.toNat + y.toNat) 0 |||
    flag ((List.range 8).countP (fun i => sum.getLsbD i) % 2 == 0) 2 |||
    flag (16 ≤ x.toNat % 16 + y.toNat % 16) 4 |||
    flag (sum == 0) 6 |||
    flag sum.msb 7 |||
    flag (x.msb == y.msb && sum.msb != x.msb) 11

def addl (c : Cpu) (x : BitVec 32) (r : Reg) : Cpu :=
  { c.setReg r (c.regs r + x) with
    eflags := c.eflags &&& ~~~statusFlags ||| addFlags (c.regs r) x &&& statusFlags }

/-- The next instruction, `size` bytes on. -/
def next (c : Cpu) (size : BitVec 32) : Cpu := { c with eip := c.eip + size, shadow := false }

@[simp] theorem regs_next (c : Cpu) (size : BitVec 32) : (c.next size).regs = c.regs := rfl

/-! ## Interrupts -/

/-- The interrupt flag. -/
def interruptFlag : BitVec 32 := 0x200

/-- The flags that every gate clears: TF, NT and VM. -/
def gateFlags : BitVec 32 := 0x24100

def cli (c : Cpu) : Cpu := { c with eflags := c.eflags &&& ~~~interruptFlag }

def sti (c : Cpu) : Cpu := { c with eflags := c.eflags ||| interruptFlag, shadow := true }

def interruptible (c : Cpu) : Bool := c.eflags.getLsbD 9 && !c.shadow

/-- Where a gate leads; an interrupt gate clears the interrupt flag, a trap gate does not. -/
structure Target where
  selector : BitVec 16
  offset : BitVec 32
  clears : Bool

/-- The processor pushes a frame and goes to the handler, with the error code of an exception. -/
def deliver (c : Cpu) (t : Target) (err : Option (BitVec 32)) : Cpu :=
  let pushed := ((c.push c.eflags).push (c.cs.setWidth 32)).push c.eip
  let pushed := match err with
    | none => pushed
    | some e => pushed.push e
  { pushed with
    cs := t.selector
    eip := t.offset
    eflags := c.eflags &&& ~~~(if t.clears then gateFlags ||| interruptFlag else gateFlags)
    shadow := false }

/-- `iret` to the same privilege level. -/
def iret (c : Cpu) : Cpu :=
  { c.drop.drop.drop with
    eip := c.top
    cs := c.drop.top.setWidth 16
    eflags := c.drop.drop.top
    shadow := false }

/-! ## Words on the stack -/

theorem toNat_sub_four {x : BitVec 32} (h : 4 ≤ x.toNat) : (x - 4).toNat = x.toNat - 4 := by
  have hfour : (4 : BitVec 32).toNat = 4 := rfl
  have hlt := x.isLt
  rw [BitVec.toNat_sub, hfour]
  omega

theorem toNat_add_four {x : BitVec 32} (h : x.toNat + 4 < 2 ^ 32) : (x + 4).toNat = x.toNat + 4 :=
  BitVec.toNat_add_of_lt h

/-- The words `ws` from `sp` on. -/
def Words (m : Mem (BitVec 8)) : Nat → List (BitVec 32) → Prop
  | _, [] => True
  | sp, w :: ws => m.load32 sp = w ∧ Words m (sp + 4) ws

theorem Words.congr {m m' : Mem (BitVec 8)} {sp : Nat} {ws : List (BitVec 32)}
    (h : Words m sp ws) (hread : ∀ a, sp ≤ a → m'.read a = m.read a) : Words m' sp ws := by
  induction ws generalizing sp with
  | nil => trivial
  | cons w ws ih =>
    obtain ⟨hw, hws⟩ := h
    exact ⟨(Mem.load32_congr fun a ha _ => hread a ha).trans hw,
      ih hws fun a ha => hread a (by omega)⟩

/-- Since `ctx` the words `ws` were pushed, and what lay on the stack then is still there. -/
structure Over (ctx c : Cpu) (ws : List (BitVec 32)) : Prop where
  depth : c.esp.toNat + 4 * ws.length = ctx.esp.toNat
  words : Words c.stack c.esp.toNat ws
  above : ∀ a, ctx.esp.toNat ≤ a → c.stack.read a = ctx.stack.read a

@[simp] theorem setReg_self (c : Cpu) (r : Reg) (x : BitVec 32) : (c.setReg r x).regs r = x :=
  Function.update_self _ _ _

theorem setReg_of_ne (c : Cpu) {r s : Reg} (h : s ≠ r) (x : BitVec 32) :
    (c.setReg r x).regs s = c.regs s := Function.update_of_ne h _ _

namespace Over

variable {ctx c c' : Cpu} {w x : BitVec 32} {ws : List (BitVec 32)}

theorem refl (c : Cpu) : Over c c [] := ⟨rfl, trivial, fun _ _ => rfl⟩

/-- The other registers do not matter. -/
theorem congr (h : Over ctx c ws) (hesp : c'.esp = c.esp) (hstack : c'.stack = c.stack) :
    Over ctx c' ws where
  depth := hesp.symm ▸ h.depth
  words := hesp.symm ▸ hstack.symm ▸ h.words
  above := fun a ha => hstack.symm ▸ h.above a ha

theorem push (h : Over ctx c ws) (x : BitVec 32) (hroom : 4 ≤ c.esp.toNat) :
    Over ctx (c.push x) (x :: ws) := by
  have hesp : (c.push x).esp = c.esp - 4 := c.setReg_self .esp _
  have hsp := toNat_sub_four hroom
  have hdepth := h.depth
  have hkept : ∀ a, c.esp.toNat ≤ a → (c.push x).stack.read a = c.stack.read a := fun a ha =>
    Mem.read_store32_of_ne _ _ (by omega)
  constructor
  case depth =>
    rw [hesp, hsp, List.length_cons]
    omega
  case words =>
    rw [hesp]
    refine ⟨Mem.load32_store32_self _ _ _, ?_⟩
    rw [hsp, Nat.sub_add_cancel hroom]
    exact h.words.congr hkept
  case above => exact fun a ha => (hkept a (by omega)).trans (h.above a ha)

theorem top (h : Over ctx c (w :: ws)) : c.top = w := h.words.1

theorem toNat_esp_drop (h : Over ctx c (w :: ws)) : (c.esp + 4).toNat = c.esp.toNat + 4 := by
  have hdepth := h.depth
  have hlt := ctx.esp.isLt
  rw [List.length_cons] at hdepth
  exact toNat_add_four (by omega)

theorem drop (h : Over ctx c (w :: ws)) : Over ctx c.drop ws := by
  have hesp : c.drop.esp = c.esp + 4 := c.setReg_self .esp _
  have hsp := h.toNat_esp_drop
  have hdepth := h.depth
  rw [List.length_cons] at hdepth
  refine ⟨?_, ?_, h.above⟩
  · rw [hesp, hsp]
    omega
  · rw [hesp, hsp]
    exact h.words.2

theorem pop (h : Over ctx c (w :: ws)) {r : Reg} (hr : r ≠ .esp) :
    Over ctx (c.pop r) ws ∧ (c.pop r).regs r = w ∧
      ∀ s, s ≠ r → s ≠ .esp → (c.pop r).regs s = c.regs s := by
  refine ⟨h.drop.congr (c.drop.setReg_of_ne hr.symm _) rfl, ?_, fun s hs hesp => ?_⟩
  · exact (c.drop.setReg_self r _).trans h.top
  · exact (c.drop.setReg_of_ne hs _).trans (c.setReg_of_ne hesp _)

end Over

theorem push_of_ne (c : Cpu) (x : BitVec 32) {r : Reg} (hr : r ≠ .esp) :
    (c.push x).regs r = c.regs r := c.setReg_of_ne hr _

/-- The registers as `pushal` leaves them, the last one on top. -/
def saved (c : Cpu) : List (BitVec 32) :=
  [c.regs .edi, c.regs .esi, c.regs .ebp, c.esp, c.regs .ebx, c.regs .edx, c.regs .ecx,
    c.regs .eax]

theorem regs_pushal (c : Cpu) {r : Reg} (hr : r ≠ .esp) : c.pushal.regs r = c.regs r := by
  unfold pushal
  dsimp only
  rw [push_of_ne _ _ hr, push_of_ne _ _ hr, push_of_ne _ _ hr, push_of_ne _ _ hr, push_of_ne _ _ hr,
    push_of_ne _ _ hr, push_of_ne _ _ hr, push_of_ne _ _ hr]

/-- A push leaves four bytes less. -/
theorem room_push {c : Cpu} {n : Nat} (x : BitVec 32) (hroom : n + 4 ≤ c.esp.toNat) :
    n ≤ (c.push x).esp.toNat := by
  have hesp : (c.push x).esp = c.esp - 4 := c.setReg_self .esp _
  rw [hesp, toNat_sub_four (by omega)]
  omega

/-- The interrupt flag is bit 9. -/
theorem getLsbD_addl (c : Cpu) (x : BitVec 32) (r : Reg) :
    (c.addl x r).eflags.getLsbD 9 = c.eflags.getLsbD 9 := by
  have hstatus : statusFlags.getLsbD 9 = false := by decide
  show (c.eflags &&& ~~~statusFlags ||| addFlags _ _ &&& statusFlags).getLsbD 9 = _
  rw [BitVec.getLsbD_or, BitVec.getLsbD_and, BitVec.getLsbD_and, BitVec.getLsbD_not, hstatus,
    Bool.and_false, Bool.or_false]
  exact Bool.and_true _

theorem getLsbD_cli (c : Cpu) : c.cli.eflags.getLsbD 9 = false := by
  have hflag : interruptFlag.getLsbD 9 = true := by decide
  show (c.eflags &&& ~~~interruptFlag).getLsbD 9 = false
  rw [BitVec.getLsbD_and, BitVec.getLsbD_not, hflag]
  exact Bool.and_false _

/-- An interrupt gate clears the flag, a trap gate leaves it. -/
theorem getLsbD_deliver (c : Cpu) (t : Target) (err : Option (BitVec 32)) :
    (c.deliver t err).eflags.getLsbD 9 = (!t.clears && c.eflags.getLsbD 9) := by
  have hset : (gateFlags ||| interruptFlag).getLsbD 9 = true := by decide
  have hclear : gateFlags.getLsbD 9 = false := by decide
  show (c.eflags &&& ~~~(if t.clears then _ else _)).getLsbD 9 = _
  rw [BitVec.getLsbD_and, BitVec.getLsbD_not]
  cases t.clears with
  | true => rw [if_pos rfl, hset]; exact Bool.and_false _
  | false =>
    rw [if_neg Bool.false_ne_true, hclear]
    exact Bool.and_true _

/-- What the processor pushes for an interrupt. -/
def frame (c : Cpu) : List (BitVec 32) := [c.eip, c.cs.setWidth 32, c.eflags]

theorem regs_deliver (c : Cpu) (t : Target) (err : Option (BitVec 32)) {r : Reg} (hr : r ≠ .esp) :
    (c.deliver t err).regs r = c.regs r := by
  have hframe : (((c.push c.eflags).push (c.cs.setWidth 32)).push c.eip).regs r = c.regs r := by
    rw [push_of_ne _ _ hr, push_of_ne _ _ hr, push_of_ne _ _ hr]
  unfold deliver
  cases err with
  | none => exact hframe
  | some e =>
    dsimp only
    rw [push_of_ne _ _ hr, hframe]

/-- `c` goes on where `ctx` was interrupted. -/
structure Resumes (ctx c : Cpu) : Prop where
  regs : c.regs = ctx.regs
  eip : c.eip = ctx.eip
  cs : c.cs = ctx.cs
  eflags : c.eflags = ctx.eflags
  shadow : c.shadow = false
  stack : ∀ a, ctx.esp.toNat ≤ a → c.stack.read a = ctx.stack.read a

/-- The registers of `c` are those of `s`, but for `%esp`. -/
def SameRegs (s c : Cpu) : Prop := ∀ r, r ≠ .esp → c.regs r = s.regs r

namespace Over

variable {ctx c s : Cpu} {ws : List (BitVec 32)}

theorem pushal (h : Over ctx c ws) (hroom : 32 ≤ c.esp.toNat) :
    Over ctx c.pushal (c.saved ++ ws) := by
  have h1 := h.push (c.regs .eax) (by omega)
  have r1 := room_push (c := c) (n := 28) (c.regs .eax) (by omega)
  have h2 := h1.push (c.regs .ecx) (by omega)
  have r2 := room_push (n := 24) (c.regs .ecx) r1
  have h3 := h2.push (c.regs .edx) (by omega)
  have r3 := room_push (n := 20) (c.regs .edx) r2
  have h4 := h3.push (c.regs .ebx) (by omega)
  have r4 := room_push (n := 16) (c.regs .ebx) r3
  have h5 := h4.push c.esp (by omega)
  have r5 := room_push (n := 12) c.esp r4
  have h6 := h5.push (c.regs .ebp) (by omega)
  have r6 := room_push (n := 8) (c.regs .ebp) r5
  have h7 := h6.push (c.regs .esi) (by omega)
  have r7 := room_push (n := 4) (c.regs .esi) r6
  exact h7.push (c.regs .edi) r7

/-- `popal` brings the registers of `s` back. -/
theorem popal (h : Over ctx c (s.saved ++ ws)) : Over ctx c.popal ws ∧ SameRegs s c.popal := by
  obtain ⟨h1, hedi, k1⟩ := h.pop (r := .edi) (by decide)
  obtain ⟨h2, hesi, k2⟩ := h1.pop (r := .esi) (by decide)
  obtain ⟨h3, hebp, k3⟩ := h2.pop (r := .ebp) (by decide)
  obtain ⟨h4, hebx, k4⟩ := h3.drop.pop (r := .ebx) (by decide)
  obtain ⟨h5, hedx, k5⟩ := h4.pop (r := .edx) (by decide)
  obtain ⟨h6, hecx, k6⟩ := h5.pop (r := .ecx) (by decide)
  obtain ⟨h7, heax, k7⟩ := h6.pop (r := .eax) (by decide)
  -- `drop` moves `%esp` alone
  have hdrop : ∀ (c : Cpu) (r : Reg), r ≠ .esp → c.drop.regs r = c.regs r := fun c r hr =>
    c.setReg_of_ne hr _
  refine ⟨h7, fun r hr => ?_⟩
  cases r
  case esp => exact absurd rfl hr
  case eax => exact heax
  case ecx => exact (k7 _ (by decide) hr).trans hecx
  case edx => exact (k7 _ (by decide) hr).trans ((k6 _ (by decide) hr).trans hedx)
  case ebx =>
    exact (k7 _ (by decide) hr).trans ((k6 _ (by decide) hr).trans ((k5 _ (by decide) hr).trans
      hebx))
  case ebp =>
    exact (k7 _ (by decide) hr).trans ((k6 _ (by decide) hr).trans ((k5 _ (by decide) hr).trans
      ((k4 _ (by decide) hr).trans ((hdrop _ _ hr).trans hebp))))
  case esi =>
    exact (k7 _ (by decide) hr).trans ((k6 _ (by decide) hr).trans ((k5 _ (by decide) hr).trans
      ((k4 _ (by decide) hr).trans ((hdrop _ _ hr).trans ((k3 _ (by decide) hr).trans hesi)))))
  case edi =>
    exact (k7 _ (by decide) hr).trans ((k6 _ (by decide) hr).trans ((k5 _ (by decide) hr).trans
      ((k4 _ (by decide) hr).trans ((hdrop _ _ hr).trans ((k3 _ (by decide) hr).trans
        ((k2 _ (by decide) hr).trans hedi))))))

/-- A function that keeps the stack behind its arguments. -/
theorem returns {c' : Cpu} {args : List (BitVec 32)} (h : Over ctx c (args ++ ws))
    (hesp : c'.esp = c.esp)
    (hkept : ∀ a, c.esp.toNat + 4 * args.length ≤ a → c'.stack.read a = c.stack.read a) :
    ∃ args', args'.length = args.length ∧ Over ctx c' (args' ++ ws) := by
  obtain ⟨hdepth, hwords, habove⟩ := h
  have hread : ∀ (sp : Nat) (args : List (BitVec 32)), Words c.stack sp (args ++ ws) →
      (∀ a, sp + 4 * args.length ≤ a → c'.stack.read a = c.stack.read a) →
      ∃ args', args'.length = args.length ∧ Words c'.stack sp (args' ++ ws) := by
    intro sp args hwords hkept
    induction args generalizing sp with
    | nil => exact ⟨[], rfl, hwords.congr hkept⟩
    | cons w args ih =>
      obtain ⟨args', hlen, hrest⟩ := ih (sp + 4) hwords.2 fun a ha =>
        hkept a (by rw [List.length_cons]; omega)
      exact ⟨c'.stack.load32 sp :: args', congrArg Nat.succ hlen, rfl, hrest⟩
  obtain ⟨args', hlen, hwords'⟩ := hread c.esp.toNat args hwords hkept
  rw [List.length_append] at hdepth
  refine ⟨args', hlen, ?_, hesp.symm ▸ hwords', fun a ha => ?_⟩
  · rw [hesp, List.length_append, hlen]
    exact hdepth
  · exact (hkept a (by omega)).trans (habove a ha)

/-- The frame lies on the stack of the interrupted program. -/
theorem deliver (c : Cpu) (t : Target) (err : Option (BitVec 32)) (hroom : 16 ≤ c.esp.toNat) :
    Over c (c.deliver t err) (err.toList ++ c.frame) := by
  have h1 := (Over.refl c).push c.eflags (by omega)
  have r1 := room_push (c := c) (n := 12) c.eflags hroom
  have h2 := h1.push (c.cs.setWidth 32) (by omega)
  have r2 := room_push (n := 8) (c.cs.setWidth 32) r1
  have h3 := h2.push c.eip (by omega)
  have r3 := room_push (n := 4) c.eip r2
  cases err with
  | none => exact h3.congr rfl rfl
  | some e => exact (h3.push e r3).congr rfl rfl

/-- **`iret` resumes** the program that was interrupted. -/
theorem iret (h : Over ctx c ctx.frame) (hregs : SameRegs ctx c) : Resumes ctx c.iret := by
  have h1 := h.drop
  have h2 := h1.drop
  have h3 := h2.drop
  have hesp : c.iret.regs .esp = ctx.regs .esp := BitVec.eq_of_toNat_eq h3.depth
  constructor
  case regs =>
    funext r
    by_cases hr : r = .esp
    · rw [hr, hesp]
    · have hkept : c.iret.regs r = c.regs r :=
        (c.drop.drop.setReg_of_ne hr _).trans ((c.drop.setReg_of_ne hr _).trans
          (c.setReg_of_ne hr _))
      rw [hkept, hregs r hr]
  case eip => exact h.top
  case cs =>
    refine (congrArg (BitVec.setWidth 16) h1.top).trans ?_
    rw [BitVec.setWidth_setWidth_of_le _ (by decide), BitVec.setWidth_eq]
  case eflags => exact h2.top
  case shadow => rfl
  case stack => exact h3.above

end Over

end Cpu

end ListaOS.Lib
