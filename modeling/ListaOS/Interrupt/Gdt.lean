/-
  The way from a vector to a handler.

  On an interrupt the processor reads the gate of the vector, then the descriptor that the gate's
  selector names in the GDT (init_protect_mode.s), and continues at the gate's offset in that
  segment (`entryPoint`). `Routes h s` says which bytes of the page at IDT_BASE lead to the
  handlers `h`; `entryPoint_of_routes`: the four vectors of idt_init then lead to their handlers,
  and no other vector leads anywhere.
-/
import ListaOS.Interrupt.Idt
import ListaOS.Paging.Boot

namespace ListaOS.Interrupt

open Lib Paging

/-! ## Segments -/

/-- What the processor takes from a segment descriptor; `last` is the last offset. -/
structure Segment where
  base : BitVec 32
  last : Nat
  present : Bool
  ring : BitVec 2
  code : Bool
deriving DecidableEq

def Segment.ofWords (low high : BitVec 32) : Segment where
  base := high.extractLsb' 24 8 ++ (high.extractLsb' 0 8 ++ low.extractLsb' 16 16)
  last :=
    let limit := (high.extractLsb' 16 4 ++ low.extractLsb' 0 16).toNat
    -- the granularity bit: the limit counts pages
    if high.getLsbD 23 then limit * 0x1000 + 0xfff else limit
  present := high.getLsbD 15
  ring := high.extractLsb' 13 2
  code := high.getLsbD 12 && high.getLsbD 11

/-- The GDT after `lgdt 24(%eax)` with `%eax` at 0xc0010800: its limit and its base. -/
def gdtr (s : Mmu) : Option (BitVec 16 × BitVec 32) := do
  let limit ← (s.translate (0xc0010800 + 24)).map s.mem.load16
  let base ← s.load (0xc0010800 + 26)
  some (limit, base)

/-- The descriptor that a selector names; the null descriptor names none. -/
def segment (s : Mmu) (selector : BitVec 16) : Option Segment := do
  let (limit, base) ← gdtr s
  if 8 ≤ selector.toNat ∧ selector.toNat / 8 * 8 + 7 ≤ limit.toNat then
    let low ← s.load (base + BitVec.ofNat 32 (selector.toNat / 8 * 8))
    let high ← s.load (base + BitVec.ofNat 32 (selector.toNat / 8 * 8) + 4)
    some (Segment.ofWords low high)
  else none

/-- The linear address where the processor continues on a vector; `none` where the gate or its
segment raises another exception. -/
def entryPoint (s : Mmu) (v : BitVec 8) : Option (BitVec 32) := do
  let e ← gate s v
  if e.present then
    let seg ← segment s e.selector
    if seg.present ∧ seg.code ∧ e.offset.toNat ≤ seg.last then some (seg.base + e.offset) else none
  else none

/-- The handler of a vector. -/
def Handlers.ofVector (h : Handlers) (v : BitVec 8) : Option (BitVec 32) :=
  if v = 0x0e then some h.pageFault
  else if v = 0x20 then some h.irq0x20
  else if v = 0x21 then some h.irq0x21
  else if v = 0x27 then some h.irq0x27
  else none

/-- The flat code segment at selector 8. -/
def kernelCode : Segment := ⟨0, 0xffffffff, true, 0, true⟩

/-! ## The GDT in memory -/

/-- The words that protect_mode_start stores. -/
structure HoldsGdt (m : Mem (BitVec 8)) : Prop where
  codeLow : m.load32 0x10808 = 0x0000ffff
  codeHigh : m.load32 0x1080c = 0x00cf9a00
  limit : m.load16 0x10818 = 23
  base : m.load32 0x1081a = 0xc0010800

theorem holdsGdt_initGdt (m : Mem (BitVec 8)) : HoldsGdt (initGdt m) := by
  have hword : ∀ (m : Mem (BitVec 8)) (a b : Nat) (x : BitVec 32), a + 4 ≤ b ∨ b + 4 ≤ a →
      (m.store32 b x).load32 a = m.load32 a := fun m a b x h =>
    Mem.load32_store32_of_disjoint _ _ h
  have hhalf : ∀ (m : Mem (BitVec 8)) (a b : Nat) (x : BitVec 16), a + 4 ≤ b ∨ b + 2 ≤ a →
      (m.store16 b x).load32 a = m.load32 a := fun m a b x h =>
    Mem.load32_congr fun j hlo hhi => Mem.read_store16_of_ne _ _ (by omega)
  unfold initGdt
  dsimp only
  constructor
  case codeLow =>
    rw [hword _ _ _ _ (by decide), hword _ _ _ _ (by decide), hhalf _ _ _ _ (by decide),
      hword _ _ _ _ (by decide), hword _ _ _ _ (by decide), hword _ _ _ _ (by decide)]
    exact Mem.load32_store32_self _ _ _
  case codeHigh =>
    rw [hword _ _ _ _ (by decide), hword _ _ _ _ (by decide), hhalf _ _ _ _ (by decide),
      hword _ _ _ _ (by decide), hword _ _ _ _ (by decide)]
    exact Mem.load32_store32_self _ _ _
  case limit =>
    rw [Mem.load16_congr (Mem.read_store32_of_ne _ _ (by decide))
        (Mem.read_store32_of_ne _ _ (by decide)),
      Mem.load16_congr (Mem.read_store32_of_ne _ _ (by decide))
        (Mem.read_store32_of_ne _ _ (by decide))]
    exact Mem.load16_store16_self _ _ _
  case base => exact Mem.load32_store32_self _ _ _

theorem HoldsGdt.congr {m m' : Mem (BitVec 8)} (h : HoldsGdt m)
    (hread : ∀ a, 0x10800 ≤ a → a < 0x10820 → m'.read a = m.read a) : HoldsGdt m' where
  codeLow := (Mem.load32_congr fun a _ _ => hread a (by omega) (by omega)).trans h.codeLow
  codeHigh := (Mem.load32_congr fun a _ _ => hread a (by omega) (by omega)).trans h.codeHigh
  limit := (Mem.load16_congr (hread _ (by decide) (by decide))
    (hread _ (by decide) (by decide))).trans h.limit
  base := (Mem.load32_congr fun a _ _ => hread a (by omega) (by omega)).trans h.base

/-! ## From the vector to the handler -/

/-- The page at IDT_BASE leads to the handlers `h`. -/
structure Routes (h : Handlers) (s : Mmu) : Prop where
  page : IdtPage s
  gates : ∀ v : BitVec 8, gateTable s v.toNat = initGate h v.toNat
  gdt : HoldsGdt s.mem

namespace Routes

variable {h : Handlers} {s : Mmu}

theorem load (hs : Routes h s) (k : Nat) (hk : k < 0x1000) {va : BitVec 32}
    (hva : va.toNat = 0x1000 * 0xc0010 + k) : s.load va = some (s.mem.load32 (0x10000 + k)) :=
  hs.page.window.load hva (by omega)

theorem gdtr (hs : Routes h s) : Interrupt.gdtr s = some (23, 0xc0010800) := by
  have hlimit : s.translate (0xc0010800 + 24) = some 0x10818 :=
    hs.page.window.translate (k := 0x818) rfl (by decide)
  unfold Interrupt.gdtr
  rw [hlimit, Option.map_some, hs.load 0x81a (by decide) rfl, Option.bind_eq_bind,
    Option.bind_some, hs.gdt.limit]
  exact congrArg (fun base => some (23, base)) hs.gdt.base

/-- Selector 8 names the flat code segment. -/
theorem segment (hs : Routes h s) : Interrupt.segment s 0x08 = some kernelCode := by
  unfold Interrupt.segment
  rw [hs.gdtr, Option.bind_eq_bind, Option.bind_some]
  dsimp only
  rw [if_pos (by decide), hs.load 0x808 (by decide) rfl, hs.load 0x80c (by decide) rfl,
    Option.bind_eq_bind, Option.bind_some, Option.bind_some, hs.gdt.codeLow, hs.gdt.codeHigh]
  rfl

end Routes

/-- A gate that idt_init set. -/
theorem entryPoint_of_gate {h : Handlers} {s : Mmu} (hs : Routes h s) {v : BitVec 8} (c : SetGate)
    (hgate : initGate h v.toNat = c.entry) (hsec : c.segSec = 0x08)
    (hflag : c.flag.getLsbD 7 = true) : entryPoint s v = some c.handler := by
  have hread : gate s v = some c.entry :=
    (hs.page.gate v).trans (congrArg some ((hs.gates v).trans hgate))
  have hsel : c.entry.selector = 0x08 := hsec
  have hpresent : c.entry.present = true := hflag
  have hlast : c.handler.toNat ≤ kernelCode.last := by
    have hlt := c.handler.isLt
    show c.handler.toNat ≤ 0xffffffff
    omega
  unfold entryPoint
  rw [hread, Option.bind_eq_bind, Option.bind_some, if_pos hpresent, hsel, hs.segment,
    Option.bind_eq_bind, Option.bind_some, offset_entry, if_pos ⟨rfl, rfl, hlast⟩]
  exact congrArg some (BitVec.zero_add _)

/-- **Every vector leads to its handler**, and those without one lead nowhere. -/
theorem entryPoint_of_routes {h : Handlers} {s : Mmu} (hs : Routes h s) (v : BitVec 8) :
    entryPoint s v = h.ofVector v := by
  unfold Handlers.ofVector
  split_ifs with h0e h20 h21 h27
  · subst h0e
    exact entryPoint_of_gate hs ⟨0x0e, h.pageFault, 0x08, 0x8f⟩ rfl rfl
      (show (0x8f : BitVec 8).getLsbD 7 = true by decide)
  · subst h20
    exact entryPoint_of_gate hs ⟨0x20, h.irq0x20, 0x08, 0x8e⟩ rfl rfl
      (show (0x8e : BitVec 8).getLsbD 7 = true by decide)
  · subst h21
    exact entryPoint_of_gate hs ⟨0x21, h.irq0x21, 0x08, 0x8e⟩ rfl rfl
      (show (0x8e : BitVec 8).getLsbD 7 = true by decide)
  · subst h27
    exact entryPoint_of_gate hs ⟨0x27, h.irq0x27, 0x08, 0x8e⟩ rfl rfl
      (show (0x8e : BitVec 8).getLsbD 7 = true by decide)
  · have hclear : initGate h v.toNat = SetGate.entry ⟨0, 0, 0, 0⟩ := by
      have hne : ∀ n < 256, v ≠ BitVec.ofNat 8 n → ¬ v.toNat = n := fun n hn hv e =>
        hv (BitVec.eq_of_toNat_eq (e.trans (Nat.mod_eq_of_lt hn).symm))
      unfold initGate
      rw [if_neg (hne 0x27 (by decide) h27), if_neg (hne 0x21 (by decide) h21),
        if_neg (hne 0x20 (by decide) h20), if_neg (hne 0x0e (by decide) h0e)]
    have hread : gate s v = some (SetGate.entry ⟨0, 0, 0, 0⟩) :=
      (hs.page.gate v).trans (congrArg some ((hs.gates v).trans hclear))
    unfold entryPoint
    rw [hread, Option.bind_eq_bind, Option.bind_some, if_neg (by decide)]

end ListaOS.Interrupt
