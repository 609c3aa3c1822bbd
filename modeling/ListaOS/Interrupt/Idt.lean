/-
  The interrupt descriptor table (libkernel/interrupt.c).

  set_idt_gate stores the five fields of a gate one by one, through the page at IDT_BASE. A run
  of such calls is a run of updates of the table (`run_setGates`); idt_init clears the 256
  gates and sets four of them (`idtInit_spec`). `gate` is what the processor reads for a
  vector.
-/
import ListaOS.Lib.Run
import ListaOS.Lib.Window
import ListaOS.Paging.Window

namespace ListaOS.Interrupt

open Lib Paging

/-- IDT_Entry. -/
structure IdtEntry where
  offsetL : BitVec 16
  selector : BitVec 16
  zero : BitVec 8
  typeAttr : BitVec 8
  offsetH : BitVec 16
deriving DecidableEq

namespace IdtEntry

/-- Where the gate leads. -/
def offset (e : IdtEntry) : BitVec 32 := e.offsetH ++ e.offsetL

/-- Bit 7 of `type_attr`. -/
def present (e : IdtEntry) : Bool := e.typeAttr.getLsbD 7

end IdtEntry

def idtBase : BitVec 32 := 0xc0010000

/-- `&idt_gate[intr_num]`. -/
def gateAddr (intrNum : BitVec 32) : BitVec 32 := idtBase + 8 * intrNum

/-- A call of set_idt_gate; the handler is its address. -/
structure SetGate where
  intrNum : BitVec 32
  handler : BitVec 32
  segSec : BitVec 16
  flag : BitVec 8

def setIdtGate (s : Mmu) (c : SetGate) : Option Mmu := do
  let s ← s.writeByte (gateAddr c.intrNum + 4) 0
  let s ← s.store16 (gateAddr c.intrNum) ((c.handler &&& 0xffff).setWidth 16)
  let s ← s.store16 (gateAddr c.intrNum + 6) ((c.handler >>> 16 &&& 0xffff).setWidth 16)
  let s ← s.store16 (gateAddr c.intrNum + 2) c.segSec
  s.writeByte (gateAddr c.intrNum + 5) c.flag

/-- The addresses that the linker gives the handlers of intr_handler.s. -/
structure Handlers where
  pageFault : BitVec 32
  irq0x20 : BitVec 32
  irq0x21 : BitVec 32
  irq0x27 : BitVec 32

/-- The calls of idt_init. -/
def idtCalls (h : Handlers) : List SetGate :=
  (List.range 256).map (fun i => ⟨BitVec.ofNat 32 i, 0, 0, 0⟩) ++
    [⟨0x0e, h.pageFault, 0x08, 0x8f⟩,
      ⟨0x20, h.irq0x20, 0x08, 0x8e⟩, ⟨0x21, h.irq0x21, 0x08, 0x8e⟩, ⟨0x27, h.irq0x27, 0x08, 0x8e⟩]

/-- idt_init; load_idt then points the processor at IDT_BASE. -/
def idtInit (h : Handlers) (s : Mmu) : Option Mmu := run setIdtGate s (idtCalls h)

/-- The entry at a physical address. -/
def readEntry (m : Mem (BitVec 8)) (a : Nat) : IdtEntry :=
  ⟨m.load16 a, m.load16 (a + 2), m.read (a + 4), m.read (a + 5), m.load16 (a + 6)⟩

/-- The gate that the processor reads for a vector. -/
def gate (s : Mmu) (v : BitVec 8) : Option IdtEntry :=
  (s.translate (gateAddr (v.setWidth 32))).map (readEntry s.mem)

/-! ## One gate -/

/-- Where the IDT lies in physical memory. -/
def idtCells : Set Nat := {a | 0x10000 ≤ a ∧ a < 0x10800}

/-- The entry that a call leaves. -/
def SetGate.entry (c : SetGate) : IdtEntry :=
  ⟨(c.handler &&& 0xffff).setWidth 16, c.segSec, 0, c.flag,
    (c.handler >>> 16 &&& 0xffff).setWidth 16⟩

/-- The halves of a handler's address make the address. -/
theorem offset_entry (c : SetGate) : c.entry.offset = c.handler := by
  refine BitVec.eq_of_getLsbD_eq fun i hi => ?_
  have hmask : ∀ j < 16, (0xffff : BitVec 32).getLsbD j = true := by decide
  have hsplit : c.entry.offset.getLsbD i =
      if i < 16 then ((c.handler &&& 0xffff).setWidth 16 : BitVec 16).getLsbD i
      else ((c.handler >>> 16 &&& 0xffff).setWidth 16 : BitVec 16).getLsbD (i - 16) :=
    BitVec.getLsbD_append
  rw [hsplit]
  split
  case isTrue hlow =>
    simp only [BitVec.getLsbD_setWidth, BitVec.getLsbD_and, hmask i hlow, hlow, decide_true,
      Bool.true_and, Bool.and_true]
  case isFalse hhigh =>
    have hlow : i - 16 < 16 := by omega
    simp only [BitVec.getLsbD_setWidth, BitVec.getLsbD_and, BitVec.getLsbD_ushiftRight,
      hmask (i - 16) hlow, hlow, decide_true, Bool.true_and, Bool.and_true]
    rw [Nat.add_sub_cancel' (Nat.le_of_not_lt hhigh)]

/-- The stores of set_idt_gate at the entry's physical address. -/
def storeEntry (m : Mem (BitVec 8)) (a : Nat) (e : IdtEntry) : Mem (BitVec 8) :=
  ((((m.write (a + 4) e.zero).store16 a e.offsetL).store16 (a + 6) e.offsetH).store16 (a + 2)
    e.selector).write (a + 5) e.typeAttr

theorem readEntry_storeEntry_self (m : Mem (BitVec 8)) (a : Nat) (e : IdtEntry) :
    readEntry (storeEntry m a e) a = e := by
  have hkeep : ∀ {m : Mem (BitVec 8)} {b : Nat} (x : BitVec 8), b ≠ a + 5 →
      (m.write (a + 5) x).read b = m.read b := fun x h => Mem.read_write_of_ne _ _ h
  have hword : ∀ (m : Mem (BitVec 8)) (b c : Nat) (x : BitVec 16), b + 2 ≤ c ∨ c + 2 ≤ b →
      (m.store16 c x).load16 b = m.load16 b := fun m b c x h =>
    Mem.load16_congr (Mem.read_store16_of_ne _ _ (by omega)) (Mem.read_store16_of_ne _ _ (by omega))
  have hlast : ∀ (m : Mem (BitVec 8)) (b : Nat) (x : BitVec 8), b + 2 ≤ a + 5 ∨ a + 6 ≤ b →
      (m.write (a + 5) x).load16 b = m.load16 b := fun m b x h =>
    Mem.load16_congr (hkeep x (by omega)) (hkeep x (by omega))
  unfold readEntry storeEntry
  rw [hlast _ _ _ (by omega), hlast _ _ _ (by omega), hlast _ _ _ (by omega),
    hkeep _ (by omega), Mem.read_write_self, hword _ _ _ _ (by omega), hword _ _ _ _ (by omega),
    Mem.load16_store16_self, Mem.load16_store16_self, hword _ _ _ _ (by omega),
    Mem.load16_store16_self, Mem.read_store16_of_ne _ _ (by omega),
    Mem.read_store16_of_ne _ _ (by omega), Mem.read_store16_of_ne _ _ (by omega),
    Mem.read_write_self]

theorem writesIn_storeEntry (m : Mem (BitVec 8)) (a : Nat) (e : IdtEntry) :
    Mem.WritesIn {b | a ≤ b ∧ b < a + 8} m (storeEntry m a e) := by
  have hin : ∀ k < 8, a + k ∈ {b | a ≤ b ∧ b < a + 8} := fun k hk => ⟨by omega, by omega⟩
  exact ((((Mem.WritesIn.write m _ (hin 4 (by decide))).trans
    (Mem.writesIn_store16 _ _ (hin 0 (by decide)) (hin 1 (by decide)))).trans
      (Mem.writesIn_store16 _ _ (hin 6 (by decide)) (hin 7 (by decide)))).trans
        (Mem.writesIn_store16 _ _ (hin 2 (by decide)) (hin 3 (by decide)))).trans
          (Mem.WritesIn.write _ _ (hin 5 (by decide)))

theorem readEntry_congr {m m' : Mem (BitVec 8)} {a : Nat}
    (h : ∀ b, a ≤ b → b < a + 8 → m'.read b = m.read b) : readEntry m' a = readEntry m a := by
  unfold readEntry
  rw [h (a + 4) (by omega) (by omega), h (a + 5) (by omega) (by omega),
    Mem.load16_congr (h a (by omega) (by omega)) (h (a + 1) (by omega) (by omega)),
    Mem.load16_congr (h (a + 2) (by omega) (by omega)) (h (a + 3) (by omega) (by omega)),
    Mem.load16_congr (h (a + 6) (by omega) (by omega)) (h (a + 7) (by omega) (by omega))]

/-! ## Through the page at IDT_BASE -/

/-- The page of the IDT and the GDT is mapped, and the table of the memory maps itself. -/
structure IdtPage (s : Mmu) : Prop where
  map : KernelMap s
  cr3 : s.cr3 = pageDirectoryBase
  window : Maps 0xc0010 0x10 1 s

namespace IdtPage

variable {s : Mmu}

/-- Stores in the page keep it mapped. -/
theorem of_cells (h : IdtPage s) {m : Mem (BitVec 8)}
    (hm : ∀ a, 0x200000 ≤ a ∨ 0x1ff000 ≤ a → m.read a = s.mem.read a) :
    IdtPage { s with mem := m } := by
  have htables : SameTables 0x200000 s { s with mem := m } := by
    refine ⟨rfl, fun a ha => hm a ?_⟩
    rw [h.cr3] at ha
    obtain ⟨hlo, -⟩ | ⟨hlo, -⟩ := ha
    · exact .inr hlo
    · exact .inl hlo
  exact ⟨htables.selfMap h.map, h.cr3, htables.maps h.map h.window (by decide)⟩

theorem toNat_gateAddr {n : BitVec 32} (hn : n.toNat < 256) {k : BitVec 32} (hk : k.toNat < 8) :
    (gateAddr n + k).toNat = 0x1000 * 0xc0010 + (8 * n.toNat + k.toNat) := by
  have hbase : idtBase.toNat = 0xc0010000 := rfl
  have height : (8 : BitVec 32).toNat = 8 := rfl
  unfold gateAddr
  rw [BitVec.toNat_add, BitVec.toNat_add, BitVec.toNat_mul, hbase, height]
  omega

/-- Field `k` of entry `n` is a byte of the page. -/
theorem writeByte (h : IdtPage s) {n : BitVec 32} (hn : n.toNat < 256) (k : BitVec 32)
    (hk : k.toNat < 8) (x : BitVec 8) :
    ∃ t, s.writeByte (gateAddr n + k) x = some t ∧ IdtPage t ∧
      t = { s with mem := s.mem.write (0x10000 + 8 * n.toNat + k.toNat) x } := by
  refine ⟨_, ?_, h.of_cells fun b hb => Mem.read_write_of_ne _ _ (by omega), rfl⟩
  rw [h.window.writeByte (toNat_gateAddr hn hk) (by omega)]
  congr 3
  omega

theorem store16 (h : IdtPage s) {n : BitVec 32} (hn : n.toNat < 256) (k : BitVec 32)
    (hk : k.toNat < 7) (x : BitVec 16) :
    ∃ t, s.store16 (gateAddr n + k) x = some t ∧ IdtPage t ∧
      t = { s with mem := s.mem.store16 (0x10000 + 8 * n.toNat + k.toNat) x } := by
  refine ⟨_, ?_, h.of_cells fun b hb => Mem.read_store16_of_ne _ _ (by omega), rfl⟩
  rw [h.window.store16 (toNat_gateAddr hn (by omega)) (by omega)]
  congr 3
  omega

/-- **set_idt_gate stores the entry.** -/
theorem setIdtGate (h : IdtPage s) {c : SetGate} (hc : c.intrNum.toNat < 256) :
    Interrupt.setIdtGate s c =
        some { s with mem := storeEntry s.mem (0x10000 + 8 * c.intrNum.toNat) c.entry } ∧
      IdtPage { s with mem := storeEntry s.mem (0x10000 + 8 * c.intrNum.toNat) c.entry } := by
  obtain ⟨s1, h1, p1, e1⟩ := h.writeByte hc 4 (by decide) 0
  obtain ⟨s2, h2, p2, e2⟩ := p1.store16 hc 0 (by decide) ((c.handler &&& 0xffff).setWidth 16)
  obtain ⟨s3, h3, p3, e3⟩ :=
    p2.store16 hc 6 (by decide) ((c.handler >>> 16 &&& 0xffff).setWidth 16)
  obtain ⟨s4, h4, p4, e4⟩ := p3.store16 hc 2 (by decide) c.segSec
  obtain ⟨s5, h5, p5, e5⟩ := p4.writeByte hc 5 (by decide) c.flag
  have hstored : s5 =
      { s with mem := storeEntry s.mem (0x10000 + 8 * c.intrNum.toNat) c.entry } := by
    rw [e5, e4, e3, e2, e1]
    rfl
  rw [show gateAddr c.intrNum + 0 = gateAddr c.intrNum from BitVec.add_zero _] at h2
  rw [← hstored]
  refine ⟨?_, p5⟩
  unfold Interrupt.setIdtGate
  rw [h1, Option.bind_eq_bind, Option.bind_some, h2, Option.bind_some, h3, Option.bind_some, h4,
    Option.bind_some, h5]

/-- What the processor reads for a vector. -/
theorem gate (h : IdtPage s) (v : BitVec 8) :
    Interrupt.gate s v = some (readEntry s.mem (0x10000 + 8 * v.toNat)) := by
  have hv : (v.setWidth 32).toNat = v.toNat := by
    rw [BitVec.toNat_setWidth]
    omega
  have hlt : (v.setWidth 32 : BitVec 32).toNat < 256 := by omega
  have haddr := toNat_gateAddr hlt (show (0 : BitVec 32).toNat < 8 by decide)
  rw [show gateAddr (v.setWidth 32) + 0 = gateAddr (v.setWidth 32) from BitVec.add_zero _,
    hv, show (0 : BitVec 32).toNat = 0 from rfl] at haddr
  rw [Interrupt.gate, h.window.translate haddr (by omega), Option.map_some]
  congr 2

end IdtPage

/-! ## Runs -/

/-- A call on the table of entries. -/
def setEntry (t : Nat → IdtEntry) (c : SetGate) : Nat → IdtEntry :=
  Function.update t c.intrNum.toNat c.entry

/-- The table that memory holds. -/
def gateTable (s : Mmu) (v : Nat) : IdtEntry := readEntry s.mem (0x10000 + 8 * v)

theorem gateTable_storeEntry (s : Mmu) (c : SetGate) :
    gateTable { s with mem := storeEntry s.mem (0x10000 + 8 * c.intrNum.toNat) c.entry } =
      setEntry (gateTable s) c := by
  funext v
  unfold setEntry gateTable
  by_cases hv : v = c.intrNum.toNat
  · rw [hv, Function.update_self]
    exact readEntry_storeEntry_self _ _ _
  · rw [Function.update_of_ne hv]
    exact readEntry_congr fun b hlo hhi =>
      (writesIn_storeEntry _ _ _).read b fun hin => by
        obtain ⟨h1, h2⟩ := hin
        omega

/-- **A run of set_idt_gate is a run of updates.** -/
theorem run_setGates {s : Mmu} (h : IdtPage s) {calls : List SetGate}
    (hcalls : ∀ c ∈ calls, c.intrNum.toNat < 256) :
    ∃ t, run setIdtGate s calls = some t ∧ IdtPage t ∧
      gateTable t = calls.foldl setEntry (gateTable s) ∧ Mem.WritesIn idtCells s.mem t.mem := by
  induction calls generalizing s with
  | nil => exact ⟨s, rfl, h, rfl, Mem.WritesIn.refl _ _⟩
  | cons c calls ih =>
    obtain ⟨hc, hrest⟩ := List.forall_mem_cons.mp hcalls
    obtain ⟨hset, hpage⟩ := h.setIdtGate hc
    obtain ⟨t, hrun, ht, htable, hw⟩ := ih hpage hrest
    refine ⟨t, run_cons_eq_some.mpr ⟨_, hset, hrun⟩, ht, ?_, ?_⟩
    · rw [htable, gateTable_storeEntry]
      rfl
    · refine Mem.WritesIn.trans ((writesIn_storeEntry _ _ _).mono ?_) hw
      rintro b ⟨hlo, hhi⟩
      exact ⟨by omega, by omega⟩

/-- The gates after idt_init. -/
def initGate (h : Handlers) (v : Nat) : IdtEntry :=
  if v = 0x27 then SetGate.entry ⟨0x27, h.irq0x27, 0x08, 0x8e⟩
  else if v = 0x21 then SetGate.entry ⟨0x21, h.irq0x21, 0x08, 0x8e⟩
  else if v = 0x20 then SetGate.entry ⟨0x20, h.irq0x20, 0x08, 0x8e⟩
  else if v = 0x0e then SetGate.entry ⟨0x0e, h.pageFault, 0x08, 0x8f⟩
  else SetGate.entry ⟨0, 0, 0, 0⟩

/-- The loop of idt_init. -/
theorem foldl_clear (t : Nat → IdtEntry) {n : Nat} (hn : n ≤ 256) {v : Nat} (hv : v < n) :
    (((List.range n).map fun i => (⟨BitVec.ofNat 32 i, 0, 0, 0⟩ : SetGate)).foldl setEntry t) v =
      SetGate.entry ⟨0, 0, 0, 0⟩ := by
  induction n with
  | zero => exact absurd hv (Nat.not_lt_zero v)
  | succ n ih =>
    have hnum : (BitVec.ofNat 32 n).toNat = n := by
      rw [BitVec.toNat_ofNat]
      omega
    rw [List.range_succ, List.map_append, List.foldl_append]
    show Function.update _ (BitVec.ofNat 32 n).toNat _ v = _
    rw [hnum]
    by_cases hvn : v = n
    · rw [hvn, Function.update_self]
      rfl
    · rw [Function.update_of_ne hvn]
      exact ih (by omega) (by omega)

/-- **idt_init** sets the four gates and clears the others, whatever the page held. -/
theorem idtInit_spec {s : Mmu} (h : IdtPage s) (handlers : Handlers) :
    ∃ t, idtInit handlers s = some t ∧ IdtPage t ∧
      (∀ v : BitVec 8, gateTable t v.toNat = initGate handlers v.toNat) ∧
      Mem.WritesIn idtCells s.mem t.mem := by
  have hcalls : ∀ c ∈ idtCalls handlers, c.intrNum.toNat < 256 := by
    intro c hc
    obtain hc | hc := List.mem_append.mp hc
    · obtain ⟨i, hi, rfl⟩ := List.mem_map.mp hc
      have hlt := List.mem_range.mp hi
      show (BitVec.ofNat 32 i).toNat < 256
      rw [BitVec.toNat_ofNat]
      omega
    · simp only [List.mem_cons, List.not_mem_nil, or_false] at hc
      obtain rfl | rfl | rfl | rfl := hc
      · exact (by decide : (0x0e : BitVec 32).toNat < 256)
      · exact (by decide : (0x20 : BitVec 32).toNat < 256)
      · exact (by decide : (0x21 : BitVec 32).toNat < 256)
      · exact (by decide : (0x27 : BitVec 32).toNat < 256)
  obtain ⟨t, hrun, ht, htable, hw⟩ := run_setGates h hcalls
  refine ⟨t, hrun, ht, fun v => ?_, hw⟩
  rw [htable, idtCalls, List.foldl_append]
  have hclear := foldl_clear (gateTable s) (Nat.le_refl 256) v.isLt
  generalize List.foldl setEntry (gateTable s) _ = cleared at hclear ⊢
  show Function.update (Function.update (Function.update (Function.update cleared 0x0e _)
    0x20 _) 0x21 _) 0x27 _ v.toNat = _
  simp only [Function.update_apply, hclear]
  rfl

end ListaOS.Interrupt
