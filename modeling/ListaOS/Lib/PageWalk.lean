/-
  Two-level page walks over physical memory, and page tables that map themselves.

  `Mmu` is a byte memory with a page directory base; a page is a 20-bit number, a
  directory entry covers 1024 pages, and bit 0 of an entry is its present bit. `store`
  writes through the translation, and is `none` where the page is not present.

  `SelfMap T W s` says that the page table is the array of 2^20 entries at `T` and that
  the 1024 pages from `W` on map that array. It is kept by every store into the array
  outside the entries of the window itself (`SelfMap.store`), so it may be edited through
  the window (`SelfMap.store_window`).
-/
import ListaOS.Lib.Mem

namespace ListaOS.Lib

/-- Physical memory and the page directory base. -/
structure Mmu where
  mem : Mem (BitVec 8)
  cr3 : BitVec 32

namespace Mmu

/-- Page frame and flags of an entry; `none` if it is not present. -/
def entry (e : BitVec 32) : Option (Nat × Nat) :=
  if e &&& 1 = 0 then none else some (e.toNat / 0x1000, e.toNat % 0x1000)

theorem entry_zero : entry 0 = none := by
  unfold entry
  rw [if_pos (by decide)]

/-- An entry made of a page address and flags. -/
theorem entry_or {x y : BitVec 32} {f : Nat} (hx : x.toNat = 0x1000 * f) (hy : y.toNat < 0x1000) :
    entry (x ||| y) = if y &&& 1 = 0 then none else some (f, y.toNat) := by
  have hx1 : x &&& 1 = 0#32 := by
    apply BitVec.eq_of_toNat_eq
    rw [BitVec.toNat_and, hx]
    show 0x1000 * f &&& 1 = 0
    rw [Nat.and_one_is_mod]
    omega
  have hlow : (x ||| y) &&& 1 = y &&& 1 := by
    rw [BitVec.and_comm, BitVec.and_or_distrib_left, BitVec.and_comm 1 x, hx1, BitVec.zero_or,
      BitVec.and_comm]
  have hval : (x ||| y).toNat = 0x1000 * f + y.toNat := by
    rw [BitVec.toNat_or, hx]
    exact (Nat.two_pow_add_eq_or_of_lt (i := 12) hy f).symm
  unfold entry
  rw [hlow, hval, Nat.mul_add_div (by decide), Nat.mul_add_mod, Nat.div_eq_of_lt hy,
    Nat.mod_eq_of_lt hy, Nat.add_zero]

def pdeAddr (s : Mmu) (v : Nat) : Nat := s.cr3.toNat + 4 * (v / 1024)

/-- Where the walk of page `v` reads its PTE. -/
def pteAddr (s : Mmu) (v : Nat) : Option Nat :=
  (entry (s.mem.load32 (s.pdeAddr v))).map fun e => e.1 * 0x1000 + 4 * (v % 1024)

def walk (s : Mmu) (v : Nat) : Option (Nat × Nat) :=
  (s.pteAddr v).bind fun a => entry (s.mem.load32 a)

def translate (s : Mmu) (va : BitVec 32) : Option Nat :=
  (s.walk (va.toNat / 0x1000)).map fun e => e.1 * 0x1000 + va.toNat % 0x1000

/-- The byte at a virtual address. -/
def readByte (s : Mmu) (va : BitVec 32) : Option (BitVec 8) := (s.translate va).map s.mem.read

/-- A 32-bit store inside one page at a virtual address. -/
def store (s : Mmu) (va x : BitVec 32) : Option Mmu :=
  (s.translate va).map fun a => { s with mem := s.mem.store32 a x }

theorem walk_of_pteAddr {s : Mmu} {v a : Nat} (h : s.pteAddr v = some a) :
    s.walk v = entry (s.mem.load32 a) := by
  rw [walk, h, Option.bind_some]

theorem store_of_translate {s : Mmu} {va : BitVec 32} {a : Nat} (h : s.translate va = some a)
    (x : BitVec 32) : s.store va x = some { s with mem := s.mem.store32 a x } := by
  rw [store, h, Option.map_some]

/-- The walk of `v` reads the directory entry of `v` only. -/
theorem pteAddr_congr {s t : Mmu} {v : Nat} (hcr3 : t.cr3 = s.cr3)
    (h : t.mem.load32 (s.pdeAddr v) = s.mem.load32 (s.pdeAddr v)) : t.pteAddr v = s.pteAddr v := by
  have haddr : t.pdeAddr v = s.pdeAddr v := by rw [pdeAddr, pdeAddr, hcr3]
  rw [pteAddr, pteAddr, haddr, h]

end Mmu

/-! ## Tables that map themselves -/

/-- Where a page table of 2^20 entries may lie: page-aligned, apart from the directory,
with its window inside the address space. -/
structure TableLayout (T W : Nat) (cr3 : BitVec 32) : Prop where
  aligned : T % 0x1000 = 0
  window : W + 1024 ≤ 2 ^ 20
  apart : cr3.toNat + 0x1000 ≤ T ∨ T + 4 * 2 ^ 20 ≤ cr3.toNat

structure SelfMap (T W : Nat) (s : Mmu) : Prop where
  layout : TableLayout T W s.cr3
  tables : ∀ v < 2 ^ 20, s.pteAddr v = some (T + 4 * v)
  pages : ∀ i < 1024, ∃ flags, s.walk (W + i) = some (T / 0x1000 + i, flags)

namespace SelfMap

variable {T W : Nat} {s : Mmu}

theorem walk_eq (h : SelfMap T W s) {v : Nat} (hv : v < 2 ^ 20) :
    s.walk v = Mmu.entry (s.mem.load32 (T + 4 * v)) :=
  Mmu.walk_of_pteAddr (h.tables v hv)

/-- Through the window, entry `v` is where the walk of `v` reads it. -/
theorem translate_window (h : SelfMap T W s) {v : Nat} (hv : v < 2 ^ 20) {va : BitVec 32}
    (hva : va.toNat = 0x1000 * W + 4 * v) : s.translate va = some (T + 4 * v) := by
  have halign := h.layout.aligned
  obtain ⟨flags, hwalk⟩ := h.pages (v / 1024) (by omega)
  have hpage : va.toNat / 0x1000 = W + v / 1024 := by omega
  have hoff : va.toNat % 0x1000 = 4 * (v % 1024) := by omega
  rw [Mmu.translate, hpage, hwalk, Option.map_some, hoff]
  congr 1
  omega

theorem store_window (h : SelfMap T W s) {v : Nat} (hv : v < 2 ^ 20) {va : BitVec 32}
    (hva : va.toNat = 0x1000 * W + 4 * v) (x : BitVec 32) :
    s.store va x = some { s with mem := s.mem.store32 (T + 4 * v) x } :=
  Mmu.store_of_translate (h.translate_window hv hva) x

/-- A store into the table leaves the directory alone. -/
theorem pteAddr_store (h : SelfMap T W s) {v : Nat} (hv : v < 2 ^ 20) (x : BitVec 32) {w : Nat}
    (hw : w < 2 ^ 20) :
    ({ s with mem := s.mem.store32 (T + 4 * v) x } : Mmu).pteAddr w = some (T + 4 * w) := by
  rw [← h.tables w hw]
  refine Mmu.pteAddr_congr (s := s) rfl ?_
  apply Mem.load32_store32_of_disjoint
  have happart := h.layout.apart
  unfold Mmu.pdeAddr
  omega

theorem walk_store_self (h : SelfMap T W s) {v : Nat} (hv : v < 2 ^ 20) (x : BitVec 32) :
    ({ s with mem := s.mem.store32 (T + 4 * v) x } : Mmu).walk v = Mmu.entry x := by
  rw [Mmu.walk_of_pteAddr (h.pteAddr_store hv x hv)]
  exact congrArg Mmu.entry (Mem.load32_store32_self _ _ _)

theorem walk_store_of_ne (h : SelfMap T W s) {v w : Nat} (hv : v < 2 ^ 20) (x : BitVec 32)
    (hw : w < 2 ^ 20) (hne : w ≠ v) :
    ({ s with mem := s.mem.store32 (T + 4 * v) x } : Mmu).walk w = s.walk w := by
  rw [Mmu.walk_of_pteAddr (h.pteAddr_store hv x hw), h.walk_eq hw]
  apply congrArg Mmu.entry
  apply Mem.load32_store32_of_disjoint
  omega

/-- Entries outside the window may be stored to. -/
theorem store (h : SelfMap T W s) {v : Nat} (hv : v < 2 ^ 20) (hout : v < W ∨ W + 1024 ≤ v)
    (x : BitVec 32) : SelfMap T W { s with mem := s.mem.store32 (T + 4 * v) x } where
  layout := h.layout
  tables := fun _ hw => h.pteAddr_store hv x hw
  pages := by
    intro i hi
    have hwin := h.layout.window
    obtain ⟨flags, hwalk⟩ := h.pages i hi
    refine ⟨flags, ?_⟩
    rw [← hwalk]
    exact h.walk_store_of_ne hv x (by omega) (by omega)

end SelfMap

end ListaOS.Lib
