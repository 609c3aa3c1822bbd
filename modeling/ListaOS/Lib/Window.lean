/-
  Windows of pages, and stores that leave the tables alone.

  `Maps W F n s` says that the `n` pages from `W` on map the frames from `F` on; loads and
  stores in the window are loads and stores at the frames. `SameTables s t` says that the
  directory and the table of a self-mapped memory hold the same bytes in `t`: every page is
  then walked as before, and the memory still maps itself.
-/
import ListaOS.Lib.PageWalk

namespace ListaOS.Lib

namespace Mmu

/-- A 32-bit load inside one page at a virtual address. -/
def load (s : Mmu) (va : BitVec 32) : Option (BitVec 32) := (s.translate va).map s.mem.load32

/-- A byte stored at a virtual address. -/
def writeByte (s : Mmu) (va : BitVec 32) (x : BitVec 8) : Option Mmu :=
  (s.translate va).map fun a => { s with mem := s.mem.write a x }

/-- A 16-bit word stored inside one page at a virtual address. -/
def store16 (s : Mmu) (va : BitVec 32) (x : BitVec 16) : Option Mmu :=
  (s.translate va).map fun a => { s with mem := s.mem.store16 a x }

theorem load_of_translate {s : Mmu} {va : BitVec 32} {a : Nat} (h : s.translate va = some a) :
    s.load va = some (s.mem.load32 a) := by
  rw [load, h, Option.map_some]

theorem walk_congr {s t : Mmu} {v : Nat} (hpte : t.pteAddr v = s.pteAddr v)
    (h : ∀ a, s.pteAddr v = some a → t.mem.load32 a = s.mem.load32 a) : t.walk v = s.walk v := by
  rw [walk, walk, hpte]
  cases ha : s.pteAddr v with
  | none => rfl
  | some a => rw [Option.bind_some, Option.bind_some, h a ha]

theorem translate_congr {s t : Mmu} {va : BitVec 32}
    (h : t.walk (va.toNat / 0x1000) = s.walk (va.toNat / 0x1000)) :
    t.translate va = s.translate va := by
  rw [translate, translate, h]

theorem translate_eq_some {s : Mmu} {va : BitVec 32} {a : Nat} :
    s.translate va = some a ↔ ∃ f flags, s.walk (va.toNat / 0x1000) = some (f, flags) ∧
      a = f * 0x1000 + va.toNat % 0x1000 := by
  rw [translate, Option.map_eq_some_iff]
  constructor
  · rintro ⟨⟨f, flags⟩, hwalk, rfl⟩
    exact ⟨f, flags, hwalk, rfl⟩
  · rintro ⟨f, flags, hwalk, rfl⟩
    exact ⟨(f, flags), hwalk, rfl⟩

theorem translate_eq_none {s : Mmu} {va : BitVec 32} :
    s.translate va = none ↔ s.walk (va.toNat / 0x1000) = none := Option.map_eq_none_iff

end Mmu

/-! ## Windows -/

/-- The `n` pages from `W` on map the frames from `F` on. -/
def Maps (W F n : Nat) (s : Mmu) : Prop := ∀ i < n, ∃ flags, s.walk (W + i) = some (F + i, flags)

namespace Maps

variable {W F n : Nat} {s t : Mmu}

/-- Offset `k` of the window is offset `k` from the first frame on. -/
theorem translate (h : Maps W F n s) {va : BitVec 32} {k : Nat} (hva : va.toNat = 0x1000 * W + k)
    (hk : k < 0x1000 * n) : s.translate va = some (0x1000 * F + k) := by
  obtain ⟨flags, hwalk⟩ := h (k / 0x1000) (by omega)
  have hpage : va.toNat / 0x1000 = W + k / 0x1000 := by omega
  have hoff : va.toNat % 0x1000 = k % 0x1000 := by omega
  rw [Mmu.translate, hpage, hwalk, Option.map_some, hoff]
  congr 1
  omega

theorem load (h : Maps W F n s) {va : BitVec 32} {k : Nat} (hva : va.toNat = 0x1000 * W + k)
    (hk : k < 0x1000 * n) : s.load va = some (s.mem.load32 (0x1000 * F + k)) :=
  Mmu.load_of_translate (h.translate hva hk)

theorem store (h : Maps W F n s) {va : BitVec 32} {k : Nat} (hva : va.toNat = 0x1000 * W + k)
    (hk : k < 0x1000 * n) (x : BitVec 32) :
    s.store va x = some { s with mem := s.mem.store32 (0x1000 * F + k) x } :=
  Mmu.store_of_translate (h.translate hva hk) x

theorem writeByte (h : Maps W F n s) {va : BitVec 32} {k : Nat} (hva : va.toNat = 0x1000 * W + k)
    (hk : k < 0x1000 * n) (x : BitVec 8) :
    s.writeByte va x = some { s with mem := s.mem.write (0x1000 * F + k) x } := by
  rw [Mmu.writeByte, h.translate hva hk, Option.map_some]

theorem store16 (h : Maps W F n s) {va : BitVec 32} {k : Nat} (hva : va.toNat = 0x1000 * W + k)
    (hk : k < 0x1000 * n) (x : BitVec 16) :
    s.store16 va x = some { s with mem := s.mem.store16 (0x1000 * F + k) x } := by
  rw [Mmu.store16, h.translate hva hk, Option.map_some]

theorem congr (h : Maps W F n s) (hwalk : ∀ i < n, t.walk (W + i) = s.walk (W + i)) :
    Maps W F n t := by
  intro i hi
  rw [hwalk i hi]
  exact h i hi

end Maps

/-! ## Stores outside the tables -/

/-- The page directory and the page table at `T`. -/
def tableCells (T : Nat) (cr3 : BitVec 32) : Set Nat :=
  {a | cr3.toNat ≤ a ∧ a < cr3.toNat + 0x1000} ∪ {a | T ≤ a ∧ a < T + 4 * 2 ^ 20}

structure SameTables (T : Nat) (s t : Mmu) : Prop where
  cr3 : t.cr3 = s.cr3
  cells : ∀ a ∈ tableCells T s.cr3, t.mem.read a = s.mem.read a

namespace SameTables

variable {T W : Nat} {s t : Mmu}

theorem store32 (s : Mmu) {a : Nat} (x : BitVec 32)
    (h : ∀ i < 4, a + i ∉ tableCells T s.cr3) :
    SameTables T s { s with mem := s.mem.store32 a x } where
  cr3 := rfl
  cells := by
    intro b hb
    refine Mem.read_store32_of_ne _ _ ?_
    by_contra hin
    refine h (b - a) (by omega) ?_
    rw [Nat.add_sub_cancel' (by omega)]
    exact hb

theorem write (s : Mmu) {a : Nat} (x : BitVec 8) (h : a ∉ tableCells T s.cr3) :
    SameTables T s { s with mem := s.mem.write a x } where
  cr3 := rfl
  cells := fun _ hb => Mem.read_write_of_ne _ _ fun e => h (e ▸ hb)

theorem pteAddr (h : SameTables T s t) {v : Nat} (hv : v < 2 ^ 20) : t.pteAddr v = s.pteAddr v := by
  refine Mmu.pteAddr_congr h.cr3 (Mem.load32_congr fun a hlo hhi => h.cells a (Or.inl ?_))
  unfold Mmu.pdeAddr at hlo hhi
  exact ⟨by omega, by omega⟩

section

variable (h : SameTables T s t) (hs : SelfMap T W s)

include h hs

theorem walk {v : Nat} (hv : v < 2 ^ 20) : t.walk v = s.walk v := by
  refine Mmu.walk_congr (h.pteAddr hv) fun a ha => Mem.load32_congr fun b hlo hhi => ?_
  obtain rfl := Option.some.inj ((hs.tables v hv).symm.trans ha)
  exact h.cells b (Or.inr ⟨by omega, by omega⟩)

theorem translate (va : BitVec 32) : t.translate va = s.translate va :=
  Mmu.translate_congr (h.walk hs (by have := va.isLt; omega))

theorem maps {V F n : Nat} (hmaps : Maps V F n s) (hV : V + n ≤ 2 ^ 20) : Maps V F n t :=
  hmaps.congr fun _ hi => h.walk hs (by omega)

/-- A memory with the same tables maps itself. -/
theorem selfMap : SelfMap T W t where
  layout := by
    have hcr3 := h.cr3
    obtain ⟨haligned, hwindow, hapart⟩ := hs.layout
    exact ⟨haligned, hwindow, hcr3.symm ▸ hapart⟩
  tables := fun v hv => (h.pteAddr hv).trans (hs.tables v hv)
  pages := by
    intro i hi
    have hwindow := hs.layout.window
    obtain ⟨flags, hwalk⟩ := hs.pages i hi
    exact ⟨flags, (h.walk hs (by omega)).trans hwalk⟩

end

end SameTables

end ListaOS.Lib
