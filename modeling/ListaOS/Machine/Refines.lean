/-
  The machine refines the arrays of Mm.Basic.

  `Represents s ms`: the table and the bitmap that the walk reaches hold the arrays of `ms`,
  and the window of the bitmap is mapped. `Refines S s r ms` is the result of a call: `r` is a
  machine that represents `ms`, and only the cells `S` were stored to. One lemma for each
  function of mm.c says so; what is proved of the arrays then holds of physical memory.

  The bitmap's window has 2 MiB (`bitmapWindowWords`); a word behind it is not mapped, so the
  lemmas about mm_init ask that the bitmap stays inside.
-/
import ListaOS.Machine.Basic
import ListaOS.Mm.Alloc
import ListaOS.Paging.Window

namespace ListaOS

open Lib Mm Paging

/-- Where the bitmap lies in physical memory. -/
def bitmapCells : Set Nat := {a | 0x600000 ≤ a ∧ a < 0x800000}

/-- Where the page table lies. -/
def pageTableCells : Set Nat := {a | 0x200000 ≤ a ∧ a < 0x600000}

structure Represents (s : Machine) (ms : MmState) : Prop where
  map : KernelMap s.mmu
  cr3 : s.mmu.cr3 = pageDirectoryBase
  table : IsArray ms.pageTable s.mmu
  window : Maps 0xc0600 0x600 0x200 s.mmu
  words : ∀ i < bitmapWindowWords, ms.physMemBitmap.read i = s.mmu.mem.load32 (0x600000 + 4 * i)
  size : s.physMemBitmapSize.toNat = ms.physMemBitmapSize
  fits : ms.physMemBitmapSize ≤ bitmapWindowWords
  initialed : s.mmInitialed = ms.mmInitialed

/-- The call on `s` that ends in `r` leaves what `ms` says, by stores into `S`. -/
def Refines (S : Set Nat) (s : Machine) (r : Option Machine) (ms : MmState) : Prop :=
  ∃ t, r = some t ∧ Represents t ms ∧ Mem.WritesIn S s.mmu.mem t.mmu.mem

namespace Refines

variable {S T : Set Nat} {s : Machine} {r : Option Machine} {ms ms' : MmState}

theorem refl (h : Represents s ms) : Refines S s (some s) ms :=
  ⟨s, rfl, h, Mem.WritesIn.refl S _⟩

theorem mono (h : Refines S s r ms) (hST : S ⊆ T) : Refines T s r ms := by
  obtain ⟨t, hr, ht, hw⟩ := h
  exact ⟨t, hr, ht, hw.mono hST⟩

/-- One call after another. -/
theorem bind (h : Refines S s r ms) {f : Machine → Option Machine}
    (hf : ∀ t, Represents t ms → Mem.WritesIn S s.mmu.mem t.mmu.mem → Refines S t (f t) ms') :
    Refines S s (r.bind f) ms' := by
  obtain ⟨t, rfl, ht, hw⟩ := h
  obtain ⟨u, hu, hu', hw'⟩ := hf t ht hw
  exact ⟨u, hu, hu', hw.trans hw'⟩

end Refines

/-- The pages that may be mapped and unmapped: not the window of the bitmap, and not the
window of the table. -/
def Editable (v : Nat) : Prop := v < 0xffbff ∧ (v < 0xc0600 ∨ 0xc0800 ≤ v)

instance (v : Nat) : Decidable (Editable v) := inferInstanceAs (Decidable (_ ∧ (_ ∨ _)))

namespace Represents

variable {s : Machine} {ms : MmState}

/-- The page of an entry that stays. -/
theorem walk_eq (h : Represents s ms) {t : Machine} {ms' : MmState} (ht : Represents t ms') {v : Nat}
    (hv : v < 2 ^ 20) (hread : ms'.pageTable.read v = ms.pageTable.read v) :
    t.mmu.walk v = s.mmu.walk v := by
  rw [ht.table.walk ht.map hv, h.table.walk h.map hv, hread]

/-! ## Words of the bitmap -/

theorem toNat_bitmapAddr {i : BitVec 32} (hi : i.toNat < bitmapWindowWords) :
    (Machine.bitmapAddr i).toNat = 0x1000 * 0xc0600 + 4 * i.toNat := by
  unfold bitmapWindowWords at hi
  have hbase : (0xc0600000 : BitVec 32).toNat = 0xc0600000 := rfl
  have hfour : (4 : BitVec 32).toNat = 4 := rfl
  unfold Machine.bitmapAddr
  rw [BitVec.toNat_add, BitVec.toNat_mul, hbase, hfour]
  omega

theorem word (h : Represents s ms) {i : BitVec 32} (hi : i.toNat < bitmapWindowWords) :
    s.word i = some (ms.physMemBitmap.read i.toNat) := by
  have hin : 4 * i.toNat < 0x1000 * 0x200 := by
    unfold bitmapWindowWords at hi
    omega
  rw [Machine.word, h.window.load (toNat_bitmapAddr hi) hin, h.words _ hi]

/-- The bitmap lies outside of the tables. -/
theorem bitmap_not_tables {a : Nat} (ha : a ∈ bitmapCells) :
    a ∉ tableCells 0x200000 pageDirectoryBase := by
  have hdir : pageDirectoryBase.toNat = 0x1ff000 := rfl
  obtain ⟨hlo, hhi⟩ := ha
  rintro (⟨h1, h2⟩ | ⟨h1, h2⟩)
  · omega
  · omega

/-- Stores that leave the tables and the bitmap alone. -/
theorem of_sameTables (h : Represents s ms) {t : Machine} (ht : SameTables 0x200000 s.mmu t.mmu)
    (hcells : ∀ a ∈ bitmapCells, t.mmu.mem.read a = s.mmu.mem.read a)
    (hsize : t.physMemBitmapSize = s.physMemBitmapSize) (hinit : t.mmInitialed = s.mmInitialed) :
    Represents t ms where
  map := ht.selfMap h.map
  cr3 := ht.cr3.trans h.cr3
  table := by
    intro v hv
    rw [h.table v hv]
    exact (Mem.load32_congr fun a hlo hhi => ht.cells a (Or.inr ⟨by omega, by omega⟩)).symm
  window := ht.maps h.map h.window (by decide)
  words := by
    intro i hi
    unfold bitmapWindowWords at hi
    rw [h.words i hi]
    exact (Mem.load32_congr fun a hlo hhi => hcells a ⟨by omega, by omega⟩).symm
  size := by rw [hsize, h.size]
  fits := h.fits
  initialed := by rw [hinit, h.initialed]

theorem setWord (h : Represents s ms) {i : BitVec 32} (hi : i.toNat < bitmapWindowWords)
    (x : BitVec 32) :
    Refines bitmapCells s (s.setWord i x)
      { ms with physMemBitmap := ms.physMemBitmap.write i.toNat x } := by
  have hlt : i.toNat < 0x80000 := hi
  have hcells : ∀ k < 4, 0x600000 + 4 * i.toNat + k ∈ bitmapCells := fun k hk =>
    ⟨by omega, by omega⟩
  have hstore := h.window.store (toNat_bitmapAddr hi) (by omega) x
  have htables : SameTables 0x200000 s.mmu
      { s.mmu with mem := s.mmu.mem.store32 (0x600000 + 4 * i.toNat) x } :=
    SameTables.store32 s.mmu x fun k hk => by
      rw [h.cr3]
      exact bitmap_not_tables (hcells k hk)
  refine ⟨{ s with mmu := { s.mmu with mem := s.mmu.mem.store32 (0x600000 + 4 * i.toNat) x } },
    by rw [Machine.setWord, hstore]; rfl, ?_, Mem.writesIn_store32 _ _ hcells⟩
  constructor
  case map => exact htables.selfMap h.map
  case cr3 => exact h.cr3
  case table =>
    intro v hv
    rw [h.table v hv]
    exact (Mem.load32_store32_of_disjoint _ _ (by omega)).symm
  case window => exact htables.maps h.map h.window (by decide)
  case words =>
    intro j hj
    by_cases hji : j = i.toNat
    · subst hji
      rw [Mem.read_write_self]
      exact (Mem.load32_store32_self _ _ _).symm
    · rw [Mem.read_write_of_ne _ _ hji, h.words j hj]
      exact (Mem.load32_store32_of_disjoint _ _ (by omega)).symm
  case size => exact h.size
  case fits => exact h.fits
  case initialed => exact h.initialed

/-! ## Entries of the page table -/

theorem storeEntry (h : Represents s ms) {v : Nat} (hv : Editable v) (x : BitVec 32) :
    Represents { s with mmu := { s.mmu with mem := s.mmu.mem.store32 (0x200000 + 4 * v) x } }
      { ms with pageTable := ms.pageTable.write v x } := by
  obtain ⟨hlt, hout⟩ := hv
  constructor
  case map => exact h.map.store (by omega) (Or.inl (by omega)) x
  case cr3 => exact h.cr3
  case table => exact h.table.write v x
  case window =>
    exact h.window.congr fun i hi => h.map.walk_store_of_ne (by omega) x (by omega) (by omega)
  case words =>
    intro i hi
    rw [h.words i hi]
    exact (Mem.load32_store32_of_disjoint _ _ (by omega)).symm
  case size => exact h.size
  case fits => exact h.fits
  case initialed => exact h.initialed

/-- A store of an entry stays in the table. -/
theorem writesIn_storeEntry {v : Nat} (hv : v < 2 ^ 20) (x : BitVec 32) :
    Mem.WritesIn pageTableCells s.mmu.mem (s.mmu.mem.store32 (0x200000 + 4 * v) x) :=
  Mem.writesIn_store32 _ _ fun k hk => ⟨by omega, by omega⟩

theorem kernelPageMmap (h : Represents s ms) (p : BitVec 32) {v : BitVec 32}
    (hv : Editable v.toNat) (flags : BitVec 8) :
    Refines pageTableCells s (s.kernelPageMmap p v flags) (Mm.kernelPageMmap ms p v flags) := by
  have hlt : v.toNat < 2 ^ 20 := Nat.lt_trans hv.1 (by decide)
  have hstep : Paging.kernelPageMmap s.mmu p v flags = _ :=
    pageStep_eq h.map (show (PageOp.mmap p v flags).vpage < 2 ^ 20 from hlt)
  refine ⟨_, by rw [Machine.kernelPageMmap, hstep]; rfl, h.storeEntry hv _, ?_⟩
  exact writesIn_storeEntry hlt _

theorem kernelPageUnmap (h : Represents s ms) {v : BitVec 32} (hv : Editable v.toNat) :
    Refines pageTableCells s (s.kernelPageUnmap v) (Mm.kernelPageUnmap ms v) := by
  have hlt : v.toNat < 2 ^ 20 := Nat.lt_trans hv.1 (by decide)
  have hstep : Paging.kernelPageUnmap s.mmu v = _ :=
    pageStep_eq h.map (show (PageOp.unmap v).vpage < 2 ^ 20 from hlt)
  refine ⟨_, by rw [Machine.kernelPageUnmap, hstep]; rfl, h.storeEntry hv _, ?_⟩
  exact writesIn_storeEntry hlt _

/-! ## The page allocator -/

/-- The same words are looked at, and the same bit is cleared. -/
theorem allocLoop (h : Represents s ms) (n : Nat) {i : BitVec 32}
    (hn : i.toNat + n ≤ bitmapWindowWords) :
    ∃ t, s.allocLoop n i = some (t, (Mm.allocLoop ms n i.toNat).2) ∧
      Represents t (Mm.allocLoop ms n i.toNat).1 ∧
      Mem.WritesIn bitmapCells s.mmu.mem t.mmu.mem := by
  induction n generalizing i with
  | zero => exact ⟨s, rfl, h, Mem.WritesIn.refl _ _⟩
  | succ n ih =>
    have hi : i.toNat < bitmapWindowWords := by omega
    have hnext : (i + 1).toNat = i.toNat + 1 :=
      toNat_add_one (by unfold bitmapWindowWords at hi; omega)
    have hindex : BitVec.ofNat 32 i.toNat = i := by rw [BitVec.ofNat_toNat, BitVec.setWidth_eq]
    rw [Machine.allocLoop, h.word hi, Option.bind_eq_bind, Option.bind_some, Mm.allocLoop, hindex]
    by_cases hzero : ms.physMemBitmap.read i.toNat = 0
    · rw [if_pos hzero, if_pos hzero, ← hnext]
      exact ih (by omega)
    · rw [if_neg hzero, if_neg hzero]
      obtain ⟨t, ht, hrep, hwrites⟩ := h.setWord hi (ms.physMemBitmap.read i.toNat &&&
        ~~~(1#32 <<< Bitmap.firstBit (ms.physMemBitmap.read i.toNat) 32 0))
      refine ⟨t, ?_, hrep, hwrites⟩
      dsimp only
      rw [ht]
      rfl

theorem alloc4kPhys (h : Represents s ms) :
    ∃ t, s.alloc4kPhys = some (t, (Mm.alloc4kPhys ms).2) ∧ Represents t (Mm.alloc4kPhys ms).1 ∧
      Mem.WritesIn bitmapCells s.mmu.mem t.mmu.mem := by
  unfold Machine.alloc4kPhys Mm.alloc4kPhys
  rw [h.size]
  exact h.allocLoop _ (i := 0) (by have := h.fits; simpa using this)

/-- Any address names a word of the window. -/
theorem free4kPhys (h : Represents s ms) (addr : BitVec 32) :
    Refines bitmapCells s (s.free4kPhys addr) (Mm.free4kPhys ms addr) := by
  have hi : (addr / 0x1000 / 32).toNat < bitmapWindowWords := by
    have hlt := addr.isLt
    rw [BitVec.toNat_udiv, BitVec.toNat_udiv]
    unfold bitmapWindowWords
    simp only [BitVec.reduceToNat]
    omega
  unfold Machine.free4kPhys
  dsimp only
  rw [h.word hi]
  exact h.setWord hi _

/-- The same words are counted. -/
theorem countLoop (h : Represents s ms) (n : Nat) {i : BitVec 32}
    (hn : i.toNat + n ≤ bitmapWindowWords) (freeNum : Nat) :
    s.countLoop n i freeNum = some ((List.range' i.toNat n).foldl
      (fun freeNum i => countBits 32 (ms.physMemBitmap.read i) freeNum) freeNum) := by
  induction n generalizing i freeNum with
  | zero => rfl
  | succ n ih =>
    have hnext : (i + 1).toNat = i.toNat + 1 :=
      toNat_add_one (by unfold bitmapWindowWords at hn; omega)
    rw [Machine.countLoop, h.word (by omega), Option.bind_eq_bind, Option.bind_some,
      ih (by omega), hnext]
    rfl

theorem getFreePageNum (h : Represents s ms) : s.getFreePageNum = some (Mm.getFreePageNum ms) := by
  have hfits := h.fits
  unfold Machine.getFreePageNum Mm.getFreePageNum
  rw [h.size, h.countLoop _ (i := 0) (by simpa using hfits), List.range_eq_range']
  rfl

/-! ## page_fault -/

theorem pageFault (h : Represents s ms) {addr : BitVec 32} (hv : Editable (addr / 0x1000).toNat)
    (err : BitVec 32) :
    Refines (bitmapCells ∪ pageTableCells) s (s.pageFault addr err) (Mm.pageFault ms addr err) := by
  unfold Machine.pageFault Mm.pageFault
  split
  · obtain ⟨t, ht, hrep, hwrites⟩ := h.alloc4kPhys
    rw [ht]
    obtain ⟨u, hu, hrep', hwrites'⟩ :=
      hrep.kernelPageMmap ((Mm.alloc4kPhys ms).2 / 0x1000) hv faultFlags
    exact ⟨u, hu, hrep', (hwrites.mono Set.subset_union_left).trans
      (hwrites'.mono Set.subset_union_right)⟩
  · exact Refines.refl h

end Represents

end ListaOS
