/-
  An entry of the memory map on the machine.

  `SeesMap l s`: at BIOS_MEM_MAP_BASE the machine reads the records `l` and their number, as
  the probe of the boot loader leaves them. What mm_init does for an entry stores into the bitmap
  only, so the records stay as they are while it reads them, and it marks the pages that
  Mm.Basic's `addEntry` of the record marks (`Represents.addEntry`).
-/
import ListaOS.Machine.Refines
import ListaOS.Boot.Probe
import ListaOS.Mm.Init

namespace ListaOS

open Lib Mm Paging Boot

/-! ## The arrays -/

namespace Mm

theorem growBitmap_pageTable (n : Nat) (s : MmState) :
    (growBitmap n s).pageTable = s.pageTable := by
  induction n generalizing s with
  | zero => rfl
  | succ n ih => rw [growBitmap, ih]

theorem markPage_pageTable (type : BitVec 32) (s : MmState) (addr : BitVec 64) :
    (markPage type s addr).pageTable = s.pageTable := by
  unfold markPage
  exact growBitmap_pageTable _ s

theorem walkEntry_pageTable (type : BitVec 32) (n : Nat) (addr size : BitVec 64) (s : MmState) :
    (walkEntry type n addr size s).pageTable = s.pageTable := by
  induction n generalizing addr size s with
  | zero => rfl
  | succ n ih =>
    rw [walkEntry]
    split
    · rw [ih, markPage_pageTable]
    · rfl

theorem addEntry_pageTable (s : MmState) (e : BiosMeminfo) :
    (addEntry s e).pageTable = s.pageTable := by
  unfold addEntry
  split
  · rfl
  · exact walkEntry_pageTable _ _ _ _ s

theorem size_le_markPage (type : BitVec 32) (s : MmState) (addr : BitVec 64) :
    s.physMemBitmapSize ≤ (markPage type s addr).physMemBitmapSize := by
  rw [markPage_size]
  exact Nat.le_max_left _ _

theorem size_le_walkEntry (type : BitVec 32) (n : Nat) (addr size : BitVec 64) (s : MmState) :
    s.physMemBitmapSize ≤ (walkEntry type n addr size s).physMemBitmapSize := by
  induction n generalizing addr size s with
  | zero => exact Nat.le_refl _
  | succ n ih =>
    rw [walkEntry]
    split
    · exact Nat.le_trans (size_le_markPage type s addr) (ih _ _ _)
    · exact Nat.le_refl _

end Mm

/-! ## The records -/

/-- The machine reads the records `l` at BIOS_MEM_MAP_BASE. -/
structure SeesMap (l : List BiosMeminfo) (s : Machine) : Prop where
  page : Maps 0xc0012 0xe 1 s.mmu
  count : (s.mmu.mem.load32 0xe000).toNat = l.length
  records : ∀ i e, l[i]? = some e → readMeminfo s.mmu.mem (0xe004 + 20 * i) = e
  short : l.length ≤ 204

namespace SeesMap

variable {l : List BiosMeminfo} {s t : Machine} {ms ms' : MmState}

/-- What keeps the page and the bytes below the IDT. -/
theorem keep (h : SeesMap l s) (hwalk : t.mmu.walk 0xc0012 = s.mmu.walk 0xc0012)
    (hlow : ∀ a < 0x10000, t.mmu.mem.read a = s.mmu.mem.read a) : SeesMap l t where
  page := by
    refine h.page.congr fun i hi => ?_
    obtain rfl := Nat.lt_one_iff.mp hi
    exact hwalk
  count := by
    rw [Mem.load32_congr fun a _ ha => hlow a (by omega)]
    exact h.count
  records := by
    intro i e hi
    have hlt : i < l.length := (List.getElem?_eq_some_iff.mp hi).1
    have hshort := h.short
    have hload : ∀ a, a + 4 ≤ 0x10000 → t.mmu.mem.load32 a = s.mmu.mem.load32 a := fun a ha =>
      Mem.load32_congr fun b _ hb => hlow b (by omega)
    rw [← h.records i e hi]
    unfold readMeminfo
    rw [hload _ (by omega), hload _ (by omega), hload _ (by omega), hload _ (by omega),
      hload _ (by omega)]
  short := h.short

/-- Stores to the bitmap, with the page table as it was. -/
theorem of_bitmap (h : SeesMap l s) (hs : Represents s ms) (ht : Represents t ms')
    (hpt : ms'.pageTable = ms.pageTable) (hw : Mem.WritesIn bitmapCells s.mmu.mem t.mmu.mem) :
    SeesMap l t := by
  refine h.keep (hs.walk_eq ht (by decide) (by rw [hpt])) fun a ha => hw.read a fun hin => ?_
  have hlo := hin.1
  omega

/-- `memInfo[i]` is record `i`. -/
theorem memInfo (h : SeesMap l s) {i : BitVec 32} {e : BiosMeminfo} (hi : l[i.toNat]? = some e) :
    s.memInfo i = some e := by
  have hlt : i.toNat < l.length := (List.getElem?_eq_some_iff.mp hi).1
  have hshort := h.short
  have haddr : ∀ k : BitVec 32, k.toNat ≤ 16 →
      (Machine.memInfoAddr i + k).toNat = 0x1000 * 0xc0012 + (4 + 20 * i.toNat + k.toNat) := by
    intro k hk
    have hbase : (0xc0012000 + 4 : BitVec 32).toNat = 0xc0012004 := rfl
    have htwenty : (20 : BitVec 32).toNat = 20 := rfl
    unfold Machine.memInfoAddr
    rw [BitVec.toNat_add, BitVec.toNat_add, BitVec.toNat_mul, hbase, htwenty]
    omega
  have hload : ∀ k : BitVec 32, k.toNat ≤ 16 → s.mmu.load (Machine.memInfoAddr i + k) =
      some (s.mmu.mem.load32 (0xe004 + 20 * i.toNat + k.toNat)) := by
    intro k hk
    rw [h.page.load (haddr k hk) (by omega)]
    congr 2
    omega
  have hload0 := hload 0 (by decide)
  rw [show Machine.memInfoAddr i + 0 = Machine.memInfoAddr i from BitVec.add_zero _] at hload0
  unfold Machine.memInfo
  rw [hload0, hload 4 (by decide), hload 8 (by decide), hload 12 (by decide), hload 16 (by decide),
    ← h.records _ e hi]
  rfl

end SeesMap

/-! ## The loops -/

namespace Represents

variable {l : List BiosMeminfo} {s : Machine} {ms : MmState}

theorem growBitmap (h : Represents s ms) {n : Nat}
    (hn : ms.physMemBitmapSize + n ≤ bitmapWindowWords) :
    Refines bitmapCells s (Machine.growBitmap n s) (Mm.growBitmap n ms) := by
  induction n generalizing s ms with
  | zero => exact Refines.refl h
  | succ n ih =>
    have hsize := h.size
    have hlt : s.physMemBitmapSize.toNat < bitmapWindowWords := by omega
    refine (h.setWord hlt 0).bind fun t ht _ => ?_
    have hnext : (t.physMemBitmapSize + 1).toNat = ms.physMemBitmapSize + 1 := by
      have hts : t.physMemBitmapSize.toNat = ms.physMemBitmapSize := ht.size
      rw [toNat_add_one (by unfold bitmapWindowWords at hn; omega), hts]
    have hgrown : Represents { t with physMemBitmapSize := t.physMemBitmapSize + 1 }
        { ms with
          physMemBitmap := ms.physMemBitmap.write ms.physMemBitmapSize 0
          physMemBitmapSize := ms.physMemBitmapSize + 1 } := by
      rw [← hsize]
      obtain ⟨hmap, hcr3, htable, hwindow, hwords, -, -, hinit⟩ := ht
      exact ⟨hmap, hcr3, htable, hwindow, hwords, by rw [hnext, hsize], by
        show _ + 1 ≤ _
        omega, hinit⟩
    exact ih hgrown (by show _ + 1 + n ≤ _; omega)

theorem markPage (h : Represents s ms) (hl : SeesMap l s) {i : BitVec 32} {e : BiosMeminfo}
    (hi : l[i.toNat]? = some e) {addr : BitVec 64}
    (hfit : (Mm.markPage e.type ms addr).physMemBitmapSize ≤ bitmapWindowWords) :
    Refines bitmapCells s (Machine.markPage i s addr) (Mm.markPage e.type ms addr) := by
  rw [markPage_size] at hfit
  have hindex : ((addr / 0x1000).setWidth 32 / 32 : BitVec 32).toNat = pageOf addr.toNat / 32 := by
    rw [mapIndex_toNat, pageIndex_toNat]
  have hword : ((addr / 0x1000).setWidth 32 / 32 : BitVec 32).toNat < bitmapWindowWords := by
    omega
  unfold Machine.markPage Mm.markPage
  dsimp only
  rw [h.size]
  refine (h.growBitmap (by omega)).bind fun t ht hw => ?_
  have hseen := hl.of_bitmap h ht (growBitmap_pageTable _ _) hw
  rw [hseen.memInfo hi, Option.bind_eq_bind, Option.bind_some, ht.word hword]
  exact ht.setWord hword _

theorem walkEntry (h : Represents s ms) (hl : SeesMap l s) {i : BitVec 32} {e : BiosMeminfo}
    (hi : l[i.toNat]? = some e) (n : Nat) (addr size : BitVec 64)
    (hfit : (Mm.walkEntry e.type n addr size ms).physMemBitmapSize ≤ bitmapWindowWords) :
    Refines bitmapCells s (Machine.walkEntry i n addr size s)
      (Mm.walkEntry e.type n addr size ms) := by
  induction n generalizing addr size s ms with
  | zero => exact Refines.refl h
  | succ n ih =>
    rw [Mm.walkEntry] at hfit ⊢
    rw [Machine.walkEntry]
    split
    case isTrue hsize =>
      rw [if_pos hsize] at hfit
      have hpage := Nat.le_trans (size_le_walkEntry _ _ _ _ _) hfit
      refine (h.markPage hl hi hpage).bind fun t ht hw => ?_
      exact ih ht (hl.of_bitmap h ht (markPage_pageTable _ _ _) hw) _ _ hfit
    case isFalse => exact Refines.refl h

theorem addEntry (h : Represents s ms) (hl : SeesMap l s) {i : BitVec 32} {e : BiosMeminfo}
    (hi : l[i.toNat]? = some e)
    (hfit : (Mm.addEntry ms e).physMemBitmapSize ≤ bitmapWindowWords) :
    Refines bitmapCells s (Machine.addEntry s i) (Mm.addEntry ms e) := by
  unfold Machine.addEntry
  rw [hl.memInfo hi, Option.bind_eq_bind, Option.bind_some]
  unfold Mm.addEntry at hfit ⊢
  cases halign : alignStart e with
  | none => exact Refines.refl h
  | some start =>
    rw [halign] at hfit
    exact h.walkEntry hl hi _ _ _ hfit

end Represents

end ListaOS
