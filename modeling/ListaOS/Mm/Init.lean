/-
  What mm_init leaves in the bitmap.

  `BiosMeminfo.Walks e a`: the page loop over the entry `e` visits the 64-bit address
  `a`. This is arithmetic on the two fields of the entry: an aligned entry is walked
  from its start; an unaligned one from `addr % 0x1000 + 0x1000`, and the walk is as
  long as what is left of the entry after the distance to that start (mod 2^64).

  `mem_freePages_mmInit`: the pages marked free are the page numbers, cut to 32 bits,
  of the addresses from USABLE_PHY_ADDR_BASE on that the walks over type-1 entries
  visit. `size_mmInit_le_iff` and `log_mmInit_lt`: how many words are in use, and that
  no store goes beyond them. `mmInit_stays_in_window_iff`: the exact condition under
  which the bitmap stays in the 2 MiB mapped for it.
-/
import ListaOS.Lib.Run
import ListaOS.Mm.Basic

namespace ListaOS.Mm

open Lib

/-- The pages marked free in the words in use. -/
def freePages (s : MmState) : Finset Nat :=
  Bitmap.members s.physMemBitmap s.physMemBitmapSize

/-- `(uint32_t)(addr / 0x1000)`. -/
def pageOf (a : Nat) : Nat := a / 4096 % 2 ^ 32

namespace BiosMeminfo

/-- First address the page loop visits. -/
def walkStart (e : BiosMeminfo) : Nat :=
  if e.addr.toNat % 4096 = 0 then e.addr.toNat else e.addr.toNat % 4096 + 4096

/-- What is taken off the size, as mm_init computes it in 64 bits. -/
def walkGap (e : BiosMeminfo) : Nat := (e.walkStart + 2 ^ 64 - e.addr.toNat) % 2 ^ 64

/-- Number of pages visited. -/
def walkLength (e : BiosMeminfo) : Nat := (e.size.toNat - e.walkGap) / 4096

/-- The page loop over `e` visits the address `a`. -/
def Walks (e : BiosMeminfo) (a : Nat) : Prop :=
  ∃ j < e.walkLength, a = (e.walkStart + 4096 * j) % 2 ^ 64

/-- The addresses visited, in order. -/
def visits (e : BiosMeminfo) : List (BitVec 64) :=
  (List.range e.walkLength).map fun j => BitVec.ofNat 64 (e.walkStart + 4096 * j)

theorem mem_visits {e : BiosMeminfo} {a : BitVec 64} : a ∈ e.visits ↔ e.Walks a.toNat := by
  unfold visits Walks
  simp only [List.mem_map, List.mem_range]
  constructor
  · intro hin
    obtain ⟨j, hj, rfl⟩ := hin
    exact ⟨j, hj, BitVec.toNat_ofNat _ _⟩
  · intro hin
    obtain ⟨j, hj, h⟩ := hin
    exact ⟨j, hj, BitVec.eq_of_toNat_eq (by rw [BitVec.toNat_ofNat, h])⟩

theorem walks_lt {e : BiosMeminfo} {a : Nat} (h : e.Walks a) : a < 2 ^ 64 := by
  obtain ⟨j, _, rfl⟩ := h
  exact Nat.mod_lt _ (by decide)

end BiosMeminfo

/-! ## The walk over an entry -/

theorem and_low_toNat (x : BitVec 64) : (x &&& 0xfff).toNat = x.toNat % 4096 := by
  rw [BitVec.toNat_and]
  exact Nat.and_two_pow_sub_one_eq_mod x.toNat 12

theorem and_high_eq_iff (x : BitVec 64) : x &&& ~~~0xfff#64 = x ↔ x.toNat % 4096 = 0 := by
  rw [← and_low_toNat]
  constructor
  · intro h
    have hz : ~~~0xfff#64 &&& (0xfff : BitVec 64) = 0#64 := by decide
    rw [← h, BitVec.and_assoc, hz, BitVec.and_zero]
    rfl
  · intro h0
    have h : x &&& 0xfff = 0#64 := BitVec.eq_of_toNat_eq h0
    have hx : x = (x &&& ~~~0xfff#64) ||| (x &&& 0xfff) := by
      rw [← BitVec.and_or_distrib_left]
      have : ~~~0xfff#64 ||| (0xfff : BitVec 64) = BitVec.allOnes 64 := by decide
      rw [this, BitVec.and_allOnes]
    rw [h, BitVec.or_zero] at hx
    exact hx.symm

/-- `alignStart` in terms of `walkStart` and `walkGap`. -/
theorem alignStart_spec (e : BiosMeminfo) :
    (alignStart e = none ∧ e.walkLength = 0) ∨
      ∃ addr size, alignStart e = some (addr, size) ∧ addr.toNat = e.walkStart ∧
        size.toNat = e.size.toNat - e.walkGap := by
  unfold alignStart BiosMeminfo.walkLength BiosMeminfo.walkGap BiosMeminfo.walkStart
  have hlt := e.addr.isLt
  by_cases h : e.addr.toNat % 4096 = 0
  · right
    rw [if_neg (by rw [not_not]; exact (and_high_eq_iff e.addr).mpr h), if_pos h]
    refine ⟨e.addr, e.size, rfl, rfl, ?_⟩
    have : (e.addr.toNat + 2 ^ 64 - e.addr.toNat) % 2 ^ 64 = 0 := by
      rw [Nat.add_sub_cancel_left, Nat.mod_self]
    rw [this, Nat.sub_zero]
  · rw [if_pos (fun hx => h ((and_high_eq_iff e.addr).mp hx)), if_neg h]
    have hstart : ((e.addr &&& 0xfff) + 0x1000).toNat = e.addr.toNat % 4096 + 4096 := by
      rw [BitVec.toNat_add, and_low_toNat, show (0x1000 : BitVec 64).toNat = 4096 from rfl]
      exact Nat.mod_eq_of_lt (by omega)
    have hgap : ((e.addr &&& 0xfff) + 0x1000 - e.addr).toNat =
        (e.addr.toNat % 4096 + 4096 + 2 ^ 64 - e.addr.toNat) % 2 ^ 64 := by
      rw [BitVec.toNat_sub, hstart,
        show 2 ^ 64 - e.addr.toNat + (e.addr.toNat % 4096 + 4096) =
          e.addr.toNat % 4096 + 4096 + 2 ^ 64 - e.addr.toNat by omega]
    dsimp only
    by_cases hge : (e.addr &&& 0xfff) + 0x1000 - e.addr ≥ e.size
    · left
      rw [if_pos hge]
      rw [ge_iff_le, BitVec.le_def, hgap] at hge
      exact ⟨rfl, by rw [Nat.sub_eq_zero_of_le hge]⟩
    · right
      rw [if_neg hge]
      refine ⟨_, _, rfl, hstart, ?_⟩
      rw [BitVec.toNat_sub_of_le (BitVec.le_of_lt (BitVec.not_le.mp hge)), hgap]

theorem walkEntry_eq_foldl (type : BitVec 32) (n : Nat) (addr size : BitVec 64) (s : MmState)
    (hn : 4096 * n ≤ size.toNat) :
    walkEntry type n addr size s =
      ((List.range n).map fun j => addr + BitVec.ofNat 64 (4096 * j)).foldl (markPage type) s := by
  induction n generalizing addr size s with
  | zero => rfl
  | succ n ih =>
    have hle : 0x1000 ≤ size := by
      rw [BitVec.le_def, show (0x1000 : BitVec 64).toNat = 4096 from rfl]
      omega
    have hsub : (size - 0x1000).toNat = size.toNat - 4096 := by
      rw [BitVec.toNat_sub_of_le hle]; rfl
    have hzero : addr + BitVec.ofNat 64 (4096 * 0) = addr := by simp
    have hmap : (fun j => addr + 0x1000 + BitVec.ofNat 64 (4096 * j)) =
        (fun j => addr + BitVec.ofNat 64 (4096 * j)) ∘ Nat.succ := by
      funext j
      rw [Function.comp_apply, Nat.succ_eq_add_one, Nat.mul_add, Nat.add_comm (4096 * j),
        Nat.mul_one, BitVec.ofNat_add, ← BitVec.add_assoc]
      rfl
    rw [walkEntry, if_pos hle, ih _ _ _ (by omega), List.range_succ_eq_map, List.map_cons,
      List.foldl_cons, List.map_map, hzero, hmap]

theorem addEntry_eq_foldl (s : MmState) (e : BiosMeminfo) :
    addEntry s e = e.visits.foldl (markPage e.type) s := by
  unfold addEntry BiosMeminfo.visits
  rcases alignStart_spec e with ⟨h, h0⟩ | ⟨addr, size, h, haddr, hsize⟩
  · rw [h, h0]
    rfl
  · rw [h]
    have hlen : size.toNat / 0x1000 = e.walkLength := by
      rw [hsize, BiosMeminfo.walkLength]
    have hstart : addr = BitVec.ofNat 64 e.walkStart := by
      rw [← haddr, BitVec.ofNat_toNat, BitVec.setWidth_eq]
    have hmap : (fun j => addr + BitVec.ofNat 64 (4096 * j)) =
        fun j => BitVec.ofNat 64 (e.walkStart + 4096 * j) := by
      funext j
      rw [hstart, BitVec.ofNat_add]
    have hle : 4096 * e.walkLength ≤ size.toNat := by omega
    simp only [hlen, walkEntry_eq_foldl _ _ _ _ _ hle, hmap]

/-! ## One page -/

theorem growBitmap_size (n : Nat) (s : MmState) :
    (growBitmap n s).physMemBitmapSize = s.physMemBitmapSize + n := by
  induction n generalizing s with
  | zero => rfl
  | succ n ih =>
    rw [growBitmap, ih]
    simp only
    omega

/-- Growing by a zero word marks nothing free. -/
theorem freePages_grow_one (s : MmState) :
    freePages { s with
        physMemBitmap := s.physMemBitmap.write s.physMemBitmapSize 0
        physMemBitmapSize := s.physMemBitmapSize + 1 } = freePages s := by
  ext p
  unfold freePages
  simp only [Bitmap.mem_members, Bitmap.bit, Mem.read_write]
  by_cases h : p / 32 = s.physMemBitmapSize
  · have : ¬ p < 32 * s.physMemBitmapSize := by omega
    simp [h, this]
  · rw [if_neg h]
    have : p < 32 * (s.physMemBitmapSize + 1) ↔ p < 32 * s.physMemBitmapSize := by omega
    rw [this]

theorem freePages_growBitmap (n : Nat) (s : MmState) :
    freePages (growBitmap n s) = freePages s := by
  induction n generalizing s with
  | zero => rfl
  | succ n ih => rw [growBitmap, ih, freePages_grow_one]

theorem growBitmap_log (n : Nat) (s : MmState) (i : Nat)
    (hi : i ∈ (growBitmap n s).physMemBitmap.log) :
    i ∈ s.physMemBitmap.log ∨ i < s.physMemBitmapSize + n := by
  induction n generalizing s with
  | zero => exact Or.inl hi
  | succ n ih =>
    rcases ih _ hi with h | h
    · simp only [Mem.log_write, List.mem_cons] at h
      rcases h with rfl | h
      · right; omega
      · exact Or.inl h
    · right
      simp only at h
      omega

/-- The `pageIndex`, `mapIndex` and `bitPos` of the source as naturals. -/
theorem pageIndex_toNat (addr : BitVec 64) :
    ((addr / 0x1000).setWidth 32).toNat = pageOf addr.toNat := by
  rw [BitVec.toNat_setWidth, BitVec.toNat_udiv]
  rfl

theorem mapIndex_toNat (x : BitVec 32) : (x / 32).toNat = x.toNat / 32 := BitVec.toNat_udiv

theorem bitPos_toNat (x : BitVec 32) : (x % 32).toNat = x.toNat % 32 := BitVec.toNat_umod

/-- One page of the walk, on the set of free pages: it adds the page or nothing. -/
theorem mem_freePages_markPage (type : BitVec 32) (s : MmState) (addr : BitVec 64) (p : Nat) :
    p ∈ freePages (markPage type s addr) ↔
      p ∈ freePages s ∨
        (type = 1 ∧ 0x800000 ≤ addr.toNat ∧ p = pageOf addr.toNat) := by
  unfold markPage
  simp only [pageIndex_toNat, mapIndex_toNat, bitPos_toNat]
  generalize hq : pageOf addr.toNat = q
  generalize hg : growBitmap (q / 32 + 1 - s.physMemBitmapSize) s = g
  have hsize : q / 32 < g.physMemBitmapSize := by
    rw [← hg]; exact growBitmap_of_le s (q / 32)
  have hfree : freePages g = freePages s := by
    rw [← hg]; exact freePages_growBitmap _ s
  rw [← hfree]
  have hbase : usablePhyAddrBase ≤ addr ↔ 0x800000 ≤ addr.toNat := BitVec.le_def
  by_cases hm : type = 1 ∧ usablePhyAddrBase ≤ addr
  · rw [if_pos hm]
    have hset : freePages { g with
        physMemBitmap := g.physMemBitmap.write (q / 32)
          (g.physMemBitmap.read (q / 32) ||| 1#32 <<< (q % 32)) } = insert q (freePages g) :=
      Bitmap.members_setBit (by decide) g.physMemBitmap (n := q)
        (show q < 32 * g.physMemBitmapSize by omega)
    rw [hset, Finset.mem_insert, hm.1, ← hbase]
    simp only [hm.2, true_and]
    exact or_comm
  · rw [if_neg hm]
    have hkeep : freePages { g with
        physMemBitmap := g.physMemBitmap.write (q / 32)
          (g.physMemBitmap.read (q / 32) ||| 0) } = freePages g := by
      ext k
      unfold freePages
      simp only [Bitmap.mem_members, Bitmap.bit, Mem.read_write]
      by_cases hk : k / 32 = q / 32
      · simp [hk]
      · simp [hk]
    rw [hkeep]
    constructor
    · exact Or.inl
    · intro hin
      obtain h | ⟨h1, h2, _⟩ := hin
      · exact h
      · exact absurd ⟨h1, hbase.mpr h2⟩ hm

theorem markPage_size (type : BitVec 32) (s : MmState) (addr : BitVec 64) :
    (markPage type s addr).physMemBitmapSize =
      max s.physMemBitmapSize (pageOf addr.toNat / 32 + 1) := by
  unfold markPage
  simp only [pageIndex_toNat, mapIndex_toNat, growBitmap_size]
  omega

/-- Every word stored to is in use afterwards. -/
theorem markPage_log (type : BitVec 32) (s : MmState) (addr : BitVec 64)
    (hs : ∀ i ∈ s.physMemBitmap.log, i < s.physMemBitmapSize) :
    ∀ i ∈ (markPage type s addr).physMemBitmap.log,
      i < (markPage type s addr).physMemBitmapSize := by
  intro i hi
  rw [markPage_size]
  unfold markPage at hi
  simp only [pageIndex_toNat, mapIndex_toNat, Mem.log_write, List.mem_cons] at hi
  rcases hi with rfl | hi
  · omega
  · rcases growBitmap_log _ s i hi with h | h
    · have := hs i h
      omega
    · omega

/-! ## The whole map -/

theorem mem_freePages_foldl_markPage (type : BitVec 32) (l : List (BitVec 64)) (s : MmState)
    (p : Nat) :
    p ∈ freePages (l.foldl (markPage type) s) ↔
      p ∈ freePages s ∨
        (type = 1 ∧ ∃ a ∈ l, 0x800000 ≤ a.toNat ∧ p = pageOf a.toNat) := by
  induction l generalizing s with
  | nil => simp
  | cons a l ih =>
    rw [List.foldl_cons, ih, mem_freePages_markPage]
    simp only [List.exists_mem_cons_iff, and_or_left, or_assoc]

theorem mem_freePages_foldl_addEntry (m : List BiosMeminfo) (s : MmState) (p : Nat) :
    p ∈ freePages (m.foldl addEntry s) ↔
      p ∈ freePages s ∨
        ∃ e ∈ m, e.type = 1 ∧ ∃ a, e.Walks a ∧ 0x800000 ≤ a ∧ p = pageOf a := by
  induction m generalizing s with
  | nil => simp
  | cons e m ih =>
    have hvisit : (∃ a ∈ e.visits, 0x800000 ≤ a.toNat ∧ p = pageOf a.toNat) ↔
        ∃ a, e.Walks a ∧ 0x800000 ≤ a ∧ p = pageOf a := by
      constructor
      · intro hin
        obtain ⟨a, ha, h⟩ := hin
        exact ⟨a.toNat, BiosMeminfo.mem_visits.mp ha, h⟩
      · intro hin
        obtain ⟨a, ha, h⟩ := hin
        have hlt := BiosMeminfo.walks_lt ha
        refine ⟨BitVec.ofNat 64 a, BiosMeminfo.mem_visits.mpr ?_, ?_⟩
        · rwa [BitVec.toNat_ofNat, Nat.mod_eq_of_lt hlt]
        · rwa [BitVec.toNat_ofNat, Nat.mod_eq_of_lt hlt]
    rw [List.foldl_cons, ih, addEntry_eq_foldl, mem_freePages_foldl_markPage, hvisit]
    simp only [List.exists_mem_cons_iff, or_assoc]

theorem foldl_markPage_size_le_iff (type : BitVec 32) (l : List (BitVec 64)) (s : MmState)
    (N : Nat) :
    (l.foldl (markPage type) s).physMemBitmapSize ≤ N ↔
      s.physMemBitmapSize ≤ N ∧ ∀ a ∈ l, pageOf a.toNat / 32 < N := by
  induction l generalizing s with
  | nil => simp
  | cons a l ih =>
    rw [List.foldl_cons, ih, markPage_size]
    simp only [List.forall_mem_cons]
    have : max s.physMemBitmapSize (pageOf a.toNat / 32 + 1) ≤ N ↔
        s.physMemBitmapSize ≤ N ∧ pageOf a.toNat / 32 < N := by omega
    rw [this, and_assoc]

theorem foldl_addEntry_size_le_iff (m : List BiosMeminfo) (s : MmState) (N : Nat) :
    (m.foldl addEntry s).physMemBitmapSize ≤ N ↔
      s.physMemBitmapSize ≤ N ∧ ∀ e ∈ m, ∀ a, e.Walks a → pageOf a / 32 < N := by
  induction m generalizing s with
  | nil => simp
  | cons e m ih =>
    have hvisit : (∀ a ∈ e.visits, pageOf a.toNat / 32 < N) ↔
        ∀ a, e.Walks a → pageOf a / 32 < N := by
      constructor
      · intro h a ha
        have hlt := BiosMeminfo.walks_lt ha
        have := h (BitVec.ofNat 64 a) (BiosMeminfo.mem_visits.mpr (by
          rwa [BitVec.toNat_ofNat, Nat.mod_eq_of_lt hlt]))
        rwa [BitVec.toNat_ofNat, Nat.mod_eq_of_lt hlt] at this
      · intro h a ha
        exact h _ (BiosMeminfo.mem_visits.mp ha)
    rw [List.foldl_cons, ih, addEntry_eq_foldl, foldl_markPage_size_le_iff, hvisit]
    simp only [List.forall_mem_cons, and_assoc]

theorem foldl_addEntry_log (m : List BiosMeminfo) (s : MmState)
    (hs : ∀ i ∈ s.physMemBitmap.log, i < s.physMemBitmapSize) :
    ∀ i ∈ (m.foldl addEntry s).physMemBitmap.log,
      i < (m.foldl addEntry s).physMemBitmapSize := by
  refine foldl_invariant
    (fun s : MmState => ∀ i ∈ s.physMemBitmap.log, i < s.physMemBitmapSize) ?_ hs m
  intro s e hs
  rw [addEntry_eq_foldl]
  exact foldl_invariant
    (fun s : MmState => ∀ i ∈ s.physMemBitmap.log, i < s.physMemBitmapSize)
    (fun s a hs => markPage_log e.type s a hs) hs e.visits

theorem freePages_bootState (ram : Nat → BitVec 32) (pt : Mem (BitVec 32)) :
    freePages (bootState ram pt) = ∅ := by
  apply Finset.eq_empty_of_forall_notMem
  intro p hp
  have := (Bitmap.mem_members.mp hp).1
  simp [bootState] at this

/-- **The free pages after mm_init.** They are the page numbers of the addresses from
    USABLE_PHY_ADDR_BASE on that the walks over type-1 entries visit. -/
theorem mem_freePages_mmInit (m : List BiosMeminfo) (ram : Nat → BitVec 32)
    (pt : Mem (BitVec 32)) (p : Nat) :
    p ∈ freePages (mmInit m (bootState ram pt)) ↔
      ∃ e ∈ m, e.type = 1 ∧ ∃ a, e.Walks a ∧ 0x800000 ≤ a ∧ p = pageOf a := by
  have h := mem_freePages_foldl_addEntry m
    (kernelPageUnmap (kernelPageUnmap (bootState ram pt) 0x8) 0x10) p
  have hboot : freePages (kernelPageUnmap (kernelPageUnmap (bootState ram pt) 0x8) 0x10) = ∅ :=
    freePages_bootState ram pt
  simp only [hboot, Finset.notMem_empty, false_or] at h
  exact h

theorem size_mmInit_le_iff (m : List BiosMeminfo) (ram : Nat → BitVec 32)
    (pt : Mem (BitVec 32)) (N : Nat) :
    (mmInit m (bootState ram pt)).physMemBitmapSize ≤ N ↔
      ∀ e ∈ m, ∀ a, e.Walks a → pageOf a / 32 < N := by
  have h := foldl_addEntry_size_le_iff m
    (kernelPageUnmap (kernelPageUnmap (bootState ram pt) 0x8) 0x10) N
  have hzero : (kernelPageUnmap (kernelPageUnmap (bootState ram pt) 0x8) 0x10).physMemBitmapSize
      ≤ N := Nat.zero_le N
  exact h.trans (and_iff_right hzero)

/-- Every word mm_init stores to is in use at the end. -/
theorem log_mmInit_lt (m : List BiosMeminfo) (ram : Nat → BitVec 32) (pt : Mem (BitVec 32)) :
    ∀ i ∈ (mmInit m (bootState ram pt)).physMemBitmap.log,
      i < (mmInit m (bootState ram pt)).physMemBitmapSize :=
  foldl_addEntry_log m (kernelPageUnmap (kernelPageUnmap (bootState ram pt) 0x8) 0x10)
    (by intro i hi; simp [kernelPageUnmap, bootState] at hi)

/-! ## The bitmap window -/

/-- The words of the 2 MiB mapped for the bitmap at PHY_MEM_BITMAP_BASE. -/
def bitmapWindowWords : Nat := 0x80000

/-- **mm_init stays in the bitmap window exactly when no walk visits a page from 2^24 on.**
    Page numbers are cut to 32 bits, and 2^24 pages are 64 GiB. -/
theorem mmInit_stays_in_window_iff (m : List BiosMeminfo) (ram : Nat → BitVec 32)
    (pt : Mem (BitVec 32)) :
    ((∀ i ∈ (mmInit m (bootState ram pt)).physMemBitmap.log, i < bitmapWindowWords) ∧
        (mmInit m (bootState ram pt)).physMemBitmapSize ≤ bitmapWindowWords) ↔
      ∀ e ∈ m, ∀ a, e.Walks a → pageOf a < 2 ^ 24 := by
  have hword : ∀ a, pageOf a / 32 < bitmapWindowWords ↔ pageOf a < 2 ^ 24 := by
    intro a
    unfold bitmapWindowWords
    omega
  have hsize := size_mmInit_le_iff m ram pt bitmapWindowWords
  simp only [hword] at hsize
  rw [← hsize]
  constructor
  · exact fun h => h.2
  · exact fun h => ⟨fun i hi => Nat.lt_of_lt_of_le (log_mmInit_lt m ram pt i hi) h, h⟩

/-- A reserved range near 1 TiB, as some firmware reports it, leaves the window. -/
theorem mmInit_leaves_window :
    ¬ ((∀ i ∈ (mmInit [⟨0xfd00000000, 0x300000000, 2⟩]
          (bootState (fun _ => 0) (Mem.fresh fun _ => 0))).physMemBitmap.log,
        i < bitmapWindowWords) ∧
      (mmInit [⟨0xfd00000000, 0x300000000, 2⟩]
          (bootState (fun _ => 0) (Mem.fresh fun _ => 0))).physMemBitmapSize ≤
        bitmapWindowWords) := by
  intro hin
  obtain ⟨_, hsize⟩ := hin
  have hpage := (size_mmInit_le_iff _ _ _ _).mp hsize _ (List.mem_singleton_self _)
    0xfd00000000 ⟨0, by decide, by decide⟩
  exact absurd hpage (by decide)

end ListaOS.Mm
