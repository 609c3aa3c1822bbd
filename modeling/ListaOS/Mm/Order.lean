/-
  The order of the memory map.

  mm_init grows the bitmap while it walks the entries, and stores zero to each new word of it.
  `SamePages s s'`: as many words in use, with the same free pages. The words in use are then
  the same (`SamePages.word`), and alloc_4k_phys, which looks at nothing else, returns the same
  addresses for ever (`SamePages.allocs`). `mm_init_perm`: two orders of one memory map, over
  any contents of the memory under the bitmap, end in such states.
-/
import ListaOS.Mm.Alloc

namespace ListaOS.Mm

open Lib

/-- The results of `n` calls of alloc_4k_phys, one after the other. -/
def allocs : Nat → MmState → List (BitVec 32)
  | 0, _ => []
  | n + 1, s =>
      let (s, addr) := alloc4kPhys s
      addr :: allocs n s

structure SamePages (s s' : MmState) : Prop where
  size : s.physMemBitmapSize = s'.physMemBitmapSize
  pages : freePages s = freePages s'

namespace SamePages

variable {s s' : MmState}

theorem word (h : SamePages s s') {i : Nat} (hi : i < s.physMemBitmapSize) :
    s.physMemBitmap.read i = s'.physMemBitmap.read i := by
  have hpages := h.pages
  unfold freePages at hpages
  rw [← h.size] at hpages
  exact Bitmap.read_eq_of_members hpages hi

/-- One call takes the least free page of both, or finds none in both. -/
theorem alloc (h : SamePages s s') :
    (alloc4kPhys s).2 = (alloc4kPhys s').2 ∧ SamePages (alloc4kPhys s).1 (alloc4kPhys s').1 := by
  obtain ⟨he, hnone⟩ | ⟨p, hp, he⟩ := alloc4kPhys_cases s
  · obtain ⟨he', _⟩ | ⟨p', hp', _⟩ := alloc4kPhys_cases s'
    · rw [he, he']
      exact ⟨rfl, h⟩
    · rw [← h.pages, hnone] at hp'
      exact absurd hp'.1 (by simp)
  · rw [h.pages] at hp
    obtain ⟨_, hnone'⟩ | ⟨p', hp', he'⟩ := alloc4kPhys_cases s'
    · rw [hnone'] at hp
      exact absurd hp.1 (by simp)
    · obtain rfl := hp.unique hp'
      rw [he, he']
      refine ⟨rfl, h.size, ?_⟩
      rw [freePages_clearBit, freePages_clearBit, h.pages]

theorem allocs (h : SamePages s s') (n : Nat) : Mm.allocs n s = Mm.allocs n s' := by
  induction n generalizing s s' with
  | zero => rfl
  | succ n ih =>
    obtain ⟨haddr, hrest⟩ := h.alloc
    unfold Mm.allocs
    dsimp only
    rw [haddr, ih hrest]

end SamePages

/-- mm_init depends on the set of the entries only. -/
theorem samePages_mmInit {m m' : List BiosMeminfo} (hmem : ∀ e, e ∈ m ↔ e ∈ m')
    (ram ram' : Nat → BitVec 32) (pt pt' : Mem (BitVec 32)) :
    SamePages (mmInit m (bootState ram pt)) (mmInit m' (bootState ram' pt')) := by
  refine ⟨?_, ?_⟩
  · apply Nat.le_antisymm
    · rw [size_mmInit_le_iff]
      intro e he
      exact (size_mmInit_le_iff m' ram' pt' _).mp (Nat.le_refl _) e ((hmem e).mp he)
    · rw [size_mmInit_le_iff]
      intro e he
      exact (size_mmInit_le_iff m ram pt _).mp (Nat.le_refl _) e ((hmem e).mpr he)
  · ext p
    rw [mem_freePages_mmInit, mem_freePages_mmInit]
    simp only [hmem]

/-- **The order of the entries does not matter, nor what was in the bitmap's memory.** After
mm_init over two orders of one memory map, as many words of the bitmap are in use, they are
the same, and so are the results of every number of alloc_4k_phys calls. -/
theorem mm_init_perm {m m' : List BiosMeminfo} (hperm : m.Perm m') (ram ram' : Nat → BitVec 32)
    (pt pt' : Mem (BitVec 32)) :
    (mmInit m (bootState ram pt)).physMemBitmapSize =
        (mmInit m' (bootState ram' pt')).physMemBitmapSize ∧
      (∀ i < (mmInit m (bootState ram pt)).physMemBitmapSize,
        (mmInit m (bootState ram pt)).physMemBitmap.read i =
          (mmInit m' (bootState ram' pt')).physMemBitmap.read i) ∧
      ∀ n, allocs n (mmInit m (bootState ram pt)) = allocs n (mmInit m' (bootState ram' pt')) := by
  have hsame := samePages_mmInit (fun e => hperm.mem_iff) ram ram' pt pt'
  exact ⟨hsame.size, fun i hi => hsame.word hi, hsame.allocs⟩

/-- A usable entry and a reserved one above it, in both orders, over different memory. -/
theorem mm_init_perm_two :
    let usable : BiosMeminfo := ⟨0x100000, 0x7ee0000, 1⟩
    let reserved : BiosMeminfo := ⟨0x7fe0000, 0x20000, 2⟩
    let pt : Mem (BitVec 32) := Mem.fresh fun _ => 0
    ∀ n, allocs n (mmInit [usable, reserved] (bootState (fun _ => 0) pt)) =
      allocs n (mmInit [reserved, usable] (bootState (fun _ => 0xffffffff) pt)) :=
  (mm_init_perm (List.Perm.swap _ _ []) _ _ _ _).2.2

end ListaOS.Mm
