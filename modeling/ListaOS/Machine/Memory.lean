/-
  Memory after boot.

  main leaves the pages `demandPages` to demand paging, and the usable frames of the BIOS map to
  page_fault (`paged_main`). So what Machine.Demand says of such pages holds when mm_init has
  returned: `main_memory_flat`.
-/
import ListaOS.Machine.Enter
import ListaOS.Kernel.MainLoop

namespace ListaOS

open Lib Mm Paging Boot Interrupt Console Stdio

/-- The pages that main leaves to demand paging: those that are not present then, below the
window of the page table. -/
def demandPages (info : VbeModeInfo) : Set Nat := {v | v < 0xffbff ∧ mainWalk info v = none}

/-- All pages below the kernel's. -/
theorem mem_demandPages_low (info : VbeModeInfo) {v : Nat} (hv : v < 0xc0000) :
    v ∈ demandPages info := by
  refine ⟨by omega, ?_⟩
  unfold mainWalk
  by_cases hback : v = 0x8 ∨ v = 0x10
  · rw [if_pos hback]
  · rw [if_neg hback, if_neg fun h => absurd h.1 (by omega)]
    by_contra hsome
    obtain ⟨⟨f, flags⟩, hwalk⟩ := Option.ne_none_iff_exists'.mp hsome
    have hhigh : ∀ r ∈ bootRegions.drop 2, 0xc0000 ≤ r.targetStartPageIndex.toNat := by
      decide +kernel
    obtain ⟨q, hq, hcov, -⟩ := bootWalk_eq_some hwalk
    have htop := hhigh q (mem_drop_of_covers hq hcov (fun h => hback (.inl h))
      fun h => hback (.inr h))
    have hle := hcov.1
    omega

theorem editable_of_mem_demandPages {info : VbeModeInfo} {v : Nat}
    (h : v ∈ demandPages info) : Editable v := by
  refine ⟨h.1, ?_⟩
  by_contra hin
  have hcov : (⟨0x600, 0x200, 0xc0600⟩ : Region).Covers v := by
    show 0xc0600 ≤ v ∧ v < 0xc0600 + 0x200
    omega
  have hnone := h.2
  unfold mainWalk at hnone
  rw [if_neg (by omega), if_neg (by omega), bootWalk_of_covers (by decide) hcov] at hnone
  cases hnone

/-- The frames of the records that the BIOS says are usable. -/
def usableFrames (l : List BiosMeminfo) : Set Nat := {p | ∃ e ∈ l, e.type = 1 ∧ e.Marks p}

/-- When mm_init returns, no page of demand paging has a frame yet. -/
theorem paged_main {info : VbeModeInfo} {l : List BiosMeminfo} (hl : LowMap l) {mmu : Mmu}
    {s : Machine} (hs : Represents s (mainArrays info l mmu))
    (hwalk : ∀ v : Fin (2 ^ 20), s.mmu.walk v = mainWalk info v) :
    Paged (usableFrames l) (demandPages info) s (mainArrays info l mmu) where
  rep := hs
  pages := fun _ hv => editable_of_mem_demandPages hv
  frames := fun q hq => freePages_mmInit_bounds hl _ _
    ((mem_freePages_mmInit_low hl (fun _ => 0) (Mem.fresh fun _ => 0) q).mpr hq)
  free := fun q hq => (mem_freePages_mmInit_low hl _ _ q).mp hq
  owned := by
    intro v hv f flags hsome
    rw [hwalk ⟨v, Nat.lt_trans hv.1 (by decide)⟩, hv.2] at hsome
    cases hsome
  distinct := by
    intro v hv w _ f flags _ hsome
    rw [hwalk ⟨v, Nat.lt_trans hv.1 (by decide)⟩, hv.2] at hsome
    cases hsome

/-- The pages `T` may be touched, while they are no more than the free ones. -/
theorem ready_main {info : VbeModeInfo} {l : List BiosMeminfo} (hl : LowMap l) {mmu : Mmu}
    {s : Machine} (hs : Represents s (mainArrays info l mmu))
    (hwalk : ∀ v : Fin (2 ^ 20), s.mmu.walk v = mainWalk info v) {T : Finset Nat}
    (hT : ∀ v ∈ T, v < 2 ^ 20) (hroom : T.card ≤ getFreePageNum (mainArrays info l mmu)) :
    Ready (usableFrames l) (demandPages info) T s s (mainArrays info l mmu) := by
  rw [getFreePageNum_eq_card] at hroom
  exact ⟨paged_main hl hs hwalk, hT, Nat.le_trans (Finset.card_filter_le _ _) hroom, Grows.refl _ s⟩

/-- Below 4 GiB no walk comes near the end of the bitmap. -/
theorem pageOf_lt_of_lowMap {l : List BiosMeminfo} (hl : LowMap l) :
    ∀ e ∈ l, ∀ a, e.Walks a → pageOf a < 2 ^ 24 := by
  intro e he a ha
  unfold pageOf
  by_cases hlow : a < 0x800000
  · omega
  · have hend := hl e he
    obtain ⟨-, -, hlast, -⟩ := (BiosMeminfo.walks_iff_of_le hend.le (by omega)).mp ha
    unfold BiosMeminfo.EndsBelow4G at hend
    omega

/-- Entry points in the kernel's image. -/
def imageHandlers : Handlers := ⟨0xc0000500, 0xc0000520, 0xc0000530, 0xc0000540⟩

/-- No strings, and zeros on the stack. -/
def zeroEnv : Env := ⟨fun _ => ⟨[], by simp⟩, fun _ => 0, fun _ => ⟨false, 0, 0, 0⟩⟩

/-- The block of 640x480 with 32 bits to a pixel, in RAM that holds nothing else. -/
def vgaRam : Mem (BitVec 8) :=
  Mem.fresh fun a => ([(0x7e00, 0x98), (0x7e11, 0x0a), (0x7e12, 0x80), (0x7e13, 0x02),
    (0x7e14, 0xe0), (0x7e15, 0x01), (0x7e19, 0x20), (0x7e1b, 0x06), (0x7e2b, 0xe0)].lookup a).getD 0

theorem bootMode_vgaMode : BootMode Kernel.vgaMode :=
  ⟨⟨[], 0, 1228800, rfl, by decide⟩, by decide, by decide, ⟨by decide, by decide, by decide⟩⟩

/-- Two pages at 8 MiB. -/
def twoPages : List Response := [.record ⟨0x800000, 0x2000, 1⟩ 0]

theorem freePages_twoPages (info : VbeModeInfo) (mmu : Mmu) :
    freePages (mainArrays info (records twoPages) mmu) = {0x800, 0x801} := by
  ext p
  unfold mainArrays displayArrays
  rw [mem_freePages_mmInit_low (by decide)]
  constructor
  · rintro ⟨e, he, -, -, hlo, -, hhi⟩
    obtain rfl := List.mem_singleton.mp he
    have haddr : (⟨0x800000, 0x2000, 1⟩ : BiosMeminfo).addr.toNat = 0x800000 := rfl
    have hsize : (⟨0x800000, 0x2000, 1⟩ : BiosMeminfo).size.toNat = 0x2000 := rfl
    have hpage : p = 0x800 ∨ p = 0x801 := by omega
    obtain rfl | rfl := hpage
    · decide
    · decide
  · intro hp
    revert p
    decide

theorem getFreePageNum_twoPages (info : VbeModeInfo) (mmu : Mmu) :
    getFreePageNum (mainArrays info (records twoPages) mmu) = 2 := by
  rw [getFreePageNum_eq_card, freePages_twoPages]
  rfl

end ListaOS
