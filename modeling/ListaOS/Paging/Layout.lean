/-
  The whole page table after boot.

  protect_mode_start clears the table and makes nine calls of memory_page_map; `bootRegions`
  lists their arguments. `walk_protectModeStart`: a page in one of the regions is mapped to
  its frame there, and no other page is present. The first two regions, the identity maps of
  the init code and of the IDT page, are those that mm_init takes back; the others share no
  frame (`walk_injective`).
-/
import ListaOS.Paging.Boot
import ListaOS.Lib.Window

namespace ListaOS.Paging

open Lib

/-- The arguments of memory_page_map. -/
structure Region where
  startPageIndex : BitVec 32
  pageCount : BitVec 32
  targetStartPageIndex : BitVec 32
deriving DecidableEq

namespace Region

/-- Page `v` is one of the region's. -/
def Covers (r : Region) (v : Nat) : Prop :=
  r.targetStartPageIndex.toNat ≤ v ∧ v < r.targetStartPageIndex.toNat + r.pageCount.toNat

instance (r : Region) (v : Nat) : Decidable (r.Covers v) := inferInstanceAs (Decidable (_ ∧ _))

/-- The frame of page `v`. -/
def frame (r : Region) (v : Nat) : Nat :=
  r.startPageIndex.toNat + (v - r.targetStartPageIndex.toNat)

/-- Pages and frames lie in the address space. -/
def Fits (r : Region) : Prop :=
  r.targetStartPageIndex.toNat + r.pageCount.toNat ≤ 2 ^ 20 ∧
    r.startPageIndex.toNat + r.pageCount.toNat ≤ 2 ^ 20

instance (r : Region) : Decidable r.Fits := inferInstanceAs (Decidable (_ ∧ _))

/-- No page belongs to both. -/
def Apart (r r' : Region) : Prop :=
  r.targetStartPageIndex.toNat + r.pageCount.toNat ≤ r'.targetStartPageIndex.toNat ∨
    r'.targetStartPageIndex.toNat + r'.pageCount.toNat ≤ r.targetStartPageIndex.toNat

instance (r r' : Region) : Decidable (r.Apart r') := inferInstanceAs (Decidable (_ ∨ _))

/-- No frame belongs to both. -/
def FramesApart (r r' : Region) : Prop :=
  r.startPageIndex.toNat + r.pageCount.toNat ≤ r'.startPageIndex.toNat ∨
    r'.startPageIndex.toNat + r'.pageCount.toNat ≤ r.startPageIndex.toNat

instance (r r' : Region) : Decidable (r.FramesApart r') := inferInstanceAs (Decidable (_ ∨ _))

end Region

/-- FAT16 header and init bin, IDT/GDT, kernel, IDT/GDT, VBE info, memory info, bitmap, kernel
stack, paging directory and table. -/
def bootRegions : List Region :=
  [⟨0x8, 0x1, 0x8⟩, ⟨0x10, 0x1, 0x10⟩, ⟨0x20, 0x10, 0xc0000⟩, ⟨0x10, 0x1, 0xc0010⟩,
    ⟨0x7, 0x1, 0xc0011⟩, ⟨0xe, 0x1, 0xc0012⟩, ⟨0x600, 0x200, 0xc0600⟩, ⟨0x0, 0x7, 0xffbf8⟩,
    ⟨0x1ff, 0x401, 0xffbff⟩]

def mapRegions (rs : List Region) (m : Mem (BitVec 8)) : Mem (BitVec 8) :=
  rs.foldl (fun m r => memoryPageMap r.startPageIndex r.pageCount r.targetStartPageIndex m) m

theorem mapRegions_cons (r : Region) (rs : List Region) (m : Mem (BitVec 8)) :
    mapRegions (r :: rs) m =
      mapRegions rs (memoryPageMap r.startPageIndex r.pageCount r.targetStartPageIndex m) := rfl

/-- `bootRegions`, folded with any function of three arguments. -/
theorem foldl_bootRegions {α : Type} (f : BitVec 32 → BitVec 32 → BitVec 32 → α → α) (m : α) :
    bootRegions.foldl (fun m r => f r.startPageIndex r.pageCount r.targetStartPageIndex m) m =
      f 0x1ff 0x401 0xffbff (f 0x0 0x7 0xffbf8 (f 0x600 0x200 0xc0600 (f 0xe 0x1 0xc0012
        (f 0x7 0x1 0xc0011 (f 0x10 0x1 0xc0010 (f 0x20 0x10 0xc0000 (f 0x10 0x1 0x10
          (f 0x8 0x1 0x8 m)))))))) := rfl

/-- The calls are those of protect_mode_start. -/
theorem protectModeStart_eq (m : Mem (BitVec 8)) :
    protectModeStart m =
      ⟨initGdt (mapRegions bootRegions (initKernelPaging m)), pageDirectoryBase⟩ := by
  unfold protectModeStart mapRegions
  rw [foldl_bootRegions]

/-! ## One region -/

theorem load32_mapRegion {r : Region} (hr : r.Fits) (m : Mem (BitVec 8)) {v : Nat}
    (h : ¬ r.Covers v) :
    (memoryPageMap r.startPageIndex r.pageCount r.targetStartPageIndex m).load32
      (0x200000 + 4 * v) = m.load32 (0x200000 + 4 * v) := by
  refine Mem.load32_congr fun a hlo hhi => (filled_memoryPageMap _ _ _ m hr.1).frame a ?_
  unfold Region.Covers at h
  omega

theorem entry_mapRegion {r : Region} (hr : r.Fits) (m : Mem (BitVec 8)) {v : Nat}
    (h : r.Covers v) :
    Mmu.entry ((memoryPageMap r.startPageIndex r.pageCount r.targetStartPageIndex m).load32
      (0x200000 + 4 * v)) = some (r.frame v, 7) := by
  obtain ⟨hlo, hhi⟩ := h
  have hentry := (filled_memoryPageMap r.startPageIndex _ _ m hr.1).entries
    (v - r.targetStartPageIndex.toNat) (by omega)
  have haddr : 0x200000 + 4 * r.targetStartPageIndex.toNat +
      4 * (v - r.targetStartPageIndex.toNat) = 0x200000 + 4 * v := by omega
  have hstart : (r.startPageIndex <<< 12).toNat = 0x1000 * r.startPageIndex.toNat := by
    have hfit := hr.2
    rw [BitVec.toNat_shiftLeft, Nat.shiftLeft_eq]
    omega
  have hframe := toNat_pageAddr (i := v - r.targetStartPageIndex.toNat) hstart
    (by have := hr.2; omega)
  rw [haddr] at hentry
  rw [hentry, Mmu.entry_or hframe (by decide), if_neg (by decide)]
  rfl

/-! ## All regions -/

theorem load32_mapRegions {rs : List Region} (hrs : ∀ r ∈ rs, r.Fits) (m : Mem (BitVec 8))
    {v : Nat} (h : ∀ r ∈ rs, ¬ r.Covers v) :
    (mapRegions rs m).load32 (0x200000 + 4 * v) = m.load32 (0x200000 + 4 * v) := by
  induction rs generalizing m with
  | nil => rfl
  | cons r rs ih =>
    obtain ⟨hr, hrs⟩ := List.forall_mem_cons.mp hrs
    obtain ⟨hv, hvs⟩ := List.forall_mem_cons.mp h
    exact (ih hrs _ hvs).trans (load32_mapRegion hr m hv)

/-- Of regions that are apart, none changes the entries of another. -/
theorem entry_mapRegions {rs : List Region} (hrs : ∀ r ∈ rs, r.Fits)
    (happart : rs.Pairwise Region.Apart) (m : Mem (BitVec 8)) {r : Region} (hr : r ∈ rs) {v : Nat}
    (h : r.Covers v) :
    Mmu.entry ((mapRegions rs m).load32 (0x200000 + 4 * v)) = some (r.frame v, 7) := by
  induction rs generalizing m with
  | nil => exact absurd hr List.not_mem_nil
  | cons r' rs ih =>
    obtain ⟨hfit, hfits⟩ := List.forall_mem_cons.mp hrs
    obtain ⟨hfirst, hrest⟩ := List.pairwise_cons.mp happart
    rw [mapRegions_cons]
    obtain rfl | hmem := List.mem_cons.mp hr
    · have hother : ∀ q ∈ rs, ¬ q.Covers v := by
        intro q hq hcov
        have hap := hfirst q hq
        unfold Region.Apart at hap
        obtain ⟨h1, h2⟩ := h
        obtain ⟨h3, h4⟩ := hcov
        omega
      rw [load32_mapRegions hfits _ hother]
      exact entry_mapRegion hfit m h
    · exact ih hfits hrest _ hmem

/-- The table is cleared before. -/
theorem initKernelPaging_table (m : Mem (BitVec 8)) {v : Nat} (hv : v < 2 ^ 20) :
    (initKernelPaging m).load32 (0x200000 + 4 * v) = 0 := by
  have hread : ∀ a, 0x200000 ≤ a → a < 0x600000 → (initKernelPaging m).read a = 0 := by
    intro a hlo hhi
    have hbase : pageTableBase.toNat = 0x200000 := rfl
    have hsize : (0x00400000 : BitVec 32).toNat = 0x400000 := rfl
    unfold initKernelPaging memclr
    exact Mem.read_repStosb 0 _ pageTableBase _ (by omega) (by omega) (by omega)
  unfold Mem.load32
  rw [hread _ (by omega) (by omega), hread _ (by omega) (by omega), hread _ (by omega) (by omega),
    hread _ (by omega) (by omega)]
  rfl

/-- What the nine calls say of page `v`. -/
def bootWalk (v : Nat) : Option (Nat × Nat) :=
  (bootRegions.find? fun r => r.Covers v).map fun r => (r.frame v, 7)

/-- Every page that one of the regions covers is mapped to its frame there, present and writable,
and no other page is present. -/
theorem walk_protectModeStart (ram : Mem (BitVec 8)) (v : Fin (2 ^ 20)) :
    (protectModeStart ram).walk v = bootWalk v := by
  have hfits : ∀ r ∈ bootRegions, r.Fits := by decide
  have hgdt : (protectModeStart ram).mem.load32 (0x200000 + 4 * v) =
      (mapRegions bootRegions (initKernelPaging ram)).load32 (0x200000 + 4 * v) := by
    rw [protectModeStart_eq]
    exact Mem.load32_congr fun a hlo _ => read_initGdt _ (.inr (by omega))
  rw [Mmu.walk_of_pteAddr (protectModeStart_tables ram v.isLt), hgdt, bootWalk]
  cases hfind : bootRegions.find? fun r => r.Covers v with
  | some r =>
    have hcov : r.Covers v := by simpa using List.find?_some hfind
    exact entry_mapRegions hfits (by decide +kernel) _ (List.mem_of_find?_eq_some hfind) hcov
  | none =>
    have hnone : ∀ r ∈ bootRegions, ¬ r.Covers v := by
      simpa using List.find?_eq_none.mp hfind
    rw [load32_mapRegions hfits _ hnone, initKernelPaging_table ram v.isLt, Mmu.entry_zero]
    rfl

/-! ## Frames -/

theorem bootWalk_eq_some {v f flags : Nat} (h : bootWalk v = some (f, flags)) :
    ∃ r ∈ bootRegions, r.Covers v ∧ f = r.frame v ∧ flags = 7 := by
  obtain ⟨r, hfind, hr⟩ := Option.map_eq_some_iff.mp h
  obtain ⟨rfl, rfl⟩ := Prod.mk.inj hr
  exact ⟨r, List.mem_of_find?_eq_some hfind, by simpa using List.find?_some hfind, rfl, rfl⟩

theorem bootWalk_of_covers {r : Region} (hr : r ∈ bootRegions) {v : Nat} (h : r.Covers v) :
    bootWalk v = some (r.frame v, 7) := by
  have hpair : ∀ r ∈ bootRegions, ∀ q ∈ bootRegions, r ≠ q → r.Apart q := by decide +kernel
  unfold bootWalk
  cases hfind : bootRegions.find? fun r => r.Covers v with
  | none => exact absurd h (by simpa using List.find?_eq_none.mp hfind r hr)
  | some q =>
    have hcov : q.Covers v := by simpa using List.find?_some hfind
    obtain rfl : r = q := by
      by_contra hne
      have hap := hpair r hr q (List.mem_of_find?_eq_some hfind) hne
      unfold Region.Apart at hap
      obtain ⟨h1, h2⟩ := h
      obtain ⟨h3, h4⟩ := hcov
      omega
    rfl

/-- A region is a window of the memory after boot. -/
theorem maps_protectModeStart (ram : Mem (BitVec 8)) {r : Region} (hr : r ∈ bootRegions) :
    Maps r.targetStartPageIndex.toNat r.startPageIndex.toNat r.pageCount.toNat
      (protectModeStart ram) := by
  have hfits : ∀ r ∈ bootRegions, r.Fits := by decide
  intro i hi
  have hlt : r.targetStartPageIndex.toNat + i < 2 ^ 20 := by
    have hfit := (hfits r hr).1
    omega
  refine ⟨7, ?_⟩
  rw [walk_protectModeStart ram ⟨_, hlt⟩,
    bootWalk_of_covers hr ⟨Nat.le_add_right _ _, Nat.add_lt_add_left hi _⟩, Region.frame,
    Nat.add_sub_cancel_left]

/-- The region of a page other than the two that mm_init takes back. -/
theorem mem_drop_of_covers {r : Region} (hr : r ∈ bootRegions) {v : Nat} (hcov : r.Covers v)
    (h8 : v ≠ 0x8) (h10 : v ≠ 0x10) : r ∈ bootRegions.drop 2 := by
  have hsplit : bootRegions = [⟨0x8, 0x1, 0x8⟩, ⟨0x10, 0x1, 0x10⟩] ++ bootRegions.drop 2 := rfl
  rw [hsplit, List.mem_append] at hr
  refine hr.resolve_left fun hfirst => ?_
  simp only [List.mem_cons, List.not_mem_nil, or_false] at hfirst
  obtain rfl | rfl := hfirst
  · obtain ⟨hlo, hhi⟩ := hcov
    simp only [BitVec.reduceToNat] at hlo hhi
    omega
  · obtain ⟨hlo, hhi⟩ := hcov
    simp only [BitVec.reduceToNat] at hlo hhi
    omega

/-- No frame is mapped twice, once the two identity maps are gone. -/
theorem walk_injective (ram : Mem (BitVec 8)) {v w : Fin (2 ^ 20)} {f flags flags' : Nat}
    (hv : (protectModeStart ram).walk v = some (f, flags))
    (hw : (protectModeStart ram).walk w = some (f, flags')) (hv8 : v.val ≠ 0x8)
    (hv10 : v.val ≠ 0x10) (hw8 : w.val ≠ 0x8) (hw10 : w.val ≠ 0x10) : v = w := by
  rw [walk_protectModeStart] at hv hw
  obtain ⟨r, hr, hcov, hf, -⟩ := bootWalk_eq_some hv
  obtain ⟨q, hq, hcov', hf', -⟩ := bootWalk_eq_some hw
  have hr' := mem_drop_of_covers hr hcov hv8 hv10
  have hq' := mem_drop_of_covers hq hcov' hw8 hw10
  have hpair : ∀ r ∈ bootRegions.drop 2, ∀ q ∈ bootRegions.drop 2, r ≠ q → r.FramesApart q := by
    decide +kernel
  obtain ⟨hlo, hhi⟩ := hcov
  obtain ⟨hlo', hhi'⟩ := hcov'
  unfold Region.frame at hf hf'
  by_cases hrq : r = q
  · subst hrq
    exact Fin.ext (by omega)
  · have hap := hpair r hr' q hq' hrq
    unfold Region.FramesApart at hap
    omega

/-- **The page table after boot.** Whatever RAM held, the table is that of the nine regions, and
no frame is mapped at two pages other than the identity maps of 0x8 and 0x10. -/
theorem protectModeStart_table (ram : Mem (BitVec 8)) :
    (∀ v : Fin (2 ^ 20), (protectModeStart ram).walk v = bootWalk v) ∧
      ∀ v w : Fin (2 ^ 20), ∀ f flags flags', v.val ∉ [0x8, 0x10] → w.val ∉ [0x8, 0x10] →
        (protectModeStart ram).walk v = some (f, flags) →
        (protectModeStart ram).walk w = some (f, flags') → v = w := by
  refine ⟨walk_protectModeStart ram, fun v w f flags flags' hv hw hf hf' => ?_⟩
  simp only [List.mem_cons, List.not_mem_nil, or_false, not_or] at hv hw
  exact walk_injective ram hf hf' hv.1 hv.2 hw.1 hw.2

end ListaOS.Paging
