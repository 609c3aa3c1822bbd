/-
  How exact the bitmap is.

  mm_init moves an entry that does not start on a page boundary to `addr % 0x1000 + 0x1000`,
  not to the next page boundary. From 0x2000 on that lies below the entry, the distance wraps
  and the whole entry is skipped; below 0x2000 the walk keeps the offset in its page, and the
  entry loses its last page if that ends less than the offset before the entry does. These are
  the pages an entry loses (`BiosMeminfo.Loses`).

  `bitmap_exact_iff`: for maps that end at or below 64 GiB, the bitmap is exact if and only if
  every page an entry loses is marked by another.
-/
import ListaOS.Mm.MemoryMap

namespace ListaOS.Mm

open Lib

namespace BiosMeminfo

/-- The whole page lies inside the entry. -/
def Covers (e : BiosMeminfo) (p : Nat) : Prop :=
  e.addr.toNat ≤ 4096 * p ∧ 4096 * p + 4096 ≤ e.addr.toNat + e.size.toNat

/-- A whole page of an entry with an unaligned start that the entry's walk does not mark. -/
def Loses (e : BiosMeminfo) (p : Nat) : Prop :=
  e.addr.toNat % 4096 ≠ 0 ∧ e.Covers p ∧
    (0x2000 ≤ e.addr.toNat ∨
      e.addr.toNat + e.size.toNat < 4096 * p + 4096 + e.addr.toNat % 4096)

instance (e : BiosMeminfo) (p : Nat) : Decidable (e.Covers p) :=
  inferInstanceAs (Decidable (_ ∧ _))

instance (e : BiosMeminfo) (p : Nat) : Decidable (e.Loses p) :=
  inferInstanceAs (Decidable (_ ∧ _ ∧ (_ ∨ _)))

/-- The whole pages of an entry are those it marks and those it loses. -/
theorem covers_iff (e : BiosMeminfo) {p : Nat} (hp : 0x800 ≤ p) :
    e.Covers p ↔ e.Marks p ∨ e.Loses p := by
  constructor
  · intro hcov
    by_cases hlose : e.Loses p
    · exact Or.inr hlose
    · left
      obtain ⟨h1, h2⟩ := hcov
      unfold Loses Covers at hlose
      unfold Marks Kept
      omega
  · intro hin
    obtain hmark | hlose := hin
    · exact hmark.inside
    · exact hlose.2.1

end BiosMeminfo

/-- **The bitmap is exact** when, and only when, every page that an entry of RAM loses is marked
by another entry of RAM. -/
theorem bitmap_exact_iff (m : List BiosMeminfo) (hm : ∀ e ∈ m, e.EndsBelow64G)
    (ram : Nat → BitVec 32) (pt : Mem (BitVec 32)) :
    (∀ p, (p / 32 < (mmInit m (bootState ram pt)).physMemBitmapSize ∧
        Bitmap.bit (mmInit m (bootState ram pt)).physMemBitmap p = true) ↔
          0x800 ≤ p ∧ ∃ e ∈ m, e.type = 1 ∧ e.Covers p) ↔
      ∀ e ∈ m, e.type = 1 → ∀ p, 0x800 ≤ p → e.Loses p →
        ∃ e' ∈ m, e'.type = 1 ∧ e'.Marks p := by
  have hmem : ∀ p, (p / 32 < (mmInit m (bootState ram pt)).physMemBitmapSize ∧
      Bitmap.bit (mmInit m (bootState ram pt)).physMemBitmap p = true) ↔
        ∃ e ∈ m, e.type = 1 ∧ e.Marks p := by
    intro p
    rw [← mem_freePages_mmInit_of_le hm ram pt, freePages, Bitmap.mem_members,
      Nat.div_lt_iff_lt_mul (by decide), Nat.mul_comm]
  simp only [hmem]
  constructor
  · intro hexact e he ht p hp hlose
    exact (hexact p).mpr ⟨hp, e, he, ht, hlose.2.1⟩
  · intro hlost p
    constructor
    · intro hin
      obtain ⟨e, he, ht, hmark⟩ := hin
      exact ⟨hmark.2.1, e, he, ht, hmark.inside⟩
    · intro hin
      obtain ⟨hp, e, he, ht, hcov⟩ := hin
      obtain hmark | hlose := (e.covers_iff hp).mp hcov
      · exact ⟨e, he, ht, hmark⟩
      · exact hlost e he ht p hp hlose

/-- RAM from 0x800000 on: nothing is lost. -/
theorem bitmap_exact_iff_aligned :
    (∀ p, (p / 32 < (mmInit [⟨0x800000, 0x2800, 1⟩]
          (bootState (fun _ => 0) (Mem.fresh fun _ => 0))).physMemBitmapSize ∧
        Bitmap.bit (mmInit [⟨0x800000, 0x2800, 1⟩]
          (bootState (fun _ => 0) (Mem.fresh fun _ => 0))).physMemBitmap p = true) ↔
          0x800 ≤ p ∧ ∃ e ∈ [(⟨0x800000, 0x2800, 1⟩ : BiosMeminfo)], e.type = 1 ∧ e.Covers p) ↔
      ∀ e ∈ [(⟨0x800000, 0x2800, 1⟩ : BiosMeminfo)], e.type = 1 → ∀ p, 0x800 ≤ p → e.Loses p →
        ∃ e' ∈ [(⟨0x800000, 0x2800, 1⟩ : BiosMeminfo)], e'.type = 1 ∧ e'.Marks p :=
  bitmap_exact_iff _ (by decide) _ _

/-- RAM that starts in the middle of page 0x800 and holds page 0x801: the bitmap has a bit for
that page, and it is clear. -/
theorem unaligned_page_lost :
    let m : List BiosMeminfo := [⟨0x800800, 0x2000, 1⟩, ⟨0x800000, 0x10000, 2⟩]
    let s := mmInit m (bootState (fun _ => 0) (Mem.fresh fun _ => 0))
    (∃ e ∈ m, e.type = 1 ∧ e.Covers 0x801) ∧ 0x801 / 32 < s.physMemBitmapSize ∧
      Bitmap.bit s.physMemBitmap 0x801 = false := by
  exact ⟨⟨_, List.mem_cons_self, rfl, by decide⟩, by decide +kernel, by decide +kernel⟩

end ListaOS.Mm
