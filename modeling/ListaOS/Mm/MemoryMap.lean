/-
  Memory maps that end at or below 64 GiB, and those that end at or below 4 GiB.

  For such maps no 64-bit value of mm_init and no page number wraps, and the walk over an
  entry is plain: it marks the page `p` exactly when the entry is kept (it starts on a page
  boundary, or below 0x2000) and `[4096 p, 4096 p + 4096)`, moved up by the offset of
  the entry's start in its page, lies inside the entry (`BiosMeminfo.Marks`).
  `mem_freePages_mmInit_of_le` restates the free pages after mm_init with it. Below 4 GiB
  the 32-bit addresses of the pages do not wrap either.
-/
import ListaOS.Mm.Init

namespace ListaOS.Mm

open Lib

namespace BiosMeminfo

/-- The entry ends at or below 4 GiB. -/
def EndsBelow4G (e : BiosMeminfo) : Prop := e.addr.toNat + e.size.toNat ≤ 2 ^ 32

instance (e : BiosMeminfo) : Decidable e.EndsBelow4G :=
  inferInstanceAs (Decidable (_ ≤ _))

/-- The entry ends at or below 64 GiB. -/
def EndsBelow64G (e : BiosMeminfo) : Prop := e.addr.toNat + e.size.toNat ≤ 2 ^ 36

instance (e : BiosMeminfo) : Decidable e.EndsBelow64G :=
  inferInstanceAs (Decidable (_ ≤ _))

/-- mm_init does not skip the entry (below 64 GiB). -/
def Kept (e : BiosMeminfo) : Prop := e.addr.toNat % 4096 = 0 ∨ e.addr.toNat < 0x2000

/-- The page loop over `e` marks the page `p`. -/
def Marks (e : BiosMeminfo) (p : Nat) : Prop :=
  e.Kept ∧ 0x800 ≤ p ∧ e.addr.toNat ≤ 4096 * p + e.addr.toNat % 4096 ∧
    4096 * p + e.addr.toNat % 4096 + 4096 ≤ e.addr.toNat + e.size.toNat

/-- Page `p` and the entry have a byte in common. -/
def Meets (e : BiosMeminfo) (p : Nat) : Prop :=
  0 < e.size.toNat ∧ e.addr.toNat < 4096 * p + 4096 ∧ 4096 * p < e.addr.toNat + e.size.toNat

instance (e : BiosMeminfo) (p : Nat) : Decidable (e.Marks p) :=
  inferInstanceAs (Decidable ((_ ∨ _) ∧ _ ∧ _ ∧ _))

instance (e : BiosMeminfo) (p : Nat) : Decidable (e.Meets p) :=
  inferInstanceAs (Decidable (_ ∧ _ ∧ _))

/-- Where the walk over an entry goes, from `USABLE_PHY_ADDR_BASE` on. -/
theorem walks_iff_of_le {e : BiosMeminfo} (he : e.EndsBelow64G) {a : Nat} (ha : 0x800000 ≤ a) :
    e.Walks a ↔ e.Kept ∧ e.addr.toNat ≤ a ∧ a + 4096 ≤ e.addr.toNat + e.size.toNat ∧
      a % 4096 = e.addr.toNat % 4096 := by
  unfold EndsBelow64G at he
  unfold Walks walkLength walkGap walkStart Kept
  generalize e.addr.toNat = d at *
  generalize e.size.toNat = z at *
  by_cases h : d % 4096 = 0
  · simp only [h, if_true, true_or, true_and]
    have hgap : (d + 2 ^ 64 - d) % 2 ^ 64 = 0 := by omega
    rw [hgap, Nat.sub_zero]
    constructor
    · intro hin
      obtain ⟨j, hj, rfl⟩ := hin
      omega
    · intro hin
      obtain ⟨h1, h2, h3⟩ := hin
      exact ⟨(a - d) / 4096, by omega, by omega⟩
  · simp only [h, if_false, false_or]
    -- an unaligned entry from 0x2000 on has a gap of almost 2^64 and is skipped
    by_cases hd : d < 0x2000
    · constructor
      · intro hin
        obtain ⟨j, hj, rfl⟩ := hin
        omega
      · intro hin
        obtain ⟨_, h1, h2, h3⟩ := hin
        exact ⟨(a - (d % 4096 + 4096)) / 4096, by omega, by omega⟩
    · constructor
      · intro hin
        obtain ⟨j, hj, rfl⟩ := hin
        omega
      · intro hin
        obtain ⟨h1, _⟩ := hin
        omega

theorem EndsBelow4G.le {e : BiosMeminfo} (he : e.EndsBelow4G) : e.EndsBelow64G := by
  unfold EndsBelow4G at he
  unfold EndsBelow64G
  omega

/-- A marked page lies wholly inside the entry. -/
theorem Marks.inside {e : BiosMeminfo} {p : Nat} (h : e.Marks p) :
    e.addr.toNat ≤ 4096 * p ∧ 4096 * p + 4096 ≤ e.addr.toNat + e.size.toNat := by
  obtain ⟨hk, hp, h1, h2⟩ := h
  unfold Kept at hk
  omega

theorem Marks.lt {e : BiosMeminfo} {p : Nat} (h : e.Marks p) (he : e.EndsBelow4G) :
    p < 2 ^ 20 := by
  have := h.inside
  unfold EndsBelow4G at he
  omega

/-- The pages an entry marks are those of the addresses its walk visits. -/
theorem marks_iff_walks_of_le {e : BiosMeminfo} (he : e.EndsBelow64G) (p : Nat) :
    e.Marks p ↔ ∃ a, e.Walks a ∧ 0x800000 ≤ a ∧ p = pageOf a := by
  have hend := he
  unfold EndsBelow64G at hend
  refine ⟨fun hmark => ?_, fun hin => ?_⟩
  · have hinside := hmark.inside
    obtain ⟨hk, hp, h1, h2⟩ := hmark
    refine ⟨4096 * p + e.addr.toNat % 4096, ?_, by omega, ?_⟩
    · exact (walks_iff_of_le he (by omega)).mpr ⟨hk, h1, h2, by omega⟩
    · unfold pageOf
      omega
  · obtain ⟨a, hw, ha, rfl⟩ := hin
    obtain ⟨hk, h1, h2, h3⟩ := (walks_iff_of_le he ha).mp hw
    have hlow : a / 4096 < 2 ^ 32 := by omega
    refine ⟨hk, ?_⟩
    unfold pageOf
    rw [Nat.mod_eq_of_lt hlow]
    omega

theorem marks_iff_walks {e : BiosMeminfo} (he : e.EndsBelow4G) (p : Nat) :
    e.Marks p ↔ ∃ a, e.Walks a ∧ 0x800000 ≤ a ∧ p = pageOf a :=
  marks_iff_walks_of_le he.le p

end BiosMeminfo

/-- Every entry ends at or below 4 GiB. -/
def LowMap (m : List BiosMeminfo) : Prop := ∀ e ∈ m, e.EndsBelow4G

instance (m : List BiosMeminfo) : Decidable (LowMap m) :=
  inferInstanceAs (Decidable (∀ e ∈ m, e.EndsBelow4G))

/-- **The free pages after mm_init**, for a map that ends at or below 64 GiB. -/
theorem mem_freePages_mmInit_of_le {m : List BiosMeminfo} (hm : ∀ e ∈ m, e.EndsBelow64G)
    (ram : Nat → BitVec 32) (pt : Mem (BitVec 32)) (p : Nat) :
    p ∈ freePages (mmInit m (bootState ram pt)) ↔ ∃ e ∈ m, e.type = 1 ∧ e.Marks p := by
  rw [mem_freePages_mmInit]
  refine exists_congr fun e => and_congr_right fun hem => and_congr_right fun _ => ?_
  exact (BiosMeminfo.marks_iff_walks_of_le (hm e hem) p).symm

theorem mem_freePages_mmInit_low {m : List BiosMeminfo} (hm : LowMap m) (ram : Nat → BitVec 32)
    (pt : Mem (BitVec 32)) (p : Nat) :
    p ∈ freePages (mmInit m (bootState ram pt)) ↔ ∃ e ∈ m, e.type = 1 ∧ e.Marks p :=
  mem_freePages_mmInit_of_le (fun e he => (hm e he).le) ram pt p

/-- Below 4 GiB every free page lies between the kernel's memory and 4 GiB. -/
theorem freePages_mmInit_bounds {m : List BiosMeminfo} (hm : LowMap m) (ram : Nat → BitVec 32)
    (pt : Mem (BitVec 32)) {p : Nat} (hp : p ∈ freePages (mmInit m (bootState ram pt))) :
    0x800 ≤ p ∧ p < 2 ^ 20 := by
  obtain ⟨e, hem, _, hmark⟩ := (mem_freePages_mmInit_low hm ram pt p).mp hp
  exact ⟨hmark.2.1, hmark.lt (hm e hem)⟩

end ListaOS.Mm
