/-
  The PCI function list and the window behind it.

  The virtual address map gives the list 512K from PCI_FUNC_LIST_BASE on, up to
  AHCI_MMIO_BASE: exactly `listSize` entries of 8 bytes, as many as there are functions. The
  terminator needs one more, so the list and its terminator fit exactly when some function is
  not reported (`pciInit_in_region_iff`).
-/
import ListaOS.Pci.Enumerate

namespace ListaOS.Pci

open Lib

def pciFuncListBase : Nat := 0xc0020000

def ahciMmioBase : Nat := 0xc00a0000

/-- `sizeof(PCI_FUNC)`: three bytes, one of padding, and `class_info`. -/
def sizeofPciFunc : Nat := 8

/-- Entry `i` of the list lies in the window of the list. -/
def InRegion (i : Nat) : Prop :=
  pciFuncListBase + sizeofPciFunc * i + sizeofPciFunc ≤ ahciMmioBase

instance (i : Nat) : Decidable (InRegion i) := inferInstanceAs (Decidable (_ ≤ _))

theorem inRegion_iff (i : Nat) : InRegion i ↔ i < listSize := by
  unfold InRegion pciFuncListBase sizeofPciFunc ahciMmioBase listSize
  omega

variable (C : ConfigSpace)

/-! ## How many functions are found -/

theorem length_flatMap_of_length {α β : Type} {f : α → List β} {n : Nat} {l : List α}
    (h : ∀ a ∈ l, (f a).length = n) : (l.flatMap f).length = l.length * n := by
  induction l with
  | nil => rw [List.flatMap_nil, List.length_nil, List.length_nil, Nat.zero_mul]
  | cons a l ih =>
    rw [List.flatMap_cons, List.length_append, h a List.mem_cons_self,
      ih fun b hb => h b (List.mem_cons_of_mem a hb), List.length_cons, Nat.succ_mul,
      Nat.add_comm]

/-- Where a whole device is reported, its loop pushes all eight functions. -/
theorem length_functions {i : BitVec 8} {j : BitVec 5} (h : ∀ k, Reported C i j k) :
    (functions C i j).length = 8 := by
  have hmulti : (C i j 0 3).getLsbD 23 = true := (h 1).2.1.resolve_left (by decide)
  unfold functions
  rw [if_neg (h 0).1, if_pos hmulti, List.filter_eq_self.mpr]
  · rw [List.length_map, List.length_range]
  · intro k _
    exact decide_eq_true (h k).2.2

theorem length_found_of_reported (h : ∀ bus dev func, Reported C bus dev func) :
    (found C).length = listSize := by
  have hdev : ∀ i j, ((functions C i j).map (entry C i j)).length = 8 := by
    intro i j
    rw [List.length_map, length_functions C (h i j)]
  have hbus : ∀ i : BitVec 8, (((List.range 32).map (BitVec.ofNat 5)).flatMap fun j =>
      (functions C i j).map (entry C i j)).length = 256 := by
    intro i
    rw [length_flatMap_of_length fun j _ => hdev i j, List.length_map, List.length_range]
  unfold found
  rw [length_flatMap_of_length fun i _ => hbus i, List.length_map, List.length_range]
  rfl

/-- There are 65536 functions in all. -/
theorem card_functions : Nat.card (BitVec 8 × BitVec 5 × BitVec 3) = listSize := by
  have hcard : ∀ w, Nat.card (BitVec w) = 2 ^ w := fun w => by
    rw [Nat.card_congr ⟨BitVec.toFin, BitVec.ofFin, fun _ => rfl, fun _ => rfl⟩, Nat.card_fin]
  rw [Nat.card_prod, Nat.card_prod, hcard, hcard, hcard]
  rfl

/-- One function missing leaves room. -/
theorem length_found_lt {bus : BitVec 8} {dev : BitVec 5} {func : BitVec 3}
    (h : ¬ Reported C bus dev func) : (found C).length < listSize := by
  have hfin : Finite (BitVec 8 × BitVec 5 × BitVec 3) :=
    Nat.finite_of_card_ne_zero (by rw [card_functions]; exact Nat.succ_ne_zero 65535)
  have hproper : reportedSet C ⊂ Set.univ := by
    refine Set.ssubset_univ_iff.mpr fun hall => h ?_
    have hmem : (bus, dev, func) ∈ reportedSet C := hall ▸ Set.mem_univ _
    exact hmem
  calc (found C).length ≤ (reportedSet C).ncard := length_found_le C
    _ < (Set.univ : Set (BitVec 8 × BitVec 5 × BitVec 3)).ncard :=
      Set.ncard_lt_ncard hproper Set.finite_univ
    _ = listSize := by rw [Set.ncard_univ, card_functions]

/-! ## The stores -/

/-- The loops store to the entries before the terminator, and the terminator behind them. -/
theorem pciInit_writesIn (list : Mem PciFunc) :
    Mem.WritesIn {i | i ≤ (found C).length} list (pciInit C list) := by
  obtain ⟨hwrote, hcount⟩ := wrote_foldl_push (found C) ⟨list, 0⟩
  rw [Nat.zero_add] at hcount
  rw [pciInit, foldl_addBus, hcount]
  have hlast : (found C).length ∈ {i | i ≤ (found C).length} := Nat.le_refl _
  refine (hwrote.writes.mono ?_).trans (Mem.WritesIn.write _ _ hlast)
  intro i hi
  exact Nat.le_trans hi.2 (Nat.le_of_eq (Nat.zero_add _))

/-- The terminator is the last store. -/
theorem log_pciInit (list : Mem PciFunc) :
    ∃ l, (pciInit C list).log = (found C).length :: l ++ list.log := by
  obtain ⟨hwrote, hcount⟩ := wrote_foldl_push (found C) ⟨list, 0⟩
  obtain ⟨l, hl, -⟩ := hwrote.writes.log
  refine ⟨l, ?_⟩
  rw [pciInit, foldl_addBus, hcount, Mem.log_write, Nat.zero_add, hl]
  rfl

theorem not_inRegion_of_full {list : Mem PciFunc} (h : (found C).length = listSize) :
    ¬ Mem.WritesIn {i | InRegion i} list (pciInit C list) := by
  intro hin
  obtain ⟨l, hl⟩ := log_pciInit C list
  have hlast := (inRegion_iff _).mp (hin.mem_of_append hl List.mem_cons_self)
  exact absurd h (Nat.ne_of_lt hlast)

/-- **The list stays in its window**, terminator included, exactly when some function of the
configuration space is not reported. -/
theorem pciInit_in_region_iff (list : Mem PciFunc) :
    Mem.WritesIn {i | InRegion i} list (pciInit C list) ↔
      ∃ bus dev func, ¬ Reported C bus dev func := by
  constructor
  · intro hin
    by_contra hnone
    refine not_inRegion_of_full C (length_found_of_reported C fun bus dev func => ?_) hin
    by_contra hrep
    exact hnone ⟨bus, dev, func, hrep⟩
  · rintro ⟨bus, dev, func, hrep⟩
    have hlt := length_found_lt C hrep
    refine (pciInit_writesIn C list).mono fun i hi => (inRegion_iff i).mpr ?_
    exact Nat.lt_of_le_of_lt hi hlt

/-- A configuration space that answers every read with a vendor and a set bit 23: the
terminator lands on the first register of the AHCI controller. -/
theorem full_config_space_leaves_region :
    ¬ Mem.WritesIn {i | InRegion i} (Mem.fresh fun _ => ⟨0, 0, 0, 0⟩)
      (pciInit (fun _ _ _ _ => 0x00801af4) (Mem.fresh fun _ => ⟨0, 0, 0, 0⟩)) := by
  have hvendor : (0x00801af4 : BitVec 32).setWidth 16 ≠ (0xffff : BitVec 16) := by decide
  have hmulti : (0x00801af4 : BitVec 32).getLsbD 23 = true := by decide
  exact not_inRegion_of_full _
    (length_found_of_reported _ fun _ _ _ => ⟨hvendor, Or.inr hmulti, hvendor⟩)

end ListaOS.Pci
