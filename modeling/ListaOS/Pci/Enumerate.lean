/-
  What pci_init finds.

  The three loops push one list of functions, `found` (`pciInit_eq`): a function of it is
  `Reported` and every reported one is in it, in strictly increasing order. With fewer than
  65536 functions reported, the list and its sentinel stay in the window, and main reads
  `found` back (`pciInit_enumerates`).
-/
import ListaOS.Pci.Basic
import Mathlib.Data.Set.Card

namespace ListaOS.Pci

open Lib

variable (C : ConfigSpace)

/-! ## Specification -/

/-- Function 0 of the device answers, and the function does, and is function 0 or of a
multi-function device. -/
def Reported (bus : BitVec 8) (dev : BitVec 5) (func : BitVec 3) : Prop :=
  (C bus dev 0 0).setWidth 16 ≠ (0xffff : BitVec 16) ∧
    (func = 0 ∨ (C bus dev 0 3).getLsbD 23 = true) ∧
    (C bus dev func 0).setWidth 16 ≠ (0xffff : BitVec 16)

/-- The entry of a function. -/
def entry (bus : BitVec 8) (dev : BitVec 5) (func : BitVec 3) : PciFunc :=
  ⟨bus, dev.setWidth 8, func.setWidth 8, C bus dev func 2⟩

/-- Lexicographic order of bus, device and function. -/
def Before (a b : PciFunc) : Prop :=
  a.bus < b.bus ∨ a.bus = b.bus ∧ (a.dev < b.dev ∨ a.dev = b.dev ∧ a.fun < b.fun)

/-! ## The list the loops push -/

/-- Functions that the loop over functions visits, and pushes. -/
def functions (i : BitVec 8) (j : BitVec 5) : List (BitVec 3) :=
  if (C i j 0 0).setWidth 16 = (0xffff : BitVec 16) then []
  else
    ((List.range (if (C i j 0 3).getLsbD 23 then 8 else 1)).map (BitVec.ofNat 3)).filter
      fun k => (C i j k 0).setWidth 16 ≠ (0xffff : BitVec 16)

def found : List PciFunc :=
  ((List.range 256).map (BitVec.ofNat 8)).flatMap fun i =>
    ((List.range 32).map (BitVec.ofNat 5)).flatMap fun j =>
      (functions C i j).map (entry C i j)

/-- `(x & 0xffff) == 0xffff`. -/
theorem and_eq_iff (x : BitVec 32) :
    x &&& 0xffff = 0xffff ↔ x.setWidth 16 = (0xffff : BitVec 16) := by
  have hand : x.toNat &&& 0xffff = x.toNat % 2 ^ 16 := Nat.and_two_pow_sub_one_eq_mod x.toNat 16
  rw [← BitVec.toNat_inj, ← BitVec.toNat_inj, BitVec.toNat_and, BitVec.toNat_setWidth]
  exact hand ▸ Iff.rfl

/-- `vendor == 0xffff`. -/
theorem vendor_eq_iff (x : BitVec 32) :
    (x &&& 0xffff).setWidth 16 = (0xffff : BitVec 16) ↔ x.setWidth 16 = (0xffff : BitVec 16) := by
  have hand : x.toNat &&& 0xffff = x.toNat % 2 ^ 16 := Nat.and_two_pow_sub_one_eq_mod x.toNat 16
  rw [← BitVec.toNat_inj, ← BitVec.toNat_inj, BitVec.toNat_setWidth, BitVec.toNat_and,
    BitVec.toNat_setWidth]
  rw [show (0xffff : BitVec 32).toNat = 0xffff from rfl, hand, Nat.mod_mod]

/-- `(headerType & 0x80) != 0`. -/
theorem multiFunction_iff (x : BitVec 32) :
    (x >>> 16 &&& 0xff).setWidth 8 &&& 0x80 ≠ (0 : BitVec 8) ↔ x.getLsbD 23 = true := by
  rw [← Bool.not_eq_false, not_iff_not]
  constructor
  · intro h
    have hbit := congrArg (fun y => y.getLsbD 7) h
    simpa using hbit
  · intro h
    ext i hi
    simp only [BitVec.getElem_and, BitVec.getElem_setWidth, BitVec.getLsbD_and,
      BitVec.getLsbD_ushiftRight]
    interval_cases i
    case «7» => simpa using h
    all_goals simp

theorem addFunc_eq (i : BitVec 8) (j : BitVec 5) (s : Scan) (k : BitVec 3) :
    addFunc C i (j.setWidth 8) s k.toNat =
      if (C i j k 0).setWidth 16 ≠ (0xffff : BitVec 16) then s.push (entry C i j k) else s := by
  have hk : BitVec.ofNat 8 k.toNat = k.setWidth 8 := BitVec.ofNat_toNat 8 k
  have h0 := pciReadConfig_eq i j k 0 C
  have h2 := pciReadConfig_eq i j k 2 C
  rw [show (0 : BitVec 6).setWidth 8 = (0 : BitVec 8) from rfl] at h0
  rw [show (2 : BitVec 6).setWidth 8 = (2 : BitVec 8) from rfl] at h2
  unfold addFunc
  simp only [hk, h0, h2, ne_eq, and_eq_iff]
  rfl

theorem foldl_addFunc (i : BitVec 8) (j : BitVec 5) (n : Nat) (hn : n ≤ 8) (s : Scan) :
    (List.range n).foldl (addFunc C i (j.setWidth 8)) s =
      ((((List.range n).map (BitVec.ofNat 3)).filter
        fun k => (C i j k 0).setWidth 16 ≠ (0xffff : BitVec 16)).map (entry C i j)).foldl
          Scan.push s := by
  rw [List.foldl_map, List.foldl_filter, List.foldl_map]
  apply List.foldl_ext
  intro s k hk
  have hk8 : (BitVec.ofNat 3 k).toNat = k := by
    rw [BitVec.toNat_ofNat]
    exact Nat.mod_eq_of_lt (by have := List.mem_range.mp hk; omega)
  have hadd := addFunc_eq C i j s (BitVec.ofNat 3 k)
  rw [hk8] at hadd
  rw [hadd]
  simp only [decide_eq_true_eq]

theorem addDevice_eq (i : BitVec 8) (j : BitVec 5) (s : Scan) :
    addDevice C i s j.toNat = ((functions C i j).map (entry C i j)).foldl Scan.push s := by
  have hj : BitVec.ofNat 8 j.toNat = j.setWidth 8 := BitVec.ofNat_toNat 8 j
  have h0 := pciReadConfig_eq i j 0 0 C
  have h3 := pciReadConfig_eq i j 0 3 C
  rw [show (0 : BitVec 6).setWidth 8 = (0 : BitVec 8) from rfl,
    show (0 : BitVec 3).setWidth 8 = (0 : BitVec 8) from rfl] at h0
  rw [show (3 : BitVec 6).setWidth 8 = (3 : BitVec 8) from rfl,
    show (0 : BitVec 3).setWidth 8 = (0 : BitVec 8) from rfl] at h3
  unfold addDevice functions
  simp only [hj, h0, h3, vendor_eq_iff, multiFunction_iff]
  split
  · rfl
  · exact foldl_addFunc C i j _ (by split <;> decide) s

theorem addBus_eq (i : BitVec 8) (s : Scan) :
    addBus C s i.toNat =
      (((List.range 32).map (BitVec.ofNat 5)).flatMap fun j =>
        (functions C i j).map (entry C i j)).foldl Scan.push s := by
  rw [List.foldl_flatMap, List.foldl_map]
  apply List.foldl_ext
  intro s j hj
  have hj32 : (BitVec.ofNat 5 j).toNat = j := by
    rw [BitVec.toNat_ofNat]
    exact Nat.mod_eq_of_lt (List.mem_range.mp hj)
  have hdev := addDevice_eq C i (BitVec.ofNat 5 j) s
  rw [hj32] at hdev
  rw [BitVec.ofNat_toNat, BitVec.setWidth_eq]
  exact hdev

/-- The loops push `found`. -/
theorem foldl_addBus (s : Scan) :
    (List.range 256).foldl (addBus C) s = (found C).foldl Scan.push s := by
  unfold found
  rw [List.foldl_flatMap, List.foldl_map]
  apply List.foldl_ext
  intro s i hi
  have hi256 : (BitVec.ofNat 8 i).toNat = i := by
    rw [BitVec.toNat_ofNat]
    exact Nat.mod_eq_of_lt (List.mem_range.mp hi)
  have hbus := addBus_eq C (BitVec.ofNat 8 i) s
  rwa [hi256] at hbus

/-! ## Members and order -/

theorem mem_range_map {w : Nat} (x : BitVec w) : x ∈ (List.range (2 ^ w)).map (BitVec.ofNat w) :=
  List.mem_map.mpr ⟨x.toNat, List.mem_range.mpr x.isLt, by simp⟩

/-- The numbers below a bound, as bit vectors, are increasing. -/
theorem pairwise_range_map {w n : Nat} (hn : n ≤ 2 ^ w) :
    ((List.range n).map (BitVec.ofNat w)).Pairwise (· < ·) := by
  rw [List.pairwise_map]
  refine List.pairwise_lt_range.imp_of_mem fun {i j} hi hj hlt => ?_
  have hi := List.mem_range.mp hi
  have hj := List.mem_range.mp hj
  rw [BitVec.lt_def, BitVec.toNat_ofNat, BitVec.toNat_ofNat, Nat.mod_eq_of_lt (by omega),
    Nat.mod_eq_of_lt (by omega)]
  exact hlt

theorem mem_functions {i : BitVec 8} {j : BitVec 5} {k : BitVec 3} :
    k ∈ functions C i j ↔ Reported C i j k := by
  unfold functions Reported
  split
  case isTrue h => exact iff_of_false List.not_mem_nil fun hrep => hrep.1 h
  case isFalse h =>
    have hk : k ∈ (List.range (if (C i j 0 3).getLsbD 23 = true then 8 else 1)).map (BitVec.ofNat 3) ↔
        k = 0 ∨ (C i j 0 3).getLsbD 23 = true := by
      split
      case isTrue hm => exact iff_of_true (mem_range_map k) (Or.inr hm)
      case isFalse hm =>
        rw [or_iff_left hm]
        exact List.mem_singleton
    rw [List.mem_filter, hk, decide_eq_true_eq]
    exact ⟨fun hmem => ⟨h, hmem⟩, fun hrep => hrep.2⟩

theorem mem_found {e : PciFunc} :
    e ∈ found C ↔ ∃ bus dev func, Reported C bus dev func ∧ e = entry C bus dev func := by
  constructor
  · intro he
    obtain ⟨i, -, he⟩ := List.mem_flatMap.mp he
    obtain ⟨j, -, he⟩ := List.mem_flatMap.mp he
    obtain ⟨k, hk, rfl⟩ := List.mem_map.mp he
    exact ⟨i, j, k, (mem_functions C).mp hk, rfl⟩
  · rintro ⟨i, j, k, hrep, rfl⟩
    refine List.mem_flatMap.mpr ⟨i, mem_range_map i, List.mem_flatMap.mpr ⟨j, mem_range_map j, ?_⟩⟩
    exact List.mem_map.mpr ⟨k, (mem_functions C).mpr hrep, rfl⟩

theorem setWidth_lt {v w : Nat} (h : v ≤ w) {x y : BitVec v} (hlt : x < y) :
    x.setWidth w < y.setWidth w := by
  rw [BitVec.lt_def, BitVec.toNat_setWidth_of_le h, BitVec.toNat_setWidth_of_le h]
  exact hlt

theorem pairwise_functions (i : BitVec 8) (j : BitVec 5) : (functions C i j).Pairwise (· < ·) := by
  unfold functions
  split
  · exact List.Pairwise.nil
  · exact (pairwise_range_map (by split <;> decide)).filter _

/-- The list is in increasing order. -/
theorem pairwise_found : (found C).Pairwise Before := by
  refine List.pairwise_flatMap.mpr ⟨fun i _ => List.pairwise_flatMap.mpr ⟨fun j _ => ?_, ?_⟩, ?_⟩
  · rw [List.pairwise_map]
    exact (pairwise_functions C i j).imp fun hlt =>
      Or.inr ⟨rfl, Or.inr ⟨rfl, setWidth_lt (by decide) hlt⟩⟩
  · refine (pairwise_range_map (by decide)).imp fun {j j'} hlt a ha b hb => ?_
    obtain ⟨k, -, rfl⟩ := List.mem_map.mp ha
    obtain ⟨k', -, rfl⟩ := List.mem_map.mp hb
    exact Or.inr ⟨rfl, Or.inl (setWidth_lt (by decide) hlt)⟩
  · refine (pairwise_range_map (by decide)).imp fun {i i'} hlt a ha b hb => ?_
    obtain ⟨j, -, ha⟩ := List.mem_flatMap.mp ha
    obtain ⟨k, -, rfl⟩ := List.mem_map.mp ha
    obtain ⟨j', -, hb⟩ := List.mem_flatMap.mp hb
    obtain ⟨k', -, rfl⟩ := List.mem_map.mp hb
    exact Or.inl hlt

theorem not_before_self (a : PciFunc) : ¬ Before a a := by
  rintro (h | ⟨-, h | ⟨-, h⟩⟩)
  · exact absurd h (BitVec.lt_irrefl _)
  · exact absurd h (BitVec.lt_irrefl _)
  · exact absurd h (BitVec.lt_irrefl _)

/-- The functions of a configuration space. -/
def reportedSet : Set (BitVec 8 × BitVec 5 × BitVec 3) := {f | Reported C f.1 f.2.1 f.2.2}

theorem length_found_le : (found C).length ≤ (reportedSet C).ncard := by
  have hnodup : (found C).Nodup :=
    (pairwise_found C).imp fun {a b} hab heq => by
      rw [show a = b from heq] at hab
      exact not_before_self b hab
  have hfin : (reportedSet C).Finite := by
    have hinj : ∀ w, Finite (BitVec w) := fun w =>
      Finite.of_injective BitVec.toFin fun x y h => BitVec.eq_of_toFin_eq h
    have := hinj 8
    have := hinj 5
    have := hinj 3
    exact Set.toFinite _
  have himage : ((found C).toFinset : Set PciFunc) ⊆
      (fun f => entry C f.1 f.2.1 f.2.2) '' reportedSet C := by
    intro e he
    obtain ⟨bus, dev, func, hrep, rfl⟩ := (mem_found C).mp (List.mem_toFinset.mp he)
    exact ⟨(bus, dev, func), hrep, rfl⟩
  calc (found C).length = (found C).toFinset.card := (List.toFinset_card_of_nodup hnodup).symm
    _ = ((found C).toFinset : Set PciFunc).ncard := (Set.ncard_coe_finset _).symm
    _ ≤ ((fun f => entry C f.1 f.2.1 f.2.2) '' reportedSet C).ncard :=
      Set.ncard_le_ncard himage (hfin.image _)
    _ ≤ (reportedSet C).ncard := Set.ncard_image_le hfin

/-! ## The list in memory -/

/-- Pushing a list writes it from `count` on. -/
theorem wrote_foldl_push (L : List PciFunc) (s : Scan) :
    Mem.Wrote s.count L s.list (L.foldl Scan.push s).list ∧
      (L.foldl Scan.push s).count = s.count + L.length := by
  induction L generalizing s with
  | nil => exact ⟨Mem.Wrote.nil _ _, rfl⟩
  | cons f L ih =>
    obtain ⟨hwrote, hcount⟩ := ih (s.push f)
    refine ⟨(Mem.Wrote.single s.count f s.list).trans hwrote, ?_⟩
    rw [List.foldl_cons, hcount, List.length_cons]
    simp only [Scan.push]
    omega

/-- main reads the entries up to the sentinel. -/
theorem readList_returns {list : Mem PciFunc} {L : List PciFunc} {a : Nat}
    (hL : ∀ i f, L[i]? = some f → list.read (a + i) = f) (hfun : ∀ f ∈ L, f.fun ≠ 0xff)
    (hend : (list.read (a + L.length)).fun = 0xff) : Returns (fun n => readList list n a) L := by
  induction L generalizing a with
  | nil =>
    refine Returns.succ ((Returns.pure []).congr fun n => ?_)
    have hz : (list.read a).fun = 0xff := hend
    unfold readList
    rw [if_neg (not_not.mpr hz)]
  | cons f L ih =>
    have hf : list.read a = f := hL 0 f rfl
    have hrest := ih (a := a + 1) (fun i g hi => by rw [Nat.add_assoc, Nat.add_comm 1]; exact hL (i + 1) g hi)
      (fun g hg => hfun g (List.mem_cons_of_mem f hg))
      (by rw [Nat.add_assoc, Nat.add_comm 1]; exact hend)
    refine Returns.succ ((hrest.map (f :: ·)).congr fun n => ?_)
    rw [readList, hf, if_pos (hfun f List.mem_cons_self)]

theorem entry_fun_ne (bus : BitVec 8) (dev : BitVec 5) (func : BitVec 3) :
    (entry C bus dev func).fun ≠ 0xff := by
  intro h
  have hlt := func.isLt
  have hnat := congrArg BitVec.toNat h
  rw [entry, BitVec.toNat_setWidth_of_le (by decide)] at hnat
  simp only [BitVec.reduceToNat] at hnat
  omega

/-- **pci_init.** For a configuration space with fewer than 65536 functions, and whatever the
window holds, main reads a list back that has each reported function once, in increasing
order, with its class register, and nothing else; no store is outside the window. -/
theorem pciInit_enumerates (list : Mem PciFunc) (hfew : (reportedSet C).ncard < listSize) :
    ∃ L, Returns (fun n => readList (pciInit C list) n 0) L ∧ L.Pairwise Before ∧
      (∀ e, e ∈ L ↔ ∃ bus dev func, Reported C bus dev func ∧ e = entry C bus dev func) ∧
      Mem.WritesIn {i | i < listSize} list (pciInit C list) := by
  have hlen : (found C).length < listSize := Nat.lt_of_le_of_lt (length_found_le C) hfew
  obtain ⟨hwrote, hcount⟩ := wrote_foldl_push (found C) ⟨list, 0⟩
  have hterm := hwrote.terminate ⟨0xff, 0xff, 0xff, 0xffffffff⟩
  have hinit : pciInit C list = ((found C).foldl Scan.push ⟨list, 0⟩).list.write
      (0 + (found C).length) ⟨0xff, 0xff, 0xff, 0xffffffff⟩ := by
    rw [pciInit, foldl_addBus, hcount]
  rw [hinit]
  refine ⟨found C, readList_returns hterm.text ?_ ?_, pairwise_found C, fun e => mem_found C,
    hterm.writes.mono ?_⟩
  · intro f hf
    obtain ⟨bus, dev, func, -, rfl⟩ := (mem_found C).mp hf
    exact entry_fun_ne C bus dev func
  · rw [Mem.read_write_self]
  · intro i hi
    have hle : i ≤ 0 + (found C).length := hi.2
    show i < listSize
    omega

/-- A host bridge alone on bus 0. -/
theorem pciInit_enumerates_host_bridge :
    let C : ConfigSpace := fun bus dev func reg =>
      if bus = 0 ∧ dev = 0 ∧ func = 0 then (if reg = 0 then 0x12378086 else 0x06000002)
      else 0xffffffff
    ∃ L, Returns (fun n => readList (pciInit C (Mem.fresh fun _ => ⟨0, 0, 0, 0⟩)) n 0) L ∧
      L.Pairwise Before ∧
      (∀ e, e ∈ L ↔ ∃ bus dev func, Reported C bus dev func ∧ e = entry C bus dev func) ∧
      Mem.WritesIn {i | i < listSize} (Mem.fresh fun _ => ⟨0, 0, 0, 0⟩)
        (pciInit C (Mem.fresh fun _ => ⟨0, 0, 0, 0⟩)) := by
  intro C
  refine pciInit_enumerates C _ ?_
  have hone : reportedSet C ⊆ {(0, 0, 0)} := by
    rintro ⟨bus, dev, func⟩ ⟨-, -, hrep⟩
    by_contra hne
    have hnone : ¬ (bus = 0 ∧ dev = 0 ∧ func = 0) := fun h => hne (by simp [h])
    have hval : C bus dev func 0 = 0xffffffff := if_neg hnone
    exact hrep (congrArg (BitVec.setWidth 16) hval)
  calc (reportedSet C).ncard ≤ Set.ncard {(0, 0, 0)} := Set.ncard_le_ncard hone (Set.finite_singleton _)
    _ = 1 := Set.ncard_singleton _
    _ < listSize := by decide

end ListaOS.Pci
