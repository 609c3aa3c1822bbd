/-
  Disks of sectors, and reading them into memory.

  A sector is a list of bytes of the disk's sector size. `Disk.read` transfers sectors in
  order up to the first one that cannot be read. `data` are the bytes of a run of sectors;
  `read_data` says what a transfer without an error leaves in memory, and
  `writesIn_read` where any transfer stores.
-/
import ListaOS.Lib.Mem

namespace ListaOS.Lib

structure Disk where
  /-- Bytes of a sector. -/
  size : Nat
  sector : Nat → List (BitVec 8)
  length_sector : ∀ n, (sector n).length = size
  readable : Nat → Bool

namespace Disk

variable (D : Disk)

/-- The byte at an offset of a sector. -/
def byte (n i : Nat) : BitVec 8 := (D.sector n).getD i 0

/-- The disk without errors whose sectors start with `t n` and are 0 behind it. -/
def ofPrefixes (size : Nat) (t : Nat → List (BitVec 8)) (h : ∀ n, (t n).length ≤ size) : Disk where
  size := size
  sector n := t n ++ List.replicate (size - (t n).length) 0
  length_sector n := by
    rw [List.length_append, List.length_replicate, Nat.add_sub_cancel' (h n)]
  readable _ := true

/-- Transfer sectors from `lba` on to `a`, up to the first that cannot be read; whether all
could. -/
def read : Nat → Nat → Nat → Mem (BitVec 8) → Mem (BitVec 8) × Bool
  | 0, _, _, m => (m, true)
  | n + 1, lba, a, m =>
      if D.readable lba then read n (lba + 1) (a + D.size) (m.writeList a (D.sector lba))
      else (m, false)

/-- The bytes of `n` sectors from `lba` on. -/
def data (n lba : Nat) : List (BitVec 8) := (List.range' lba n).flatMap D.sector

theorem data_succ (n lba : Nat) : D.data (n + 1) lba = D.sector lba ++ D.data n (lba + 1) := rfl

theorem data_one (lba : Nat) : D.data 1 lba = D.sector lba := List.append_nil _

theorem length_data (n lba : Nat) : (D.data n lba).length = n * D.size := by
  induction n generalizing lba with
  | zero => rw [Nat.zero_mul]; rfl
  | succ n ih => rw [data_succ, List.length_append, D.length_sector, ih, Nat.succ_mul, Nat.add_comm]

/-- Byte `i` of sector `k` of a run. -/
theorem getElem?_data {n k i : Nat} (hk : k < n) (hi : i < D.size) (lba : Nat) :
    (D.data n lba)[k * D.size + i]? = some (D.byte (lba + k) i) := by
  induction n generalizing k lba with
  | zero => exact absurd hk (Nat.not_lt_zero k)
  | succ n ih =>
    have hlen := D.length_sector lba
    rw [data_succ]
    cases k with
    | zero =>
      have hlt : i < (D.sector lba).length := by rwa [hlen]
      rw [Nat.zero_mul, Nat.zero_add, List.getElem?_append_left hlt, byte,
        List.getD_eq_getElem?_getD, Nat.add_zero, List.getElem?_eq_getElem hlt, Option.getD_some]
    | succ k =>
      rw [Nat.succ_mul, List.getElem?_append_right (by omega), hlen,
        show k * D.size + D.size + i - D.size = k * D.size + i by omega,
        ih (by omega) (lba + 1), Nat.add_assoc, Nat.add_comm 1]

theorem writesIn_read (n lba a : Nat) (m : Mem (BitVec 8)) :
    Mem.WritesIn {i | a ≤ i ∧ i < a + n * D.size} m (D.read n lba a m).1 := by
  induction n generalizing lba a m with
  | zero => exact Mem.WritesIn.refl _ m
  | succ n ih =>
    rw [read]
    split
    · refine ((Mem.writesIn_writeList m a (D.sector lba)).mono ?_).trans
        ((ih (lba + 1) (a + D.size) _).mono ?_)
      · intro i hi
        obtain ⟨hlo, hhi⟩ := hi
        rw [D.length_sector] at hhi
        exact ⟨hlo, Nat.lt_of_lt_of_le hhi (by rw [Nat.succ_mul]; omega)⟩
      · intro i hi
        obtain ⟨hlo, hhi⟩ := hi
        exact ⟨by omega, by rw [Nat.succ_mul]; omega⟩
    · exact Mem.WritesIn.refl _ m

/-- All sectors of the run can be read. -/
def AllReadable (n lba : Nat) : Prop := ∀ i < n, D.readable (lba + i) = true

instance (n lba : Nat) : Decidable (D.AllReadable n lba) :=
  inferInstanceAs (Decidable (∀ i < n, _))

theorem allReadable_succ {n lba : Nat} :
    D.AllReadable (n + 1) lba ↔ D.readable lba = true ∧ D.AllReadable n (lba + 1) := by
  constructor
  · intro h
    refine ⟨h 0 (Nat.succ_pos n), fun i hi => ?_⟩
    rw [Nat.add_assoc, Nat.add_comm 1]
    exact h (i + 1) (by omega)
  · rintro ⟨h0, h⟩ i hi
    cases i with
    | zero => exact h0
    | succ i =>
      rw [Nat.add_comm i, ← Nat.add_assoc]
      exact h i (by omega)

theorem read_snd {n lba a : Nat} {m : Mem (BitVec 8)} :
    (D.read n lba a m).2 = true ↔ D.AllReadable n lba := by
  induction n generalizing lba a m with
  | zero => exact iff_of_true rfl fun i hi => absurd hi (Nat.not_lt_zero i)
  | succ n ih =>
    unfold read
    rw [allReadable_succ]
    split
    case isTrue h => rw [ih, and_iff_right h]
    case isFalse h => exact iff_of_false Bool.false_ne_true fun h' => h h'.1

/-- Without an error the bytes of the sectors are in memory. -/
theorem read_data {n lba : Nat} (h : D.AllReadable n lba) (a : Nat) (m : Mem (BitVec 8)) :
    (D.read n lba a m).1 = m.writeList a (D.data n lba) := by
  induction n generalizing lba a m with
  | zero => rfl
  | succ n ih =>
    obtain ⟨h0, hrest⟩ := D.allReadable_succ.mp h
    unfold read
    rw [if_pos h0, ih hrest, data_succ, Mem.writeList_append, D.length_sector]

/-- If the first sector can be read, its first byte is stored. -/
theorem mem_log_read {n lba : Nat} (hn : 0 < n) (hsize : 0 < D.size) (h : D.readable lba = true)
    (a : Nat) (m : Mem (BitVec 8)) : ∃ l, (D.read n lba a m).1.log = l ++ m.log ∧ a ∈ l := by
  cases n with
  | zero => exact absurd hn (Nat.lt_irrefl 0)
  | succ n =>
    have hne : D.sector lba ≠ [] := by
      rw [← List.length_pos_iff, D.length_sector]
      exact hsize
    obtain ⟨l, hl, ha⟩ := Mem.mem_log_writeList m a hne
    obtain ⟨l', hl', -⟩ := (D.writesIn_read n (lba + 1) (a + D.size)
      (m.writeList a (D.sector lba))).log
    refine ⟨l' ++ l, ?_, List.mem_append_right l' ha⟩
    unfold read
    rw [if_pos h, hl', hl, List.append_assoc]

/-- A transfer whose first sector cannot be read stores nothing. -/
theorem read_of_not_readable {n lba : Nat} (hn : 0 < n) (h : ¬ D.readable lba = true) (a : Nat)
    (m : Mem (BitVec 8)) : D.read n lba a m = (m, false) := by
  cases n with
  | zero => exact absurd hn (Nat.lt_irrefl 0)
  | succ n => rw [read, if_neg h]

end Disk

end ListaOS.Lib
