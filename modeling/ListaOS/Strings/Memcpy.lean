/-
  memcpy for every count and every pair of ranges (libkernel/string.c).

  `eax` and `ebx` count modulo 2^32, so a range is given by the pointer after `i` increments
  (`byteAt`) and may run over the top of the address space. `Moved` is what a call is for:
  the first `n` bytes of the source are at the destination, and every other byte is what it
  was. The loop moves `copied ecx` bytes (`memcpyStart_returns`), which is `n` for the counts
  from 1 to 2^31 - 1 and one byte for 0 and for the counts that are negative as signed numbers.
  `memcpy_moves_iff` says when that one byte makes no difference.
-/
import ListaOS.Strings.Copy

namespace ListaOS.Strings

open Lib

/-- `m'` is `m` with the `n` bytes from `src` on at `dst`. -/
structure Moved (dst src : BitVec 32) (n : Nat) (m m' : Bytes) : Prop where
  bytes : ∀ i < n, m'.read (byteAt dst i) = m.read (byteAt src i)
  others : ∀ a, (∀ i < n, a ≠ byteAt dst i) → m'.read a = m.read a

/-- memcpy returns `dst` and has moved the `n` bytes. -/
def Moves (m : Bytes) (dst src n : BitVec 32) : Prop :=
  ∃ m', Returns (fun k => memcpy k dst src n m) (m', dst) ∧ Moved dst src n.toNat m m'

/-- A count that the signed test takes for 0 or less moves one byte, whatever the ranges. -/
theorem memcpy_one {n : BitVec 32} (hn : ¬ (1 ≤ n.toNat ∧ n.toNat < 2 ^ 31))
    (dst src : BitVec 32) (m : Bytes) :
    Returns (fun k => memcpy k dst src n m) (m.write dst.toNat (m.read src.toNat), dst) := by
  have hjg : ¬ decJg n = true := by
    rw [decJg_iff]
    omega
  have hstart : Returns (fun k => memcpyStart k dst src n m)
      (m.write dst.toNat (m.read src.toNat)) := by
    refine Returns.succ ((Returns.pure _).congr fun k => ?_)
    rw [memcpyStart, if_neg hjg]
  exact hstart.map (·, dst)

theorem moves_of_positive {m : Bytes} {dst src n : BitVec 32} (hapart : Apart dst src n.toNat)
    (hn : 1 ≤ n.toNat ∧ n.toNat < 2 ^ 31) : Moves m dst src n := by
  have hcopied : copied n = n.toNat := if_pos hn
  obtain ⟨m', hret, hmoved⟩ := memcpyStart_returns hcopied hapart m
  refine ⟨m', hret.map (·, dst), hmoved.bytes, fun a ha => hmoved.writes.read a ?_⟩
  rintro ⟨i, hi, rfl⟩
  exact ha i hi rfl

/-- With one byte moved, the call is right exactly if the bytes it leaves out, or the one byte
that it should not touch, read the same before. -/
theorem moves_iff_of_one {m : Bytes} {dst src n : BitVec 32}
    (hn : ¬ (1 ≤ n.toNat ∧ n.toNat < 2 ^ 31)) :
    Moves m dst src n ↔ Moved dst src n.toNat m (m.write dst.toNat (m.read src.toNat)) := by
  have hone := memcpy_one hn dst src m
  refine ⟨fun hmoves => ?_, fun hmoved => ⟨_, hone, hmoved⟩⟩
  obtain ⟨m', hret, hmoved⟩ := hmoves
  have hmem : m' = m.write dst.toNat (m.read src.toNat) := congrArg Prod.fst (hret.unique hone)
  rwa [hmem] at hmoved

theorem moved_zero_iff {m : Bytes} {dst src : BitVec 32} :
    Moved dst src 0 m (m.write dst.toNat (m.read src.toNat)) ↔
      m.read dst.toNat = m.read src.toNat := by
  constructor
  · intro h
    have hkept := h.others dst.toNat fun i hi => absurd hi (Nat.not_lt_zero i)
    rw [Mem.read_write_self] at hkept
    exact hkept.symm
  · intro heq
    refine ⟨fun i hi => absurd hi (Nat.not_lt_zero i), fun a _ => ?_⟩
    rw [Mem.read_write]
    split
    case isTrue ha => rw [ha, heq]
    case isFalse => rfl

theorem moved_large_iff {m : Bytes} {dst src : BitVec 32} {n : Nat} (hpos : 0 < n)
    (hn : n < 2 ^ 32) :
    Moved dst src n m (m.write dst.toNat (m.read src.toNat)) ↔
      ∀ i, 1 ≤ i → i < n → m.read (byteAt dst i) = m.read (byteAt src i) := by
  have hrest : ∀ i, 1 ≤ i → i < n → byteAt dst i ≠ dst.toNat := by
    intro i hi hlt
    obtain ⟨j, rfl⟩ : ∃ j, i = j + 1 := ⟨i - 1, by omega⟩
    exact byteAt_succ_ne dst (by omega)
  constructor
  · intro h i hi hlt
    have hbyte := h.bytes i hlt
    rwa [Mem.read_write_of_ne _ _ (hrest i hi hlt)] at hbyte
  · intro h
    refine ⟨fun i hlt => ?_, fun a ha => ?_⟩
    · cases i with
      | zero => simp
      | succ i =>
        rw [Mem.read_write_of_ne _ _ (hrest _ (Nat.succ_pos i) hlt)]
        exact h _ (Nat.succ_pos i) hlt
    · have hne := ha 0 hpos
      rw [byteAt_zero] at hne
      exact Mem.read_write_of_ne m _ hne

/-- **memcpy.** Between ranges without a common byte, it moves the `n` bytes and changes no
other one exactly if `n` is 1 to 2^31 - 1, or `n` is 0 and the first bytes are equal already,
or `n` is 2^31 or more and all bytes behind the first are. -/
theorem memcpy_moves_iff (m : Bytes) (dst src n : BitVec 32) (h : Apart dst src n.toNat) :
    Moves m dst src n ↔
      (1 ≤ n.toNat ∧ n.toNat < 2 ^ 31) ∨
      (n = 0 ∧ m.read dst.toNat = m.read src.toNat) ∨
      (2 ^ 31 ≤ n.toNat ∧
        ∀ i, 1 ≤ i → i < n.toNat → m.read (byteAt dst i) = m.read (byteAt src i)) := by
  by_cases hn : 1 ≤ n.toNat ∧ n.toNat < 2 ^ 31
  · exact iff_of_true (moves_of_positive h hn) (Or.inl hn)
  rw [moves_iff_of_one hn, or_iff_right hn]
  by_cases hzero : n = 0
  · have hnat : n.toNat = 0 := by
      rw [hzero]
      rfl
    rw [hnat, moved_zero_iff, and_iff_right hzero, or_iff_left fun hlarge => by omega]
  · have hne : n.toNat ≠ 0 := fun hnat => hzero (BitVec.eq_of_toNat_eq hnat)
    rw [moved_large_iff (by omega) n.isLt, or_iff_right fun hz => hzero hz.1,
      and_iff_right (by omega)]

theorem apart_0x200_0x100 : Apart 0x200 0x100 2 := by
  unfold Apart
  decide

/-- Two bytes. -/
theorem memcpy_moves_iff_two :
    Moves (letterAt0x100 0x62) 0x200 0x100 2 ↔
      (1 ≤ (2 : BitVec 32).toNat ∧ (2 : BitVec 32).toNat < 2 ^ 31) ∨
      ((2 : BitVec 32) = 0 ∧
        (letterAt0x100 0x62).read (0x200 : BitVec 32).toNat =
          (letterAt0x100 0x62).read (0x100 : BitVec 32).toNat) ∨
      (2 ^ 31 ≤ (2 : BitVec 32).toNat ∧ ∀ i, 1 ≤ i → i < (2 : BitVec 32).toNat →
        (letterAt0x100 0x62).read (byteAt 0x200 i) = (letterAt0x100 0x62).read (byteAt 0x100 i)) :=
  memcpy_moves_iff (letterAt0x100 0x62) 0x200 0x100 2 apart_0x200_0x100

/-- With a count of 0 the letter at 0x100 goes to 0x200. -/
theorem memcpy_zero_stores :
    Apart 0x200 0x100 (0 : BitVec 32).toNat ∧ ¬ Moves (letterAt0x100 0x62) 0x200 0x100 0 := by
  refine ⟨fun i hi => absurd hi (Nat.not_lt_zero i), fun hmoves => ?_⟩
  have hmoved := (moves_iff_of_one (by decide)).mp hmoves
  have heq := moved_zero_iff.mp hmoved
  have hdst : (letterAt0x100 0x62).read (0x200 : BitVec 32).toNat = 0x62 := rfl
  have hsrc : (letterAt0x100 0x62).read (0x100 : BitVec 32).toNat = 0x61 := rfl
  exact absurd (hdst.symm.trans (heq.trans hsrc)) (by decide)

end ListaOS.Strings
