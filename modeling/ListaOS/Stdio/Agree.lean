/-
  When sprintf writes what vprintf prints.

  The two differ in `%u` and `%llu`, where sprintf calls _itoa. A 32-bit value is below
  2^63, so `%u` makes no difference; `%llu` does exactly from 2^63 on, where _itoa prints a
  sign. Neither ends where a `%f` argument is infinite. `sprintf_agrees_iff` is over every format,
  every argument list whose `%s` strings have no '%', and every buffer.
-/
import ListaOS.Stdio.Sprintf

namespace ListaOS.Stdio

open Lib

/-- vprintf and sprintf end; the buffer holds exactly what vprintf hands to `putc`, with a NUL
after it and nothing else changed; and both return its length, vprintf in an `int`. -/
def Agrees (E : Env) (format : CharPtr) (args : VaList) (buf : Mem (BitVec 8)) (str : Nat) : Prop :=
  ∃ out len buf', Returns (fun n => vprintf E n format args) (out, BitVec.ofNat 32 len) ∧
    Returns (fun n => sprintf E n buf str format args) (buf', len) ∧ len = out.length ∧
    Mem.Wrote str out buf buf' ∧ buf'.read (str + out.length) = 0

/-- Every `%llu` argument of the segments is below 2^63. -/
def LluBelow : List Seg → VaList → Prop
  | [], _ => True
  | g :: gs, args =>
      (g.conv = .llu → args.dword.toNat < 2 ^ 63) ∧ LluBelow gs (args.skip g.conv.words)

theorem Conv.sprintfText_eq (E : Env) (args : VaList) {k : Conv}
    (h : k = .llu → args.dword.toNat < 2 ^ 63) : k.sprintfText E args = k.text E args := by
  cases k with
  | u =>
    have hlt : (args.word.setWidth 64).toNat < 2 ^ 63 := by
      rw [BitVec.toNat_setWidth_of_le (by decide)]
      omega
    exact itoa_eq_utoa hlt
  | llu => exact itoa_eq_utoa (h rfl)
  | _ => rfl

/-- The texts are equal exactly when no `%llu` argument reaches 2^63: the first that does
gives a sign in one and a digit in the other. -/
theorem segOut_eq_iff (E : Env) (gs : List Seg) (args : VaList) (tail : List (BitVec 8)) :
    segOut (fun args k => k.sprintfText E args) gs args ++ tail =
      segOut (fun args k => k.text E args) gs args ++ tail ↔ LluBelow gs args := by
  induction gs generalizing args with
  | nil => exact iff_of_true rfl trivial
  | cons g gs ih =>
    have hcons : ∀ tx : VaList → Conv → List (BitVec 8), segOut tx (g :: gs) args ++ tail =
        g.lit ++ (tx args g.conv ++ (segOut tx gs (args.skip g.conv.words) ++ tail)) := by
      intro tx
      simp [segOut]
    rw [hcons, hcons, List.append_cancel_left_eq, LluBelow]
    by_cases h : g.conv = .llu → args.dword.toNat < 2 ^ 63
    · rw [g.conv.sprintfText_eq E args h, List.append_cancel_left_eq, ih]
      exact (and_iff_right h).symm
    · obtain ⟨hconv, hge⟩ := Classical.not_imp.mp h
      refine iff_of_false ?_ fun hand => h hand.1
      rw [hconv]
      exact itoa_ne_utoa (Nat.le_of_not_lt hge) _ _

/-- Agreement is equality of the two texts, where both functions end. -/
theorem agrees_iff_segOut (E : Env) (F : Format) {format : CharPtr} (h : format.Holds F.text)
    {args : VaList} (hs : NoPercent E F.segs args) (hfin : FiniteFloats F.segs args)
    (buf : Mem (BitVec 8)) (str : Nat) :
    Agrees E format args buf str ↔
      segOut (fun args k => k.sprintfText E args) F.segs args ++ F.tail =
        segOut (fun args k => k.text E args) F.segs args ++ F.tail := by
  have hv := vprintf_spec E F h hfin
  obtain ⟨buf', hsp, hwrote, hnul⟩ := sprintf_spec E F h hs hfin buf str
  refine ⟨fun hagrees => ?_, fun heq => ?_⟩
  · obtain ⟨out, len, buf'', hv', hsp', hlen, hwrote', _⟩ := hagrees
    obtain ⟨rfl, -⟩ := Prod.mk.inj (hv'.unique hv)
    obtain ⟨rfl, hlen'⟩ := Prod.mk.inj (hsp'.unique hsp)
    exact hwrote.unique hwrote' (hlen'.symm.trans hlen)
  · rw [heq] at hsp hwrote hnul
    exact ⟨_, _, buf', hv, hsp, rfl, hwrote, hnul⟩

/-- **sprintf and vprintf.** They agree exactly when every `%llu` argument is below 2^63 and no
`%f` argument is infinite. -/
theorem sprintf_agrees_iff (E : Env) (F : Format) (format : CharPtr) (h : format.Holds F.text)
    (args : VaList) (hs : NoPercent E F.segs args) (buf : Mem (BitVec 8)) (str : Nat) :
    Agrees E format args buf str ↔ LluBelow F.segs args ∧ FiniteFloats F.segs args := by
  by_cases hfin : FiniteFloats F.segs args
  · rw [agrees_iff_segOut E F h hs hfin, segOut_eq_iff, and_iff_left hfin]
  · refine iff_of_false (fun hagrees => ?_) fun hand => hfin hand.2
    obtain ⟨out, len, buf', hv, -⟩ := hagrees
    exact hfin (finiteFloats_of_vprintf F h hv)

/-- An environment without strings. -/
def emptyEnv : Env where
  str := fun _ => ⟨[], fun _ hc => absurd hc List.not_mem_nil⟩
  stack := fun _ => 0
  parts := fun _ => ⟨false, 0, 0, 0⟩

/-- `"n=%u%llu%%"`. -/
theorem sprintf_agrees_iff_three_convs :
    let F : Format :=
      ⟨[⟨[chr 'n', chr '='], by decide, .u⟩, ⟨[], Plain.nil, .llu⟩, ⟨[], Plain.nil, .percent⟩],
        [], Plain.nil⟩
    Agrees emptyEnv (CharPtr.ofText F.text) ⟨fun _ => 7, 0⟩ (Mem.fresh fun _ => 0xff) 0x1000 ↔
      LluBelow F.segs ⟨fun _ => 7, 0⟩ ∧ FiniteFloats F.segs ⟨fun _ => 7, 0⟩ := by
  intro F
  have hs : NoPercent emptyEnv F.segs ⟨fun _ => 7, 0⟩ := by simp [F, NoPercent]
  exact sprintf_agrees_iff emptyEnv F _ (CharPtr.holds_ofText _) _ hs _ _

/-- `"%llu"` with 2^63: vprintf prints a digit first, sprintf a sign. -/
theorem sprintf_llu_disagrees :
    let F : Format := ⟨[⟨[], Plain.nil, .llu⟩], [], Plain.nil⟩
    let args : VaList := ⟨fun i => if i = 1 then 0x80000000 else 0, 0⟩
    NoPercent emptyEnv F.segs args ∧
      ¬ Agrees emptyEnv (CharPtr.ofText F.text) args (Mem.fresh fun _ => 0) 0 := by
  intro F args
  have hs : NoPercent emptyEnv F.segs args := by simp [F, NoPercent]
  have hfin : FiniteFloats F.segs args := by simp [F, FiniteFloats]
  have hge : 2 ^ 63 ≤ args.dword.toNat := by decide
  refine ⟨hs, ?_⟩
  rw [agrees_iff_segOut emptyEnv F (CharPtr.holds_ofText _) hs hfin, segOut_eq_iff]
  exact fun hbelow => absurd (hbelow.1 rfl) (Nat.not_lt.mpr hge)

end ListaOS.Stdio
