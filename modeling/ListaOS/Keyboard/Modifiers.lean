/-
  The modifier bits under load and under typematic repeats (libkernel/keyboard.c).

  keyboard_buffer_in treats a release that meets a full queue like any other code: it drops
  it. `shift_stuck_iff`: over every run, the shift bit after a last keyboard_buffer_clear is 0
  exactly when the last shift code that found room is no make code. `stuck_shift` drops the
  release of a shift key.

  The repeat filter of keyboard_buffer_in knows the shift keys only, so every make code of
  caps lock toggles its bit, the repeats as well: `caps_bit_iff` counts make codes, and
  `caps_status_iff` says that the bit counts presses exactly while the repeats are even in
  number.
-/
import ListaOS.Keyboard.Translate

namespace ListaOS.Keyboard

open Lib

/-! ## A full queue -/

instance (cs : List (BitVec 8)) : Decidable (ShiftHeld cs) := inferInstanceAs (Decidable (_ ∨ _))

/-- The last shift code is a make code. -/
def EndsPressed (cs : List (BitVec 8)) : Prop := ∃ c, lastShift cs = some c ∧ ShiftMake c

/-- The shift bit is one of two. -/
theorem shift_bit_zero_iff (s : BitVec 8) : s &&& 1 = 0 ↔ ¬ s &&& 1 = 1 := by
  revert s
  decide +kernel

/-- **No stuck shift.** After every run and a last keyboard_buffer_clear, the shift bit of
`status` is 0 exactly when the last shift code that found room in the queue is not a make
code. -/
theorem shift_stuck_iff (ops : List DrainOp) :
    (drained (ops ++ [.bufferClear])).text.status &&& 1 = 0 ↔ ¬ EndsPressed (arrived ops) := by
  rw [shift_bit_zero_iff, drained_arrived, status_foldl, lastShift_taken]
  rfl

/-- Shift-a held until the queue is full, then released: the release of shift is dropped. -/
def stuckOps : List DrainOp :=
  .bufferIn 0x2a :: (List.replicate 255 (.bufferIn 0x1e) ++ [.bufferIn 0xaa, .bufferIn 0x9e])

theorem stuck_shift :
    WellFormed [] (codes stuckOps) ∧ ¬ ShiftHeld (codes stuckOps) ∧
      (drained (stuckOps ++ [.bufferClear])).text.status &&& 1 = 1 := by
  decide +kernel

/-! ## Caps lock -/

/-- Caps lock in a stream of scan codes: whether it is down, how often it was pressed, and the
make codes it repeated while it was down. -/
structure CapsKey where
  down : Bool
  presses : Nat
  repeats : Nat

def capsStep (s : CapsKey) (c : BitVec 8) : CapsKey :=
  if c = 0x3a then
    if s.down then { s with repeats := s.repeats + 1 }
    else { s with down := true, presses := s.presses + 1 }
  else if c = 0xba then { s with down := false }
  else s

def capsKey (cs : List (BitVec 8)) : CapsKey := cs.foldl capsStep ⟨false, 0, 0⟩

theorem count_snoc (l : List (BitVec 8)) (c : BitVec 8) :
    (l ++ [c]).count 0x3a = l.count 0x3a + if c = 0x3a then 1 else 0 := by
  rw [List.count_append, List.count_singleton]
  simp only [beq_iff_eq]

/-- A make code is a press or a repeat. -/
theorem capsStep_count (s : CapsKey) (c : BitVec 8) :
    (capsStep s c).presses + (capsStep s c).repeats =
      s.presses + s.repeats + if c = 0x3a then 1 else 0 := by
  unfold capsStep
  by_cases h : c = 0x3a
  · rw [if_pos h, if_pos h]
    split
    · exact (Nat.add_assoc s.presses s.repeats 1).symm
    · exact Nat.add_right_comm s.presses 1 s.repeats
  · rw [if_neg h, if_neg h]
    split
    · rfl
    · rfl

theorem capsKey_count (cs : List (BitVec 8)) :
    (capsKey cs).presses + (capsKey cs).repeats = cs.count 0x3a := by
  induction cs using List.reverseRecOn with
  | nil => rfl
  | append_singleton cs c ih =>
    rw [count_snoc, ← ih, capsKey, List.foldl_append]
    exact capsStep_count (capsKey cs) c

/-- The queue takes in every code of caps lock. -/
theorem count_taken (cs : List (BitVec 8)) :
    (taken cs).count 0x3a = cs.count (0x3a : BitVec 8) := by
  induction cs using List.reverseRecOn with
  | nil => rfl
  | append_singleton cs c ih =>
    rw [taken_snoc, takeStep, count_snoc]
    by_cases ht : Takes (taken cs) c
    · rw [if_pos ht, count_snoc, ih]
    · have hc : c ≠ 0x3a := by
        rintro rfl
        exact ht ⟨by decide, fun hshift => absurd hshift.1 (by decide)⟩
      rw [if_neg ht, ih, if_neg hc, Nat.add_zero]

/-- What a code does to the caps bit. -/
theorem caps_translate (t : Translation) (c : BitVec 8) :
    (translate t c).status &&& 2 = if c = 0x3a then t.status &&& 2 ^^^ 2 else t.status &&& 2 := by
  have hmake : ∀ s : BitVec 8, ((s &&& 2) + 1) &&& 2 = s &&& 2 := by decide +kernel
  have hcaps : ∀ s : BitVec 8, (s ^^^ 2) &&& 2 = s &&& 2 ^^^ 2 := by decide +kernel
  have hbreak : ∀ s : BitVec 8, (s &&& 2) &&& 2 = s &&& 2 := by decide +kernel
  unfold translate
  by_cases h1 : c = 0x2a ∨ c = 0x36
  · rw [if_pos h1, if_neg (by rcases h1 with rfl | rfl <;> decide)]
    exact hmake t.status
  rw [if_neg h1]
  by_cases h2 : c = 0x3a
  · rw [if_pos h2, if_pos h2]
    exact hcaps t.status
  rw [if_neg h2, if_neg h2]
  by_cases h3 : c = 0xaa ∨ c = 0xb6
  · rw [if_pos h3]
    exact hbreak t.status
  rw [if_neg h3]
  split
  · split
    · rfl
    · rfl
  · rfl

/-- The caps bit counts make codes. -/
theorem caps_foldl (l : List (BitVec 8)) :
    (l.foldl translate ⟨0, []⟩).status &&& 2 = if l.count 0x3a % 2 = 1 then 2 else 0 := by
  induction l using List.reverseRecOn with
  | nil => rfl
  | append_singleton l c ih =>
    rw [List.foldl_append, List.foldl_cons, List.foldl_nil, caps_translate, ih, count_snoc]
    by_cases hc : c = 0x3a
    · rw [if_pos hc, if_pos hc]
      by_cases hodd : l.count 0x3a % 2 = 1
      · rw [if_pos hodd, if_neg (by omega)]
        rfl
      · rw [if_neg hodd, if_pos (by omega)]
        rfl
    · rw [if_neg hc, if_neg hc, Nat.add_zero]

/-- The caps bit after a keyboard_buffer_clear. -/
theorem caps_bit_iff {ops : List DrainOp} (h : NeverFull (ops ++ [.bufferClear])) :
    (drained (ops ++ [.bufferClear])).text.status &&& 2 = 2 ↔ (codes ops).count 0x3a % 2 = 1 := by
  rw [drained_text h, caps_foldl, count_taken]
  by_cases hodd : (codes ops).count 0x3a % 2 = 1
  · rw [if_pos hodd]
    exact iff_of_true rfl hodd
  · rw [if_neg hodd]
    exact iff_of_false (by decide) hodd

/-- **The caps bit.** In a run that never meets a full queue, the caps bit of `status` is after
every keyboard_buffer_clear the parity of the presses of caps lock, exactly when at every
keyboard_buffer_clear the key has sent an even number of repeats. -/
theorem caps_status_iff (ops : List DrainOp) (h : NeverFull ops) :
    (∀ pre, pre ++ [.bufferClear] <+: ops →
        ((drained (pre ++ [.bufferClear])).text.status &&& 2 = 2 ↔
          (capsKey (codes pre)).presses % 2 = 1)) ↔
      ∀ pre, pre ++ [.bufferClear] <+: ops → (capsKey (codes pre)).repeats % 2 = 0 := by
  refine forall_congr' fun pre => forall_congr' fun hpre => ?_
  obtain ⟨rest, rfl⟩ := hpre
  rw [caps_bit_iff (Along.of_append h), ← capsKey_count]
  omega

/-- Caps lock held for two repeats. -/
theorem caps_status_iff_two_repeats :
    (∀ pre, pre ++ [.bufferClear] <+:
          [.bufferIn 0x3a, .bufferIn 0x3a, .bufferIn 0x3a, .bufferIn 0xba, .bufferClear] →
        ((drained (pre ++ [.bufferClear])).text.status &&& 2 = 2 ↔
          (capsKey (codes pre)).presses % 2 = 1)) ↔
      ∀ pre, pre ++ [.bufferClear] <+:
          [.bufferIn 0x3a, .bufferIn 0x3a, .bufferIn 0x3a, .bufferIn 0xba, .bufferClear] →
        (capsKey (codes pre)).repeats % 2 = 0 :=
  caps_status_iff _ (by decide +kernel)

/-- Caps lock held for one repeat: one press, and the bit is 0. -/
theorem caps_repeat :
    let pre : List DrainOp := [.bufferIn 0x3a, .bufferIn 0x3a, .bufferIn 0xba]
    WellFormed [] (codes pre) ∧ NeverFull (pre ++ [.bufferClear]) ∧
      (capsKey (codes pre)).presses % 2 = 1 ∧
      (drained (pre ++ [.bufferClear])).text.status &&& 2 = 0 := by
  decide +kernel

end ListaOS.Keyboard
