/-
  The keyboard queue (libkernel/keyboard.c): the key map and the ring of scan codes
  between the interrupt handler (keyboard_buffer_in) and the main loop
  (keyboard_buffer_out).

  `keymap i j` is `keymap[i][j]`, read in the 0x200-byte array as the code indexes it:
  `keymap[0][code]` with `code >= 0x80` lies in a later row. `accepts` is the guard of
  keyboard_buffer_in and `keyboardBufferIn_eq` its one case split.
-/
import ListaOS.Lib.Fifo

namespace ListaOS.Keyboard

open Lib

/-- The rows of `keymap`, each by the source line; what is not initialized is 0. -/
def keymapRows : List (List (BitVec 8)) := [
  -- capsLock = false, shiftPressing = false
  [
    0, 0, 0x31, 0x32, 0x33, 0x34, 0x35, 0x36, 0x37, 0x38, 0x39, 0x30, 0x2d, 0x3d,
    0x8, 0x9, 0x71, 0x77, 0x65, 0x72, 0x74, 0x79, 0x75, 0x69, 0x6f, 0x70, 0x5b, 0x5d,
    0xa, 0, 0x61, 0x73, 0x64, 0x66, 0x67, 0x68, 0x6a, 0x6b, 0x6c, 0x3b, 0x27,
    0x60, 0x2a, 0x5c,
    0x7a, 0x78, 0x63, 0x76, 0x62, 0x6e, 0x6d, 0x2c, 0x2e, 0x2f, 0x36, 0x2a,
    0, 0x20, 0x3a,
    0, 0, 0, 0, 0, 0, 0, 0, 0, 0, 0, 0,
    0x37, 0x38, 0x39, 0x2d, 0x34, 0x35, 0x36, 0x2b, 0x31, 0x32, 0x33, 0x30, 0x2e,
    0, 0, 0, 0, 0],
  -- capsLock = false, shiftPressing = true
  [
    0, 0, 0x21, 0x40, 0x23, 0x24, 0x25, 0x5e, 0x26, 0x2a, 0x28, 0x29, 0x5f, 0x2b,
    0x8, 0x9, 0x51, 0x57, 0x45, 0x52, 0x54, 0x59, 0x55, 0x49, 0x4f, 0x50, 0x7b, 0x7d,
    0xa, 0, 0x41, 0x53, 0x44, 0x46, 0x47, 0x48, 0x4a, 0x4b, 0x4c, 0x3a, 0x22,
    0x7e, 0x2a, 0x7c,
    0x5a, 0x58, 0x43, 0x56, 0x42, 0x4e, 0x4d, 0x3c, 0x3e, 0x3f, 0x36, 0x2a,
    0, 0x20, 0x3a,
    0, 0, 0, 0, 0, 0, 0, 0, 0, 0, 0, 0,
    0x37, 0x38, 0x39, 0x2d, 0x34, 0x35, 0x36, 0x2b, 0x31, 0x32, 0x33, 0x30, 0x2e,
    0, 0, 0, 0, 0],
  -- capsLock = true, shiftPressing = false
  [
    0, 0, 0x31, 0x32, 0x33, 0x34, 0x35, 0x36, 0x37, 0x38, 0x39, 0x30, 0x2d, 0x3d,
    0x8, 0x9, 0x51, 0x57, 0x45, 0x52, 0x54, 0x59, 0x55, 0x49, 0x4f, 0x50, 0x5b, 0x5d,
    0xa, 0, 0x41, 0x53, 0x44, 0x46, 0x47, 0x48, 0x4a, 0x4b, 0x4c, 0x3b, 0x27,
    0x60, 0x2a, 0x5c,
    0x5a, 0x58, 0x43, 0x56, 0x42, 0x4e, 0x4d, 0x2c, 0x2e, 0x2f, 0x36, 0x2a,
    0, 0x20, 0x3a,
    0, 0, 0, 0, 0, 0, 0, 0, 0, 0, 0, 0,
    0x37, 0x38, 0x39, 0x2d, 0x34, 0x35, 0x36, 0x2b, 0x31, 0x32, 0x33, 0x30, 0x2e,
    0, 0, 0, 0, 0],
  -- capsLock = true, shiftPressing = true
  [
    0, 0, 0x21, 0x40, 0x23, 0x24, 0x25, 0x5e, 0x26, 0x2a, 0x28, 0x29, 0x5f, 0x2b,
    0x8, 0x9, 0x71, 0x77, 0x65, 0x72, 0x74, 0x79, 0x75, 0x69, 0x6f, 0x70, 0x7b, 0x7d,
    0xa, 0, 0x61, 0x73, 0x64, 0x66, 0x67, 0x68, 0x6a, 0x6b, 0x6c, 0x3a, 0x22,
    0x7e, 0x2a, 0x7c,
    0x7a, 0x78, 0x63, 0x76, 0x62, 0x6e, 0x6d, 0x3c, 0x3e, 0x3f, 0x36, 0x2a,
    0, 0x20, 0x3a,
    0, 0, 0, 0, 0, 0, 0, 0, 0, 0, 0, 0,
    0x37, 0x38, 0x39, 0x2d, 0x34, 0x35, 0x36, 0x2b, 0x31, 0x32, 0x33, 0x30, 0x2e,
    0, 0, 0, 0, 0]]

/-- `keymap[row][col]`. -/
def keymap (row col : Nat) : BitVec 8 :=
  (keymapRows.getD ((0x80 * row + col) / 0x80) []).getD ((0x80 * row + col) % 0x80) 0

def bufferSize : Nat := 256

/-- The queue. `bufferUsed` is an `unsigned short`. -/
structure KeyQueue where
  buffer : Nat → BitVec 8
  bufferHead : Nat
  bufferTail : Nat
  bufferUsed : Nat

/-- Zeroed .bss. -/
def KeyQueue.init : KeyQueue := ⟨fun _ => 0, 0, 0, 0⟩

def keyboardBufferIn (k : KeyQueue) (code : BitVec 8) : KeyQueue :=
  if bufferSize ≤ k.bufferUsed ∨ keymap 0 code.toNat = 0 then k
  else if (code = 0x2a ∨ code = 0x36) ∧ code = k.buffer k.bufferTail then k
  else
    let bufferTail := (k.bufferTail + 1) % bufferSize
    { k with
      bufferTail := bufferTail
      buffer := Function.update k.buffer bufferTail code
      bufferUsed := (k.bufferUsed + 1) % 2 ^ 16 }

def keyboardBufferOut (k : KeyQueue) : KeyQueue × BitVec 8 :=
  if k.bufferUsed = 0 then (k, 0)
  else
    let k := { k with bufferHead := (k.bufferHead + 1) % bufferSize }
    let k := { k with bufferUsed := (k.bufferUsed + (2 ^ 16 - 1)) % 2 ^ 16 }
    (k, k.buffer k.bufferHead)

/-- The code gets past the guards of `keyboard_buffer_in`. -/
def accepts (k : KeyQueue) (code : BitVec 8) : Prop :=
  k.bufferUsed < bufferSize ∧ keymap 0 code.toNat ≠ 0 ∧
    ¬ ((code = 0x2a ∨ code = 0x36) ∧ code = k.buffer k.bufferTail)

instance (k : KeyQueue) (code : BitVec 8) : Decidable (accepts k code) :=
  inferInstanceAs (Decidable (_ ∧ _ ∧ ¬ _))

/-- An accepted code goes into the slot after the tail. -/
def KeyQueue.store (k : KeyQueue) (code : BitVec 8) : KeyQueue :=
  { k with
    bufferTail := (k.bufferTail + 1) % bufferSize
    buffer := Function.update k.buffer ((k.bufferTail + 1) % bufferSize) code
    bufferUsed := k.bufferUsed + 1 }

theorem keyboardBufferIn_eq (k : KeyQueue) (code : BitVec 8) :
    keyboardBufferIn k code = if accepts k code then k.store code else k := by
  unfold keyboardBufferIn
  by_cases h1 : bufferSize ≤ k.bufferUsed ∨ keymap 0 code.toNat = 0
  · have hno : ¬ accepts k code := by
      intro h
      rcases h1 with hfull | hzero
      · exact absurd h.1 (Nat.not_lt.mpr hfull)
      · exact h.2.1 hzero
    rw [if_pos h1, if_neg hno]
  · have hlt : k.bufferUsed < bufferSize := Nat.lt_of_not_le fun hle => h1 (Or.inl hle)
    have hne : keymap 0 code.toNat ≠ 0 := fun hz => h1 (Or.inr hz)
    by_cases h2 : (code = 0x2a ∨ code = 0x36) ∧ code = k.buffer k.bufferTail
    · have hno : ¬ accepts k code := fun h => h.2.2 h2
      rw [if_neg h1, if_pos h2, if_neg hno]
    · have hyes : accepts k code := ⟨hlt, hne, h2⟩
      unfold bufferSize at hlt
      have hmod : (k.bufferUsed + 1) % 2 ^ 16 = k.bufferUsed + 1 := Nat.mod_eq_of_lt (by omega)
      rw [if_neg h1, if_neg h2, if_pos hyes]
      simp only [hmod]
      rfl

theorem keyboardBufferOut_empty {k : KeyQueue} (h : k.bufferUsed = 0) :
    keyboardBufferOut k = (k, 0) := by
  unfold keyboardBufferOut
  rw [if_pos h]

theorem keyboardBufferOut_of_pos {k : KeyQueue} (h : 0 < k.bufferUsed)
    (hle : k.bufferUsed ≤ bufferSize) :
    keyboardBufferOut k =
      ({ k with
          bufferHead := (k.bufferHead + 1) % bufferSize
          bufferUsed := k.bufferUsed - 1 },
        k.buffer ((k.bufferHead + 1) % bufferSize)) := by
  unfold keyboardBufferOut
  unfold bufferSize at hle
  have hmod : (k.bufferUsed + (2 ^ 16 - 1)) % 2 ^ 16 = k.bufferUsed - 1 := by omega
  rw [if_neg (by omega)]
  simp only [hmod]

end ListaOS.Keyboard
