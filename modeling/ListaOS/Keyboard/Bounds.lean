/-
  The array accesses of the keyboard driver (libkernel/keyboard.c).

  `unsigned char keymap[4][0x80]` and `unsigned char buffer[bufferSize]`. `accesses k op` lists
  the elements that a call reads or writes, in the order of the source: `||` stops at the first
  operand that holds, so a full queue keeps keyboard_buffer_in from reading the key map. That
  these are the accesses is shown on functions that can get at an element only by recording it
  (`Traced`): they compute what the driver's functions compute (`tracedBufferIn_eq`,
  `tracedClear_eq`).

  `status`, `bufferHead` and `bufferTail` stay in bounds whatever the port delivers
  (`Bounded.run`). keyboard_buffer_clear tests `code < 0x80` before it reads the key map;
  keyboard_buffer_in does not, so the codes that may reach it are those below 0x80
  (`accesses_in_bounds_iff`).
-/
import ListaOS.Keyboard.Translate

namespace ListaOS.Keyboard

open Lib

/-- An element that the driver reads or writes. -/
inductive Access where
  | keymap (row col : Nat)
  | buffer (index : Nat)
deriving DecidableEq

/-- The indices are inside the declared bounds. -/
def Access.InBounds : Access → Prop
  | .keymap row col => row < 4 ∧ col < 0x80
  | .buffer index => index < bufferSize

instance : ∀ a : Access, Decidable a.InBounds
  | .keymap _ _ => inferInstanceAs (Decidable (_ ∧ _))
  | .buffer _ => inferInstanceAs (Decidable (_ < _))

/-! ## The accesses, call by call -/

/-- `if (code == 0x2a || code == 0x36)` reads the slot of the last code. -/
def filterAccesses (k : KeyQueue) (code : BitVec 8) : List Access :=
  if code = 0x2a ∨ code = 0x36 then [.buffer k.bufferTail] else []

def bufferInAccesses (k : KeyQueue) (code : BitVec 8) : List Access :=
  if bufferSize ≤ k.bufferUsed then []
  else if keymap 0 code.toNat = 0 then [.keymap 0 code.toNat]
  else if (code = 0x2a ∨ code = 0x36) ∧ code = k.buffer k.bufferTail then
    .keymap 0 code.toNat :: filterAccesses k code
  else
    .keymap 0 code.toNat :: filterAccesses k code ++
      [.buffer ((k.bufferTail + 1) % bufferSize)]

def bufferOutAccesses (k : KeyQueue) : List Access :=
  if k.bufferUsed = 0 then [] else [.buffer ((k.bufferHead + 1) % bufferSize)]

/-- `if (keymap[status][code] != 0) putc(keymap[status][code]);` -/
def translateAccesses (t : Translation) (code : BitVec 8) : List Access :=
  if code = 0x2a ∨ code = 0x36 then []
  else if code = 0x3a then []
  else if code = 0xaa ∨ code = 0xb6 then []
  else if code < 0x80 then
    if keymap t.status.toNat code.toNat ≠ 0 then
      [.keymap t.status.toNat code.toNat, .keymap t.status.toNat code.toNat]
    else [.keymap t.status.toNat code.toNat]
  else []

def clearAccesses : Nat → KeyState → List Access
  | 0, _ => []
  | n + 1, k =>
      if 0 < k.queue.bufferUsed then
        let (queue, code) := keyboardBufferOut k.queue
        bufferOutAccesses k.queue ++ translateAccesses k.text code ++
          clearAccesses n ⟨queue, translate k.text code⟩
      else []

def accesses (k : KeyState) : DrainOp → List Access
  | .bufferIn code => bufferInAccesses k.queue code
  | .bufferClear => clearAccesses k.queue.bufferUsed k

/-- Every access of a run from the zeroed state. -/
def accessesOf (ops : List DrainOp) : List Access :=
  commitsOf drainStep accesses KeyState.init ops

/-! ## The accesses are those of the functions -/

/-- A value, and the elements read and written on the way to it. -/
structure Traced (α : Type) where
  value : α
  accesses : List Access

namespace Traced

variable {α β : Type}

def pure (a : α) : Traced α := ⟨a, []⟩

def bind (x : Traced α) (f : α → Traced β) : Traced β :=
  ⟨(f x.value).value, x.accesses ++ (f x.value).accesses⟩

end Traced

def keymapAt (row col : Nat) : Traced (BitVec 8) := ⟨keymap row col, [.keymap row col]⟩

def KeyQueue.bufferAt (k : KeyQueue) (i : Nat) : Traced (BitVec 8) := ⟨k.buffer i, [.buffer i]⟩

/-- `buffer[i] = code;` -/
def KeyQueue.bufferPut (k : KeyQueue) (i : Nat) (code : BitVec 8) : Traced KeyQueue :=
  ⟨{ k with buffer := Function.update k.buffer i code }, [.buffer i]⟩

/-- From `bufferTail = (bufferTail + 1) % bufferSize;` on. -/
def tracedPut (k : KeyQueue) (code : BitVec 8) : Traced KeyQueue :=
  let k := { k with bufferTail := (k.bufferTail + 1) % bufferSize }
  (k.bufferPut k.bufferTail code).bind fun k =>
    .pure { k with bufferUsed := (k.bufferUsed + 1) % 2 ^ 16 }

def tracedBufferIn (k : KeyQueue) (code : BitVec 8) : Traced KeyQueue :=
  if bufferSize ≤ k.bufferUsed then .pure k
  else
    (keymapAt 0 code.toNat).bind fun c =>
      if c = 0 then .pure k
      else if code = 0x2a ∨ code = 0x36 then
        (k.bufferAt k.bufferTail).bind fun last => if code = last then .pure k else tracedPut k code
      else tracedPut k code

def tracedBufferOut (k : KeyQueue) : Traced (KeyQueue × BitVec 8) :=
  if k.bufferUsed = 0 then .pure (k, 0)
  else
    let k := { k with bufferHead := (k.bufferHead + 1) % bufferSize }
    let k := { k with bufferUsed := (k.bufferUsed + (2 ^ 16 - 1)) % 2 ^ 16 }
    (k.bufferAt k.bufferHead).bind fun code => .pure (k, code)

def tracedTranslate (t : Translation) (code : BitVec 8) : Traced Translation :=
  if code = 0x2a ∨ code = 0x36 then .pure { t with status := (t.status &&& 2) + 1 }
  else if code = 0x3a then .pure { t with status := t.status ^^^ 2 }
  else if code = 0xaa ∨ code = 0xb6 then .pure { t with status := t.status &&& 2 }
  else if code < 0x80 then
    (keymapAt t.status.toNat code.toNat).bind fun c =>
      if c ≠ 0 then
        (keymapAt t.status.toNat code.toNat).bind fun c => .pure { t with out := t.out ++ [c] }
      else .pure t
  else .pure t

def tracedClear : Nat → KeyState → Traced KeyState
  | 0, k => .pure k
  | n + 1, k =>
      if 0 < k.queue.bufferUsed then
        (tracedBufferOut k.queue).bind fun r =>
          (tracedTranslate k.text r.2).bind fun text => tracedClear n ⟨r.1, text⟩
      else .pure k

theorem tracedBufferIn_eq (k : KeyQueue) (code : BitVec 8) :
    tracedBufferIn k code = ⟨keyboardBufferIn k code, bufferInAccesses k code⟩ := by
  unfold tracedBufferIn keyboardBufferIn bufferInAccesses filterAccesses
  by_cases hfull : bufferSize ≤ k.bufferUsed
  · simp only [hfull, true_or, if_true, Traced.pure]
  by_cases hkey : keymap 0 code.toNat = 0
  · simp only [hfull, hkey, or_true, if_true, if_false, keymapAt, Traced.bind, Traced.pure,
      List.append_nil]
  simp only [hfull, hkey, false_or, if_false, keymapAt, Traced.bind]
  by_cases hshift : code = 0x2a ∨ code = 0x36
  · by_cases hlast : code = k.buffer k.bufferTail
    · simp only [hshift, hlast.symm, and_self, if_true, KeyQueue.bufferAt, Traced.pure,
        List.append_nil, List.singleton_append]
    · simp only [hshift, hlast, and_false, if_true, if_false, KeyQueue.bufferAt, tracedPut,
        KeyQueue.bufferPut, Traced.bind, Traced.pure, List.append_nil, List.cons_append,
        List.nil_append]
  · simp only [hshift, false_and, if_false, tracedPut, KeyQueue.bufferPut, Traced.bind, Traced.pure,
      List.append_nil, List.cons_append, List.nil_append]

theorem tracedBufferOut_eq (k : KeyQueue) :
    tracedBufferOut k = ⟨keyboardBufferOut k, bufferOutAccesses k⟩ := by
  unfold tracedBufferOut keyboardBufferOut bufferOutAccesses
  split
  · rfl
  · rfl

theorem tracedTranslate_eq (t : Translation) (code : BitVec 8) :
    tracedTranslate t code = ⟨translate t code, translateAccesses t code⟩ := by
  unfold tracedTranslate translate translateAccesses
  split
  · rfl
  split
  · rfl
  split
  · rfl
  split
  · by_cases hkey : keymap t.status.toNat code.toNat = 0
    · simp only [keymapAt, Traced.bind, Traced.pure, hkey, ne_eq, not_true, if_false,
        List.append_nil]
    · simp only [keymapAt, Traced.bind, Traced.pure, hkey, ne_eq, not_false_eq_true, if_true,
        List.append_nil, List.singleton_append]
  · rfl

theorem tracedClear_eq (n : Nat) (k : KeyState) :
    tracedClear n k = ⟨clearLoop n k, clearAccesses n k⟩ := by
  induction n generalizing k with
  | zero => rfl
  | succ n ih =>
    rw [tracedClear, clearLoop, clearAccesses]
    split
    · rw [tracedBufferOut_eq, Traced.bind, tracedTranslate_eq, Traced.bind, ih]
      simp only [List.append_assoc]
    · rfl

/-! ## The indices -/

/-- The variables that the driver indexes with. -/
structure Bounded (k : KeyState) : Prop where
  status : k.text.status.toNat ≤ 3
  head : k.queue.bufferHead < bufferSize
  tail : k.queue.bufferTail < bufferSize

theorem bounded_init : Bounded KeyState.init where
  status := Nat.zero_le 3
  head := Nat.zero_lt_succ 255
  tail := Nat.zero_lt_succ 255

theorem mod_bufferSize_lt (n : Nat) : n % bufferSize < bufferSize :=
  Nat.mod_lt n (Nat.zero_lt_succ 255)

/-- Bits 0 and 1 are all that the driver ever sets in `status`. -/
theorem translate_status_le {t : Translation} (h : t.status.toNat ≤ 3) (code : BitVec 8) :
    (translate t code).status.toNat ≤ 3 := by
  have hmake : ∀ s : BitVec 8, ((s &&& 2) + 1).toNat ≤ 3 := by decide +kernel
  have hcaps : ∀ s : BitVec 8, s.toNat ≤ 3 → (s ^^^ 2).toNat ≤ 3 := by decide +kernel
  have hbreak : ∀ s : BitVec 8, (s &&& 2).toNat ≤ 3 := by decide +kernel
  unfold translate
  split
  · exact hmake t.status
  split
  · exact hcaps t.status h
  split
  · exact hbreak t.status
  split
  · split
    · exact h
    · exact h
  · exact h

theorem keyboardBufferOut_bounded {k : KeyQueue} (hhead : k.bufferHead < bufferSize)
    (htail : k.bufferTail < bufferSize) :
    (keyboardBufferOut k).1.bufferHead < bufferSize ∧
      (keyboardBufferOut k).1.bufferTail < bufferSize := by
  unfold keyboardBufferOut
  split
  · exact ⟨hhead, htail⟩
  · exact ⟨mod_bufferSize_lt _, htail⟩

/-- One round of keyboard_buffer_clear. -/
theorem Bounded.round {k : KeyState} (h : Bounded k) :
    Bounded ⟨(keyboardBufferOut k.queue).1, translate k.text (keyboardBufferOut k.queue).2⟩ where
  status := translate_status_le h.status _
  head := (keyboardBufferOut_bounded h.head h.tail).1
  tail := (keyboardBufferOut_bounded h.head h.tail).2

theorem Bounded.clearLoop {k : KeyState} (h : Bounded k) (n : Nat) : Bounded (clearLoop n k) := by
  induction n generalizing k with
  | zero => exact h
  | succ n ih =>
    unfold Keyboard.clearLoop
    split
    · exact ih h.round
    · exact h

theorem Bounded.bufferIn {k : KeyState} (h : Bounded k) (code : BitVec 8) :
    Bounded { k with queue := keyboardBufferIn k.queue code } := by
  refine ⟨h.status, ?_, ?_⟩
  · rw [keyboardBufferIn_eq]
    split
    · exact h.head
    · exact h.head
  · rw [keyboardBufferIn_eq]
    split
    · exact mod_bufferSize_lt _
    · exact h.tail

theorem Bounded.step {k : KeyState} (h : Bounded k) (op : DrainOp) : Bounded (drainStep k op) := by
  cases op with
  | bufferIn code => exact h.bufferIn code
  | bufferClear => exact h.clearLoop _

/-- **The indices stay in bounds** for every stream of codes and every schedule. -/
theorem Bounded.run (ops : List DrainOp) : Bounded (drained ops) :=
  foldl_invariant Bounded (fun _ op h => h.step op) bounded_init ops

/-! ## Which accesses are in bounds -/

theorem translateAccesses_inBounds {t : Translation} (h : t.status.toNat ≤ 3) (code : BitVec 8) :
    ∀ a ∈ translateAccesses t code, a.InBounds := by
  unfold translateAccesses
  split
  · simp
  split
  · simp
  split
  · simp
  split
  case isTrue hcode =>
    -- The test that keyboard_buffer_in lacks.
    have hin : (Access.keymap t.status.toNat code.toNat).InBounds :=
      ⟨Nat.lt_succ_of_le h, BitVec.lt_def.mp hcode⟩
    split
    · simp [hin]
    · simp [hin]
  case isFalse => simp

theorem bufferOutAccesses_inBounds (k : KeyQueue) : ∀ a ∈ bufferOutAccesses k, a.InBounds := by
  unfold bufferOutAccesses
  split
  · simp
  · intro a ha
    rw [List.mem_singleton.mp ha]
    exact mod_bufferSize_lt _

theorem clearAccesses_inBounds (n : Nat) {k : KeyState} (h : Bounded k) :
    ∀ a ∈ clearAccesses n k, a.InBounds := by
  induction n generalizing k with
  | zero => simp [clearAccesses]
  | succ n ih =>
    unfold clearAccesses
    split
    · intro a ha
      obtain ha | ha := List.mem_append.mp ha
      · obtain hout | htr := List.mem_append.mp ha
        · exact bufferOutAccesses_inBounds k.queue a hout
        · exact translateAccesses_inBounds h.status _ a htr
      · exact ih h.round a ha
    · simp

theorem filterAccesses_inBounds {k : KeyQueue} (h : k.bufferTail < bufferSize) (code : BitVec 8) :
    ∀ a ∈ filterAccesses k code, a.InBounds := by
  unfold filterAccesses
  split
  · intro a ha
    rw [List.mem_singleton.mp ha]
    exact h
  · simp

/-- The code finds the queue full, or a column of the key map. -/
def CodeInTable (k : KeyState) : DrainOp → Prop
  | .bufferIn code => bufferSize ≤ k.queue.bufferUsed ∨ code < 0x80
  | .bufferClear => True

instance (k : KeyState) : ∀ op, Decidable (CodeInTable k op)
  | .bufferIn _ => inferInstanceAs (Decidable (_ ∨ _))
  | .bufferClear => inferInstanceAs (Decidable True)

/-- keyboard_buffer_in reads `keymap[0][code]` unless the queue is full. -/
theorem bufferInAccesses_inBounds_iff {k : KeyQueue} (h : k.bufferTail < bufferSize)
    (code : BitVec 8) :
    (∀ a ∈ bufferInAccesses k code, a.InBounds) ↔ bufferSize ≤ k.bufferUsed ∨ code < 0x80 := by
  have hread : (Access.keymap 0 code.toNat).InBounds ↔ code < 0x80 :=
    (and_iff_right (Nat.zero_lt_succ 3)).trans (BitVec.lt_def (y := 0x80)).symm
  unfold bufferInAccesses
  by_cases hfull : bufferSize ≤ k.bufferUsed
  · rw [if_pos hfull]
    simp [hfull]
  rw [if_neg hfull, or_iff_right hfull, ← hread]
  split
  · simp
  split
  · constructor
    · intro hall
      exact hall _ List.mem_cons_self
    · intro hin a ha
      obtain rfl | ha := List.mem_cons.mp ha
      · exact hin
      · exact filterAccesses_inBounds h code a ha
  · constructor
    · intro hall
      exact hall _ (List.mem_append_left _ List.mem_cons_self)
    · intro hin a ha
      obtain ha | ha := List.mem_append.mp ha
      · obtain rfl | ha := List.mem_cons.mp ha
        · exact hin
        · exact filterAccesses_inBounds h code a ha
      · rw [List.mem_singleton.mp ha]
        exact mod_bufferSize_lt _

theorem accesses_inBounds_iff {k : KeyState} (h : Bounded k) (op : DrainOp) :
    (∀ a ∈ accesses k op, a.InBounds) ↔ CodeInTable k op := by
  cases op with
  | bufferIn code => exact bufferInAccesses_inBounds_iff h.tail code
  | bufferClear => exact iff_of_true (clearAccesses_inBounds _ h) trivial

/-- **The accesses of a run** are all in bounds, and so are the indices in every state, exactly
when each code from the port finds the queue full or lies below 0x80. -/
theorem keyboard_accesses_in_bounds_iff (ops : List DrainOp) :
    ((∀ a ∈ accessesOf ops, a.InBounds) ∧ ∀ pre, pre <+: ops → Bounded (drained pre)) ↔
      Along drainStep CodeInTable KeyState.init ops := by
  have hbounded : ∀ pre, pre <+: ops → Bounded (drained pre) := fun pre _ => Bounded.run pre
  rw [and_iff_left hbounded, accessesOf, forall_commitsOf_iff_along]
  exact Along.congr_of_invariant (J := Bounded) (fun _ op h => h.step op)
    (fun _ op h => accesses_inBounds_iff h op) bounded_init ops

/-- The release of the `a` key reads behind row 0 of the key map. -/
theorem break_code_out_of_bounds :
    ¬ ((∀ a ∈ accessesOf [.bufferIn 0x9e], a.InBounds) ∧
      ∀ pre, pre <+: [.bufferIn 0x9e] → Bounded (drained pre)) := by
  intro h
  have hin : (Access.keymap 0 0x9e).InBounds := h.1 _ (by decide)
  exact absurd hin.2 (by decide)

/-- Typed text without its release codes. -/
example : ∀ a ∈ accessesOf [.bufferIn 0x2a, .bufferIn 0x1e, .bufferClear], a.InBounds := by decide

end ListaOS.Keyboard
