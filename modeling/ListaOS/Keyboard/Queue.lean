/-
  The keyboard queue refines a bounded FIFO of capacity 256.

  The abstract queue is a `Lib.Fifo` of codes. `Admits f c` is what it takes in: there is
  room, the key map has an entry, and `c` is not a shift make code equal to the last code
  taken in. `Rep k f` relates the ring to it: the used cells hold the queue, the tail is
  the head plus the count mod 256, and `buffer[bufferTail]` is the last code taken in,
  also when that slot has been read out. `keyQueue_refines_fifo` is over every sequence
  of calls from the zeroed state.
-/
import ListaOS.Keyboard.Basic
import ListaOS.Lib.Run

namespace ListaOS.Keyboard

open Lib

/-- A call of one of the two functions. -/
inductive KeyOp where
  | bufferIn (code : BitVec 8)
  | bufferOut

/-- One call on the ring, with the list of the values `keyboard_buffer_out` returned. -/
def queueStep (s : KeyQueue × List (BitVec 8)) : KeyOp → KeyQueue × List (BitVec 8)
  | .bufferIn code => (keyboardBufferIn s.1 code, s.2)
  | .bufferOut => ((keyboardBufferOut s.1).1, s.2 ++ [(keyboardBufferOut s.1).2])

/-- What the bounded FIFO takes in. -/
def Admits (f : Fifo (BitVec 8)) (code : BitVec 8) : Prop :=
  f.queue.length < 256 ∧ keymap 0 code.toNat ≠ 0 ∧
    ¬ ((code = 0x2a ∨ code = 0x36) ∧ f.pushed.getLast? = some code)

instance (f : Fifo (BitVec 8)) (code : BitVec 8) : Decidable (Admits f code) :=
  inferInstanceAs (Decidable (_ ∧ _ ∧ ¬ _))

/-- One call on the bounded FIFO; an empty queue returns 0. -/
def fifoStep (s : Fifo (BitVec 8) × List (BitVec 8)) : KeyOp → Fifo (BitVec 8) × List (BitVec 8)
  | .bufferIn code => (if Admits s.1 code then s.1.push code else s.1, s.2)
  | .bufferOut => (s.1.pop.2, s.2 ++ [s.1.pop.1.getD 0])

structure Rep (k : KeyQueue) (f : Fifo (BitVec 8)) : Prop where
  used : k.bufferUsed = f.queue.length
  cap : k.bufferUsed ≤ 256
  head : k.bufferHead < 256
  tail : k.bufferTail = (k.bufferHead + k.bufferUsed) % 256
  cells : ring 256 k.buffer k.bufferHead k.bufferUsed = f.queue
  last : k.buffer k.bufferTail = f.pushed.getLast?.getD 0
  codes : ∀ c ∈ f.pushed, keymap 0 c.toNat ≠ 0

namespace Rep

variable {k : KeyQueue} {f : Fifo (BitVec 8)}

theorem init : Rep KeyQueue.init Fifo.empty where
  used := rfl
  cap := by decide
  head := by decide
  tail := rfl
  cells := rfl
  last := rfl
  codes := fun c hc => by simp [Fifo.empty] at hc

/-- The repeat filter compares with the last code taken in. -/
theorem filter_iff (h : Rep k f) {code : BitVec 8} (hc : code ≠ 0) :
    code = k.buffer k.bufferTail ↔ f.pushed.getLast? = some code := by
  rw [h.last]
  cases f.pushed.getLast? with
  | none => simpa using hc
  | some c => rw [Option.getD_some, Option.some_inj, eq_comm]

theorem accepts_iff (h : Rep k f) (code : BitVec 8) : accepts k code ↔ Admits f code := by
  unfold accepts Admits bufferSize
  rw [h.used]
  refine and_congr_right fun _ => and_congr_right fun _ => not_congr (and_congr_right fun hs => ?_)
  apply h.filter_iff
  rcases hs with rfl | rfl <;> decide

theorem store (h : Rep k f) {code : BitVec 8} (ha : accepts k code) :
    Rep (k.store code) (f.push code) := by
  have hlt : k.bufferUsed < 256 := ha.1
  have hslot : (k.bufferTail + 1) % bufferSize = (k.bufferHead + k.bufferUsed + 1) % 256 := by
    rw [h.tail, bufferSize, Nat.mod_add_mod]
  refine ⟨?_, hlt, h.head, ?_, ?_, ?_, ?_⟩
  · simp [KeyQueue.store, Fifo.push, h.used]
  · rw [KeyQueue.store]
    dsimp only
    rw [hslot, Nat.add_assoc]
  · rw [KeyQueue.store]
    dsimp only
    rw [hslot, ring_push k.buffer code hlt, h.cells]
    rfl
  · simp [KeyQueue.store, Fifo.push]
  · intro c hc
    rw [Fifo.push, List.mem_append, List.mem_singleton] at hc
    rcases hc with hc | rfl
    · exact h.codes c hc
    · exact ha.2.1

/-- An interrupt's call, whether the code is taken in or not. -/
theorem bufferIn (h : Rep k f) (code : BitVec 8) :
    Rep (keyboardBufferIn k code) (if Admits f code then f.push code else f) := by
  rw [keyboardBufferIn_eq]
  by_cases ha : accepts k code
  · rw [if_pos ha, if_pos ((h.accepts_iff code).mp ha)]
    exact h.store ha
  · rw [if_neg ha, if_neg (fun hf => ha ((h.accepts_iff code).mpr hf))]
    exact h

theorem queue_nil_iff (h : Rep k f) : f.queue = [] ↔ k.bufferUsed = 0 := by
  rw [h.used, List.length_eq_zero_iff]

/-- Codes in the queue are not 0. -/
theorem ne_zero_of_mem (h : Rep k f) {c : BitVec 8} (hc : c ∈ f.queue) : c ≠ 0 := by
  intro hz
  have hmem : c ∈ f.pushed := by
    rw [f.order]
    exact List.mem_append_right _ hc
  exact h.codes c hmem (by rw [hz]; decide)

theorem bufferOut (h : Rep k f) :
    Rep (keyboardBufferOut k).1 f.pop.2 ∧ (keyboardBufferOut k).2 = f.pop.1.getD 0 := by
  cases hq : f.queue with
  | nil =>
    rw [keyboardBufferOut_empty (h.queue_nil_iff.mp hq), Fifo.pop_of_nil hq]
    exact ⟨h, rfl⟩
  | cons a q =>
    obtain ⟨hpop, hqueue, hpushed, _⟩ := Fifo.pop_of_cons hq
    have hused : k.bufferUsed = q.length + 1 := by rw [h.used, hq]; rfl
    have hcells := h.cells
    rw [hused, ring_pop, hq] at hcells
    obtain ⟨ha, hring⟩ := List.cons.inj hcells
    have hcap := h.cap
    rw [keyboardBufferOut_of_pos (by omega) hcap]
    refine ⟨⟨?_, ?_, ?_, ?_, ?_, ?_, ?_⟩, ?_⟩
    · rw [hqueue, hused]
      rfl
    · show k.bufferUsed - 1 ≤ 256
      omega
    · exact Nat.mod_lt _ (by decide)
    · show k.bufferTail = ((k.bufferHead + 1) % 256 + (k.bufferUsed - 1)) % 256
      rw [h.tail, Nat.mod_add_mod]
      congr 1
      omega
    · rw [hqueue, hused]
      exact hring
    · rw [hpushed]
      exact h.last
    · rw [hpushed]
      exact h.codes
    · rw [hpop, Option.getD_some]
      exact ha

end Rep

/-- One call keeps the relation, and both sides return the same. -/
theorem queueStep_refines {s : KeyQueue × List (BitVec 8)} {t : Fifo (BitVec 8) × List (BitVec 8)}
    (h : Rep s.1 t.1) (hout : s.2 = t.2) (op : KeyOp) :
    Rep (queueStep s op).1 (fifoStep t op).1 ∧ (queueStep s op).2 = (fifoStep t op).2 := by
  cases op with
  | bufferIn code => exact ⟨h.bufferIn code, hout⟩
  | bufferOut =>
    obtain ⟨hrep, hval⟩ := h.bufferOut
    exact ⟨hrep, by simp only [queueStep, fifoStep, hout, hval]⟩

theorem queue_run_refines {s : KeyQueue × List (BitVec 8)} {t : Fifo (BitVec 8) × List (BitVec 8)}
    (h : Rep s.1 t.1) (hout : s.2 = t.2) (ops : List KeyOp) :
    Rep (ops.foldl queueStep s).1 (ops.foldl fifoStep t).1 ∧
      (ops.foldl queueStep s).2 = (ops.foldl fifoStep t).2 := by
  induction ops generalizing s t with
  | nil => exact ⟨h, hout⟩
  | cons op ops ih =>
    obtain ⟨hrep, hval⟩ := queueStep_refines h hout op
    exact ih hrep hval

/-- One call keeps: the values returned, without the 0 of an empty queue, are the codes
popped. -/
theorem fifoStep_returned {k : KeyQueue} {t : Fifo (BitVec 8) × List (BitVec 8)}
    (h : Rep k t.1) (hout : t.2.filter (· ≠ 0) = t.1.popped) (op : KeyOp) :
    (fifoStep t op).2.filter (· ≠ 0) = (fifoStep t op).1.popped := by
  cases op with
  | bufferIn code =>
    show t.2.filter (· ≠ 0) = (if Admits t.1 code then t.1.push code else t.1).popped
    split
    · exact hout
    · exact hout
  | bufferOut =>
    show (t.2 ++ [t.1.pop.1.getD 0]).filter (· ≠ 0) = t.1.pop.2.popped
    rw [List.filter_append, hout]
    cases hq : t.1.queue with
    | nil =>
      rw [Fifo.pop_of_nil hq]
      simp
    | cons a q =>
      obtain ⟨hpop, _, _, hpopped⟩ := Fifo.pop_of_cons hq
      have ha : a ≠ 0 := h.ne_zero_of_mem (by rw [hq]; exact List.mem_cons_self)
      rw [hpop, hpopped]
      simpa using ha

theorem fifo_run_returned (s : KeyQueue × List (BitVec 8)) {t : Fifo (BitVec 8) × List (BitVec 8)}
    (h : Rep s.1 t.1) (hout : s.2 = t.2) (hret : t.2.filter (· ≠ 0) = t.1.popped)
    (ops : List KeyOp) :
    (ops.foldl fifoStep t).2.filter (· ≠ 0) = (ops.foldl fifoStep t).1.popped := by
  induction ops generalizing s t with
  | nil => exact hret
  | cons op ops ih =>
    obtain ⟨hrep, hval⟩ := queueStep_refines h hout op
    exact ih _ hrep hval (fifoStep_returned h hret op)

theorem Rep.bufferOut_zero_iff {k : KeyQueue} {f : Fifo (BitVec 8)} (h : Rep k f) :
    (keyboardBufferOut k).2 = 0 ↔ f.queue = [] := by
  rw [h.bufferOut.2]
  cases hq : f.queue with
  | nil =>
    rw [Fifo.pop_of_nil hq]
    simp
  | cons a q =>
    have ha : a ≠ 0 := h.ne_zero_of_mem (by rw [hq]; exact List.mem_cons_self)
    rw [(Fifo.pop_of_cons hq).1]
    simpa using ha

/-- **The ring is a bounded FIFO.** After every sequence of calls from the zeroed state,
with `t` the FIFO after the same calls: the values returned are the same, and without the
0 of an empty queue they are the codes taken in, in arrival order, up to what is queued;
the next `keyboard_buffer_out` returns 0 exactly when the queue is empty, and then changes
nothing; the next `keyboard_buffer_in` takes a code in exactly when `Admits` holds, and
drops it otherwise. -/
theorem keyQueue_refines_fifo (ops : List KeyOp) :
    let s := ops.foldl queueStep (KeyQueue.init, [])
    let t := ops.foldl fifoStep (Fifo.empty, [])
    s.2 = t.2 ∧
      s.2.filter (· ≠ 0) = t.1.popped ∧
      t.1.pushed = t.1.popped ++ t.1.queue ∧
      ring 256 s.1.buffer s.1.bufferHead s.1.bufferUsed = t.1.queue ∧
      s.1.bufferTail = (s.1.bufferHead + s.1.bufferUsed) % 256 ∧
      s.1.bufferUsed ≤ 256 ∧
      (keyboardBufferOut s.1 = (s.1, 0) ↔ t.1.queue = []) ∧
      ((keyboardBufferOut s.1).2 = 0 ↔ t.1.queue = []) ∧
      ∀ code, (Admits t.1 code → keyboardBufferIn s.1 code = s.1.store code) ∧
        (¬ Admits t.1 code → keyboardBufferIn s.1 code = s.1) := by
  intro s t
  have hrun : Rep s.1 t.1 ∧ s.2 = t.2 := queue_run_refines Rep.init rfl ops
  obtain ⟨hrep, hout⟩ := hrun
  have hret : t.2.filter (· ≠ 0) = t.1.popped :=
    fifo_run_returned (KeyQueue.init, []) Rep.init rfl rfl ops
  have hzero : (keyboardBufferOut s.1).2 = 0 ↔ t.1.queue = [] := hrep.bufferOut_zero_iff
  refine ⟨hout, ?_, t.1.order, hrep.cells, hrep.tail, hrep.cap, ?_, hzero, ?_⟩
  · rw [← hret]
    exact congrArg (List.filter _) hout
  · refine ⟨fun h => hzero.mp (by rw [h]), fun h => ?_⟩
    exact keyboardBufferOut_empty (hrep.queue_nil_iff.mp h)
  · intro code
    rw [keyboardBufferIn_eq]
    refine ⟨fun h => if_pos ((hrep.accepts_iff code).mpr h), fun h => if_neg fun ha => ?_⟩
    exact h ((hrep.accepts_iff code).mp ha)

end ListaOS.Keyboard
