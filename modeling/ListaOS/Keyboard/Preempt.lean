/-
  keyboard_buffer_clear preempted by the keyboard interrupt.

  The main path runs `while (bufferUsed > 0) code = keyboard_buffer_out()` one statement
  at a time; `irq_0x21` runs keyboard_buffer_in to completion between any two statements.
  What keyboard_buffer_clear does with a code (status, putc) does not touch the queue.

  The atomic order a preempted run commits to has a keyboard_buffer_in at each interrupt
  and a keyboard_buffer_out at each decrement of `bufferUsed`. The slot is free from the
  decrement on, and it is read after it: an interrupt between the two that takes in a
  code while `bufferUsed` is 255 stores into it (`Overwrites`). `preempted_queue_atomic`
  is over every run without such a step.
-/
import ListaOS.Keyboard.Queue

namespace ListaOS.Keyboard

open Lib

/-- Where the main path stands. -/
inductive MainPc where
  /-- outside keyboard_buffer_clear -/
  | idle
  /-- at `while (bufferUsed > 0)` -/
  | loop
  /-- in keyboard_buffer_out, at `if (bufferUsed == 0)` -/
  | test
  | advance
  | decrement
  | read
deriving DecidableEq

structure Preempted where
  kb : KeyQueue
  pc : MainPc
  /-- codes keyboard_buffer_in took in -/
  accepted : List (BitVec 8)
  /-- values keyboard_buffer_out returned -/
  returned : List (BitVec 8)

def Preempted.init : Preempted := ⟨KeyQueue.init, .idle, [], []⟩

/-- One statement of the main path, or one interrupt with the code read from the port. -/
inductive KeyEvent where
  | main
  | irq (code : BitVec 8)

def mainStep (s : Preempted) : Preempted :=
  match s.pc with
  | .idle => { s with pc := .loop }
  | .loop => if 0 < s.kb.bufferUsed then { s with pc := .test } else { s with pc := .idle }
  | .test =>
    if s.kb.bufferUsed = 0 then { s with pc := .loop, returned := s.returned ++ [0] }
    else { s with pc := .advance }
  | .advance =>
    { s with
      pc := .decrement
      kb := { s.kb with bufferHead := (s.kb.bufferHead + 1) % bufferSize } }
  | .decrement =>
    { s with
      pc := .read
      kb := { s.kb with bufferUsed := (s.kb.bufferUsed + (2 ^ 16 - 1)) % 2 ^ 16 } }
  | .read => { s with pc := .loop, returned := s.returned ++ [s.kb.buffer s.kb.bufferHead] }

def irqStep (s : Preempted) (code : BitVec 8) : Preempted :=
  { s with
    kb := keyboardBufferIn s.kb code
    accepted := if accepts s.kb code then s.accepted ++ [code] else s.accepted }

def preemptStep (s : Preempted) : KeyEvent → Preempted
  | .main => mainStep s
  | .irq code => irqStep s code

/-- The calls a step completes in the atomic order. -/
def commits (s : Preempted) : KeyEvent → List KeyOp
  | .irq code => [.bufferIn code]
  | .main =>
    if s.pc = .decrement ∨ (s.pc = .test ∧ s.kb.bufferUsed = 0) then [.bufferOut] else []

/-- The interrupt's code goes into the slot that was given back and is not yet read. -/
def Overwrites (s : Preempted) : KeyEvent → Prop
  | .main => False
  | .irq code => s.pc = .read ∧ s.kb.bufferUsed = 255 ∧ accepts s.kb code

instance (s : Preempted) : ∀ e, Decidable (Overwrites s e)
  | .main => inferInstanceAs (Decidable False)
  | .irq _ => inferInstanceAs (Decidable (_ ∧ _ ∧ _))

/-- The code a keyboard_buffer_out in progress will return, from its decrement on. -/
def Preempted.inflight (s : Preempted) : List (BitVec 8) :=
  if s.pc = .read then [s.kb.buffer s.kb.bufferHead] else []

/-- keyboard_buffer_out is in progress. -/
def Preempted.inOut (s : Preempted) : Prop := s.pc ≠ .idle ∧ s.pc ≠ .loop

/-! ## Simulation by the atomic order -/

/-- `a` is the ring and the returned values after the atomic order so far. Between the
advance and the decrement the head is one ahead of it. -/
structure Sim (s : Preempted) (a : KeyQueue × List (BitVec 8)) : Prop where
  same : s.pc ≠ .decrement → s.kb = a.1
  ahead : s.pc = .decrement → s.kb = { a.1 with bufferHead := (a.1.bufferHead + 1) % bufferSize }
  pending : s.pc = .test ∨ s.pc = .advance ∨ s.pc = .decrement → 0 < a.1.bufferUsed
  returned : a.2 = s.returned ++ s.inflight
  fifo : ∃ f : Fifo (BitVec 8), Rep a.1 f ∧ f.pushed = s.accepted ∧ f.popped = a.2

theorem Sim.init : Sim Preempted.init (KeyQueue.init, []) where
  same := fun _ => rfl
  ahead := fun h => by cases h
  pending := fun h => by simp [Preempted.init] at h
  returned := rfl
  fifo := ⟨Fifo.empty, Rep.init, rfl, rfl⟩

/-- keyboard_buffer_in neither reads nor writes the head. -/
theorem accepts_head (k : KeyQueue) (h : Nat) (code : BitVec 8) :
    accepts { k with bufferHead := h } code ↔ accepts k code := Iff.rfl

theorem keyboardBufferIn_head (k : KeyQueue) (h : Nat) (code : BitVec 8) :
    keyboardBufferIn { k with bufferHead := h } code =
      { keyboardBufferIn k code with bufferHead := h } := by
  rw [keyboardBufferIn_eq, keyboardBufferIn_eq]
  by_cases ha : accepts k code
  · rw [if_pos ha, if_pos ((accepts_head k h code).mpr ha)]
    rfl
  · rw [if_neg ha, if_neg fun hh => ha ((accepts_head k h code).mp hh)]

theorem bufferUsed_le_keyboardBufferIn (k : KeyQueue) (code : BitVec 8) :
    k.bufferUsed ≤ (keyboardBufferIn k code).bufferUsed := by
  rw [keyboardBufferIn_eq]
  split
  · exact Nat.le_succ _
  · exact Nat.le_refl _

/-- Below 255 used cells, a code goes into another slot than the head's. -/
theorem Rep.head_slot_kept {k : KeyQueue} {f : Fifo (BitVec 8)} (h : Rep k f) {code : BitVec 8}
    (hsafe : ¬ (k.bufferUsed = 255 ∧ accepts k code)) :
    (keyboardBufferIn k code).buffer (keyboardBufferIn k code).bufferHead =
      k.buffer k.bufferHead := by
  rw [keyboardBufferIn_eq]
  by_cases ha : accepts k code
  · rw [if_pos ha]
    have hlt : k.bufferUsed < 256 := ha.1
    have h255 : k.bufferUsed ≠ 255 := fun hu => hsafe ⟨hu, ha⟩
    have hne : k.bufferHead ≠ (k.bufferTail + 1) % 256 := by
      intro he
      rw [h.tail, Nat.mod_add_mod, Nat.add_assoc] at he
      have hhead : (k.bufferHead + 0) % 256 = k.bufferHead := Nat.mod_eq_of_lt h.head
      have hidx := ring_index_inj (by decide) (by omega) (hhead.trans he)
      omega
    exact Function.update_of_ne hne code k.buffer
  · rw [if_neg ha]

/-- An interrupt that does not overwrite is one atomic keyboard_buffer_in. -/
theorem Sim.irq {s : Preempted} {a : KeyQueue × List (BitVec 8)} (h : Sim s a) {code : BitVec 8}
    (hsafe : ¬ Overwrites s (.irq code)) : Sim (irqStep s code) (queueStep a (.bufferIn code)) := by
  obtain ⟨f, hrep, hpushed, hpopped⟩ := h.fifo
  have hacc : accepts s.kb code ↔ accepts a.1 code := by
    by_cases hpc : s.pc = .decrement
    · rw [h.ahead hpc]
      exact accepts_head _ _ _
    · rw [h.same hpc]
  refine ⟨?_, ?_, ?_, ?_, ?_⟩
  · intro hpc
    show keyboardBufferIn s.kb code = keyboardBufferIn a.1 code
    rw [h.same hpc]
  · intro hpc
    have hhead : (keyboardBufferIn a.1 code).bufferHead = a.1.bufferHead := by
      rw [keyboardBufferIn_eq]
      split
      · rfl
      · rfl
    show keyboardBufferIn s.kb code = _
    rw [h.ahead hpc, keyboardBufferIn_head]
    simp only [queueStep, hhead]
  · intro hpc
    exact Nat.lt_of_lt_of_le (h.pending hpc) (bufferUsed_le_keyboardBufferIn a.1 code)
  · show a.2 = s.returned ++ (irqStep s code).inflight
    rw [h.returned]
    congr 1
    unfold Preempted.inflight
    by_cases hpc : s.pc = .read
    · have hkb : s.kb = a.1 := h.same (by rw [hpc]; decide)
      have hno : ¬ (a.1.bufferUsed = 255 ∧ accepts a.1 code) := by
        rw [← hkb]
        exact fun hh => hsafe ⟨hpc, hh⟩
      rw [if_pos hpc, if_pos (show (irqStep s code).pc = .read from hpc), hkb]
      show _ = [(keyboardBufferIn s.kb code).buffer (keyboardBufferIn s.kb code).bufferHead]
      rw [hkb, hrep.head_slot_kept hno]
    · rw [if_neg hpc, if_neg (show (irqStep s code).pc ≠ .read from hpc)]
  · refine ⟨_, hrep.bufferIn code, ?_, ?_⟩
    · by_cases ha : accepts a.1 code
      · rw [if_pos ((hrep.accepts_iff code).mp ha)]
        simp only [Fifo.push, irqStep, hpushed, if_pos (hacc.mpr ha)]
      · rw [if_neg fun hf => ha ((hrep.accepts_iff code).mpr hf)]
        simp only [irqStep, hpushed, if_neg fun hs => ha (hacc.mp hs)]
    · show (if Admits f code then f.push code else f).popped = a.2
      rw [← hpopped]
      split
      · rfl
      · rfl

/-- The decrement is one atomic keyboard_buffer_out, whose value is now in flight. -/
theorem Sim.decrement {s : Preempted} {a : KeyQueue × List (BitVec 8)} (h : Sim s a)
    (hpc : s.pc = .decrement) : Sim (mainStep s) (queueStep a .bufferOut) := by
  obtain ⟨f, hrep, hpushed, hpopped⟩ := h.fifo
  have hpos : 0 < a.1.bufferUsed := h.pending (Or.inr (Or.inr hpc))
  have hcap : a.1.bufferUsed ≤ bufferSize := hrep.cap
  have hout := keyboardBufferOut_of_pos hpos hcap
  have hstep : mainStep s =
      { s with
        pc := .read
        kb := { s.kb with bufferUsed := (s.kb.bufferUsed + (2 ^ 16 - 1)) % 2 ^ 16 } } := by
    unfold mainStep
    rw [hpc]
  have hmod : (a.1.bufferUsed + (2 ^ 16 - 1)) % 2 ^ 16 = a.1.bufferUsed - 1 := by
    unfold bufferSize at hcap
    omega
  have hkb : (mainStep s).kb = (keyboardBufferOut a.1).1 := by
    rw [hstep, hout, h.ahead hpc]
    simp only [hmod]
  have hread : (mainStep s).pc = .read := by rw [hstep]
  have hinflight : s.inflight = [] := by
    rw [Preempted.inflight, hpc]
    rfl
  refine ⟨fun _ => hkb, ?_, ?_, ?_, ?_⟩
  · intro hdec
    rw [hread] at hdec
    cases hdec
  · intro hdec
    rw [hread] at hdec
    simp at hdec
  · have hret : (mainStep s).returned = s.returned := by rw [hstep]
    rw [hret, Preempted.inflight, if_pos hread, hkb]
    show a.2 ++ [(keyboardBufferOut a.1).2] = _
    rw [h.returned, hinflight, List.append_nil, hout]
  · obtain ⟨hrep', hval⟩ := hrep.bufferOut
    refine ⟨f.pop.2, hrep', ?_, ?_⟩
    · rw [hstep, Fifo.pushed_pop, hpushed]
    · show f.pop.2.popped = a.2 ++ [(keyboardBufferOut a.1).2]
      cases hq : f.queue with
      | nil => exact absurd (hrep.queue_nil_iff.mp hq) (by omega)
      | cons c q =>
        obtain ⟨hpop, _, _, hpopped'⟩ := Fifo.pop_of_cons hq
        rw [hpopped', hval, hpop, hpopped, Option.getD_some]

/-- A main step that moves only `pc` keeps the simulation. -/
theorem Sim.move {s : Preempted} {a : KeyQueue × List (BitVec 8)} (h : Sim s a) {pc : MainPc}
    (hkb : s.kb = a.1) (hin : s.inflight = []) (hdec : pc ≠ .decrement) (hread : pc ≠ .read)
    (hpend : pc = .test ∨ pc = .advance → 0 < a.1.bufferUsed) :
    Sim { s with pc := pc } a where
  same := fun _ => hkb
  ahead := fun hpc => absurd hpc hdec
  pending := fun hpc => hpend (hpc.imp_right fun hor => hor.resolve_right hdec)
  returned := by
    rw [h.returned, hin, Preempted.inflight, if_neg hread]
  fifo := h.fifo

theorem Preempted.inflight_of_ne {s : Preempted} (h : s.pc ≠ .read) : s.inflight = [] := if_neg h

/-- At the test there are codes, so the empty return is not taken. -/
theorem Sim.commits_nil {s : Preempted} {a : KeyQueue × List (BitVec 8)} (h : Sim s a)
    (hne : s.pc ≠ .decrement) : commits s .main = [] := by
  have hno : ¬ (s.pc = .decrement ∨ (s.pc = .test ∧ s.kb.bufferUsed = 0)) := by
    intro hor
    obtain ⟨htest, hzero⟩ := hor.resolve_left hne
    have hpos := h.pending (Or.inl htest)
    rw [← h.same hne, hzero] at hpos
    cases hpos
  exact if_neg hno

/-- A statement of the main path keeps the simulation; only the decrement completes a call. -/
theorem Sim.main {s : Preempted} {a : KeyQueue × List (BitVec 8)} (h : Sim s a) :
    Sim (mainStep s) ((commits s .main).foldl queueStep a) := by
  by_cases hdec : s.pc = .decrement
  · have hcommit : commits s .main = [.bufferOut] := if_pos (Or.inl hdec)
    rw [hcommit]
    exact h.decrement hdec
  have hkb : s.kb = a.1 := h.same hdec
  rw [h.commits_nil hdec]
  show Sim (mainStep s) a
  have hnone : s.pc ≠ .read → s.inflight = [] := Preempted.inflight_of_ne
  cases hpc : s.pc with
  | decrement => exact absurd hpc hdec
  | idle =>
    have hin := hnone (by rw [hpc]; decide)
    simp only [mainStep, hpc]
    exact h.move hkb hin (by decide) (by decide) (by simp)
  | loop =>
    have hin := hnone (by rw [hpc]; decide)
    simp only [mainStep, hpc]
    by_cases hpos : 0 < s.kb.bufferUsed
    · rw [if_pos hpos]
      exact h.move hkb hin (by decide) (by decide) fun _ => hkb ▸ hpos
    · rw [if_neg hpos]
      exact h.move hkb hin (by decide) (by decide) (by simp)
  | test =>
    have hin := hnone (by rw [hpc]; decide)
    have hpos : 0 < a.1.bufferUsed := h.pending (Or.inl hpc)
    have hne : s.kb.bufferUsed ≠ 0 := by
      rw [hkb]
      omega
    simp only [mainStep, hpc, if_neg hne]
    exact h.move hkb hin (by decide) (by decide) fun _ => hpos
  | advance =>
    have hin := hnone (by rw [hpc]; decide)
    simp only [mainStep, hpc]
    refine ⟨fun hne => absurd rfl hne, fun _ => ?_, fun _ => h.pending (Or.inr (Or.inl hpc)), ?_,
      h.fifo⟩
    · rw [hkb]
    · show a.2 = s.returned ++ []
      rw [h.returned, hin]
  | read =>
    simp only [mainStep, hpc]
    refine ⟨fun _ => hkb, fun hd => (by cases hd), fun hp => (by simp at hp), ?_, h.fifo⟩
    show a.2 = (s.returned ++ [s.kb.buffer s.kb.bufferHead]) ++ []
    rw [h.returned, Preempted.inflight, if_pos hpc, List.append_nil]

theorem Sim.step {s : Preempted} {a : KeyQueue × List (BitVec 8)} (e : KeyEvent) (h : Sim s a)
    (hsafe : ¬ Overwrites s e) : Sim (preemptStep s e) ((commits s e).foldl queueStep a) := by
  cases e with
  | main => exact h.main
  | irq code => exact h.irq hsafe

/-! ## Runs -/

/-- The run of the main path and the interrupts from the zeroed state. -/
def preempted (es : List KeyEvent) : Preempted := es.foldl preemptStep Preempted.init

/-- The calls the run completes, in the atomic order. -/
def atomicOrder (es : List KeyEvent) : List KeyOp := commitsOf preemptStep commits Preempted.init es

/-- No step of the run overwrites the slot to be read. -/
def NoOverwrite (es : List KeyEvent) : Prop :=
  Along preemptStep (fun s e => ¬ Overwrites s e) Preempted.init es

instance (es : List KeyEvent) : Decidable (NoOverwrite es) :=
  decidableAlong preemptStep (fun s e => ¬ Overwrites s e) Preempted.init es

/-- The codes handed to keyboard_buffer_in. -/
def KeyOp.code? : KeyOp → Option (BitVec 8)
  | .bufferIn code => some code
  | .bufferOut => none

def KeyEvent.code? : KeyEvent → Option (BitVec 8)
  | .irq code => some code
  | .main => none

/-- The atomic order hands over the same codes in the same order. -/
theorem codes_commitsOf (s : Preempted) (es : List KeyEvent) :
    (commitsOf preemptStep commits s es).filterMap KeyOp.code? = es.filterMap KeyEvent.code? := by
  induction es generalizing s with
  | nil => rfl
  | cons e es ih =>
    rw [commitsOf, List.filterMap_append, ih]
    cases e with
    | irq code => rfl
    | main =>
      rw [List.filterMap_cons_none (show KeyEvent.code? .main = none from rfl)]
      simp only [commits]
      split
      · rfl
      · rfl

theorem sim_of_noOverwrite {es : List KeyEvent} (h : NoOverwrite es) :
    Sim (preempted es) ((atomicOrder es).foldl queueStep (KeyQueue.init, [])) :=
  foldl_simulates Sim (fun _ _ e hsim hsafe => hsim.step e hsafe) Sim.init h

/-- **Preempted runs.** In every run in which no interrupt stores into the slot being read,
what keyboard_buffer_out returned is what the atomic order of the same calls returns (with
the value in flight, if a call is past its decrement); the codes returned are the codes
taken in, in order, and the rest are queued; and `bufferTail` is `bufferHead + bufferUsed`
mod 256 whenever no keyboard_buffer_out is in progress. -/
theorem preempted_queue_atomic (es : List KeyEvent) (h : NoOverwrite es) :
    let s := preempted es
    let a := (atomicOrder es).foldl queueStep (KeyQueue.init, [])
    (atomicOrder es).filterMap KeyOp.code? = es.filterMap KeyEvent.code? ∧
      a.2 = s.returned ++ s.inflight ∧
      s.accepted = s.returned ++ s.inflight ++
        ring 256 a.1.buffer a.1.bufferHead a.1.bufferUsed ∧
      (¬ s.inOut → s.inflight = [] ∧ s.kb = a.1 ∧
        s.kb.bufferTail = (s.kb.bufferHead + s.kb.bufferUsed) % 256) := by
  intro s a
  have hsim : Sim s a := sim_of_noOverwrite h
  obtain ⟨f, hrep, hpushed, hpopped⟩ := hsim.fifo
  refine ⟨codes_commitsOf Preempted.init es, hsim.returned, ?_, ?_⟩
  · rw [← hsim.returned, hrep.cells, ← hpushed, ← hpopped]
    exact f.order
  · intro hout
    have hpc : s.pc ≠ .decrement ∧ s.pc ≠ .read := by
      unfold Preempted.inOut at hout
      refine ⟨fun hd => hout ?_, fun hr => hout ?_⟩
      · rw [hd]
        decide
      · rw [hr]
        decide
    have hkb : s.kb = a.1 := hsim.same hpc.1
    refine ⟨Preempted.inflight_of_ne hpc.2, hkb, ?_⟩
    rw [hkb]
    exact hrep.tail

/-- Codes taken in before and inside a keyboard_buffer_out. -/
theorem preempted_queue_atomic_two_codes :
    let es := [.irq 0x1e, .main, .main, .main, .irq 0x30, .main, .main, .irq 0x2e, .main]
    NoOverwrite es ∧
      (preempted es).accepted = (preempted es).returned ++ (preempted es).inflight ++
        ring 256 ((atomicOrder es).foldl queueStep (KeyQueue.init, [])).1.buffer
          ((atomicOrder es).foldl queueStep (KeyQueue.init, [])).1.bufferHead
          ((atomicOrder es).foldl queueStep (KeyQueue.init, [])).1.bufferUsed := by
  have h : NoOverwrite
      [.irq 0x1e, .main, .main, .main, .irq 0x30, .main, .main, .irq 0x2e, .main] := by decide
  exact ⟨h, (preempted_queue_atomic _ h).2.2.1⟩

/-! ## The overwritten slot -/

theorem fifoStep_head? {t : Fifo (BitVec 8) × List (BitVec 8)} {c : BitVec 8}
    (h : t.1.pushed.head? = some c) (op : KeyOp) : (fifoStep t op).1.pushed.head? = some c := by
  cases op with
  | bufferIn code =>
    show (if Admits t.1 code then t.1.push code else t.1).pushed.head? = some c
    split
    · rw [Fifo.push, List.head?_append, h]
      rfl
    · exact h
  | bufferOut =>
    show t.1.pop.2.pushed.head? = some c
    rw [Fifo.pushed_pop, h]

/-- The first code handed to an empty queue is the first taken in, if the key map has it. -/
theorem fifo_run_head? {t : Fifo (BitVec 8) × List (BitVec 8)} {c : BitVec 8}
    (hq : t.1.queue = []) (hp : t.1.pushed = []) (hc : keymap 0 c.toNat ≠ 0) {ops : List KeyOp}
    {cs : List (BitVec 8)} (hops : ops.filterMap KeyOp.code? = c :: cs) :
    (ops.foldl fifoStep t).1.pushed.head? = some c := by
  induction ops generalizing t with
  | nil => cases hops
  | cons op ops ih =>
    cases op with
    | bufferOut =>
      have hstep : (fifoStep t .bufferOut).1 = t.1 := by
        show t.1.pop.2 = t.1
        rw [Fifo.pop_of_nil hq]
      exact ih (by rw [hstep, hq]) (by rw [hstep, hp]) hops
    | bufferIn code =>
      obtain ⟨rfl, _⟩ := List.cons.inj hops
      have hadmits : Admits t.1 code := by
        refine ⟨?_, hc, ?_⟩
        · rw [hq]
          decide
        · intro h
          rw [hp] at h
          cases h.2
      have hfirst : (fifoStep t (.bufferIn code)).1.pushed.head? = some code := by
        show (if Admits t.1 code then t.1.push code else t.1).pushed.head? = some code
        rw [if_pos hadmits]
        show (t.1.pushed ++ [code]).head? = some code
        rw [hp]
        rfl
      exact foldl_invariant
        (fun u : Fifo (BitVec 8) × List (BitVec 8) => u.1.pushed.head? = some code)
        (fun _ op hu => fifoStep_head? hu op) hfirst ops

/-- With 256 codes queued, a code that arrives between the decrement and the read goes into
the slot to be read: keyboard_buffer_out returns it before all the codes taken in earlier,
which no order of whole calls with the same codes does. -/
theorem full_queue_out_overwritten :
    let es : List KeyEvent :=
      List.replicate 256 (.irq 0x1e) ++ [.main, .main, .main, .main, .main, .irq 0x30, .main]
    ¬ (preempted es).inOut ∧ ¬ (preempted es).returned <+: (preempted es).accepted ∧
      ∀ ops : List KeyOp, ops.filterMap KeyOp.code? = es.filterMap KeyEvent.code? →
        (ops.foldl queueStep (KeyQueue.init, [])).2 ≠ (preempted es).returned := by
  intro es
  have hret : (preempted es).returned = [0x30] := by decide +kernel
  refine ⟨?_, ?_, ?_⟩
  · have hpc : (preempted es).pc = .loop := by decide +kernel
    exact fun hin => hin.2 hpc
  · decide +kernel
  · intro ops hops heq
    have hcodes : ops.filterMap KeyOp.code? = 0x1e :: (es.filterMap KeyEvent.code?).tail := by
      rw [hops]
      rfl
    have hfirst := fifo_run_head? (t := (Fifo.empty, [])) rfl rfl (by decide) hcodes
    have hpopped := fifo_run_returned (KeyQueue.init, []) (t := (Fifo.empty, [])) Rep.init rfl rfl
      ops
    have hsame := (queue_run_refines (s := (KeyQueue.init, [])) (t := (Fifo.empty, [])) Rep.init
      rfl ops).2
    rw [← hsame, heq, hret] at hpopped
    rw [Fifo.order, ← hpopped] at hfirst
    exact absurd (Option.some.inj hfirst) (by decide)

end ListaOS.Keyboard
