/-
  What keyboard_buffer_clear prints (libkernel/keyboard.c).

  keyboard_buffer_clear empties the queue and translates each code with `status` (bit 0:
  shift, bit 1: caps lock). `arrived ops` are the codes that find the queue with room, and
  `taken` is what the queue takes in of them: the repeat filter looks at the last code taken
  in, whether it is still queued or not, so `taken` does not depend on when the queue is
  emptied (`Sync.step`). Where every code finds room, neither do the characters and the status
  after a last keyboard_buffer_clear (`drain_timing`).

  Both shift keys set the one shift bit and both release codes clear it, so the bit is that
  of the last shift code (`status_translate`). `shift_status_iff`: it tells whether a shift
  key is held exactly when no shift key is held after the release of the other.
-/
import ListaOS.Keyboard.Queue
import Mathlib.Data.List.Induction

namespace ListaOS.Keyboard

open Lib

/-- `status`, and the characters handed to `putc`. -/
structure Translation where
  status : BitVec 8
  out : List (BitVec 8)

/-- The body of keyboard_buffer_clear's loop for one code. -/
def translate (t : Translation) (code : BitVec 8) : Translation :=
  if code = 0x2a ∨ code = 0x36 then { t with status := (t.status &&& 2) + 1 }
  else if code = 0x3a then { t with status := t.status ^^^ 2 }
  else if code = 0xaa ∨ code = 0xb6 then { t with status := t.status &&& 2 }
  else if code < 0x80 then
    if keymap t.status.toNat code.toNat ≠ 0 then
      { t with out := t.out ++ [keymap t.status.toNat code.toNat] }
    else t
  else t

structure KeyState where
  queue : KeyQueue
  text : Translation

/-- Zeroed .bss. -/
def KeyState.init : KeyState := ⟨KeyQueue.init, ⟨0, []⟩⟩

/-- `while (bufferUsed > 0)`. -/
def clearLoop : Nat → KeyState → KeyState
  | 0, k => k
  | n + 1, k =>
      if 0 < k.queue.bufferUsed then
        let (queue, code) := keyboardBufferOut k.queue
        clearLoop n ⟨queue, translate k.text code⟩
      else k

/-- Each round takes one code out (`clearLoop_spec`: the queue is empty at the end). -/
def keyboardBufferClear (k : KeyState) : KeyState := clearLoop k.queue.bufferUsed k

/-- An interrupt's keyboard_buffer_in, or a keyboard_buffer_clear of the main loop. -/
inductive DrainOp where
  | bufferIn (code : BitVec 8)
  | bufferClear
deriving DecidableEq

def drainStep (k : KeyState) : DrainOp → KeyState
  | .bufferIn code => { k with queue := keyboardBufferIn k.queue code }
  | .bufferClear => keyboardBufferClear k

/-- The run of the calls from the zeroed state. -/
def drained (ops : List DrainOp) : KeyState := ops.foldl drainStep KeyState.init

def DrainOp.code? : DrainOp → Option (BitVec 8)
  | .bufferIn code => some code
  | .bufferClear => none

/-- The stream of scan codes of the calls. -/
def codes (ops : List DrainOp) : List (BitVec 8) := ops.filterMap DrainOp.code?

/-- The call is not a keyboard_buffer_in on a full queue. -/
def HasRoom (k : KeyState) : DrainOp → Prop
  | .bufferIn _ => k.queue.bufferUsed < bufferSize
  | .bufferClear => True

instance (k : KeyState) : ∀ op, Decidable (HasRoom k op)
  | .bufferIn _ => inferInstanceAs (Decidable (_ < _))
  | .bufferClear => inferInstanceAs (Decidable True)

def NeverFull (ops : List DrainOp) : Prop := Along drainStep HasRoom KeyState.init ops

instance (ops : List DrainOp) : Decidable (NeverFull ops) :=
  decidableAlong drainStep HasRoom KeyState.init ops

/-- The codes of a call that get past the test for a full queue. -/
def arrivals (k : KeyState) (op : DrainOp) : List (BitVec 8) :=
  if HasRoom k op then codes [op] else []

/-- The codes of the run that find the queue with room. -/
def arrived (ops : List DrainOp) : List (BitVec 8) := commitsOf drainStep arrivals KeyState.init ops

/-! ## What is taken in -/

/-- A code is taken in after the codes `l`, if there is room. -/
def Takes (l : List (BitVec 8)) (code : BitVec 8) : Prop :=
  keymap 0 code.toNat ≠ 0 ∧ ¬ ((code = 0x2a ∨ code = 0x36) ∧ l.getLast? = some code)

instance (l : List (BitVec 8)) (code : BitVec 8) : Decidable (Takes l code) :=
  inferInstanceAs (Decidable (_ ∧ ¬ _))

def takeStep (l : List (BitVec 8)) (code : BitVec 8) : List (BitVec 8) :=
  if Takes l code then l ++ [code] else l

def taken (codes : List (BitVec 8)) : List (BitVec 8) := codes.foldl takeStep []

theorem taken_snoc (cs : List (BitVec 8)) (c : BitVec 8) :
    taken (cs ++ [c]) = takeStep (taken cs) c := by
  unfold taken
  rw [List.foldl_append, List.foldl_cons, List.foldl_nil]

/-- The keyboard after the stream `cs`: it took in `taken cs`, and translated what it took out. -/
structure Sync (k : KeyState) (cs : List (BitVec 8)) (f : Fifo (BitVec 8)) : Prop where
  rep : Rep k.queue f
  pushed : f.pushed = taken cs
  text : k.text = f.popped.foldl translate ⟨0, []⟩

theorem Sync.init : Sync KeyState.init [] Fifo.empty := ⟨Rep.init, rfl, rfl⟩

/-- The loop takes out and translates everything queued. -/
theorem clearLoop_spec (n : Nat) {k : KeyState} {f : Fifo (BitVec 8)} (h : Rep k.queue f)
    (hn : f.queue.length ≤ n) :
    ∃ g : Fifo (BitVec 8), Rep (clearLoop n k).queue g ∧ g.queue = [] ∧ g.pushed = f.pushed ∧
      g.popped = f.popped ++ f.queue ∧ (clearLoop n k).text = f.queue.foldl translate k.text := by
  induction n generalizing k f with
  | zero =>
    have hnil : f.queue = [] := List.length_eq_zero_iff.mp (Nat.le_zero.mp hn)
    refine ⟨f, h, hnil, rfl, ?_, ?_⟩
    · rw [hnil, List.append_nil]
    · rw [hnil]
      rfl
  | succ n ih =>
    cases hq : f.queue with
    | nil =>
      have hused : ¬ 0 < k.queue.bufferUsed := by
        rw [h.used, hq]
        exact Nat.lt_irrefl 0
      rw [clearLoop, if_neg hused]
      exact ⟨f, h, hq, rfl, by rw [List.append_nil], rfl⟩
    | cons c q =>
      have hused : 0 < k.queue.bufferUsed := by
        rw [h.used, hq]
        exact Nat.zero_lt_succ _
      obtain ⟨hpop, hqueue, _, hpopped⟩ := Fifo.pop_of_cons hq
      obtain ⟨hrep, hval⟩ := h.bufferOut
      rw [hpop, Option.getD_some] at hval
      have hlen : f.pop.2.queue.length ≤ n := by
        rw [hq, List.length_cons] at hn
        rw [hqueue]
        omega
      obtain ⟨g, hg, hnil, hpush, hpops, htext⟩ :=
        ih (k := ⟨(keyboardBufferOut k.queue).1, translate k.text (keyboardBufferOut k.queue).2⟩)
          hrep hlen
      rw [clearLoop, if_pos hused]
      refine ⟨g, hg, hnil, hpush.trans f.pushed_pop, ?_, ?_⟩
      · rw [hpops, hpopped, hqueue, List.append_assoc]
        rfl
      · refine htext.trans ?_
        rw [hqueue, hval]
        rfl

theorem Sync.clear {k : KeyState} {cs : List (BitVec 8)} {f : Fifo (BitVec 8)} (h : Sync k cs f) :
    ∃ g, Sync (keyboardBufferClear k) cs g ∧ g.queue = [] := by
  obtain ⟨g, hrep, hnil, hpushed, hpopped, htext⟩ :=
    clearLoop_spec k.queue.bufferUsed h.rep (Nat.le_of_eq h.rep.used.symm)
  refine ⟨g, ⟨hrep, hpushed.trans h.pushed, ?_⟩, hnil⟩
  rw [hpopped, List.foldl_append, ← h.text]
  exact htext

/-- With room, the queue takes in what `taken` says. -/
theorem Sync.bufferIn {k : KeyState} {cs : List (BitVec 8)} {f : Fifo (BitVec 8)} (h : Sync k cs f)
    {code : BitVec 8} (hroom : k.queue.bufferUsed < bufferSize) :
    Sync { k with queue := keyboardBufferIn k.queue code } (cs ++ [code])
      (if Admits f code then f.push code else f) := by
  have hlen : f.queue.length < 256 := by
    rw [← h.rep.used]
    exact hroom
  have htakes : Admits f code ↔ Takes (taken cs) code := by
    rw [← h.pushed]
    exact and_iff_right hlen
  refine ⟨h.rep.bufferIn code, ?_, ?_⟩
  · rw [taken_snoc, takeStep]
    by_cases ha : Admits f code
    · rw [if_pos ha, if_pos (htakes.mp ha), ← h.pushed]
      rfl
    · rw [if_neg ha, if_neg fun ht => ha (htakes.mpr ht)]
      exact h.pushed
  · rw [apply_ite Fifo.popped]
    show k.text = (if Admits f code then f.popped else f.popped).foldl translate _
    rw [ite_self]
    exact h.text

/-- On a full queue, every code is dropped. -/
theorem Sync.bufferIn_full {k : KeyState} {cs : List (BitVec 8)} {f : Fifo (BitVec 8)}
    (h : Sync k cs f) {code : BitVec 8} (hfull : ¬ k.queue.bufferUsed < bufferSize) :
    Sync { k with queue := keyboardBufferIn k.queue code } cs f := by
  rw [keyboardBufferIn_eq, if_neg fun ha => hfull ha.1]
  exact h

theorem Sync.step {k : KeyState} {cs : List (BitVec 8)} {f : Fifo (BitVec 8)} (h : Sync k cs f)
    (op : DrainOp) : ∃ g, Sync (drainStep k op) (cs ++ arrivals k op) g := by
  unfold arrivals
  cases op with
  | bufferIn code =>
    by_cases hroom : k.queue.bufferUsed < bufferSize
    · rw [if_pos (show HasRoom k (.bufferIn code) from hroom)]
      exact ⟨_, h.bufferIn hroom⟩
    · rw [if_neg (show ¬ HasRoom k (.bufferIn code) from hroom), List.append_nil]
      exact ⟨f, h.bufferIn_full hroom⟩
  | bufferClear =>
    obtain ⟨g, hg, _⟩ := h.clear
    refine ⟨g, ?_⟩
    rw [if_pos (show HasRoom k .bufferClear from trivial),
      show codes [.bufferClear] = [] from rfl, List.append_nil]
    exact hg

theorem Sync.run {k : KeyState} {cs : List (BitVec 8)} {f : Fifo (BitVec 8)} (h : Sync k cs f)
    (ops : List DrainOp) :
    ∃ g, Sync (ops.foldl drainStep k) (cs ++ commitsOf drainStep arrivals k ops) g := by
  induction ops generalizing k cs f with
  | nil =>
    refine ⟨f, ?_⟩
    rw [commitsOf, List.append_nil]
    exact h
  | cons op ops ih =>
    obtain ⟨g, hg⟩ := h.step op
    obtain ⟨g', hg'⟩ := ih hg
    refine ⟨g', ?_⟩
    rw [commitsOf, ← List.append_assoc]
    exact hg'

/-- **After a last keyboard_buffer_clear** everything taken in is translated. -/
theorem drained_arrived (ops : List DrainOp) :
    (drained (ops ++ [.bufferClear])).text = (taken (arrived ops)).foldl translate ⟨0, []⟩ := by
  obtain ⟨f, hf⟩ := Sync.init.run ops
  obtain ⟨g, hg, hnil⟩ := hf.clear
  rw [List.nil_append] at hg
  have hall : g.popped = taken (arrived ops) := by
    have horder := g.order
    rw [hnil, List.append_nil, hg.pushed] at horder
    exact horder.symm
  rw [drained, List.foldl_append, ← hall]
  exact hg.text

theorem codes_cons (op : DrainOp) (ops : List DrainOp) :
    codes (op :: ops) = codes [op] ++ codes ops := by
  unfold codes
  rw [← List.filterMap_append, List.singleton_append]

/-- Where no code meets a full queue, every code arrives. -/
theorem commitsOf_arrivals {k : KeyState} {ops : List DrainOp} (h : Along drainStep HasRoom k ops) :
    commitsOf drainStep arrivals k ops = codes ops := by
  induction ops generalizing k with
  | nil => rfl
  | cons op ops ih =>
    obtain ⟨hroom, hops⟩ := h
    rw [commitsOf, ih hops, arrivals, if_pos hroom, ← codes_cons]

theorem arrived_eq_codes {ops : List DrainOp} (h : NeverFull ops) : arrived ops = codes ops :=
  commitsOf_arrivals h

theorem drained_text {ops : List DrainOp} (h : NeverFull (ops ++ [.bufferClear])) :
    (drained (ops ++ [.bufferClear])).text = (taken (codes ops)).foldl translate ⟨0, []⟩ := by
  rw [drained_arrived, arrived_eq_codes (Along.of_append h)]

/-- **Drain timing does not matter.** Two schedules of the same scan codes that end in a
keyboard_buffer_clear and never meet a full queue print the same characters and leave the
same status. -/
theorem drain_timing (ops ops' : List DrainOp) (hcodes : codes ops = codes ops')
    (h : NeverFull (ops ++ [.bufferClear])) (h' : NeverFull (ops' ++ [.bufferClear])) :
    (drained (ops ++ [.bufferClear])).text.out = (drained (ops' ++ [.bufferClear])).text.out ∧
      (drained (ops ++ [.bufferClear])).text.status =
        (drained (ops' ++ [.bufferClear])).text.status := by
  rw [drained_text h, drained_text h', hcodes]
  exact ⟨rfl, rfl⟩

/-- Shift-a typed with a held shift key, drained once or after each code. -/
theorem drain_timing_shift_a :
    (drained [.bufferIn 0x2a, .bufferIn 0x2a, .bufferIn 0x1e, .bufferClear]).text.out =
      (drained [.bufferIn 0x2a, .bufferClear, .bufferIn 0x2a, .bufferIn 0x1e,
        .bufferClear]).text.out :=
  (drain_timing [.bufferIn 0x2a, .bufferIn 0x2a, .bufferIn 0x1e]
    [.bufferIn 0x2a, .bufferClear, .bufferIn 0x2a, .bufferIn 0x1e] rfl (by decide) (by decide)).1

/-! ## The shift bit -/

def ShiftMake (code : BitVec 8) : Prop := code = 0x2a ∨ code = 0x36

def ShiftBreak (code : BitVec 8) : Prop := code = 0xaa ∨ code = 0xb6

instance (code : BitVec 8) : Decidable (ShiftMake code) := inferInstanceAs (Decidable (_ ∨ _))

instance (code : BitVec 8) : Decidable (ShiftBreak code) := inferInstanceAs (Decidable (_ ∨ _))

/-- The last code of a shift key in the stream. -/
def lastShift (cs : List (BitVec 8)) : Option (BitVec 8) :=
  (cs.filter fun c => ShiftMake c ∨ ShiftBreak c).getLast?

/-- The key with the make code `key` is held after the stream: its last code is the make code. -/
def Held (cs : List (BitVec 8)) (key : BitVec 8) : Prop :=
  (cs.filter fun c => c = key ∨ c = key + 0x80).getLast? = some key

instance (cs : List (BitVec 8)) (key : BitVec 8) : Decidable (Held cs key) :=
  inferInstanceAs (Decidable (_ = _))

def ShiftHeld (cs : List (BitVec 8)) : Prop := Held cs 0x2a ∨ Held cs 0x36

/-- The last shift code is a release, and the other shift key is held. -/
def ReleasedUnderHeld (cs : List (BitVec 8)) : Prop :=
  (∃ c, lastShift cs = some c ∧ ShiftBreak c) ∧ ShiftHeld cs

theorem getLast?_filter_snoc (p : BitVec 8 → Bool) (l : List (BitVec 8)) (c : BitVec 8) :
    ((l ++ [c]).filter p).getLast? = if p c then some c else (l.filter p).getLast? := by
  rw [List.filter_append]
  by_cases hp : p c = true
  · simp [hp]
  · simp [hp]

theorem lastShift_snoc (l : List (BitVec 8)) (c : BitVec 8) :
    lastShift (l ++ [c]) = if ShiftMake c ∨ ShiftBreak c then some c else lastShift l := by
  rw [lastShift, getLast?_filter_snoc]
  simp only [decide_eq_true_eq]
  rfl

/-- The last element that has `p`, where every `q` has `p`. -/
theorem getLast?_filter_of_imp {p q : BitVec 8 → Bool} (hqp : ∀ c, q c = true → p c = true)
    (l : List (BitVec 8)) :
    (∀ c, (l.filter p).getLast? = some c → q c = true → (l.filter q).getLast? = some c) ∧
      ((l.filter p).getLast? = none → (l.filter q).getLast? = none) := by
  induction l using List.reverseRecOn with
  | nil => simp
  | append_singleton l a ih =>
    rw [getLast?_filter_snoc, getLast?_filter_snoc]
    by_cases hp : p a = true
    · rw [if_pos hp]
      refine ⟨fun c hc hq => ?_, fun hnone => by cases hnone⟩
      obtain rfl := Option.some.inj hc
      rw [if_pos hq]
    · have hq : ¬ q a = true := fun hq => hp (hqp a hq)
      rw [if_neg hp, if_neg hq]
      exact ih

/-- A shift key whose code came last is held exactly if that was its make code; without a
shift code none is held. -/
theorem shiftHeld_of_make {cs : List (BitVec 8)} {c : BitVec 8} (h : lastShift cs = some c)
    (hc : ShiftMake c) : ShiftHeld cs := by
  obtain rfl | rfl := hc
  · exact Or.inl ((getLast?_filter_of_imp
      (q := fun c => c = 0x2a ∨ c = (0x2a : BitVec 8) + 0x80) (by decide) cs).1 _ h (by decide))
  · exact Or.inr ((getLast?_filter_of_imp
      (q := fun c => c = 0x36 ∨ c = (0x36 : BitVec 8) + 0x80) (by decide) cs).1 _ h (by decide))

theorem not_shiftHeld_of_none {cs : List (BitVec 8)} (h : lastShift cs = none) :
    ¬ ShiftHeld cs := by
  intro hheld
  obtain hl | hr := hheld
  · have hnone := (getLast?_filter_of_imp
      (q := fun c => c = 0x2a ∨ c = (0x2a : BitVec 8) + 0x80) (by decide) cs).2 h
    exact absurd (hnone.symm.trans hl) (by simp)
  · have hnone := (getLast?_filter_of_imp
      (q := fun c => c = 0x36 ∨ c = (0x36 : BitVec 8) + 0x80) (by decide) cs).2 h
    exact absurd (hnone.symm.trans hr) (by simp)

/-- What a code does to the shift bit. -/
theorem status_translate (t : Translation) (c : BitVec 8) :
    (translate t c).status &&& 1 =
      if ShiftMake c then 1 else if ShiftBreak c then 0 else t.status &&& 1 := by
  have hmake : ∀ s : BitVec 8, ((s &&& 2) + 1) &&& 1 = 1 := by decide +kernel
  have hcaps : ∀ s : BitVec 8, (s ^^^ 2) &&& 1 = s &&& 1 := by decide +kernel
  have hbreak : ∀ s : BitVec 8, (s &&& 2) &&& 1 = 0 := by decide +kernel
  unfold translate
  by_cases h1 : ShiftMake c
  · rw [if_pos h1, if_pos (show c = 0x2a ∨ c = 0x36 from h1)]
    exact hmake t.status
  rw [if_neg h1, if_neg (show ¬ (c = 0x2a ∨ c = 0x36) from h1)]
  by_cases h2 : c = 0x3a
  · rw [if_pos h2, if_neg (by rw [h2]; decide)]
    exact hcaps t.status
  rw [if_neg h2]
  by_cases h3 : ShiftBreak c
  · rw [if_pos h3, if_pos (show c = 0xaa ∨ c = 0xb6 from h3)]
    exact hbreak t.status
  rw [if_neg h3, if_neg (show ¬ (c = 0xaa ∨ c = 0xb6) from h3)]
  split
  · split
    · rfl
    · rfl
  · rfl

/-- The shift bit is that of the last shift code translated. -/
theorem status_foldl (l : List (BitVec 8)) :
    (l.foldl translate ⟨0, []⟩).status &&& 1 = 1 ↔ ∃ c, lastShift l = some c ∧ ShiftMake c := by
  induction l using List.reverseRecOn with
  | nil => simp [lastShift]
  | append_singleton l a ih =>
    rw [List.foldl_append, List.foldl_cons, List.foldl_nil, status_translate, lastShift_snoc]
    by_cases hm : ShiftMake a
    · rw [if_pos hm, if_pos (Or.inl hm)]
      exact iff_of_true rfl ⟨a, rfl, hm⟩
    rw [if_neg hm]
    by_cases hb : ShiftBreak a
    · rw [if_pos hb, if_pos (Or.inr hb)]
      refine iff_of_false (by decide) fun hex => ?_
      obtain ⟨c, hc, hmake⟩ := hex
      exact hm (Option.some.inj hc ▸ hmake)
    · rw [if_neg hb, if_neg fun hor => hor.elim hm hb]
      exact ih

/-- A shift code that is not taken in is the last one taken in already. -/
theorem lastShift_taken (cs : List (BitVec 8)) : lastShift (taken cs) = lastShift cs := by
  induction cs using List.reverseRecOn with
  | nil => rfl
  | append_singleton cs a ih =>
    rw [taken_snoc, takeStep, lastShift_snoc]
    by_cases ht : Takes (taken cs) a
    · rw [if_pos ht, lastShift_snoc, ih]
    rw [if_neg ht]
    by_cases hs : ShiftMake a ∨ ShiftBreak a
    · have hkey : keymap 0 a.toNat ≠ 0 := by
        obtain (rfl | rfl) | (rfl | rfl) := hs <;> decide
      have hlast : (taken cs).getLast? = some a := (not_not.mp fun hn => ht ⟨hkey, hn⟩).2
      obtain ⟨l, hl⟩ := List.getLast?_eq_some_iff.mp hlast
      rw [if_pos hs, hl, lastShift_snoc, if_pos hs]
    · rw [if_neg hs]
      exact ih

/-- The shift bit after a keyboard_buffer_clear. -/
theorem shift_bit_iff {ops : List DrainOp} (h : NeverFull (ops ++ [.bufferClear])) :
    ((drained (ops ++ [.bufferClear])).text.status &&& 1 = 1 ↔ ShiftHeld (codes ops)) ↔
      ¬ ReleasedUnderHeld (codes ops) := by
  rw [drained_text h, status_foldl, lastShift_taken]
  cases hlast : lastShift (codes ops) with
  | none =>
    have hheld := not_shiftHeld_of_none hlast
    refine iff_of_true (iff_of_false ?_ hheld) fun hr => hheld hr.2
    simp
  | some c =>
    by_cases hm : ShiftMake c
    · have hheld := shiftHeld_of_make hlast hm
      refine iff_of_true (iff_of_true ⟨c, rfl, hm⟩ hheld) fun hr => ?_
      obtain ⟨⟨d, hd, hbreak⟩, _⟩ := hr
      rw [hlast] at hd
      obtain rfl := Option.some.inj hd
      obtain rfl | rfl := hm
      · exact absurd hbreak (by decide)
      · exact absurd hbreak (by decide)
    · have hbreak : ShiftBreak c := by
        have hmem := List.mem_of_getLast? hlast
        have hshift := (List.mem_filter.mp hmem).2
        exact (of_decide_eq_true hshift).resolve_left hm
      have hbit : ¬ ∃ d, some c = some d ∧ ShiftMake d := by
        intro hex
        obtain ⟨d, hd, hmake⟩ := hex
        exact hm (Option.some.inj hd ▸ hmake)
      rw [iff_false_left hbit]
      exact not_congr ⟨fun hh => ⟨⟨c, hlast, hbreak⟩, hh⟩, fun hr => hr.2⟩

/-- **The shift bit.** In a run that never meets a full queue, the shift bit of `status` tells
after every keyboard_buffer_clear whether a shift key is held, exactly when at no
keyboard_buffer_clear the last shift code is a release while the other shift key is held. -/
theorem shift_status_iff (ops : List DrainOp) (h : NeverFull ops) :
    (∀ pre, pre ++ [.bufferClear] <+: ops →
        ((drained (pre ++ [.bufferClear])).text.status &&& 1 = 1 ↔ ShiftHeld (codes pre))) ↔
      ∀ pre, pre ++ [.bufferClear] <+: ops → ¬ ReleasedUnderHeld (codes pre) := by
  refine forall_congr' fun pre => forall_congr' fun hpre => ?_
  obtain ⟨rest, rfl⟩ := hpre
  exact shift_bit_iff (Along.of_append h)

/-- A shifted letter: the condition holds, and so does the law. -/
theorem shift_status_iff_shift_a :
    (∀ pre, pre ++ [.bufferClear] <+: [.bufferIn 0x2a, .bufferIn 0x1e, .bufferClear] →
        ((drained (pre ++ [.bufferClear])).text.status &&& 1 = 1 ↔ ShiftHeld (codes pre))) ↔
      ∀ pre, pre ++ [.bufferClear] <+: [.bufferIn 0x2a, .bufferIn 0x1e, .bufferClear] →
        ¬ ReleasedUnderHeld (codes pre) :=
  shift_status_iff _ (by decide +kernel)

/-- Every release follows a make of its key, and at the end no key is down; `down` are the
keys that are down before the stream. -/
def WellFormed : List (BitVec 8) → List (BitVec 8) → Prop
  | down, [] => down = []
  | down, c :: cs =>
      if c < 0x80 then WellFormed (down.insert c) cs
      else c - 0x80 ∈ down ∧ WellFormed (down.erase (c - 0x80)) cs

instance decidableWellFormed : ∀ down cs, Decidable (WellFormed down cs)
  | down, [] => inferInstanceAs (Decidable (down = []))
  | down, c :: cs =>
      have := decidableWellFormed (down.insert c) cs
      have := decidableWellFormed (down.erase (c - 0x80)) cs
      inferInstanceAs (Decidable (if c < 0x80 then _ else _ ∧ _))

/-- Left shift down, right shift down, left shift up: the right one is held, the bit is 0. -/
theorem overlapping_shifts :
    let ops : List DrainOp :=
      [.bufferIn 0x2a, .bufferIn 0x36, .bufferIn 0xaa, .bufferClear, .bufferIn 0xb6, .bufferClear]
    let pre : List DrainOp := [.bufferIn 0x2a, .bufferIn 0x36, .bufferIn 0xaa]
    WellFormed [] (codes ops) ∧ NeverFull ops ∧ pre ++ [.bufferClear] <+: ops ∧
      ShiftHeld (codes pre) ∧ (drained (pre ++ [.bufferClear])).text.status &&& 1 = 0 := by
  intro ops pre
  exact ⟨by decide, by decide, ⟨[.bufferIn 0xb6, .bufferClear], rfl⟩, Or.inr (by decide),
    by decide⟩

end ListaOS.Keyboard
