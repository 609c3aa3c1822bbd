/-
  The main loop (src/main.c) under the timer and keyboard interrupts (libkernel/interrupt.c).

  The loop runs its body and halts; an interrupt runs its handler and wakes it, and the body
  runs again. `count` advances with the timer alone, so every keyboard interrupt of a tick
  repeats the body with the same `count`. The state also records, for the statements, how many
  ticks have passed (`tick`) and the ticks in which toggle_cursor was called (`toggles`).

  In a tick whose `count` is a multiple of 50 the cursor is toggled once, and once more with
  each keyboard interrupt (`count_toggles_step`): the law of one toggle is that of the runs
  without such an interrupt (`toggles_once_iff`).
-/
import ListaOS.Console.Basic
import ListaOS.Keyboard.Translate

namespace ListaOS.Kernel

open Lib Keyboard Console

structure MainState where
  count : BitVec 32
  keys : KeyState
  console : ConsoleState
  tick : Nat
  toggles : List Nat

/-- An interrupt that ends `hlt`; the keyboard's with the byte at port 0x60. -/
inductive Interrupt where
  | timer
  | keyboard (code : BitVec 8)
deriving DecidableEq

/-- irq_0x20 and irq_0x21. -/
def irq (s : MainState) : Interrupt → MainState
  | .timer => { s with count := s.count + 1, tick := s.tick + 1 }
  | .keyboard code => { s with keys := { s.keys with queue := keyboardBufferIn s.keys.queue code } }

section

variable (info : VbeModeInfo) (fontData : Int → BitVec 8)

/-- keyboard_buffer_clear: `putc` is print_char. -/
def clearKeys (s : MainState) : MainState :=
  let keys := keyboardBufferClear s.keys
  { s with
    keys := keys
    console := (keys.text.out.drop s.keys.text.out.length).foldl (printChar info fontData)
      s.console }

def toggle (s : MainState) : MainState :=
  { s with
    console := toggleCursor info fontData s.console
    toggles := s.toggles ++ [s.tick] }

/-- The body of `for (;;)`, up to `hlt`. -/
def mainBody (s : MainState) : MainState :=
  let s := if s.count % 5 = 0 then clearKeys info fontData s else s
  if s.count % 50 = 0 then toggle info fontData s else s

/-- The handler, and the body after it. -/
def mainStep (s : MainState) (i : Interrupt) : MainState := mainBody info fontData (irq s i)

/-- main enters the loop. -/
def mainEnter (count : BitVec 32) (keys : KeyState) (console : ConsoleState) : MainState :=
  mainBody info fontData ⟨count, keys, console, 0, []⟩

def mainRun (count : BitVec 32) (keys : KeyState) (console : ConsoleState)
    (interrupts : List Interrupt) : MainState :=
  interrupts.foldl (mainStep info fontData) (mainEnter info fontData count keys console)

end

/-! ## The law -/

/-- `count` in tick `t` of a run that starts with `count`. -/
def countAt (count : BitVec 32) (t : Nat) : BitVec 32 := count + BitVec.ofNat 32 t

/-- In each tick so far toggle_cursor was called once if `count` was a multiple of 50, and not
at all else. -/
def TogglesOnce (count : BitVec 32) (s : MainState) : Prop :=
  ∀ t, t ≤ s.tick → s.toggles.count t = if countAt count t % 50 = 0 then 1 else 0

/-- It is not the keyboard that interrupts while `count` is a multiple of 50. -/
def QuietBlink (s : MainState) : Interrupt → Prop
  | .timer => True
  | .keyboard _ => s.count % 50 ≠ 0

instance (s : MainState) : ∀ i, Decidable (QuietBlink s i)
  | .timer => inferInstanceAs (Decidable True)
  | .keyboard _ => inferInstanceAs (Decidable (_ ≠ _))

/-- What a run keeps: `count` follows the ticks, and no toggle is ahead of them. -/
structure Ticking (count : BitVec 32) (s : MainState) : Prop where
  count : s.count = countAt count s.tick
  toggles : ∀ t ∈ s.toggles, t ≤ s.tick

variable {info : VbeModeInfo} {fontData : Int → BitVec 8}

/-- What the body does to the counters. -/
theorem mainBody_spec (info : VbeModeInfo) (fontData : Int → BitVec 8) (s : MainState) :
    (mainBody info fontData s).count = s.count ∧ (mainBody info fontData s).tick = s.tick ∧
      (mainBody info fontData s).toggles =
        if s.count % 50 = 0 then s.toggles ++ [s.tick] else s.toggles := by
  unfold mainBody
  split
  · have hclear : (clearKeys info fontData s).count = s.count := rfl
    simp only [hclear]
    split
    · exact ⟨rfl, rfl, rfl⟩
    · exact ⟨rfl, rfl, rfl⟩
  · dsimp only
    split
    · exact ⟨rfl, rfl, rfl⟩
    · exact ⟨rfl, rfl, rfl⟩

theorem count_toggles_mainBody (s : MainState) (t : Nat) :
    (mainBody info fontData s).toggles.count t =
      s.toggles.count t + if s.tick = t ∧ s.count % 50 = 0 then 1 else 0 := by
  obtain ⟨-, -, htoggles⟩ := mainBody_spec info fontData s
  rw [htoggles]
  by_cases hmul : s.count % 50 = 0
  · rw [if_pos hmul, List.count_append, List.count_singleton]
    simp only [hmul, and_true, beq_iff_eq]
  · rw [if_neg hmul, if_neg fun h => hmul h.2, Nat.add_zero]

theorem Ticking.mainBody {count : BitVec 32} {s : MainState} (h : Ticking count s) :
    Ticking count (mainBody info fontData s) := by
  obtain ⟨hcount, htick, htoggles⟩ := mainBody_spec info fontData s
  refine ⟨?_, ?_⟩
  · rw [hcount, htick]
    exact h.count
  · rw [htick, htoggles]
    intro t ht
    split at ht
    · obtain ht | ht := List.mem_append.mp ht
      · exact h.toggles t ht
      · exact Nat.le_of_eq (List.mem_singleton.mp ht)
    · exact h.toggles t ht

theorem countAt_succ (count : BitVec 32) (t : Nat) : countAt count t + 1 = countAt count (t + 1) := by
  unfold countAt
  rw [BitVec.add_assoc, BitVec.ofNat_add]
  rfl

theorem Ticking.irq {count : BitVec 32} {s : MainState} (h : Ticking count s) (i : Interrupt) :
    Ticking count (irq s i) := by
  cases i with
  | timer =>
    refine ⟨?_, fun t ht => Nat.le_succ_of_le (h.toggles t ht)⟩
    show s.count + 1 = countAt count (s.tick + 1)
    rw [h.count, countAt_succ]
  | keyboard code => exact ⟨h.count, h.toggles⟩

theorem Ticking.step {count : BitVec 32} {s : MainState} (h : Ticking count s) (i : Interrupt) :
    Ticking count (mainStep info fontData s i) :=
  (h.irq i).mainBody

/-- An interrupt adds a toggle to the tick that is then current, if its `count` is a multiple
of 50. -/
theorem count_toggles_step (s : MainState) (i : Interrupt) (t : Nat) :
    (mainStep info fontData s i).toggles.count t =
      s.toggles.count t + if (irq s i).tick = t ∧ (irq s i).count % 50 = 0 then 1 else 0 := by
  have htoggles : (irq s i).toggles = s.toggles := by
    cases i with
    | timer => rfl
    | keyboard code => rfl
  rw [mainStep, count_toggles_mainBody, htoggles]

theorem togglesOnce_enter (count : BitVec 32) (keys : KeyState) (console : ConsoleState) :
    TogglesOnce count (mainEnter info fontData count keys console) := by
  obtain ⟨-, htick, -⟩ :=
    mainBody_spec info fontData ⟨count, keys, console, 0, []⟩
  have hzero : countAt count 0 = count := BitVec.add_zero count
  intro t ht
  obtain rfl : t = 0 := Nat.le_zero.mp (Nat.le_trans ht (Nat.le_of_eq htick))
  rw [mainEnter, count_toggles_mainBody, hzero]
  simp only [List.count_nil, true_and, Nat.zero_add]

/-- A timer interrupt opens a tick, and keeps the law. -/
theorem togglesOnce_timer {count : BitVec 32} {s : MainState} (h : Ticking count s)
    (honce : TogglesOnce count s) : TogglesOnce count (mainStep info fontData s .timer) := by
  have hcount : s.count + 1 = countAt count (s.tick + 1) := (h.irq .timer).count
  have htick : (mainStep info fontData s .timer).tick = s.tick + 1 :=
    (mainBody_spec info fontData (irq s .timer)).2.1
  have hstep : ∀ t, (mainStep info fontData s .timer).toggles.count t =
      s.toggles.count t + if s.tick + 1 = t ∧ (s.count + 1) % 50 = 0 then 1 else 0 :=
    fun t => count_toggles_step s .timer t
  intro t ht
  rw [htick] at ht
  rw [hstep]
  by_cases hnew : s.tick + 1 = t
  · subst hnew
    have hnone : s.toggles.count (s.tick + 1) = 0 :=
      List.count_eq_zero.mpr fun hmem => absurd (h.toggles _ hmem) (Nat.not_succ_le_self _)
    rw [hnone, Nat.zero_add, hcount]
    simp only [true_and]
  · rw [if_neg fun hand => hnew hand.1, Nat.add_zero]
    exact honce t (by omega)

/-- A keyboard interrupt repeats the body in the same tick. -/
theorem togglesOnce_keyboard_iff {count : BitVec 32} {s : MainState} (h : Ticking count s)
    (honce : TogglesOnce count s) (code : BitVec 8) :
    TogglesOnce count (mainStep info fontData s (.keyboard code)) ↔ s.count % 50 ≠ 0 := by
  have htick : (mainStep info fontData s (.keyboard code)).tick = s.tick :=
    (mainBody_spec info fontData (irq s (.keyboard code))).2.1
  have hstep : ∀ t, (mainStep info fontData s (.keyboard code)).toggles.count t =
      s.toggles.count t + if s.tick = t ∧ s.count % 50 = 0 then 1 else 0 :=
    fun t => count_toggles_step s (.keyboard code) t
  constructor
  · intro honce' hmul
    have hbefore := honce s.tick (Nat.le_refl _)
    have hafter := honce' s.tick (Nat.le_of_eq htick.symm)
    have hblink : countAt count s.tick % 50 = 0 := h.count ▸ hmul
    rw [hstep, hbefore, if_pos hblink, if_pos ⟨rfl, hmul⟩] at hafter
    exact Nat.succ_ne_self _ hafter
  · intro hmul t ht
    rw [hstep, if_neg fun hand => hmul hand.2, Nat.add_zero]
    exact honce t (htick ▸ ht)

theorem togglesOnce_step_iff {count : BitVec 32} (s : MainState) (i : Interrupt)
    (h : Ticking count s) (honce : TogglesOnce count s) :
    TogglesOnce count (mainStep info fontData s i) ↔ QuietBlink s i := by
  cases i with
  | timer => exact iff_of_true (togglesOnce_timer h honce) trivial
  | keyboard code => exact togglesOnce_keyboard_iff h honce code

theorem ticking_enter (count : BitVec 32) (keys : KeyState) (console : ConsoleState) :
    Ticking count (mainEnter info fontData count keys console) := by
  refine Ticking.mainBody ⟨?_, fun t ht => absurd ht List.not_mem_nil⟩
  exact (BitVec.add_zero count).symm

/-- **The blinking cursor.** From any state in which main enters its loop, each tick sees one
toggle_cursor if `count` is a multiple of 50 in it and none else, in every state of the run,
exactly when no keyboard interrupt arrives while `count` is a multiple of 50. -/
theorem toggles_once_iff (info : VbeModeInfo) (fontData : Int → BitVec 8) (count : BitVec 32)
    (keys : KeyState) (console : ConsoleState) (interrupts : List Interrupt) :
    (∀ pre, pre <+: interrupts →
      TogglesOnce count (mainRun info fontData count keys console pre)) ↔
      Along (mainStep info fontData) QuietBlink (mainEnter info fontData count keys console)
        interrupts :=
  forall_prefix_iff_along (fun _ i h => Ticking.step h i)
    (fun s i h honce => togglesOnce_step_iff s i h honce) (ticking_enter count keys console)
    (togglesOnce_enter count keys console) interrupts

/-- 640x480 with 32 bits per pixel. -/
def vgaMode : VbeModeInfo := ⟨0x98, 2560, 640, 480, 32, 6, 0xe0000000⟩

/-- A console just initialised on a zeroed frame buffer. -/
def vgaConsole : ConsoleState := consoleInit vgaMode (ConsoleState.boot (Mem.fresh fun _ => 0))

/-- A key pressed in the first tick toggles the cursor back at once. -/
theorem key_toggles_twice :
    ¬ ∀ pre, pre <+: [.keyboard 0x1e] →
      TogglesOnce 0 (mainRun vgaMode (fun _ => 0) 0 KeyState.init vgaConsole pre) := by
  intro h
  have honce := h [.keyboard 0x1e] (List.prefix_refl _)
  exact (togglesOnce_keyboard_iff (ticking_enter 0 KeyState.init vgaConsole)
    (togglesOnce_enter 0 KeyState.init vgaConsole) 0x1e).mp honce (by rfl)

end ListaOS.Kernel
