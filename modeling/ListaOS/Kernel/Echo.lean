/-
  Typing: from scan codes to the frame buffer.

  A keyboard interrupt queues a code, and in a tick whose `count` is a multiple of 5 the body of
  main's loop prints what the queued codes translate to. `Echo` is what the loop keeps: the
  console has printed the text translated so far, with toggles of the cursor between the
  characters, and the queue holds the rest of the codes. `typed_on_screen`: after each such
  tick the frame buffer shows the text of boot and, behind it, everything typed. Interrupts arrive
  at main's `hlt`, one for each pass of the loop (`mainStep`); the keymap types no '\r'
  (`noReturn_typed`).
-/
import ListaOS.Kernel.MainLoop
import ListaOS.Console.Screen
import ListaOS.Console.Glyph

namespace ListaOS.Kernel

open Lib Keyboard Console

/-- What a stream of scan codes types. -/
def typed (cs : List (BitVec 8)) : List (BitVec 8) := ((taken cs).foldl translate ⟨0, []⟩).out

/-- The code of an interrupt, if the queue has room for it. -/
def heard (s : MainState) : Interrupt → List (BitVec 8)
  | .timer => []
  | .keyboard code => arrivals s.keys (.bufferIn code)

/-- What holds of the elements and of the default holds of what is read. -/
theorem getD_of_forall {α : Type} {P : α → Prop} {l : List α} {d : α} (h : ∀ a ∈ l, P a) (hd : P d)
    (i : Nat) : P (l.getD i d) := by
  rw [List.getD_eq_getElem?_getD]
  cases hget : l[i]? with
  | none => exact hd
  | some a => exact h a (List.mem_of_getElem? hget)

theorem keymap_ne_return (row col : Nat) : keymap row col ≠ 0x0d := by
  have hcodes : ∀ n ∈ keymapRows.flatten.map BitVec.toNat, n ≠ 13 := by decide +kernel
  have hrows : ∀ r ∈ keymapRows, ∀ ch ∈ r, ch ≠ 0x0d := fun r hr ch hch heq =>
    hcodes ch.toNat (List.mem_map_of_mem (List.mem_flatten_of_mem hr hch)) (congrArg BitVec.toNat heq)
  refine getD_of_forall (P := (· ≠ 0x0d)) ?_ (by decide) _
  exact getD_of_forall (P := fun r => ∀ ch ∈ r, ch ≠ 0x0d) hrows (by decide) _

theorem noReturn_translate {t : Translation} (h : 0x0d ∉ t.out) (code : BitVec 8) :
    0x0d ∉ (translate t code).out := by
  unfold Keyboard.translate
  split_ifs
  case pos => exact h
  case pos => exact h
  case pos => exact h
  case pos =>
    rw [List.mem_append, not_or, List.mem_singleton]
    exact ⟨h, Ne.symm (keymap_ne_return _ _)⟩
  case neg => exact h
  case neg => exact h

theorem noReturn_typed (cs : List (BitVec 8)) : 0x0d ∉ typed cs :=
  foldl_invariant (fun t : Translation => 0x0d ∉ t.out) (fun _ code h => noReturn_translate h code)
    List.not_mem_nil _

/-- What keyboard_buffer_clear is about to print. -/
def newText (k : KeyState) : List (BitVec 8) :=
  (keyboardBufferClear k).text.out.drop k.text.out.length

/-- The calls of the body on the console. -/
def bodyOps (s : MainState) : List TextOp :=
  (if s.count % 5 = 0 then (newText s.keys).map .printChar else []) ++
    if s.count % 50 = 0 then [.toggleCursor] else []

/-! ## The body -/

theorem out_translate (t : Translation) (code : BitVec 8) :
    t.out <+: (translate t code).out := by
  unfold Keyboard.translate
  split_ifs
  case pos => exact List.prefix_refl _
  case pos => exact List.prefix_refl _
  case pos => exact List.prefix_refl _
  case pos => exact List.prefix_append _ _
  case neg => exact List.prefix_refl _
  case neg => exact List.prefix_refl _

theorem out_clearLoop (n : Nat) (k : KeyState) : k.text.out <+: (clearLoop n k).text.out := by
  induction n generalizing k with
  | zero => exact List.prefix_refl _
  | succ n ih =>
    rw [clearLoop]
    split
    · exact (out_translate _ _).trans (ih ⟨(keyboardBufferOut k.queue).1,
        translate k.text (keyboardBufferOut k.queue).2⟩)
    · exact List.prefix_refl _

/-- keyboard_buffer_clear prints behind what is printed. -/
theorem out_clear (k : KeyState) : (keyboardBufferClear k).text.out = k.text.out ++ newText k := by
  obtain ⟨t, ht⟩ := out_clearLoop k.queue.bufferUsed k
  change _ = (keyboardBufferClear k).text.out at ht
  rw [newText, ← ht, List.drop_left]

variable {info : VbeModeInfo} {fontData : Int → BitVec 8}

theorem foldl_printed (s : ConsoleState) (text : List (BitVec 8)) :
    (text.map TextOp.printChar).foldl (textStep info fontData) s = printText info fontData s text :=
  List.foldl_map

theorem console_mainBody (s : MainState) :
    (mainBody info fontData s).console = (bodyOps s).foldl (textStep info fontData) s.console := by
  have htoggle : ∀ u : MainState, (if u.count % 50 = 0 then toggle info fontData u else u).console =
      (if u.count % 50 = 0 then [TextOp.toggleCursor] else []).foldl (textStep info fontData)
        u.console := by
    intro u
    split
    · rfl
    · rfl
  unfold mainBody bodyOps
  rw [List.foldl_append]
  by_cases hdrain : s.count % 5 = 0
  · rw [if_pos hdrain, if_pos hdrain, htoggle, foldl_printed]
    rfl
  · rw [if_neg hdrain, if_neg hdrain, htoggle]
    rfl

theorem keys_mainBody (s : MainState) :
    (mainBody info fontData s).keys =
      if s.count % 5 = 0 then keyboardBufferClear s.keys else s.keys := by
  have htoggle : ∀ u : MainState, (if u.count % 50 = 0 then toggle info fontData u else u).keys =
      u.keys := by
    intro u
    split
    · rfl
    · rfl
  unfold mainBody
  rw [htoggle]
  split
  · rfl
  · rfl

theorem chars_bodyOps (s : MainState) :
    chars (bodyOps s) = if s.count % 5 = 0 then newText s.keys else [] := by
  have hnone : chars (if s.count % 50 = 0 then [TextOp.toggleCursor] else []) = [] := by
    split
    · rfl
    · rfl
  rw [bodyOps, chars_append, hnone, List.append_nil]
  split
  · exact chars_printed _
  · rfl

/-! ## What the loop keeps -/

/-- The queue and `status` are those after the codes `cs`, and the console has printed what is
translated of them. -/
structure Echo (info : VbeModeInfo) (fontData : Int → BitVec 8) (console : ConsoleState)
    (cs : List (BitVec 8)) (s : MainState) : Prop where
  sync : ∃ f, Sync s.keys cs f
  printed : ∃ ops, s.console = ops.foldl (textStep info fontData) console ∧
    chars ops = s.keys.text.out

namespace Echo

variable {console : ConsoleState} {cs : List (BitVec 8)} {s : MainState}

theorem irq (h : Echo info fontData console cs s) (i : Interrupt) :
    Echo info fontData console (cs ++ heard s i) (irq s i) := by
  obtain ⟨f, hf⟩ := h.sync
  cases i with
  | timer =>
    rw [heard, List.append_nil]
    exact ⟨⟨f, hf⟩, h.printed⟩
  | keyboard code => exact ⟨hf.step (.bufferIn code), h.printed⟩

theorem mainBody (h : Echo info fontData console cs s) :
    Echo info fontData console cs (mainBody info fontData s) := by
  obtain ⟨f, hf⟩ := h.sync
  obtain ⟨ops, hops, hchars⟩ := h.printed
  constructor
  case sync =>
    rw [keys_mainBody]
    split
    · obtain ⟨g, hg, -⟩ := hf.clear
      exact ⟨g, hg⟩
    · exact ⟨f, hf⟩
  case printed =>
    refine ⟨ops ++ bodyOps s, ?_, ?_⟩
    · rw [console_mainBody, List.foldl_append, ← hops]
    · rw [chars_append, hchars, chars_bodyOps, keys_mainBody]
      split
      · exact (out_clear s.keys).symm
      · exact List.append_nil _

/-- In a tick that drains the queue everything is translated. -/
theorem out_mainBody (h : Echo info fontData console cs s) (hdrain : s.count % 5 = 0) :
    (Kernel.mainBody info fontData s).keys.text.out = typed cs := by
  obtain ⟨f, hf⟩ := h.sync
  obtain ⟨g, hg, hnil⟩ := hf.clear
  have hall : g.popped = taken cs := by
    have horder := g.order
    rw [hnil, List.append_nil, hg.pushed] at horder
    exact horder.symm
  rw [keys_mainBody, if_pos hdrain, typed, ← hall, ← hg.text]

end Echo

/-- main at `hlt`: where `count` is a multiple of 5, everything typed is printed. -/
structure Halted (info : VbeModeInfo) (fontData : Int → BitVec 8) (console : ConsoleState)
    (cs : List (BitVec 8)) (s : MainState) : Prop where
  echo : Echo info fontData console cs s
  drained : s.count % 5 = 0 → s.keys.text.out = typed cs

section

variable {console : ConsoleState} {cs : List (BitVec 8)} {s : MainState}

theorem Echo.halted (h : Echo info fontData console cs s) :
    Halted info fontData console cs (Kernel.mainBody info fontData s) where
  echo := h.mainBody
  drained := by
    rw [(mainBody_spec info fontData s).1]
    exact h.out_mainBody

theorem Halted.step (h : Halted info fontData console cs s) (i : Interrupt) :
    Halted info fontData console (cs ++ heard s i) (mainStep info fontData s i) :=
  (h.echo.irq i).halted

theorem Halted.run (h : Halted info fontData console cs s) (interrupts : List Interrupt) :
    Halted info fontData console (cs ++ commitsOf (mainStep info fontData) heard s interrupts)
      (interrupts.foldl (mainStep info fontData) s) := by
  induction interrupts generalizing cs s with
  | nil =>
    rw [commitsOf, List.append_nil]
    exact h
  | cons i interrupts ih =>
    rw [commitsOf, ← List.append_assoc]
    exact ih (h.step i)

end

/-! ## From boot -/

section

variable (info fontData) (ram : Nat → BitVec 8) (boot before : List (BitVec 8)) (count : BitVec 32)

/-- main enters its loop: it has printed the text `boot` on the cleared screen, and the codes
`before` have arrived since the keyboard interrupt was enabled. -/
def enterTyping : MainState :=
  mainEnter info fontData count (drained (before.map .bufferIn))
    (printText info fontData (textStart info fontData ram) boot)

/-- The loop from there. -/
def runTyping (interrupts : List Interrupt) : MainState :=
  interrupts.foldl (mainStep info fontData) (enterTyping info fontData ram boot before count)

/-- The codes that found room in the queue, before the loop and in it. -/
def heardTyping (interrupts : List Interrupt) : List (BitVec 8) :=
  arrived (before.map .bufferIn) ++
    commitsOf (mainStep info fontData) heard (enterTyping info fontData ram boot before count)
      interrupts

/-- Before the loop nothing is translated. -/
theorem text_drained_bufferIn (codes : List (BitVec 8)) :
    (drained (codes.map .bufferIn)).text = ⟨0, []⟩ := by
  have hkeep : ∀ (codes : List (BitVec 8)) (k : KeyState),
      ((codes.map DrainOp.bufferIn).foldl drainStep k).text = k.text := by
    intro codes
    induction codes with
    | nil => exact fun _ => rfl
    | cons code codes ih => exact fun k => ih (drainStep k (.bufferIn code))
  exact hkeep codes KeyState.init

variable {info fontData}

theorem echo_enterTyping :
    Halted info fontData (printText info fontData (textStart info fontData ram) boot)
      (arrived (before.map .bufferIn)) (enterTyping info fontData ram boot before count) := by
  obtain ⟨f, hf⟩ := Sync.init.run (before.map .bufferIn)
  rw [List.nil_append] at hf
  refine Echo.halted ⟨⟨f, hf⟩, [], rfl, ?_⟩
  show [] = (drained (before.map .bufferIn)).text.out
  rw [text_drained_bufferIn]

end

/-- **Typing.** In an accepted mode of at least 64x16 pixels, whatever text without '\r' main has
printed and whichever timer and keyboard interrupts arrive at `hlt`: after each tick whose `count` is a multiple of 5
the frame buffer shows that text and, behind it, what the codes heard so far type, as long as
all of it stays on the screen. -/
theorem typed_on_screen {probed : List VbeModeInfo} (hacc : Accepted probed info)
    (hx : 64 ≤ info.xResolution.toNat) (hy : 16 ≤ info.yResolution.toNat)
    (around : Int → BitVec 8) (ram : Nat → BitVec 8) (boot before : List (BitVec 8))
    (count : BitVec 32) (interrupts : List Interrupt) (hboot : 0x0d ∉ boot)
    (hdrain : (runTyping info (Font.fontData around) ram boot before count interrupts).count % 5 = 0)
    (hfit : FitsScreen (info.xResolution.toNat / 8) (info.yResolution.toNat / 16)
      (boot ++ typed (heardTyping info (Font.fontData around) ram boot before count interrupts))) :
    ShowsText info (Font.fontData around)
      (runTyping info (Font.fontData around) ram boot before count interrupts).console
      (boot ++ typed (heardTyping info (Font.fontData around) ram boot before count interrupts)) := by
  have hhalted := (@echo_enterTyping info (Font.fontData around) ram boot before count).run interrupts
  obtain ⟨ops, hops, hchars⟩ := hhalted.echo.printed
  have hout := hhalted.drained hdrain
  have htext : chars (boot.map .printChar ++ ops) =
      boot ++ typed (heardTyping info (Font.fontData around) ram boot before count interrupts) := by
    rw [chars_append, chars_printed, hchars, hout]
    rfl
  have hconsole : (runTyping info (Font.fontData around) ram boot before count interrupts).console =
      textRun info (Font.fontData around) ram (boot.map .printChar ++ ops) := by
    rw [textRun, List.foldl_append, foldl_printed]
    exact hops
  have hr : 0x0d ∉ chars (boot.map .printChar ++ ops) := by
    rw [htext, List.mem_append, not_or]
    exact ⟨hboot, noReturn_typed _⟩
  rw [← htext] at hfit ⊢
  rw [hconsole]
  exact screen_shows_page hacc hx hy around ram _ hr hfit

end ListaOS.Kernel
