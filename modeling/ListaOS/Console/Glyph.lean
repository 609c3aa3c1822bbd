/-
  Which bytes of the font table are read (libkernel/console.c, font.c, stdio.c).

  _draw_font reads `fontData[ch * 16 + i]` for the 16 lines of a glyph. The table has 128 glyphs
  and `char` is signed, so a character from 0x80 on reads before the table (`inTable_iff`).
  Nothing between puts and _draw_font looks at the character: a text reads inside the table
  exactly if all of its characters are below 0x80 (`textInTable_iff`), and so does what printf
  puts for a `%s` or a `%c` argument (`glyphs_in_table_iff`).
-/
import ListaOS.Console.Text
import ListaOS.Stdio.Format

namespace ListaOS.Console

open Lib Stdio

/-- `sizeof fontData`: 128 glyphs of 16 lines. -/
def fontTableSize : Nat := 128 * 16

/-- The indices of `fontData` that a call of `_draw_font` reads. -/
def FontCall.glyphReads (d : FontCall) : List Int :=
  (List.range 16).map fun (i : Nat) => d.ch.toInt * 16 + i

/-- All of them lie in the table. -/
def FontCall.InTable (d : FontCall) : Prop := ∀ i ∈ d.glyphReads, 0 ≤ i ∧ i < fontTableSize

/-- Every character has a glyph. -/
def Ascii (t : List (BitVec 8)) : Prop := ∀ ch ∈ t, ch.toNat < 128

theorem inTable_iff (d : FontCall) : d.InTable ↔ d.ch.toNat < 128 := by
  have hint := BitVec.toInt_eq_toNat_cond d.ch
  constructor
  · intro h
    have hfirst := (h (d.ch.toInt * 16 + (0 : Nat)) (List.mem_map.mpr ⟨0, by decide, rfl⟩)).1
    split at hint
    · omega
    · have hlt := d.ch.isLt
      omega
  · intro hlt i hi
    obtain ⟨k, hk, rfl⟩ := List.mem_map.mp hi
    have hk16 := List.mem_range.mp hk
    rw [if_pos (by omega)] at hint
    unfold fontTableSize
    omega

section

variable (info : VbeModeInfo) (fontData : Int → BitVec 8)

/-- _draw_font depends on the bytes that it reads, and on no other byte of the table. -/
theorem drawFont_congr {font' : Int → BitVec 8} (d : FontCall) (m : Mem (BitVec 8))
    (h : ∀ i ∈ d.glyphReads, font' i = fontData i) :
    drawFont info font' d m = drawFont info fontData d m := by
  unfold drawFont
  refine List.foldl_ext _ _ m fun m i hi => ?_
  rw [h _ (List.mem_map_of_mem hi)]

/-- `putc` of every character. -/
def printText (s : ConsoleState) (t : List (BitVec 8)) : ConsoleState :=
  t.foldl (printChar info fontData) s

/-- The calls of `_draw_font` that printing the text makes. -/
def textCalls (s : ConsoleState) (t : List (BitVec 8)) : List FontCall :=
  (printText info fontData s t).drawn.drop s.drawn.length

/-- Every glyph byte read while the text is printed lies in the table. -/
def TextInTable (s : ConsoleState) (t : List (BitVec 8)) : Prop :=
  ∀ d ∈ textCalls info fontData s t, d.InTable

end

variable {info : VbeModeInfo} {fontData : Int → BitVec 8}

theorem switchDraws_inTable (s : ConsoleState) {ch : BitVec 8} :
    (∀ d ∈ s.fontCall 0x20 s.col :: s.switchDraws ch, d.InTable) ↔ ch.toNat < 128 := by
  have hspace : (0x20 : BitVec 8).toNat < 128 := by decide
  have hblank : ∀ col, (s.fontCall 0x20 col).InTable := fun col => (inTable_iff _).mpr hspace
  rw [List.forall_mem_cons, and_iff_right (hblank s.col)]
  unfold ConsoleState.switchDraws
  split_ifs with hp hb
  · rw [List.forall_mem_singleton]
    exact inTable_iff _
  · refine iff_of_true ?_ ?_
    · rw [List.forall_mem_singleton]
      exact hblank _
    · rw [hb.1]
      decide
  · refine iff_of_true (fun d hd => absurd hd List.not_mem_nil) ?_
    -- The characters that draw nothing are control characters.
    simp only [Printable, not_not, List.mem_cons, List.not_mem_nil, or_false] at hp
    rcases hp with rfl | rfl | rfl | rfl | rfl <;> decide

variable (info fontData)

/-- One character after the other. -/
theorem drawn_printText (s : ConsoleState) (t : List (BitVec 8)) :
    ∃ l, (printText info fontData s t).drawn = s.drawn ++ l ∧
      ((∀ d ∈ l, d.InTable) ↔ Ascii t) := by
  induction t generalizing s with
  | nil => exact ⟨[], (List.append_nil _).symm, by simp [Ascii]⟩
  | cons ch t ih =>
    obtain ⟨l, hl, hiff⟩ := ih (printChar info fontData s ch)
    have hcons : Ascii (ch :: t) ↔ ch.toNat < 128 ∧ Ascii t := List.forall_mem_cons
    rw [hcons]
    by_cases h0 : ch = 0
    · have hsame : printChar info fontData s ch = s := if_pos h0
      rw [hsame] at hl
      refine ⟨l, ?_, hiff.trans (and_iff_right ?_).symm⟩
      · rw [printText, List.foldl_cons, hsame]
        exact hl
      · rw [h0]
        decide
    · refine ⟨(s.fontCall 0x20 s.col :: s.switchDraws ch) ++ l, ?_, ?_⟩
      · rw [printText, List.foldl_cons, ← List.append_assoc, ← drawn_printChar s h0]
        exact hl
      · rw [List.forall_mem_append, switchDraws_inTable, hiff]

/-- A text has glyphs in the table exactly if it has no character from 0x80 on. -/
theorem textInTable_iff (s : ConsoleState) (t : List (BitVec 8)) :
    TextInTable info fontData s t ↔ Ascii t := by
  obtain ⟨l, hl, hiff⟩ := drawn_printText info fontData s t
  unfold TextInTable textCalls
  rw [hl, List.drop_left]
  exact hiff

/-! ## puts and printf -/

/-- `puts(str)` ends, and reads inside the table. -/
def PutsInTable (s : ConsoleState) (str : CharPtr) : Prop :=
  ∃ t, Returns (fun n => puts n str 0 []) (t, BitVec.ofNat 32 t.length) ∧
    TextInTable info fontData s t

/-- The switch of vprintf ends, and what it prints reads inside the table. -/
def SwitchInTable (E : Env) (s : ConsoleState) (p : Printing) : Prop :=
  ∃ u t, Returns (fun n => vprintfSwitch E n p) u ∧ u.out = p.out ++ t ∧
    TextInTable info fontData s t

theorem putsInTable_iff (s : ConsoleState) {str : CharPtr} {t : List (BitVec 8)}
    (ht : ∀ ch ∈ t, ch ≠ 0) (h : str.Holds t) : PutsInTable info fontData s str ↔ Ascii t := by
  have hputs := puts_spec ht h 0#32 []
  rw [List.nil_append, BitVec.zero_add] at hputs
  rw [← textInTable_iff info fontData s t]
  refine ⟨fun htable => ?_, fun htable => ⟨t, hputs, htable⟩⟩
  obtain ⟨t', hputs', htable⟩ := htable
  obtain ⟨rfl, -⟩ := Prod.mk.inj (hputs'.unique hputs)
  exact htable

/-- Where the switch is known to print `t`. -/
theorem switchInTable_iff {E : Env} {p u : Printing} {t : List (BitVec 8)}
    (hret : Returns (fun n => vprintfSwitch E n p) u) (hout : u.out = p.out ++ t)
    (s : ConsoleState) : SwitchInTable info fontData E s p ↔ Ascii t := by
  rw [← textInTable_iff info fontData s t]
  refine ⟨fun htable => ?_, fun htable => ⟨u, t, hret, hout, htable⟩⟩
  obtain ⟨u', t', hret', hout', htable⟩ := htable
  obtain rfl := hret'.unique hret
  rwa [List.append_cancel_left (hout'.symm.trans hout)] at htable

theorem vprintfSwitch_string (E : Env) {p : Printing} (hs : p.format.deref = chr 's') :
    Returns (fun n => vprintfSwitch E n p) (p.after (E.str p.args.word).text 0 1) := by
  refine (p.putArg_spec 1 (E.str p.args.word).noNul).congr fun n => ?_
  simp [vprintfSwitch, hs, chr]

theorem vprintfSwitch_char (E : Env) {p : Printing} (hc : p.format.deref = chr 'c') :
    Returns (fun n => vprintfSwitch E n p) (p.after [p.args.word.setWidth 8] 0 1) := by
  refine (Returns.pure _).congr fun n => ?_
  simp [vprintfSwitch, hc]
  rfl

/-- **Glyphs.** For a string that is put, and for every `%s` and `%c` argument that vprintf is at,
the bytes of the font table that are read lie in the table exactly if the characters are below
0x80. -/
theorem glyphs_in_table_iff (s : ConsoleState) :
    (∀ (str : CharPtr) (t : List (BitVec 8)), (∀ ch ∈ t, ch ≠ 0) → str.Holds t →
      (PutsInTable info fontData s str ↔ Ascii t)) ∧
    (∀ (E : Env) (p : Printing), p.format.deref = chr 's' →
      (SwitchInTable info fontData E s p ↔ Ascii (E.str p.args.word).text)) ∧
    (∀ (E : Env) (p : Printing), p.format.deref = chr 'c' →
      (SwitchInTable info fontData E s p ↔ (p.args.word.setWidth 8).toNat < 128)) := by
  refine ⟨fun str t ht h => putsInTable_iff info fontData s ht h, fun E p hs => ?_, fun E p hc => ?_⟩
  · exact switchInTable_iff info fontData (vprintfSwitch_string E hs) rfl s
  · rw [switchInTable_iff info fontData (vprintfSwitch_char E hc) rfl s]
    exact List.forall_mem_singleton

/-- The first console of a 640x400 mode. -/
def glyphMode : VbeModeInfo := ⟨0x98, 2560, 640, 400, 32, 6, 0xe0000000⟩

def glyphConsole : ConsoleState := consoleInit glyphMode (ConsoleState.boot (Mem.fresh fun _ => 0))

/-- `puts("A")`, and "%s" and "%c" at the same letter. -/
theorem glyphs_in_table_iff_letter :
    let E : Env := ⟨fun _ => ⟨[0x41], by decide⟩, fun _ => 0, fun _ => ⟨false, 0, 0, 0⟩⟩
    let args : VaList := ⟨fun _ => 0x41, 0⟩
    (PutsInTable glyphMode (fun _ => 0) glyphConsole (CharPtr.ofText [0x41]) ↔ Ascii [0x41]) ∧
      (SwitchInTable glyphMode (fun _ => 0) E glyphConsole ⟨[], 0, CharPtr.ofText [chr 's'], args⟩ ↔
        Ascii [0x41]) ∧
      (SwitchInTable glyphMode (fun _ => 0) E glyphConsole ⟨[], 0, CharPtr.ofText [chr 'c'], args⟩ ↔
        ((0x41 : BitVec 32).setWidth 8).toNat < 128) := by
  intro E args
  obtain ⟨hputs, hstring, hchar⟩ := glyphs_in_table_iff glyphMode (fun _ => 0) glyphConsole
  refine ⟨hputs _ [0x41] (by decide) (CharPtr.holds_ofText _), hstring E _ rfl, hchar E _ rfl⟩

/-- `puts("\x80")` reads 2048 bytes before the table. -/
theorem high_byte_before_table :
    ¬ PutsInTable glyphMode (fun _ => 0) glyphConsole (CharPtr.ofText [0x80]) ∧
      ∃ d ∈ textCalls glyphMode (fun _ => 0) glyphConsole [0x80], -2048 ∈ d.glyphReads := by
  refine ⟨fun htable => ?_, by decide⟩
  have hascii := (putsInTable_iff _ _ _ (by decide) (CharPtr.holds_ofText [0x80])).mp htable
  exact absurd (hascii 0x80 List.mem_cons_self) (by decide)

end ListaOS.Console
