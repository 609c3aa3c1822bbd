/-
  Formatted output (libkernel/stdio.c: puts, vprintf, sprintf).

  A `char *` is a memory and an index, and is read one character at a time, so positions
  past the NUL are positions like any other. `va_arg` takes 32-bit words: one for `int`,
  `long` and pointers, two (low word first) for `long long` and `double`. `Env` holds the
  strings that `%s` arguments point to, the words that a call without variadic arguments
  finds on the stack, and the floating-point split of `_ftoa`. A `%s` string is followed by zeros
  in memory. The buffer of sprintf is a memory of its own: it does not overlap the format or the
  strings.

  Loops and the nested sprintf calls take fuel and are `none` without it; `_ftoa` of an infinite
  `double` is `none` with any fuel (`Env.split`). `putc` appends to `out`; what vprintf counts is
  an `int`. The two switches are written out separately, as in the source.
-/
import ListaOS.Lib.Fuel
import ListaOS.Lib.Mem
import ListaOS.Stdio.Numbers

namespace ListaOS.Stdio

open Lib

/-- `char *`. -/
structure CharPtr where
  mem : Nat → BitVec 8
  pos : Nat

namespace CharPtr

def deref (p : CharPtr) : BitVec 8 := p.mem p.pos

def next (p : CharPtr) : CharPtr := { p with pos := p.pos + 1 }

/-- A buffer that holds the text, a NUL, and zeros behind it. -/
def ofText (t : List (BitVec 8)) : CharPtr := ⟨fun i => t.getD i 0, 0⟩

end CharPtr

/-- A NUL-terminated string. -/
structure CString where
  text : List (BitVec 8)
  noNul : ∀ c ∈ text, c ≠ 0

/-- `va_list`: argument words and the next one. -/
structure VaList where
  words : Nat → BitVec 32
  pos : Nat

namespace VaList

def skip (args : VaList) (n : Nat) : VaList := { args with pos := args.pos + n }

/-- `va_arg` of a 32-bit type. -/
def word (args : VaList) : BitVec 32 := args.words args.pos

/-- `va_arg` of a 64-bit type. -/
def dword (args : VaList) : BitVec 64 := args.words (args.pos + 1) ++ args.words args.pos

end VaList

/-- An infinite `double`: every bit of the exponent is set, and no bit of the fraction. -/
def IsInfinite (x : BitVec 64) : Prop := x &&& 0x7fffffffffffffff = 0x7ff0000000000000

instance (x : BitVec 64) : Decidable (IsInfinite x) := inferInstanceAs (Decidable (_ = _))

/-- `parts` is the split of a `double` that is not infinite. -/
structure Env where
  str : BitVec 32 → CString
  stack : Nat → BitVec 32
  parts : BitVec 64 → FloatParts

/-- The split of `_ftoa`. An infinite `num` divided by 10 is infinite, so that
`while (num > UINT64_MAX)` never ends. -/
def Env.split (E : Env) (num : BitVec 64) : Option FloatParts :=
  if IsInfinite num then none else some (E.parts num)

/-- `putc` of every character up to the NUL; the count with what is printed. -/
def puts : Nat → CharPtr → BitVec 32 → List (BitVec 8) → Option (List (BitVec 8) × BitVec 32)
  | 0, _, _, _ => none
  | n + 1, str, len, out =>
      if str.deref ≠ 0 then puts n str.next (len + 1) (out ++ [str.deref])
      else some (out, len)

/-! ## vprintf -/

structure Printing where
  out : List (BitVec 8)
  len : BitVec 32
  format : CharPtr
  args : VaList

namespace Printing

/-- `putc(ch); ++len;` -/
def putc (s : Printing) (ch : BitVec 8) : Printing :=
  { s with
    out := s.out ++ [ch]
    len := s.len + 1 }

/-- `len += puts(str);` -/
def puts (s : Printing) (n : Nat) (str : CharPtr) : Option Printing :=
  (Stdio.puts n str 0 s.out).map fun r =>
    { s with
      out := r.1
      len := s.len + r.2 }

/-- `len += puts(text);` after an argument of `words` words. -/
def putArg (s : Printing) (n words : Nat) (text : List (BitVec 8)) : Option Printing :=
  { s with args := s.args.skip words }.puts n (CharPtr.ofText text)

def next (s : Printing) : Printing := { s with format := s.format.next }

end Printing

/-- `while (*format != '%' && *format != '\0')` -/
def vprintfLiteral : Nat → Printing → Option Printing
  | 0, _ => none
  | n + 1, s =>
      if s.format.deref ≠ chr '%' ∧ s.format.deref ≠ 0 then
        vprintfLiteral n (s.putc s.format.deref).next
      else some s

section

variable (E : Env)

/-- The inner branch of `case 'l'`, at the third character. -/
def vprintfLongLong (n : Nat) (s : Printing) : Option Printing :=
  if s.format.deref = chr 'd' then s.putArg n 2 (itoa s.args.dword)
  else if s.format.deref = chr 'u' then s.putArg n 2 (utoa s.args.dword)
  else if s.format.deref = chr 'X' then s.putArg n 2 (itoh s.args.dword true)
  else if s.format.deref = chr 'x' then s.putArg n 2 (itoh s.args.dword false)
  else some s

/-- `case 'l'`, at the second character. -/
def vprintfLong (n : Nat) (s : Printing) : Option Printing :=
  if s.format.deref = chr 'd' then s.putArg n 1 (itoa (s.args.word.signExtend 64))
  else if s.format.deref = chr 'u' then s.putArg n 1 (utoa (s.args.word.setWidth 64))
  else if s.format.deref = chr 'X' then s.putArg n 1 (itoh (s.args.word.setWidth 64) true)
  else if s.format.deref = chr 'x' then s.putArg n 1 (itoh (s.args.word.setWidth 64) false)
  else vprintfLongLong n s.next

/-- `switch (*(++format))` -/
def vprintfSwitch (n : Nat) (s : Printing) : Option Printing :=
  if s.format.deref = chr 'c' then
    some ({ s with args := s.args.skip 1 }.putc (s.args.word.setWidth 8))
  else if s.format.deref = chr 'd' then s.putArg n 1 (itoa (s.args.word.signExtend 64))
  else if s.format.deref = chr 'f' then
    (E.split s.args.dword).bind fun num => s.putArg n 2 (ftoa num)
  else if s.format.deref = chr 'l' then vprintfLong n s.next
  else if s.format.deref = chr 'p' then s.putArg n 1 (ptoa s.args.word)
  else if s.format.deref = chr 's' then s.putArg n 1 (E.str s.args.word).text
  else if s.format.deref = chr 'u' then s.putArg n 1 (utoa (s.args.word.setWidth 64))
  else if s.format.deref = chr 'X' then s.putArg n 1 (itoh (s.args.word.setWidth 64) true)
  else if s.format.deref = chr 'x' then s.putArg n 1 (itoh (s.args.word.setWidth 64) false)
  else if s.format.deref = chr '%' then some (s.putc (chr '%'))
  else some s

/-- `while (*format != '\0')` -/
def vprintfLoop : Nat → Printing → Option Printing
  | 0, _ => none
  | n + 1, s =>
      if s.format.deref = 0 then some s
      else
        (vprintfLiteral n s).bind fun s =>
          if s.format.deref = 0 then some s
          else (vprintfSwitch E n s.next).bind fun s => vprintfLoop n s.next

/-- The characters handed to `putc`, and the value returned. -/
def vprintf (n : Nat) (format : CharPtr) (args : VaList) :
    Option (List (BitVec 8) × BitVec 32) :=
  (vprintfLoop E n ⟨[], 0, format, args⟩).map fun s => (s.out, s.len)

end

/-! ## sprintf -/

structure Sprinting where
  buf : Mem (BitVec 8)
  current : Nat
  format : CharPtr
  args : VaList

/-- A nested `sprintf(current, temp)`: the buffer afterwards and the value returned. -/
abbrev Nested := Mem (BitVec 8) → Nat → CharPtr → Option (Mem (BitVec 8) × Nat)

namespace Sprinting

/-- `*current++ = ch;` -/
def putc (s : Sprinting) (ch : BitVec 8) : Sprinting :=
  { s with
    buf := s.buf.write s.current ch
    current := s.current + 1 }

/-- `current += sprintf(current, temp);` after an argument of `words` words. -/
def putArg (s : Sprinting) (call : Nested) (words : Nat) (text : List (BitVec 8)) :
    Option Sprinting :=
  (call s.buf s.current (CharPtr.ofText text)).map fun r =>
    { s with
      buf := r.1
      current := s.current + r.2
      args := s.args.skip words }

def next (s : Sprinting) : Sprinting := { s with format := s.format.next }

end Sprinting

/-- `while (*format != '%' && *format != '\0')` -/
def sprintfLiteral : Nat → Sprinting → Option Sprinting
  | 0, _ => none
  | n + 1, s =>
      if s.format.deref ≠ chr '%' ∧ s.format.deref ≠ 0 then
        sprintfLiteral n (s.putc s.format.deref).next
      else some s

section

variable (E : Env)

/-- The inner branch of `case 'l'`, at the third character; `%llu` calls `_itoa`. -/
def sprintfLongLong (call : Nested) (s : Sprinting) : Option Sprinting :=
  if s.format.deref = chr 'd' then s.putArg call 2 (itoa s.args.dword)
  else if s.format.deref = chr 'u' then s.putArg call 2 (itoa s.args.dword)
  else if s.format.deref = chr 'X' then s.putArg call 2 (itoh s.args.dword true)
  else if s.format.deref = chr 'x' then s.putArg call 2 (itoh s.args.dword false)
  else some s

/-- `case 'l'`, at the second character. -/
def sprintfLong (call : Nested) (s : Sprinting) : Option Sprinting :=
  if s.format.deref = chr 'd' then s.putArg call 1 (itoa (s.args.word.signExtend 64))
  else if s.format.deref = chr 'u' then s.putArg call 1 (utoa (s.args.word.setWidth 64))
  else if s.format.deref = chr 'X' then s.putArg call 1 (itoh (s.args.word.setWidth 64) true)
  else if s.format.deref = chr 'x' then s.putArg call 1 (itoh (s.args.word.setWidth 64) false)
  else sprintfLongLong call s.next

/-- `switch (sign)`; `%u` calls `_itoa`. -/
def sprintfSwitch (call : Nested) (s : Sprinting) : Option Sprinting :=
  if s.format.deref = chr 'c' then
    some ({ s with args := s.args.skip 1 }.putc (s.args.word.setWidth 8))
  else if s.format.deref = chr 'd' then s.putArg call 1 (itoa (s.args.word.signExtend 64))
  else if s.format.deref = chr 'f' then
    (E.split s.args.dword).bind fun num => s.putArg call 2 (ftoa num)
  else if s.format.deref = chr 'l' then sprintfLong call s.next
  else if s.format.deref = chr 'p' then s.putArg call 1 (ptoa s.args.word)
  else if s.format.deref = chr 's' then s.putArg call 1 (E.str s.args.word).text
  else if s.format.deref = chr 'u' then s.putArg call 1 (itoa (s.args.word.setWidth 64))
  else if s.format.deref = chr 'X' then s.putArg call 1 (itoh (s.args.word.setWidth 64) true)
  else if s.format.deref = chr 'x' then s.putArg call 1 (itoh (s.args.word.setWidth 64) false)
  else if s.format.deref = chr '%' then some (s.putc (chr '%'))
  else some s

/-- `while (*format != '\0')`; a nested call runs the same loop on `temp`, with the words
on the stack as its arguments. -/
def sprintfLoop : Nat → Sprinting → Option Sprinting
  | 0, _ => none
  | n + 1, s =>
      if s.format.deref = 0 then some s
      else
        (sprintfLiteral n s).bind fun s =>
          if s.format.deref = 0 then some s
          else
            (sprintfSwitch E
              (fun buf str format =>
                (sprintfLoop n ⟨buf, str, format, ⟨E.stack, 0⟩⟩).map fun t =>
                  (t.buf.write t.current 0, t.current - str))
              s.next).bind fun s => sprintfLoop n s.next

/-- The buffer afterwards, and the value returned. -/
def sprintf (n : Nat) (buf : Mem (BitVec 8)) (str : Nat) (format : CharPtr) (args : VaList) :
    Option (Mem (BitVec 8) × Nat) :=
  (sprintfLoop E n ⟨buf, str, format, args⟩).map fun t =>
    (t.buf.write t.current 0, t.current - str)

end

end ListaOS.Stdio
