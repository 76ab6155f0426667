import Mathlib.Data.List.Basic
import Stm32Adaptive.Library.CString

/-!
# The formatted output

`printf_getchar.cpp`: `_vsnprintf` goes through a format, copies what is no directive,
and converts an argument for each directive.  Every character goes out through a function
that also gets its position; here the interpreter returns the characters, and the output
functions, which put them into a buffer or on the serial line, come after it.

The target has 32-bit `int`, `long`, `size_t` and pointers, 64-bit `intmax_t`, and an
unsigned `char`; floating point is switched off.  The result `none` is undefined
behaviour: an argument of another size or no argument, the negation of the least `int`, a
format that ends inside a directive.
-/

namespace Stm32Adaptive
namespace Printf

open CString

/-- The bits of `flags`. -/
structure Flags where
  /-- `FLAGS_ZEROPAD`. -/
  zeropad : Bool
  /-- `FLAGS_LEFT`. -/
  left : Bool
  /-- `FLAGS_PLUS`. -/
  plus : Bool
  /-- `FLAGS_SPACE`. -/
  space : Bool
  /-- `FLAGS_HASH`. -/
  hash : Bool
  /-- `FLAGS_UPPERCASE`. -/
  uppercase : Bool
  /-- `FLAGS_CHAR`. -/
  char : Bool
  /-- `FLAGS_SHORT`. -/
  short : Bool
  /-- `FLAGS_LONG`. -/
  long : Bool
  /-- `FLAGS_LONG_LONG`. -/
  longLong : Bool
  /-- `FLAGS_PRECISION`. -/
  precision : Bool
  deriving DecidableEq

/-- `0U`. -/
def Flags.zero : Flags :=
  ⟨false, false, false, false, false, false, false, false, false, false, false⟩

/-- An argument in the variable argument list: a word, which is an `int`, a `long` or a
pointer; a `long long`; or a pointer to a string, with the characters before its zero. -/
inductive Arg where
  | word (value : UInt32)
  | dword (value : UInt64)
  | str (s : List UInt8)
  deriving DecidableEq

/-- `PRINTF_NTOA_BUFFER_SIZE`. -/
def ntoaBufferSize : ℕ := 32

/-! ## Numbers -/

/-- `_is_digit`. -/
def isDigit (ch : UInt8) : Bool := '0'.toUInt8 ≤ ch && ch ≤ '9'.toUInt8

/-- The loop of `_atoi`. -/
def atoiLoop : List UInt8 → UInt32 → UInt32 × List UInt8
  | [], i => (i, [])
  | c :: str, i =>
    if isDigit c then atoiLoop str (i * 10 + (c.toUInt32 - '0'.toUInt8.toUInt32)) else (i, c :: str)

/-- `_atoi`: the number, and the rest of the string. -/
def atoi (str : List UInt8) : UInt32 × List UInt8 := atoiLoop str 0

/-- `_strnlen_s`. -/
def strnlenS : List UInt8 → ℕ → ℕ
  | [], _ => 0
  | _ :: _, 0 => 0
  | _ :: str, maxsize + 1 => strnlenS str maxsize + 1

/-- A number of characters. -/
def fill (c : Char) (n : ℕ) : List UInt8 := List.replicate n c.toUInt8

/-- `_out_rev`. -/
def outRev (buf : List UInt8) (width : ℕ) (flags : Flags) : List UInt8 :=
  let padded := if !flags.left && !flags.zeropad then fill ' ' (width - buf.length) else []
  let text := padded ++ buf.reverse
  if flags.left then text ++ fill ' ' (width - text.length) else text

/-- Append zeros up to a length, as far as the buffer goes. -/
def padZeros (buf : List UInt8) (n : ℕ) : List UInt8 :=
  buf ++ fill '0' (min n ntoaBufferSize - buf.length)

/-- Append a character, if the buffer has room for it. -/
def append (buf : List UInt8) (c : Char) : List UInt8 :=
  if buf.length < ntoaBufferSize then buf ++ [c.toUInt8] else buf

/-- The handling of the hash in `_ntoa_format`. -/
def handleHash (buf : List UInt8) (base prec width : ℕ) (flags : Flags) : List UInt8 :=
  let buf :=
    if !flags.precision && buf.length ≠ 0 && (buf.length = prec || buf.length = width) then
      let buf := buf.dropLast
      if buf.length ≠ 0 && base = 16 then buf.dropLast else buf
    else buf
  let buf :=
    if base = 16 && !flags.uppercase then append buf 'x'
    else if base = 16 && flags.uppercase then append buf 'X'
    else if base = 2 then append buf 'b'
    else buf
  append buf '0'

/-- `_ntoa_format`; the digits in the buffer are in reverse order. -/
def ntoaFormat (buf : List UInt8) (negative : Bool) (base prec width : ℕ) (flags : Flags) :
    List UInt8 :=
  let width :=
    if !flags.left && (width ≠ 0 && flags.zeropad && (negative || flags.plus || flags.space)) then
      width - 1
    else width
  let buf :=
    if !flags.left then
      let buf := padZeros buf prec
      if flags.zeropad then padZeros buf width else buf
    else buf
  let buf := if flags.hash then handleHash buf base prec width flags else buf
  let buf :=
    if negative then append buf '-'
    else if flags.plus then append buf '+'
    else if flags.space then append buf ' '
    else buf
  outRev buf width flags

/-- The loop of `_ntoa_long` with room for `room` characters. -/
def ntoaDigits (base : ℕ) (uppercase : Bool) : ℕ → ℕ → List UInt8
  | 0, _ => []
  | room + 1, value =>
    digitChar uppercase (value % base) ::
      if value / base ≠ 0 then ntoaDigits base uppercase room (value / base) else []

/-- `_ntoa_long` and `_ntoa_long_long`, which differ in the type of the value. -/
def ntoa (value : ℕ) (negative : Bool) (base prec width : ℕ) (flags : Flags) : List UInt8 :=
  let flags := if value = 0 then { flags with hash := false } else flags
  let buf :=
    if !flags.precision || value ≠ 0 then ntoaDigits base flags.uppercase ntoaBufferSize value
    else []
  ntoaFormat buf negative base prec width flags

/-- `_ntoa_long`. -/
def ntoaLong (value : UInt32) := ntoa value.toNat

/-- `_ntoa_long_long`. -/
def ntoaLongLong (value : UInt64) := ntoa value.toNat

/-! ## Directives -/

/-- The flags of a directive. -/
def evalFlags : List UInt8 → Flags → Flags × List UInt8
  | [], flags => (flags, [])
  | c :: format, flags =>
    if c = '0'.toUInt8 then evalFlags format { flags with zeropad := true }
    else if c = '-'.toUInt8 then evalFlags format { flags with left := true }
    else if c = '+'.toUInt8 then evalFlags format { flags with plus := true }
    else if c = ' '.toUInt8 then evalFlags format { flags with space := true }
    else if c = '#'.toUInt8 then evalFlags format { flags with hash := true }
    else (flags, c :: format)

/-- What a directive has been read to so far: flags, width, precision, the rest of the
format and of the arguments. -/
structure Fields where
  flags : Flags
  width : ℕ
  precision : ℕ
  format : List UInt8
  va : List Arg

/-- A width that is an argument, with the rest of the format; a negative one sets the flag
for the left, and the negation of the least `int` is undefined. -/
def starWidth (flags : Flags) (format : List UInt8) : List Arg → Option Fields
  | .word w :: va =>
    if w.toInt32 < 0 then
      if w.toInt32 = Int32.minValue then none
      else some ⟨{ flags with left := true }, (0 - w).toNat, 0, format, va⟩
    else some ⟨flags, w.toNat, 0, format, va⟩
  | _ => none

/-- The width field. -/
def evalWidth (flags : Flags) (format : List UInt8) (va : List Arg) : Option Fields :=
  match format with
  | [] => some ⟨flags, 0, 0, [], va⟩
  | c :: rest =>
    if isDigit c then some ⟨flags, (atoi (c :: rest)).1.toNat, 0, (atoi (c :: rest)).2, va⟩
    else if c = '*'.toUInt8 then starWidth flags rest va
    else some ⟨flags, 0, 0, c :: rest, va⟩

/-- A precision that is an argument. -/
def starPrecision (d : Fields) (format : List UInt8) : List Arg → Option Fields
  | .word prec :: va =>
    some { d with
      precision := if 0 < prec.toInt32 then prec.toNat else 0
      format := format
      va := va }
  | _ => none

/-- The precision field. -/
def evalPrecision (d : Fields) : Option Fields :=
  match d.format with
  | [] => some d
  | c :: rest =>
    if c = '.'.toUInt8 then
      let d := { d with flags := { d.flags with precision := true } }
      match rest with
      | [] => some { d with format := [] }
      | e :: rest' =>
        if isDigit e then
          some { d with precision := (atoi (e :: rest')).1.toNat, format := (atoi (e :: rest')).2 }
        else if e = '*'.toUInt8 then starPrecision d rest' d.va
        else some { d with format := e :: rest' }
    else some d

/-- The length field. -/
def evalLength (d : Fields) : Fields :=
  match d.format with
  | [] => d
  | c :: rest =>
    if c = 'l'.toUInt8 then
      if rest.head? = some 'l'.toUInt8 then
        { d with flags := { d.flags with long := true, longLong := true }, format := rest.tail }
      else { d with flags := { d.flags with long := true }, format := rest }
    else if c = 'h'.toUInt8 then
      if rest.head? = some 'h'.toUInt8 then
        { d with flags := { d.flags with short := true, char := true }, format := rest.tail }
      else { d with flags := { d.flags with short := true }, format := rest }
    else if c = 't'.toUInt8 then
      { d with flags := { d.flags with long := true }, format := rest }
    else if c = 'j'.toUInt8 then
      { d with flags := { d.flags with longLong := true }, format := rest }
    else if c = 'z'.toUInt8 then
      { d with flags := { d.flags with long := true }, format := rest }
    else d

/-- `d` and `i`: an argument of the type that the flags say, with its sign. -/
def signedArg (flags : Flags) : List Arg → Option (ℤ × List Arg)
  | .dword v :: va => if flags.longLong then some (v.toInt64.toInt, va) else none
  | .word v :: va =>
    if flags.longLong then none
    else if flags.long then some (v.toInt32.toInt, va)
    else if flags.char then some (v.toUInt8.toNat, va)
    else if flags.short then some (v.toUInt16.toInt16.toInt, va)
    else some (v.toInt32.toInt, va)
  | _ => none

/-- The other integer conversions. -/
def unsignedArg (flags : Flags) : List Arg → Option (ℕ × List Arg)
  | .dword v :: va => if flags.longLong then some (v.toNat, va) else none
  | .word v :: va =>
    if flags.longLong then none
    else if flags.long then some (v.toNat, va)
    else if flags.char then some (v.toUInt8.toNat, va)
    else if flags.short then some (v.toUInt16.toNat, va)
    else some (v.toNat, va)
  | _ => none

/-- The least value of the type whose negation is undefined. -/
def leastValue (flags : Flags) : ℤ :=
  if flags.longLong then -2 ^ 63 else -2 ^ 31

/-- The conversion of the size that the flags say. -/
def ntoaSized (flags : Flags) (value : ℕ) (negative : Bool) (base prec width : ℕ) : List UInt8 :=
  if flags.longLong then ntoaLongLong (UInt64.ofNat value) negative base prec width flags
  else ntoaLong (UInt32.ofNat value) negative base prec width flags

/-- The integer conversions. -/
def evalInteger (c : UInt8) (d : Fields) : Option (List UInt8 × List Arg) :=
  let base := if c = 'x'.toUInt8 || c = 'X'.toUInt8 then 16 else if c = 'o'.toUInt8 then 8
    else if c = 'b'.toUInt8 then 2 else 10
  let signed := c = 'd'.toUInt8 || c = 'i'.toUInt8
  let flags := d.flags
  let flags := if base = 10 then { flags with hash := false } else flags
  let flags := if c = 'X'.toUInt8 then { flags with uppercase := true } else flags
  let flags := if !signed then { flags with plus := false, space := false } else flags
  let flags := if flags.precision then { flags with zeropad := false } else flags
  if signed then
    (signedArg flags d.va).bind fun (value, va) =>
      if value = leastValue flags then none
      else some (ntoaSized flags value.natAbs (value < 0) base d.precision d.width, va)
  else
    (unsignedArg flags d.va).map fun (value, va) =>
      (ntoaSized flags value false base d.precision d.width, va)

/-- `%c`. -/
def evalChar (d : Fields) : Option (List UInt8 × List Arg) :=
  match d.va with
  | .word v :: va =>
    let text := if !d.flags.left then fill ' ' (d.width - 1) ++ [v.toUInt8]
      else v.toUInt8 :: fill ' ' (d.width - 1)
    some (text, va)
  | _ => none

/-- `%s`. -/
def evalString (d : Fields) : Option (List UInt8 × List Arg) :=
  match d.va with
  | .str p :: va =>
    let l := strnlenS p (if d.precision ≠ 0 then d.precision else 2 ^ 32 - 1)
    let l := if d.flags.precision then (if l < d.precision then l else d.precision) else l
    let s := if d.flags.precision then p.take d.precision else p
    let text := if !d.flags.left then fill ' ' (d.width - l) ++ s else s ++ fill ' ' (d.width - l)
    some (text, va)
  | _ => none

/-- `%p`. -/
def evalPointer (d : Fields) : Option (List UInt8 × List Arg) :=
  match d.va with
  | .word v :: va =>
    let flags := { d.flags with zeropad := true, uppercase := true }
    some (ntoaLong v false 16 d.precision 8 flags, va)
  | _ => none

/-- The specifier: the output, the rest of the format and of the arguments. -/
def evalSpecifier (d : Fields) : Option (List UInt8 × List UInt8 × List Arg) :=
  match d.format with
  | [] => none
  | c :: format =>
    let output :=
      if c = 'd'.toUInt8 || c = 'i'.toUInt8 || c = 'u'.toUInt8 || c = 'x'.toUInt8 ||
          c = 'X'.toUInt8 || c = 'o'.toUInt8 || c = 'b'.toUInt8 then
        evalInteger c d
      else if c = 'c'.toUInt8 then evalChar d
      else if c = 's'.toUInt8 then evalString d
      else if c = 'p'.toUInt8 then evalPointer d
      else if c = '%'.toUInt8 then some (['%'.toUInt8], d.va)
      else some ([c], d.va)
    output.map fun (text, va) => (text, format, va)

/-- A directive, behind its `%`. -/
def directive (format : List UInt8) (va : List Arg) : Option (List UInt8 × List UInt8 × List Arg) :=
  let flags := evalFlags format Flags.zero
  (evalWidth flags.1 flags.2 va).bind fun d =>
    (evalPrecision d).bind fun d => evalSpecifier (evalLength d)

/-- The loop of `_vsnprintf`, for a number of turns. -/
def vsnprintfLoop : ℕ → List UInt8 → List Arg → Option (List UInt8)
  | _, [], _ => some []
  | 0, _ :: _, _ => none
  | n + 1, c :: format, va =>
    if c ≠ '%'.toUInt8 then (vsnprintfLoop n format va).map (c :: ·)
    else (directive format va).bind fun (text, format, va) =>
      (vsnprintfLoop n format va).map (text ++ ·)

/-- The characters that `_vsnprintf` puts out before the termination. -/
def vsnprintf (format : List UInt8) (va : List Arg) : Option (List UInt8) :=
  vsnprintfLoop format.length format va

example : vsnprintf "%5d|%-4x|%s".toUTF8.toList [.word 42, .word 255, .str [104, 105]] =
    some "   42|ff  |hi".toUTF8.toList := by decide +kernel

end Printf
end Stm32Adaptive
