import Sessions.Json.Basic
import Sessions.Text.Utf8

/-!
# Words, numbers and strings of a JSON text

A reader takes bytes and gives back what it read and the bytes after it, or the first flaw that it
met from left to right. Three flaws are told apart: the text ended, the text is not JSON, the text
is JSON of another shape than wanted.

A number is a whole number when it is written without point and exponent and fits 64 bits, signed
or unsigned; `-0` and all others are doubles. The digits that fit a 64-bit significand are kept,
those after them count only as powers of ten, and the power of ten is applied to the significand
by one rounded multiplication or division, two for the smallest numbers.
-/

namespace Sessions.Json

/-- Why a text could not be read. -/
inductive Flaw where
  /-- The text ended inside or before the value. -/
  | ended
  /-- The text is not JSON. -/
  | malformed
  /-- The value is JSON, but not of the shape wanted. -/
  | mismatch
  deriving DecidableEq, Repr

/-- Space, tab, line feed and carriage return are the only white space of JSON. -/
def isSpace (b : UInt8) : Bool :=
  b = ' '.toUInt8 || b = '\t'.toUInt8 || b = '\n'.toUInt8 || b = '\r'.toUInt8

def skipSpace (input : Bytes) : Bytes := input.dropWhile isSpace

/-- Takes the given bytes off the front. -/
def expect : Bytes → Bytes → Except Flaw Bytes
  | [], input => .ok input
  | _ :: _, [] => .error .ended
  | e :: es, b :: rest => if b = e then expect es rest else .error .malformed

/-- The bytes of a word of ASCII characters. -/
def ascii (word : String) : Bytes := word.toList.map Char.toUInt8

/-! ## Numbers -/

def isDigit (b : UInt8) : Bool := '0'.toUInt8 ≤ b && b ≤ '9'.toUInt8

def digitValue (b : UInt8) : Nat := b.toNat - '0'.toNat

/-- Appends digits to a significand as long as it stays below `2 ^ 64`; also says how many were
appended. -/
def gather (significand : Nat) : Bytes → Nat × Nat
  | [] => (significand, 0)
  | b :: rest =>
    let next := 10 * significand + digitValue b
    if next < 2 ^ 64 then
      let (all, taken) := gather next rest
      (all, taken + 1)
    else (significand, 0)

/-- Powers of ten up to `10 ^ 308` as doubles. -/
def powerOfTen (n : Nat) : Binary64 := (Binary64.ofNat false (10 ^ n)).getD default

/-- A significand below `2 ^ 64` times a power of ten; none where that is infinite. Below
`10 ^ -616` the quotient is zero. -/
def scaleByTen (significand : Nat) (exponent : Int) : Option Binary64 :=
  let base := (Binary64.ofNat false significand).getD default
  let size := exponent.natAbs
  if 0 ≤ exponent then
    if size ≤ 308 then base.mul (powerOfTen size)
    else if significand = 0 then some base else none
  else if size ≤ 308 then base.div (powerOfTen size)
  else if size ≤ 616 then (base.div (powerOfTen 308)).bind (·.div (powerOfTen (size - 308)))
  else some default

/-- Keeps an exponent within 32 signed bits. -/
def clampExponent (e : Int) : Int := max (-2 ^ 31) (min e (2 ^ 31 - 1))

/-- A number as it is written: digits before the point, digits after it, exponent. -/
structure Numeral where
  negative : Bool
  whole : Bytes
  fraction : Option Bytes
  exponent : Option (Bool × Bytes)

/-- The digits at the front of the input, of which there must be one. -/
def digits (input : Bytes) : Except Flaw (Bytes × Bytes) :=
  match input with
  | [] => .error .ended
  | b :: _ =>
    if isDigit b then .ok (input.takeWhile isDigit, input.dropWhile isDigit)
    else .error .malformed

/-- A whole part: digits without a leading zero before further ones. -/
def wholePart (input : Bytes) : Except Flaw (Bytes × Bytes) := do
  let (whole, rest) ← digits input
  if whole.head? = some '0'.toUInt8 ∧ 1 < whole.length then .error .malformed else .ok (whole, rest)

/-- The digits after a point, if there is a point. -/
def fractionPart (input : Bytes) : Except Flaw (Option Bytes × Bytes) :=
  if input.head? = some '.'.toUInt8 then do
    let (fraction, rest) ← digits input.tail
    .ok (some fraction, rest)
  else .ok (none, input)

/-- Whether the input starts with a minus, and what follows an optional sign. -/
def sign (plus : Bool) (input : Bytes) : Bool × Bytes :=
  if input.head? = some '-'.toUInt8 then (true, input.tail)
  else if plus ∧ input.head? = some '+'.toUInt8 then (false, input.tail)
  else (false, input)

/-- The exponent after an `e` of either case: whether it is negative, and its digits. -/
def exponentPart (input : Bytes) : Except Flaw (Option (Bool × Bytes) × Bytes) :=
  if input.head? = some 'e'.toUInt8 ∨ input.head? = some 'E'.toUInt8 then do
    let (negative, rest) := sign true input.tail
    let (ds, rest) ← digits rest
    .ok (some (negative, ds), rest)
  else .ok (none, input)

/-- The written parts of the number at the front of the input. -/
def numeral (input : Bytes) : Except Flaw (Numeral × Bytes) := do
  let (negative, input) := sign false input
  let (whole, input) ← wholePart input
  let (fraction, input) ← fractionPart input
  let (exponent, input) ← exponentPart input
  .ok (⟨negative, whole, fraction, exponent⟩, input)

/-- The value of digits read as a whole number, for exponents that fit 31 bits. -/
def exponentSize? (ds : Bytes) : Option Nat :=
  let n := ds.foldl (fun n b => if n < 2 ^ 31 then 10 * n + digitValue b else n) 0
  if n < 2 ^ 31 then some n else none

/-- The double that a significand and two exponents stand for, or none where it is infinite. -/
def Numeral.double? (significand : Nat) (shift : Int) (exponent : Option (Bool × Bytes)) :
    Option Binary64 :=
  match exponent with
  | none => scaleByTen significand shift
  | some (negative, ds) =>
    match exponentSize? ds with
    | some e => scaleByTen significand (clampExponent (if negative then shift - e else shift + e))
    | none => if significand ≠ 0 ∧ ¬negative then none else some default

/-- The value of a written number; none where it is too large for a double. -/
def Numeral.value? (n : Numeral) : Option Json :=
  let (significand, taken) := gather 0 n.whole
  let dropped : Int := (n.whole.length : Int) - taken
  let signed (x : Binary64) : Json := double (if n.negative then x.neg else x)
  match n.fraction, n.exponent with
  | none, none =>
    if dropped ≠ 0 then (scaleByTen significand dropped).map signed
    else if ¬n.negative then some (int significand)
    else if 0 < significand ∧ significand ≤ 2 ^ 63 then some (int (-significand))
    else (Binary64.ofNat false significand).map signed
  | some fraction, exponent =>
    let (all, taken) := gather significand fraction
    (Numeral.double? all (dropped - taken) exponent).map signed
  | none, exponent => (Numeral.double? significand dropped exponent).map signed

/-- The number at the front of the input. -/
def number (input : Bytes) : Except Flaw (Json × Bytes) := do
  let (n, rest) ← numeral input
  match n.value? with
  | some v => .ok (v, rest)
  | none => .error .malformed

/-! ## Strings -/

/-- The value of a hexadecimal digit. -/
def hexValue? (b : UInt8) : Option Nat :=
  if isDigit b then some (digitValue b)
  else if 'a'.toUInt8 ≤ b ∧ b ≤ 'f'.toUInt8 then some (b.toNat - 'a'.toNat + 10)
  else if 'A'.toUInt8 ≤ b ∧ b ≤ 'F'.toUInt8 then some (b.toNat - 'A'.toNat + 10)
  else none

/-- Four hexadecimal digits read as a number. -/
def hexUnit? (ds : Bytes) : Option Nat :=
  ds.foldl (fun n b => n.bind fun n => (hexValue? b).map (16 * n + ·)) (some 0)

/-- The byte that a one-letter escape stands for. -/
def shortEscape? (b : UInt8) : Option UInt8 :=
  if b = '"'.toUInt8 ∨ b = '\\'.toUInt8 ∨ b = '/'.toUInt8 then some b
  else if b = 'b'.toUInt8 then some 0x08
  else if b = 'f'.toUInt8 then some 0x0C
  else if b = 'n'.toUInt8 then some 0x0A
  else if b = 'r'.toUInt8 then some 0x0D
  else if b = 't'.toUInt8 then some 0x09
  else none

/-- Where a reader is inside a string. -/
inductive Place where
  /-- Between characters. -/
  | plain
  /-- After a reverse solidus. -/
  | escape
  /-- Inside the four digits of an escape, after the given ones; `high` is the leading surrogate
  that this escape must complete. -/
  | unit (high : Option Nat) (seen : Bytes)
  /-- After a leading surrogate, before the reverse solidus of the next escape. -/
  | awaitEscape (high : Nat)
  /-- After that reverse solidus. -/
  | awaitUnit (high : Nat)

def isHighSurrogate (n : Nat) : Bool := 0xD800 ≤ n && n ≤ 0xDBFF

def isLowSurrogate (n : Nat) : Bool := 0xDC00 ≤ n && n ≤ 0xDFFF

/-- The code point of a surrogate pair. -/
def joinSurrogates (high low : Nat) : Nat := 0x10000 + (high - 0xD800) * 0x400 + (low - 0xDC00)

def codePointBytes (n : Nat) : Bytes := String.utf8EncodeChar (Char.ofNat n)

/-- What follows the four digits of an escape: the next place and the bytes it stands for.
Surrogates must come in pairs. -/
def finishUnit (high : Option Nat) (ds : Bytes) : Except Flaw (Place × Bytes) :=
  match hexUnit? ds, high with
  | none, _ => .error .malformed
  | some n, none =>
    if isLowSurrogate n then .error .malformed
    else if isHighSurrogate n then .ok (.awaitEscape n, [])
    else .ok (.plain, codePointBytes n)
  | some n, some high =>
    if isLowSurrogate n then .ok (.plain, codePointBytes (joinSurrogates high n))
    else .error .malformed

/-- The digits of an escape that nobody reads need only be digits. -/
def passUnit (_ : Option Nat) (ds : Bytes) : Except Flaw (Place × Bytes) :=
  if (hexUnit? ds).isSome then .ok (.plain, []) else .error .malformed

/-- Reads the inside of a string up to its closing quote. `done` holds the bytes of the text so
far, last first. An escape wants its four digits before it looks at any of them. -/
def stringBytes (finish : Option Nat → Bytes → Except Flaw (Place × Bytes)) (place : Place)
    (done : Bytes) : Bytes → Except Flaw (Bytes × Bytes)
  | [] => .error .ended
  | b :: rest =>
    match place with
    | .plain =>
      if b = '"'.toUInt8 then .ok (done.reverse, rest)
      else if b = '\\'.toUInt8 then stringBytes finish .escape done rest
      else if b < 0x20 then .error .malformed
      else stringBytes finish .plain (b :: done) rest
    | .escape =>
      if b = 'u'.toUInt8 then stringBytes finish (.unit none []) done rest
      else match shortEscape? b with
        | some e => stringBytes finish .plain (e :: done) rest
        | none => .error .malformed
    | .unit high seen =>
      let seen := seen ++ [b]
      if seen.length < 4 then stringBytes finish (.unit high seen) done rest
      else match finish high seen with
        | .ok (next, bytes) => stringBytes finish next (bytes.reverse ++ done) rest
        | .error flaw => .error flaw
    | .awaitEscape high =>
      if b = '\\'.toUInt8 then stringBytes finish (.awaitUnit high) done rest
      else .error .malformed
    | .awaitUnit high =>
      if b = 'u'.toUInt8 then stringBytes finish (.unit (some high) []) done rest
      else .error .malformed

/-- The rest of a string, after its opening quote. The text must be valid UTF-8. -/
def stringRest (input : Bytes) : Except Flaw (String × Bytes) := do
  let (bytes, rest) ← stringBytes finishUnit .plain [] input
  match Utf8.decode bytes with
  | some text => .ok (text, rest)
  | none => .error .malformed

end Sessions.Json
