import Sessions.Json.Basic
import Sessions.Text.Hex
import Sessions.Text.Utf8

/-!
# Compact JSON text

Values are written without spaces. A string escapes the quote, the reverse solidus and the
characters below U+0020, and nothing else. A double always shows a point or an exponent, so that
it never looks like a whole number.
-/

namespace Sessions.Json

/-- Doubles are positional from `0.00001` up to sixteen places before the point. -/
def doubleLayout : Decimal.Layout := ⟨-5, 15⟩

/-- A character as it stands inside a string. -/
def escapeChar (c : Char) : List Char :=
  if c = '"' then ['\\', '"']
  else if c = '\\' then ['\\', '\\']
  else if c = '\x08' then ['\\', 'b']
  else if c = '\x0c' then ['\\', 'f']
  else if c = '\n' then ['\\', 'n']
  else if c = '\r' then ['\\', 'r']
  else if c = '\t' then ['\\', 't']
  else if c.toNat < 0x20 then
    ['\\', 'u', '0', '0', Hex.digit (c.toNat / 16), Hex.digit (c.toNat % 16)]
  else [c]

/-- A string between quotes. -/
def quoted (text : String) : List Char :=
  '"' :: text.toList.flatMap escapeChar ++ ['"']

def intChars (n : Int) : List Char :=
  if n < 0 then '-' :: Nat.toDigits 10 n.natAbs else Nat.toDigits 10 n.natAbs

mutual

def chars : Json → List Char
  | null => ['n', 'u', 'l', 'l']
  | bool true => ['t', 'r', 'u', 'e']
  | bool false => ['f', 'a', 'l', 's', 'e']
  | int n => intChars n
  | double x => x.render doubleLayout
  | str text => quoted text
  | arr items => '[' :: itemsChars items ++ [']']
  | obj members => '\x7b' :: membersChars members ++ ['\x7d']

def itemsChars : List Json → List Char
  | [] => []
  | [x] => chars x
  | x :: y :: rest => chars x ++ ',' :: itemsChars (y :: rest)

def membersChars : List (String × Json) → List Char
  | [] => []
  | [(name, x)] => quoted name ++ ':' :: chars x
  | (name, x) :: m :: rest => quoted name ++ ':' :: (chars x ++ ',' :: membersChars (m :: rest))

end

/-- The compact text of a value. -/
def render (v : Json) : String := String.ofList v.chars

/-- The bytes of the compact text. -/
def bytes (v : Json) : Bytes := Utf8.encode v.render

end Sessions.Json
