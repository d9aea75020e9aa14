/-!
# Hexadecimal text

Bytes as pairs of lower-case hexadecimal digits. Reading also takes upper-case digits and refuses
a text of odd length.
-/

namespace Sessions.Hex

/-- The digit with value `n`, for `n < 16`. -/
def digit (n : Nat) : Char :=
  if n < 10 then Char.ofNat (48 + n) else Char.ofNat (87 + n)

def ofByte (b : UInt8) : List Char := [digit (b.toNat / 16), digit (b.toNat % 16)]

def encode (bytes : List UInt8) : String := String.ofList (bytes.flatMap ofByte)

/-- The value of a digit of either case. -/
def value? (c : Char) : Option Nat :=
  let n := c.toNat
  if 48 ≤ n ∧ n ≤ 57 then some (n - 48)
  else if 97 ≤ n ∧ n ≤ 102 then some (n - 87)
  else if 65 ≤ n ∧ n ≤ 70 then some (n - 55)
  else none

def decodeChars : List Char → Option (List UInt8)
  | [] => some []
  | [_] => none
  | a :: b :: rest =>
    match value? a, value? b, decodeChars rest with
    | some x, some y, some bytes => some (UInt8.ofNat (16 * x + y) :: bytes)
    | _, _, _ => none

def decode (text : String) : Option (List UInt8) := decodeChars text.toList

end Sessions.Hex
