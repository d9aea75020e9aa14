/-!
# Blank text

A text is blank when each of its characters has the Unicode property `White_Space`. Twenty-five
code points have it; they are listed here as ten ranges.
-/

namespace Sessions

/-- First and last code point of each range with the property `White_Space`. -/
def blankRanges : List (Nat × Nat) :=
  [(0x9, 0xD), (0x20, 0x20), (0x85, 0x85), (0xA0, 0xA0), (0x1680, 0x1680), (0x2000, 0x200A),
    (0x2028, 0x2029), (0x202F, 0x202F), (0x205F, 0x205F), (0x3000, 0x3000)]

def isBlankChar (c : Char) : Bool :=
  blankRanges.any fun r => r.1 ≤ c.toNat && c.toNat ≤ r.2

/-- Nothing is left of a blank text once white space is cut from both its ends. -/
def isBlank (text : String) : Bool :=
  text.toList.all isBlankChar

/-- How a character of a blank text is shown in a message: a space stays as it is, and the
characters that would not be visible are written as escapes. -/
def showBlankChar (c : Char) : List Char :=
  if c = ' ' then [' ']
  else if c = '\t' then ['\\', 't']
  else if c = '\n' then ['\\', 'n']
  else if c = '\r' then ['\\', 'r']
  else ['\\', 'u', '\x7b'] ++ Nat.toDigits 16 c.toNat ++ ['\x7d']

/-- A blank text between quotes. -/
def showBlank (text : String) : String :=
  String.ofList ('"' :: text.toList.flatMap showBlankChar ++ ['"'])

end Sessions
