import Sessions.Json.Lexical

/-!
# Reading JSON values

A value may open a given number of arrays and objects inside each other, `maxDepth` for a whole
text. The last of several members with one name stays. A value that nobody needs can be passed
over (`pass`): it has to be JSON, but its depth, the size of its numbers and the text of its
strings do not matter.
-/

namespace Sessions.Json

/-- How many arrays and objects a text may nest. -/
def maxDepth : Nat := 127

/-- What follows a member or an item: a comma, and true, or the closing byte, and false. -/
def more (close : UInt8) (input : Bytes) : Except Flaw (Bool × Bytes) :=
  match skipSpace input with
  | [] => .error .ended
  | b :: rest =>
    if b = ','.toUInt8 then .ok (true, rest)
    else if b = close then .ok (false, rest)
    else .error .malformed

/-- Whether an array or object that was just opened closes at once. -/
def closes (close : UInt8) (input : Bytes) : Except Flaw (Bool × Bytes) :=
  match skipSpace input with
  | [] => .error .ended
  | b :: rest => if b = close then .ok (true, rest) else .ok (false, b :: rest)

/-- The quoted name of a member. -/
def memberName (input : Bytes) : Except Flaw (String × Bytes) :=
  match skipSpace input with
  | [] => .error .ended
  | b :: rest => if b = '"'.toUInt8 then stringRest rest else .error .malformed

def colon (input : Bytes) : Except Flaw Bytes :=
  match skipSpace input with
  | [] => .error .ended
  | b :: rest => if b = ':'.toUInt8 then .ok rest else .error .malformed

def startsNumber (b : UInt8) : Bool := b = '-'.toUInt8 || isDigit b

/-- The value that starts with the byte `b`, if it is neither an array nor an object. -/
def scalar (b : UInt8) (rest : Bytes) : Except Flaw (Json × Bytes) :=
  if b = 'n'.toUInt8 then do
    let rest ← expect (ascii "ull") rest
    .ok (null, rest)
  else if b = 't'.toUInt8 then do
    let rest ← expect (ascii "rue") rest
    .ok (bool true, rest)
  else if b = 'f'.toUInt8 then do
    let rest ← expect (ascii "alse") rest
    .ok (bool false, rest)
  else if b = '"'.toUInt8 then do
    let (text, rest) ← stringRest rest
    .ok (str text, rest)
  else if startsNumber b then number (b :: rest)
  else .error .malformed

mutual

/-- Reads one value; `depth` more arrays and objects may be opened. -/
def value : (fuel depth : Nat) → Bytes → Except Flaw (Json × Bytes)
  | 0, _, _ => .error .malformed
  | fuel + 1, depth, input =>
    match skipSpace input with
    | [] => .error .ended
    | b :: rest =>
      if b = '['.toUInt8 then
        match depth with
        | 0 => .error .malformed
        | depth + 1 => do
          let (empty, rest) ← closes ']'.toUInt8 rest
          if empty then .ok (arr [], rest)
          else
            let (items, rest) ← items fuel depth rest
            .ok (arr items, rest)
      else if b = '\x7b'.toUInt8 then
        match depth with
        | 0 => .error .malformed
        | depth + 1 => do
          let (empty, rest) ← closes '\x7d'.toUInt8 rest
          if empty then .ok (obj [], rest)
          else
            let (members, rest) ← members fuel depth rest
            .ok (ofMembers members, rest)
      else scalar b rest

/-- Reads the items of an array up to its closing bracket. -/
def items : (fuel depth : Nat) → Bytes → Except Flaw (List Json × Bytes)
  | 0, _, _ => .error .malformed
  | fuel + 1, depth, input => do
    let (item, rest) ← value fuel depth input
    let (again, rest) ← more ']'.toUInt8 rest
    if again then
      let (others, rest) ← items fuel depth rest
      .ok (item :: others, rest)
    else .ok ([item], rest)

/-- Reads the members of an object, in their order, up to its closing brace. -/
def members : (fuel depth : Nat) → Bytes → Except Flaw (List (String × Json) × Bytes)
  | 0, _, _ => .error .malformed
  | fuel + 1, depth, input => do
    let (name, rest) ← memberName input
    let rest ← colon rest
    let (item, rest) ← value fuel depth rest
    let (again, rest) ← more '\x7d'.toUInt8 rest
    if again then
      let (others, rest) ← members fuel depth rest
      .ok ((name, item) :: others, rest)
    else .ok ([(name, item)], rest)

end

/-- Enough steps to read any value of the input: each byte takes at most two. -/
def enough (input : Bytes) : Nat := 2 * input.length + 2

/-! ## Passing over values -/

/-- A number that nobody reads is flawed in one way only. -/
def passNumber (input : Bytes) : Except Flaw Bytes :=
  match numeral input with
  | .ok (_, rest) => .ok rest
  | .error _ => .error .malformed

def passString (input : Bytes) : Except Flaw Bytes := do
  let (_, rest) ← stringBytes passUnit .plain [] input
  .ok rest

def passName (input : Bytes) : Except Flaw Bytes :=
  match skipSpace input with
  | [] => .error .ended
  | b :: rest => if b = '"'.toUInt8 then passString rest else .error .malformed

def passScalar (b : UInt8) (rest : Bytes) : Except Flaw Bytes :=
  if b = 'n'.toUInt8 then expect (ascii "ull") rest
  else if b = 't'.toUInt8 then expect (ascii "rue") rest
  else if b = 'f'.toUInt8 then expect (ascii "alse") rest
  else if b = '"'.toUInt8 then passString rest
  else if startsNumber b then passNumber (b :: rest)
  else .error .malformed

mutual

/-- The bytes after one value. -/
def pass : (fuel : Nat) → Bytes → Except Flaw Bytes
  | 0, _ => .error .malformed
  | fuel + 1, input =>
    match skipSpace input with
    | [] => .error .ended
    | b :: rest =>
      if b = '['.toUInt8 then do
        let (empty, rest) ← closes ']'.toUInt8 rest
        if empty then .ok rest else passItems fuel rest
      else if b = '\x7b'.toUInt8 then do
        let (empty, rest) ← closes '\x7d'.toUInt8 rest
        if empty then .ok rest else passMembers fuel rest
      else passScalar b rest

def passItems : (fuel : Nat) → Bytes → Except Flaw Bytes
  | 0, _ => .error .malformed
  | fuel + 1, input => do
    let rest ← pass fuel input
    let (again, rest) ← more ']'.toUInt8 rest
    if again then passItems fuel rest else .ok rest

def passMembers : (fuel : Nat) → Bytes → Except Flaw Bytes
  | 0, _ => .error .malformed
  | fuel + 1, input => do
    let rest ← passName input
    let rest ← colon rest
    let rest ← pass fuel rest
    let (again, rest) ← more '\x7d'.toUInt8 rest
    if again then passMembers fuel rest else .ok rest

end

end Sessions.Json
