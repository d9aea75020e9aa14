import Sessions.Json.Parser

/-!
# Reading documents of a known shape

Readers for documents whose fields and types are fixed. They report the first flaw from left to
right: a value of the wrong type is a mismatch, though a scalar is read to its end before that is
said; a repeated field is noticed at its second name and a missing one at the closing brace.

A record may also be written as the array of its fields in their order, where trailing fields that
are not required may be missing. A choice among names is written as the name or as an object whose
only member has that name and the value `null`.
-/

namespace Sessions.Json

/-- Reads a value; the first argument is how many arrays and objects may still be opened. -/
abbrev Reader (α : Type) := Nat → Bytes → Except Flaw (α × Bytes)

namespace Reader

variable {α σ : Type}

/-- Any value. -/
def any : Reader Json := fun depth input => value (enough input) depth input

/-- The flaw of a value that has not the type wanted. -/
def wrongType (b : UInt8) (rest : Bytes) : Flaw :=
  if b = '['.toUInt8 ∨ b = '\x7b'.toUInt8 then .mismatch
  else match scalar b rest with
    | .ok _ => .mismatch
    | .error flaw => flaw

/-- A string. -/
def text : Reader String := fun _ input =>
  match skipSpace input with
  | [] => .error .ended
  | b :: rest => if b = '"'.toUInt8 then stringRest rest else .error (wrongType b rest)

/-- A whole number of 64 signed bits. -/
def integer : Reader Int64 := fun _ input =>
  match skipSpace input with
  | [] => .error .ended
  | b :: rest =>
    if startsNumber b then
      match number (b :: rest) with
      | .error flaw => .error flaw
      | .ok (int n, rest) =>
        if -2 ^ 63 ≤ n ∧ n < 2 ^ 63 then .ok (Int64.ofInt n, rest) else .error .mismatch
      | .ok _ => .error .mismatch
    else .error (wrongType b rest)

/-- The value, or `null` for none. -/
def optional (read : Reader α) : Reader (Option α) := fun depth input =>
  match skipSpace input with
  | [] => .error .ended
  | b :: rest =>
    if b = 'n'.toUInt8 then do
      let rest ← expect (ascii "ull") rest
      .ok (none, rest)
    else do
      let (x, rest) ← read depth (b :: rest)
      .ok (some x, rest)

/-- The items of an array up to its closing bracket. -/
def elements (read : Reader α) : (fuel : Nat) → Reader (List α)
  | 0, _, _ => .error .malformed
  | fuel + 1, depth, input => do
    let (x, rest) ← read depth input
    let (again, rest) ← more ']'.toUInt8 rest
    if again then
      let (others, rest) ← elements read fuel depth rest
      .ok (x :: others, rest)
    else .ok ([x], rest)

/-- An array of values that the same reader reads. -/
def list (read : Reader α) : Reader (List α) := fun depth input =>
  match skipSpace input with
  | [] => .error .ended
  | b :: rest =>
    if b = '['.toUInt8 then
      match depth with
      | 0 => .error .malformed
      | depth + 1 => do
        let (empty, rest) ← closes ']'.toUInt8 rest
        if empty then .ok ([], rest) else elements read rest.length depth rest
    else .error (wrongType b rest)

/-- Any values by name; the last of several with one name stays. -/
def table : Reader (Table Json) := fun depth input =>
  match skipSpace input with
  | [] => .error .ended
  | b :: rest =>
    if b = '\x7b'.toUInt8 then
      match depth with
      | 0 => .error .malformed
      | depth + 1 => do
        let (empty, rest) ← closes '\x7d'.toUInt8 rest
        if empty then .ok (∅, rest)
        else
          let (found, rest) ← members (enough rest) depth rest
          .ok (Table.ofList found, rest)
    else .error (wrongType b rest)

/-- The option that a name stands for. -/
def named (options : List (String × α)) (name : String) : Except Flaw α :=
  match options.lookup name with
  | some x => .ok x
  | none => .error .mismatch

/-- The value `null`. -/
def null : Reader Unit := fun _ input =>
  match skipSpace input with
  | [] => .error .ended
  | b :: rest =>
    if b = 'n'.toUInt8 then do
      let rest ← expect (ascii "ull") rest
      .ok ((), rest)
    else .error (wrongType b rest)

/-- One of several named options. -/
def choice (options : List (String × α)) : Reader α := fun depth input =>
  match skipSpace input with
  | [] => .error .ended
  | b :: rest =>
    if b = '"'.toUInt8 then do
      let (name, rest) ← stringRest rest
      let x ← named options name
      .ok (x, rest)
    else if b = '\x7b'.toUInt8 then
      match depth with
      | 0 => .error .malformed
      | depth + 1 => do
        let (name, rest) ← memberName rest
        let x ← named options name
        let rest ← colon rest
        let ((), rest) ← null depth rest
        let (closed, rest) ← closes '\x7d'.toUInt8 rest
        if closed then .ok (x, rest) else .error .malformed
    else .error .malformed

/-! ## Records -/

/-- A field of a record: reading it gives the change to make to the record. -/
structure Field (σ : Type) where
  name : String
  required : Bool
  read : Reader (σ → σ)

/-- A field from a reader of its value and what the value does to the record. -/
def Field.of (name : String) (required : Bool) (read : Reader α) (set : σ → α → σ) : Field σ where
  name := name
  required := required
  read := fun depth input => do
    let (x, rest) ← read depth input
    .ok (fun record => set record x, rest)

/-- The members of a record up to the closing brace; `seen` holds the fields met so far. -/
def recordMembers (fields : List (Field σ)) :
    (fuel : Nat) → (seen : List String) → σ → Reader σ
  | 0, _, _, _, _ => .error .malformed
  | fuel + 1, seen, start, depth, input => do
    let (name, rest) ← memberName input
    match fields.find? (·.name = name) with
    | some field =>
      if name ∈ seen then .error .mismatch
      else
        let rest ← colon rest
        let (change, rest) ← field.read depth rest
        next fuel (name :: seen) (change start) depth rest
    | none =>
      let rest ← colon rest
      let rest ← pass (enough rest) rest
      next fuel seen start depth rest
where
  /-- After a member: another one, or the end, where no required field may be missing. -/
  next (fuel : Nat) (seen : List String) (start : σ) (depth : Nat) (input : Bytes) :
      Except Flaw (σ × Bytes) := do
    let (again, rest) ← more '\x7d'.toUInt8 input
    if again then recordMembers fields fuel seen start depth rest
    else if fields.all fun f => !f.required || f.name ∈ seen then .ok (start, rest)
    else .error .mismatch

/-- The fields of a record in their order, as the items of an array up to the closing bracket. -/
def recordItems (first : Bool) (start : σ) : List (Field σ) → Reader σ
  | [], _, input =>
    match skipSpace input with
    | [] => .error .ended
    | b :: rest => if b = ']'.toUInt8 then .ok (start, rest) else .error .malformed
  | field :: fields, depth, input => do
    let (again, rest) ← if first then (closes ']'.toUInt8 input).map fun (e, r) => (!e, r)
      else more ']'.toUInt8 input
    if again then
      let (change, rest) ← field.read depth rest
      recordItems false (change start) fields depth rest
    else if (field :: fields).all fun f => !f.required then .ok (start, rest)
    else .error .mismatch

/-- A record with the given fields; those that are absent keep their value in `start`. -/
def record (fields : List (Field σ)) (start : σ) : Reader σ := fun depth input =>
  match skipSpace input with
  | [] => .error .ended
  | b :: rest =>
    if b = '\x7b'.toUInt8 then
      match depth with
      | 0 => .error .malformed
      | depth + 1 => do
        let (empty, after) ← closes '\x7d'.toUInt8 rest
        if empty then
          if fields.all fun f => !f.required then .ok (start, after) else .error .mismatch
        else recordMembers fields rest.length [] start depth rest
    else if b = '['.toUInt8 then
      match depth with
      | 0 => .error .malformed
      | depth + 1 => recordItems true start fields depth rest
    else .error (wrongType b rest)

/-! ## Tagged records -/

/-- What stands beside the tag: members by name, or items in order. -/
inductive Content where
  | members (found : List (String × Json))
  | items (found : List Json)

/-- Members of a tagged record up to the closing brace; the tag may stand anywhere among them. -/
def taggedMembers (tag : String) (options : List (String × α)) :
    (fuel : Nat) → Option α → List (String × Json) → Reader (α × Content)
  | 0, _, _, _, _ => .error .malformed
  | fuel + 1, kind, found, depth, input => do
    let (name, rest) ← memberName input
    if name = tag then
      if kind.isSome then .error .mismatch
      else
        let rest ← colon rest
        let (option, rest) ← text depth rest
        let x ← named options option
        next fuel (some x) found depth rest
    else
      let rest ← colon rest
      let (item, rest) ← any depth rest
      next fuel kind (found ++ [(name, item)]) depth rest
where
  next (fuel : Nat) (kind : Option α) (found : List (String × Json)) (depth : Nat)
      (input : Bytes) : Except Flaw ((α × Content) × Bytes) := do
    let (again, rest) ← more '\x7d'.toUInt8 input
    if again then taggedMembers tag options fuel kind found depth rest
    else match kind with
      | some x => .ok ((x, .members found), rest)
      | none => .error .mismatch

/-- A record of which one field, the tag, says what the others are. As an array its first item is
the tag. -/
def tagged (tag : String) (options : List (String × α)) : Reader (α × Content) :=
  fun depth input =>
  match skipSpace input with
  | [] => .error .ended
  | b :: rest =>
    if b = '\x7b'.toUInt8 then
      match depth with
      | 0 => .error .malformed
      | depth + 1 => do
        let (empty, rest) ← closes '\x7d'.toUInt8 rest
        if empty then .error .mismatch
        else taggedMembers tag options rest.length none [] depth rest
    else if b = '['.toUInt8 then
      match depth with
      | 0 => .error .malformed
      | depth + 1 => do
        let (empty, rest) ← closes ']'.toUInt8 rest
        if empty then .error .mismatch
        else
          let (option, rest) ← text depth rest
          let x ← named options option
          let (again, rest) ← more ']'.toUInt8 rest
          if again then
            let (others, rest) ← elements any (rest.length + 1) depth rest
            .ok ((x, .items others), rest)
          else .ok ((x, .items []), rest)
    else .error (wrongType b rest)

end Reader

/-- Reads a whole text: after the value only white space may follow. -/
def readWith {α : Type} (read : Reader α) (input : Bytes) : Except Flaw α := do
  let (x, rest) ← read maxDepth input
  if (skipSpace rest).isEmpty then .ok x else .error .malformed

/-- The value of a whole text. -/
def read (input : Bytes) : Except Flaw Json := readWith Reader.any input

end Sessions.Json
