import Sessions.Fault

/-!
# Wire fields

The fields of a binary payload: whole numbers of fixed width, most significant byte first, and
byte strings behind a length of 32 signed bits. Writers give bytes; readers take a field off the
front of the input and give back what follows it. Every field has a name for messages. Each reader
inverts its writer, whatever follows the field.
-/

namespace Sessions

namespace Wire

/-- The `width` lowest bytes of a number, most significant first. -/
def ofNat : (width n : Nat) → Bytes
  | 0, _ => []
  | width + 1, n => ofNat width (n / 256) ++ [UInt8.ofNat (n % 256)]

/-- The number that bytes spell, most significant first. -/
def toNat (bytes : Bytes) : Nat := bytes.foldl (fun n b => 256 * n + b.toNat) 0

/-! ## Writing -/

/-- A whole number of 32 signed bits. -/
def putInt32 (x : Int32) : Bytes := ofNat 4 x.toUInt32.toNat

/-- A whole number of 64 signed bits. -/
def putInt64 (x : Int64) : Bytes := ofNat 8 x.toUInt64.toNat

/-- A length has to fit 31 bits. -/
def putLength (field : String) (n : Nat) : Except Fault Bytes :=
  if n < 2 ^ 31 then .ok (ofNat 4 n) else .error (.tooLarge field)

/-- A byte string behind its length. -/
def putBytes (field : String) (bytes : Bytes) : Except Fault Bytes := do
  let length ← putLength field bytes.length
  .ok (length ++ bytes)

/-- The UTF-8 bytes of a text behind their length. -/
def putText (field : String) (text : String) : Except Fault Bytes :=
  putBytes field (Utf8.encode text)

/-! ## Reading -/

/-- A field of fixed width. -/
def takeFixed (width : Nat) (field : String) (input : Bytes) : Except Fault (Bytes × Bytes) :=
  if input.length < width then .error (.shortField field)
  else .ok (input.take width, input.drop width)

/-- A field whose length is known from the input. -/
def takeCounted (count : Nat) (field : String) (input : Bytes) : Except Fault (Bytes × Bytes) :=
  if input.length < count then .error (.shortBytes field count input.length)
  else .ok (input.take count, input.drop count)

def takeByte (field : String) : Bytes → Except Fault (UInt8 × Bytes)
  | [] => .error (.shortField field)
  | b :: rest => .ok (b, rest)

def takeInt32 (field : String) (input : Bytes) : Except Fault (Int32 × Bytes) := do
  let (bytes, rest) ← takeFixed 4 field input
  .ok (Int32.ofNat (toNat bytes), rest)

def takeInt64 (field : String) (input : Bytes) : Except Fault (Int64 × Bytes) := do
  let (bytes, rest) ← takeFixed 8 field input
  .ok (Int64.ofNat (toNat bytes), rest)

/-- A length, which may not be negative. -/
def takeLength (field : String) (input : Bytes) : Except Fault (Nat × Bytes) := do
  let (length, rest) ← takeInt32 field input
  if length.toInt < 0 then .error (.negativeLength length field)
  else .ok (length.toInt.toNat, rest)

def takeBytes (field : String) (input : Bytes) : Except Fault (Bytes × Bytes) := do
  let (count, rest) ← takeLength field input
  takeCounted count field rest

/-- Bytes as text. -/
def asText (field : String) (bytes : Bytes) : Except Fault String :=
  match Utf8.decode bytes with
  | some text => .ok text
  | none => .error (.notUtf8 field)

def takeText (field : String) (input : Bytes) : Except Fault (String × Bytes) := do
  let (bytes, rest) ← takeBytes field input
  let text ← asText field bytes
  .ok (text, rest)

end Wire

end Sessions
