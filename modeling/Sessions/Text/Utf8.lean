/-!
# UTF-8

Texts as lists of bytes. Decoding refuses bytes that are not valid UTF-8 and inverts encoding on
all others.
-/

namespace Sessions

/-- Bytes as lists, which proofs can take apart. -/
abbrev Bytes := List UInt8

namespace Utf8

def encode (text : String) : Bytes := text.toByteArray.data.toList

def decode (bytes : Bytes) : Option String := String.fromUTF8? ⟨bytes.toArray⟩

end Utf8

end Sessions
