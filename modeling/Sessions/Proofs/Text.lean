import Mathlib.Tactic.Lemma
import Sessions.Text.Hex
import Sessions.Text.Utf8

/-!
# Bytes of texts

A text is determined by its bytes in UTF-8, which are the bytes of its characters one after the
other, and bytes by the hexadecimal digits that spell them.
-/

namespace Sessions

namespace Utf8

lemma decode_encode (text : String) : decode (encode text) = some text := by
  have h : (⟨text.toByteArray.data.toList.toArray⟩ : ByteArray) = text.toByteArray := by simp
  simp only [decode, encode, h, String.fromUTF8?, dif_pos text.isValidUTF8]
  rfl

lemma eq_encode_of_decode {bytes : Bytes} {text : String}
    (h : decode bytes = some text) : bytes = encode text := by
  simp only [decode, String.fromUTF8?] at h
  split at h
  · cases h
    simp [encode, String.fromUTF8]
  · cases h

lemma encode_injective {a b : String} (h : encode a = encode b) : a = b :=
  Option.some.inj (by rw [← decode_encode a, ← decode_encode b, h])

end Utf8

abbrev bytesOf (cs : List Char) : Bytes := cs.flatMap String.utf8EncodeChar

lemma length_le_flatMap {α β : Type} {f : α → List β} (h : ∀ a, f a ≠ []) (l : List α) :
    l.length ≤ (l.flatMap f).length := by
  induction l with
  | nil => simp
  | cons a l ih =>
    have hpos := List.length_pos_iff.2 (h a)
    rw [List.flatMap_cons, List.length_append, List.length_cons]
    omega

lemma Utf8.encode_ofList (cs : List Char) : Utf8.encode (String.ofList cs) = bytesOf cs := by
  simp [Utf8.encode, List.utf8Encode]

lemma bytesOf_toList (text : String) : bytesOf text.toList = Utf8.encode text := by
  rw [← Utf8.encode_ofList, String.ofList_toList]

lemma length_bytesOf_le (cs : List Char) : (bytesOf cs).length ≤ 4 * cs.length := by
  induction cs with
  | nil => exact Nat.le_refl 0
  | cons c rest ih =>
    have hsize := String.length_utf8EncodeChar c
    have hle := c.utf8Size_le_four
    rw [bytesOf, List.flatMap_cons, List.length_append, List.length_cons, hsize]
    change c.utf8Size + (bytesOf rest).length ≤ 4 * (rest.length + 1)
    omega

lemma utf8EncodeChar_of_lt {c : Char} (h : c.toNat < 128) :
    String.utf8EncodeChar c = [c.toUInt8] := by
  have hv : c.val.toNat ≤ 0x7f := Nat.le_of_lt_succ h
  rw [String.utf8EncodeChar]
  simp only [hv, if_true]
  rfl

lemma bytesOf_cons {c : Char} (h : c.toNat < 128) (cs : List Char) :
    bytesOf (c :: cs) = c.toUInt8 :: bytesOf cs := by
  rw [bytesOf, List.flatMap_cons, utf8EncodeChar_of_lt h, List.singleton_append]

lemma bytesOf_append (cs ds : List Char) : bytesOf (cs ++ ds) = bytesOf cs ++ bytesOf ds :=
  List.flatMap_append

lemma le_of_mem_utf8EncodeChar {c : Char} (h : 128 ≤ c.toNat) {b : UInt8}
    (hb : b ∈ String.utf8EncodeChar c) : 128 ≤ b.toNat := by
  have hv : ¬c.val.toNat ≤ 0x7f := Nat.not_le_of_gt h
  rw [String.utf8EncodeChar] at hb
  simp only [hv, if_false] at hb
  split at hb
  · simp only [List.mem_cons, List.not_mem_nil, or_false] at hb
    rcases hb with rfl | rfl <;> simp <;> omega
  · split at hb
    · simp only [List.mem_cons, List.not_mem_nil, or_false] at hb
      rcases hb with rfl | rfl | rfl <;> simp <;> omega
    · simp only [List.mem_cons, List.not_mem_nil, or_false] at hb
      rcases hb with rfl | rfl | rfl | rfl <;> simp <;> omega

namespace Hex

lemma value?_digit : ∀ n, n < 16 → value? (digit n) = some n := by decide

lemma decodeChars_flatMap_ofByte (bytes : List UInt8) :
    decodeChars (bytes.flatMap ofByte) = some bytes := by
  induction bytes with
  | nil => rfl
  | cons b rest ih =>
    have hb := b.toNat_lt
    have hhigh := value?_digit (b.toNat / 16) (by omega)
    have hlow := value?_digit (b.toNat % 16) (by omega)
    have hbyte : UInt8.ofNat (16 * (b.toNat / 16) + b.toNat % 16) = b := by
      rw [Nat.div_add_mod]; simp
    simp only [List.flatMap_cons, ofByte, List.cons_append, List.nil_append, decodeChars, hhigh,
      hlow, ih, hbyte]

lemma decode_encode (bytes : List UInt8) : decode (encode bytes) = some bytes := by
  simp [decode, encode, decodeChars_flatMap_ofByte]

end Hex

end Sessions
