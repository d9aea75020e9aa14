import Sessions.Json.Printer
import Sessions.Json.Lexical
import Sessions.Proofs.Basic

/-!
# Reading back printed strings

A string read to its closing quote gives back the text that was escaped, whatever follows.
-/

namespace Sessions.Json

/-! ## One character -/

lemma hexUnit?_control : ∀ n, n < 32 → hexUnit? ['0'.toUInt8, '0'.toUInt8,
    (Hex.digit (n / 16)).toUInt8, (Hex.digit (n % 16)).toUInt8] = some n := by
  decide

lemma digit_lt : ∀ n, n < 16 → (Hex.digit n).toNat < 128 := by decide

variable {done tail : Bytes}

lemma stringBytes_plain {bs : Bytes}
    (h : ∀ b ∈ bs, b ≠ '"'.toUInt8 ∧ b ≠ '\\'.toUInt8 ∧ ¬b < 0x20) :
    stringBytes finishUnit .plain done (bs ++ tail) =
      stringBytes finishUnit .plain (bs.reverse ++ done) tail := by
  induction bs generalizing done with
  | nil => rfl
  | cons b bs ih =>
    obtain ⟨hq, he, hc⟩ := h b List.mem_cons_self
    rw [List.cons_append, stringBytes]
    simp only [hq, he, hc, if_false]
    rw [ih fun x hx => h x (List.mem_cons_of_mem b hx)]
    simp

lemma stringBytes_short {letter e : UInt8} (hu : letter ≠ 'u'.toUInt8)
    (he : shortEscape? letter = some e) :
    stringBytes finishUnit .plain done ('\\'.toUInt8 :: letter :: tail) =
      stringBytes finishUnit .plain (e :: done) tail := by
  have hsolidus : '\\'.toUInt8 ≠ '"'.toUInt8 := by decide
  rw [stringBytes]
  simp only [hsolidus, if_false, if_true]
  rw [stringBytes]
  simp only [hu, he, if_false]

lemma stringBytes_control {c : Char} (hc : c.toNat < 0x20) :
    stringBytes finishUnit .plain done
        (['\\'.toUInt8, 'u'.toUInt8, '0'.toUInt8, '0'.toUInt8, (Hex.digit (c.toNat / 16)).toUInt8,
          (Hex.digit (c.toNat % 16)).toUInt8] ++ tail) =
      stringBytes finishUnit .plain ((String.utf8EncodeChar c).reverse ++ done) tail := by
  have hsolidus : '\\'.toUInt8 ≠ '"'.toUInt8 := by decide
  have hlow : isLowSurrogate c.toNat = false := by
    simp only [isLowSurrogate, Bool.and_eq_false_iff, decide_eq_false_iff_not]
    omega
  have hhigh : isHighSurrogate c.toNat = false := by
    simp only [isHighSurrogate, Bool.and_eq_false_iff, decide_eq_false_iff_not]
    omega
  have hfinish : finishUnit none ['0'.toUInt8, '0'.toUInt8, (Hex.digit (c.toNat / 16)).toUInt8,
      (Hex.digit (c.toNat % 16)).toUInt8] = .ok (.plain, String.utf8EncodeChar c) := by
    unfold finishUnit
    simp only [hexUnit?_control c.toNat hc, hlow, hhigh, Bool.false_eq_true, if_false,
      codePointBytes, Char.ofNat_toNat]
  simp only [List.cons_append, List.nil_append]
  rw [stringBytes]
  simp only [hsolidus, if_false, if_true]
  rw [stringBytes]
  simp only [if_true]
  iterate 3
    rw [stringBytes]
    simp only [List.nil_append, List.cons_append, List.length_cons, List.length_nil,
      Nat.reduceAdd, Nat.reduceLT, if_true]
  rw [stringBytes]
  simp only [List.nil_append, List.cons_append, List.length_cons, List.length_nil, Nat.reduceAdd,
    Nat.lt_irrefl, if_false, hfinish]

/-- **An escaped character is read back.** -/
theorem stringBytes_escapeChar (c : Char) :
    stringBytes finishUnit .plain done (bytesOf (escapeChar c) ++ tail) =
      stringBytes finishUnit .plain ((String.utf8EncodeChar c).reverse ++ done) tail := by
  unfold escapeChar
  split
  next h => subst h; exact stringBytes_short (by decide) rfl
  split
  next h => subst h; exact stringBytes_short (by decide) rfl
  split
  next h => subst h; exact stringBytes_short (by decide) rfl
  split
  next h => subst h; exact stringBytes_short (by decide) rfl
  split
  next h => subst h; exact stringBytes_short (by decide) rfl
  split
  next h => subst h; exact stringBytes_short (by decide) rfl
  split
  next h => subst h; exact stringBytes_short (by decide) rfl
  split
  next hcontrol =>
    have hfirst := digit_lt (c.toNat / 16) (by omega)
    have hsecond := digit_lt (c.toNat % 16) (by omega)
    rw [← stringBytes_control hcontrol]
    simp only [bytesOf, List.flatMap_cons, List.flatMap_nil, List.append_nil,
      utf8EncodeChar_of_lt hfirst, utf8EncodeChar_of_lt hsecond]
    rfl
  next hquote hsolidus _ _ _ _ _ hcontrol =>
    simp only [bytesOf, List.flatMap_cons, List.flatMap_nil, List.append_nil]
    refine stringBytes_plain fun b hb => ?_
    by_cases hascii : c.toNat < 128
    · rw [utf8EncodeChar_of_lt hascii, List.mem_singleton] at hb
      subst hb
      have hnat : c.toUInt8.toNat = c.toNat := by
        have : c.toUInt8.toNat = c.toNat % 256 := rfl
        omega
      refine ⟨fun h => hquote ?_, fun h => hsolidus ?_, fun h => hcontrol ?_⟩
      · exact Char.toNat_inj.1 (hnat ▸ congrArg UInt8.toNat h)
      · exact Char.toNat_inj.1 (hnat ▸ congrArg UInt8.toNat h)
      · exact hnat ▸ UInt8.lt_iff_toNat_lt.1 h
    · -- the bytes of other characters are none of the ASCII range
      have hge := le_of_mem_utf8EncodeChar (by omega) hb
      refine ⟨fun h => ?_, fun h => ?_, fun h => ?_⟩
      · subst h; revert hge; decide
      · subst h; revert hge; decide
      · have := UInt8.lt_iff_toNat_lt.1 h
        have h20 : (0x20 : UInt8).toNat = 32 := rfl
        omega

/-! ## A whole string -/

lemma stringBytes_escaped (cs : List Char) :
    stringBytes finishUnit .plain done (bytesOf (cs.flatMap escapeChar) ++ '"'.toUInt8 :: tail) =
      .ok (done.reverse ++ bytesOf cs, tail) := by
  induction cs generalizing done with
  | nil => simp [stringBytes]
  | cons c cs ih =>
    rw [List.flatMap_cons, bytesOf, List.flatMap_append, List.append_assoc,
      stringBytes_escapeChar, ih]
    simp

/-- **A quoted text is read back**, after its opening quote. -/
theorem stringRest_quoted (text : String) (rest : Bytes) :
    stringRest (bytesOf (text.toList.flatMap escapeChar) ++ '"'.toUInt8 :: rest) =
      .ok (text, rest) := by
  rw [stringRest, stringBytes_escaped, ok_bind]
  simp only [List.reverse_nil, List.nil_append, bytesOf_toList, Utf8.decode_encode]

lemma bytesOf_quoted (text : String) :
    bytesOf (quoted text) =
      '"'.toUInt8 :: bytesOf (text.toList.flatMap escapeChar) ++ ['"'.toUInt8] := by
  have hquote : String.utf8EncodeChar '"' = ['"'.toUInt8] := utf8EncodeChar_of_lt (by decide)
  rw [quoted, bytesOf, List.flatMap_append, List.flatMap_cons, hquote]
  simp [hquote]

lemma length_le_bytes_str (text : String) : text.length ≤ (Json.str text).bytes.length := by
  have hescape : ∀ c, escapeChar c ≠ [] := by
    intro c
    unfold escapeChar
    repeat' split
    all_goals exact List.cons_ne_nil _ _
  have hencode : ∀ c, String.utf8EncodeChar c ≠ [] := by
    intro c
    unfold String.utf8EncodeChar
    simp only
    repeat' split
    all_goals exact List.cons_ne_nil _ _
  have hbytes : (Json.str text).bytes = bytesOf (quoted text) := Utf8.encode_ofList _
  rw [hbytes, bytesOf_quoted, List.cons_append, List.length_cons, List.length_append]
  have hchars := length_le_flatMap hescape text.toList
  have hlength := length_le_flatMap hencode (text.toList.flatMap escapeChar)
  rw [String.length_toList] at hchars
  change _ ≤ (bytesOf _).length at hlength
  omega

end Sessions.Json
