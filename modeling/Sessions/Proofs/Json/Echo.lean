import Sessions.Proofs.Json.Validity

/-!
# What becomes of a value that is written and read

Not every value comes back from its own text: a text may be too deep to be read, and a double may
be read as its neighbour. `Json.echo` is what does come back. Three things can be asked of a value:
that its text is read at all, that what is read prints the same, and that it is the same.

One thing is true of every value: a text is read from the text of a text only, so reading never
makes a principal out of something that was none.
-/

namespace Sessions.Json

/-- The text of the value can be read. -/
def Legible (v : Json) : Prop := ∃ w, Json.read v.bytes = .ok w

/-- What is read from the text of the value prints as that text. -/
def Reprints (v : Json) : Prop := ∃ w, Json.read v.bytes = .ok w ∧ w.bytes = v.bytes

/-- The value is read from its own text. -/
def ReadsBack (v : Json) : Prop := Json.read v.bytes = .ok v

/-- What is read from the text of a value, or the value when its text cannot be read. -/
def echo (v : Json) : Json :=
  match Json.read v.bytes with
  | .ok w => w
  | .error _ => v

/-- If anything is read from the text of the value, it prints as that text. -/
def Steady (v : Json) : Prop := v.echo.bytes = v.bytes

instance (v : Json) : Decidable v.ReadsBack := inferInstanceAs (Decidable (_ = _))

instance (v : Json) : Decidable v.Steady := inferInstanceAs (Decidable (_ = _))

variable {v w : Json}

lemma echo_of_read (h : Json.read v.bytes = .ok w) : v.echo = w := by
  rw [echo, h]

lemma ReadsBack.echo (h : v.ReadsBack) : v.echo = v := echo_of_read h

lemma ReadsBack.reprints (h : v.ReadsBack) : v.Reprints := ⟨v, h, rfl⟩

lemma Reprints.legible (h : v.Reprints) : v.Legible :=
  let ⟨w, hread, _⟩ := h
  ⟨w, hread⟩

lemma Reprints.bytes_echo (h : v.Reprints) : v.echo.bytes = v.bytes := by
  obtain ⟨w, hread, hbytes⟩ := h
  rw [echo_of_read hread, hbytes]

/-- Being steady is a matter of the text alone. -/
lemma Steady.congr (h : v.Steady) (hbytes : w.bytes = v.bytes) : w.Steady := by
  unfold Steady echo at *
  rw [hbytes]
  cases hread : Json.read v.bytes with
  | ok u => simpa [hread] using h
  | error flaw => exact hbytes

lemma Valid.legible (h : v.Valid) (hdepth : v.depth ≤ maxDepth) : v.Legible :=
  ⟨v.reread, read_bytes h hdepth⟩

lemma Valid.echo_eq (h : v.Valid) (hdepth : v.depth ≤ maxDepth) : v.echo = v.reread :=
  echo_of_read (read_bytes h hdepth)

lemma Valid.echo (h : v.Valid) (hdepth : v.depth ≤ maxDepth) :
    v.echo.Valid ∧ v.echo.depth = v.depth := by
  rw [h.echo_eq hdepth]
  exact valid_reread h

lemma ReadsBack.valid (h : v.ReadsBack) : v.Valid ∧ v.depth ≤ maxDepth := valid_of_read h

lemma readsBack_of_readable (h : v.Readable) (hdepth : v.depth ≤ maxDepth) : v.ReadsBack := by
  obtain ⟨hvalid, hsame⟩ := h.valid
  have hread := read_bytes hvalid hdepth
  rwa [hsame] at hread

/-! ## Texts are read from texts only -/

lemma text?_scalar {b : UInt8} {input rest : Bytes} (h : scalar b input = .ok (w, rest))
    (hb : b ≠ '"'.toUInt8) : w.text? = none := by
  rcases scalar_cases h with rfl | ⟨x, rfl⟩ | ⟨hquote, -⟩ | h
  · rfl
  · rfl
  · exact absurd hquote hb
  · rcases number_cases h with ⟨x, rfl⟩ | ⟨n, rfl, -⟩ <;> rfl

lemma text?_value {fuel depth : Nat} {input rest : Bytes}
    (h : value fuel depth input = .ok (w, rest))
    (hquote : (skipSpace input).head? ≠ some '"'.toUInt8) : w.text? = none := by
  cases fuel with
  | zero => simp [value] at h
  | succ fuel =>
    rcases value_cases h with ⟨below, xs, -, rfl, -⟩ | ⟨below, ms, -, rfl, -⟩ |
      ⟨b, tl, hinput, hscalar⟩
    · rfl
    · rfl
    · refine text?_scalar hscalar ?_
      rintro rfl
      rw [hinput] at hquote
      exact hquote rfl

/-! ### The first byte of a number -/

/-- The characters of printed numbers. -/
def IsNumeric (c : Char) : Prop := c.isDigit = true ∨ c ∈ ['.', '-', '+', 'e']

lemma isNumeric_toDigits {n : Nat} {c : Char} (h : c ∈ Nat.toDigits 10 n) : IsNumeric c :=
  .inl (Nat.isDigit_of_mem_toDigits (by decide) (by decide) h)

lemma isNumeric_intChars {n : Int} {c : Char} (h : c ∈ intChars n) : IsNumeric c := by
  unfold intChars at h
  split at h
  · rcases List.mem_cons.1 h with rfl | h
    · exact .inr (by decide)
    · exact isNumeric_toDigits h
  · exact isNumeric_toDigits h

lemma isNumeric_decimal {layout : Decimal.Layout} {x : Decimal} {c : Char}
    (h : c ∈ x.render layout) : IsNumeric c := by
  have hzero : IsNumeric '0' := .inl (by decide)
  have hpoint : IsNumeric '.' := .inr (by decide)
  have hdigits : ∀ c ∈ Nat.toDigits 10 x.digits, IsNumeric c := fun c => isNumeric_toDigits
  have hfraction : ∀ n, ∀ c ∈ (if ((Nat.toDigits 10 x.digits).drop n).isEmpty then ['0']
      else (Nat.toDigits 10 x.digits).drop n), IsNumeric c := by
    intro n c hc
    split at hc
    · exact List.mem_singleton.1 hc ▸ hzero
    · exact hdigits c (List.mem_of_mem_drop hc)
  unfold Decimal.render at h
  simp only at h
  split at h
  · split at h
    · simp only [List.mem_append, List.mem_cons] at h
      rcases h with (rfl | rfl | h) | h
      · exact hzero
      · exact hpoint
      · exact List.eq_of_mem_replicate h ▸ hzero
      · exact hdigits c h
    · simp only [List.mem_append, List.mem_cons] at h
      rcases h with (h | h) | rfl | h
      · exact hdigits c (List.mem_of_mem_take h)
      · exact List.eq_of_mem_replicate h ▸ hzero
      · exact hpoint
      · exact hfraction _ c h
  · simp only [List.mem_append, List.mem_cons] at h
    rcases h with (h | h) | rfl | rfl | h
    · exact hdigits c (List.mem_of_mem_take h)
    · split at h
      · cases h
      · rcases List.mem_cons.1 h with rfl | h
        · exact hpoint
        · exact hdigits c (List.mem_of_mem_drop h)
    · exact .inr (by decide)
    · split
      · exact .inr (by decide)
      · exact .inr (by decide)
    · exact isNumeric_toDigits h

lemma isNumeric_double {layout : Decimal.Layout} {x : Binary64} {c : Char}
    (h : c ∈ x.render layout) : IsNumeric c := by
  unfold Binary64.render at h
  rcases List.mem_append.1 h with h | h
  · split at h
    · exact List.mem_singleton.1 h ▸ .inr (by decide)
    · cases h
  · split at h
    · simp only [List.mem_cons, List.not_mem_nil, or_false] at h
      rcases h with rfl | rfl | rfl
      · exact .inl (by decide)
      · exact .inr (by decide)
      · exact .inl (by decide)
    · exact isNumeric_decimal h

lemma quote_notMem_bytesOf {cs : List Char} (h : ∀ c ∈ cs, IsNumeric c) :
    '"'.toUInt8 ∉ bytesOf cs := by
  intro hmem
  obtain ⟨c, hc, hbyte⟩ := List.mem_flatMap.1 hmem
  have hascii : c.toNat < 128 ∧ c ≠ '"' := by
    rcases h c hc with hdigit | hsign
    · simp only [Char.isDigit, Bool.and_eq_true, decide_eq_true_eq, ge_iff_le] at hdigit
      have hle : c.toNat ≤ 57 := hdigit.2
      refine ⟨by omega, ?_⟩
      rintro rfl
      exact absurd hdigit.1 (by decide)
    · simp only [List.mem_cons, List.not_mem_nil, or_false] at hsign
      rcases hsign with rfl | rfl | rfl | rfl <;> decide
  rw [utf8EncodeChar_of_lt hascii.1, List.mem_singleton] at hbyte
  refine hascii.2 (Char.toNat_inj.1 ?_)
  have hnat := congrArg UInt8.toNat hbyte
  have hquote : '"'.toUInt8.toNat = '"'.toNat := by decide
  have hself : c.toUInt8.toNat = c.toNat := by
    change c.val.toUInt8.toNat = c.val.toNat
    rw [UInt32.toNat_toUInt8]
    exact Nat.mod_eq_of_lt (Nat.lt_trans hascii.1 (by decide))
  rw [← hself, ← hnat, hquote]

lemma head?_bytes_ne_quote (h : v.text? = none) :
    (skipSpace (bytesOf v.chars)).head? ≠ some '"'.toUInt8 := by
  have hnumeric : ∀ {cs : List Char}, (∀ c ∈ cs, IsNumeric c) →
      (skipSpace (bytesOf cs)).head? ≠ some '"'.toUInt8 := by
    intro cs hcs hhead
    have hmem := (List.dropWhile_sublist _).mem (List.mem_of_head? hhead)
    exact quote_notMem_bytesOf hcs hmem
  cases v with
  | null => decide
  | bool value => cases value <;> decide
  | int n => exact hnumeric fun c => isNumeric_intChars
  | double x => exact hnumeric fun c => isNumeric_double
  | str text => cases h
  | arr items =>
    rw [chars, List.cons_append, bytesOf_cons (by decide), skipSpace_cons (by decide)]
    exact fun h => absurd (Option.some.inj h) (by decide)
  | obj members =>
    rw [chars, List.cons_append, bytesOf_cons (by decide), skipSpace_cons (by decide)]
    exact fun h => absurd (Option.some.inj h) (by decide)

/-- **A value is read as a text exactly when it is one**, and then as the same text. -/
theorem text?_echo (v : Json) : v.echo.text? = v.text? := by
  cases hv : v.text? with
  | some text =>
    have hstr : v = .str text := by
      cases v with
      | str t => rw [Option.some.inj hv]
      | null | bool _ | int _ | double _ | arr _ | obj _ => cases hv
    subst hstr
    have hback : ReadsBack (.str text) :=
      readsBack_of_readable (by simp [Readable]) (Nat.zero_le maxDepth)
    rw [hback.echo]
    rfl
  | none =>
    cases hread : Json.read v.bytes with
    | error flaw => rw [echo, hread, hv]
    | ok w =>
      rw [echo_of_read hread]
      have hbytes : v.bytes = bytesOf v.chars := Utf8.encode_ofList v.chars
      rw [hbytes] at hread
      obtain ⟨⟨u, rest⟩, hvalue, hread⟩ := bind_eq_ok.1 hread
      simp only at hread
      split at hread
      · obtain rfl := Except.ok.inj hread
        exact text?_value hvalue (head?_bytes_ne_quote hv)
      · cases hread

end Sessions.Json
