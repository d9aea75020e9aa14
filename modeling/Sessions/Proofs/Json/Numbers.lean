import Sessions.Json.Parser
import Sessions.Json.Printer
import Sessions.Proofs.Basic

/-!
# Reading back printed numbers

The bytes of a printed number, followed by anything that cannot go on with it, are read as that
number and leave what follows. For whole numbers this needs 64 bits, signed or unsigned; of a
double it is asked, because reading rounds and does not always find the way back.
-/

namespace Sessions.Json

/-- What follows does not go on with a number. -/
def EndsNumber (rest : Bytes) : Prop :=
  ∀ b ∈ rest.head?, isDigit b = false ∧ b ≠ '.'.toUInt8 ∧ b ≠ 'e'.toUInt8 ∧ b ≠ 'E'.toUInt8

lemma endsNumber_nil : EndsNumber [] := by simp [EndsNumber]

lemma endsNumber_comma (rest : Bytes) : EndsNumber (','.toUInt8 :: rest) := by
  intro b hb
  obtain rfl : ','.toUInt8 = b := by simpa using hb
  decide

lemma endsNumber_bracket (rest : Bytes) : EndsNumber (']'.toUInt8 :: rest) := by
  intro b hb
  obtain rfl : ']'.toUInt8 = b := by simpa using hb
  decide

lemma endsNumber_brace (rest : Bytes) : EndsNumber ('\x7d'.toUInt8 :: rest) := by
  intro b hb
  obtain rfl : '\x7d'.toUInt8 = b := by simpa using hb
  decide

/-! ## What follows a number does not change how it is read -/

variable {input r rest ds : Bytes}

lemma digits_append (h : digits input = .ok (ds, r)) (hrest : EndsNumber rest) :
    digits (input ++ rest) = .ok (ds, r ++ rest) := by
  cases input with
  | nil => simp [digits] at h
  | cons b tl =>
    simp only [digits] at h
    split at h
    next hb =>
      simp only [Except.ok.injEq, Prod.mk.injEq] at h
      obtain ⟨rfl, rfl⟩ := h
      simp only [digits, List.cons_append, hb, if_true]
      rw [← List.cons_append, List.takeWhile_append, List.dropWhile_append]
      have hsplit := List.takeWhile_append_dropWhile (p := isDigit) (l := b :: tl)
      -- either the digits run to the end of the input, or they stop inside it
      by_cases hall : List.dropWhile isDigit (b :: tl) = []
      · have htake : List.takeWhile isDigit (b :: tl) = b :: tl := by
          rwa [hall, List.append_nil] at hsplit
        have hhead : List.takeWhile isDigit rest = [] ∧ List.dropWhile isDigit rest = rest := by
          cases rest with
          | nil => exact ⟨rfl, rfl⟩
          | cons c more =>
            have hc := (hrest c (by simp)).1
            simp [hc]
        simp [htake, hhead.1, hhead.2, hall]
      · have hlen : (List.takeWhile isDigit (b :: tl)).length ≠ (b :: tl).length := by
          intro heq
          have hsum := congrArg List.length hsplit
          rw [List.length_append, heq] at hsum
          exact hall (List.length_eq_zero_iff.1 (by omega))
        simp only [hlen, if_false, List.isEmpty_iff, hall]
    next => cases h

lemma digits_ne_nil (h : digits input = .ok (ds, r)) : input ≠ [] := by
  rintro rfl
  simp [digits] at h

lemma wholePart_append (h : wholePart input = .ok (ds, r)) (hrest : EndsNumber rest) :
    wholePart (input ++ rest) = .ok (ds, r ++ rest) := by
  unfold wholePart at h ⊢
  obtain ⟨⟨ws, left⟩, hd, h⟩ := bind_eq_ok.1 h
  rw [digits_append hd hrest, ok_bind]
  by_cases hz : ws.head? = some '0'.toUInt8 ∧ 1 < ws.length
  · simp [hz] at h
  · simp only [hz, if_false, Except.ok.injEq, Prod.mk.injEq] at h ⊢
    exact ⟨h.1, by rw [h.2]⟩

lemma fractionPart_append {f : Option Bytes} (h : fractionPart input = .ok (f, r))
    (hrest : EndsNumber rest) : fractionPart (input ++ rest) = .ok (f, r ++ rest) := by
  unfold fractionPart at h ⊢
  cases input with
  | nil =>
    have hdot : rest.head? ≠ some '.'.toUInt8 := fun he => (hrest _ he).2.1 rfl
    simp only [List.head?_nil, reduceCtorEq, if_false, Except.ok.injEq, Prod.mk.injEq] at h
    obtain ⟨rfl, rfl⟩ := h
    simp [hdot]
  | cons b tl =>
    simp only [List.head?_cons, List.tail_cons, List.cons_append, Option.some.injEq] at h ⊢
    by_cases hb : b = '.'.toUInt8
    · simp only [hb, if_true] at h ⊢
      obtain ⟨⟨ws, left⟩, hd, h⟩ := bind_eq_ok.1 h
      rw [digits_append hd hrest, ok_bind]
      simp only [Except.ok.injEq, Prod.mk.injEq] at h ⊢
      exact ⟨h.1, by rw [h.2]⟩
    · simp only [hb, if_false, Except.ok.injEq, Prod.mk.injEq] at h ⊢
      exact ⟨h.1, by rw [← h.2, List.cons_append]⟩

lemma sign_nil (plus : Bool) : sign plus [] = (false, []) := by simp [sign]

lemma sign_append (plus : Bool) (h : input ≠ []) :
    sign plus (input ++ rest) = ((sign plus input).1, (sign plus input).2 ++ rest) := by
  cases input with
  | nil => exact absurd rfl h
  | cons b tl =>
    simp only [sign, List.cons_append, List.head?_cons, List.tail_cons, Option.some.injEq]
    by_cases hm : b = '-'.toUInt8
    · simp only [hm, if_true]
    · by_cases hp : plus = true ∧ b = '+'.toUInt8
      · simp only [hm, if_false, if_pos hp]
      · simp only [hm, if_false, if_neg hp, List.cons_append]

lemma exponentPart_append {e : Option (Bool × Bytes)} (h : exponentPart input = .ok (e, r))
    (hrest : EndsNumber rest) : exponentPart (input ++ rest) = .ok (e, r ++ rest) := by
  unfold exponentPart at h ⊢
  cases input with
  | nil =>
    have he : rest.head? ≠ some 'e'.toUInt8 := fun he => (hrest _ he).2.2.1 rfl
    have hE : rest.head? ≠ some 'E'.toUInt8 := fun he => (hrest _ he).2.2.2 rfl
    simp only [List.head?_nil, reduceCtorEq, or_self, if_false, Except.ok.injEq,
      Prod.mk.injEq] at h
    obtain ⟨rfl, rfl⟩ := h
    simp [he, hE]
  | cons b tl =>
    simp only [List.head?_cons, List.tail_cons, List.cons_append, Option.some.injEq] at h ⊢
    by_cases hb : b = 'e'.toUInt8 ∨ b = 'E'.toUInt8
    · simp only [hb, if_true] at h ⊢
      obtain ⟨⟨ws, left⟩, hd, h⟩ := bind_eq_ok.1 h
      have htl : tl ≠ [] := by
        rintro rfl
        rw [sign_nil] at hd
        exact digits_ne_nil hd rfl
      rw [sign_append true htl]
      simp only
      rw [digits_append hd hrest, ok_bind]
      simp only [Except.ok.injEq, Prod.mk.injEq] at h ⊢
      exact ⟨h.1, by rw [h.2]⟩
    · simp only [hb, if_false, Except.ok.injEq, Prod.mk.injEq] at h ⊢
      exact ⟨h.1, by rw [← h.2, List.cons_append]⟩

lemma numeral_eq_ok {n : Numeral} :
    numeral input = .ok (n, r) ↔ ∃ whole i₁ fraction i₂ exponent,
      wholePart (sign false input).2 = .ok (whole, i₁) ∧ fractionPart i₁ = .ok (fraction, i₂) ∧
        exponentPart i₂ = .ok (exponent, r) ∧
        n = ⟨(sign false input).1, whole, fraction, exponent⟩ := by
  have hunfold : numeral input = (wholePart (sign false input).2 >>= fun w =>
      fractionPart w.2 >>= fun f => exponentPart f.2 >>= fun e =>
        .ok (⟨(sign false input).1, w.1, f.1, e.1⟩, e.2)) := rfl
  rw [hunfold]
  constructor
  · intro h
    obtain ⟨⟨whole, i₁⟩, hw, h⟩ := bind_eq_ok.1 h
    obtain ⟨⟨fraction, i₂⟩, hf, h⟩ := bind_eq_ok.1 h
    obtain ⟨⟨exponent, i₃⟩, he, h⟩ := bind_eq_ok.1 h
    simp only [Except.ok.injEq, Prod.mk.injEq] at h
    obtain ⟨rfl, rfl⟩ := h
    exact ⟨whole, i₁, fraction, i₂, exponent, hw, hf, he, rfl⟩
  · rintro ⟨whole, i₁, fraction, i₂, exponent, hw, hf, he, rfl⟩
    simp only [hw, ok_bind, hf, he]

lemma wholePart_ne_nil (h : wholePart input = .ok (ds, r)) : input ≠ [] := by
  unfold wholePart at h
  obtain ⟨⟨ws, left⟩, hd, -⟩ := bind_eq_ok.1 h
  exact digits_ne_nil hd

lemma numeral_append {n : Numeral} (h : numeral input = .ok (n, r)) (hrest : EndsNumber rest) :
    numeral (input ++ rest) = .ok (n, r ++ rest) := by
  obtain ⟨whole, i₁, fraction, i₂, exponent, hw, hf, he, rfl⟩ := numeral_eq_ok.1 h
  have hne : input ≠ [] := by
    rintro rfl
    rw [sign_nil] at hw
    exact wholePart_ne_nil hw rfl
  rw [numeral_eq_ok, sign_append false hne]
  exact ⟨whole, _, fraction, _, exponent, wholePart_append hw hrest,
    fractionPart_append hf hrest, exponentPart_append he hrest, rfl⟩

lemma number_append {v : Json} (h : number input = .ok (v, r)) (hrest : EndsNumber rest) :
    number (input ++ rest) = .ok (v, r ++ rest) := by
  unfold number at h ⊢
  obtain ⟨⟨n, left⟩, hn, h⟩ := bind_eq_ok.1 h
  rw [numeral_append hn hrest, ok_bind]
  cases hv : n.value? with
  | none => simp [hv] at h
  | some w =>
    simp only [hv, Except.ok.injEq, Prod.mk.injEq] at h ⊢
    exact ⟨h.1, by rw [h.2]⟩

lemma startsNumber_of_number {v : Json} (h : number input = .ok (v, r)) :
    ∃ b tl, input = b :: tl ∧ startsNumber b = true := by
  unfold number at h
  obtain ⟨⟨n, left⟩, hn, -⟩ := bind_eq_ok.1 h
  obtain ⟨whole, i₁, -, -, -, hw, -, -, -⟩ := numeral_eq_ok.1 hn
  cases input with
  | nil =>
    rw [sign_nil] at hw
    exact absurd rfl (wholePart_ne_nil hw)
  | cons b tl =>
    refine ⟨b, tl, rfl, ?_⟩
    by_cases hm : b = '-'.toUInt8
    · simp [startsNumber, hm]
    · have hsign : (sign false (b :: tl)).2 = b :: tl := by simp [sign, hm]
      rw [hsign] at hw
      unfold wholePart at hw
      obtain ⟨⟨ws, left⟩, hd, -⟩ := bind_eq_ok.1 hw
      simp only [digits] at hd
      split at hd
      next hb => simp [startsNumber, hb]
      next => cases hd

/-! ## Whole numbers -/

lemma isDigit_toUInt8 {c : Char} (h : c.isDigit = true) :
    isDigit c.toUInt8 = true ∧ digitValue c.toUInt8 = c.toNat - '0'.toNat := by
  simp only [Char.isDigit, Bool.and_eq_true, decide_eq_true_eq, ge_iff_le] at h
  obtain ⟨hlow, hhigh⟩ := h
  have hlow' : 48 ≤ c.toNat := hlow
  have hhigh' : c.toNat ≤ 57 := hhigh
  have hnat : c.toUInt8.toNat = c.toNat := by
    have : c.toUInt8.toNat = c.toNat % 256 := rfl
    omega
  have hzero : '0'.toUInt8.toNat = 48 := rfl
  have hnine : '9'.toUInt8.toNat = 57 := rfl
  refine ⟨?_, ?_⟩
  · simp only [isDigit, Bool.and_eq_true, decide_eq_true_eq, UInt8.le_iff_toNat_le]
    exact ⟨by omega, by omega⟩
  · rw [digitValue, hnat]

abbrev decimalBytes (m : Nat) : Bytes := (Nat.toDigits 10 m).map Char.toUInt8

lemma isDigit_of_mem_decimalBytes {m : Nat} {b : UInt8} (h : b ∈ decimalBytes m) :
    isDigit b = true := by
  obtain ⟨c, hc, rfl⟩ := List.mem_map.1 h
  exact (isDigit_toUInt8 (Nat.isDigit_of_mem_toDigits (by decide) (by decide) hc)).1

def Digits (cs : List Char) : Prop := cs ≠ [] ∧ ∀ c ∈ cs, c.isDigit = true

lemma digits_toDigits (m : Nat) : Digits (Nat.toDigits 10 m) :=
  ⟨Nat.toDigits_ne_nil, fun _ hc => Nat.isDigit_of_mem_toDigits (by decide) (by decide) hc⟩

lemma bytesOf_digits {cs : List Char} (h : ∀ c ∈ cs, c.isDigit = true) :
    bytesOf cs = cs.map Char.toUInt8 := by
  induction cs with
  | nil => rfl
  | cons c cs ih =>
    have hc := h c List.mem_cons_self
    simp only [Char.isDigit, Bool.and_eq_true, decide_eq_true_eq] at hc
    have hlt : c.toNat < 128 := Nat.lt_of_le_of_lt (m := 57) hc.2 (by decide)
    simp only [List.flatMap_cons, List.map_cons, utf8EncodeChar_of_lt hlt, List.singleton_append]
    exact congrArg _ (ih fun c hc => h c (List.mem_cons_of_mem _ hc))

lemma bytesOf_toDigits (m : Nat) : bytesOf (Nat.toDigits 10 m) = decimalBytes m :=
  bytesOf_digits (digits_toDigits m).2

lemma digits_bytes {cs : List Char} (h : Digits cs)
    (hrest : ∀ b ∈ rest.head?, isDigit b = false) :
    digits (cs.map Char.toUInt8 ++ rest) = .ok (cs.map Char.toUInt8, rest) := by
  have hall : ∀ b ∈ cs.map Char.toUInt8, isDigit b = true := by
    intro b hb
    obtain ⟨c, hc, rfl⟩ := List.mem_map.1 hb
    exact (isDigit_toUInt8 (h.2 c hc)).1
  have hstop : rest.takeWhile isDigit = [] ∧ rest.dropWhile isDigit = rest := by
    cases rest with
    | nil => exact ⟨rfl, rfl⟩
    | cons b tl =>
      have hb := hrest b rfl
      simp [hb]
  have htake : (cs.map Char.toUInt8 ++ rest).takeWhile isDigit =
      cs.map Char.toUInt8 ++ rest.takeWhile isDigit := List.takeWhile_append_of_pos hall
  have hdrop : (cs.map Char.toUInt8 ++ rest).dropWhile isDigit = rest.dropWhile isDigit :=
    List.dropWhile_append_of_pos hall
  rw [hstop.1, List.append_nil] at htake
  rw [hstop.2] at hdrop
  cases hcs : cs.map Char.toUInt8 with
  | nil => exact absurd (List.map_eq_nil_iff.1 hcs) h.1
  | cons b tl =>
    rw [hcs] at hall htake hdrop
    have hb := hall b List.mem_cons_self
    rw [List.cons_append] at htake hdrop ⊢
    simp only [digits, hb, if_true, htake, hdrop]

lemma wholePart_bytes {cs : List Char} (h : Digits cs)
    (hzero : cs.head? = some '0' → cs.length = 1) (hrest : ∀ b ∈ rest.head?, isDigit b = false) :
    wholePart (cs.map Char.toUInt8 ++ rest) = .ok (cs.map Char.toUInt8, rest) := by
  rw [wholePart, digits_bytes h hrest, ok_bind]
  simp only
  rw [if_neg]
  rintro ⟨hhead, hlen⟩
  rw [List.head?_map, Option.map_eq_some_iff] at hhead
  obtain ⟨c, hc, hbyte⟩ := hhead
  have hdigit := h.2 c (List.mem_of_head? hc)
  obtain ⟨-, hvalue⟩ := isDigit_toUInt8 hdigit
  simp only [Char.isDigit, Bool.and_eq_true, decide_eq_true_eq, ge_iff_le] at hdigit
  have hlow : 48 ≤ c.toNat := hdigit.1
  rw [hbyte] at hvalue
  have hvalue' : 0 = c.toNat - 48 := hvalue
  have hc0 : c = '0' := Char.toNat_inj.1 (by change c.toNat = 48; omega)
  rw [List.length_map, hzero (hc0 ▸ hc)] at hlen
  exact Nat.lt_irrefl 1 hlen

lemma head?_toDigits {m : Nat} (h : m ≠ 0) : (Nat.toDigits 10 m).head? ≠ some '0' := by
  induction m using Nat.strongRecOn with
  | ind m ih =>
    rw [Nat.toDigits_eq_if (by decide)]
    split
    next hlt =>
      have : ∀ k, k < 10 → k ≠ 0 → some k.digitChar ≠ some '0' := by decide
      simpa using this m hlt h
    next hge =>
      have hrest := ih (m / 10) (by omega) (by omega)
      cases hd : Nat.toDigits 10 (m / 10) with
      | nil => exact absurd hd Nat.toDigits_ne_nil
      | cons c cs =>
        rw [hd] at hrest
        simpa using hrest

lemma decimalBytes_ne_nil (m : Nat) : decimalBytes m ≠ [] := by
  simp [decimalBytes, Nat.toDigits_ne_nil]

lemma wholePart_decimalBytes (m : Nat) :
    wholePart (decimalBytes m) = .ok (decimalBytes m, []) := by
  have hwhole : wholePart (decimalBytes m ++ []) = .ok (decimalBytes m, []) := by
    refine wholePart_bytes (digits_toDigits m) (fun hhead => ?_) (by simp)
    by_cases hm : m = 0
    · rw [hm, Nat.toDigits_zero]
      rfl
    · exact absurd hhead (head?_toDigits hm)
  rwa [List.append_nil] at hwhole

lemma gather_digitChars {ds : List Char} (hds : ∀ c ∈ ds, c.isDigit = true) (acc : Nat)
    (h : Nat.ofDigitChars 10 ds acc < 2 ^ 64) :
    gather acc (ds.map Char.toUInt8) = (Nat.ofDigitChars 10 ds acc, ds.length) := by
  induction ds generalizing acc with
  | nil => rw [Nat.ofDigitChars_nil]; rfl
  | cons c cs ih =>
    have hvalue := (isDigit_toUInt8 (hds c List.mem_cons_self)).2
    rw [Nat.ofDigitChars_cons] at h ⊢
    -- the digits to come only make the significand greater
    have hnext : 10 * acc + (c.toNat - '0'.toNat) < 2 ^ 64 := by
      rw [Nat.ofDigitChars_eq_ofDigitChars_zero] at h
      have hpow : 1 ≤ 10 ^ cs.length := Nat.one_le_pow _ _ (by decide)
      have hmul := Nat.mul_le_mul_right (10 * acc + (c.toNat - '0'.toNat)) hpow
      omega
    simp only [List.map_cons, gather, hvalue, hnext, if_true, List.length_cons]
    rw [ih (fun c hc => hds c (List.mem_cons_of_mem _ hc)) _ h]

lemma gather_decimalBytes {m : Nat} (h : m < 2 ^ 64) :
    gather 0 (decimalBytes m) = (m, (decimalBytes m).length) := by
  have hvalue := Nat.ofDigitChars_ten_toDigits (n := m)
  have hdigit : ∀ c ∈ Nat.toDigits 10 m, c.isDigit = true := fun c hc =>
    Nat.isDigit_of_mem_toDigits (by decide) (by decide) hc
  rw [decimalBytes, gather_digitChars hdigit 0 (by rw [hvalue]; exact h), hvalue, List.length_map]

lemma numeral_decimalBytes {m : Nat} {negative : Bool}
    (h : sign false input = (negative, decimalBytes m)) :
    numeral input = .ok (⟨negative, decimalBytes m, none, none⟩, []) := by
  rw [numeral_eq_ok, h]
  exact ⟨_, [], none, [], none, wholePart_decimalBytes m, rfl, rfl, rfl⟩

/-- **Whole numbers of 64 bits, signed or unsigned, are read back.** -/
theorem number_intChars {n : Int} (hlow : -2 ^ 63 ≤ n) (hhigh : n < 2 ^ 64) :
    number (bytesOf (intChars n)) = .ok (.int n, []) := by
  by_cases hneg : n < 0
  · have hbytes : bytesOf (intChars n) = '-'.toUInt8 :: decimalBytes n.natAbs := by
      rw [intChars, if_pos hneg, bytesOf, List.flatMap_cons, ← bytesOf, bytesOf_toDigits,
        utf8EncodeChar_of_lt (by decide), List.singleton_append]
    have hsign : sign false (bytesOf (intChars n)) = (true, decimalBytes n.natAbs) := by
      rw [hbytes]
      simp [sign]
    have hsize : 0 < n.natAbs ∧ n.natAbs ≤ 2 ^ 63 := by omega
    have hback : -(n.natAbs : Int) = n := by omega
    rw [number, numeral_decimalBytes hsign, ok_bind]
    simp only [Numeral.value?, gather_decimalBytes (m := n.natAbs) (by omega), Int.sub_self,
      ne_eq, not_true_eq_false, if_false, hsize, and_self, if_true, hback]
  · have hbytes : bytesOf (intChars n) = decimalBytes n.natAbs := by
      rw [intChars, if_neg hneg, bytesOf_toDigits]
    have hsign : sign false (bytesOf (intChars n)) = (false, decimalBytes n.natAbs) := by
      rw [hbytes]
      cases hd : decimalBytes n.natAbs with
      | nil => exact absurd hd (decimalBytes_ne_nil _)
      | cons b tl =>
        have hb : isDigit b = true := isDigit_of_mem_decimalBytes (m := n.natAbs) (by simp [hd])
        have hm : b ≠ '-'.toUInt8 := by
          rintro rfl
          revert hb
          decide
        simp [sign, hm]
    have hback : (n.natAbs : Int) = n := by omega
    rw [number, numeral_decimalBytes hsign, ok_bind]
    simp only [Numeral.value?, gather_decimalBytes (m := n.natAbs) (by omega), Int.sub_self,
      ne_eq, not_true_eq_false, if_false, Bool.false_eq_true, not_false_eq_true, if_true, hback]

end Sessions.Json
