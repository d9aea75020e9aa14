import Sessions.Proofs.Decimal.Scaling
import Sessions.Proofs.Json.Numbers

/-!
# Every double has a legible text

Reading rounds more than once, so a double may come back as its neighbour. But its text is always
read as a double: it is a numeral with a point or an exponent, and its digits are never too large
where they stand.
-/

namespace Sessions.Json

/-! ## Digits of a significand -/

variable {ds : List Char} {w : Bytes} {negative : Bool} {e : Int}

lemma ofDigitChars_lt (hds : ∀ c ∈ ds, c.isDigit = true) (acc : Nat) :
    Nat.ofDigitChars 10 ds acc < (acc + 1) * 10 ^ ds.length := by
  induction ds generalizing acc with
  | nil => simp
  | cons c cs ih =>
    have hdigit := hds c List.mem_cons_self
    simp only [Char.isDigit, Bool.and_eq_true, decide_eq_true_eq, ge_iff_le] at hdigit
    have hvalue : c.toNat - '0'.toNat ≤ 9 := by
      have hnine : c.toNat ≤ 57 := hdigit.2
      have hzero : '0'.toNat = 48 := rfl
      omega
    have hrest := ih (fun c hc => hds c (List.mem_cons_of_mem _ hc))
      (10 * acc + (c.toNat - '0'.toNat))
    rw [Nat.ofDigitChars_cons]
    refine Nat.lt_of_lt_of_le hrest ?_
    rw [List.length_cons, Nat.pow_succ, Nat.mul_comm (10 ^ cs.length), ← Nat.mul_assoc]
    exact Nat.mul_le_mul_right _ (by omega)

lemma gather_lt {acc : Nat} (h : acc < 2 ^ 64) (ds : Bytes) : (gather acc ds).1 < 2 ^ 64 := by
  induction ds generalizing acc with
  | nil => exact h
  | cons b rest ih =>
    rw [gather]
    simp only
    split
    next hnext => exact ih hnext
    next => exact h

lemma exists_gather (hds : ∀ c ∈ ds, c.isDigit = true) (acc : Nat) :
    ∃ all taken, gather acc (ds.map Char.toUInt8) = (all, taken) ∧ taken ≤ ds.length ∧
      all * 10 ^ (ds.length - taken) ≤ Nat.ofDigitChars 10 ds acc := by
  induction ds generalizing acc with
  | nil => exact ⟨acc, 0, rfl, Nat.le_refl 0, by simp⟩
  | cons c cs ih =>
    have hvalue := (isDigit_toUInt8 (hds c List.mem_cons_self)).2
    rw [List.map_cons, gather, Nat.ofDigitChars_cons, hvalue]
    simp only
    split
    next =>
      obtain ⟨all, taken, hgather, htaken, hle⟩ :=
        ih (fun c hc => hds c (List.mem_cons_of_mem _ hc)) (10 * acc + (c.toNat - '0'.toNat))
      refine ⟨all, taken + 1, by rw [hgather], Nat.succ_le_succ htaken, ?_⟩
      rwa [List.length_cons, Nat.add_sub_add_right]
    next =>
      refine ⟨acc, 0, rfl, Nat.zero_le _, ?_⟩
      rw [Nat.ofDigitChars_eq_ofDigitChars_zero, Nat.mul_add, List.length_cons, Nat.sub_zero,
        Nat.pow_succ, Nat.mul_comm acc, Nat.mul_assoc]
      omega

lemma gather_taken (hds : ∀ c ∈ ds, c.isDigit = true) (hlength : ds.length ≤ 16) :
    gather 0 (ds.map Char.toUInt8) = (Nat.ofDigitChars 10 ds 0, ds.length) := by
  refine gather_digitChars hds 0 (Nat.lt_of_lt_of_le (ofDigitChars_lt hds 0) ?_)
  have hpow : 10 ^ ds.length ≤ 10 ^ 16 := Nat.pow_le_pow_right (by decide) hlength
  omega

/-! ## Values of numerals -/

lemma clampExponent_of_nonpos (h : e ≤ 0) : clampExponent e ≤ 0 := by
  unfold clampExponent
  omega

lemma clampExponent_of_small (hlow : 0 ≤ e) (hhigh : e ≤ 308) : clampExponent e = e := by
  unfold clampExponent
  omega

lemma exponentSize?_decimalBytes :
    ∀ size ∈ List.range 309, exponentSize? (decimalBytes size) = some size := by
  decide +kernel

lemma isSome_double?_none (all : Nat) (h : e ≤ 0) : (Numeral.double? all e none).isSome :=
  isSome_scaleByTen_of_nonpos h all

lemma isSome_double?_negative (all : Nat) (h : e ≤ 0) (ds : Bytes) :
    (Numeral.double? all e (some (true, ds))).isSome := by
  unfold Numeral.double?
  simp only [if_true]
  split
  next size _ => exact isSome_scaleByTen_of_nonpos (clampExponent_of_nonpos (by omega)) all
  next => simp

lemma isSome_double?_positive {all size : Nat} (hsize : size ≤ 308) (he : e ≤ 0)
    (h : (scaleByTen all (e + size)).isSome) :
    (Numeral.double? all e (some (false, decimalBytes size))).isSome := by
  have hread := exponentSize?_decimalBytes size (List.mem_range.2 (by omega))
  unfold Numeral.double?
  simp only [hread, Bool.false_eq_true, if_false]
  rcases Int.le_total (e + size) 0 with hneg | hpos
  · exact isSome_scaleByTen_of_nonpos (clampExponent_of_nonpos hneg) all
  · rwa [clampExponent_of_small hpos (by omega)]

lemma value?_double {fraction : Option Bytes} {exponent : Option (Bool × Bytes)} {s : Nat}
    (hwhole : gather 0 w = (s, w.length)) (hform : fraction.isSome ∨ exponent.isSome)
    (h : (Numeral.double? (gather s (fraction.getD [])).1 (-(gather s (fraction.getD [])).2)
      exponent).isSome) :
    ∃ y, (⟨negative, w, fraction, exponent⟩ : Numeral).value? = some (.double y) := by
  obtain ⟨y, hy⟩ := Option.isSome_iff_exists.1 h
  refine ⟨if negative then y.neg else y, ?_⟩
  unfold Numeral.value?
  simp only [hwhole, Int.sub_self]
  cases fraction with
  | some f =>
    rw [Option.getD_some] at hy
    simp only [Int.zero_sub, hy, Option.map_some]
  | none =>
    rw [Option.getD_none] at hy
    change Numeral.double? s 0 exponent = some y at hy
    cases exponent with
    | some x => simp only [hy, Option.map_some]
    | none => simp at hform

/-! ## Texts of numerals -/

def fractionChars : Option (List Char) → List Char
  | some f => '.' :: f
  | none => []

def exponentChars : Option (Bool × List Char) → List Char
  | some (below, ds) => 'e' :: (if below then '-' else '+') :: ds
  | none => []

def numeralChars (negative : Bool) (whole : List Char) (fraction : Option (List Char))
    (exponent : Option (Bool × List Char)) : List Char :=
  (if negative then ['-'] else []) ++ (whole ++ (fractionChars fraction ++ exponentChars exponent))

lemma exponentPart_chars {exponent : Option (Bool × List Char)}
    (h : ∀ x ∈ exponent, Digits x.2) :
    exponentPart (bytesOf (exponentChars exponent)) =
      .ok (exponent.map fun x => (x.1, x.2.map Char.toUInt8), []) := by
  cases exponent with
  | none => rfl
  | some x =>
    obtain ⟨below, ds⟩ := x
    have hdigits : digits (ds.map Char.toUInt8 ++ []) = .ok (ds.map Char.toUInt8, []) :=
      digits_bytes (h (below, ds) rfl) (by simp)
    rw [List.append_nil] at hdigits
    have hsign : ∀ tl : Bytes, sign true ((if below then '-' else '+').toUInt8 :: tl) =
        (below, tl) := by
      intro tl
      cases below <;> rfl
    have hascii : (if below then '-' else '+').toNat < 128 := by cases below <;> decide
    rw [exponentChars, bytesOf_cons (by decide), bytesOf_cons hascii,
      bytesOf_digits (h (below, ds) rfl).2]
    simp only [exponentPart, List.head?_cons, List.tail_cons, true_or, if_true, hsign, hdigits,
      ok_bind, Option.map_some]

lemma head?_exponentChars (exponent : Option (Bool × List Char)) :
    ∀ b ∈ (bytesOf (exponentChars exponent)).head?, isDigit b = false ∧ b ≠ '.'.toUInt8 := by
  intro b hb
  cases exponent with
  | none => cases hb
  | some x =>
    rw [exponentChars, bytesOf_cons (by decide)] at hb
    obtain rfl := Option.some.inj hb
    decide

lemma fractionPart_chars {fraction : Option (List Char)} (h : ∀ f ∈ fraction, Digits f)
    {rest : Bytes} (hrest : ∀ b ∈ rest.head?, isDigit b = false ∧ b ≠ '.'.toUInt8) :
    fractionPart (bytesOf (fractionChars fraction) ++ rest) =
      .ok (fraction.map (·.map Char.toUInt8), rest) := by
  cases fraction with
  | none =>
    have hhead : rest.head? ≠ some '.'.toUInt8 := fun heq => (hrest _ heq).2 rfl
    simp [fractionChars, fractionPart, hhead]
  | some f =>
    have hdigits := digits_bytes (h f rfl) fun b hb => (hrest b hb).1
    rw [fractionChars, bytesOf_cons (by decide), bytesOf_digits (h f rfl).2, List.cons_append]
    simp only [fractionPart, List.head?_cons, List.tail_cons, if_true, hdigits, ok_bind,
      Option.map_some]

/-- **A numeral is read into its parts.** -/
theorem numeral_chars {whole : List Char} {fraction : Option (List Char)}
    {exponent : Option (Bool × List Char)} (hwhole : Digits whole)
    (hzero : whole.head? = some '0' → whole.length = 1)
    (hfraction : ∀ f ∈ fraction, Digits f) (hexponent : ∀ x ∈ exponent, Digits x.2)
    (negative : Bool) :
    numeral (bytesOf (numeralChars negative whole fraction exponent)) =
      .ok (⟨negative, whole.map Char.toUInt8, fraction.map (·.map Char.toUInt8),
        exponent.map fun x => (x.1, x.2.map Char.toUInt8)⟩, []) := by
  have hrest : ∀ b ∈ (bytesOf (fractionChars fraction) ++ bytesOf (exponentChars exponent)).head?,
      isDigit b = false := by
    intro b hb
    cases fraction with
    | none => exact (head?_exponentChars exponent b hb).1
    | some f =>
      rw [fractionChars, bytesOf_cons (by decide), List.cons_append] at hb
      obtain rfl := Option.some.inj hb
      decide
  have hsign : sign false (bytesOf (numeralChars negative whole fraction exponent)) =
      (negative, whole.map Char.toUInt8 ++
        (bytesOf (fractionChars fraction) ++ bytesOf (exponentChars exponent))) := by
    rw [numeralChars, bytesOf_append, bytesOf_append whole, bytesOf_append, bytesOf_digits hwhole.2]
    cases negative with
    | true => rfl
    | false =>
      obtain ⟨c, cs, rfl⟩ := List.exists_cons_of_ne_nil hwhole.1
      have hdigit := (isDigit_toUInt8 (hwhole.2 c List.mem_cons_self)).1
      have hne : c.toUInt8 ≠ '-'.toUInt8 := by
        intro heq
        rw [heq] at hdigit
        exact absurd hdigit (by decide)
      simp [sign, hne]
  rw [numeral_eq_ok, hsign]
  exact ⟨_, _, _, _, _, wholePart_bytes hwhole hzero hrest,
    fractionPart_chars hfraction (head?_exponentChars exponent), exponentPart_chars hexponent, rfl⟩

lemma exists_number_chars {whole : List Char} {fraction : Option (List Char)}
    {exponent : Option (Bool × List Char)} {s : Nat} (hwhole : Digits whole)
    (hzero : whole.head? = some '0' → whole.length = 1)
    (hfraction : ∀ f ∈ fraction, Digits f) (hexponent : ∀ x ∈ exponent, Digits x.2)
    (hgather : gather 0 (whole.map Char.toUInt8) = (s, whole.length))
    (hform : fraction.isSome ∨ exponent.isSome)
    (h : (Numeral.double? (gather s ((fraction.getD []).map Char.toUInt8)).1
      (-(gather s ((fraction.getD []).map Char.toUInt8)).2)
      (exponent.map fun x => (x.1, x.2.map Char.toUInt8))).isSome) (negative : Bool) :
    ∃ y, number (bytesOf (numeralChars negative whole fraction exponent)) =
      .ok (.double y, []) := by
  have hfractionBytes : (fraction.map (·.map Char.toUInt8)).getD [] =
      (fraction.getD []).map Char.toUInt8 := by cases fraction <;> rfl
  obtain ⟨y, hy⟩ : ∃ y, Numeral.value? ⟨negative, whole.map Char.toUInt8,
      fraction.map (·.map Char.toUInt8), exponent.map fun x => (x.1, x.2.map Char.toUInt8)⟩ =
      some (.double y) := by
    refine value?_double ?_ (by simpa using hform) (hfractionBytes ▸ h)
    rw [hgather, List.length_map]
  refine ⟨y, ?_⟩
  rw [number, numeral_chars hwhole hzero hfraction hexponent, ok_bind]
  simp only [hy]

/-! ## Doubles -/

lemma Digits.append {cs : List Char} (hcs : ∀ c ∈ cs, c.isDigit = true) (hds : Digits ds) :
    Digits (cs ++ ds) :=
  ⟨List.append_ne_nil_of_right_ne_nil cs hds.1, fun c hc =>
    (List.mem_append.1 hc).elim (hcs c) (hds.2 c)⟩

lemma isDigit_of_mem_replicate {n : Nat} {c : Char} (h : c ∈ List.replicate n '0') :
    c.isDigit = true := by
  rw [List.eq_of_mem_replicate h]
  decide

lemma digits_padded (h : Digits ds) (count : Nat) :
    (ds.take (count + 1) ++ List.replicate (count + 1 - ds.length) '0').length = count + 1 ∧
      Digits (ds.take (count + 1) ++ List.replicate (count + 1 - ds.length) '0') := by
  have hlength : (ds.take (count + 1) ++ List.replicate (count + 1 - ds.length) '0').length =
      count + 1 := by
    rw [List.length_append, List.length_take, List.length_replicate]
    omega
  refine ⟨hlength, fun hnil => ?_, fun c hc => ?_⟩
  · rw [hnil] at hlength
    cases hlength
  · rcases List.mem_append.1 hc with hc | hc
    · exact h.2 c (List.mem_of_mem_take hc)
    · exact isDigit_of_mem_replicate hc

lemma digits_fraction (h : Digits ds) (n : Nat) :
    Digits (if (ds.drop n).isEmpty then ['0'] else ds.drop n) := by
  split
  · exact ⟨by simp, by simp⟩
  next hne => exact ⟨by simpa using hne, fun c hc => h.2 c (List.mem_of_mem_drop hc)⟩

lemma exists_number_point {whole fraction : List Char} (hwhole : Digits whole)
    (hzero : whole.head? = some '0' → whole.length = 1) (hlength : whole.length ≤ 16)
    (hfraction : Digits fraction) (negative : Bool) :
    ∃ y, number (bytesOf (numeralChars negative whole (some fraction) none)) =
      .ok (.double y, []) := by
  refine exists_number_chars hwhole hzero ?_ (by simp) (gather_taken hwhole.2 hlength)
    (.inl rfl) (isSome_double?_none _ (by omega)) negative
  rintro f hf
  exact Option.some.inj hf ▸ hfraction

/-- A numeral with one digit before the point and an exponent is read as a double if its leading
digits can be scaled. -/
lemma exists_number_exponent {c : Char} {cs : List Char} {scale : Int}
    (hds : ∀ d ∈ c :: cs, d.isDigit = true) (hexponent : cs.length + scale ≤ 308)
    (hlead : ∀ s k : Nat, s < 2 ^ 64 → s * 10 ^ k ≤ Nat.ofDigitChars 10 (c :: cs) 0 →
      (scaleByTen s (scale + k)).isSome) (negative : Bool) :
    ∃ y, number (bytesOf (numeralChars negative [c] (if cs.isEmpty then none else some cs)
      (some (decide (cs.length + scale < 0), Nat.toDigits 10 (cs.length + scale).natAbs)))) =
      .ok (.double y, []) := by
  have hc : ∀ d ∈ [c], d.isDigit = true := fun d hd => hds d (by simp_all)
  have hcs : ∀ d ∈ cs, d.isDigit = true := fun d hd => hds d (List.mem_cons_of_mem c hd)
  have hgetD : (if cs.isEmpty then none else some cs).getD [] = cs := by
    cases cs <;> rfl
  have hfirst : Nat.ofDigitChars 10 [c] 0 < 2 ^ 64 := by
    have hlt := ofDigitChars_lt hc 0
    rw [List.length_singleton] at hlt
    omega
  obtain ⟨all, taken, hgather, htaken, hle⟩ := exists_gather hcs (Nat.ofDigitChars 10 [c] 0)
  have hlt : all < 2 ^ 64 := by
    have hbound := gather_lt hfirst (cs.map Char.toUInt8)
    rwa [hgather] at hbound
  refine exists_number_chars (s := Nat.ofDigitChars 10 [c] 0) ⟨by simp, hc⟩ (fun _ => rfl) ?_ ?_
    (gather_taken hc (by simp)) (.inr rfl) ?_ negative
  · intro f hf
    cases cs with
    | nil => cases hf
    | cons d ds => exact Option.some.inj hf ▸ ⟨List.cons_ne_nil d ds, hcs⟩
  · intro x hx
    exact Option.some.inj hx ▸ digits_toDigits _
  · rw [hgetD, hgather, Option.map_some]
    simp only
    by_cases hneg : cs.length + scale < 0
    · rw [decide_eq_true hneg]
      exact isSome_double?_negative all (by omega) _
    · rw [decide_eq_false hneg]
      refine isSome_double?_positive (by omega) (by omega) ?_
      have hplace : -(taken : Int) + (cs.length + scale).natAbs =
          scale + (cs.length - taken : Nat) := by omega
      rw [hplace]
      exact hlead all (cs.length - taken) hlt hle

/-- **The text of a decimal is read as a double** if its leading digits can be scaled. -/
theorem exists_number_render {x : Decimal} (hzero : x.digits = 0 → x.scale = 0)
    (hexponent : (Nat.toDigits 10 x.digits).length - 1 + x.scale ≤ 308)
    (hlead : ∀ s k : Nat, s < 2 ^ 64 → s * 10 ^ k ≤ x.digits → (scaleByTen s (x.scale + k)).isSome)
    (negative : Bool) :
    ∃ y, number (bytesOf ((if negative then ['-'] else []) ++ x.render doubleLayout)) =
      .ok (.double y, []) := by
  have hdigits := digits_toDigits x.digits
  have hvalue : Nat.ofDigitChars 10 (Nat.toDigits 10 x.digits) 0 = x.digits :=
    Nat.ofDigitChars_ten_toDigits
  have hhead : (Nat.toDigits 10 x.digits).head? = some '0' → x.digits = 0 := fun h => by
    by_contra hne
    exact head?_toDigits hne h
  have hone : x.digits = 0 → (Nat.toDigits 10 x.digits).length = 1 := fun h => by
    rw [h]
    rfl
  rw [Decimal.render]
  simp only
  generalize Nat.toDigits 10 x.digits = ds at *
  have hpos := List.length_pos_iff.2 hdigits.1
  by_cases hlayout : doubleLayout.least ≤ (ds.length : Int) - 1 + x.scale ∧
      (ds.length : Int) - 1 + x.scale ≤ doubleLayout.greatest
  · rw [if_pos hlayout]
    have hgreatest : (ds.length : Int) - 1 + x.scale ≤ 15 := hlayout.2
    by_cases hbelow : (ds.length : Int) - 1 + x.scale < 0
    · rw [if_pos hbelow]
      have hnull : Digits ['0'] := ⟨by simp, by simp⟩
      have hzeros : Digits (List.replicate (-((ds.length : Int) - 1 + x.scale) - 1).toNat '0' ++
          ds) := Digits.append (fun c hc => isDigit_of_mem_replicate hc) hdigits
      have hpoint := exists_number_point hnull (fun _ => rfl) (by simp) hzeros negative
      rw [numeralChars, exponentChars, List.append_nil, fractionChars] at hpoint
      exact hpoint
    · rw [if_neg hbelow]
      obtain ⟨count, hcount⟩ := Int.eq_ofNat_of_zero_le (Int.not_lt.1 hbelow)
      have hwhole : (((ds.length : Int) - 1 + x.scale) + 1).toNat = count + 1 := by omega
      rw [hwhole]
      obtain ⟨hlength, hparts⟩ := digits_padded hdigits count
      have hpoint := exists_number_point hparts (fun hfirst => ?_) (by omega)
        (digits_fraction hdigits (count + 1)) negative
      · rw [numeralChars, exponentChars, List.append_nil, fractionChars] at hpoint
        exact hpoint
      · -- only zero begins with a zero, and then it is the only digit
        obtain ⟨c, cs, rfl⟩ := List.exists_cons_of_ne_nil hdigits.1
        have hnull := hhead hfirst
        have hscale := hzero hnull
        have hsingle := hone hnull
        rw [hlength]
        omega
  · rw [if_neg hlayout]
    obtain ⟨c, cs, rfl⟩ := List.exists_cons_of_ne_nil hdigits.1
    have hlength : ((c :: cs).length : Int) - 1 + x.scale = cs.length + x.scale := by
      rw [List.length_cons]
      omega
    rw [hlength] at hexponent ⊢
    have hnumber := exists_number_exponent hdigits.2 hexponent (hvalue ▸ hlead) negative
    have hfraction : fractionChars (if cs.isEmpty then none else some cs) =
        if cs.isEmpty then [] else '.' :: cs := by cases cs <;> rfl
    rw [numeralChars, hfraction, exponentChars, ← List.append_assoc [c]] at hnumber
    simp only [decide_eq_true_eq] at hnumber
    exact hnumber

lemma pow_le_of_length_toDigits {n : Nat} (h : 0 < n) :
    1 * 10 ^ ((Nat.toDigits 10 n).length - 1) ≤ n := by
  rw [Nat.one_mul]
  rcases Nat.eq_zero_or_pos ((Nat.toDigits 10 n).length - 1) with hone | hmore
  · rw [hone]
    exact h
  · by_contra hlt
    have hlength := (Nat.length_toDigits_le_iff (b := 10) (by decide) hmore).2
      (Nat.lt_of_not_le hlt)
    omega

/-- **Every double is read from its own text as a double**, though not always as the same one. -/
theorem exists_number_double (x : Binary64) :
    ∃ y, number (bytesOf (x.render doubleLayout)) = .ok (.double y, []) := by
  rw [Binary64.render]
  by_cases hzero : x.isZero = true
  · rw [if_pos hzero]
    have hnull : Digits ['0'] := ⟨by simp, by simp⟩
    exact exists_number_point hnull (fun _ => rfl) (by simp) hnull x.negative
  · rw [if_neg hzero]
    have hrank : 0 < x.rank := Nat.pos_of_ne_zero fun h => hzero (by simp [Binary64.isZero, h])
    rcases Decimal.shortest_cases hrank with hnone | ⟨hwithin, hscale⟩
    · rw [hnone]
      refine exists_number_render (fun _ => rfl) (by decide) (fun s k _ hle => ?_) x.negative
      have hs : s = 0 := by
        rcases Nat.mul_eq_zero.1 (Nat.le_zero.1 hle) with hs | hpow
        · exact hs
        · exact absurd hpow (Nat.ne_of_gt (Nat.pow_pos (by decide)))
      rw [hs]
      exact isSome_scaleByTen_zero _
    · have hpos := hwithin.pos
      have hexponent := Decimal.leading_exponent_le x.finite hwithin
        (pow_le_of_length_toDigits hpos)
      have hlength : 0 < (Nat.toDigits 10 (Decimal.shortest x.rank).digits).length :=
        Nat.length_toDigits_pos
      exact exists_number_render (fun h => by omega) (by omega)
        (fun s k hs hle => Decimal.isSome_leading hrank x.finite hwithin hscale hs hle) x.negative

/-- The double that the text of a double is read as. -/
def rereadDouble (x : Binary64) : Binary64 :=
  match number (bytesOf (x.render doubleLayout)) with
  | .ok (.double y, _) => y
  | _ => x

lemma number_double (x : Binary64) :
    number (bytesOf (x.render doubleLayout)) = .ok (.double (rereadDouble x), []) := by
  obtain ⟨y, hy⟩ := exists_number_double x
  rw [rereadDouble, hy]

end Sessions.Json
