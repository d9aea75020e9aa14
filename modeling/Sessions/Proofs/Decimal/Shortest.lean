import Sessions.Decimal.Shortest
import Sessions.Proofs.Decimal.Rounding

/-!
# How large shortest decimals are

The shortest decimal of a positive number is positive, and it does not lie above the middle between
the number and the next greater one. Where the search for it ends without one, it is zero.
-/

namespace Sessions.Decimal

open Binary64 (unitsOfRank unitsOfRank_mono)

variable {rank digits n d k : Nat} {scale : Int} {x : Decimal}

/-- A positive decimal that does not lie above the middle between a rank and the next one. -/
structure Within (rank : Nat) (x : Decimal) : Prop where
  pos : 0 < x.digits
  le : x.digits * (inSteps (unitsOfRank rank + unitsOfRank (rank + 1)) x.scale).2 ≤
    (inSteps (unitsOfRank rank + unitsOfRank (rank + 1)) x.scale).1

lemma unitsOfRank_pos (h : 0 < rank) : 0 < unitsOfRank rank :=
  Nat.lt_of_lt_of_le (by decide : 0 < unitsOfRank 1) (unitsOfRank_mono h)

lemma within_of_roundsTo (hrank : 0 < rank) (h : roundsTo rank digits scale = true) :
    Within rank ⟨digits, scale⟩ := by
  have hlow : 0 < (inSteps (unitsOfRank (rank - 1) + unitsOfRank rank) scale).1 :=
    Nat.mul_pos (Nat.add_pos_right _ (unitsOfRank_pos hrank)) (Nat.pow_pos (by decide))
  have hbounds : 0 < digits * (inSteps (unitsOfRank (rank - 1) + unitsOfRank rank) scale).2 ∧
      digits * (inSteps (unitsOfRank rank + unitsOfRank (rank + 1)) scale).2 ≤
        (inSteps (unitsOfRank rank + unitsOfRank (rank + 1)) scale).1 := by
    unfold roundsTo at h
    simp only at h
    split at h
    · simp only [Bool.and_eq_true, decide_eq_true_eq] at h
      exact ⟨Nat.lt_of_lt_of_le hlow h.1, h.2⟩
    · simp only [Bool.and_eq_true, decide_eq_true_eq] at h
      exact ⟨Nat.lt_trans hlow h.1, Nat.le_of_lt h.2⟩
  have hpos : 0 < digits := by
    refine Nat.pos_of_ne_zero fun hzero => ?_
    rw [hzero, Nat.zero_mul] at hbounds
    exact Nat.lt_irrefl 0 hbounds.1
  exact ⟨hpos, hbounds.2⟩

lemma within_of_onGrid? (hrank : 0 < rank) (h : onGrid? rank scale = some digits) :
    Within rank ⟨digits, scale⟩ := by
  unfold onGrid? at h
  simp only at h
  split at h
  next hnearer => exact within_of_roundsTo hrank (Option.some.inj h ▸ hnearer)
  next =>
    obtain ⟨hfarther, hdigits⟩ := Option.ite_none_right_eq_some.1 h
    exact within_of_roundsTo hrank (Option.some.inj hdigits ▸ hfarther)

/-! A multiple of `one * 10 ^ scale` that is bounded by another number, with negative powers put on
the other side. -/

lemma strip_le (one : Nat) {q bound : Nat} {scale : Int}
    (h : q * 10 * (one * 10 ^ scale.toNat) ≤ bound * 10 ^ (-scale).toNat) :
    q * (one * 10 ^ (scale + 1).toNat) ≤ bound * 10 ^ (-(scale + 1)).toNat := by
  rcases Int.lt_or_le scale 0 with hneg | hnonneg
  · have hscale : scale.toNat = 0 ∧ (scale + 1).toNat = 0 ∧
        (-scale).toNat = (-(scale + 1)).toNat + 1 := by omega
    rw [hscale.1, hscale.2.2, Nat.pow_succ, Nat.pow_zero, Nat.mul_one, ← Nat.mul_assoc,
      Nat.mul_right_comm] at h
    rw [hscale.2.1, Nat.pow_zero, Nat.mul_one]
    exact Nat.le_of_mul_le_mul_right h (by decide)
  · have hscale : (scale + 1).toNat = scale.toNat + 1 ∧ (-scale).toNat = 0 ∧
        (-(scale + 1)).toNat = 0 := by omega
    rw [hscale.2.1] at h
    rw [hscale.1, hscale.2.2, Nat.pow_succ]
    calc q * (one * (10 ^ scale.toNat * 10)) = q * 10 * (one * 10 ^ scale.toNat) := by
          rw [Nat.mul_assoc q 10, Nat.mul_left_comm 10, Nat.mul_comm 10]
      _ ≤ bound * 10 ^ 0 := h

lemma leading_le (one : Nat) {digits bound : Nat} {scale : Int}
    (h : digits * (one * 10 ^ scale.toNat) ≤ bound * 10 ^ (-scale).toNat)
    (hlead : n * 10 ^ k ≤ digits) (hscale : 0 ≤ scale + k) :
    n * 10 ^ (scale + k).toNat * one ≤ bound := by
  rcases Int.lt_or_le scale 0 with hneg | hnonneg
  · have hk : scale.toNat = 0 ∧ k = (scale + k).toNat + (-scale).toNat := by omega
    rw [hk.1, Nat.pow_zero, Nat.mul_one] at h
    rw [hk.2, Nat.pow_add, ← Nat.mul_assoc] at hlead
    have hpow : 0 < 10 ^ (-scale).toNat := Nat.pow_pos (by decide)
    refine Nat.le_of_mul_le_mul_right ?_ hpow
    calc n * 10 ^ (scale + k).toNat * one * 10 ^ (-scale).toNat
        = n * 10 ^ (scale + k).toNat * 10 ^ (-scale).toNat * one := Nat.mul_right_comm _ _ _
      _ ≤ digits * one := Nat.mul_le_mul_right one hlead
      _ ≤ bound * 10 ^ (-scale).toNat := h
  · have hk : (scale + k).toNat = k + scale.toNat ∧ (-scale).toNat = 0 := by omega
    rw [hk.2, Nat.pow_zero, Nat.mul_one] at h
    calc n * 10 ^ (scale + k).toNat * one
        = n * 10 ^ k * (one * 10 ^ scale.toNat) := by
          rw [hk.1, Nat.pow_add, ← Nat.mul_assoc, Nat.mul_assoc _ _ one, Nat.mul_comm one]
      _ ≤ digits * (one * 10 ^ scale.toNat) := Nat.mul_le_mul_right _ hlead
      _ ≤ bound := h

lemma Within.strip (h : Within rank x) (hzero : x.digits % 10 = 0) :
    Within rank ⟨x.digits / 10, x.scale + 1⟩ := by
  have hpos := h.pos
  have hle := h.le
  have hdigits : x.digits = x.digits / 10 * 10 := by omega
  rw [hdigits] at hle
  exact ⟨by change 0 < x.digits / 10; omega, strip_le (2 ^ 1075) hle⟩

/-- Some leading digits of the decimal, at their place, do not lie above that middle either. -/
lemma Within.leading (h : Within rank x) (hlead : n * 10 ^ k ≤ x.digits)
    (hscale : 0 ≤ x.scale + k) :
    n * 10 ^ (x.scale + k).toNat * 2 ^ 1075 ≤ unitsOfRank rank + unitsOfRank (rank + 1) :=
  leading_le (2 ^ 1075) h.le hlead hscale

lemma Within.stripZeros (h : Within rank x) (fuel : Nat) :
    Within rank (x.stripZeros fuel) ∧ x.scale ≤ (x.stripZeros fuel).scale := by
  induction fuel generalizing x with
  | zero => exact ⟨h, Int.le_refl _⟩
  | succ fuel ih =>
    rw [Decimal.stripZeros]
    split
    next hzero =>
      obtain ⟨hwithin, hscale⟩ := ih (h.strip hzero.2)
      exact ⟨hwithin, Int.le_trans (by change x.scale ≤ x.scale + 1; omega) hscale⟩
    next => exact ⟨h, Int.le_refl _⟩

/-- The grids that are searched begin at the leading digit and end sixteen digits below it. -/
theorem shortest_cases (hrank : 0 < rank) :
    shortest rank = ⟨0, 0⟩ ∨ Within rank (shortest rank) ∧
      leadingExponent (unitsOfRank rank) (2 ^ 1074) - 16 ≤ (shortest rank).scale := by
  unfold shortest
  simp only
  generalize leadingExponent (unitsOfRank rank) (2 ^ 1074) = leading
  cases hfound : (List.range 17).findSome? fun n : Nat =>
      (onGrid? rank (leading - n)).map fun digits => (⟨digits, leading - n⟩ : Decimal) with
  | none => exact .inl rfl
  | some x =>
    right
    obtain ⟨n, hn, hx⟩ := List.exists_of_findSome?_eq_some hfound
    obtain ⟨digits, hgrid, rfl⟩ := Option.map_eq_some_iff.1 hx
    obtain ⟨hwithin, hscale⟩ := (within_of_onGrid? hrank hgrid).stripZeros 17
    have hrange := List.mem_range.1 hn
    rw [Option.getD_some]
    exact ⟨hwithin, Int.le_trans (by change _ ≤ leading - (n : Int); omega) hscale⟩

lemma le_leadingExponent (hd : 0 < d) (h : 10 ^ k * d ≤ n) : (k : Int) ≤ leadingExponent n d := by
  have hquotient : 10 ^ k ≤ n / d := (Nat.le_div_iff_mul_le hd).2 h
  have hle : d ≤ n := Nat.le_trans (Nat.le_mul_of_pos_left d (Nat.pow_pos (Nat.zero_lt_succ 9))) h
  have hcount : k < digitCount (n / d) := by
    rcases Nat.eq_zero_or_pos k with rfl | hk
    · exact Nat.length_toDigits_pos
    · by_contra hcount
      have hlt := (Nat.length_toDigits_le_iff (b := 10) (by decide) hk).1 (Nat.le_of_not_lt hcount)
      omega
  rw [leadingExponent, if_pos hle]
  omega

end Sessions.Decimal
