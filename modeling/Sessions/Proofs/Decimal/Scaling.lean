import Sessions.Json.Lexical
import Sessions.Proofs.Decimal.Shortest

/-!
# Scaled significands

A reader rounds a significand, a power of ten, and their product or quotient. The product is finite
for the leading digits of every shortest decimal, even of the greatest doubles, though it may be a
neighbour of the number. Rounding keeps the order of numbers, so for each power of ten it is enough
to look at the greatest significand that can stand before it.
-/

namespace Sessions

open Binary64 (greatestUnits unitsOfRank unitsOfRank_mono)

namespace Json

variable {s t m n : Nat} {e : Int}

/-! ## Powers of ten -/

lemma ofNat_powerOfTen (h : n ≤ 308) : Binary64.ofNat false (10 ^ n) = some (powerOfTen n) := by
  have hgreatest : (Binary64.ofNat false (10 ^ 308)).isSome := by decide +kernel
  have hpow : 10 ^ n ≤ 10 ^ 308 := Nat.pow_le_pow_right (by decide) h
  obtain ⟨x, hx⟩ := Option.isSome_iff_exists.1 (Binary64.isSome_ofNat_of_le hpow hgreatest)
  rw [powerOfTen, hx, Option.getD_some]

lemma powerOfTen_mono (hmn : m ≤ n) (hn : n ≤ 308) :
    (powerOfTen m).units ≤ (powerOfTen n).units :=
  Binary64.units_ofNat_mono (Nat.pow_le_pow_right (by decide) hmn)
    (ofNat_powerOfTen (Nat.le_trans hmn hn)) (ofNat_powerOfTen hn)

lemma units_powerOfTen_zero : (powerOfTen 0).units = 2 ^ 1074 := by decide +kernel

lemma one_le_powerOfTen (h : n ≤ 308) : 2 ^ 1074 ≤ (powerOfTen n).units :=
  units_powerOfTen_zero ▸ powerOfTen_mono (Nat.zero_le n) h

lemma exists_ofNat (h : s < 2 ^ 64) : ∃ x, Binary64.ofNat false s = some x := by
  have hgreatest : (Binary64.ofNat false (2 ^ 64)).isSome := by decide +kernel
  exact Option.isSome_iff_exists.1
    (Binary64.isSome_ofNat_of_le (Nat.le_of_lt h) hgreatest)

/-! ## Significands that are scaled -/

lemma isSome_scaleByTen_of_nonpos (he : e ≤ 0) (s : Nat) : (scaleByTen s e).isSome := by
  unfold scaleByTen
  simp only
  split
  next hnonneg =>
    have hsize : e.natAbs = 0 := by omega
    rw [hsize, if_pos (by decide)]
    have hgreatest : (Binary64.ofUnits false greatestUnits 1).isSome := by decide +kernel
    refine Binary64.isSome_ofUnits_of_le (Nat.two_pow_pos 1074) Nat.one_pos ?_ hgreatest
    rw [units_powerOfTen_zero, Nat.mul_one]
    exact Nat.mul_le_mul_right _ (Binary64.units_le_greatest _)
  next =>
    split
    next hsize => exact Binary64.isSome_div (one_le_powerOfTen hsize)
    next =>
      split
      next hsize =>
        obtain ⟨x, hx⟩ := Option.isSome_iff_exists.1 <|
          Binary64.isSome_div (x := (Binary64.ofNat false s).getD default)
            (one_le_powerOfTen (Nat.le_refl 308))
        rw [hx, Option.bind_some]
        exact Binary64.isSome_div (one_le_powerOfTen (by omega))
      next => rfl

lemma scaleByTen_natCast (hn : n ≤ 308) (s : Nat) :
    scaleByTen s n = ((Binary64.ofNat false s).getD default).mul (powerOfTen n) := by
  unfold scaleByTen
  simp only
  rw [if_pos (Int.natCast_nonneg n), Int.natAbs_natCast, if_pos hn]

lemma isSome_scaleByTen_of_le (hst : s ≤ t) (ht : t < 2 ^ 64) (hmn : m ≤ n) (hn : n ≤ 308)
    (h : (scaleByTen t n).isSome) : (scaleByTen s m).isSome := by
  obtain ⟨x, hx⟩ := exists_ofNat (Nat.lt_of_le_of_lt hst ht)
  obtain ⟨y, hy⟩ := exists_ofNat ht
  rw [scaleByTen_natCast hn, hy, Option.getD_some] at h
  rw [scaleByTen_natCast (Nat.le_trans hmn hn), hx, Option.getD_some]
  exact Binary64.isSome_mul_of_le (Binary64.units_ofNat_mono hst hx hy) (powerOfTen_mono hmn hn) h

lemma isSome_scaleByTen_zero (e : Int) : (scaleByTen 0 e).isSome := by
  rcases Int.le_total e 0 with he | he
  · exact isSome_scaleByTen_of_nonpos he 0
  · obtain ⟨n, rfl⟩ := Int.eq_ofNat_of_zero_le he
    by_cases hn : n ≤ 308
    · have hgreatest : (scaleByTen 0 (308 : Nat)).isSome := by decide +kernel
      exact isSome_scaleByTen_of_le (Nat.le_refl 0) (by decide) hn (Nat.le_refl 308) hgreatest
    · unfold scaleByTen
      simp only
      rw [if_pos he, Int.natAbs_natCast, if_neg hn, if_pos trivial]
      rfl

/-- What is no greater than `bound` is finite if, for each power of ten, the greatest significand
is that can stand before it. -/
lemma isSome_scaleByTen_of_mul_le {bound first : Nat} (hbound : bound < 10 ^ 309)
    (hcheck : ∀ i ∈ List.range' first (309 - first),
      (scaleByTen (min (bound / 10 ^ i) (2 ^ 64 - 1)) i).isSome)
    (hs : s < 2 ^ 64) (hn : first ≤ n) (h : s * 10 ^ n ≤ bound) : (scaleByTen s n).isSome := by
  by_cases hsize : n ≤ 308
  · have hmem : n ∈ List.range' first (309 - first) := by
      rw [List.mem_range'_1]
      omega
    have hle : s ≤ bound / 10 ^ n := (Nat.le_div_iff_mul_le (Nat.pow_pos (by decide))).2 h
    exact isSome_scaleByTen_of_le (by omega) (by omega) (Nat.le_refl n) hsize (hcheck n hmem)
  · -- only zero can stand before a greater power
    have hpow : 10 ^ 309 ≤ 10 ^ n := Nat.pow_le_pow_right (by decide) (by omega)
    have hzero : s = 0 := by
      by_contra hne
      have := Nat.le_mul_of_pos_left (10 ^ n) (Nat.pos_of_ne_zero hne)
      omega
    rw [hzero]
    exact isSome_scaleByTen_zero n

end Json

open Json (scaleByTen)

namespace Decimal

variable {rank s k : Nat} {x : Decimal}

lemma shortest_greatest : shortest (2047 * 2 ^ 52 - 1) = ⟨17976931348623157, 292⟩ := by
  decide +kernel

/-- **Leading digits of a shortest decimal are finite at their place.** -/
theorem isSome_leading (hrank : 0 < rank) (hfinite : rank < 2047 * 2 ^ 52)
    (hx : Within rank (shortest rank))
    (hscale : leadingExponent (unitsOfRank rank) (2 ^ 1074) - 16 ≤ (shortest rank).scale)
    (hs : s < 2 ^ 64) (hlead : s * 10 ^ k ≤ (shortest rank).digits) :
    (scaleByTen s ((shortest rank).scale + k)).isSome := by
  rcases Int.le_total ((shortest rank).scale + k) 0 with hneg | hnonneg
  · exact Json.isSome_scaleByTen_of_nonpos hneg s
  obtain ⟨n, hn⟩ := Int.eq_ofNat_of_zero_le hnonneg
  have hvalue := hx.leading hlead hnonneg
  rw [hn] at hvalue ⊢
  rw [Int.toNat_natCast] at hvalue
  by_cases hlow : rank < 2046 * 2 ^ 52
  · -- below `2 ^ 1023`
    have hbound : unitsOfRank (2046 * 2 ^ 52) = 2 ^ 1023 * 2 ^ 1074 := by decide +kernel
    have hhere : unitsOfRank rank ≤ 2 ^ 1023 * 2 ^ 1074 :=
      hbound ▸ unitsOfRank_mono (Nat.le_of_lt hlow)
    have hnext : unitsOfRank (rank + 1) ≤ 2 ^ 1023 * 2 ^ 1074 := hbound ▸ unitsOfRank_mono hlow
    have hle : s * 10 ^ n ≤ 2 ^ 1023 := by
      refine Nat.le_of_mul_le_mul_right ?_ (Nat.two_pow_pos 1075)
      omega
    have hcheck : ∀ i ∈ List.range' 288 (309 - 288),
        (scaleByTen (min (2 ^ 1023 / 10 ^ i) (2 ^ 64 - 1)) i).isSome := by decide +kernel
    rcases Nat.lt_or_ge n 288 with hsmall | hlarge
    · have hfirst : (scaleByTen (2 ^ 64 - 1) (288 : Nat)).isSome := by decide +kernel
      exact Json.isSome_scaleByTen_of_le (by omega) (by decide) (Nat.le_of_lt hsmall) (by decide)
        hfirst
    · exact Json.isSome_scaleByTen_of_mul_le (by decide +kernel) hcheck hs hlarge hle
  · have hgreat : 10 ^ 307 * 2 ^ 1074 ≤ unitsOfRank rank :=
      Nat.le_trans (by decide +kernel) (unitsOfRank_mono (Nat.le_of_not_lt hlow))
    have hleading := le_leadingExponent (Nat.two_pow_pos 1074) hgreat
    have hle : s * 10 ^ n ≤ 17976931348623158 * 10 ^ 292 - 1 := by
      by_cases hgreatest : rank = 2047 * 2 ^ 52 - 1
      · rw [hgreatest, shortest_greatest] at hlead hn
        simp only at hlead hn
        have hsplit : n = k + 292 := by omega
        have hmul := Nat.mul_le_mul_right (10 ^ 292) hlead
        rw [hsplit, Nat.pow_add, ← Nat.mul_assoc]
        exact Nat.le_trans hmul (by decide +kernel)
      · have hbound : greatestUnits ≤ (17976931348623158 * 10 ^ 292 - 1) * 2 ^ 1074 := by
          decide +kernel
        have hhere : unitsOfRank rank ≤ greatestUnits := unitsOfRank_mono (by omega)
        have hnext : unitsOfRank (rank + 1) ≤ greatestUnits := unitsOfRank_mono (by omega)
        refine Nat.le_of_mul_le_mul_right ?_ (Nat.two_pow_pos 1075)
        generalize 17976931348623158 * 10 ^ 292 - 1 = bound at hbound ⊢
        omega
    have hcheck : ∀ i ∈ List.range' 291 (309 - 291),
        (scaleByTen (min ((17976931348623158 * 10 ^ 292 - 1) / 10 ^ i) (2 ^ 64 - 1)) i).isSome := by
      decide +kernel
    exact Json.isSome_scaleByTen_of_mul_le (by decide +kernel) hcheck hs (by omega) hle

lemma leading_exponent_le (hfinite : rank < 2047 * 2 ^ 52) (hx : Within rank x)
    (hlead : 1 * 10 ^ k ≤ x.digits) : x.scale + k ≤ 308 := by
  by_contra hgreat
  have hnonneg : 0 ≤ x.scale + k := by omega
  have hvalue := hx.leading hlead hnonneg
  have hlimit : unitsOfRank (2047 * 2 ^ 52) ≤ 10 ^ 309 * 2 ^ 1073 := by decide +kernel
  have hhere : unitsOfRank rank ≤ unitsOfRank (2047 * 2 ^ 52) := unitsOfRank_mono (by omega)
  have hnext : unitsOfRank (rank + 1) ≤ unitsOfRank (2047 * 2 ^ 52) := unitsOfRank_mono (by omega)
  have hpow : 10 ^ 309 ≤ 10 ^ (x.scale + k).toNat := Nat.pow_le_pow_right (by decide) (by omega)
  have hpos : 0 < 10 ^ 309 * 2 ^ 1073 := by decide +kernel
  have hmul : 10 ^ 309 * 2 ^ 1075 ≤ 1 * 10 ^ (x.scale + k).toNat * 2 ^ 1075 := by
    rw [Nat.one_mul]
    exact Nat.mul_le_mul_right _ hpow
  have hsplit : 10 ^ 309 * 2 ^ 1075 = 4 * (10 ^ 309 * 2 ^ 1073) := by decide +kernel
  generalize 10 ^ 309 * 2 ^ 1073 = unit at *
  omega

end Decimal

end Sessions
