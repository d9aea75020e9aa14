import Mathlib.Tactic.ByContra
import Mathlib.Tactic.Lemma
import Mathlib.Tactic.SplitIfs
import Sessions.Decimal.Binary64

/-!
# Rounding is monotone

A greater quotient never rounds to a smaller rank, and a greater rank never has a smaller
magnitude. So whether a product or a quotient of doubles is finite can be told from one that is
not smaller.
-/

namespace Sessions.Binary64

variable {n d m e k : Nat}

/-! ## Rounding to whole numbers -/

/-- A quotient rounds to `k` or less as long as it lies below the middle between `k` and the next
whole number, and in the middle if `k` is even. -/
lemma roundHalfEven_le_iff (hd : 0 < d) :
    roundHalfEven n d ≤ k ↔
      2 * n < (2 * k + 1) * d ∨ 2 * n = (2 * k + 1) * d ∧ k % 2 = 0 := by
  have hn : d * (n / d) + n % d = n := Nat.div_add_mod n d
  have hr : n % d < d := Nat.mod_lt n hd
  have hmiddle : (2 * k + 1) * d = 2 * (d * k) + d := by
    rw [Nat.add_mul, Nat.one_mul, Nat.mul_assoc, Nat.mul_comm k d]
  rw [hmiddle]
  unfold roundHalfEven
  simp only
  rcases Nat.lt_trichotomy k (n / d) with hlt | heq | hgt
  · have hmul : d * (k + 1) ≤ d * (n / d) := Nat.mul_le_mul_left d hlt
    rw [Nat.mul_succ] at hmul
    split_ifs <;> omega
  · rw [← heq] at hn ⊢
    split_ifs <;> omega
  · have hmul : d * (n / d + 1) ≤ d * k := Nat.mul_le_mul_left d hgt
    rw [Nat.mul_succ] at hmul
    split_ifs <;> omega

lemma roundHalfEven_mono (hd : 0 < d) (he : 0 < e) (h : n * e ≤ m * d) :
    roundHalfEven n d ≤ roundHalfEven m e := by
  have hle : ∀ x : Nat, 2 * m ≤ x * e → 2 * n ≤ x * d := by
    intro x hx
    refine Nat.le_of_mul_le_mul_right ?_ he
    calc 2 * n * e = 2 * (n * e) := Nat.mul_assoc 2 n e
      _ ≤ 2 * (m * d) := Nat.mul_le_mul_left 2 h
      _ = 2 * m * d := (Nat.mul_assoc 2 m d).symm
      _ ≤ x * e * d := Nat.mul_le_mul_right d hx
      _ = x * d * e := Nat.mul_right_comm x e d
  have hlt : ∀ x : Nat, 2 * m < x * e → 2 * n < x * d := by
    intro x hx
    refine Nat.lt_of_mul_lt_mul_right (a := e) ?_
    calc 2 * n * e = 2 * (n * e) := Nat.mul_assoc 2 n e
      _ ≤ 2 * (m * d) := Nat.mul_le_mul_left 2 h
      _ = 2 * m * d := (Nat.mul_assoc 2 m d).symm
      _ < x * e * d := Nat.mul_lt_mul_of_pos_right hx hd
      _ = x * d * e := Nat.mul_right_comm x e d
  rcases (roundHalfEven_le_iff he).1 (Nat.le_refl (roundHalfEven m e)) with hbelow | ⟨hmid, heven⟩
  · exact (roundHalfEven_le_iff hd).2 (.inl (hlt _ hbelow))
  · rcases Nat.lt_or_eq_of_le (hle _ (Nat.le_of_eq hmid)) with hbelow | hmiddle
    · exact (roundHalfEven_le_iff hd).2 (.inl hbelow)
    · exact (roundHalfEven_le_iff hd).2 (.inr ⟨hmiddle, heven⟩)

/-! ## Rounding to ranks -/

lemma roundHalfEven_shifted_le (hd : 0 < d) (n : Nat) :
    roundHalfEven n (d * 2 ^ ((n / d).log2 - 52)) ≤ 2 ^ 53 := by
  have hpos : 0 < d * 2 ^ ((n / d).log2 - 52) := Nat.mul_pos hd (Nat.two_pow_pos _)
  have hquotient : n / d < 2 ^ 53 * 2 ^ ((n / d).log2 - 52) := by
    rw [← Nat.pow_add]
    exact Nat.lt_of_lt_of_le Nat.lt_log2_self (Nat.pow_le_pow_right (by decide) (by omega))
  have hn : n < 2 ^ 53 * (d * 2 ^ ((n / d).log2 - 52)) := by
    have := (Nat.div_lt_iff_lt_mul hd).1 hquotient
    rwa [Nat.mul_assoc, Nat.mul_comm (2 ^ ((n / d).log2 - 52)) d] at this
  refine (roundHalfEven_le_iff hpos).2 (.inl ?_)
  rw [Nat.add_mul, Nat.mul_assoc]
  omega

lemma le_roundHalfEven_shifted (hd : 0 < d) (hshift : 52 < (n / d).log2) :
    2 ^ 52 ≤ roundHalfEven n (d * 2 ^ ((n / d).log2 - 52)) := by
  have hpos : 0 < d * 2 ^ ((n / d).log2 - 52) := Nat.mul_pos hd (Nat.two_pow_pos _)
  have hne : n / d ≠ 0 := by
    intro hzero
    rw [hzero] at hshift
    exact absurd hshift (by decide)
  have hquotient : 2 ^ 52 * 2 ^ ((n / d).log2 - 52) ≤ n / d := by
    rw [← Nat.pow_add, show 52 + ((n / d).log2 - 52) = (n / d).log2 by omega]
    exact Nat.log2_self_le hne
  have hn : 2 ^ 52 * (d * 2 ^ ((n / d).log2 - 52)) ≤ n := by
    have := (Nat.le_div_iff_mul_le hd).1 hquotient
    rwa [Nat.mul_assoc, Nat.mul_comm (2 ^ ((n / d).log2 - 52)) d] at this
  by_contra hlt
  have hle : roundHalfEven n (d * 2 ^ ((n / d).log2 - 52)) ≤ 2 ^ 52 - 1 := by omega
  rcases (roundHalfEven_le_iff hpos).1 hle with h | ⟨h, -⟩ <;>
    · rw [Nat.add_mul, Nat.mul_assoc, Nat.sub_mul] at h
      omega

/-- **A greater quotient has no smaller rank.** -/
theorem nearestRank_mono (hd : 0 < d) (he : 0 < e) (h : n * e ≤ m * d) :
    nearestRank n d ≤ nearestRank m e := by
  have hquotient : n / d ≤ m / e := by
    refine (Nat.le_div_iff_mul_le he).2 (Nat.le_of_mul_le_mul_right ?_ hd)
    calc n / d * e * d = n / d * d * e := Nat.mul_right_comm _ e d
      _ ≤ n * e := Nat.mul_le_mul_right e (Nat.div_mul_le_self n d)
      _ ≤ m * d := h
  have hlog : (n / d).log2 ≤ (m / e).log2 := by
    by_cases hzero : n / d = 0
    · rw [hzero]
      exact Nat.zero_le _
    · have hne : m / e ≠ 0 :=
        Nat.ne_of_gt (Nat.lt_of_lt_of_le (Nat.pos_of_ne_zero hzero) hquotient)
      exact (Nat.le_log2 hne).2 (Nat.le_trans (Nat.log2_self_le hzero) hquotient)
  unfold nearestRank
  simp only
  rcases Nat.lt_or_eq_of_le (Nat.sub_le_sub_right hlog 52) with hlt | heq
  · -- the ranks lie on the two sides of the least one with the greater shift
    have hlow := roundHalfEven_shifted_le hd n
    have hhigh := le_roundHalfEven_shifted (n := m) he (by omega)
    omega
  · rw [heq]
    refine Nat.add_le_add_left (roundHalfEven_mono (Nat.mul_pos hd (Nat.two_pow_pos _))
      (Nat.mul_pos he (Nat.two_pow_pos _)) ?_) _
    rw [← Nat.mul_assoc, ← Nat.mul_assoc]
    exact Nat.mul_le_mul_right _ h

/-- **A greater rank has no smaller magnitude.** -/
theorem unitsOfRank_mono {r s : Nat} (h : r ≤ s) : unitsOfRank r ≤ unitsOfRank s := by
  have hstep : ∀ r, unitsOfRank r ≤ unitsOfRank (r + 1) := by
    intro r
    unfold unitsOfRank
    by_cases hsmall : r + 1 < 2 ^ 52
    · rw [if_pos (by omega), if_pos hsmall]
      exact Nat.le_succ r
    · rw [if_neg hsmall]
      split
      next =>
        have hnext : r + 1 = 2 ^ 52 := by omega
        rw [hnext]
        omega
      next hlarge =>
        by_cases hwrap : r % 2 ^ 52 + 1 < 2 ^ 52
        · rw [show (r + 1) / 2 ^ 52 = r / 2 ^ 52 by omega,
            show (r + 1) % 2 ^ 52 = r % 2 ^ 52 + 1 by omega]
          exact Nat.mul_le_mul_right _ (by omega)
        · have hexponent : (r + 1) / 2 ^ 52 - 1 = r / 2 ^ 52 - 1 + 1 := by omega
          have hpow : 2 ^ (r / 2 ^ 52 - 1 + 1) = 2 * 2 ^ (r / 2 ^ 52 - 1) := Nat.pow_succ'
          rw [hexponent, hpow, ← Nat.mul_assoc]
          exact Nat.mul_le_mul_right _ (by omega)
  induction h with
  | refl => exact Nat.le_refl _
  | step _ ih => exact Nat.le_trans ih (hstep _)

/-! ## Finite results -/

variable {x y u v : Binary64}

def greatestUnits : Nat := unitsOfRank (2047 * 2 ^ 52 - 1)

lemma units_le_greatest (x : Binary64) : x.units ≤ greatestUnits :=
  unitsOfRank_mono (Nat.le_sub_one_of_lt x.finite)

lemma isSome_ofUnits {negative : Bool} :
    (ofUnits negative n d).isSome ↔ nearestRank n d < 2047 * 2 ^ 52 := by
  unfold ofUnits
  simp only
  split <;> simp_all

lemma isSome_ofUnits_of_le {a b : Bool} (hd : 0 < d) (he : 0 < e) (h : n * e ≤ m * d)
    (hfinite : (ofUnits b m e).isSome) : (ofUnits a n d).isSome := by
  rw [isSome_ofUnits] at hfinite ⊢
  exact Nat.lt_of_le_of_lt (nearestRank_mono hd he h) hfinite

lemma isSome_mul_of_le (hx : x.units ≤ u.units) (hy : y.units ≤ v.units)
    (h : (u.mul v).isSome) : (x.mul y).isSome :=
  isSome_ofUnits_of_le (Nat.two_pow_pos 1074) (Nat.two_pow_pos 1074)
    (Nat.mul_le_mul_right _ (Nat.mul_le_mul hx hy)) h

lemma isSome_div (hy : 2 ^ 1074 ≤ y.units) : (x.div y).isSome := by
  have hgreatest : (ofUnits false greatestUnits 1).isSome := by decide +kernel
  refine isSome_ofUnits_of_le (Nat.lt_of_lt_of_le (Nat.two_pow_pos 1074) hy) Nat.one_pos ?_
    hgreatest
  rw [Nat.mul_one]
  exact Nat.mul_le_mul x.units_le_greatest hy

lemma units_ofNat_mono {a b : Bool} (h : n ≤ m) (hx : ofNat a n = some x)
    (hy : ofNat b m = some y) : x.units ≤ y.units := by
  have hrank : ∀ {c : Bool} {k : Nat} {z : Binary64}, ofNat c k = some z →
      z.rank = nearestRank (k * 2 ^ 1074) 1 := by
    intro c k z hz
    unfold ofNat ofUnits at hz
    simp only at hz
    split at hz
    · rw [← Option.some.inj hz]
    · cases hz
  refine unitsOfRank_mono ?_
  rw [hrank hx, hrank hy]
  exact nearestRank_mono Nat.one_pos Nat.one_pos
    (Nat.mul_le_mul_right 1 (Nat.mul_le_mul_right _ h))

lemma isSome_ofNat_of_le {a b : Bool} (h : n ≤ m) (hm : (ofNat b m).isSome) :
    (ofNat a n).isSome :=
  isSome_ofUnits_of_le Nat.one_pos Nat.one_pos (Nat.mul_le_mul_right 1 (Nat.mul_le_mul_right _ h))
    hm

end Sessions.Binary64
