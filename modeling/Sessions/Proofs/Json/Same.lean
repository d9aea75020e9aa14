import Sessions.Attributes
import Sessions.Proofs.Basic

/-!
# Values that are the same

Being the same is coarser than equality, because the two zeros among the doubles are the same. It
is an equivalence all the same, and attributes that hold the same under each name are the same.
-/

namespace Sessions

namespace Binary64

lemma same_refl (x : Binary64) : x.same x = true := by simp [same]

lemma same_trans {x y z : Binary64} (hxy : x.same y = true) (hyz : y.same z = true) :
    x.same z = true := by
  simp only [same, Bool.and_eq_true, Bool.or_eq_true, decide_eq_true_eq] at hxy hyz ⊢
  obtain ⟨hrank, hsign⟩ := hxy
  obtain ⟨hrank', hsign'⟩ := hyz
  refine ⟨hrank.trans hrank', ?_⟩
  rcases hsign with hsign | hzero
  · rcases hsign' with hsign' | hzero'
    · exact .inl (hsign.trans hsign')
    · exact .inr (hrank.trans hzero')
  · exact .inr hzero

end Binary64

namespace Json

lemma same_refl (v : Json) : v.same v = true := sameBy_refl Binary64.same_refl v

variable {number : Binary64 → Binary64 → Bool}

mutual

lemma sameBy_trans
    (h : ∀ x y z, number x y = true → number y z = true → number x z = true) :
    ∀ {u v w : Json}, sameBy number u v = true → sameBy number v w = true →
      sameBy number u w = true
  | null, v, w, huv, hvw => by
    cases v <;> simp only [sameBy, Bool.false_eq_true] at huv
    exact hvw
  | bool _, v, w, huv, hvw => by
    cases v <;> simp only [sameBy, Bool.false_eq_true, beq_iff_eq] at huv
    exact huv ▸ hvw
  | int _, v, w, huv, hvw => by
    cases v <;> simp only [sameBy, Bool.false_eq_true, beq_iff_eq] at huv
    exact huv ▸ hvw
  | str _, v, w, huv, hvw => by
    cases v <;> simp only [sameBy, Bool.false_eq_true, beq_iff_eq] at huv
    exact huv ▸ hvw
  | double x, v, w, huv, hvw => by
    cases v <;> simp only [sameBy, Bool.false_eq_true] at huv
    cases w <;> simp only [sameBy, Bool.false_eq_true] at hvw ⊢
    exact h _ _ _ huv hvw
  | arr xs, v, w, huv, hvw => by
    cases v <;> simp only [sameBy, Bool.false_eq_true] at huv
    cases w <;> simp only [sameBy, Bool.false_eq_true] at hvw ⊢
    exact sameItemsBy_trans h huv hvw
  | obj xs, v, w, huv, hvw => by
    cases v <;> simp only [sameBy, Bool.false_eq_true] at huv
    cases w <;> simp only [sameBy, Bool.false_eq_true] at hvw ⊢
    exact sameMembersBy_trans h huv hvw

lemma sameItemsBy_trans
    (h : ∀ x y z, number x y = true → number y z = true → number x z = true) :
    ∀ {u v w : List Json}, sameItemsBy number u v = true → sameItemsBy number v w = true →
      sameItemsBy number u w = true
  | [], [], _, _, hvw => hvw
  | _ :: _, _ :: _, [], _, hvw => by simp [sameItemsBy] at hvw
  | _ :: _, _ :: _, _ :: _, huv, hvw => by
    simp only [sameItemsBy, Bool.and_eq_true] at huv hvw ⊢
    exact ⟨sameBy_trans h huv.1 hvw.1, sameItemsBy_trans h huv.2 hvw.2⟩

lemma sameMembersBy_trans
    (h : ∀ x y z, number x y = true → number y z = true → number x z = true) :
    ∀ {u v w : List (String × Json)}, sameMembersBy number u v = true →
      sameMembersBy number v w = true → sameMembersBy number u w = true
  | [], [], _, _, hvw => hvw
  | _ :: _, _ :: _, [], _, hvw => by simp [sameMembersBy] at hvw
  | (_, _) :: _, (_, _) :: _, (_, _) :: _, huv, hvw => by
    simp only [sameMembersBy, Bool.and_eq_true, beq_iff_eq] at huv hvw ⊢
    exact ⟨⟨huv.1.1.trans hvw.1.1, sameBy_trans h huv.1.2 hvw.1.2⟩,
      sameMembersBy_trans h huv.2 hvw.2⟩

end

lemma same_trans {u v w : Json} (huv : u.same v = true) (hvw : v.same w = true) :
    u.same w = true :=
  @sameBy_trans Binary64.same (fun _ _ _ => Binary64.same_trans) u v w huv hvw

/-- Whether a name that held `v` now holds the same. -/
def SameHeld (v w : Option Json) : Prop := Option.Rel (fun x y => x.same y = true) v w

lemma SameHeld.refl (v : Option Json) : SameHeld v v := rel_refl same_refl v

lemma SameHeld.trans {u v w : Option Json} (huv : SameHeld u v) (hvw : SameHeld v w) :
    SameHeld u w := by
  cases huv with
  | none => exact hvw
  | some huv =>
    cases hvw with
    | some hvw => exact .some (same_trans huv hvw)

lemma find?_of_lt_head {name first : String} {v : Json} {rest : List (String × Json)}
    (h : Entries.Ascending ((first, v) :: rest)) (hlt : name < first) :
    Entries.find? name ((first, v) :: rest) = none := by
  refine Entries.find?_eq_none_of_lt fun e he => ?_
  rcases List.mem_cons.1 he with rfl | he
  · exact hlt
  · exact String.lt_trans hlt ((Entries.ascending_cons.1 h).1 e he)

lemma sameMembersBy_of_find? {xs ys : List (String × Json)} (hx : Entries.Ascending xs)
    (hy : Entries.Ascending ys)
    (h : ∀ name, SameHeld (Entries.find? name xs) (Entries.find? name ys)) :
    sameMembersBy Binary64.same xs ys = true := by
  have hself : ∀ (name : String) (v : Json) (rest : List (String × Json)),
      Entries.find? name ((name, v) :: rest) = some v := fun _ _ _ => if_pos rfl
  induction xs generalizing ys with
  | nil =>
    cases ys with
    | nil => rfl
    | cons f more =>
      have hnone := h f.1
      rw [hself] at hnone
      cases hnone
  | cons e rest ih =>
    obtain ⟨n, v⟩ := e
    cases ys with
    | nil =>
      have hnone := h n
      rw [hself] at hnone
      cases hnone
    | cons f more =>
      obtain ⟨m, w⟩ := f
      have hle : ¬n < m := fun hlt => by
        have hnone := h n
        rw [hself, find?_of_lt_head hy hlt] at hnone
        cases hnone
      have hge : ¬m < n := fun hlt => by
        have hnone := h m
        rw [hself, find?_of_lt_head hx hlt] at hnone
        cases hnone
      obtain rfl : n = m := String.le_antisymm (String.not_lt.1 hge) (String.not_lt.1 hle)
      obtain ⟨hhead, htail⟩ := Entries.ascending_cons.1 hx
      obtain ⟨hhead', htail'⟩ := Entries.ascending_cons.1 hy
      have hvw := h n
      rw [hself, hself] at hvw
      cases hvw with
      | some hvw =>
        simp only [sameMembersBy, beq_self_eq_true, Bool.true_and, Bool.and_eq_true]
        refine ⟨hvw, ih htail htail' fun name => ?_⟩
        by_cases hname : n = name
        · subst hname
          rw [Entries.find?_eq_none_of_lt hhead, Entries.find?_eq_none_of_lt hhead']
          exact .none
        · simpa [Entries.find?, hname] using h name

end Json

namespace Attributes

lemma ascending_entries (a : Attributes) : Entries.Ascending a.entries := by
  simpa [entries, Entries.Ascending, List.pairwise_map] using a.held.ascending

lemma find?_entries (a : Attributes) (name : String) :
    Entries.find? name a.entries = a.value? name := by
  rw [value?, handle?, Table.find?, entries]
  induction a.held.entries with
  | nil => rfl
  | cons e rest ih =>
    simp only [List.map_cons, Entries.find?, ih]
    split <;> rfl

lemma same_of_held {a b : Attributes} (h : ∀ name, Json.SameHeld (a.value? name) (b.value? name)) :
    a.same b = true := by
  refine Json.sameMembersBy_of_find? a.ascending_entries b.ascending_entries fun name => ?_
  rw [find?_entries, find?_entries]
  exact h name

end Attributes

end Sessions
