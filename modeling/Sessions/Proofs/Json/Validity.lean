import Sessions.Proofs.Json.ReadBack

/-!
# What can be read from a text

Every value that is read from a text is valid, and nested no deeper than the reader allows. So a
value that is read from its own text is one that the lemmas about reading back apply to.

The readers of one value and of one number are taken apart here, once each.
-/

namespace Sessions.Json

variable {v : Json} {input rest : Bytes}

/-! ## Numbers -/

lemma value?_cases {n : Numeral} (h : n.value? = some v) :
    (∃ x, v = double x) ∨ ∃ m : Int, v = int m ∧ -2 ^ 63 ≤ m ∧ m < 2 ^ 64 := by
  have hdouble : ∀ (x : Option Binary64) (f : Binary64 → Binary64),
      (x.map fun y => double (f y)) = some v → ∃ x, v = double x := by
    intro x f hx
    obtain ⟨y, -, rfl⟩ := Option.map_eq_some_iff.1 hx
    exact ⟨f y, rfl⟩
  have hlt : (gather 0 n.whole).1 < 2 ^ 64 := gather_lt (by decide) n.whole
  unfold Numeral.value? at h
  simp only at h
  split at h
  · split at h
    · exact .inl (hdouble _ _ h)
    · split at h
      · obtain rfl := Option.some.inj h
        exact .inr ⟨_, rfl, by omega, by omega⟩
      · split at h
        next hsmall =>
          obtain rfl := Option.some.inj h
          exact .inr ⟨_, rfl, by omega, by omega⟩
        next => exact .inl (hdouble _ _ h)
  · exact .inl (hdouble _ _ h)
  · exact .inl (hdouble _ _ h)

lemma number_cases (h : number input = .ok (v, rest)) :
    (∃ x, v = double x) ∨ ∃ m : Int, v = int m ∧ -2 ^ 63 ≤ m ∧ m < 2 ^ 64 := by
  obtain ⟨⟨n, tl⟩, -, h⟩ := bind_eq_ok.1 h
  simp only at h
  split at h
  next u hvalue =>
    obtain ⟨rfl, -⟩ := Prod.mk.inj (Except.ok.inj h)
    exact value?_cases hvalue
  next => cases h

/-! ## Values -/

lemma scalar_cases {b : UInt8} (h : scalar b input = .ok (v, rest)) :
    v = null ∨ (∃ x, v = bool x) ∨ (b = '"'.toUInt8 ∧ ∃ text, v = str text) ∨
      number (b :: input) = .ok (v, rest) := by
  have hword : ∀ {u : Json} {word : Bytes},
      (expect word input >>= fun tl => .ok (u, tl)) = .ok (v, rest) → v = u := by
    intro u word hw
    obtain ⟨tl, -, hw⟩ := bind_eq_ok.1 hw
    exact (Prod.mk.inj (Except.ok.inj hw)).1.symm
  unfold scalar at h
  split at h
  · exact .inl (hword h)
  split at h
  · exact .inr (.inl ⟨true, hword h⟩)
  split at h
  · exact .inr (.inl ⟨false, hword h⟩)
  split at h
  next hquote =>
    obtain ⟨⟨text, tl⟩, -, h⟩ := bind_eq_ok.1 h
    obtain ⟨rfl, -⟩ := Prod.mk.inj (Except.ok.inj h)
    exact .inr (.inr (.inl ⟨hquote, text, rfl⟩))
  split at h
  · exact .inr (.inr (.inr h))
  · cases h

lemma value_cases {fuel depth : Nat} (h : value (fuel + 1) depth input = .ok (v, rest)) :
    (∃ below xs, depth = below + 1 ∧ v = arr xs ∧
      (xs = [] ∨ ∃ inside, items fuel below inside = .ok (xs, rest))) ∨
    (∃ below ms, depth = below + 1 ∧ v = ofMembers ms ∧
      (ms = [] ∨ ∃ inside, members fuel below inside = .ok (ms, rest))) ∨
    ∃ b tl, skipSpace input = b :: tl ∧ scalar b tl = .ok (v, rest) := by
  rw [value] at h
  split at h
  · cases h
  next b tl hinput =>
    split at h
    · split at h
      · cases h
      next below =>
        obtain ⟨⟨empty, after⟩, -, h⟩ := bind_eq_ok.1 h
        simp only at h
        split at h
        · obtain ⟨rfl, -⟩ := Prod.mk.inj (Except.ok.inj h)
          exact .inl ⟨below, [], rfl, rfl, .inl rfl⟩
        · obtain ⟨⟨xs, last⟩, hitems, h⟩ := bind_eq_ok.1 h
          obtain ⟨rfl, rfl⟩ := Prod.mk.inj (Except.ok.inj h)
          exact .inl ⟨below, xs, rfl, rfl, .inr ⟨after, hitems⟩⟩
    · split at h
      · split at h
        · cases h
        next below =>
          obtain ⟨⟨empty, after⟩, -, h⟩ := bind_eq_ok.1 h
          simp only at h
          split at h
          · obtain ⟨rfl, -⟩ := Prod.mk.inj (Except.ok.inj h)
            exact .inr (.inl ⟨below, [], rfl, rfl, .inl rfl⟩)
          · obtain ⟨⟨ms, last⟩, hmembers, h⟩ := bind_eq_ok.1 h
            obtain ⟨rfl, rfl⟩ := Prod.mk.inj (Except.ok.inj h)
            exact .inr (.inl ⟨below, ms, rfl, rfl, .inr ⟨after, hmembers⟩⟩)
      · exact .inr (.inr ⟨b, tl, hinput, h⟩)

lemma valid_ofMembers {limit : Nat} {ms : List (String × Json)}
    (h : ∀ m ∈ ms, m.2.Valid ∧ m.2.depth ≤ limit) :
    (ofMembers ms).Valid ∧ (ofMembers ms).depth ≤ limit + 1 := by
  have hfold : ∀ {front : List (String × Json)}, Entries.Ascending front →
      (∀ m ∈ front, m.2.Valid ∧ m.2.depth ≤ limit) →
      Entries.Ascending (ms.foldl (fun sorted m => Entries.insert m.1 m.2 sorted) front) ∧
        ∀ m ∈ ms.foldl (fun sorted m => Entries.insert m.1 m.2 sorted) front,
          m.2.Valid ∧ m.2.depth ≤ limit := by
    induction ms with
    | nil => exact fun hsorted hfront => ⟨hsorted, hfront⟩
    | cons m rest ih =>
      intro front hsorted hfront
      refine ih (fun n hn => h n (List.mem_cons_of_mem m hn)) (hsorted.insert m.1 m.2)
        fun n hn => ?_
      rcases Entries.mem_insert hn with rfl | hn
      · exact h m List.mem_cons_self
      · exact hfront n hn
  obtain ⟨hsorted, hmembers⟩ := hfold Entries.ascending_nil (by simp)
  obtain ⟨hvalid, hdepth⟩ := validMembers_iff.2 hmembers
  exact ⟨⟨hsorted, hvalid⟩, Nat.succ_le_succ hdepth⟩

lemma valid_scalar {b : UInt8} (h : scalar b input = .ok (v, rest)) : v.Valid ∧ v.depth = 0 := by
  rcases scalar_cases h with rfl | ⟨x, rfl⟩ | ⟨-, text, rfl⟩ | h
  · exact ⟨trivial, rfl⟩
  · exact ⟨trivial, rfl⟩
  · exact ⟨trivial, rfl⟩
  · rcases number_cases h with ⟨x, rfl⟩ | ⟨n, rfl, hrange⟩
    · exact ⟨trivial, rfl⟩
    · exact ⟨hrange, rfl⟩

lemma items_cases {fuel depth : Nat} {xs : List Json}
    (h : items (fuel + 1) depth input = .ok (xs, rest)) :
    ∃ x after others, xs = x :: others ∧ value fuel depth input = .ok (x, after) ∧
      (others = [] ∨ ∃ next last, items fuel depth next = .ok (others, last)) := by
  rw [items] at h
  obtain ⟨⟨x, after⟩, hx, h⟩ := bind_eq_ok.1 h
  obtain ⟨⟨again, next⟩, -, h⟩ := bind_eq_ok.1 h
  simp only at h
  split at h
  · obtain ⟨⟨others, last⟩, hothers, h⟩ := bind_eq_ok.1 h
    obtain ⟨rfl, -⟩ := Prod.mk.inj (Except.ok.inj h)
    exact ⟨x, after, others, rfl, hx, .inr ⟨next, last, hothers⟩⟩
  · obtain ⟨rfl, -⟩ := Prod.mk.inj (Except.ok.inj h)
    exact ⟨x, after, [], rfl, hx, .inl rfl⟩

lemma members_cases {fuel depth : Nat} {ms : List (String × Json)}
    (h : members (fuel + 1) depth input = .ok (ms, rest)) :
    ∃ name x inside after others, ms = (name, x) :: others ∧
      value fuel depth inside = .ok (x, after) ∧
      (others = [] ∨ ∃ next last, members fuel depth next = .ok (others, last)) := by
  rw [members] at h
  obtain ⟨⟨name, named⟩, -, h⟩ := bind_eq_ok.1 h
  obtain ⟨inside, -, h⟩ := bind_eq_ok.1 h
  obtain ⟨⟨x, after⟩, hx, h⟩ := bind_eq_ok.1 h
  obtain ⟨⟨again, next⟩, -, h⟩ := bind_eq_ok.1 h
  simp only at h
  split at h
  · obtain ⟨⟨others, last⟩, hothers, h⟩ := bind_eq_ok.1 h
    obtain ⟨rfl, -⟩ := Prod.mk.inj (Except.ok.inj h)
    exact ⟨name, x, inside, after, others, rfl, hx, .inr ⟨next, last, hothers⟩⟩
  · obtain ⟨rfl, -⟩ := Prod.mk.inj (Except.ok.inj h)
    exact ⟨name, x, inside, after, [], rfl, hx, .inl rfl⟩

lemma valid_readers (fuel : Nat) :
    (∀ {depth input v rest}, value fuel depth input = .ok (v, rest) →
      v.Valid ∧ v.depth ≤ depth) ∧
    (∀ {depth input xs rest}, items fuel depth input = .ok (xs, rest) →
      ValidItems xs ∧ depthItems xs ≤ depth) ∧
    ∀ {depth input ms rest}, members fuel depth input = .ok (ms, rest) →
      ∀ m ∈ ms, m.2.Valid ∧ m.2.depth ≤ depth := by
  induction fuel with
  | zero =>
    refine ⟨fun h => ?_, fun h => ?_, fun h => ?_⟩
    · rw [value] at h
      cases h
    · rw [items] at h
      cases h
    · rw [members] at h
      cases h
  | succ fuel ih =>
    obtain ⟨ihvalue, ihitems, ihmembers⟩ := ih
    refine ⟨fun {depth input v rest} h => ?_, fun {depth input xs rest} h => ?_,
      fun {depth input ms rest} h => ?_⟩
    · rcases value_cases h with ⟨below, xs, rfl, rfl, hxs⟩ | ⟨below, ms, rfl, rfl, hms⟩ |
        ⟨b, tl, -, hscalar⟩
      · rcases hxs with rfl | ⟨inside, hitems⟩
        · exact ⟨trivial, Nat.succ_le_succ (Nat.zero_le below)⟩
        · obtain ⟨hvalid, hdepth⟩ := ihitems hitems
          exact ⟨hvalid, Nat.succ_le_succ hdepth⟩
      · refine valid_ofMembers fun m hm => ?_
        rcases hms with rfl | ⟨inside, hmembers⟩
        · cases hm
        · exact ihmembers hmembers m hm
      · obtain ⟨hvalid, hdepth⟩ := valid_scalar hscalar
        exact ⟨hvalid, hdepth ▸ Nat.zero_le depth⟩
    · obtain ⟨x, after, others, rfl, hx, hrest⟩ := items_cases h
      obtain ⟨hvalid, hdepth⟩ := ihvalue hx
      rcases hrest with rfl | ⟨next, last, hothers⟩
      · exact ⟨⟨hvalid, trivial⟩, Nat.max_le.2 ⟨hdepth, Nat.zero_le depth⟩⟩
      · obtain ⟨hvalids, hdepths⟩ := ihitems hothers
        exact ⟨⟨hvalid, hvalids⟩, Nat.max_le.2 ⟨hdepth, hdepths⟩⟩
    · obtain ⟨name, x, inside, after, others, rfl, hx, hrest⟩ := members_cases h
      intro m hm
      rcases List.mem_cons.1 hm with rfl | hm
      · exact ihvalue hx
      · rcases hrest with rfl | ⟨next, last, hothers⟩
        · cases hm
        · exact ihmembers hothers m hm

/-- **Whatever is read from a text is valid**, and not nested too deep to be read again. -/
theorem valid_of_read (h : Json.read input = .ok v) : v.Valid ∧ v.depth ≤ maxDepth := by
  obtain ⟨⟨u, rest⟩, hvalue, h⟩ := bind_eq_ok.1 h
  simp only at h
  split at h
  · obtain rfl := Except.ok.inj h
    exact (valid_readers _).1 hvalue
  · cases h

end Sessions.Json
