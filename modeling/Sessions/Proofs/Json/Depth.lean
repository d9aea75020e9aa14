import Sessions.Proofs.Json.Records
import Sessions.Proofs.Json.Echo

/-!
# Values that are too deep to be read

A reader that may open more arrays and objects reads all that it read before, and reads it as the
same (`Deepens`). So a text that is read at some depth is read as what it is read as at a greater
one, where every printed value is read, however deep it is nested. What is read keeps within the
depth of the reader; so must then what was printed. Hence the text of a value is read exactly when
the value is nested no deeper than a text may be, and not just if it is.
-/

namespace Sessions

lemma Table.mem_of_mem_ofList {α : Type} {list : List (String × α)} {e : String × α}
    (h : e ∈ (ofList list).entries) : e ∈ list := by
  have hfold : ∀ (rest : List (String × α)) (t : Table α),
      e ∈ (rest.foldl (fun t e => t.insert e.1 e.2) t).entries → e ∈ t.entries ∨ e ∈ rest := by
    intro rest
    induction rest with
    | nil => exact fun t h => .inl h
    | cons first rest ih =>
      intro t h
      rcases ih _ h with h | h
      · rcases Entries.mem_insert h with rfl | h
        · exact .inr List.mem_cons_self
        · exact .inl h
      · exact .inr (List.mem_cons_of_mem first h)
  exact (hfold list ∅ h).resolve_left List.not_mem_nil

namespace Json

variable {α β : Type}

/-- Whatever the first computation gives, the second gives too. -/
def Extends (x y : Except Flaw α) : Prop := ∀ r, x = .ok r → y = .ok r

lemma Extends.refl (x : Except Flaw α) : Extends x x := fun _ h => h

lemma extends_error (flaw : Flaw) (y : Except Flaw α) : Extends (.error flaw) y :=
  fun _ h => by cases h

lemma Extends.bind {x y : Except Flaw α} {f g : α → Except Flaw β} (h : Extends x y)
    (hfg : ∀ a, Extends (f a) (g a)) : Extends (x >>= f) (y >>= g) := by
  intro r hr
  obtain ⟨a, ha, hr⟩ := bind_eq_ok.1 hr
  rw [h a ha, ok_bind]
  exact hfg a r hr

/-- A reader that reads no less when it may open more arrays and objects. -/
def Deepens (read : Reader α) : Prop :=
  ∀ depth deeper input, depth ≤ deeper → Extends (read depth input) (read deeper input)

lemma deepens_of_const {read : Reader α} (h : ∀ depth deeper, read depth = read deeper) :
    Deepens read := fun depth deeper input _ => by
  rw [h depth deeper]
  exact .refl _

lemma deepens_readers (fuel : Nat) :
    Deepens (value fuel) ∧ Deepens (items fuel) ∧ Deepens (members fuel) := by
  induction fuel with
  | zero =>
    refine ⟨fun _ _ _ _ => ?_, fun _ _ _ _ => ?_, fun _ _ _ _ => ?_⟩
    · rw [value]
      exact extends_error _ _
    · rw [items]
      exact extends_error _ _
    · rw [members]
      exact extends_error _ _
  | succ fuel ih =>
    obtain ⟨ihvalue, ihitems, ihmembers⟩ := ih
    refine ⟨fun depth deeper input hle => ?_, fun depth deeper input hle => ?_,
      fun depth deeper input hle => ?_⟩
    · -- only the two brackets look at the depth
      rw [value, value]
      cases skipSpace input with
      | nil => exact .refl _
      | cons b rest =>
        simp only
        cases depth with
        | zero =>
          split
          · exact extends_error _ _
          · split
            · exact extends_error _ _
            · exact .refl _
        | succ below =>
          obtain ⟨above, rfl⟩ := Nat.exists_eq_succ_of_ne_zero (Nat.ne_zero_of_lt hle)
          have hbelow := Nat.le_of_succ_le_succ hle
          split
          · refine (Extends.refl _).bind fun closed => ?_
            split
            · exact .refl _
            · exact (ihitems below above _ hbelow).bind fun _ => .refl _
          · split
            · refine (Extends.refl _).bind fun closed => ?_
              split
              · exact .refl _
              · exact (ihmembers below above _ hbelow).bind fun _ => .refl _
            · exact .refl _
    · rw [items, items]
      refine (ihvalue depth deeper input hle).bind fun first => ?_
      refine (Extends.refl _).bind fun again => ?_
      simp only
      split
      · exact (ihitems depth deeper _ hle).bind fun _ => .refl _
      · exact .refl _
    · rw [members, members]
      refine (Extends.refl _).bind fun name => (Extends.refl _).bind fun inside => ?_
      refine (ihvalue depth deeper inside hle).bind fun first => ?_
      refine (Extends.refl _).bind fun again => ?_
      simp only
      split
      · exact (ihmembers depth deeper _ hle).bind fun _ => .refl _
      · exact .refl _

/-! ## Values -/

variable {v w : Json}

/-- **The text of a value is read exactly when it is not nested too deep.** -/
theorem Valid.legible_iff (h : v.Valid) : v.Legible ↔ v.depth ≤ maxDepth := by
  refine ⟨fun ⟨w, hread⟩ => ?_, h.legible⟩
  have hbytes : v.bytes = bytesOf v.chars := Utf8.encode_ofList v.chars
  rw [hbytes] at hread
  obtain ⟨⟨u, rest⟩, hvalue, -⟩ := bind_eq_ok.1 hread
  change value (enough (bytesOf v.chars)) maxDepth (bytesOf v.chars) = _ at hvalue
  -- the same text at a depth that is great enough for all of the value
  have hdeeper := (deepens_readers _).1 _ (max maxDepth v.depth) _ (Nat.le_max_left _ _) _ hvalue
  have hback := value_chars h (enough (bytesOf v.chars)) (max maxDepth v.depth) []
    (Nat.le_max_right _ _) (by rw [enough]; omega) endsNumber_nil
  rw [List.append_nil, hdeeper] at hback
  obtain ⟨rfl, -⟩ := Prod.mk.inj (Except.ok.inj hback)
  rw [← (valid_reread h).2]
  exact ((valid_readers _).1 hvalue).2

namespace Reader

variable {σ : Type} {depth : Nat} {input rest : Bytes}

/-! ## Fields -/

lemma deepens_optional {read : Reader α} (h : Deepens read) : Deepens (optional read) := by
  intro depth deeper input hle
  simp only [optional]
  cases skipSpace input with
  | nil => exact .refl _
  | cons b rest =>
    simp only
    split
    · exact .refl _
    · exact (h depth deeper _ hle).bind fun _ => .refl _

lemma deepens_table : Deepens table := by
  intro depth deeper input hle
  simp only [table]
  cases skipSpace input with
  | nil => exact .refl _
  | cons b rest =>
    simp only
    split
    · cases depth with
      | zero => exact extends_error _ _
      | succ below =>
        obtain ⟨above, rfl⟩ := Nat.exists_eq_succ_of_ne_zero (Nat.ne_zero_of_lt hle)
        refine (Extends.refl _).bind fun closed => ?_
        split
        · exact .refl _
        · exact ((deepens_readers _).2.2 below above _ (Nat.le_of_succ_le_succ hle)).bind
            fun _ => .refl _
    · exact .refl _

lemma deepens_of {name : String} {required : Bool} {read : Reader α} {set : σ → α → σ}
    (h : Deepens read) : Deepens (Field.of name required read set).read :=
  fun depth deeper input hle => (h depth deeper input hle).bind fun _ => .refl _

lemma valid_table {t : Table Json} (h : table (depth + 1) input = .ok (t, rest)) :
    ValidMembers t.entries ∧ depthMembers t.entries ≤ depth := by
  simp only [table] at h
  split at h
  · cases h
  · split at h
    · obtain ⟨⟨empty, after⟩, -, h⟩ := bind_eq_ok.1 h
      simp only at h
      split at h
      · obtain ⟨rfl, -⟩ := Prod.mk.inj (Except.ok.inj h)
        exact ⟨trivial, Nat.zero_le depth⟩
      · obtain ⟨⟨found, last⟩, hmembers, h⟩ := bind_eq_ok.1 h
        obtain ⟨rfl, -⟩ := Prod.mk.inj (Except.ok.inj h)
        exact validMembers_iff.2 fun m hm =>
          (valid_readers _).2.2 hmembers m (Table.mem_of_mem_ofList hm)
    · cases h

/-! ## Records -/

variable {fields : List (Field σ)}

lemma deepens_recordMembers (h : ∀ f ∈ fields, Deepens f.read) (fuel : Nat) (seen : List String)
    (start : σ) : Deepens (recordMembers fields fuel seen start) := by
  induction fuel generalizing seen start with
  | zero =>
    intro depth deeper input _
    rw [recordMembers]
    exact extends_error _ _
  | succ fuel ih =>
    intro depth deeper input hle
    have hnext : ∀ seen start after, Extends (recordMembers.next fields fuel seen start depth after)
        (recordMembers.next fields fuel seen start deeper after) := by
      intro seen start after
      rw [recordMembers.next, recordMembers.next]
      refine (Extends.refl _).bind fun again => ?_
      simp only
      split
      · exact ih seen start depth deeper _ hle
      · exact .refl _
    rw [recordMembers, recordMembers]
    refine (Extends.refl _).bind fun name => ?_
    simp only
    cases hfield : fields.find? (·.name = name.1) with
    | none => exact (Extends.refl _).bind fun _ => (Extends.refl _).bind fun _ => hnext _ _ _
    | some field =>
      simp only
      split
      · exact .refl _
      · refine (Extends.refl _).bind fun inside => ?_
        exact (h field (List.mem_of_find?_eq_some hfield) depth deeper inside hle).bind
          fun _ => hnext _ _ _

lemma deepens_recordItems (h : ∀ f ∈ fields, Deepens f.read) (first : Bool) (start : σ) :
    Deepens (recordItems first start fields) := by
  induction fields generalizing first start with
  | nil => exact deepens_of_const fun _ _ => rfl
  | cons field others ih =>
    intro depth deeper input hle
    have hitem : ∀ found : Bool × Bytes,
        Extends (if found.1 then do
            let read ← field.read depth found.2
            recordItems false (read.1 start) others depth read.2
          else if (field :: others).all fun f => !f.required then .ok (start, found.2)
          else .error .mismatch)
        (if found.1 then do
            let read ← field.read deeper found.2
            recordItems false (read.1 start) others deeper read.2
          else if (field :: others).all fun f => !f.required then .ok (start, found.2)
          else .error .mismatch) := by
      intro found
      split
      · refine (h field List.mem_cons_self depth deeper _ hle).bind fun change => ?_
        exact ih (fun f hf => h f (List.mem_cons_of_mem field hf)) false _ depth deeper _ hle
      · exact .refl _
    rw [recordItems, recordItems]
    split
    · exact (Extends.refl _).bind hitem
    · exact (Extends.refl _).bind hitem

lemma deepens_record (h : ∀ f ∈ fields, Deepens f.read) (start : σ) :
    Deepens (record fields start) := by
  intro depth deeper input hle
  simp only [record]
  cases skipSpace input with
  | nil => exact .refl _
  | cons b rest =>
    simp only
    cases depth with
    | zero =>
      split
      · exact extends_error _ _
      · split
        · exact extends_error _ _
        · exact .refl _
    | succ below =>
      obtain ⟨above, rfl⟩ := Nat.exists_eq_succ_of_ne_zero (Nat.ne_zero_of_lt hle)
      have hbelow := Nat.le_of_succ_le_succ hle
      split
      · refine (Extends.refl _).bind fun closed => ?_
        split
        · exact .refl _
        · exact deepens_recordMembers h _ _ _ below above _ hbelow
      · split
        · exact deepens_recordItems h _ _ below above _ hbelow
        · exact .refl _

/-! ### What all changes of a record keep -/

/-- What reading a field at a depth never takes from a record. -/
def KeptBy (P : σ → Prop) (depth : Nat) (field : Field σ) : Prop :=
  ∀ input change rest, field.read depth input = .ok (change, rest) → ∀ x, P x → P (change x)

lemma keptBy_of {P : σ → Prop} {name : String} {required : Bool} {read : Reader α}
    {set : σ → α → σ}
    (h : ∀ input a rest, read depth input = .ok (a, rest) → ∀ x, P x → P (set x a)) :
    KeptBy P depth (.of name required read set) := by
  intro input change rest hread
  obtain ⟨⟨a, after⟩, ha, hread⟩ := bind_eq_ok.1 hread
  obtain ⟨rfl, -⟩ := Prod.mk.inj (Except.ok.inj hread)
  exact h input a after ha

variable {P : σ → Prop} {start x : σ}

lemma kept_recordMembers (hfields : ∀ f ∈ fields, KeptBy P depth f) {fuel : Nat}
    {seen : List String} (hstart : P start)
    (h : recordMembers fields fuel seen start depth input = .ok (x, rest)) : P x := by
  induction fuel generalizing seen start input with
  | zero =>
    rw [recordMembers] at h
    cases h
  | succ fuel ih =>
    have hnext : ∀ {seen after} {next : σ}, P next →
        recordMembers.next fields fuel seen next depth after = .ok (x, rest) → P x := by
      intro seen after next hP hok
      rw [recordMembers.next] at hok
      obtain ⟨⟨again, tl⟩, -, hok⟩ := bind_eq_ok.1 hok
      simp only at hok
      split at hok
      · exact ih hP hok
      · split at hok
        · obtain ⟨rfl, -⟩ := Prod.mk.inj (Except.ok.inj hok)
          exact hP
        · cases hok
    rw [recordMembers] at h
    obtain ⟨⟨name, named⟩, -, h⟩ := bind_eq_ok.1 h
    simp only at h
    split at h
    next field hfield =>
      split at h
      · cases h
      · obtain ⟨inside, -, h⟩ := bind_eq_ok.1 h
        obtain ⟨⟨change, after⟩, hread, h⟩ := bind_eq_ok.1 h
        exact hnext (hfields field (List.mem_of_find?_eq_some hfield) _ _ _ hread start hstart) h
    next =>
      obtain ⟨inside, -, h⟩ := bind_eq_ok.1 h
      obtain ⟨after, -, h⟩ := bind_eq_ok.1 h
      exact hnext hstart h

lemma kept_recordItems (hfields : ∀ f ∈ fields, KeptBy P depth f) {first : Bool}
    (hstart : P start) (h : recordItems first start fields depth input = .ok (x, rest)) : P x := by
  induction fields generalizing first start input with
  | nil =>
    rw [recordItems] at h
    split at h
    · cases h
    · split at h
      · obtain ⟨rfl, -⟩ := Prod.mk.inj (Except.ok.inj h)
        exact hstart
      · cases h
  | cons field others ih =>
    have hitem : ∀ {again : Bool} {after : Bytes}, (if again then do
            let read ← field.read depth after
            recordItems false (read.1 start) others depth read.2
          else if (field :: others).all fun f => !f.required then .ok (start, after)
          else .error .mismatch) = .ok (x, rest) → P x := by
      intro again after h
      split at h
      · obtain ⟨⟨change, next⟩, hread, h⟩ := bind_eq_ok.1 h
        exact ih (fun f hf => hfields f (List.mem_cons_of_mem field hf))
          (hfields field List.mem_cons_self _ _ _ hread start hstart) h
      · split at h
        · obtain ⟨rfl, -⟩ := Prod.mk.inj (Except.ok.inj h)
          exact hstart
        · cases h
    rw [recordItems] at h
    split at h
    · obtain ⟨found, -, h⟩ := bind_eq_ok.1 h
      exact hitem h
    · obtain ⟨found, -, h⟩ := bind_eq_ok.1 h
      exact hitem h

/-- **What each field keeps, the whole record keeps.** -/
theorem kept_record (hfields : ∀ f ∈ fields, KeptBy P depth f) (hstart : P start)
    (h : record fields start (depth + 1) input = .ok (x, rest)) : P x := by
  simp only [record] at h
  split at h
  · cases h
  · split at h
    · obtain ⟨⟨empty, after⟩, -, h⟩ := bind_eq_ok.1 h
      simp only at h
      split at h
      · split at h
        · obtain ⟨rfl, -⟩ := Prod.mk.inj (Except.ok.inj h)
          exact hstart
        · cases h
      · exact kept_recordMembers hfields hstart h
    · split at h
      · exact kept_recordItems hfields hstart h
      · cases h

end Reader

end Json

/-! ### A sample -/

namespace Sample

def nested : Nat → Json
  | 0 => .int 1
  | n + 1 => .arr [nested n]

lemma readable_nested (n : Nat) : (nested n).Readable ∧ (nested n).depth = n := by
  induction n with
  | zero => exact ⟨by simp [nested, Json.Readable], rfl⟩
  | succ n ih => exact ⟨⟨ih.1, trivial⟩, by simp [nested, Json.depth, Json.depthItems, ih.2]⟩

end Sample

end Sessions
