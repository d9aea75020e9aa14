import Sessions.Proofs.Json.ReadBack

/-!
# Reading back records

A record that was printed as an object of its fields, each once and in any order, is read field by
field into what the fields make of it.
-/

namespace Sessions.Json.Reader

/-! ## Values of single fields -/

variable {depth : Nat} {rest : Bytes}

lemma text_quoted (depth : Nat) (name : String) (rest : Bytes) :
    text depth (bytesOf (str name).chars ++ rest) = .ok (name, rest) := by
  rw [chars, bytesOf_quoted, List.append_assoc, List.cons_append, text, skipSpace_cons (by decide)]
  simp only [if_true]
  exact stringRest_quoted name rest

lemma integer_chars (x : Int64) (hrest : EndsNumber rest) :
    integer depth (bytesOf (int x.toInt).chars ++ rest) = .ok (x, rest) := by
  have hlow := x.le_toInt
  have hhigh := x.toInt_lt
  have hnumber := number_intChars (n := x.toInt) (by omega) (by omega)
  obtain ⟨b, tl, hb, hstart⟩ := startsNumber_of_number hnumber
  have happend := number_append hnumber hrest
  rw [chars]
  rw [hb, List.cons_append] at happend ⊢
  rw [integer, skipSpace_cons (begins_of_startsNumber hstart).1]
  simp only [hstart, if_true, happend]
  rw [if_pos ⟨by omega, by omega⟩, Int64.ofInt_toInt, List.nil_append]

lemma optional_text (name : String) :
    optional text depth (bytesOf (str name).chars ++ rest) = .ok (some name, rest) := by
  have htext := text_quoted depth name rest
  have hne : '"'.toUInt8 ≠ 'n'.toUInt8 := by decide
  rw [chars, bytesOf_quoted, List.append_assoc, List.cons_append] at htext ⊢
  rw [optional, skipSpace_cons (by decide)]
  simp only [hne, if_false]
  rw [htext, ok_bind]

/-- A table with each value as it is read. -/
def rereadTable (t : Table Json) : Table Json :=
  ⟨rereadMembers t.entries, ascending_rereadMembers t.ascending⟩

lemma table_chars {t : Table Json} (hread : ValidMembers t.entries)
    (hdepth : depthMembers t.entries ≤ depth) :
    table (depth + 1) (bytesOf (obj t.entries).chars ++ rest) = .ok (rereadTable t, rest) := by
  have hback : Table.ofList (rereadMembers t.entries) = rereadTable t :=
    (rereadTable t).ofList_entries
  rw [bytesOf_object]
  rw [table, skipSpace_cons (by decide)]
  simp only [if_true]
  cases hentries : t.entries with
  | nil =>
    rw [hentries] at hback
    rw [← hback]
    rfl
  | cons m ms =>
    rw [hentries] at hread hdepth hback
    obtain ⟨tl, hb⟩ := exists_bytesOf_membersChars m ms
    have hmembers := members_chars hread
      (enough (bytesOf (membersChars (m :: ms)) ++ '\x7d'.toUInt8 :: rest)) depth rest hdepth
      (by simp only [enough, List.length_append]; omega)
    rw [hb, List.cons_append] at hmembers ⊢
    rw [closes_of_ne (by decide) (by decide), ok_bind]
    simp only [Bool.false_eq_true, if_false]
    rw [hmembers, ok_bind, hback]

/-! ## Records of such fields -/

variable {σ : Type}

/-- A field together with a value that was written for it and what the value does to the
record. -/
structure Written (σ : Type) where
  field : Field σ
  value : Json
  change : σ → σ

/-- A value that was written for a field, which reads it as `x`. -/
def Written.of {α : Type} (name : String) (required : Bool) (read : Reader α) (set : σ → α → σ)
    (value : Json) (x : α) : Written σ :=
  ⟨.of name required read set, value, fun record => set record x⟩

/-- The member that was written. -/
def Written.member (w : Written σ) : String × Json := (w.field.name, w.value)

/-- Whether the field reads the value that was written. -/
def Written.Reads (w : Written σ) (depth : Nat) : Prop :=
  ∀ rest, EndsNumber rest →
    w.field.read depth (bytesOf w.value.chars ++ rest) = .ok (w.change, rest)

lemma reads_of {α : Type} {name : String} {required : Bool} {read : Reader α} {set : σ → α → σ}
    {value : Json} {x : α}
    (h : ∀ rest, EndsNumber rest → read depth (bytesOf value.chars ++ rest) = .ok (x, rest)) :
    (Written.of name required read set value x).Reads depth := by
  intro rest hrest
  simp only [Written.of, Field.of, h rest hrest, ok_bind]

lemma recordMembers_written {fields : List (Field σ)} {w : Written σ} {ws : List (Written σ)}
    (hfind : ∀ v ∈ w :: ws, fields.find? (·.name = v.field.name) = some v.field)
    (hreads : ∀ v ∈ w :: ws, v.Reads depth) (seen : List String)
    (hfresh : ((w :: ws).map (·.field.name)).Nodup ∧ ∀ v ∈ w :: ws, v.field.name ∉ seen)
    (hrequired : ∀ f ∈ fields, f.required = true →
      f.name ∈ seen ∨ f.name ∈ (w :: ws).map (·.field.name))
    (fuel : Nat) (hfuel : ws.length < fuel) (start : σ) (rest : Bytes) :
    recordMembers fields fuel seen start depth
        (bytesOf (membersChars ((w :: ws).map Written.member)) ++ '\x7d'.toUInt8 :: rest) =
      .ok ((w :: ws).foldl (fun record v => v.change record) start, rest) := by
  induction ws generalizing w seen fuel start with
  | nil =>
    obtain ⟨fuel, rfl⟩ := Nat.exists_eq_succ_of_ne_zero (Nat.ne_of_gt hfuel)
    have hall : (fields.all fun f => !f.required || decide (f.name ∈ w.field.name :: seen)) =
        true := by
      rw [List.all_eq_true]
      intro f hf
      cases hreq : f.required with
      | false => simp
      | true => rcases hrequired f hf hreq with h | h <;> simp_all
    have hread := hreads w List.mem_cons_self ('\x7d'.toUInt8 :: rest) (endsNumber_brace rest)
    have hunseen := hfresh.2 w List.mem_cons_self
    rw [List.map_cons, List.map_nil, Written.member, bytesOf_member, recordMembers,
      List.append_assoc, memberName_quoted, ok_bind]
    simp only [hfind w List.mem_cons_self, hunseen, if_false, List.cons_append, colon_cons,
      ok_bind, hread, recordMembers.next, more_brace, Bool.false_eq_true, hall, if_true,
      List.foldl_cons, List.foldl_nil]
  | cons v vs ih =>
    obtain ⟨fuel, rfl⟩ := Nat.exists_eq_succ_of_ne_zero (Nat.ne_zero_of_lt hfuel)
    have hnames := List.nodup_cons.1 hfresh.1
    have htail := @ih v
      (fun u hu => hfind u (List.mem_cons_of_mem w hu))
      (fun u hu => hreads u (List.mem_cons_of_mem w hu)) (w.field.name :: seen)
      ⟨hnames.2, fun u hu => by
        rw [List.mem_cons, not_or]
        exact ⟨fun heq => hnames.1 (List.mem_map.2 ⟨u, hu, heq⟩),
          hfresh.2 u (List.mem_cons_of_mem w hu)⟩⟩
      (fun f hf hreq => by
        rcases hrequired f hf hreq with h | h
        · exact .inl (List.mem_cons_of_mem _ h)
        · rcases List.mem_cons.1 h with h | h
          · exact .inl (h ▸ List.mem_cons_self)
          · exact .inr h)
      fuel (Nat.lt_of_succ_lt_succ hfuel) (w.change start)
    have hread := hreads w List.mem_cons_self
    have hunseen := hfresh.2 w List.mem_cons_self
    rw [List.map_cons, List.map_cons, Written.member, bytesOf_members, recordMembers,
      List.append_assoc, memberName_quoted, ok_bind]
    simp only [hfind w List.mem_cons_self, hunseen, if_false, List.cons_append, List.append_assoc,
      colon_cons, ok_bind, hread _ (endsNumber_comma _), recordMembers.next, more_comma, if_true]
    exact htail

/-- **A record is read back from its members**, each written once, in any order. -/
theorem record_written {fields : List (Field σ)} {w : Written σ} {ws : List (Written σ)}
    (hfind : ∀ v ∈ w :: ws, fields.find? (·.name = v.field.name) = some v.field)
    (hreads : ∀ v ∈ w :: ws, v.Reads depth) (hnodup : ((w :: ws).map (·.field.name)).Nodup)
    (hrequired : ∀ f ∈ fields, f.required = true → f.name ∈ (w :: ws).map (·.field.name))
    (start : σ) (rest : Bytes) :
    record fields start (depth + 1)
        (bytesOf (obj ((w :: ws).map Written.member)).chars ++ rest) =
      .ok ((w :: ws).foldl (fun record v => v.change record) start, rest) := by
  obtain ⟨tl, hb⟩ := exists_bytesOf_membersChars w.member (ws.map Written.member)
  have hlength : ∀ vs : List (Written σ), vs.length ≤
      (bytesOf (membersChars (vs.map Written.member))).length := by
    intro vs
    induction vs with
    | nil => exact Nat.zero_le _
    | cons v vs ih =>
      cases vs with
      | nil =>
        rw [List.map_cons, List.map_nil, Written.member, bytesOf_member]
        simp only [List.length_cons, List.length_nil, List.length_append]
        omega
      | cons u us =>
        rw [List.map_cons, List.map_cons, Written.member, bytesOf_members]
        simp only [List.map_cons, List.length_cons, List.length_append] at ih ⊢
        omega
  have hmembers := recordMembers_written hfind hreads [] ⟨hnodup, fun _ _ => List.not_mem_nil⟩
    (fun f hf hreq => .inr (hrequired f hf hreq))
    (bytesOf (membersChars ((w :: ws).map Written.member)) ++ '\x7d'.toUInt8 :: rest).length
    (by
      have := hlength (w :: ws)
      simp only [List.length_cons, List.length_append] at this ⊢
      omega)
    start rest
  rw [bytesOf_object, record, skipSpace_cons (by decide)]
  rw [List.map_cons] at hmembers ⊢
  rw [hb, List.cons_append] at hmembers ⊢
  simp only [if_true]
  rw [closes_of_ne (by decide) (by decide), ok_bind]
  simp only [Bool.false_eq_true, if_false]
  exact hmembers

end Sessions.Json.Reader
