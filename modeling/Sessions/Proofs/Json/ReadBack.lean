import Sessions.Json.Reader
import Sessions.Proofs.Json.Doubles
import Sessions.Proofs.Json.Strings

/-!
# Reading back printed values

A value that is nested no deeper than a text may be is read from its own text as the same value, but
for its doubles, which reading may round to other ones (`reread`). It takes whole numbers of 64 bits
and sorted objects, of which all values that can be made are built (`Valid`). A value whose doubles
are read back too comes back as it is (`Readable`).
-/

namespace Sessions.Json

mutual

/-- Whether reading the text of a value gives the value again, its depth aside. -/
def Readable : Json → Prop
  | int n => -2 ^ 63 ≤ n ∧ n < 2 ^ 64
  | double x => number (bytesOf (x.render doubleLayout)) = .ok (double x, [])
  | arr items => ReadableItems items
  | obj members => Entries.Ascending members ∧ ReadableMembers members
  | _ => True

def ReadableItems : List Json → Prop
  | [] => True
  | x :: rest => Readable x ∧ ReadableItems rest

def ReadableMembers : List (String × Json) → Prop
  | [] => True
  | (_, x) :: rest => Readable x ∧ ReadableMembers rest

end

mutual

/-- Whether whole numbers have 64 bits, signed or unsigned, and objects are sorted. -/
def Valid : Json → Prop
  | int n => -2 ^ 63 ≤ n ∧ n < 2 ^ 64
  | arr items => ValidItems items
  | obj members => Entries.Ascending members ∧ ValidMembers members
  | _ => True

def ValidItems : List Json → Prop
  | [] => True
  | x :: rest => Valid x ∧ ValidItems rest

def ValidMembers : List (String × Json) → Prop
  | [] => True
  | (_, x) :: rest => Valid x ∧ ValidMembers rest

end

mutual

/-- The value with each double as it is read from its text. -/
def reread : Json → Json
  | null => null
  | bool value => bool value
  | int n => int n
  | double x => double (rereadDouble x)
  | str text => str text
  | arr items => arr (rereadItems items)
  | obj members => obj (rereadMembers members)

def rereadItems : List Json → List Json
  | [] => []
  | x :: rest => reread x :: rereadItems rest

def rereadMembers : List (String × Json) → List (String × Json)
  | [] => []
  | (name, x) :: rest => (name, reread x) :: rereadMembers rest

end

mutual

lemma Readable.valid : ∀ {v : Json}, v.Readable → v.Valid ∧ v.reread = v
  | null, _ => ⟨trivial, rfl⟩
  | bool _, _ => ⟨trivial, rfl⟩
  | int _, h => ⟨h, rfl⟩
  | double x, h => by
    have hread := (number_double x).symm.trans h
    exact ⟨trivial, (Prod.mk.inj (Except.ok.inj hread)).1⟩
  | str _, _ => ⟨trivial, rfl⟩
  | arr items, h => by
    obtain ⟨hvalid, hsame⟩ := readableItems_valid h
    exact ⟨hvalid, congrArg arr hsame⟩
  | obj members, h => by
    obtain ⟨hvalid, hsame⟩ := readableMembers_valid h.2
    exact ⟨⟨h.1, hvalid⟩, congrArg obj hsame⟩

lemma readableItems_valid : ∀ {items : List Json}, ReadableItems items →
    ValidItems items ∧ rereadItems items = items
  | [], _ => ⟨trivial, rfl⟩
  | x :: rest, h => by
    obtain ⟨hx, hsame⟩ := Readable.valid h.1
    obtain ⟨hrest, hsames⟩ := readableItems_valid h.2
    exact ⟨⟨hx, hrest⟩, by rw [rereadItems, hsame, hsames]⟩

lemma readableMembers_valid : ∀ {members : List (String × Json)}, ReadableMembers members →
    ValidMembers members ∧ rereadMembers members = members
  | [], _ => ⟨trivial, rfl⟩
  | (name, x) :: rest, h => by
    obtain ⟨hx, hsame⟩ := Readable.valid h.1
    obtain ⟨hrest, hsames⟩ := readableMembers_valid h.2
    exact ⟨⟨hx, hrest⟩, by rw [rereadMembers, hsame, hsames]⟩

end

lemma validMembers_iff_forall {members : List (String × Json)} :
    ValidMembers members ↔ ∀ m ∈ members, m.2.Valid := by
  induction members with
  | nil => exact ⟨fun _ m hm => absurd hm List.not_mem_nil, fun _ => trivial⟩
  | cons m rest ih =>
    obtain ⟨name, x⟩ := m
    rw [List.forall_mem_cons, ← ih, ValidMembers]

lemma depthMembers_le_iff {limit : Nat} {members : List (String × Json)} :
    depthMembers members ≤ limit ↔ ∀ m ∈ members, m.2.depth ≤ limit := by
  induction members with
  | nil => exact ⟨fun _ m hm => absurd hm List.not_mem_nil, fun _ => Nat.zero_le limit⟩
  | cons m rest ih =>
    obtain ⟨name, x⟩ := m
    rw [List.forall_mem_cons, ← ih, depthMembers, Nat.max_le]

lemma validMembers_iff {limit : Nat} {members : List (String × Json)} :
    ValidMembers members ∧ depthMembers members ≤ limit ↔
      ∀ m ∈ members, m.2.Valid ∧ m.2.depth ≤ limit := by
  rw [validMembers_iff_forall, depthMembers_le_iff]
  exact forall₂_and.symm

lemma rereadMembers_eq_map (members : List (String × Json)) :
    rereadMembers members = members.map fun m => (m.1, m.2.reread) := by
  induction members with
  | nil => rfl
  | cons m rest ih =>
    obtain ⟨name, x⟩ := m
    rw [rereadMembers, ih, List.map_cons]

lemma ascending_rereadMembers {members : List (String × Json)} (h : Entries.Ascending members) :
    Entries.Ascending (rereadMembers members) := by
  rw [rereadMembers_eq_map, Entries.Ascending, List.pairwise_map]
  exact h

mutual

lemma valid_reread : ∀ {v : Json}, v.Valid → v.reread.Valid ∧ v.reread.depth = v.depth
  | null, _ => ⟨trivial, rfl⟩
  | bool _, _ => ⟨trivial, rfl⟩
  | int _, h => ⟨h, rfl⟩
  | double _, _ => ⟨trivial, rfl⟩
  | str _, _ => ⟨trivial, rfl⟩
  | arr items, h => by
    obtain ⟨hvalid, hdepth⟩ := validItems_reread h
    exact ⟨hvalid, by rw [reread, Json.depth, hdepth, Json.depth]⟩
  | obj members, h => by
    obtain ⟨hvalid, hdepth⟩ := validMembers_reread h.2
    exact ⟨⟨ascending_rereadMembers h.1, hvalid⟩, by rw [reread, Json.depth, hdepth, Json.depth]⟩

lemma validItems_reread : ∀ {items : List Json}, ValidItems items →
    ValidItems (rereadItems items) ∧ depthItems (rereadItems items) = depthItems items
  | [], _ => ⟨trivial, rfl⟩
  | x :: rest, h => by
    obtain ⟨hx, hdepth⟩ := valid_reread h.1
    obtain ⟨hrest, hdepths⟩ := validItems_reread h.2
    exact ⟨⟨hx, hrest⟩, by rw [rereadItems, depthItems, hdepth, hdepths, depthItems]⟩

lemma validMembers_reread : ∀ {members : List (String × Json)}, ValidMembers members →
    ValidMembers (rereadMembers members) ∧
      depthMembers (rereadMembers members) = depthMembers members
  | [], _ => ⟨trivial, rfl⟩
  | (name, x) :: rest, h => by
    obtain ⟨hx, hdepth⟩ := valid_reread h.1
    obtain ⟨hrest, hdepths⟩ := validMembers_reread h.2
    exact ⟨⟨hx, hrest⟩, by rw [rereadMembers, depthMembers, hdepth, hdepths, depthMembers]⟩

end

/-! ## How texts begin -/

lemma skipSpace_cons {b : UInt8} (h : isSpace b = false) (rest : Bytes) :
    skipSpace (b :: rest) = b :: rest := by
  simp [skipSpace, h]

/-- A byte that can begin a value is neither white space nor a closing bracket. -/
def Begins (b : UInt8) : Prop := isSpace b = false ∧ b ≠ ']'.toUInt8

lemma begins_of_startsNumber {b : UInt8} (h : startsNumber b = true) : Begins b := by
  simp only [startsNumber, Bool.or_eq_true, decide_eq_true_eq, isDigit, Bool.and_eq_true,
    UInt8.le_iff_toNat_le] at h
  have hspace : (' '.toUInt8).toNat = 32 ∧ ('\t'.toUInt8).toNat = 9 ∧ ('\n'.toUInt8).toNat = 10 ∧
      ('\r'.toUInt8).toNat = 13 ∧ ('-'.toUInt8).toNat = 45 ∧ ('0'.toUInt8).toNat = 48 ∧
      ('9'.toUInt8).toNat = 57 ∧ (']'.toUInt8).toNat = 93 := by decide
  have hrange : 45 ≤ b.toNat ∧ b.toNat ≤ 57 := by
    rcases h with rfl | h <;> omega
  refine ⟨?_, fun heq => ?_⟩
  · simp only [isSpace, Bool.or_eq_false_iff, decide_eq_false_iff_not]
    refine ⟨⟨⟨?_, ?_⟩, ?_⟩, ?_⟩ <;> intro heq <;> subst heq <;> omega
  · subst heq
    omega

/-- The text of a value is not empty, and neither white space nor a closing bracket stands at its
front. -/
lemma exists_bytesOf_chars {v : Json} (h : Valid v) :
    ∃ b tl, bytesOf v.chars = b :: tl ∧ Begins b := by
  have hnumber : ∀ {bs : Bytes} {w : Json}, number bs = .ok (w, []) →
      ∃ b tl, bs = b :: tl ∧ Begins b := fun hn =>
    let ⟨b, tl, hb, hs⟩ := startsNumber_of_number hn
    ⟨b, tl, hb, begins_of_startsNumber hs⟩
  cases v with
  | null => exact ⟨_, _, rfl, by decide, by decide⟩
  | bool value => cases value <;> exact ⟨_, _, rfl, by decide, by decide⟩
  | int n => exact hnumber (number_intChars h.1 h.2)
  | double x => exact hnumber (number_double x)
  | str text =>
    rw [chars, bytesOf_quoted, List.cons_append]
    exact ⟨_, _, rfl, by decide, by decide⟩
  | arr items => exact ⟨_, _, bytesOf_cons (by decide) _, by decide, by decide⟩
  | obj members => exact ⟨_, _, bytesOf_cons (by decide) _, by decide, by decide⟩

/-! ## Words and punctuation -/

variable {rest : Bytes}

lemma more_comma (close : UInt8) : more close (','.toUInt8 :: rest) = .ok (true, rest) := rfl

lemma more_bracket : more ']'.toUInt8 (']'.toUInt8 :: rest) = .ok (false, rest) := rfl

lemma more_brace : more '\x7d'.toUInt8 ('\x7d'.toUInt8 :: rest) = .ok (false, rest) := rfl

lemma closes_of_ne {close b : UInt8} (hs : isSpace b = false) (hb : b ≠ close) :
    closes close (b :: rest) = .ok (false, b :: rest) := by
  rw [closes, skipSpace_cons hs]
  simp only [hb, if_false]

lemma colon_cons : colon (':'.toUInt8 :: rest) = .ok rest := rfl

lemma memberName_quoted (name : String) :
    memberName (bytesOf (quoted name) ++ rest) = .ok (name, rest) := by
  rw [bytesOf_quoted, List.append_assoc, List.cons_append]
  exact stringRest_quoted name rest

lemma ofMembers_of_ascending {ms : List (String × Json)} (h : Entries.Ascending ms) :
    ofMembers ms = obj ms := by
  rw [ofMembers, Entries.foldl_insert [] h, List.nil_append]

lemma value_number {v : Json} {bs : Bytes} (h : number bs = .ok (v, [])) (hrest : EndsNumber rest)
    (fuel depth : Nat) : value (fuel + 1) depth (bs ++ rest) = .ok (v, rest) := by
  obtain ⟨b, tl, rfl, hstart⟩ := startsNumber_of_number h
  have happend := number_append h hrest
  have hspace := (begins_of_startsNumber hstart).1
  have hne : ∀ c : UInt8, startsNumber c = false → b ≠ c := by
    rintro c hc rfl
    rw [hc] at hstart
    cases hstart
  rw [List.cons_append] at happend ⊢
  rw [value, skipSpace_cons hspace]
  simp only [hne '['.toUInt8 (by decide), hne '\x7b'.toUInt8 (by decide), if_false, scalar,
    hne 'n'.toUInt8 (by decide), hne 't'.toUInt8 (by decide), hne 'f'.toUInt8 (by decide),
    hne '"'.toUInt8 (by decide), hstart, if_true]
  exact happend

/-! ## Values, items and members -/

lemma bytesOf_array (items : List Json) (rest : Bytes) :
    bytesOf (arr items).chars ++ rest =
      '['.toUInt8 :: (bytesOf (itemsChars items) ++ ']'.toUInt8 :: rest) := by
  rw [chars, List.cons_append, bytesOf_cons (by decide), bytesOf_append,
    bytesOf_cons (by decide)]
  simp

lemma bytesOf_object (members : List (String × Json)) (rest : Bytes) :
    bytesOf (obj members).chars ++ rest =
      '\x7b'.toUInt8 :: (bytesOf (membersChars members) ++ '\x7d'.toUInt8 :: rest) := by
  rw [chars, List.cons_append, bytesOf_cons (by decide), bytesOf_append,
    bytesOf_cons (by decide)]
  simp

lemma bytesOf_items (x y : Json) (ys : List Json) :
    bytesOf (itemsChars (x :: y :: ys)) =
      bytesOf x.chars ++ ','.toUInt8 :: bytesOf (itemsChars (y :: ys)) := by
  rw [itemsChars, bytesOf_append, bytesOf_cons (by decide)]

lemma bytesOf_member (name : String) (x : Json) :
    bytesOf (membersChars [(name, x)]) =
      bytesOf (quoted name) ++ ':'.toUInt8 :: bytesOf x.chars := by
  rw [membersChars, bytesOf_append, bytesOf_cons (by decide)]

lemma bytesOf_members (name : String) (x : Json) (m : String × Json)
    (ms : List (String × Json)) :
    bytesOf (membersChars ((name, x) :: m :: ms)) =
      bytesOf (quoted name) ++ ':'.toUInt8 :: (bytesOf x.chars ++
        ','.toUInt8 :: bytesOf (membersChars (m :: ms))) := by
  rw [membersChars, bytesOf_append, bytesOf_cons (by decide), bytesOf_append,
    bytesOf_cons (by decide)]

lemma exists_bytesOf_itemsChars {x : Json} (h : Valid x) (xs : List Json) :
    ∃ b tl, bytesOf (itemsChars (x :: xs)) = b :: tl ∧ Begins b := by
  obtain ⟨b, tl, hb, hbegins⟩ := exists_bytesOf_chars h
  cases xs with
  | nil => exact ⟨b, tl, hb, hbegins⟩
  | cons y ys => exact ⟨b, _, by rw [bytesOf_items, hb, List.cons_append], hbegins⟩

lemma exists_bytesOf_membersChars (m : String × Json) (ms : List (String × Json)) :
    ∃ tl, bytesOf (membersChars (m :: ms)) = '"'.toUInt8 :: tl := by
  obtain ⟨name, x⟩ := m
  cases ms with
  | nil => exact ⟨_, by rw [bytesOf_member, bytesOf_quoted, List.cons_append]; rfl⟩
  | cons m ms => exact ⟨_, by rw [bytesOf_members, bytesOf_quoted, List.cons_append]; rfl⟩

/-! The induction follows the printer. A value takes two steps for each byte of its text at most,
and its items or members take one more. -/

mutual

/-- **A value is read from its text**, whatever follows, as long as that does not go on with a
number. -/
theorem value_chars : ∀ {v : Json}, Valid v → ∀ (fuel depth : Nat) (rest : Bytes),
    v.depth ≤ depth → 2 * (bytesOf v.chars).length ≤ fuel → EndsNumber rest →
    value fuel depth (bytesOf v.chars ++ rest) = .ok (v.reread, rest)
  | v, h, 0, _, _, _, hfuel, _ => by
    obtain ⟨b, tl, hb, -⟩ := exists_bytesOf_chars h
    rw [hb, List.length_cons] at hfuel
    omega
  | null, _, _ + 1, _, _, _, _, _ => rfl
  | bool true, _, _ + 1, _, _, _, _, _ => rfl
  | bool false, _, _ + 1, _, _, _, _, _ => rfl
  | int _, h, fuel + 1, depth, _, _, _, hrest =>
    value_number (number_intChars h.1 h.2) hrest fuel depth
  | double x, _, fuel + 1, depth, _, _, _, hrest =>
    value_number (number_double x) hrest fuel depth
  | str text, _, _ + 1, _, rest, _, _, _ => by
    have hscalar : ∀ input, scalar '"'.toUInt8 input =
        (stringRest input >>= fun x => .ok (str x.1, x.2)) := fun _ => rfl
    rw [chars, bytesOf_quoted, List.append_assoc, List.cons_append]
    change scalar '"'.toUInt8 _ = _
    rw [hscalar, List.singleton_append, stringRest_quoted, ok_bind, reread]
  | arr _, _, _ + 1, 0, _, hdepth, _, _ => by simp [Json.depth] at hdepth
  | obj _, _, _ + 1, 0, _, hdepth, _, _ => by simp [Json.depth] at hdepth
  | arr [], _, _ + 1, _ + 1, _, _, _, _ => rfl
  | arr (x :: xs), h, fuel + 1, depth + 1, rest, hdepth, hfuel, _ => by
    have hlength := congrArg List.length (bytesOf_array (x :: xs) [])
    simp only [List.append_nil, List.length_cons, List.length_append, List.length_nil] at hlength
    have hitems := items_chars h fuel depth rest
      (Nat.le_of_succ_le_succ hdepth) (by omega)
    obtain ⟨b, tl, hb, hspace, hclose⟩ := exists_bytesOf_itemsChars h.1 xs
    rw [bytesOf_array]
    rw [hb, List.cons_append] at hitems ⊢
    rw [value, skipSpace_cons (by decide)]
    simp only [if_true]
    rw [closes_of_ne hspace hclose, ok_bind]
    simp only [Bool.false_eq_true, if_false]
    rw [hitems, ok_bind, reread]
  | obj [], _, _ + 1, _ + 1, _, _, _, _ => rfl
  | obj (m :: ms), h, fuel + 1, depth + 1, rest, hdepth, hfuel, _ => by
    have hlength := congrArg List.length (bytesOf_object (m :: ms) [])
    simp only [List.append_nil, List.length_cons, List.length_append, List.length_nil] at hlength
    have hmembers := members_chars h.2 fuel depth rest
      (Nat.le_of_succ_le_succ hdepth) (by omega)
    obtain ⟨tl, hb⟩ := exists_bytesOf_membersChars m ms
    have hne : '\x7b'.toUInt8 ≠ '['.toUInt8 := by decide
    rw [bytesOf_object]
    rw [hb, List.cons_append] at hmembers ⊢
    rw [value, skipSpace_cons (by decide)]
    simp only [hne, if_false, if_true]
    rw [closes_of_ne (by decide) (by decide), ok_bind]
    simp only [Bool.false_eq_true, if_false]
    rw [hmembers, ok_bind, ofMembers_of_ascending (ascending_rereadMembers h.1), reread]

theorem items_chars : ∀ {x : Json} {xs : List Json}, ValidItems (x :: xs) →
    ∀ (fuel depth : Nat) (rest : Bytes), depthItems (x :: xs) ≤ depth →
    2 * (bytesOf (itemsChars (x :: xs))).length + 1 ≤ fuel →
    items fuel depth (bytesOf (itemsChars (x :: xs)) ++ ']'.toUInt8 :: rest) =
      .ok (rereadItems (x :: xs), rest)
  | _, _, _, 0, _, _, _, hfuel => by omega
  | x, [], h, fuel + 1, depth, rest, hdepth, hfuel => by
    have hx := value_chars h.1 fuel depth (']'.toUInt8 :: rest)
      (by simpa [depthItems] using hdepth) (by simpa [itemsChars] using hfuel)
      (endsNumber_bracket rest)
    rw [items, itemsChars, hx, ok_bind]
    simp only [more_bracket, ok_bind, Bool.false_eq_true, if_false, rereadItems]
  | x, y :: ys, h, fuel + 1, depth, rest, hdepth, hfuel => by
    rw [bytesOf_items] at hfuel ⊢
    simp only [List.length_append, List.length_cons] at hfuel
    simp only [depthItems] at hdepth
    have hx := value_chars h.1 fuel depth
      (','.toUInt8 :: (bytesOf (itemsChars (y :: ys)) ++ ']'.toUInt8 :: rest))
      (by omega) (by omega) (endsNumber_comma _)
    have hys := items_chars h.2 fuel depth rest
      (by simp only [depthItems]; omega) (by omega)
    rw [items, List.append_assoc, List.cons_append, hx, ok_bind]
    simp only [more_comma, ok_bind, if_true, hys, rereadItems]

theorem members_chars : ∀ {m : String × Json} {ms : List (String × Json)},
    ValidMembers (m :: ms) → ∀ (fuel depth : Nat) (rest : Bytes),
    depthMembers (m :: ms) ≤ depth →
    2 * (bytesOf (membersChars (m :: ms))).length + 1 ≤ fuel →
    members fuel depth (bytesOf (membersChars (m :: ms)) ++ '\x7d'.toUInt8 :: rest) =
      .ok (rereadMembers (m :: ms), rest)
  | _, _, _, 0, _, _, _, hfuel => by omega
  | (name, x), [], h, fuel + 1, depth, rest, hdepth, hfuel => by
    rw [bytesOf_member] at hfuel ⊢
    simp only [List.length_append, List.length_cons] at hfuel
    have hx := value_chars h.1 fuel depth ('\x7d'.toUInt8 :: rest)
      (by simpa [depthMembers] using hdepth) (by omega) (endsNumber_brace rest)
    rw [members, List.append_assoc, memberName_quoted, ok_bind]
    simp only [List.cons_append, colon_cons, ok_bind, hx, more_brace, Bool.false_eq_true, if_false,
      rereadMembers]
  | (name, x), m :: ms, h, fuel + 1, depth, rest, hdepth, hfuel => by
    rw [bytesOf_members] at hfuel ⊢
    simp only [List.length_append, List.length_cons] at hfuel
    simp only [depthMembers] at hdepth
    have hx := value_chars h.1 fuel depth
      (','.toUInt8 :: (bytesOf (membersChars (m :: ms)) ++ '\x7d'.toUInt8 :: rest))
      (by omega) (by omega) (endsNumber_comma _)
    have hms := members_chars h.2 fuel depth rest
      (by simp only [depthMembers]; omega) (by omega)
    rw [members, List.append_assoc, memberName_quoted, ok_bind]
    simp only [List.cons_append, List.append_assoc, colon_cons, ok_bind, hx, more_comma, if_true,
      hms, rereadMembers]

end

/-- **A whole text is read** if its value is not nested too deep. -/
theorem read_bytes {v : Json} (h : Valid v) (hdepth : v.depth ≤ maxDepth) :
    Json.read v.bytes = .ok v.reread := by
  have hbytes : v.bytes = bytesOf v.chars := Utf8.encode_ofList v.chars
  have hvalue := value_chars h (enough (bytesOf v.chars)) maxDepth [] hdepth
    (by rw [enough]; omega) endsNumber_nil
  rw [List.append_nil] at hvalue
  rw [hbytes, Json.read, readWith]
  change (value (enough (bytesOf v.chars)) maxDepth (bytesOf v.chars) >>= _) = _
  rw [hvalue, ok_bind]
  rfl

end Sessions.Json
