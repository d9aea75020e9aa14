import Sessions.Proofs.Codec.Faults
import Sessions.Proofs.Codec.Restoring

/-!
# What a faulty delta leaves

A delta is merged while it is read. The record is as it was until the whole preamble has been read,
and from then on it has the preamble and the changes that have been read so far. So a fault leaves
the record as it was, or with the preamble and with the changes that stand before the fault, each of
them whole (`Stopped`). A payload that is declined leaves the record as it was. Whatever happens, no
merge touches what the record has noted for its next write.
-/

namespace Sessions

namespace Binary

/-! ## Changes one by one -/

/-- The change at the front of the input: a name and its new value, none if it is removed. -/
def readChange (input : Bytes) : Except Fault ((String × Option Json) × Bytes) := do
  let (name, rest) ← Wire.takeText "attribute name" input
  let (marker, rest) ← Wire.takeByte "attribute marker" rest
  if marker = setMarker then
    let (value, rest) ← takeValue rest
    .ok ((name, some value), rest)
  else if marker = removedMarker then .ok ((name, none), rest)
  else .error (.unknownMarker marker name)

lemma takeChange_eq (a : Attributes) (input : Bytes) :
    takeChange a input = (readChange input).map fun read => (a.applyChange read.1, read.2) := by
  rw [takeChange, readChange]
  cases Wire.takeText "attribute name" input with
  | error e => rfl
  | ok named =>
    obtain ⟨name, next⟩ := named
    simp only [ok_bind]
    cases Wire.takeByte "attribute marker" next with
    | error e => rfl
    | ok marked =>
      obtain ⟨marker, next⟩ := marked
      simp only [ok_bind]
      split
      · cases takeValue next <;> rfl
      · split <;> rfl

/-- The input begins with the changes, and the rest follows them. -/
inductive Brings : Bytes → List (String × Option Json) → Bytes → Prop
  | nil {input : Bytes} : Brings input [] input
  | cons {input next rest : Bytes} {change : String × Option Json}
    {changes : List (String × Option Json)} (hread : readChange input = .ok (change, next))
    (hnext : Brings next changes rest) : Brings input (change :: changes) rest

variable {base : Session} {payload input rest : Bytes} {changes : List (String × Option Json)}

lemma takeChanges_of_brings (h : Brings input changes rest) (count : Nat) (a : Attributes) :
    takeChanges (changes.length + count) a input =
      takeChanges count (changes.foldl Attributes.applyChange a) rest := by
  induction h generalizing a with
  | nil => rw [List.length_nil, Nat.zero_add, List.foldl_nil]
  | @cons input next rest change changes hread _ ih =>
    have hstep : takeChange a input = .ok (a.applyChange change, next) := by
      rw [takeChange_eq, hread]
      rfl
    rw [List.length_cons, Nat.succ_add, takeChanges, hstep, List.foldl_cons]
    exact ih (a.applyChange change)

/-- However many changes are asked for, the input begins with so many, or with fewer and something
that cannot be read as one. -/
lemma exists_brings (count : Nat) (input : Bytes) :
    ∃ changes rest, Brings input changes rest ∧
      (changes.length = count ∨ changes.length < count ∧ ∃ e, readChange rest = .error e) := by
  induction count generalizing input with
  | zero => exact ⟨[], input, .nil, .inl rfl⟩
  | succ count ih =>
    cases hread : readChange input with
    | error e => exact ⟨[], input, .nil, .inr ⟨Nat.succ_pos count, e, hread⟩⟩
    | ok read =>
      obtain ⟨changes, rest, hbrings, hlength⟩ := ih read.2
      refine ⟨read.1 :: changes, rest, .cons hread hbrings, ?_⟩
      rw [List.length_cons]
      exact hlength.imp (congrArg (· + 1)) (And.imp_left Nat.succ_lt_succ)

lemma takeChanges_cases (count : Nat) (a : Attributes) (input : Bytes) :
    ∃ changes rest, Brings input changes rest ∧
      (changes.length = count ∧
          takeChanges count a input = (changes.foldl Attributes.applyChange a, .ok ()) ∨
        changes.length < count ∧ ∃ e, readChange rest = .error e ∧
          takeChanges count a input = (changes.foldl Attributes.applyChange a, .error e)) := by
  obtain ⟨changes, rest, hbrings, hlength⟩ := exists_brings count input
  refine ⟨changes, rest, hbrings, ?_⟩
  rcases hlength with rfl | ⟨hlt, e, hfault⟩
  · exact .inl ⟨rfl, takeChanges_of_brings hbrings 0 a⟩
  · obtain ⟨more, rfl⟩ := Nat.exists_eq_add_of_lt hlt
    refine .inr ⟨hlt, e, hfault, ?_⟩
    have hstep : takeChange (changes.foldl Attributes.applyChange a) rest = .error e := by
      rw [takeChange_eq, hfault]
      rfl
    rw [Nat.add_assoc, takeChanges_of_brings hbrings, takeChanges, hstep]

/-! ## Where a merge stops -/

/-- The preamble of a payload for the session with the given id, and what follows it; none if the
payload is no delta of this codec. -/
def readPreamble (base : Ident) (payload : Bytes) : Except Fault (Option (Preamble × Bytes)) := do
  let header ← Header.read payload
  if accepts header ∧ header.isDelta then
    (takePreamble base (payload.drop Header.size)).map some
  else .ok none

lemma readPreamble_of_delta (h : Header.read payload = .ok ⟨tag, .delta⟩) (id : Ident) :
    readPreamble id payload = (takePreamble id (payload.drop Header.size)).map some := by
  have hours : accepts ⟨tag, .delta⟩ = true ∧ Header.isDelta ⟨tag, .delta⟩ = true := by
    simp [accepts, Header.isDelta]
  rw [readPreamble, h, ok_bind, if_pos hours]

lemma readPreamble_of_other {header : Header} (h : Header.read payload = .ok header)
    (hne : header ≠ ⟨tag, .delta⟩) (id : Ident) : readPreamble id payload = .ok none := by
  have hother : ¬(accepts header = true ∧ header.isDelta = true) := by
    rintro ⟨htag, hframe⟩
    obtain ⟨found, frame⟩ := header
    obtain rfl : found = tag := by simpa [accepts] using htag
    obtain rfl : frame = .delta := by simpa [Header.isDelta] using hframe
    exact hne rfl
  rw [readPreamble, h, ok_bind, if_neg hother]

lemma takePreamble_of_read {id : Ident} {preamble : Preamble} {rest : Bytes}
    (h : readPreamble id payload = .ok (some (preamble, rest))) :
    takePreamble id (payload.drop Header.size) = .ok (preamble, rest) := by
  obtain ⟨header, -, h⟩ := bind_eq_ok.1 h
  split at h
  · cases htake : takePreamble id (payload.drop Header.size) with
    | error e =>
      rw [htake] at h
      cases h
    | ok taken =>
      rw [htake] at h
      exact congrArg Except.ok (Option.some.inj (Except.ok.inj h))
  · cases h

/-- The record that a merge has made of the base when it stops with a fault. -/
inductive Stopped (base : Session) (payload : Bytes) (e : Fault) : Session → Prop
  /-- Nothing is changed before the preamble is complete. -/
  | early (h : readPreamble base.id payload = .error e) : Stopped base payload e base
  | uncounted {preamble : Preamble} {input : Bytes}
    (hpreamble : readPreamble base.id payload = .ok (some (preamble, input)))
    (h : Wire.takeLength "change count" input = .error e) :
    Stopped base payload e (preamble.apply base)
  /-- The changes before the fault have been applied, each of them whole. -/
  | within {preamble : Preamble} {input first rest : Bytes} {count : Nat}
    {changes : List (String × Option Json)}
    (hpreamble : readPreamble base.id payload = .ok (some (preamble, input)))
    (hcount : Wire.takeLength "change count" input = .ok (count, first))
    (hbrings : Brings first changes rest) (hmore : changes.length < count)
    (h : readChange rest = .error e) :
    Stopped base payload e { preamble.apply base with
      attributes := changes.foldl Attributes.applyChange base.attributes }

inductive Ending (base : Session) (payload : Bytes) : Session × Except Fault Bool → Prop
  | declined (h : readPreamble base.id payload = .ok none) : Ending base payload (base, .ok false)
  | stopped {e : Fault} {t : Session} (h : Stopped base payload e t) :
    Ending base payload (t, .error e)
  | merged {preamble : Preamble} {input first rest : Bytes} {count : Nat}
    {changes : List (String × Option Json)}
    (hpreamble : readPreamble base.id payload = .ok (some (preamble, input)))
    (hcount : Wire.takeLength "change count" input = .ok (count, first))
    (hbrings : Brings first changes rest) (hall : changes.length = count) :
    Ending base payload ({ preamble.apply base with
      attributes := changes.foldl Attributes.applyChange base.attributes }, .ok true)

/-- **Every way in which a merge can end.** -/
theorem ending_merge (base : Session) (payload : Bytes) :
    Ending base payload (merge base payload) := by
  unfold merge
  cases hheader : Header.read payload with
  | error e => exact .stopped (.early (by rw [readPreamble, hheader]; rfl))
  | ok header =>
    dsimp only
    split
    next hours =>
      have hread : readPreamble base.id payload =
          (takePreamble base.id (payload.drop Header.size)).map some := by
        rw [readPreamble, hheader, ok_bind, if_pos hours]
      cases hpreamble : takePreamble base.id (payload.drop Header.size) with
      | error e => exact .stopped (.early (by rw [hread, hpreamble]; rfl))
      | ok taken =>
        obtain ⟨preamble, input⟩ := taken
        rw [hpreamble] at hread
        dsimp only
        cases hcount : Wire.takeLength "change count" input with
        | error e => exact .stopped (.uncounted hread hcount)
        | ok counted =>
          obtain ⟨count, first⟩ := counted
          have hattributes : (preamble.apply base).attributes = base.attributes := rfl
          obtain ⟨changes, rest, hbrings, hend⟩ := takeChanges_cases count base.attributes first
          dsimp only
          rw [hattributes]
          rcases hend with ⟨hall, hdone⟩ | ⟨hmore, e, hfault, hdone⟩
          · rw [hdone]
            exact .merged hread hcount hbrings hall
          · rw [hdone]
            exact .stopped (.within hread hcount hbrings hmore hfault)
    next hours =>
      exact .declined (by rw [readPreamble, hheader, ok_bind, if_neg hours])

lemma Ending.unfinished {result : Session × Except Fault Bool} (h : Ending base payload result) :
    (result.2 = .ok false → result.1 = base) ∧
      ∀ e, result.2 = .error e → Stopped base payload e result.1 := by
  cases h with
  | declined => exact ⟨fun _ => rfl, (fun _ he => by cases he)⟩
  | stopped hstopped =>
    refine ⟨(fun hfalse => by cases hfalse), fun e he => ?_⟩
    cases he
    exact hstopped
  | merged => exact ⟨(fun hfalse => by cases hfalse), (fun _ he => by cases he)⟩

/-! ## What no merge touches -/

/-- The same session, with the same notes for its next write. -/
structure Unnoted (base t : Session) : Prop where
  id : t.id = base.id
  previous : t.previous = base.previous
  created : t.created = base.created
  kind : t.kind = base.kind
  phase : t.phase = base.phase
  dirty : t.dirty = base.dirty
  log : t.attributes.log = base.attributes.log

lemma Unnoted.refl (base : Session) : Unnoted base base := ⟨rfl, rfl, rfl, rfl, rfl, rfl, rfl⟩

lemma unnoted_apply (base : Session) (preamble : Preamble) (changes : List (String × Option Json)) :
    Unnoted base { preamble.apply base with
      attributes := changes.foldl Attributes.applyChange base.attributes } :=
  ⟨rfl, rfl, rfl, rfl, rfl, rfl, Attributes.log_foldl_applyChange changes base.attributes⟩

lemma Ending.unnoted {result : Session × Except Fault Bool} (h : Ending base payload result) :
    Unnoted base result.1 := by
  cases h with
  | declined => exact .refl base
  | stopped hstopped =>
    cases hstopped with
    | early => exact .refl base
    | @uncounted preamble => exact unnoted_apply base preamble []
    | @within preamble _ _ _ _ changes => exact unnoted_apply base preamble changes
  | @merged preamble _ _ _ _ changes => exact unnoted_apply base preamble changes

end Binary

/-! ## All codecs -/

namespace Codec

variable {c : Codec}

/-- **What a merge leaves that does not succeed.** A payload that is declined leaves the record as
it was. A fault leaves it as it was, unless the preamble has been read; after that the record has
the preamble and the changes that stand before the fault, and nothing else. Whatever happens, the
record stays the session that it was, with the same notes for its next write. -/
theorem merge_unfinished (hc : BuiltIn c) (base : Session) (payload : Bytes) :
    ((c.merge base payload).2 = .ok false → (c.merge base payload).1 = base) ∧
    (∀ e, (c.merge base payload).2 = .error e →
      Binary.Stopped base payload e (c.merge base payload).1) ∧
    Binary.Unnoted base (c.merge base payload).1 := by
  rcases hc.merge_cases base payload with hmerge | hmerge
  · rw [hmerge]
    have hending := Binary.ending_merge base payload
    exact ⟨hending.unfinished.1, hending.unfinished.2, hending.unnoted⟩
  · rw [hmerge]
    exact ⟨fun _ => rfl, (fun _ he => by cases he), .refl base⟩

open Sample

/-- The torn delta is merged as far as it goes: the access, the interval and one removal. -/
theorem merge_unfinished_torn :
    (twoDeep.merge pioneer torn).2 = .error (.shortField "attribute name") ∧
      Binary.Stopped pioneer torn (.shortField "attribute name") (twoDeep.merge pioneer torn).1 ∧
      (twoDeep.merge pioneer torn).1.accessed.millis = -500 ∧
      (twoDeep.merge pioneer torn).1.maxIdle = .ofSeconds 60 ∧
      (twoDeep.merge pioneer torn).1.attributes.value? "step" = none ∧
      Binary.Unnoted pioneer (twoDeep.merge pioneer torn).1 := by
  have herror : (twoDeep.merge pioneer torn).2 = .error (.shortField "attribute name") := by
    decide +kernel
  obtain ⟨-, hstopped, hunnoted⟩ := merge_unfinished builtIn_twoDeep pioneer torn
  exact ⟨herror, hstopped _ herror, by decide +kernel, by decide +kernel, by decide +kernel,
    hunnoted⟩

/-- A merge is not all or nothing. -/
theorem merge_torn_ne :
    BuiltIn .binary ∧ (∃ e, (Codec.binary.merge pioneer torn).2 = .error e) ∧
      (Codec.binary.merge pioneer torn).1 ≠ pioneer := by
  refine ⟨.binary, ⟨.shortField "attribute name", by decide +kernel⟩, fun heq => ?_⟩
  have hstep : (Codec.binary.merge pioneer torn).1.attributes.value? "step" = none := by
    decide +kernel
  have hheld : pioneer.attributes.value? "step" ≠ none := by decide
  exact hheld (heq ▸ hstep)

end Codec

end Sessions
