import Sessions.Proofs.Codec.RoundTrip
import Sessions.Proofs.Json.Depth

/-!
# Which written records can be read

A payload that carries a whole record was written by one of the two codecs, however they are
composed, and the composition leaves it to that codec to read it (`Codec.Carries`). What it is read
as is then known (`Carries.eq_of_read`), and so is whether it can be read at all: that takes an id
that is not blank, which not every id is, and values that are nested no deeper than the format has
room for, which is two levels less in a portable document than in a binary payload.
-/

namespace Sessions

open Json (Reader)

/-! ## Binary payloads -/

/-- The record as a binary payload has it, where an empty principal stands for none. -/
def Session.named (s : Session) : Session := { s with principal := s.principal.filter (· ≠ "") }

lemma Session.principal_named (s : Session) : s.named.principal ≠ some "" := by
  intro h
  have hne := (Option.filter_eq_some_iff.1 h).2
  simp at hne

lemma Session.named_eq {s : Session} (h : s.principal ≠ some "") : s.named = s := by
  have hkept : s.principal.filter (· ≠ "") = s.principal := by
    cases hname : s.principal with
    | none => rfl
    | some name =>
      have hne : name ≠ "" := fun hempty => h (hname.trans (congrArg some hempty))
      simp [Option.filter, hne]
  rw [named, hkept]

lemma Session.WellFormed.named {s : Session} (h : s.WellFormed) : s.named.WellFormed :=
  ⟨h.id, h.created, h.accessed, h.order, h.interval⟩

namespace Binary

variable {bytes payload : Bytes} {s t : Session}

lemma full_named (s : Session) : full s.named = full s := by
  have hname : (s.principal.filter (· ≠ "")).getD "" = s.principal.getD "" := by
    cases s.principal with
    | none => rfl
    | some name => by_cases h : name = "" <;> simp [Option.filter, h]
  rw [full, full, putPrincipal, putPrincipal, Session.named, hname]

lemma takeId_of_blank {id : Ident} (hid : isBlank id.text = true)
    (h : Wire.putText "session id" id.text = .ok bytes) (rest : Bytes) :
    takeId (bytes ++ rest) = .error .blankStoredId := by
  rw [takeId, Wire.takeText_append h, ok_bind]
  simp [Ident.parse, hid]

lemma read_full_of_blank (hid : isBlank s.id.text = true) (h : full s = .ok payload) :
    read payload = .error .blankStoredId := by
  rw [full] at h
  obtain ⟨id, hput, h⟩ := bind_eq_ok.1 h
  obtain ⟨principal, -, h⟩ := bind_eq_ok.1 h
  obtain ⟨blob, -, h⟩ := bind_eq_ok.1 h
  obtain ⟨attributes, -, h⟩ := bind_eq_ok.1 h
  simp only [Except.ok.injEq] at h
  subst h
  have haccepts : accepts ⟨tag, .full s.kind⟩ = true := by simp [accepts]
  simp only [List.append_assoc]
  rw [read, Header.read_write, ok_bind, if_pos haccepts]
  simp only [Header.drop_write, takeRecord, takeId_of_blank hid hput]
  rfl

/-- **A binary payload is read if no value in it is nested deeper than a text**, and then as the
record with its values as they come back. -/
theorem read_full_iff_depth (hs : s.WellFormed)
    (hvalues : ∀ name value, s.attributes.value? name = some value → value.Valid)
    (h : full s = .ok payload) :
    read payload = .ok (some t) ↔
      (∀ name value, s.attributes.value? name = some value → value.depth ≤ Json.maxDepth) ∧
        t = s.named.echoed.reloaded := by
  rw [read_full_iff hs.named s.principal_named ((full_named s).trans h)]
  refine and_congr_left fun _ => forall₂_congr fun name value => ?_
  exact forall_congr' fun hv => (hvalues name value hv).legible_iff

end Binary

/-! ## Portable documents -/

namespace Document

variable {d found : Document}

lemma deepens_fields : ∀ f ∈ fields, Json.Deepens f.read := by
  have htext : Json.Deepens Reader.text := Json.deepens_of_const fun _ _ => rfl
  have hinteger : Json.Deepens Reader.integer := Json.deepens_of_const fun _ _ => rfl
  intro f hf
  simp only [fields, List.mem_cons, List.not_mem_nil, or_false] at hf
  rcases hf with rfl | rfl | rfl | rfl | rfl | rfl
  · exact Reader.deepens_of htext
  · exact Reader.deepens_of hinteger
  · exact Reader.deepens_of hinteger
  · exact Reader.deepens_of hinteger
  · exact Reader.deepens_of (Reader.deepens_optional htext)
  · exact Reader.deepens_of Reader.deepens_table

/-- The values of the document are valid, and nested no deeper than it has room for. -/
def Fits (d : Document) : Prop :=
  Json.ValidMembers d.attributes.entries ∧
    Json.depthMembers d.attributes.entries ≤ Portable.maxDepth

lemma keptBy_fields : ∀ f ∈ fields, Reader.KeptBy Fits (Portable.maxDepth + 1) f := by
  intro f hf
  simp only [fields, List.mem_cons, List.not_mem_nil, or_false] at hf
  rcases hf with rfl | rfl | rfl | rfl | rfl | rfl
  · exact Reader.keptBy_of fun _ _ _ _ _ h => h
  · exact Reader.keptBy_of fun _ _ _ _ _ h => h
  · exact Reader.keptBy_of fun _ _ _ _ _ h => h
  · exact Reader.keptBy_of fun _ _ _ _ _ h => h
  · exact Reader.keptBy_of fun _ _ _ _ _ h => h
  · exact Reader.keptBy_of fun _ _ _ h _ _ => Reader.valid_table h

lemma fits_blank : blank.Fits := ⟨trivial, Nat.zero_le _⟩

lemma fits_of_read {input : Bytes} (h : read input = .ok d) : d.Fits := by
  obtain ⟨⟨e, rest⟩, hrecord, h⟩ := bind_eq_ok.1 h
  simp only at h
  split at h
  · obtain rfl := Except.ok.inj h
    exact Reader.kept_record keptBy_fields fits_blank hrecord
  · cases h

/-- **The text of a document is read exactly when no value in it is nested too deep.** -/
theorem read_render_iff (hvalid : Json.ValidMembers d.attributes.entries) :
    read (Utf8.encode d.render) = .ok found ↔
      Json.depthMembers d.attributes.entries ≤ Portable.maxDepth ∧ found = d.reread := by
  constructor
  · intro h
    have hdepth := (fits_of_read h).2
    obtain ⟨⟨e, rest⟩, hrecord, h⟩ := bind_eq_ok.1 h
    simp only at h
    split at h
    · obtain rfl := Except.ok.inj h
      -- the same text at a depth that is great enough for all values
      have hdeeper := Reader.deepens_record deepens_fields blank _
        (max Portable.maxDepth (Json.depthMembers d.attributes.entries) + 1 + 1) _
        (Nat.add_le_add_right (Nat.le_max_left _ _) 2) _ hrecord
      rw [record_render hvalid (Nat.le_max_right _ _)] at hdeeper
      obtain ⟨rfl, -⟩ := Prod.mk.inj (Except.ok.inj hdeeper)
      exact ⟨(Json.validMembers_reread hvalid).2 ▸ hdepth, rfl⟩
    · cases h
  · rintro ⟨hdepth, rfl⟩
    exact read_render hvalid hdepth

end Document

namespace Portable

variable {s t : Session}

lemma read_payload_eq_ok :
    read (payload s) = .ok (some t) ↔
      ∃ d, Document.read (Utf8.encode (Document.ofSession s).render) = .ok d ∧
        d.toSession = .ok t := by
  have haccepts : accepts ⟨tag, .full .plain⟩ = true := by decide
  have hfull : Header.isDelta ⟨tag, .full .plain⟩ = false := by decide
  rw [read, readDocument, header_payload, ok_bind, if_pos haccepts]
  simp only [hfull, Bool.false_eq_true, if_false]
  rw [payload, Header.drop_write]
  cases Document.read (Utf8.encode (Document.ofSession s).render) with
  | error flaw => simp [bind, Except.bind]
  | ok d =>
    simp only [ok_bind, bind_eq_ok, Except.ok.injEq, Option.some.injEq, exists_eq_right,
      exists_eq_left']

/-- **A portable payload is read if no value in it is nested deeper than a document has room for**,
and then as the record with its values as they come back. -/
theorem read_payload_iff (hs : s.WellFormed)
    (hvalues : ∀ name value, s.attributes.value? name = some value → value.Valid)
    (hkind : s.kind = .plain) :
    read (payload s) = .ok (some t) ↔
      (∀ name value, s.attributes.value? name = some value → value.depth ≤ maxDepth) ∧
        t = s.echoed.reloaded := by
  have hvalid : Json.ValidMembers (Document.ofSession s).attributes.entries :=
    Json.validMembers_iff_forall.2 (Attributes.forall_entries.2 hvalues)
  have hdepth : Json.depthMembers (Document.ofSession s).attributes.entries ≤ maxDepth ↔
      ∀ name value, s.attributes.value? name = some value → value.depth ≤ maxDepth :=
    Json.depthMembers_le_iff.trans (Attributes.forall_entries (P := fun v => v.depth ≤ maxDepth))
  have hsession : (∀ name value, s.attributes.value? name = some value → value.depth ≤ maxDepth) →
      (Document.ofSession s).reread.toSession = .ok s.echoed.reloaded := fun hle =>
    toSession_ofSession hs (fun name value hv => ⟨hvalues name value hv, hle name value hv⟩) hkind
  rw [read_payload_eq_ok]
  constructor
  · rintro ⟨d, hread, hd⟩
    obtain ⟨hle, rfl⟩ := (Document.read_render_iff hvalid).1 hread
    rw [hsession (hdepth.1 hle)] at hd
    exact ⟨hdepth.1 hle, (Except.ok.inj hd).symm⟩
  · rintro ⟨hle, rfl⟩
    exact ⟨_, (Document.read_render_iff hvalid).2 ⟨hdepth.2 hle, rfl⟩, hsession hle⟩

lemma read_payload_of_blank (hid : isBlank s.id.text = true)
    (hvalues : ∀ name value, s.attributes.value? name = some value → value.Valid) :
    read (payload s) ≠ .ok (some t) := by
  have hvalid : Json.ValidMembers (Document.ofSession s).attributes.entries :=
    Json.validMembers_iff_forall.2 (Attributes.forall_entries.2 hvalues)
  rw [Ne, read_payload_eq_ok]
  rintro ⟨d, hread, hsession⟩
  obtain ⟨-, rfl⟩ := (Document.read_render_iff hvalid).1 hread
  have hblank : (Document.ofSession s).reread.toSession = .error .blankStoredId := by
    simp only [Document.toSession, Document.reread, Document.ofSession, Ident.parse, hid, if_true]
    rfl
  rw [hblank] at hsession
  cases hsession

end Portable

/-! ## Compositions -/

namespace Codec

variable {c m : Codec} {s s' t : Session} {payload : Bytes}

/-- A payload that carries the whole record: one of the two codecs has written it, and it is left to
that codec to read it. -/
inductive Carries (c : Codec) (s : Session) (payload : Bytes) : Prop
  | binary (h : Binary.full s = .ok payload) (hread : c.read payload = Binary.read payload)
  | portable (hkind : s.kind = .plain) (h : Portable.payload s = payload)
      (hread : c.read payload = Portable.read payload)

lemma portable_read_ne_none {frame : Frame} (h : Header.read payload = .ok ⟨Portable.tag, frame⟩) :
    Portable.read payload ≠ .ok none := by
  have haccepts : Portable.accepts ⟨Portable.tag, frame⟩ = true := by simp [Portable.accepts]
  intro hnone
  obtain ⟨found, hdocument, hnone⟩ := bind_eq_ok.1 hnone
  rw [Portable.readDocument, h, ok_bind, if_pos haccepts] at hdocument
  split at hdocument
  · cases hdocument
  · split at hdocument
    · obtain rfl := Except.ok.inj hdocument
      obtain ⟨u, -, hnone⟩ := bind_eq_ok.1 hnone
      cases hnone
    · cases hdocument

/-- What the first member of a chain carries, it also reads before all that stand after it. -/
lemma Carries.chain (h : m.Carries s payload) (rest : List Codec) :
    (chain (m :: rest)).Carries s payload := by
  have hfirst : ∀ {read : Except Fault (Option Session)}, m.read payload = read →
      read ≠ .ok none → readFirst (m :: rest) payload = read := by
    intro read hread hne
    simp only [readFirst, hread]
  cases h with
  | binary h hread =>
    exact .binary h (hfirst hread (binary_read_ne_none (Binary.header_full h)))
  | portable hkind h hread =>
    have hheader : Header.read payload = .ok ⟨Portable.tag, .full .plain⟩ :=
      h ▸ Portable.header_payload s
    exact .portable hkind h (hfirst hread (portable_read_ne_none hheader))

lemma carries_binary (h : payloadOf (Binary.append s [] (Binary.full s)) = (s', .ok payload)) :
    Codec.binary.Carries s payload :=
  .binary (Binary.payloadOf_append_eq_ok.1 h).1 rfl

lemma carries_portable (h : payloadOf (Portable.writeFull s []) = (s', .ok payload)) :
    Codec.portable.Carries s payload := by
  unfold Portable.writeFull at h
  split at h
  next hkind => exact .portable hkind (by simpa [payloadOf] using (Prod.mk.inj h).2) rfl
  next => simp [payloadOf] at h

lemma BuiltIn.carries_plain (hc : BuiltIn c) (hkind : s.kind = .plain)
    (h : c.encodeFull s = (s', .ok payload) ∨ c.encode s = (s', .ok payload)) :
    c.Carries s payload := by
  induction hc with
  | binary =>
    have hwrite : Codec.binary.write s [] = Binary.append s [] (Binary.full s) := by
      change Binary.write s [] = _
      rw [Binary.write, if_neg (by simp [hkind])]
    rcases h with h | h
    · exact carries_binary h
    · rw [encode, hwrite] at h
      exact carries_binary h
  | portable => exact carries_portable (h.elim id id)
  | @composed members c hmem hc ih =>
    rcases compose_eq_some hc with rfl | rfl
    · exact ih c (List.mem_singleton_self c) h
    · cases members with
      | nil => cases hc
      | cons m rest =>
        have hm := (hmem m List.mem_cons_self).plainly
        refine (ih m List.mem_cons_self ?_).chain rest
        refine h.imp (fun h => ?_) fun h => ?_
        · rw [encodeFull, ← h, encodeFull]
          have hmember := Writing.declined_eq_false (hm.writeFull s [] hkind)
          exact congrArg payloadOf (writeFirst_cons_taken hmember rest).symm
        · rw [encode, ← h, encode]
          have hmember := Writing.declined_eq_false (hm.write s [] hkind)
          exact congrArg payloadOf (writeFirst_cons_taken hmember rest).symm

/-- **Every full payload of a composition carries the record.** -/
theorem BuiltIn.carries (hc : BuiltIn c) (h : c.encodeFull s = (s', .ok payload)) :
    c.Carries s payload := by
  cases hkind : s.kind with
  | plain => exact hc.carries_plain hkind (.inl h)
  | deltaCapable =>
    have hacts := hc.acts
    split at hacts
    · rw [encodeFull, hacts.writeFull s [] hkind] at h
      have hwritten := (Binary.payloadOf_append_eq_ok.1 h).1
      exact .binary hwritten (hacts.read payload _ (Binary.header_full hwritten))
    · rw [encodeFull, hacts.writeFull] at h
      exact absurd h (payloadOf_portable_ne hkind)

/-- A payload in the form that a composition prefers carries the record, or is a delta of the binary
codec, which the composition leaves it to that codec to merge. -/
theorem BuiltIn.carries_or_delta (hc : BuiltIn c) (h : c.encode s = (s', .ok payload)) :
    c.Carries s payload ∨ s.kind = .deltaCapable ∧ Binary.delta s = .ok payload ∧
      ∀ base : Session, c.merge base payload = Binary.merge base payload := by
  cases hkind : s.kind with
  | plain => exact .inl (hc.carries_plain hkind (.inr h))
  | deltaCapable =>
    have hacts := hc.acts
    split at hacts
    · rw [encode, hacts.write s [] hkind, Binary.write] at h
      split at h
      · have hwritten := (Binary.payloadOf_append_eq_ok.1 h).1
        have hheader := Binary.header_delta hwritten
        exact .inr ⟨rfl, hwritten, fun base => hacts.merge base payload hheader⟩
      · have hwritten := (Binary.payloadOf_append_eq_ok.1 h).1
        exact .inl (.binary hwritten (hacts.read payload _ (Binary.header_full hwritten)))
    · rw [encode, hacts.write] at h
      exact absurd h (payloadOf_portable_ne hkind)

/-! ### What is read -/

/-- How deep the values of a payload with this header may be nested. -/
def room (header : Header) : Nat :=
  if header.tag = Portable.tag then Portable.maxDepth else Json.maxDepth

lemma room_binary (frame : Frame) : room ⟨Binary.tag, frame⟩ = Json.maxDepth := by
  have hne : Binary.tag ≠ Portable.tag := by decide
  rw [room, if_neg hne]

lemma room_portable (frame : Frame) : room ⟨Portable.tag, frame⟩ = Portable.maxDepth := if_pos rfl

lemma room_le (header : Header) : room header ≤ Json.maxDepth := by
  unfold room
  split <;> decide

lemma decode_eq_ok : c.decode payload = .ok t ↔ c.read payload = .ok (some t) := by
  rw [decode]
  cases c.read payload with
  | error e => simp [bind, Except.bind]
  | ok found =>
    cases found with
    | some u => simp
    | none =>
      simp only [ok_bind, Except.ok.injEq, reduceCtorEq, iff_false]
      intro h
      obtain ⟨header, -, h⟩ := bind_eq_ok.1 h
      cases h

/-- The header of a whole record of a kind: that of the binary codec, or else, if the record is
plain, that of the portable one. -/
def HeadsWhole (kind : Kind) (header : Header) : Prop :=
  header = ⟨Binary.tag, .full kind⟩ ∨ kind = .plain ∧ header = ⟨Portable.tag, .full .plain⟩

lemma Carries.header (h : c.Carries s payload) :
    ∃ header, Header.read payload = .ok header ∧ HeadsWhole s.kind header := by
  cases h with
  | binary h _ => exact ⟨_, Binary.header_full h, .inl rfl⟩
  | portable hkind h _ => exact ⟨_, h ▸ Portable.header_payload s, .inr ⟨hkind, rfl⟩⟩

/-- **What a carried record is read as**, and when: it is the record with its values as they come
back, but that it may be without an empty principal. -/
theorem Carries.decode_iff_kept (h : c.Carries s payload) (hs : s.WellFormed)
    (hvalues : ∀ name value, s.attributes.value? name = some value → value.Valid) :
    ∃ header principal, (s.principal ≠ some "" → principal = s.principal) ∧
      Header.read payload = .ok header ∧ HeadsWhole s.kind header ∧
      ∀ t, c.decode payload = .ok t ↔
        (∀ name value, s.attributes.value? name = some value → value.depth ≤ room header) ∧
          t = { s.echoed.reloaded with principal := principal } := by
  cases h with
  | binary h hread =>
    have hkept : s.principal ≠ some "" → s.named.principal = s.principal := fun hne =>
      congrArg Session.principal (Session.named_eq hne)
    refine ⟨_, s.named.principal, hkept, Binary.header_full h, .inl rfl, fun t => ?_⟩
    rw [decode_eq_ok, hread, room_binary]
    exact Binary.read_full_iff_depth hs hvalues h
  | portable hkind h hread =>
    refine ⟨_, s.principal, fun _ => rfl, h ▸ Portable.header_payload s, .inr ⟨hkind, rfl⟩,
      fun t => ?_⟩
    rw [decode_eq_ok, hread, room_portable, ← h]
    exact Portable.read_payload_iff hs hvalues hkind

/-- The same, whatever becomes of the principal. -/
theorem Carries.decode_iff (h : c.Carries s payload) (hs : s.WellFormed)
    (hvalues : ∀ name value, s.attributes.value? name = some value → value.Valid) :
    ∃ header principal, Header.read payload = .ok header ∧ HeadsWhole s.kind header ∧
      ∀ t, c.decode payload = .ok t ↔
        (∀ name value, s.attributes.value? name = some value → value.depth ≤ room header) ∧
          t = { s.echoed.reloaded with principal := principal } := by
  obtain ⟨header, principal, -, hrest⟩ := h.decode_iff_kept hs hvalues
  exact ⟨header, principal, hrest⟩

lemma Carries.decode_of_blank (h : c.Carries s payload) (hid : isBlank s.id.text = true)
    (hvalues : ∀ name value, s.attributes.value? name = some value → value.Valid) :
    c.decode payload ≠ .ok t := by
  rw [Ne, decode_eq_ok]
  cases h with
  | binary h hread =>
    rw [hread, Binary.read_full_of_blank hid h]
    simp
  | portable hkind h hread =>
    rw [hread, ← h]
    exact Portable.read_payload_of_blank hid hvalues

end Codec

/-- The records that an application can hold: all that can be made, under any id. Nothing that makes
or changes a record looks at its id, which may have been read from a text without a check. -/
def Session.Possible (s : Session) : Prop :=
  ∃ u : Session, u.Made ∧ ∃ id previous, s = { u with id := id, previous := previous }

lemma Session.Made.possible {s : Session} (h : s.Made) : s.Possible := ⟨s, h, s.id, s.previous, rfl⟩

lemma Session.Possible.wellFormed {s : Session} (h : s.Possible) (hid : isBlank s.id.text = false) :
    s.WellFormed := by
  obtain ⟨u, hmade, id, previous, rfl⟩ := h
  obtain ⟨-, hcreated, haccessed, horder, hinterval⟩ := hmade.wellFormed.1
  exact ⟨hid, hcreated, haccessed, horder, hinterval⟩

namespace Codec

variable {c : Codec} {s s' : Session} {payload : Bytes}

/-- **A written record can be read exactly when its id is not blank and its payload has room for its
values.** -/
theorem decodable_iff (hc : BuiltIn c) (hs : s.Possible)
    (hvalues : ∀ name value, s.attributes.value? name = some value →
      ∃ text, Json.read text = .ok value)
    (h : c.encodeFull s = (s', .ok payload)) :
    ∃ header, Header.read payload = .ok header ∧ HeadsWhole s.kind header ∧
      ((∃ t, c.decode payload = .ok t) ↔ isBlank s.id.text = false ∧
        ∀ name value, s.attributes.value? name = some value → value.depth ≤ room header) := by
  have hcarries := hc.carries h
  have hvalid : ∀ name value, s.attributes.value? name = some value → value.Valid := by
    intro name value hv
    obtain ⟨text, hread⟩ := hvalues name value hv
    exact (Json.valid_of_read hread).1
  cases hid : isBlank s.id.text with
  | true =>
    obtain ⟨header, hheader, hheads⟩ := hcarries.header
    refine ⟨header, hheader, hheads, ?_⟩
    simp only [Bool.true_eq_false, false_and, iff_false, not_exists]
    exact fun t => hcarries.decode_of_blank hid hvalid
  | false =>
    obtain ⟨header, principal, hheader, hheads, hiff⟩ :=
      hcarries.decode_iff (hs.wellFormed hid) hvalid
    refine ⟨header, hheader, hheads, ?_⟩
    simp only [hiff, exists_and_left, exists_eq, and_true, true_and]

end Codec

namespace Sample

/-- A plain record with a value that a text has room for, but no document. -/
def deep : Session :=
  (Edit.set "k" (nested 126)).apply evening (Session.create ⟨"x"⟩ evening .plain)

lemma made_deep : deep.Made := (Session.Made.create (by decide) evening .plain).edit _ evening

lemma value_deep {name : String} {value : Json} (h : deep.attributes.value? name = some value) :
    value = nested 126 := by
  have hmem := Attributes.exists_mem_entries h
  have hentries : deep.attributes.entries = [("k", nested 126)] := rfl
  rw [hentries, List.mem_singleton] at hmem
  exact (Prod.mk.inj hmem).2

end Sample

namespace Codec

open Sample

theorem decodable_iff_deep :
    ∃ payload, Codec.binary.encodeFull deep = (deep.commit, .ok payload) ∧
      ∃ t, Codec.binary.decode payload = .ok t := by
  obtain ⟨hreadable, hdepth⟩ := readable_nested 126
  have htext : ∃ text, Json.read text = .ok (nested 126) :=
    ⟨_, Json.readsBack_of_readable hreadable (by rw [hdepth]; decide)⟩
  have hok : (Binary.full deep).toOption.isSome = true := by decide +kernel
  cases hfull : Binary.full deep with
  | error e =>
    rw [hfull] at hok
    cases hok
  | ok payload =>
    have hwritten := Binary.encodeFull_eq_ok.2 ⟨hfull, rfl⟩
    obtain ⟨header, hheader, -, hiff⟩ := decodable_iff .binary made_deep.possible
      (fun name value hv => value_deep hv ▸ htext) hwritten
    obtain rfl : ⟨Binary.tag, .full .plain⟩ = header :=
      Except.ok.inj ((Binary.header_full hfull).symm.trans hheader)
    refine ⟨payload, hwritten, hiff.2 ⟨by decide, fun name value hv => ?_⟩⟩
    rw [value_deep hv, room_binary, hdepth]
    decide

/-- The two levels of a document itself leave no room for a value that its own text is read as, and
a record with a blank id is written although neither codec reads one. -/
theorem written_can_be_unreadable :
    Json.read (nested 126).bytes = .ok (nested 126) ∧
      (∃ payload, Codec.portable.encodeFull deep = (deep.commit, .ok payload) ∧
        ∀ t, Codec.portable.decode payload ≠ .ok t) ∧
      ∃ payload, (Codec.binary.encodeFull (.create ⟨" "⟩ evening .deltaCapable)).2 = .ok payload ∧
        ∀ t, Codec.binary.decode payload ≠ .ok t := by
  refine ⟨by decide +kernel, ⟨Portable.payload deep, rfl, fun t hread => ?_⟩, ?_⟩
  · have hvalid : ∀ name value, deep.attributes.value? name = some value → value.Valid := by
      intro name value hv
      rw [value_deep hv]
      exact (readable_nested 126).1.valid.1
    rw [decode_eq_ok] at hread
    obtain ⟨hdepth, -⟩ :=
      (Portable.read_payload_iff (s := deep) made_deep.wellFormed.1 hvalid rfl).1 hread
    have hle := hdepth "k" (nested 126) rfl
    rw [(readable_nested 126).2] at hle
    exact absurd hle (by decide)
  · have hok : (Binary.full (.create ⟨" "⟩ evening .deltaCapable)).toOption.isSome = true := by
      decide +kernel
    cases hfull : Binary.full (.create ⟨" "⟩ evening .deltaCapable) with
    | error e =>
      rw [hfull] at hok
      cases hok
    | ok payload =>
      refine ⟨payload, (Binary.encodeFull_snd _).trans hfull, fun t hread => ?_⟩
      have hnever := Binary.read_full_of_blank (by decide) hfull
      rw [Binary.decode_eq_ok, hnever] at hread
      cases hread

end Codec

end Sessions
