import Sessions.Proofs.Codec.FaultyDelta
import Sessions.Proofs.IndexKey

/-!
# Principals from payloads

An empty text is no principal. A binary payload, whole or delta, cannot name one: a length of zero
stands for none. A document is taken at its word, so one that names an empty principal becomes a
record that has one, which is found under its key and is lost when the binary codec writes the
record. That is the only way to get such a record from a payload (`Codec.principal_of_payload`).
All other records keep their principal, whichever codec writes them next (`Codec.Conveys`).
-/

namespace Sessions

/-! ## Headers of what is read and merged -/

namespace Binary

variable {s : Session} {payload : Bytes}

lemma header_of_read (h : read payload = .ok (some s)) :
    ∃ kind, Header.read payload = .ok ⟨tag, .full kind⟩ := by
  obtain ⟨⟨found, frame⟩, hheader, h⟩ := bind_eq_ok.1 h
  split at h
  next hours =>
    obtain rfl : found = tag := by simpa [accepts] using hours
    cases frame with
    | full kind => exact ⟨kind, hheader⟩
    | delta => cases h
  next => cases h

lemma header_of_readPreamble {id : Ident} {taken : Preamble × Bytes}
    (h : readPreamble id payload = .ok (some taken)) :
    Header.read payload = .ok ⟨tag, .delta⟩ := by
  obtain ⟨header, hheader, -⟩ := bind_eq_ok.1 h
  by_contra hne
  rw [readPreamble_of_other hheader fun heq => hne (heq ▸ hheader)] at h
  cases h

end Binary

namespace Portable

variable {payload : Bytes} {d : Document}

lemma readDocument_eq_ok (h : readDocument payload = .ok (some d)) :
    ∃ header, Header.read payload = .ok header ∧ header.isDelta = false ∧
      Document.read (payload.drop Header.size) = .ok d := by
  obtain ⟨header, hheader, h⟩ := bind_eq_ok.1 h
  split at h
  · split at h
    next => cases h
    next hwhole =>
      split at h
      next found hread =>
        obtain rfl := Option.some.inj (Except.ok.inj h)
        exact ⟨header, hheader, by simpa using hwhole, hread⟩
      next => cases h
  · cases h

end Portable

/-! ## Values of what is read and merged -/

namespace Attributes

variable {a : Attributes}

lemma valid_foldl_applyChange {changes : List (String × Option Json)}
    (ha : ∀ name value, a.value? name = some value → value.Valid)
    (hchanges : ∀ change ∈ changes, ∀ value ∈ change.2, value.Valid) :
    ∀ name value, (changes.foldl applyChange a).value? name = some value → value.Valid := by
  induction changes generalizing a with
  | nil => exact ha
  | cons change rest ih =>
    obtain ⟨changed, new⟩ := change
    obtain ⟨hnew, hrest⟩ := List.forall_mem_cons.1 hchanges
    refine ih (fun name value hv => ?_) hrest
    rw [value?_applyChange] at hv
    split at hv
    · exact hnew value hv
    · exact ha name value hv

end Attributes

lemma Document.valid_toSession {d : Document} {s : Session} (h : d.toSession = .ok s)
    (hvalid : Json.ValidMembers d.attributes.entries) :
    ∀ name value, s.attributes.value? name = some value → value.Valid := by
  obtain ⟨-, created, -, accessed, -, h⟩ := toSession_eq_ok_iff.1 h
  obtain ⟨-, rfl⟩ := Session.restore_eq_ok_iff.1 h
  have hnone : ∀ name value, (default : Attributes).value? name = some value → value.Valid :=
    fun _ _ hv => nomatch hv
  rw [Attributes.ofEntries_eq_foldl]
  refine Attributes.valid_foldl_applyChange hnone (List.forall_mem_map.2 fun e he value hv => ?_)
  exact Option.some.inj hv ▸ Json.validMembers_iff_forall.1 hvalid e he

namespace Binary

variable {input rest : Bytes} {changes : List (String × Option Json)}

lemma valid_readChange {change : String × Option Json}
    (h : readChange input = .ok (change, rest)) : ∀ value ∈ change.2, value.Valid := by
  obtain ⟨⟨name, named⟩, -, h⟩ := bind_eq_ok.1 h
  obtain ⟨⟨marker, marked⟩, -, h⟩ := bind_eq_ok.1 h
  simp only at h
  split at h
  · obtain ⟨⟨value, after⟩, hvalue, h⟩ := bind_eq_ok.1 h
    obtain ⟨rfl, -⟩ := Prod.mk.inj (Except.ok.inj h)
    exact fun found hfound => Option.some.inj hfound ▸ (takeValue_ok hvalue).1
  · split at h
    · obtain ⟨rfl, -⟩ := Prod.mk.inj (Except.ok.inj h)
      exact fun _ hfound => nomatch hfound
    · cases h

lemma Brings.valid (h : Brings input changes rest) :
    ∀ change ∈ changes, ∀ value ∈ change.2, value.Valid := by
  induction h with
  | nil => exact fun _ hmem => absurd hmem List.not_mem_nil
  | cons hread _ ih => exact List.forall_mem_cons.2 ⟨valid_readChange hread, ih⟩

end Binary

/-! ## Records from payloads -/

namespace Codec

variable {c : Codec} {base s : Session} {payload : Bytes}

/-- The payload carries a document that names an empty principal. -/
def NamesEmpty (payload : Bytes) : Prop :=
  ∃ d, Portable.readDocument payload = .ok (some d) ∧ d.principal = some ""

/-- The records that a codec gives for a payload: the one that it reads, and those that it has
merged the payload into, whichever records of an application they were. -/
inductive Gives (c : Codec) (payload : Bytes) : Session → Prop
  | decoded {s : Session} (h : c.decode payload = .ok s) : c.Gives payload s
  | merged {base s : Session} (hbase : base.Possible)
    (hvalues : ∀ name value, base.attributes.value? name = some value → value.Valid)
    (h : c.merge base payload = (s, .ok true)) : c.Gives payload s

lemma BuiltIn.ending_of_merge (hc : BuiltIn c) (h : c.merge base payload = (s, .ok true)) :
    Binary.Ending base payload (s, .ok true) := by
  rcases hc.merge_cases base payload with hmerge | hmerge
  · rw [← h, hmerge]
    exact Binary.ending_merge base payload
  · rw [hmerge] at h
    cases h

lemma BuiltIn.delta_of_merge (hc : BuiltIn c) (h : c.merge base payload = (s, .ok true)) :
    Header.read payload = .ok ⟨Binary.tag, .delta⟩ := by
  cases hc.ending_of_merge h with
  | merged hpreamble => exact Binary.header_of_readPreamble hpreamble

lemma BuiltIn.whole_of_read (hc : BuiltIn c) (h : c.read payload = .ok (some s)) :
    ∃ header, Header.read payload = .ok header ∧ header.isDelta = false := by
  rcases hc.read_of_read h with hbinary | ⟨d, hdocument, -⟩
  · obtain ⟨kind, hheader⟩ := Binary.header_of_read hbinary
    exact ⟨_, hheader, rfl⟩
  · obtain ⟨header, hheader, hwhole, -⟩ := Portable.readDocument_eq_ok hdocument
    exact ⟨header, hheader, hwhole⟩

/-- **Where a principal comes from**: from a document, which is taken at its word, or from a payload
of the binary codec, which names no empty one. -/
theorem Gives.principal (hc : BuiltIn c) (h : c.Gives payload s) :
    s.principal = some "" ↔ NamesEmpty payload := by
  -- the tag tells the two formats apart, so a binary payload has no document
  have hbinary : ∀ {frame}, Header.read payload = .ok ⟨Binary.tag, frame⟩ →
      ¬NamesEmpty payload := by
    rintro frame hheader ⟨d, hread, -⟩
    rw [readDocument_of_binary hheader] at hread
    cases hread
  cases h with
  | decoded h =>
    rcases hc.read_of_read (decode_eq_ok.1 h) with hread | ⟨d, hread, hsession⟩
    · obtain ⟨kind, hheader⟩ := Binary.header_of_read hread
      exact iff_of_false (Binary.fresh_read hread).2 (hbinary hheader)
    · obtain ⟨-, created, -, accessed, -, hrestore⟩ := Document.toSession_eq_ok_iff.1 hsession
      obtain ⟨-, rfl⟩ := Session.restore_eq_ok_iff.1 hrestore
      refine ⟨fun hempty => ⟨d, hread, hempty⟩, ?_⟩
      rintro ⟨found, hfound, hempty⟩
      obtain rfl : d = found := Option.some.inj (Except.ok.inj (hread.symm.trans hfound))
      exact hempty
  | merged hbase hvalues h =>
    refine iff_of_false ?_ (hbinary (hc.delta_of_merge h))
    cases hc.ending_of_merge h with
    | merged hpreamble =>
      exact (Binary.takePreamble_ok (Binary.takePreamble_of_read hpreamble)).2.2.1

lemma Gives.wellFormed (hc : BuiltIn c) (h : c.Gives payload s) : s.WellFormed := by
  cases h with
  | decoded h => exact (hc.fresh_read (decode_eq_ok.1 h)).1.wellFormed
  | @merged base _ hbase hvalues h =>
    have hmerged := hc.merged base payload
    rw [h] at hmerged
    refine hmerged.wellFormed (hbase.wellFormed ?_)
    cases hc.ending_of_merge h with
    | merged hpreamble =>
      exact (Binary.takePreamble_ok (Binary.takePreamble_of_read hpreamble)).2.2.2

lemma Gives.valid (hc : BuiltIn c) (h : c.Gives payload s) :
    ∀ name value, s.attributes.value? name = some value → value.Valid := by
  cases h with
  | decoded h =>
    rcases hc.read_of_read (decode_eq_ok.1 h) with hread | ⟨d, hread, hsession⟩
    · exact fun name value hv => ((Binary.loaded_read hread).attributes.values name value hv).1
    · obtain ⟨-, -, -, hdocument⟩ := Portable.readDocument_eq_ok hread
      exact Document.valid_toSession hsession (Document.fits_of_read hdocument).1
  | merged hbase hvalues h =>
    cases hc.ending_of_merge h with
    | merged _ _ hbrings => exact Attributes.valid_foldl_applyChange hvalues hbrings.valid

/-! ## Principals in payloads -/

/-- Whoever gets a record from the payload gets one with this principal. -/
def Tells (c : Codec) (payload : Bytes) (principal : Option String) : Prop :=
  (∀ t, c.decode payload = .ok t → t.principal = principal) ∧
    ∀ base t, c.merge base payload = (t, .ok true) → t.principal = principal

/-- A record keeps its principal when the codec writes it. -/
structure Conveys (c : Codec) (s : Session) : Prop where
  /-- Only a field that is too long keeps the record from being written. -/
  written : ∀ e, (c.encodeFull s).2 = .error e → ∃ field, e = .tooLarge field
  /-- Only a value that is nested too deep keeps it from being read. -/
  readable : ∀ payload, (c.encodeFull s).2 = .ok payload →
    ∃ header, Header.read payload = .ok header ∧
      ((∃ t, c.decode payload = .ok t) ↔
        ∀ name value, s.attributes.value? name = some value → value.depth ≤ room header)
  tells : ∀ payload, (c.encodeFull s).2 = .ok payload ∨ (c.encode s).2 = .ok payload →
    c.Tells payload s.principal

lemma BuiltIn.writeFull_ne_declined (hc : BuiltIn c) (hkind : c.writes s.kind = true) :
    (c.writeFull s []).outcome ≠ .ok false := by
  cases hs : s.kind with
  | plain => exact hc.plainly.writeFull s [] hs
  | deltaCapable =>
    have hacts := hc.acts
    rw [if_pos (hs ▸ hkind)] at hacts
    rw [hacts.writeFull s [] hs]
    exact outcome_append_ne s [] _

lemma Carries.decode_iff_of_principal (h : c.Carries s payload) (hs : s.WellFormed)
    (hvalues : ∀ name value, s.attributes.value? name = some value → value.Valid)
    (hprincipal : s.principal ≠ some "") :
    ∃ header, Header.read payload = .ok header ∧ HeadsWhole s.kind header ∧
      ∀ t, c.decode payload = .ok t ↔
        (∀ name value, s.attributes.value? name = some value → value.depth ≤ room header) ∧
          t = s.echoed.reloaded := by
  obtain ⟨header, principal, hkept, hrest⟩ := h.decode_iff_kept hs hvalues
  obtain rfl := hkept hprincipal
  exact ⟨header, hrest⟩

lemma Carries.tells (hc : BuiltIn c) (h : c.Carries s payload) (hs : s.WellFormed)
    (hvalues : ∀ name value, s.attributes.value? name = some value → value.Valid)
    (hprincipal : s.principal ≠ some "") : c.Tells payload s.principal := by
  obtain ⟨header, hheader, hheads, hiff⟩ := h.decode_iff_of_principal hs hvalues hprincipal
  refine ⟨fun t ht => ((hiff t).1 ht).2 ▸ rfl, fun base t ht => ?_⟩
  obtain rfl := Except.ok.inj (hheader.symm.trans (hc.delta_of_merge ht))
  rcases hheads with heq | ⟨-, heq⟩ <;> cases heq

lemma BuiltIn.tells_of_delta (hc : BuiltIn c) (h : Binary.delta s = .ok payload)
    (hmerge : ∀ base : Session, c.merge base payload = Binary.merge base payload)
    (hs : s.WellFormed) (hprincipal : s.principal ≠ some "") : c.Tells payload s.principal := by
  refine ⟨fun t ht => ?_, fun base t ht => ?_⟩
  · obtain ⟨header, hheader, hwhole⟩ := hc.whole_of_read (decode_eq_ok.1 ht)
    obtain rfl := Except.ok.inj (hheader.symm.trans (Binary.header_delta h))
    cases hwhole
  · rw [hmerge, Binary.merge_delta_iff hs hprincipal h] at ht
    obtain ⟨-, -, rfl⟩ := ht
    rfl

/-- **A proper principal is kept**, whichever codec writes the record, in whichever form. -/
theorem BuiltIn.conveys (hc : BuiltIn c) (hkind : c.writes s.kind = true) (hs : s.WellFormed)
    (hvalues : ∀ name value, s.attributes.value? name = some value → value.Valid)
    (hprincipal : s.principal ≠ some "") : c.Conveys s where
  written e he :=
    (hc.encodeFull_eq_error he).resolve_right fun hother =>
      hc.writeFull_ne_declined hkind hother.1
  readable payload hpayload := by
    have hcarries := hc.carries (Prod.ext rfl hpayload)
    obtain ⟨header, hheader, -, hiff⟩ := hcarries.decode_iff_of_principal hs hvalues hprincipal
    refine ⟨header, hheader, ?_⟩
    simp only [hiff, exists_eq_right]
  tells payload hpayload := by
    rcases hpayload with hwhole | hpreferred
    · exact (hc.carries (Prod.ext rfl hwhole)).tells hc hs hvalues hprincipal
    · rcases hc.carries_or_delta (Prod.ext rfl hpreferred) with hcarries | ⟨-, hdelta, hmerge⟩
      · exact hcarries.tells hc hs hvalues hprincipal
      · exact hc.tells_of_delta hdelta hmerge hs hprincipal

open IndexKey (Distinct ofPrincipal ofSession principalText textsOf)

/-- **Which payloads give an empty principal, and what becomes of all others.** A record that is
read, or that a payload is merged into, has an empty principal exactly if the payload carries a
document that names one, and only then it is found under the key of an empty principal, where no two
of the hashed texts have the same digest. Otherwise its principal is kept by every codec that writes
records of its kind. -/
theorem principal_of_payload (hc : BuiltIn c) (h : c.Gives payload s) :
    (s.principal = some "" ↔ NamesEmpty payload) ∧
    (∀ names, Distinct (principalText "" :: textsOf s names) →
      (ofPrincipal "" ∈ ofSession s names ↔ NamesEmpty payload)) ∧
    (¬NamesEmpty payload → ∀ other : Codec, other.BuiltIn → other.writes s.kind = true →
      other.Conveys s) := by
  have hprincipal := h.principal hc
  refine ⟨hprincipal, fun names hdistinct => ?_, fun hempty other hother hkind => ?_⟩
  · rw [ofPrincipal, hdistinct.ofText_mem_ofSession fun _ hmem => hmem,
      IndexKey.principalText_mem_textsOf, hprincipal]
  · exact hother.conveys hkind (h.wellFormed hc) (h.valid hc) (hprincipal.not.2 hempty)

end Codec

namespace Sample

/-- A record that no edit makes, and no payload but a document. -/
def hollow : Session where
  id := ⟨"y"⟩
  previous := none
  created := evening.floorMillis
  accessed := evening.floorMillis
  maxIdle := .ofSeconds 60
  principal := some ""
  attributes := .ofEntries []
  kind := .plain
  phase := .persisted
  dirty := false

lemma wellFormed_hollow : hollow.WellFormed where
  id := by decide
  created := evening.floorMillis_floorMillis
  accessed := evening.floorMillis_floorMillis
  order := Time.le_refl _
  interval := by decide

lemma value_hollow {name : String} {value : Json} : hollow.attributes.value? name ≠ some value :=
  nofun

def nameless : Bytes := Portable.payload hollow

lemma decode_nameless : Codec.portable.decode nameless = .ok hollow := by
  rw [Codec.decode_eq_ok]
  exact (Portable.read_payload_iff wellFormed_hollow (fun _ _ hv => absurd hv value_hollow) rfl).2
    ⟨fun _ _ hv => absurd hv value_hollow, rfl⟩

def anonymous : Bytes :=
  Header.write ⟨Binary.tag, .delta⟩ ++ Wire.ofNat 4 1 ++ Utf8.encode "y" ++ Wire.putInt64 1000
    ++ Wire.putInt64 60 ++ Wire.ofNat 4 0 ++ Wire.ofNat 4 0

def cleared : Session := (Codec.binary.merge hollow anonymous).1

end Sample

namespace Codec

open Sample
open IndexKey (Distinct ofPrincipal ofSession principalText textsOf)

/-- A delta takes away the empty principal that a document has given. -/
theorem principal_of_payload_cleared :
    Codec.portable.Gives nameless hollow ∧ NamesEmpty nameless ∧
      twoDeep.Gives anonymous cleared ∧ ofPrincipal "" ∉ ofSession cleared [] ∧
        Codec.portable.writes cleared.kind = true ∧ Codec.portable.Conveys cleared := by
  have hread : Codec.portable.Gives nameless hollow := .decoded decode_nameless
  have hmade : hollow.Made := .read .portable (decode_eq_ok.1 decode_nameless)
  have hmerge : twoDeep.merge hollow anonymous = (cleared, .ok true) :=
    Prod.ext rfl (by decide +kernel)
  have hmerged : twoDeep.Gives anonymous cleared :=
    .merged hmade.possible (hread.valid .portable) hmerge
  have hnone : cleared.principal = none := by decide +kernel
  have hkind : Codec.portable.writes cleared.kind = true := by decide +kernel
  obtain ⟨hprincipal, hkeys, hkept⟩ := principal_of_payload builtIn_twoDeep hmerged
  have hempty : ¬NamesEmpty anonymous := by
    rw [← hprincipal, hnone]
    exact nofun
  have hdistinct : Distinct (principalText "" :: textsOf cleared []) := by
    rw [textsOf, hnone]
    simp [Distinct]
  exact ⟨hread, (principal_of_payload .portable hread).1.1 rfl, hmerged,
    (hkeys [] hdistinct).not.2 hempty, hkind, hkept hempty .portable .portable hkind⟩

/-- An empty principal can be read and found under its key, and the other codec loses it. -/
theorem empty_principal_can_be_read : BuiltIn .portable ∧ BuiltIn .binary ∧
    ∃ s, Codec.portable.decode nameless = .ok s ∧ s.principal = some "" ∧
      ofPrincipal "" ∈ ofSession s [] ∧ Codec.binary.writes s.kind = true ∧
      ∃ payload t, (Codec.binary.encodeFull s).2 = .ok payload ∧
        Codec.binary.decode payload = .ok t ∧ t.principal = none := by
  refine ⟨.portable, .binary, hollow, decode_nameless, rfl, List.mem_cons_self, by decide, ?_⟩
  have hok : (Binary.full hollow).toOption.isSome = true := by decide +kernel
  cases hfull : Binary.full hollow with
  | error e =>
    rw [hfull] at hok
    cases hok
  | ok payload =>
    have hread : Binary.read payload = .ok (some hollow.named.echoed.reloaded) :=
      (Binary.read_full_iff_depth wellFormed_hollow (fun _ _ hv => absurd hv value_hollow) hfull).2
        ⟨fun _ _ hv => absurd hv value_hollow, rfl⟩
    exact ⟨payload, _, (Binary.encodeFull_snd _).trans hfull, decode_eq_ok.2 hread, by decide⟩

end Codec

end Sessions
