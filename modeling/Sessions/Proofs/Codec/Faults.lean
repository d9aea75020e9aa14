import Sessions.Proofs.Codec.Legibility

/-!
# What codecs fail with

The codecs of this library may be given any bytes. What comes out is a record that keeps the rules
of records, or a fault of serialization: no check of another layer, such as the one for blank ids,
shows through with the category that it has there, and no arithmetic leaves the calendar. The same
holds of writing, which fails for fields that are too long and for kinds that no codec writes.
-/

namespace Sessions

/-! ## Headers and records -/

lemma Header.contained_read (payload : Bytes) : Contained (Header.read payload) := by
  refine (Wire.contained_takeInt32 _ payload).bind fun ⟨_, rest⟩ =>
    (Wire.contained_takeByte _ rest).bind fun ⟨marker, _⟩ => .bind ?_ fun _ => .ok _
  unfold Frame.ofMarker
  split
  · exact .ok _
  · split
    · exact .ok _
    · split
      · exact .ok _
      · exact .error rfl

namespace Session

lemma contained_checkInterval (interval : Duration) : Contained (checkInterval interval) := by
  unfold checkInterval
  split
  · exact .ok _
  · exact .error rfl

lemma contained_restore (id : Ident) (created accessed : Time) (maxIdle : Duration)
    (principal : Option String) (attributes : Attributes) (kind : Kind) :
    Contained (restore id created accessed maxIdle principal attributes kind) := by
  unfold restore
  split
  · exact .error rfl
  · exact (contained_checkInterval maxIdle).bind fun _ => .ok _

end Session

/-! ## The binary codec -/

namespace Binary

variable {s : Session} {e : Fault}

lemma tooLarge_of_putEntries {entries : List (String × Json)} (h : putEntries entries = .error e) :
    ∃ field, e = .tooLarge field := by
  induction entries with
  | nil => cases h
  | cons entry rest ih =>
    rcases bind_eq_error.1 h with hfirst | ⟨first, -, h⟩
    · rcases bind_eq_error.1 hfirst with hname | ⟨name, -, hfirst⟩
      · exact ⟨_, Wire.eq_tooLarge_of_putBytes hname⟩
      · rcases bind_eq_error.1 hfirst with hvalue | ⟨value, -, hok⟩
        · exact ⟨_, Wire.eq_tooLarge_of_putBytes hvalue⟩
        · cases hok
    · rcases bind_eq_error.1 h with hothers | ⟨others, -, hok⟩
      · exact ih hothers
      · cases hok

/-- **Only a field that is too long keeps a record from being written.** -/
theorem tooLarge_of_full (h : full s = .error e) : ∃ field, e = .tooLarge field := by
  rcases bind_eq_error.1 h with hid | ⟨id, -, h⟩
  · exact ⟨_, Wire.eq_tooLarge_of_putBytes hid⟩
  rcases bind_eq_error.1 h with hprincipal | ⟨principal, -, h⟩
  · exact ⟨_, Wire.eq_tooLarge_of_putBytes hprincipal⟩
  rcases bind_eq_error.1 h with hblob | ⟨blob, -, h⟩
  · rcases bind_eq_error.1 hblob with hcount | ⟨count, -, hblob⟩
    · exact ⟨_, Wire.eq_tooLarge_of_putLength hcount⟩
    · rcases bind_eq_error.1 hblob with hentries | ⟨entries, -, hok⟩
      · exact tooLarge_of_putEntries hentries
      · cases hok
  rcases bind_eq_error.1 h with hattributes | ⟨attributes, -, hok⟩
  · exact ⟨_, Wire.eq_tooLarge_of_putBytes hattributes⟩
  · cases hok

variable (input : Bytes)

/-- A blank id is the payload's fault here, not the caller's. -/
lemma contained_takeId : Contained (takeId input) := by
  refine (Wire.contained_takeText _ input).bind fun ⟨text, rest⟩ => ?_
  dsimp only
  split
  · exact .ok _
  · exact .error rfl

lemma contained_takeTime (field : String) : Contained (takeTime field input) := by
  refine (Wire.contained_takeInt64 field input).bind fun ⟨millis, rest⟩ => ?_
  dsimp only
  split
  · exact .ok _
  · exact .error rfl

lemma contained_takeInterval : Contained (takeInterval input) :=
  (Wire.contained_takeInt64 _ input).bind fun _ => .ok _

lemma contained_takePrincipal : Contained (takePrincipal input) := by
  refine (Wire.contained_takeLength _ input).bind fun ⟨count, rest⟩ => ?_
  dsimp only
  split
  · exact .ok _
  · exact (Wire.contained_takeCounted _ rest count).bind fun ⟨bytes, _⟩ =>
      (Wire.contained_asText _ bytes).bind fun _ => .ok _

lemma contained_takeValue : Contained (takeValue input) := by
  refine (Wire.contained_takeBytes _ input).bind fun ⟨bytes, rest⟩ => ?_
  dsimp only
  split
  · exact .ok _
  · exact .error rfl

/-- The count comes from the input; a round that finds no entry ends the loop with a fault. -/
lemma contained_takeEntries (count : Nat) (a : Attributes) :
    Contained (takeEntries count a input) := by
  induction count generalizing a input with
  | zero => exact .ok a
  | succ count ih =>
    rw [takeEntries]
    exact (Wire.contained_takeText _ input).bind fun name =>
      (contained_takeValue name.2).bind fun value => ih value.2 _

lemma contained_takeRecord (kind : Kind) : Contained (takeRecord kind input) :=
  (contained_takeId input).bind fun ⟨_, r₁⟩ =>
  (contained_takeTime r₁ _).bind fun ⟨_, r₂⟩ =>
  (contained_takeTime r₂ _).bind fun ⟨_, r₃⟩ =>
  (contained_takeInterval r₃).bind fun ⟨_, r₄⟩ =>
  (contained_takePrincipal r₄).bind fun ⟨_, r₅⟩ =>
  (Wire.contained_takeBytes _ r₅).bind fun ⟨blob, _⟩ =>
  (Wire.contained_takeLength _ blob).bind fun ⟨count, entries⟩ =>
  (contained_takeEntries entries count default).bind fun attributes =>
    Session.contained_restore _ _ _ _ _ attributes kind

lemma contained_read (payload : Bytes) : Contained (read payload) := by
  refine (Header.contained_read payload).bind fun header => ?_
  split
  · split
    · exact (contained_takeRecord _ _).bind fun _ => .ok _
    · exact .error rfl
  · exact .ok _

lemma contained_takePreamble (base : Ident) : Contained (takePreamble base input) := by
  refine (contained_takeId input).bind fun ⟨_, r₁⟩ => ?_
  dsimp only
  split
  · exact .error rfl
  · exact (contained_takeTime r₁ _).bind fun ⟨_, r₂⟩ =>
      (contained_takeInterval r₂).bind fun ⟨maxIdle, r₃⟩ =>
      (contained_takePrincipal r₃).bind fun _ =>
      (Session.contained_checkInterval maxIdle).bind fun _ => .ok _

lemma contained_takeChange (a : Attributes) : Contained (takeChange a input) := by
  refine (Wire.contained_takeText _ input).bind fun ⟨_, r₁⟩ =>
    (Wire.contained_takeByte _ r₁).bind fun ⟨_, r₂⟩ => ?_
  dsimp only
  split
  · exact (contained_takeValue r₂).bind fun _ => .ok _
  · split
    · exact .ok _
    · exact .error rfl

lemma contained_takeChanges (count : Nat) (a : Attributes) :
    Contained (takeChanges count a input).2 := by
  induction count generalizing a input with
  | zero => exact .ok ()
  | succ count ih =>
    have hchange := contained_takeChange input a
    rw [takeChanges]
    split
    next b rest _ => exact ih rest b
    next e he => exact .error (hchange e he)

lemma contained_merge (base : Session) (payload : Bytes) : Contained (merge base payload).2 := by
  have hheader := Header.contained_read payload
  unfold merge
  split
  next e he => exact .error (hheader e he)
  next header _ =>
    split
    · have hpreamble := contained_takePreamble (payload.drop Header.size) base.id
      split
      next e he => exact .error (hpreamble e he)
      next preamble input _ =>
        have hcount := Wire.contained_takeLength "change count" input
        dsimp only
        split
        next e he => exact .error (hcount e he)
        next count rest _ => exact (contained_takeChanges rest count _).map _
    · exact .ok false

end Binary

/-! ## The portable codec -/

lemma Document.contained_time (field : String) (millis : Int64) :
    Contained (time field millis) := by
  unfold time
  split
  · exact .ok _
  · exact .error rfl

lemma Document.contained_toSession (d : Document) : Contained d.toSession := by
  unfold toSession
  cases Ident.parse d.id with
  | error e => exact .error rfl
  | ok id =>
    exact (contained_time _ d.created).bind fun created =>
      (contained_time _ d.accessed).bind fun accessed =>
        Session.contained_restore id created accessed _ _ _ _

lemma Portable.contained_read (payload : Bytes) : Contained (read payload) := by
  refine .bind ?_ fun found => ?_
  · refine (Header.contained_read payload).bind fun header => ?_
    split
    · split
      · exact .error rfl
      · split
        · exact .ok _
        · exact .error rfl
    · exact .ok _
  · cases found with
    | some d => exact d.contained_toSession.bind fun _ => .ok _
    | none => exact .ok _

/-! ## All codecs -/

namespace Codec

variable {c : Codec}

lemma payloadOf_eq_error_iff {w : Writing} {e : Fault} :
    (payloadOf w).2 = .error e ↔
      w.outcome = .error e ∨ w.outcome = .ok false ∧ e = .unwritableKind w.session.kind := by
  obtain ⟨s, sink, outcome⟩ := w
  rcases outcome with e' | (_ | _) <;> simp [payloadOf, eq_comm]

lemma BuiltIn.full_of_writeFull (hc : BuiltIn c) {s : Session} {sink : Bytes} {e : Fault}
    (h : (c.writeFull s sink).outcome = .error e) : Binary.full s = .error e := by
  induction hc with
  | binary =>
    change (Binary.append s sink (Binary.full s)).outcome = _ at h
    cases hfull : Binary.full s with
    | ok payload =>
      rw [hfull] at h
      cases h
    | error e' =>
      rw [hfull] at h
      cases h
      rfl
  | portable =>
    change (Portable.writeFull s sink).outcome = _ at h
    unfold Portable.writeFull at h
    split at h <;> cases h
  | @composed members c hmem hc ih =>
    rcases compose_eq_some hc with rfl | rfl
    · exact ih _ (List.mem_singleton_self _) h
    · change (writeFirst (·.writeFull) members s sink).outcome = _ at h
      rw [writeFirst_eq_firstAlone fun m hm => (hmem m hm).tidy.writeFull s sink, firstAlone] at h
      split at h
      next m hfirst => exact ih m (List.mem_of_find?_eq_some hfirst) h
      next => cases h

/-- **Only its kind, or a field that is too long, keeps a record from being written.** -/
theorem BuiltIn.encodeFull_eq_error (hc : BuiltIn c) {s : Session} {e : Fault}
    (h : (c.encodeFull s).2 = .error e) :
    (∃ field, e = .tooLarge field) ∨
      (c.writeFull s []).outcome = .ok false ∧ ∃ kind, e = .unwritableKind kind := by
  rcases payloadOf_eq_error_iff.1 h with hfault | ⟨hdeclined, hkind⟩
  · exact .inl (Binary.tooLarge_of_full (hc.full_of_writeFull hfault))
  · exact .inr ⟨hdeclined, _, hkind⟩

lemma BuiltIn.contained_encodeFull (hc : BuiltIn c) (s : Session) :
    Contained (c.encodeFull s).2 := by
  intro e he
  rcases hc.encodeFull_eq_error he with ⟨field, rfl⟩ | ⟨-, kind, rfl⟩ <;> rfl

lemma BuiltIn.contained_read (hc : BuiltIn c) (payload : Bytes) : Contained (c.read payload) := by
  rcases hc.read_cases payload with hread | hread | hread <;> rw [hread]
  · exact .ok none
  · exact Binary.contained_read payload
  · exact Portable.contained_read payload

lemma BuiltIn.contained_decode (hc : BuiltIn c) (payload : Bytes) :
    Contained (c.decode payload) := by
  refine (hc.contained_read payload).bind fun found => ?_
  cases found with
  | some s => exact .ok s
  | none => exact (Header.contained_read payload).bind fun _ => .error rfl

lemma BuiltIn.contained_merge (hc : BuiltIn c) (base : Session) (payload : Bytes) :
    Contained (c.merge base payload).2 := by
  induction hc generalizing base with
  | binary => exact Binary.contained_merge base payload
  | portable => exact .ok false
  | @composed members c hmem hc ih =>
    rcases compose_eq_some hc with rfl | rfl
    · exact ih _ (List.mem_singleton_self _) base
    · change Contained (mergeFirst members base payload).2
      clear hc hmem
      induction members generalizing base with
      | nil => exact .ok false
      | cons m rest ihrest =>
        have hm := ih m List.mem_cons_self base
        rw [mergeFirst]
        split
        next s _ => exact ihrest (fun n hn => ih n (List.mem_cons_of_mem m hn)) s
        next => exact hm

/-- **Any bytes are safe to read and to merge.** A codec of this library that is given a payload of
which nothing is known either fails with a fault of serialization or reads a well formed record
that is stored under its only id and has nothing to save; and merging the payload into a well
formed record either fails so, or declines it, or leaves a well formed record. -/
theorem decode_merge_untrusted (hc : BuiltIn c) (payload : Bytes) :
    (∀ e, c.decode payload = .error e → e.category = .serialization) ∧
    (∀ s, c.decode payload = .ok s →
      s.WellFormed ∧ s.phase = .persisted ∧ s.hasDelta = false ∧ s.previous = none) ∧
    ∀ base : Session, base.WellFormed →
      (∀ e, (c.merge base payload).2 = .error e → e.category = .serialization) ∧
      (c.merge base payload).1.WellFormed := by
  refine ⟨hc.contained_decode payload, fun s hs => ?_, fun base hbase => ?_⟩
  · obtain ⟨hfresh, -⟩ := hc.fresh_read (decode_eq_ok.1 hs)
    exact ⟨hfresh.wellFormed, hfresh.phase, hfresh.hasDelta, hfresh.previous⟩
  · exact ⟨hc.contained_merge base payload, (hc.merged base payload).wellFormed hbase⟩

end Codec

namespace Sample

/-- A delta for `pioneer` that announces two changes and brings one. -/
def torn : Bytes :=
  Header.write ⟨Binary.tag, .delta⟩ ++ Wire.ofNat 4 1 ++ Utf8.encode "y" ++ Wire.putInt64 (-500)
    ++ Wire.putInt64 60 ++ Wire.ofNat 4 0 ++ Wire.ofNat 4 2 ++ Wire.ofNat 4 4 ++ Utf8.encode "step"
    ++ [Binary.removedMarker]

end Sample

namespace Codec

open Sample

/-- The change that the torn delta brings stays merged. -/
theorem decode_merge_torn :
    twoDeep.decode torn = .error .baselessDelta ∧
      Fault.baselessDelta.category = .serialization ∧
      (twoDeep.merge pioneer torn).2 = .error (.shortField "attribute name") ∧
      (Fault.shortField "attribute name").category = .serialization ∧
      (twoDeep.merge pioneer torn).1.WellFormed ∧
      (twoDeep.merge pioneer torn).1.attributes.value? "step" = none := by
  have hpioneer : pioneer.WellFormed :=
    (((Session.Built.create (by decide) _ _).withMaxIdle _).rotate (by decide)).edit _ _
      |>.made.wellFormed.1
  have hdecode : twoDeep.decode torn = .error .baselessDelta := rfl
  have hmerge : (twoDeep.merge pioneer torn).2 = .error (.shortField "attribute name") := by
    decide +kernel
  obtain ⟨hcontained, -, hmerged⟩ := decode_merge_untrusted builtIn_twoDeep torn
  obtain ⟨herror, hwell⟩ := hmerged pioneer hpioneer
  exact ⟨hdecode, hcontained _ hdecode, hmerge, herror _ hmerge, hwell, by decide +kernel⟩

end Codec

end Sessions
