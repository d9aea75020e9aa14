import Sessions.Proofs.Codec.Legibility

/-!
# Records that are merged and written again

A store that merges a delta reads a payload, applies the delta to the record and writes the record
whole. Whatever bytes the payload and the delta are, the record that was read (`Session.Loaded`) and
the one that was merged have values that can be written and read again. So what was written can be
read, and it is the merged record but for the handles and for what its values come back as
(`Session.Alike`). That is asked of a codec as `Codec.Restores`.
-/

namespace Sessions

/-- Attributes that a payload has brought: no change is noted, and all values can be written and
read again. -/
structure Attributes.Loaded (a : Attributes) : Prop where
  values : ∀ name value, a.value? name = some value → value.Valid ∧ value.depth ≤ Json.maxDepth
  log : a.log = .clean
  rule : a.rule = .identity

namespace Attributes

variable {a : Attributes}

lemma loaded_default : (default : Attributes).Loaded where
  values _ _ hv := nomatch hv
  log := rfl
  rule := rfl

lemma value?_load (a : Attributes) (name other : String) (value : Json) :
    (a.load name value).value? other = if name = other then some value else a.value? other :=
  value?_applyChange a name other (some value)

lemma value?_unload (a : Attributes) (name other : String) :
    (a.unload name).value? other = if name = other then none else a.value? other :=
  value?_applyChange a name other none

lemma Loaded.load (h : a.Loaded) {value : Json} (hvalue : value.Valid ∧ value.depth ≤ Json.maxDepth)
    (name : String) : (a.load name value).Loaded := by
  refine ⟨fun other found hfound => ?_, h.log, h.rule⟩
  rw [value?_load] at hfound
  split at hfound
  · exact Option.some.inj hfound ▸ hvalue
  · exact h.values other found hfound

lemma Loaded.unload (h : a.Loaded) (name : String) : (a.unload name).Loaded := by
  refine ⟨fun other found hfound => ?_, h.log, h.rule⟩
  rw [value?_unload] at hfound
  split at hfound
  · cases hfound
  · exact h.values other found hfound

lemma rule_ofEntries (entries : List (String × Json)) : (ofEntries entries).rule = .identity := by
  have hfold : ∀ a : Attributes, (entries.foldl (fun a e => a.load e.1 e.2) a).rule = a.rule := by
    induction entries with
    | nil => exact fun a => rfl
    | cons e rest ih => exact fun a => ih (a.load e.1 e.2)
  exact hfold default

end Attributes

namespace Session

/-- A record that was read from a binary payload, and perhaps brought up to date by deltas. -/
structure Loaded (s : Session) : Prop where
  fresh : s.Fresh
  principal : s.principal ≠ some ""
  attributes : s.attributes.Loaded
  interval : .ofSeconds s.maxIdle.wholeSeconds = s.maxIdle

/-- Two records are the same but for the values of their attributes and the handles of these. -/
structure Alike (s t : Session) : Prop where
  id : t.id = s.id
  previous : t.previous = s.previous
  created : t.created = s.created
  accessed : t.accessed = s.accessed
  maxIdle : t.maxIdle = s.maxIdle
  principal : t.principal = s.principal
  kind : t.kind = s.kind
  phase : t.phase = s.phase
  dirty : t.dirty = s.dirty
  log : t.attributes.log = s.attributes.log
  rule : t.attributes.rule = s.attributes.rule

variable {s : Session}

lemma Loaded.storable (h : s.Loaded) : s.Storable Json.maxDepth :=
  ⟨h.fresh.wellFormed, h.principal, h.attributes.values⟩

lemma Loaded.alike (h : s.Loaded) : s.Alike s.echoed.reloaded where
  id := rfl
  previous := h.fresh.previous.symm
  created := rfl
  accessed := rfl
  maxIdle := h.interval
  principal := rfl
  kind := rfl
  phase := h.fresh.phase.symm
  dirty := h.fresh.dirty.symm
  log := (Attributes.log_ofEntries _).trans h.attributes.log.symm
  rule := (Attributes.rule_ofEntries _).trans h.attributes.rule.symm

lemma value?_reloaded_echoed (s : Session) (name : String) :
    s.echoed.reloaded.attributes.value? name = (s.attributes.value? name).map Json.echo := by
  rw [(agrees_reloaded s.echoed).values, echoed, Attributes.value?_echoed]

end Session

/-! ## The binary codec -/

namespace Binary

variable {input rest payload : Bytes} {a b : Attributes} {s t : Session}

lemma takeValue_ok {value : Json} (h : takeValue input = .ok (value, rest)) :
    value.Valid ∧ value.depth ≤ Json.maxDepth := by
  obtain ⟨⟨bytes, tl⟩, -, h⟩ := bind_eq_ok.1 h
  simp only at h
  split at h
  next found hread =>
    obtain ⟨rfl, -⟩ := Prod.mk.inj (Except.ok.inj h)
    exact Json.valid_of_read hread
  next => cases h

lemma takeInterval_ok {interval : Duration} (h : takeInterval input = .ok (interval, rest)) :
    .ofSeconds interval.wholeSeconds = interval := by
  obtain ⟨⟨seconds, tl⟩, -, h⟩ := bind_eq_ok.1 h
  obtain ⟨rfl, -⟩ := Prod.mk.inj (Except.ok.inj h)
  rw [Duration.wholeSeconds_ofSeconds]

lemma loaded_takeEntries {count : Nat} (ha : a.Loaded) (h : takeEntries count a input = .ok b) :
    b.Loaded := by
  induction count generalizing a input with
  | zero => exact Except.ok.inj h ▸ ha
  | succ count ih =>
    rw [takeEntries] at h
    obtain ⟨⟨name, tl⟩, -, h⟩ := bind_eq_ok.1 h
    obtain ⟨⟨value, tl'⟩, hvalue, h⟩ := bind_eq_ok.1 h
    exact ih (ha.load (takeValue_ok hvalue) name) h

lemma loaded_takeChange (ha : a.Loaded) (h : takeChange a input = .ok (b, rest)) : b.Loaded := by
  obtain ⟨⟨name, tl⟩, -, h⟩ := bind_eq_ok.1 h
  obtain ⟨⟨marker, tl'⟩, -, h⟩ := bind_eq_ok.1 h
  simp only at h
  split at h
  · obtain ⟨⟨value, tl''⟩, hvalue, h⟩ := bind_eq_ok.1 h
    obtain ⟨rfl, -⟩ := Prod.mk.inj (Except.ok.inj h)
    exact ha.load (takeValue_ok hvalue) name
  · split at h
    · obtain ⟨rfl, -⟩ := Prod.mk.inj (Except.ok.inj h)
      exact ha.unload name
    · cases h

lemma loaded_takeChanges (count : Nat) (ha : a.Loaded) (input : Bytes) :
    (takeChanges count a input).1.Loaded := by
  induction count generalizing a input with
  | zero => exact ha
  | succ count ih =>
    rw [takeChanges]
    cases hchange : takeChange a input with
    | ok found => exact ih (loaded_takeChange ha hchange) found.2
    | error e => exact ha

/-- **What is read can be written and read again.** -/
theorem loaded_read (h : read payload = .ok (some t)) : t.Loaded := by
  obtain ⟨hfresh, hprincipal⟩ := fresh_read h
  suffices hparts : t.attributes.Loaded ∧ Duration.ofSeconds t.maxIdle.wholeSeconds = t.maxIdle from
    ⟨hfresh, hprincipal, hparts.1, hparts.2⟩
  obtain ⟨header, -, h⟩ := bind_eq_ok.1 h
  split at h
  · split at h
    next kind _ =>
      obtain ⟨u, hrecord, h⟩ := bind_eq_ok.1 h
      obtain rfl := Option.some.inj (Except.ok.inj h)
      obtain ⟨⟨id, r₁⟩, -, hrecord⟩ := bind_eq_ok.1 hrecord
      obtain ⟨⟨created, r₂⟩, -, hrecord⟩ := bind_eq_ok.1 hrecord
      obtain ⟨⟨accessed, r₃⟩, -, hrecord⟩ := bind_eq_ok.1 hrecord
      obtain ⟨⟨maxIdle, r₄⟩, hinterval, hrecord⟩ := bind_eq_ok.1 hrecord
      obtain ⟨⟨principal, r₅⟩, -, hrecord⟩ := bind_eq_ok.1 hrecord
      obtain ⟨⟨blob, r₆⟩, -, hrecord⟩ := bind_eq_ok.1 hrecord
      obtain ⟨⟨count, entries⟩, -, hrecord⟩ := bind_eq_ok.1 hrecord
      obtain ⟨attributes, hattributes, hrecord⟩ := bind_eq_ok.1 hrecord
      simp only [Session.restore] at hrecord
      split at hrecord
      · cases hrecord
      · obtain ⟨-, -, hrecord⟩ := bind_eq_ok.1 hrecord
        obtain rfl := Except.ok.inj hrecord
        exact ⟨loaded_takeEntries Attributes.loaded_default hattributes, takeInterval_ok hinterval⟩
    next => cases h
  · cases h

lemma takePreamble_interval {id : Ident} {preamble : Preamble}
    (h : takePreamble id input = .ok (preamble, rest)) :
    Duration.ofSeconds preamble.maxIdle.wholeSeconds = preamble.maxIdle := by
  obtain ⟨⟨other, r₁⟩, -, h⟩ := bind_eq_ok.1 h
  simp only at h
  split at h
  · cases h
  · obtain ⟨⟨accessed, r₂⟩, -, h⟩ := bind_eq_ok.1 h
    obtain ⟨⟨maxIdle, r₃⟩, hinterval, h⟩ := bind_eq_ok.1 h
    obtain ⟨⟨principal, r₄⟩, -, h⟩ := bind_eq_ok.1 h
    obtain ⟨-, -, h⟩ := bind_eq_ok.1 h
    obtain ⟨rfl, -⟩ := Prod.mk.inj (Except.ok.inj h)
    exact takeInterval_ok hinterval

/-- **What a delta makes of it, too**, whatever bytes the delta has. -/
theorem loaded_merge (hs : s.Loaded) (payload : Bytes) : (merge s payload).1.Loaded := by
  obtain ⟨-, -, -, hwellFormed, hprincipal⟩ := merged_merge s payload
  have hparts : (merge s payload).1.attributes.Loaded ∧
      Duration.ofSeconds (merge s payload).1.maxIdle.wholeSeconds = (merge s payload).1.maxIdle ∧
      (merge s payload).1.phase = s.phase ∧ (merge s payload).1.previous = s.previous ∧
      (merge s payload).1.dirty = s.dirty := by
    unfold merge
    split
    · exact ⟨hs.attributes, hs.interval, rfl, rfl, rfl⟩
    · split
      · split
        · exact ⟨hs.attributes, hs.interval, rfl, rfl, rfl⟩
        next preamble input hpreamble =>
          have hinterval := takePreamble_interval hpreamble
          split
          · exact ⟨hs.attributes, hinterval, rfl, rfl, rfl⟩
          next count input' _ =>
            exact ⟨loaded_takeChanges count hs.attributes input', hinterval, rfl, rfl, rfl⟩
      · exact ⟨hs.attributes, hs.interval, rfl, rfl, rfl⟩
  obtain ⟨hattributes, hinterval, hphase, hprevious, hdirty⟩ := hparts
  exact ⟨⟨hwellFormed hs.fresh.wellFormed, hphase.trans hs.fresh.phase,
    hprevious.trans hs.fresh.previous, hdirty.trans hs.fresh.dirty, hattributes.log⟩,
    hprincipal hs.principal, hattributes, hinterval⟩

end Binary

/-! ## All codecs -/

namespace Codec

variable {c : Codec} {s t base merged : Session} {stored delta payload : Bytes}

lemma BuiltIn.binary_of_read (hc : BuiltIn c) (hkind : t.kind = .deltaCapable)
    (h : c.read payload = .ok (some t)) : Binary.read payload = .ok (some t) := by
  rcases hc.read_of_read h with hbinary | ⟨d, -, hdocument⟩
  · exact hbinary
  · rw [(Document.fresh_toSession hdocument).2] at hkind
    cases hkind

lemma merge_of_declined {s' : Session} (h : Binary.merge s delta = (s', .ok false)) : s' = s := by
  cases hheader : Header.read delta with
  | error e =>
    rw [Binary.merge, hheader] at h
    cases h
  | ok header =>
    by_cases hmine : Binary.accepts header = true ∧ header.isDelta = true
    · obtain ⟨tag, frame⟩ := header
      obtain ⟨htag, hframe⟩ := hmine
      obtain rfl : tag = Binary.tag := by simpa [Binary.accepts] using htag
      obtain rfl : frame = .delta := by simpa [Header.isDelta] using hframe
      exact absurd h (binary_merge_ne_false hheader s')
    · simp only [Binary.merge, hheader, hmine, if_false] at h
      exact (Prod.mk.inj h).1.symm

/-- Whichever member of a composition understands a delta, it does what the binary codec does, and
the members that decline it leave the record as it is. -/
lemma BuiltIn.merge_cases (hc : BuiltIn c) (base : Session) (delta : Bytes) :
    c.merge base delta = Binary.merge base delta ∨ c.merge base delta = (base, .ok false) := by
  induction hc with
  | binary => exact .inl rfl
  | portable => exact .inr rfl
  | @composed members c hmem hc ih =>
    rcases compose_eq_some hc with rfl | rfl
    · exact ih c (List.mem_singleton_self c)
    · change mergeFirst members base delta = _ ∨ mergeFirst members base delta = _
      clear hc hmem
      induction members with
      | nil => exact .inr rfl
      | cons m rest ihrest =>
        have hrest := ihrest fun n hn => ih n (List.mem_cons_of_mem m hn)
        rw [mergeFirst]
        split
        next s hdeclined =>
          have hsame : s = base := by
            rcases ih m List.mem_cons_self with hm | hm
            · exact merge_of_declined (hm.symm.trans hdeclined)
            · exact (Prod.mk.inj (hdeclined.symm.trans hm)).1
          rw [hsame]
          exact hrest
        next => exact ih m List.mem_cons_self

/-- **What is asked of a codec with whose records deltas are merged**: a delta-capable record that
it has read and merged, and then written, is read as what it was, each value as it comes back from
its text at worst. -/
def Restores (c : Codec) : Prop :=
  ∀ {stored delta payload : Bytes} {base merged : Session}, c.decode stored = .ok base →
    base.kind = .deltaCapable → c.merge base delta = (merged, .ok true) →
    (c.encodeFull merged).2 = .ok payload →
      ∃ t, c.ReadsAs payload t ∧ merged.Alike t ∧
        ((∀ name value, merged.attributes.value? name = some value → value.ReadsBack) →
          ∀ name, t.attributes.value? name = merged.attributes.value? name)

/-- **All codecs of this library do that.** -/
theorem BuiltIn.restores (hc : BuiltIn c) : c.Restores := by
  intro stored delta payload base merged hbase hkind hmerge hwritten
  have hloaded : merged.Loaded := by
    have hread := Binary.loaded_read (hc.binary_of_read hkind (decode_eq_ok.1 hbase))
    have hmerged := Binary.loaded_merge hread delta
    rcases hc.merge_cases base delta with heq | heq
    · rwa [← heq, hmerge] at hmerged
    · rw [hmerge] at heq
      cases heq
  have hsame : merged.kind = .deltaCapable := by
    have hmerged := hc.merged base delta
    rw [hmerge] at hmerged
    exact hmerged.kind.trans hkind
  have hback := hc.rereads_deltaCapable.whole hloaded.storable hsame (Prod.ext rfl hwritten)
  refine ⟨_, hback, hloaded.alike, fun hvalues name => ?_⟩
  rw [Session.value?_reloaded_echoed]
  cases hvalue : merged.attributes.value? name with
  | none => rfl
  | some value => exact congrArg some (hvalues name value hvalue).echo

end Codec

end Sessions
