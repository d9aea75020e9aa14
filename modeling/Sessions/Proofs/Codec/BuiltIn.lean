import Sessions.Proofs.Codec.Binary
import Sessions.Proofs.Codec.Chain
import Sessions.Proofs.Codec.Portable

/-!
# The codecs of this library

However the binary and the portable codec are composed, records come back from the payloads that
the composition writes. Delta-capable records are written and read by the binary codec, wherever it
stands; plain records by the first member, whichever that is.
-/

namespace Sessions.Codec

variable {c : Codec} {members : List Codec}

/-! ## Kinds of a chain -/

lemma mem_unionKinds {kind : Kind} :
    kind ∈ unionKinds members ↔ ∃ m ∈ members, kind ∈ m.kinds := by
  rw [unionKinds_eq, mem_foldl_addKind]
  simp

lemma writes_chain {kind : Kind} :
    (chain members).writes kind = true ↔ ∃ m ∈ members, m.writes kind = true := by
  simp only [writes, chain, List.contains_iff_mem, mem_unionKinds]

/-! ## Compositions of portable codecs -/

/-- A codec that does what the portable codec does. -/
structure Portably (c : Codec) : Prop where
  write : c.write = Portable.writeFull
  writeFull : c.writeFull = Portable.writeFull
  read : c.read = Portable.read
  merge : ∀ s payload, c.merge s payload = (s, .ok false)

lemma writeFirst_portably {write : Codec → Session → Bytes → Writing}
    (h : ∀ m ∈ members, write m = Portable.writeFull) (hne : members ≠ []) :
    writeFirst write members = Portable.writeFull := by
  funext s sink
  have hretreats : ∀ m ∈ members, Retreats s sink (write m s sink) := fun m hm => by
    rw [h m hm]
    exact retreats_portable s sink
  rw [writeFirst_eq_firstAlone hretreats, firstAlone]
  split
  next m hfirst => rw [h m (List.mem_of_find?_eq_some hfirst)]
  next hnone =>
    obtain ⟨m, hm⟩ := List.exists_mem_of_ne_nil members hne
    have hdeclined := List.find?_eq_none.1 hnone m hm
    rw [h m hm, Portable.writeFull] at hdeclined
    rw [Portable.writeFull]
    split
    next hkind => simp [hkind, Writing.declined] at hdeclined
    next => rfl

lemma portably_chain (h : ∀ m ∈ members, Portably m) (hne : members ≠ []) :
    Portably (chain members) where
  write := writeFirst_portably (fun m hm => (h m hm).write) hne
  writeFull := writeFirst_portably (fun m hm => (h m hm).writeFull) hne
  read := by
    funext payload
    change readFirst members payload = _
    induction members with
    | nil => exact absurd rfl hne
    | cons m rest ih =>
      simp only [readFirst, (h m List.mem_cons_self).read]
      split
      next hnone =>
        cases rest with
        | nil => rw [hnone]; rfl
        | cons n more =>
          exact ih (fun x hx => h x (List.mem_cons_of_mem m hx)) (List.cons_ne_nil n more)
      next => rfl
  merge s payload := by
    change mergeFirst members s payload = _
    clear hne
    induction members with
    | nil => rfl
    | cons m rest ih =>
      simp only [mergeFirst, (h m List.mem_cons_self).merge]
      exact ih fun x hx => h x (List.mem_cons_of_mem m hx)

/-! ## Compositions with a binary codec -/

/-- A codec that does what the binary codec does, with delta-capable records and with payloads that
the binary codec has written. -/
structure Binarily (c : Codec) : Prop where
  write : ∀ s sink, s.kind = .deltaCapable → c.write s sink = Binary.write s sink
  writeFull : ∀ s sink, s.kind = .deltaCapable → c.writeFull s sink = Binary.writeFull s sink
  read : ∀ payload frame, Header.read payload = .ok ⟨Binary.tag, frame⟩ →
    c.read payload = Binary.read payload
  merge : ∀ s payload, Header.read payload = .ok ⟨Binary.tag, .delta⟩ →
    c.merge s payload = Binary.merge s payload

lemma writeFirst_binarily {write : Codec → Session → Bytes → Writing}
    {target : Session → Bytes → Writing} {s : Session} (hkind : s.kind = .deltaCapable)
    (htarget : ∀ sink, (target s sink).outcome ≠ .ok false)
    (h : ∀ m ∈ members, write m = Portable.writeFull ∨ ∀ sink, write m s sink = target s sink)
    (hsome : ∃ m ∈ members, ∀ sink, write m s sink = target s sink) (sink : Bytes) :
    writeFirst write members s sink = target s sink := by
  have hportable : (Portable.writeFull s sink).declined = true := by
    simp [Portable.writeFull, hkind, Writing.declined]
  have hretreats : ∀ m ∈ members, Retreats s sink (write m s sink) := fun m hm => by
    rcases h m hm with hport | hbin
    · exact hport ▸ retreats_portable s sink
    · exact hbin sink ▸ retreats_of_ne (htarget sink)
  rw [writeFirst_eq_firstAlone hretreats, firstAlone]
  split
  next m hfirst =>
    rcases h m (List.mem_of_find?_eq_some hfirst) with hport | hbin
    · have htaken := List.find?_some hfirst
      simp [hport, hportable] at htaken
    · exact hbin sink
  next hnone =>
    obtain ⟨m, hm, hbin⟩ := hsome
    have hdeclined := List.find?_eq_none.1 hnone m hm
    simp [hbin sink, Writing.declined_eq_false (htarget sink)] at hdeclined

lemma readDocument_of_binary {payload : Bytes} {frame : Frame}
    (h : Header.read payload = .ok ⟨Binary.tag, frame⟩) :
    Portable.readDocument payload = .ok none := by
  have haccepts : ¬Portable.accepts ⟨Binary.tag, frame⟩ = true := by
    simp only [Portable.accepts, decide_eq_true_eq]
    decide
  rw [Portable.readDocument, h, ok_bind, if_neg haccepts]

lemma portable_read_of_binary {payload : Bytes} {frame : Frame}
    (h : Header.read payload = .ok ⟨Binary.tag, frame⟩) : Portable.read payload = .ok none := by
  rw [Portable.read, readDocument_of_binary h, ok_bind]

lemma binary_read_ne_none {payload : Bytes} {frame : Frame}
    (h : Header.read payload = .ok ⟨Binary.tag, frame⟩) : Binary.read payload ≠ .ok none := by
  have haccepts : Binary.accepts ⟨Binary.tag, frame⟩ = true := by simp [Binary.accepts]
  rw [Binary.read, h, ok_bind, if_pos haccepts]
  cases frame with
  | full kind =>
    simp only
    intro hnone
    obtain ⟨s, -, hs⟩ := bind_eq_ok.1 hnone
    cases hs
  | delta => simp

lemma binary_merge_ne_false {s : Session} {payload : Bytes}
    (h : Header.read payload = .ok ⟨Binary.tag, .delta⟩) :
    ∀ t, Binary.merge s payload ≠ (t, .ok false) := by
  intro t ht
  have haccepts : Binary.accepts ⟨Binary.tag, .delta⟩ = true ∧
      Header.isDelta ⟨Binary.tag, .delta⟩ = true := by simp [Binary.accepts, Header.isDelta]
  simp only [Binary.merge, h, haccepts, and_self, if_true] at ht
  split at ht
  · cases ht
  · split at ht
    · cases ht
    · simp only [Prod.mk.injEq] at ht
      obtain ⟨-, ht⟩ := ht
      unfold Except.map at ht
      split at ht <;> cases ht

lemma readFirst_binarily (h : ∀ m ∈ members, Portably m ∨ Binarily m)
    (hsome : ∃ m ∈ members, Binarily m) {payload : Bytes} {frame : Frame}
    (hheader : Header.read payload = .ok ⟨Binary.tag, frame⟩) :
    readFirst members payload = Binary.read payload := by
  induction members with
  | nil =>
    obtain ⟨m, hm, -⟩ := hsome
    cases hm
  | cons m rest ih =>
    by_cases hb : Binarily m
    · simp only [readFirst, hb.read payload frame hheader]
      split
      next hnone => exact absurd hnone (binary_read_ne_none hheader)
      next => rfl
    · have hp := (h m List.mem_cons_self).resolve_right hb
      simp only [readFirst, hp.read, portable_read_of_binary hheader]
      obtain ⟨n, hn, hbin⟩ := hsome
      rcases List.mem_cons.1 hn with rfl | hn
      · exact absurd hbin hb
      · exact ih (fun k hk => h k (List.mem_cons_of_mem m hk)) ⟨n, hn, hbin⟩

lemma mergeFirst_binarily (h : ∀ m ∈ members, Portably m ∨ Binarily m)
    (hsome : ∃ m ∈ members, Binarily m) {payload : Bytes}
    (hheader : Header.read payload = .ok ⟨Binary.tag, .delta⟩) (s : Session) :
    mergeFirst members s payload = Binary.merge s payload := by
  induction members with
  | nil =>
    obtain ⟨m, hm, -⟩ := hsome
    cases hm
  | cons m rest ih =>
    by_cases hb : Binarily m
    · simp only [mergeFirst, hb.merge s payload hheader]
      split
      next t hfalse => exact absurd hfalse (binary_merge_ne_false hheader t)
      next => rfl
    · have hp := (h m List.mem_cons_self).resolve_right hb
      simp only [mergeFirst, hp.merge]
      obtain ⟨n, hn, hbin⟩ := hsome
      rcases List.mem_cons.1 hn with rfl | hn
      · exact absurd hbin hb
      · exact ih (fun k hk => h k (List.mem_cons_of_mem m hk)) ⟨n, hn, hbin⟩

lemma binarily_chain (h : ∀ m ∈ members, Portably m ∨ Binarily m)
    (hsome : ∃ m ∈ members, Binarily m) : Binarily (chain members) where
  write s sink hkind := by
    refine writeFirst_binarily hkind (outcome_write_ne s) (fun m hm => ?_) ?_ sink
    · exact (h m hm).imp (·.write) fun hb sink => hb.write s sink hkind
    · obtain ⟨m, hm, hb⟩ := hsome
      exact ⟨m, hm, fun sink => hb.write s sink hkind⟩
  writeFull s sink hkind := by
    refine writeFirst_binarily hkind (fun sink => outcome_append_ne s sink _) (fun m hm => ?_) ?_
      sink
    · exact (h m hm).imp (·.writeFull) fun hb sink => hb.writeFull s sink hkind
    · obtain ⟨m, hm, hb⟩ := hsome
      exact ⟨m, hm, fun sink => hb.writeFull s sink hkind⟩
  read _ _ hheader := readFirst_binarily h hsome hheader
  merge s _ hheader := mergeFirst_binarily h hsome hheader s

/-- **A composition acts as one of its two codecs**, told apart by the kinds that it writes. -/
theorem BuiltIn.acts (h : BuiltIn c) :
    if c.writes .deltaCapable then Binarily c else Portably c := by
  induction h with
  | binary =>
    exact (⟨fun _ _ _ => rfl, fun _ _ _ => rfl, fun _ _ _ => rfl, fun _ _ _ => rfl⟩ :
      Binarily .binary)
  | portable => exact (⟨rfl, rfl, rfl, fun _ _ => rfl⟩ : Portably .portable)
  | @composed members c hmem hc ih =>
    rcases compose_eq_some hc with rfl | rfl
    · exact ih c (List.mem_singleton_self c)
    · by_cases hw : (chain members).writes .deltaCapable = true
      · rw [if_pos hw]
        refine binarily_chain (fun m hm => ?_) ?_
        · have hm := ih m hm
          split at hm
          · exact .inr hm
          · exact .inl hm
        · obtain ⟨m, hm, hwrites⟩ := writes_chain.1 hw
          have hb := ih m hm
          rw [if_pos hwrites] at hb
          exact ⟨m, hm, hb⟩
      · rw [if_neg hw]
        refine portably_chain (fun m hm => ?_) ?_
        · have hp := ih m hm
          rwa [if_neg fun hwrites => hw (writes_chain.2 ⟨m, hm, hwrites⟩)] at hp
        · rintro rfl
          cases hc

/-! ## What is written is read back -/

/-- The kind of the records that a repository makes with a codec. -/
def recordKind (c : Codec) : Kind := if c.writes .deltaCapable then .deltaCapable else .plain

/-- How deep the values of those records may be nested. -/
def depthLimit (c : Codec) : Nat :=
  if c.writes .deltaCapable then Json.maxDepth else Portable.maxDepth

/-- A codec whose payloads give back what was written, for the records of one kind whose values are
nested no deeper than a limit. -/
structure Faithful (c : Codec) (kind : Kind) (limit : Nat) : Prop where
  lawful : c.Lawful
  whole : ∀ {s s' : Session} {payload}, s.Sound limit → s.kind = kind →
    c.encodeFull s = (s', .ok payload) → c.decode payload = .ok s.reloaded
  full : ∀ {s s' : Session} {payload header}, s.Sound limit → s.kind = kind →
    c.encode s = (s', .ok payload) → Header.read payload = .ok header → header.isDelta = false →
    c.decode payload = .ok s.reloaded
  delta : ∀ {s s' : Session} {payload header} (base : Session), s.Sound limit → s.kind = kind →
    c.encode s = (s', .ok payload) → Header.read payload = .ok header → header.isDelta = true →
    s.needsFullWrite = false ∧ (base.id = s.id → c.merge base payload = (base.patched s, .ok true))

/-- A full payload, and the record that the codec reads it as. -/
def ReadsAs (c : Codec) (payload : Bytes) (t : Session) : Prop :=
  c.read payload = .ok (some t) ∧
    ∃ header, Header.read payload = .ok header ∧ header.isDelta = false

/-- A delta, with which the codec brings a record with the same id up to date. -/
def BringsUp (c : Codec) (s : Session) (payload : Bytes) : Prop :=
  (∀ base : Session, base.id = s.id → c.merge base payload = (base.patched s, .ok true)) ∧
    ∃ header, Header.read payload = .ok header ∧ header.isDelta = true

/-- A codec whose payloads give back what was written, each value as it is read from its text, for
the records of one kind whose values are nested no deeper than a limit. -/
structure Rereads (c : Codec) (kind : Kind) (limit : Nat) : Prop where
  lawful : c.Lawful
  whole : ∀ {s s' : Session} {payload}, s.Storable limit → s.kind = kind →
    c.encodeFull s = (s', .ok payload) → c.ReadsAs payload s.echoed.reloaded
  /-- A delta is written only for a record that can do without a full write. -/
  preferred : ∀ {s s' : Session} {payload}, s.Storable limit → s.kind = kind →
    c.encode s = (s', .ok payload) → c.ReadsAs payload s.echoed.reloaded ∨
      (s.kind = .deltaCapable ∧ s.needsFullWrite = false) ∧ c.BringsUp s.echoed payload

lemma decode_of_read {payload : Bytes} {s : Session} (h : c.read payload = .ok (some s)) :
    c.decode payload = .ok s := by
  rw [decode, h, ok_bind]

section

variable {s : Session} {payload : Bytes} {header : Header}

lemma ReadsAs.decode (h : c.ReadsAs payload s) : c.decode payload = .ok s := decode_of_read h.1

lemma ReadsAs.isDelta (h : c.ReadsAs payload s) (hheader : Header.read payload = .ok header) :
    header.isDelta = false := by
  obtain ⟨-, found, hfound, hfull⟩ := h
  rw [hheader] at hfound
  exact Except.ok.inj hfound ▸ hfull

lemma BringsUp.isDelta (h : c.BringsUp s payload) (hheader : Header.read payload = .ok header) :
    header.isDelta = true := by
  obtain ⟨-, found, hfound, hdelta⟩ := h
  rw [hheader] at hfound
  exact Except.ok.inj hfound ▸ hdelta

end

lemma Rereads.faithful {kind : Kind} {limit : Nat} (h : Rereads c kind limit)
    (hlimit : limit ≤ Json.maxDepth) : Faithful c kind limit where
  lawful := h.lawful
  whole hs hkind hw := by
    have hback := (h.whole hs.storable hkind hw).decode
    rwa [hs.echoed hlimit] at hback
  full hs hkind hw hheader hfull := by
    rcases h.preferred hs.storable hkind hw with hback | ⟨-, hup⟩
    · have hdecode := hback.decode
      rwa [hs.echoed hlimit] at hdecode
    · rw [hup.isDelta hheader] at hfull
      cases hfull
  delta base hs hkind hw hheader hdelta := by
    rcases h.preferred hs.storable hkind hw with hback | ⟨hneeds, hup⟩
    · rw [hback.isDelta hheader] at hdelta
      cases hdelta
    · rw [hs.echoed hlimit] at hup
      exact ⟨hneeds.2, hup.1 base⟩

lemma Rereads.mono {kind : Kind} {limit less : Nat} (h : Rereads c kind limit)
    (hle : less ≤ limit) : Rereads c kind less where
  lawful := h.lawful
  whole hs := h.whole (hs.mono hle)
  preferred hs := h.preferred (hs.mono hle)

lemma Binarily.readsAs (hc : Binarily c) {s : Session} {payload : Bytes}
    (hs : s.Storable Json.maxDepth) (h : Binary.full s = .ok payload) :
    c.ReadsAs payload s.echoed.reloaded := by
  have hheader := Binary.header_full h
  refine ⟨?_, _, hheader, rfl⟩
  rw [hc.read payload _ hheader, Binary.read_full hs h]

lemma Binarily.rereads (hc : Binarily c) (hlaw : c.Lawful) :
    Rereads c .deltaCapable Json.maxDepth where
  lawful := hlaw
  whole {s s' payload} hs hkind h := by
    rw [encodeFull, hc.writeFull s [] hkind] at h
    exact hc.readsAs hs (Binary.payloadOf_append_eq_ok.1 h).1
  preferred {s s' payload} hs hkind h := by
    rw [encode, hc.write s [] hkind, Binary.write] at h
    split at h
    next hneeds =>
      have hwritten := (Binary.payloadOf_append_eq_ok.1 h).1
      have hheader := Binary.header_delta hwritten
      refine .inr ⟨⟨hkind, by simpa using hneeds.2⟩, fun base hid => ?_, _, hheader, rfl⟩
      rw [hc.merge base payload hheader, Binary.merge_delta hs hid hwritten]
    next => exact .inl (hc.readsAs hs (Binary.payloadOf_append_eq_ok.1 h).1)

lemma payloadOf_portable_ne {s s' : Session} {payload : Bytes} (hkind : s.kind = .deltaCapable) :
    payloadOf (Portable.writeFull s []) ≠ (s', .ok payload) := by
  rw [Portable.writeFull, if_neg (by simp [hkind])]
  simp [payloadOf]

/-- **Every composition gives back the delta-capable records that it writes.** -/
theorem BuiltIn.rereads_deltaCapable (h : BuiltIn c) :
    Rereads c .deltaCapable Json.maxDepth := by
  have hacts := h.acts
  split at hacts
  · exact hacts.rereads h.lawful
  · refine ⟨h.lawful, fun _ hkind hw => ?_, fun _ hkind hw => ?_⟩
    · rw [encodeFull, hacts.writeFull] at hw
      exact absurd hw (payloadOf_portable_ne hkind)
    · rw [encode, hacts.write] at hw
      exact absurd hw (payloadOf_portable_ne hkind)

/-! ### Plain records -/

/-- A codec that declines no plain record and gives back those that it writes. -/
structure Plainly (c : Codec) : Prop where
  write : ∀ s sink, s.kind = .plain → (c.write s sink).outcome ≠ .ok false
  writeFull : ∀ s sink, s.kind = .plain → (c.writeFull s sink).outcome ≠ .ok false
  encode : ∀ {s s' : Session} {payload}, s.Storable Portable.maxDepth → s.kind = .plain →
    c.encode s = (s', .ok payload) → c.ReadsAs payload s.echoed.reloaded
  encodeFull : ∀ {s s' : Session} {payload}, s.Storable Portable.maxDepth → s.kind = .plain →
    c.encodeFull s = (s', .ok payload) → c.ReadsAs payload s.echoed.reloaded

lemma readsAs_binary {s s' : Session} {payload : Bytes} (hs : s.Storable Portable.maxDepth)
    (h : payloadOf (Binary.append s [] (Binary.full s)) = (s', .ok payload)) :
    ReadsAs .binary payload s.echoed.reloaded := by
  have hwritten := (Binary.payloadOf_append_eq_ok.1 h).1
  exact ⟨Binary.read_full (hs.mono (by decide)) hwritten, _, Binary.header_full hwritten, rfl⟩

lemma plainly_binary : Plainly .binary := by
  have hwrite : ∀ s sink, s.kind = .plain →
      Codec.binary.write s sink = Binary.append s sink (Binary.full s) := by
    intro s sink hkind
    change Binary.write s sink = _
    rw [Binary.write, if_neg (by simp [hkind])]
  refine ⟨fun s sink _ => outcome_write_ne s sink, fun s sink _ => outcome_append_ne s sink _,
    fun {s s' payload} hs hkind h => ?_, fun hs _ h => readsAs_binary hs h⟩
  rw [Codec.encode, hwrite s [] hkind] at h
  exact readsAs_binary hs h

lemma readsAs_portable {s s' : Session} {payload : Bytes} (hs : s.Storable Portable.maxDepth)
    (hkind : s.kind = .plain) (h : payloadOf (Portable.writeFull s []) = (s', .ok payload)) :
    ReadsAs .portable payload s.echoed.reloaded := by
  rw [Portable.writeFull, if_pos hkind] at h
  obtain rfl : Portable.payload s = payload := by simpa [payloadOf] using (Prod.mk.inj h).2
  exact ⟨Portable.read_payload hs hkind, _, Portable.header_payload s, rfl⟩

lemma plainly_portable : Plainly .portable := by
  have hwrite : ∀ s sink, s.kind = .plain → (Portable.writeFull s sink).outcome ≠ .ok false := by
    intro s sink hkind
    rw [Portable.writeFull, if_pos hkind]
    simp
  exact ⟨hwrite, hwrite, readsAs_portable, readsAs_portable⟩

lemma plainly_chain {m : Codec} (hm : Plainly m) (rest : List Codec) :
    Plainly (chain (m :: rest)) := by
  have hread : ∀ {payload} {t : Session}, m.ReadsAs payload t →
      (chain (m :: rest)).ReadsAs payload t := by
    intro payload t h
    refine ⟨?_, h.2⟩
    change readFirst (m :: rest) payload = _
    rw [readFirst, h.1]
  have hwrite : ∀ s sink, s.kind = .plain →
      (chain (m :: rest)).write s sink = m.write s sink := fun s sink hkind =>
    writeFirst_cons_taken (Writing.declined_eq_false (hm.write s sink hkind)) rest
  have hwriteFull : ∀ s sink, s.kind = .plain →
      (chain (m :: rest)).writeFull s sink = m.writeFull s sink := fun s sink hkind =>
    writeFirst_cons_taken (Writing.declined_eq_false (hm.writeFull s sink hkind)) rest
  refine ⟨fun s sink hkind => ?_, fun s sink hkind => ?_, fun {s _ _} hs hkind h => ?_,
    fun {s _ _} hs hkind h => ?_⟩
  · rw [hwrite s sink hkind]
    exact hm.write s sink hkind
  · rw [hwriteFull s sink hkind]
    exact hm.writeFull s sink hkind
  · rw [encode, hwrite s [] hkind] at h
    exact hread (hm.encode hs hkind h)
  · rw [encodeFull, hwriteFull s [] hkind] at h
    exact hread (hm.encodeFull hs hkind h)

lemma BuiltIn.plainly (h : BuiltIn c) : Plainly c := by
  induction h with
  | binary => exact plainly_binary
  | portable => exact plainly_portable
  | @composed members c hmem hc ih =>
    rcases compose_eq_some hc with rfl | rfl
    · exact ih c (List.mem_singleton_self c)
    · cases members with
      | nil => cases hc
      | cons m rest => exact plainly_chain (ih m List.mem_cons_self) rest

/-- **Every composition gives back the plain records that it writes.** -/
theorem BuiltIn.rereads_plain (h : BuiltIn c) : Rereads c .plain Portable.maxDepth where
  lawful := h.lawful
  whole hs hkind hw := h.plainly.encodeFull hs hkind hw
  preferred hs hkind hw := .inl (h.plainly.encode hs hkind hw)

/-- **Every composition gives back what was written**, for the records that a repository makes with
it, each value as it is read from its text. -/
theorem BuiltIn.rereads (h : BuiltIn c) : Rereads c c.recordKind c.depthLimit := by
  unfold recordKind depthLimit
  split
  · exact h.rereads_deltaCapable
  · exact h.rereads_plain

/-- **Every composition gives back what was written** as it was, if its values are read from their
own texts. -/
theorem BuiltIn.faithful (h : BuiltIn c) : Faithful c c.recordKind c.depthLimit := by
  refine h.rereads.faithful ?_
  unfold depthLimit
  split <;> decide

end Sessions.Codec
