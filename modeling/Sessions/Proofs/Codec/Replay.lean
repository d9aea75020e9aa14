import Sessions.Proofs.Codec.Binary
import Sessions.Proofs.Codec.Reading

/-!
# Deltas in place of full payloads

A holder changes a record and writes it, again and again. Every write after a full one is a delta,
and the deltas, merged one after the other into the record of the full payload, keep up with the
holder: at the end both records have the same full payload.

What carries this through the rounds is that the merged record prints as the holder's record did at
its last commit (`Session.Prints`). The values themselves need not be the same; it is enough that
what is read from a text prints as that text.
-/

namespace Sessions

namespace Codec

/-- A full payload was written and the record committed: a full one was asked for, or the record
needed one. -/
def WritesWhole (c : Codec) (s s' : Session) (payload : Bytes) : Prop :=
  c.encodeFull s = (s', .ok payload) ∨
    s.needsFullWrite = true ∧ c.encode s = (s', .ok payload)

/-- Merges deltas into a record, in their order, up to the first that cannot be merged. -/
def mergeAll (c : Codec) : Session → List Bytes → Session × Except Fault Bool
  | s, [] => (s, .ok true)
  | s, delta :: rest =>
    match c.merge s delta with
    | (s, .ok true) => c.mergeAll s rest
    | merged => merged

end Codec

abbrev Edits := List (Time × Edit)

namespace Edits

def apply (s : Session) (edits : Edits) : Session := edits.foldl (fun s e => e.2.apply e.1 s) s

@[simp] lemma apply_nil (s : Session) : apply s [] = s := rfl

@[simp] lemma apply_cons (s : Session) (e : Time × Edit) (edits : Edits) :
    apply s (e :: edits) = apply (e.2.apply e.1 s) edits := rfl

/-- Every value that the changes bring in prints the same when it was read. -/
def Reprints (edits : Edits) : Prop :=
  ∀ e ∈ edits, ∀ value, e.2.value? = some value → value.Reprints

/-- The record after rounds of changes, each followed by a write, and the payloads that were
written; a write that fails ends it. -/
def rounds (c : Codec) : Session → List Edits → Session × Except Fault (List Bytes)
  | s, [] => (s, .ok [])
  | s, edits :: rest =>
    match c.encode (apply s edits) with
    | (s, .error e) => (s, .error e)
    | (s, .ok payload) =>
      let (s, payloads) := rounds c s rest
      (s, payloads.map (payload :: ·))

end Edits

namespace Session

variable {s t base : Session}

lemma Made.edits (h : s.Made) (edits : Edits) : (edits.apply s).Made := by
  induction edits generalizing s with
  | nil =>
    rw [Edits.apply_nil]
    exact h
  | cons e rest ih =>
    rw [Edits.apply_cons]
    exact ih (h.edit e.2 e.1)

/-- Every value of the record prints the same when it was read. -/
def Reprints (s : Session) : Prop :=
  ∀ name value, s.attributes.value? name = some value → value.Reprints

/-- Whether two records have the same full payload. -/
structure Prints (s t : Session) : Prop where
  id : t.id = s.id
  created : t.created = s.created
  accessed : t.accessed = s.accessed
  seconds : t.maxIdle.wholeSeconds = s.maxIdle.wholeSeconds
  principal : t.principal = s.principal
  kind : t.kind = s.kind
  texts : ∀ name, (t.attributes.value? name).map Json.bytes =
    (s.attributes.value? name).map Json.bytes

end Session

namespace Attributes

variable {a b : Attributes}

def texts (a : Attributes) : List (String × Bytes) := a.entries.map fun e => (e.1, e.2.bytes)

lemma texts_congr (h : ∀ name, (b.value? name).map Json.bytes = (a.value? name).map Json.bytes) :
    b.texts = a.texts := by
  have htable : ∀ c : Attributes,
      c.texts = (c.held.filterMap fun _ h => some h.value.bytes).entries := by
    intro c
    simp [texts, entries, Table.filterMap]
  have hfind : ∀ (c : Attributes) (name : String),
      (c.held.filterMap fun _ h => some h.value.bytes).find? name =
        (c.value? name).map Json.bytes := by
    intro c name
    rw [Table.find?_filterMap, value?, handle?]
    cases c.held.find? name <;> rfl
  have heq : (b.held.filterMap fun _ h => some h.value.bytes) =
      a.held.filterMap fun _ h => some h.value.bytes :=
    Table.ext_find? fun name => by rw [hfind, hfind, h]
  rw [htable, htable, heq]

end Attributes

namespace Binary

variable {s s' t base : Session} {payload : Bytes}

lemma putEntries_congr {xs ys : List (String × Json)}
    (h : xs.map (fun e => (e.1, e.2.bytes)) = ys.map fun e => (e.1, e.2.bytes)) :
    putEntries xs = putEntries ys := by
  induction xs generalizing ys with
  | nil =>
    cases ys with
    | nil => rfl
    | cons y ys => cases h
  | cons x xs ih =>
    cases ys with
    | nil => cases h
    | cons y ys =>
      obtain ⟨name, v⟩ := x
      obtain ⟨other, w⟩ := y
      simp only [List.map_cons, List.cons.injEq, Prod.mk.injEq] at h
      obtain ⟨⟨rfl, hbytes⟩, hrest⟩ := h
      rw [putEntries, putEntries, ih hrest, putEntry, putEntry, hbytes]

/-- **Records that print the same have the same full payload.** -/
theorem full_congr (h : Session.Prints s t) : full t = full s := by
  have htexts := Attributes.texts_congr h.texts
  have hsize : t.attributes.size = s.attributes.size := by
    have hlength := congrArg List.length htexts
    simpa [Attributes.texts, Attributes.size, Table.size, Attributes.entries] using hlength
  have hblob : blob t.attributes = blob s.attributes := by
    rw [blob, blob, hsize, putEntries_congr htexts]
  rw [full, full, hblob, h.id, h.created, h.accessed, h.seconds, h.principal, h.kind]

end Binary

namespace Session

variable {s s' t base : Session}

lemma prints_commit : Prints s.commit t ↔ Prints s t :=
  ⟨fun h => ⟨h.id, h.created, h.accessed, h.seconds, h.principal, h.kind, h.texts⟩,
    fun h => ⟨h.id, h.created, h.accessed, h.seconds, h.principal, h.kind, h.texts⟩⟩

lemma prints_reloaded (hvalues : s.Reprints) : Prints s s.echoed.reloaded where
  id := rfl
  created := rfl
  accessed := rfl
  seconds := Duration.wholeSeconds_ofSeconds _
  principal := rfl
  kind := rfl
  texts name := by
    rw [(agrees_reloaded s.echoed).values]
    change (s.attributes.echoed.value? name).map Json.bytes = _
    rw [Attributes.value?_echoed]
    cases hv : s.attributes.value? name with
    | none => rfl
    | some value => exact congrArg some (hvalues name value hv).bytes_echo

/-- **A delta keeps up**: if a stored record prints as the holder's record did at its last commit,
then, with all that has been noted since, it prints as the record does now. -/
lemma Prints.patched (h : Prints s base) (htracks : Tracks s s') (hprevious : s'.previous = none)
    (horder : s'.created ≤ s'.accessed) (hvalues : s'.Reprints) :
    Prints s' (base.patched s'.echoed) where
  id := by
    have hid : s'.id = s.id := by simpa [hprevious] using htracks.home
    exact h.id.trans hid.symm
  created := h.created.trans htracks.created.symm
  accessed := by
    have hle : base.created ≤ s'.accessed := by
      rw [h.created, ← htracks.created]
      exact horder
    exact Time.max_eq_left hle
  seconds := Duration.wholeSeconds_ofSeconds _
  principal := rfl
  kind := h.kind.trans htracks.kind.symm
  texts name := by
    rw [value?_patched]
    change (if name ∈ s'.attributes.changedNames then s'.attributes.echoed.value? name
      else base.attributes.value? name).map Json.bytes = _
    split
    next =>
      rw [Attributes.value?_echoed]
      cases hv : s'.attributes.value? name with
      | none => rfl
      | some value => exact congrArg some (hvalues name value hv).bytes_echo
    next hname => rw [h.texts, htracks.values name hname]

/-- What holds of a record after any changes since a commit. -/
structure Reworking (s t : Session) : Prop where
  tracks : Tracks s t
  rule : t.attributes.rule = s.attributes.rule
  phase : t.phase = s.phase
  previous : t.previous = s.previous
  wellFormed : t.WellFormed
  principal : t.principal ≠ some ""
  reprints : t.Reprints

lemma Reworking.edits (h : Reworking s t) (hrule : s.attributes.rule.Notices) {edits : Edits}
    (hedits : edits.Reprints) : Reworking s (edits.apply t) := by
  induction edits generalizing t with
  | nil =>
    rw [Edits.apply_nil]
    exact h
  | cons e rest ih =>
    rw [Edits.apply_cons]
    have hedit := edited_apply t e.2 e.1
    refine ih ⟨h.tracks.edited (h.rule.symm ▸ hrule) hedit, hedit.attributes.rule.trans h.rule,
      hedit.phase.trans h.phase, hedit.previous.trans h.previous, hedit.wellFormed h.wellFormed,
      hedit.principal h.principal, fun name value hv => ?_⟩
      fun x hx => hedits x (List.mem_cons_of_mem e hx)
    rcases hedit.values name value hv with hold | hnew
    · exact h.reprints name value hold
    · exact hedits e List.mem_cons_self value hnew

/-- A holder's record after a commit, and the stored record that keeps up with it. -/
structure KeepsUp (s base : Session) : Prop where
  kind : s.kind = .deltaCapable
  rule : s.attributes.rule.Notices
  full : s.needsFullWrite = false
  wellFormed : s.WellFormed
  principal : s.principal ≠ some ""
  reprints : s.Reprints
  prints : Prints s base
  clean : base.hasDelta = false

/-- **One round**: the holder's write is a delta, it is merged, and the stored record keeps up. -/
theorem KeepsUp.round (h : KeepsUp s base) {edits : Edits} (hedits : edits.Reprints)
    {payload : Bytes} (henc : Codec.binary.encode (edits.apply s) = (s', .ok payload)) :
    Header.read payload = .ok ⟨Binary.tag, .delta⟩ ∧
      ∃ merged, Codec.binary.merge base payload = (merged, .ok true) ∧ KeepsUp s' merged := by
  obtain ⟨hnew, hprevious⟩ := Bool.or_eq_false_iff.1 h.full
  have hnone : s.previous = none := by simpa using hprevious
  have hrework : Reworking s (edits.apply s) :=
    Reworking.edits ⟨tracks_self hnone, rfl, rfl, rfl, h.wellFormed, h.principal, h.reprints⟩
      h.rule hedits
  generalize edits.apply s = t at henc hrework
  have htnone : t.previous = none := hrework.previous.trans hnone
  have htkind : t.kind = .deltaCapable := hrework.tracks.kind.trans h.kind
  have htphase : t.phase ≠ .new := by
    rw [hrework.phase]
    simpa using hnew
  have hfull : t.needsFullWrite = false := by simp [needsFullWrite, htphase, htnone]
  obtain ⟨hpreferred, rfl⟩ := Binary.encode_eq_ok.1 henc
  have hdelta : Binary.delta t = .ok payload := by
    rwa [Binary.preferred, if_pos ⟨htkind, by simp [hfull]⟩] at hpreferred
  have hid : base.id = t.id := by
    have hhome := hrework.tracks.home
    rw [htnone] at hhome
    exact h.prints.id.trans hhome.symm
  have hlegible : ∀ name ∈ t.attributes.changedNames, ∀ value,
      t.attributes.value? name = some value → value.Legible := fun name _ value hv =>
    (hrework.reprints name value hv).legible
  refine ⟨Binary.header_delta hdelta, base.patched t.echoed,
    (Binary.merge_delta_iff hrework.wellFormed hrework.principal hdelta).2 ⟨hid, hlegible, rfl⟩, ?_⟩
  have hprints := h.prints.patched hrework.tracks htnone hrework.wellFormed.order hrework.reprints
  refine ⟨htkind, hrework.rule.symm ▸ h.rule, ?_, hrework.wellFormed.commit, hrework.principal,
    hrework.reprints, prints_commit.2 hprints, ?_⟩
  · simp [needsFullWrite, commit, htphase]
  · rw [hasDelta, Attributes.isDirty, log_patched]
    exact h.clean

/-- **All rounds**: every write is a delta, the deltas are merged one after the other, and the
stored record keeps up. -/
theorem KeepsUp.rounds (h : KeepsUp s base) {edits : List Edits}
    (hedits : ∀ es ∈ edits, es.Reprints) {deltas : List Bytes}
    (hrounds : Edits.rounds .binary s edits = (s', .ok deltas)) :
    (∀ d ∈ deltas, Header.read d = .ok ⟨Binary.tag, .delta⟩) ∧
      ∃ merged, Codec.binary.mergeAll base deltas = (merged, .ok true) ∧ KeepsUp s' merged := by
  induction edits generalizing s base deltas with
  | nil =>
    rw [Edits.rounds] at hrounds
    obtain ⟨rfl, hnil⟩ := Prod.mk.inj hrounds
    obtain rfl : [] = deltas := Except.ok.inj hnil
    exact ⟨fun d hd => (nomatch hd), base, rfl, h⟩
  | cons es rest ih =>
    rw [Edits.rounds] at hrounds
    cases henc : Codec.binary.encode (es.apply s) with
    | mk s₁ outcome =>
      rw [henc] at hrounds
      cases outcome with
      | error e => cases (Prod.mk.inj hrounds).2
      | ok payload =>
        obtain ⟨hheader, base₁, hmerge, hkeeps⟩ := h.round (hedits es List.mem_cons_self) henc
        cases hrest : Edits.rounds .binary s₁ rest with
        | mk s₂ found =>
          simp only [hrest] at hrounds
          cases found with
          | error e => cases (Prod.mk.inj hrounds).2
          | ok more =>
            obtain ⟨rfl, hlist⟩ := Prod.mk.inj hrounds
            obtain rfl : payload :: more = deltas := Except.ok.inj hlist
            obtain ⟨hheaders, merged, hall, hlast⟩ :=
              ih hkeeps (fun x hx => hedits x (List.mem_cons_of_mem es hx)) hrest
            refine ⟨?_, merged, ?_, hlast⟩
            · intro d hd
              rcases List.mem_cons.1 hd with rfl | hd
              · exact hheader
              · exact hheaders d hd
            · rw [Codec.mergeAll, hmerge]
              exact hall

end Session

namespace Codec

variable {s s₁ s₂ : Session} {payload : Bytes}

lemma WritesWhole.full (h : Codec.binary.WritesWhole s s₁ payload) :
    Binary.full s = .ok payload ∧ s₁ = s.commit := by
  rcases h with h | ⟨hfull, h⟩
  · exact Binary.encodeFull_eq_ok.1 h
  · obtain ⟨hpreferred, hcommit⟩ := Binary.encode_eq_ok.1 h
    rw [Binary.preferred, if_neg (by simp [hfull])] at hpreferred
    exact ⟨hpreferred, hcommit⟩

/-- **Deltas do what full payloads do.** A delta-capable record is written whole, and then changed
and written any number of times. Each of these writes is a delta; the deltas merge one after the
other into the record that the full payload gives, which has nothing to save then, and whose full
payload is the one that the holder's record has. -/
theorem deltas_replay (hmade : s.Made) (hkind : s.kind = .deltaCapable)
    (hrule : s.attributes.rule = .identity ∨ s.attributes.rule = .always) (hvalues : s.Reprints)
    (hpayload : Codec.binary.WritesWhole s s₁ payload) {edits : List Edits}
    (hedits : ∀ es ∈ edits, es.Reprints) {deltas : List Bytes}
    (hrounds : Edits.rounds .binary s₁ edits = (s₂, .ok deltas)) :
    (∀ d ∈ deltas, ∃ header, Header.read d = .ok header ∧ header.isDelta = true) ∧
      ∃ base merged, Codec.binary.decode payload = .ok base ∧
        Codec.binary.mergeAll base deltas = (merged, .ok true) ∧ merged.hasDelta = false ∧
        (Codec.binary.encodeFull merged).2 = (Codec.binary.encodeFull s₂).2 := by
  obtain ⟨hform, hprincipled⟩ := hmade.wellFormed
  have hprincipal := hprincipled hkind
  obtain ⟨hfull, rfl⟩ := hpayload.full
  have hnotices : s.attributes.rule.Notices := by
    rcases hrule with hrule | hrule
    · rw [hrule]
      exact notices_identity
    · rw [hrule]
      exact notices_always
  have hread : Binary.read payload = .ok (some s.echoed.reloaded) :=
    (Binary.read_full_iff hform hprincipal hfull).2
      ⟨fun name value hv => (hvalues name value hv).legible, rfl⟩
  have hneeds : s.commit.needsFullWrite = false := by
    cases hphase : s.phase <;> simp [Session.needsFullWrite, Session.commit, hphase]
  have hclean : s.echoed.reloaded.hasDelta = false := by
    rw [Session.hasDelta, Attributes.isDirty]
    change (false || (Attributes.ofEntries s.echoed.attributes.entries).log.dirty) = false
    rw [Attributes.log_ofEntries]
    rfl
  have hkeeps : s.commit.KeepsUp s.echoed.reloaded :=
    ⟨hkind, hnotices, hneeds, hform.commit, hprincipal, hvalues,
      Session.prints_commit.2 (Session.prints_reloaded hvalues), hclean⟩
  obtain ⟨hheaders, merged, hmerge, hlast⟩ := hkeeps.rounds hedits hrounds
  refine ⟨fun d hd => ⟨_, hheaders d hd, rfl⟩, s.echoed.reloaded, merged, ?_, hmerge, hlast.clean,
    ?_⟩
  · exact Binary.decode_eq_ok.2 hread
  · rw [Binary.encodeFull_snd, Binary.encodeFull_snd, Binary.full_congr hlast.prints]

end Codec

/-! ### Three visits -/

namespace Sample

def visitor : Session := Edits.apply (.create ⟨"x"⟩ .epoch .deltaCapable)
  [(.epoch, .set "cart" (.int 1)), (.epoch, .set "lang" (.str "en"))]

/-- What is changed before each of three writes; before the second one, nothing. -/
def visits : List Edits :=
  [[(.epoch, .set "cart" (.int 2)), (.epoch, .remove "lang"), (.epoch, .principal (some "alice"))],
    [],
    [(⟨5000000000, by decide⟩, .touch), (.epoch, .maxIdle (.ofSeconds 60)),
      (.epoch, .set "lang" (.arr [.bool true]))]]

def visited : List Bytes := (Edits.rounds .binary visitor.commit visits).2.toOption.getD []

lemma reprints_sample {value : Json}
    (h : value ∈ [.int 1, .str "en", .int 2, .str "alice", .arr [.bool true]]) :
    value.Reprints := by
  have hback : ∀ v : Json, v.Readable → v.depth ≤ Json.maxDepth → v.Reprints :=
    fun _ hread hdepth => (Json.readsBack_of_readable hread hdepth).reprints
  simp only [List.mem_cons, List.not_mem_nil, or_false] at h
  rcases h with rfl | rfl | rfl | rfl | rfl
  · exact hback _ (by simp [Json.Readable]) (by decide)
  · exact hback _ (by simp [Json.Readable]) (by decide)
  · exact hback _ (by simp [Json.Readable]) (by decide)
  · exact hback _ (by simp [Json.Readable]) (by decide)
  · exact hback _ (by simp [Json.Readable, Json.ReadableItems]) (by decide)

lemma reprints_visitor : visitor.Reprints := by
  intro name value hvalue
  have hentries : visitor.attributes.entries = [("cart", .int 1), ("lang", .str "en")] := rfl
  have hmem := List.mem_map_of_mem (f := Prod.snd) (Attributes.exists_mem_entries hvalue)
  rw [hentries] at hmem
  exact reprints_sample (List.mem_append_left [Json.int 2, .str "alice", .arr [.bool true]] hmem)

lemma reprints_visits : ∀ es ∈ visits, es.Reprints := by
  intro es hes e he value hvalue
  have hvalues : (visits.flatMap fun es => es.filterMap (·.2.value?)) =
      [.int 2, .str "alice", .arr [.bool true]] := by decide +kernel
  have hmem : value ∈ visits.flatMap fun es => es.filterMap (·.2.value?) :=
    List.mem_flatMap.2 ⟨es, hes, List.mem_filterMap.2 ⟨e, he, hvalue⟩⟩
  rw [hvalues] at hmem
  exact reprints_sample (List.mem_append_right [Json.int 1, .str "en"] hmem)

end Sample

namespace Codec

open Sample

theorem deltas_replay_visits :
    visitor.Made ∧ visitor.kind = .deltaCapable ∧ visitor.attributes.rule = .identity ∧
      visitor.Reprints ∧ (∀ es ∈ visits, es.Reprints) ∧ visited.length = 3 ∧
      ∃ payload last base merged, Codec.binary.WritesWhole visitor visitor.commit payload ∧
        Edits.rounds .binary visitor.commit visits = (last, .ok visited) ∧
        (∀ d ∈ visited, ∃ header, Header.read d = .ok header ∧ header.isDelta = true) ∧
        Codec.binary.decode payload = .ok base ∧
        Codec.binary.mergeAll base visited = (merged, .ok true) ∧ merged.hasDelta = false ∧
        (Codec.binary.encodeFull merged).2 = (Codec.binary.encodeFull last).2 := by
  have hmade : visitor.Made := (@Session.Made.create ⟨"x"⟩ (by decide) _ _).edits _
  have hrounds : (Edits.rounds .binary visitor.commit visits).2 = .ok visited := by decide +kernel
  have hfull : (Binary.full visitor).toOption.isSome = true := by decide +kernel
  cases hpayload : Binary.full visitor with
  | error e =>
    rw [hpayload] at hfull
    cases hfull
  | ok payload =>
    have hwhole : Codec.binary.WritesWhole visitor visitor.commit payload :=
      .inl (Binary.encodeFull_eq_ok.2 ⟨hpayload, rfl⟩)
    have hlast : Edits.rounds .binary visitor.commit visits =
        ((Edits.rounds .binary visitor.commit visits).1, .ok visited) := Prod.ext rfl hrounds
    obtain ⟨hdeltas, base, merged, hbase, hmerged, hclean, hsame⟩ :=
      deltas_replay hmade rfl (.inl rfl) reprints_visitor hwhole reprints_visits hlast
    exact ⟨hmade, rfl, rfl, reprints_visitor, reprints_visits, by decide +kernel, payload, _, base,
      merged, hwhole, hlast, hdeltas, hbase, hmerged, hclean, hsame⟩

end Codec

end Sessions
