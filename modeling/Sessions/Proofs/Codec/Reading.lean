import Sessions.Proofs.Changes
import Sessions.Proofs.Codec.Chain
import Sessions.Proofs.Wire

/-!
# What is read is well formed

Whatever bytes a codec of this library is given, a record that it reads is well formed and without
changes, and a record that it merges a delta into stays well formed, also where the delta turns
out to be faulty on the way. So every record that can be made with this library at all
(`Session.Made`) is well formed; only a document can give one an empty principal, and then one that
is never written as a delta.
-/

namespace Sessions

namespace Time

lemma floorMillis_of_ofMillis? {millis : Int64} {t : Time} (h : ofMillis? millis = some t) :
    t.floorMillis = t := by
  have hnanos : t.nanos = millis.toInt * 1000000 := ofNanos?_eq_some_iff.1 h
  ext
  rw [nanos_floorMillis, hnanos]
  omega

end Time

namespace Session

structure Fresh (s : Session) : Prop where
  wellFormed : s.WellFormed
  phase : s.phase = .persisted
  previous : s.previous = none
  dirty : s.dirty = false
  log : s.attributes.log = .clean

variable {s t : Session}

lemma Fresh.hasDelta (h : s.Fresh) : s.hasDelta = false := by
  rw [Session.hasDelta, h.dirty, Attributes.isDirty, h.log]
  rfl

lemma Fresh.needsFullWrite (h : s.Fresh) : s.needsFullWrite = false := by
  rw [Session.needsFullWrite, h.phase, h.previous]
  rfl

lemma Fresh.logClean (h : s.Fresh) : s.attributes.LogClean := by
  intro _
  rw [Attributes.changedNames, h.log]
  rfl

lemma restore_eq_ok_iff {id : Ident} {created accessed : Time} {maxIdle : Duration}
    {principal : Option String} {attributes : Attributes} {kind : Kind} :
    restore id created accessed maxIdle principal attributes kind = .ok s ↔
      (created ≤ accessed ∧ maxIdle ≤ .longest) ∧
        s = { id, previous := none, created, accessed, maxIdle, principal, attributes, kind
              phase := .persisted, dirty := false } := by
  unfold restore checkInterval
  split
  next hearly =>
    simp only [reduceCtorEq, false_iff, not_and]
    intro ⟨horder, _⟩
    exact absurd horder (Int.not_le.2 hearly)
  next horder =>
    have horder : created ≤ accessed := Int.not_lt.1 horder
    split
    next hle => simp only [ok_bind, Except.ok.injEq, horder, hle, true_and, eq_comm]
    next hlong => simp [hlong, bind, Except.bind]

lemma fresh_restore {id : Ident} {created accessed : Time} {maxIdle : Duration}
    {principal : Option String} {attributes : Attributes} {kind : Kind}
    (hid : isBlank id.text = false) (hcreated : created.floorMillis = created)
    (haccessed : accessed.floorMillis = accessed) (hlog : attributes.log = .clean)
    (h : restore id created accessed maxIdle principal attributes kind = .ok s) :
    s.Fresh ∧ s.principal = principal ∧ s.kind = kind := by
  obtain ⟨⟨horder, hinterval⟩, rfl⟩ := restore_eq_ok_iff.1 h
  exact ⟨⟨⟨hid, hcreated, haccessed, horder, hinterval⟩, rfl, rfl, rfl, hlog⟩, rfl, rfl⟩

end Session

/-! ## The binary codec -/

namespace Binary

variable {input rest payload : Bytes} {s t base : Session}

lemma takeId_ok {id : Ident} (h : takeId input = .ok (id, rest)) : isBlank id.text = false := by
  obtain ⟨⟨text, tl⟩, -, h⟩ := bind_eq_ok.1 h
  simp only [Ident.parse] at h
  by_cases hblank : isBlank text = true
  · simp [hblank] at h
  · simp only [hblank, if_false, Bool.false_eq_true] at h
    obtain ⟨rfl, -⟩ := Prod.mk.inj (Except.ok.inj h)
    simpa using hblank

lemma takeTime_ok {field : String} {time : Time} (h : takeTime field input = .ok (time, rest)) :
    time.floorMillis = time := by
  obtain ⟨⟨millis, tl⟩, -, h⟩ := bind_eq_ok.1 h
  simp only at h
  split at h
  next time' htime =>
    obtain ⟨rfl, -⟩ := Prod.mk.inj (Except.ok.inj h)
    exact Time.floorMillis_of_ofMillis? htime
  next => cases h

lemma takePrincipal_ok {principal : Option String}
    (h : takePrincipal input = .ok (principal, rest)) : principal ≠ some "" := by
  obtain ⟨⟨count, tl⟩, -, h⟩ := bind_eq_ok.1 h
  simp only at h
  split at h
  · obtain ⟨rfl, -⟩ := Prod.mk.inj (Except.ok.inj h)
    simp
  next hcount =>
    obtain ⟨⟨bytes, tl'⟩, hbytes, h⟩ := bind_eq_ok.1 h
    obtain ⟨name, hname, h⟩ := bind_eq_ok.1 h
    obtain ⟨rfl, -⟩ := Prod.mk.inj (Except.ok.inj h)
    obtain ⟨hlength, -⟩ := Wire.cut_eq_ok_iff.1 hbytes
    intro hempty
    obtain rfl := Option.some.inj hempty
    have hnil : bytes = [] := Wire.asText_eq_ok_iff.1 hname
    rw [hnil] at hlength
    exact hcount hlength.symm

lemma takeEntries_log {count : Nat} {a b : Attributes} (h : takeEntries count a input = .ok b) :
    b.log = a.log := by
  induction count generalizing a input with
  | zero => rw [Except.ok.inj h]
  | succ count ih =>
    rw [takeEntries] at h
    obtain ⟨⟨name, tl⟩, -, h⟩ := bind_eq_ok.1 h
    obtain ⟨⟨value, tl'⟩, -, h⟩ := bind_eq_ok.1 h
    exact (ih h).trans rfl

/-- **A record that the binary codec reads** is fresh, and its principal is not empty. -/
theorem fresh_read (h : read payload = .ok (some t)) : t.Fresh ∧ t.principal ≠ some "" := by
  obtain ⟨header, -, h⟩ := bind_eq_ok.1 h
  split at h
  · split at h
    next kind _ =>
      obtain ⟨u, hrecord, h⟩ := bind_eq_ok.1 h
      obtain rfl := Option.some.inj (Except.ok.inj h)
      obtain ⟨⟨id, r₁⟩, hid, hrecord⟩ := bind_eq_ok.1 hrecord
      obtain ⟨⟨created, r₂⟩, hcreated, hrecord⟩ := bind_eq_ok.1 hrecord
      obtain ⟨⟨accessed, r₃⟩, haccessed, hrecord⟩ := bind_eq_ok.1 hrecord
      obtain ⟨⟨maxIdle, r₄⟩, -, hrecord⟩ := bind_eq_ok.1 hrecord
      obtain ⟨⟨principal, r₅⟩, hprincipal, hrecord⟩ := bind_eq_ok.1 hrecord
      obtain ⟨⟨blob, r₆⟩, -, hrecord⟩ := bind_eq_ok.1 hrecord
      obtain ⟨⟨count, entries⟩, -, hrecord⟩ := bind_eq_ok.1 hrecord
      obtain ⟨attributes, hattributes, hrecord⟩ := bind_eq_ok.1 hrecord
      obtain ⟨hfresh, heq, -⟩ := Session.fresh_restore (takeId_ok hid) (takeTime_ok hcreated)
        (takeTime_ok haccessed) (takeEntries_log hattributes) hrecord
      exact ⟨hfresh, heq ▸ takePrincipal_ok hprincipal⟩
    next => cases h
  · cases h

/-- What a delta, whole or faulty, may make of a record. -/
structure Merged (base t : Session) : Prop where
  id : t.id = base.id
  created : t.created = base.created
  kind : t.kind = base.kind
  wellFormed : base.WellFormed → t.WellFormed
  principal : base.principal ≠ some "" → t.principal ≠ some ""

lemma Merged.refl (base : Session) : Merged base base := ⟨rfl, rfl, rfl, fun h => h, fun h => h⟩

lemma Merged.trans (hst : Merged base s) (htu : Merged s t) : Merged base t where
  id := htu.id.trans hst.id
  created := htu.created.trans hst.created
  kind := htu.kind.trans hst.kind
  wellFormed h := htu.wellFormed (hst.wellFormed h)
  principal h := htu.principal (hst.principal h)

/-- The last access that a preamble brings is in whole milliseconds, its interval is not too long,
its principal is not empty, and it is for no blank id. -/
lemma takePreamble_ok {id : Ident} {preamble : Preamble}
    (h : takePreamble id input = .ok (preamble, rest)) :
    preamble.accessed.floorMillis = preamble.accessed ∧ preamble.maxIdle ≤ .longest ∧
      preamble.principal ≠ some "" ∧ isBlank id.text = false := by
  obtain ⟨⟨other, r₁⟩, hother, h⟩ := bind_eq_ok.1 h
  simp only at h
  split at h
  · cases h
  next hsame =>
    have hid : other = id := by simpa using hsame
    obtain ⟨⟨accessed, r₂⟩, haccessed, h⟩ := bind_eq_ok.1 h
    obtain ⟨⟨maxIdle, r₃⟩, -, h⟩ := bind_eq_ok.1 h
    obtain ⟨⟨principal, r₄⟩, hprincipal, h⟩ := bind_eq_ok.1 h
    obtain ⟨⟨⟩, hinterval, h⟩ := bind_eq_ok.1 h
    obtain ⟨rfl, -⟩ := Prod.mk.inj (Except.ok.inj h)
    have hle : maxIdle ≤ .longest := by
      unfold Session.checkInterval at hinterval
      split at hinterval
      · assumption
      · cases hinterval
    exact ⟨takeTime_ok haccessed, hle, takePrincipal_ok hprincipal, hid ▸ takeId_ok hother⟩

lemma merged_preamble {preamble : Preamble} (h : takePreamble base.id input = .ok (preamble, rest))
    (a : Attributes) : Merged base { preamble.apply base with attributes := a } := by
  obtain ⟨haccessed, hinterval, hprincipal, -⟩ := takePreamble_ok h
  refine ⟨rfl, rfl, rfl, fun hbase => ⟨hbase.id, hbase.created, ?_, ?_, hinterval⟩,
    fun _ => hprincipal⟩
  · exact Time.floorMillis_max haccessed hbase.created
  · exact Time.le_max_right preamble.accessed base.created

/-- **A merge keeps a record well formed**, whatever it is given and however it ends. -/
theorem merged_merge (base : Session) (payload : Bytes) : Merged base (merge base payload).1 := by
  unfold merge
  split
  · exact .refl base
  · split
    · split
      · exact .refl base
      next preamble input hpreamble =>
        split
        · exact merged_preamble hpreamble base.attributes
        · exact merged_preamble hpreamble _
    · exact .refl base

end Binary

/-! ## Documents -/

lemma Attributes.log_ofEntries (entries : List (String × Json)) :
    (ofEntries entries).log = .clean := by
  rw [ofEntries_eq_foldl, log_foldl_applyChange]
  rfl

namespace Document

variable {d : Document} {s : Session}

lemma time_eq_ok_iff {field : String} {millis : Int64} {t : Time} :
    time field millis = .ok t ↔ Time.ofMillis? millis = some t := by
  unfold time
  split <;> simp [*]

lemma toSession_eq_ok_iff : d.toSession = .ok s ↔
    isBlank d.id = false ∧ ∃ created, Time.ofMillis? d.created = some created ∧
      ∃ accessed, Time.ofMillis? d.accessed = some accessed ∧
        Session.restore ⟨d.id⟩ created accessed (.ofSeconds d.maxIdleSeconds) d.principal
          (.ofEntries d.attributes.entries) .plain = .ok s := by
  unfold toSession Ident.parse
  cases hblank : isBlank d.id with
  | true => simp [bind, Except.bind]
  | false =>
    simp only [Bool.false_eq_true, if_false, ok_bind, bind_eq_ok, time_eq_ok_iff, true_and]

/-- **The record of a document** is fresh and never written as a delta. -/
theorem fresh_toSession (h : d.toSession = .ok s) : s.Fresh ∧ s.kind = .plain := by
  obtain ⟨hblank, created, hcreated, accessed, haccessed, h⟩ := toSession_eq_ok_iff.1 h
  obtain ⟨hfresh, -, hkind⟩ := Session.fresh_restore hblank
    (Time.floorMillis_of_ofMillis? hcreated) (Time.floorMillis_of_ofMillis? haccessed)
    (Attributes.log_ofEntries _) h
  exact ⟨hfresh, hkind⟩

end Document

/-! ## All codecs -/

namespace Codec

variable {c : Codec} {s t : Session} {payload : Bytes}

lemma BuiltIn.read_of_read (hc : BuiltIn c) (h : c.read payload = .ok (some t)) :
    Binary.read payload = .ok (some t) ∨
      ∃ d, Portable.readDocument payload = .ok (some d) ∧ d.toSession = .ok t := by
  rcases hc.read_cases payload with hread | hread | hread <;> rw [hread] at h
  · cases h
  · exact .inl h
  · obtain ⟨found, hfound, h⟩ := bind_eq_ok.1 h
    cases found with
    | none => cases h
    | some d =>
      obtain ⟨u, hdocument, h⟩ := bind_eq_ok.1 h
      obtain rfl := Option.some.inj (Except.ok.inj h)
      exact .inr ⟨d, hfound, hdocument⟩

/-- **Every record that a codec of this library reads** is fresh, and one that may be written as a
delta has no empty principal. -/
theorem BuiltIn.fresh_read (hc : BuiltIn c) (h : c.read payload = .ok (some t)) :
    t.Fresh ∧ (t.kind = .deltaCapable → t.principal ≠ some "") := by
  rcases hc.read_of_read h with hbinary | ⟨d, -, hdocument⟩
  · obtain ⟨hfresh, hprincipal⟩ := Binary.fresh_read hbinary
    exact ⟨hfresh, fun _ => hprincipal⟩
  · obtain ⟨hfresh, hkind⟩ := Document.fresh_toSession hdocument
    refine ⟨hfresh, fun hdelta => ?_⟩
    rw [hkind] at hdelta
    cases hdelta

/-- **No delta makes a record of this library ill formed**, whatever bytes it has. -/
theorem BuiltIn.merged (hc : BuiltIn c) (base : Session) (payload : Bytes) :
    Binary.Merged base (c.merge base payload).1 := by
  induction hc generalizing base with
  | binary => exact Binary.merged_merge base payload
  | portable => exact .refl base
  | @composed members c hmem hc ih =>
    rcases compose_eq_some hc with rfl | rfl
    · exact ih _ (List.mem_singleton_self _) base
    · change Binary.Merged base (mergeFirst members base payload).1
      clear hc hmem
      induction members generalizing base with
      | nil => exact .refl base
      | cons m rest ihrest =>
        have hm := ih m List.mem_cons_self base
        rw [mergeFirst]
        split
        next s hdeclined =>
          rw [hdeclined] at hm
          exact hm.trans (ihrest (fun n hn => ih n (List.mem_cons_of_mem m hn)) s)
        next => exact hm

end Codec

/-! ## All records -/

/-- The records that can be made with this library: new ones, ones that were read from a payload or
a document, and what merges, edits, new ids, commits and ends make of them. -/
inductive Session.Made : Session → Prop
  | create {id : Ident} (hid : isBlank id.text = false) (now : Time) (kind : Kind) :
      Made (.create id now kind)
  | read {c : Codec} (hc : c.BuiltIn) {payload : Bytes} {s : Session}
      (h : c.read payload = .ok (some s)) : Made s
  | document {d : Document} {s : Session} (h : d.toSession = .ok s) : Made s
  | merge {s : Session} (h : Made s) {c : Codec} (hc : c.BuiltIn) (payload : Bytes) :
      Made (c.merge s payload).1
  | edit {s : Session} (h : Made s) (e : Edit) (now : Time) : Made (e.apply now s)
  | rotate {s : Session} (h : Made s) {id : Ident} (hid : isBlank id.text = false) :
      Made (s.rotate id)
  | withMaxIdle {s : Session} (h : Made s) (interval : Duration) : Made (s.withMaxIdle interval)
  | withRule {s : Session} (h : Made s) (rule : ChangeRule) : Made (s.withRule rule)
  | commit {s : Session} (h : Made s) : Made s.commit
  | finish {s : Session} (h : Made s) {phase : Phase} (hphase : phase.isEnded = true) :
      Made { s with phase := phase }

namespace Session

variable {s : Session}

/-- A record that is not written as a delta is free to have an empty principal. -/
def Principled (s : Session) : Prop := s.kind = .deltaCapable → s.principal ≠ some ""

lemma wellFormed_create {id : Ident} (hid : isBlank id.text = false) (now : Time) (kind : Kind) :
    (create id now kind).WellFormed where
  id := hid
  created := now.floorMillis_floorMillis
  accessed := now.floorMillis_floorMillis
  order := Time.le_refl _
  interval := (by decide : defaultMaxIdle ≤ .longest)

lemma WellFormed.rotate (h : s.WellFormed) {id : Ident} (hid : isBlank id.text = false) :
    (s.rotate id).WellFormed :=
  ⟨hid, h.created, h.accessed, h.order, h.interval⟩

lemma WellFormed.withMaxIdle (h : s.WellFormed) (interval : Duration) :
    (s.withMaxIdle interval).WellFormed :=
  ⟨h.id, h.created, h.accessed, h.order, min_le_longest interval⟩

lemma WellFormed.withRule (h : s.WellFormed) (rule : ChangeRule) : (s.withRule rule).WellFormed :=
  ⟨h.id, h.created, h.accessed, h.order, h.interval⟩

lemma WellFormed.commit (h : s.WellFormed) : s.commit.WellFormed :=
  ⟨h.id, h.created, h.accessed, h.order, h.interval⟩

lemma WellFormed.withPhase (h : s.WellFormed) (phase : Phase) :
    ({ s with phase := phase } : Session).WellFormed :=
  ⟨h.id, h.created, h.accessed, h.order, h.interval⟩

/-- **Every record that can be made is well formed.** -/
theorem Made.wellFormed (h : s.Made) : s.WellFormed ∧ s.Principled := by
  induction h with
  | create hid now kind => exact ⟨wellFormed_create hid now kind, fun _ => by simp [Session.create]⟩
  | read hc h =>
    obtain ⟨hfresh, hprincipal⟩ := hc.fresh_read h
    exact ⟨hfresh.wellFormed, hprincipal⟩
  | document h =>
    obtain ⟨hfresh, hkind⟩ := Document.fresh_toSession h
    exact ⟨hfresh.wellFormed, fun hdelta => by rw [hkind] at hdelta; cases hdelta⟩
  | @merge base _ c hc payload ih =>
    have hmerged := hc.merged base payload
    exact ⟨hmerged.wellFormed ih.1, fun hdelta => hmerged.principal (ih.2 (hmerged.kind ▸ hdelta))⟩
  | @edit s _ e now ih =>
    have hedit := edited_apply s e now
    exact ⟨hedit.wellFormed ih.1, fun hdelta => hedit.principal (ih.2 (hedit.kind ▸ hdelta))⟩
  | rotate _ hid ih => exact ⟨ih.1.rotate hid, ih.2⟩
  | withMaxIdle _ interval ih => exact ⟨ih.1.withMaxIdle interval, ih.2⟩
  | withRule _ rule ih => exact ⟨ih.1.withRule rule, ih.2⟩
  | commit _ ih => exact ⟨ih.1.commit, ih.2⟩
  | finish _ _ ih => exact ⟨ih.1.withPhase _, ih.2⟩

end Session

end Sessions
