import Sessions.Codec.Binary
import Sessions.Proofs.Json.Depth
import Sessions.Proofs.Store
import Sessions.Repository

/-!
# What a save comes to

Every way in which a save, and the write inside it, can end, with all that is known then. Proofs
about saves split along these cases and never open the operations themselves.
-/

namespace Sessions

open Store (Settled)

namespace Repository

variable {r : Repository} {s : Session} {now : Time}

/-- The repository after the entry under a record's previous id was removed. -/
def vacate (r : Repository) (s : Session) : Repository :=
  match s.previous with
  | some previous => r.delete previous
  | none => r

/-- The ways in which writing a record can end. What is stored gets the keys of the record. -/
inductive Writes (r : Repository) (s : Session) (now : Time) :
    Repository × Session × Except Fault Unit → Prop
  /-- No payload was produced. -/
  | unencoded {s' e} (henc : r.codec.encode s = (s', .error e)) : Writes r s now (r, s', .error e)
  /-- The store did not take the payload. -/
  | refused {s' payload e st} (henc : r.codec.encode s = (s', .ok payload))
      (hst : Settled now r.store st) : Writes r s now ({ r with store := st }, s', .error e)
  /-- The whole record was stored. -/
  | whole {s' payload header deadline mid} (henc : r.codec.encode s = (s', .ok payload))
      (hread : Header.read payload = .ok header) (hfull : header.isDelta = false)
      (hdl : r.store.payloadDeadline payload now = .ok deadline) (hmid : Settled now r.store mid) :
      Writes r s now
        ({ r with
            store := mid.insert s'.id (.live payload (IndexKey.ofSession s r.indexable) deadline) },
          s', .ok ())
  /-- The changes were merged into the stored payload. -/
  | merged {s' delta header stored old payload deadline mid}
      (henc : r.codec.encode s = (s', .ok delta))
      (hread : Header.read delta = .ok header) (hdelta : header.isDelta = true)
      (hold : r.store.standing s'.id now = some (stored, old))
      (hmerge : r.store.mergeDelta s'.id stored delta now = .ok (payload, deadline))
      (hmid : Settled now r.store mid) :
      Writes r s now
        ({ r with
            store := mid.insert s'.id (.live payload (IndexKey.ofSession s r.indexable) deadline) },
          s', .ok ())
  /-- There was nothing to merge the changes into, and no full payload was produced. -/
  | unsent {s₁ s₂ delta e st} (henc : r.codec.encode s = (s₁, .ok delta))
      (hfull : r.codec.encodeFull s₁ = (s₂, .error e)) (hst : Settled now r.store st) :
      Writes r s now ({ r with store := st }, s₂, .error e)
  /-- There was nothing to merge the changes into, and the store did not take the full payload. -/
  | unresent {s₁ s₂ delta payload e st} (henc : r.codec.encode s = (s₁, .ok delta))
      (hfull : r.codec.encodeFull s₁ = (s₂, .ok payload)) (hst : Settled now r.store st) :
      Writes r s now ({ r with store := st }, s₂, .error e)
  /-- There was nothing to merge the changes into, and the whole record was stored. -/
  | resent {s₁ s₂ delta payload deadline mid} (henc : r.codec.encode s = (s₁, .ok delta))
      (hnone : r.store.standing s₁.id now = none)
      (hfull : r.codec.encodeFull s₁ = (s₂, .ok payload))
      (hdl : r.store.payloadDeadline payload now = .ok deadline) (hmid : Settled now r.store mid) :
      Writes r s now
        ({ r with
            store := mid.insert s₂.id (.live payload (IndexKey.ofSession s r.indexable) deadline) },
          s₂, .ok ())

lemma resend_cases {s₁ : Session} {delta : Bytes} {st : Store}
    (henc : r.codec.encode s = (s₁, .ok delta)) (hnone : r.store.standing s₁.id now = none)
    (hst : Settled now r.store st) :
    Writes r s now
      (resend { r with store := st } s₁ (IndexKey.ofSession s r.indexable) now) := by
  unfold resend
  simp only
  split
  next s₂ e hfull => exact .unsent henc hfull hst
  next s₂ payload hfull =>
    unfold putPayload
    simp only
    cases hp : st.put s₂.id payload (IndexKey.ofSession s r.indexable) now with
    | mk st' outcome =>
      rcases Store.put_cases hp with ⟨e, rfl, hset⟩ | ⟨deadline, mid, rfl, hdl, hmid, rfl⟩
      · exact .unresent henc hfull (hst.trans hset)
      · rw [Store.payloadDeadline_congr hst.settings] at hdl
        exact .resent henc hnone hfull hdl (hst.trans hmid)

/-- **Every way in which writing a record ends.** -/
theorem write_cases (r : Repository) (s : Session) (now : Time) :
    Writes r s now (r.write s now) := by
  unfold write
  simp only
  split
  next s' e henc => exact .unencoded henc
  next s' payload henc =>
    split
    next e hread => exact .refused henc (Settled.refl now r.store)
    next header hread =>
      by_cases hdelta : header.isDelta = true
      · simp only [hdelta, if_true]
        cases hp : r.store.putDelta s'.id payload (IndexKey.ofSession s r.indexable) now with
        | mk st outcome =>
          rcases Store.putDelta_cases hp with ⟨e, rfl, hst⟩ | ⟨rfl, hnone, hst⟩ |
            ⟨stored, old, merged, deadline, mid, rfl, hold, hmerge, hmid, rfl⟩
          · exact .refused henc hst
          · exact resend_cases henc hnone hst
          · exact .merged henc hread hdelta hold hmerge hmid
      · simp only [hdelta, if_false, Bool.false_eq_true, putPayload]
        cases hp : r.store.put s'.id payload (IndexKey.ofSession s r.indexable) now with
        | mk st outcome =>
          rcases Store.put_cases hp with ⟨e, rfl, hst⟩ | ⟨deadline, mid, rfl, hdl, hmid, rfl⟩
          · exact .refused henc hst
          · exact .whole henc hread (by simpa using hdelta) hdl hmid

/-- The ways in which a save can end. -/
inductive Saves (r : Repository) (s : Session) (now : Time) :
    Repository × Session × Except Fault Unit → Prop
  | ended (hend : s.phase.isEnded = true) :
      Saves r s now (r, s, .error (.ended s.id.text s.phase))
  /-- The record was found idle past its interval. -/
  | expired (hopen : s.phase.isEnded = false) (hnew : s.phase ≠ .new)
      (hidle : s.isExpired now = true) :
      Saves r s now (r.delete s.id, { s with phase := .expired }, .ok ())
  /-- There was nothing to write. -/
  | skipped (hopen : s.phase.isEnded = false) (hlive : s.isExpired now = false)
      (hdelta : s.hasDelta = false) (hfull : s.needsFullWrite = false) :
      Saves r s now (r, s, .ok ())
  /-- The record was written, or tried to be. -/
  | written {outcome} (hopen : s.phase.isEnded = false)
      (hlive : s.phase = .new ∨ s.isExpired now = false)
      (hdue : s.hasDelta = true ∨ s.needsFullWrite = true)
      (hwrite : Writes (r.vacate s) s now outcome) : Saves r s now outcome

/-- **Every way in which a save ends.** -/
theorem save_cases (r : Repository) (s : Session) (now : Time) : Saves r s now (r.save s now) := by
  unfold save
  by_cases hend : s.phase.isEnded = true
  · rw [if_pos hend]
    exact .ended hend
  · rw [if_neg hend]
    have hopen : s.phase.isEnded = false := by simpa using hend
    by_cases hidle : s.phase ≠ .new ∧ s.isExpired now = true
    · rw [if_pos hidle]
      exact .expired hopen hidle.1 hidle.2
    · rw [if_neg hidle]
      have hlive : s.phase = .new ∨ s.isExpired now = false := by
        by_cases hnew : s.phase = .new
        · exact .inl hnew
        · exact .inr (by simpa [hnew] using hidle)
      by_cases hskip : ¬s.hasDelta = true ∧ ¬s.needsFullWrite = true
      · rw [if_pos hskip]
        have hfull : s.needsFullWrite = false := by simpa using hskip.2
        have hnew : s.phase ≠ .new := by
          intro hnew
          simp [Session.needsFullWrite, hnew] at hfull
        exact .skipped hopen (hlive.resolve_left hnew) (by simpa using hskip.1) hfull
      · rw [if_neg hskip]
        refine .written hopen hlive ?_ (write_cases (r.vacate s) s now)
        by_cases hd : s.hasDelta = true
        · exact .inl hd
        · exact .inr (by simpa [hd] using hskip)

/-- A save of the record ends before a payload is produced. -/
def NoPayload (r : Repository) (s : Session) : Prop :=
  s.phase.isEnded = true ∨ ∃ e, (r.codec.encode s).2 = .error e

/-- Two repositories that differ in the entries of their stores at most. -/
structure SetUpAs (r r' : Repository) : Prop where
  repo : r' = { r with store := r'.store }
  store : r'.store.settings = r.store.settings

namespace SetUpAs

variable {r' : Repository}

lemma refl (r : Repository) : SetUpAs r r := ⟨rfl, rfl⟩

lemma trans {r'' : Repository} (h : SetUpAs r r') (h' : SetUpAs r' r'') : SetUpAs r r'' where
  repo := by rw [h'.repo, h.repo]
  store := h'.store.trans h.store

lemma settled {st : Store} (hst : Settled now r.store st) : SetUpAs r { r with store := st } :=
  ⟨rfl, hst.settings⟩

lemma inserted {mid : Store} (hmid : Settled now r.store mid) (id : Ident) (e : Entry) :
    SetUpAs r { r with store := mid.insert id e } :=
  ⟨rfl, hmid.settings⟩

lemma codec (h : SetUpAs r r') : r'.codec = r.codec := by rw [h.repo]

lemma indexable (h : SetUpAs r r') : r'.indexable = r.indexable := by rw [h.repo]

lemma rule (h : SetUpAs r r') : r'.rule = r.rule := by rw [h.repo]

lemma storeCodec (h : SetUpAs r r') : r'.store.codec = r.store.codec := congrArg Prod.fst h.store

lemma hook (h : SetUpAs r r') : r'.store.hook = r.store.hook := congrArg (·.2.1) h.store

end SetUpAs

lemma setUpAs_delete (r : Repository) (id : Ident) : SetUpAs r (r.delete id) := ⟨rfl, rfl⟩

lemma setUpAs_vacate (r : Repository) (s : Session) : SetUpAs r (r.vacate s) := by
  unfold vacate
  split
  · exact setUpAs_delete r _
  · exact .refl r

lemma commit_phase_ne_expired (hopen : s.phase.isEnded = false) : s.commit.phase ≠ .expired := by
  cases hp : s.phase with
  | new => simp [Session.commit, hp]
  | persisted => simp [Session.commit, hp]
  | expired => rw [hp] at hopen; cases hopen
  | deleted => rw [hp] at hopen; cases hopen

/-! ### Removing and loading -/

lemma standing_delete (r : Repository) (id other : Ident) (later : Time) :
    (r.delete id).store.standing other later =
      if id = other then none else r.store.standing other later :=
  Store.standing_remove id other

lemma standing_vacate (r : Repository) (s : Session) (id : Ident) (later : Time) :
    (r.vacate s).store.standing id later =
      if s.previous = some id then none else r.store.standing id later := by
  unfold vacate
  split
  next previous hp => rw [standing_delete, hp]; simp
  next hp => rw [hp]; simp

/-- The ways in which loading a session can end. -/
inductive Loads (r : Repository) (id : Ident) (now : Time) :
    Repository × Except Fault (Option Session) → Prop
  | absent {st} (hnone : r.store.standing id now = none) (hst : Settled now r.store st) :
      Loads r id now ({ r with store := st }, .ok none)
  | unreadable {payload deadline e st} (hsome : r.store.standing id now = some (payload, deadline))
      (hdec : r.codec.decode payload = .error e) (hst : Settled now r.store st) :
      Loads r id now ({ r with store := st }, .error e)
  /-- The stored session is idle past its interval, and removed. -/
  | idle {payload deadline s st} (hsome : r.store.standing id now = some (payload, deadline))
      (hdec : r.codec.decode payload = .ok s) (hidle : s.isExpired now = true)
      (hst : Settled now r.store st) :
      Loads r id now (delete { r with store := st } id, .ok none)
  | found {payload deadline s st} (hsome : r.store.standing id now = some (payload, deadline))
      (hdec : r.codec.decode payload = .ok s) (hlive : s.isExpired now = false)
      (hst : Settled now r.store st) :
      Loads r id now ({ r with store := st }, .ok (some (s.withRule r.rule)))

/-- **Every way in which loading a session ends.** -/
theorem load_cases (r : Repository) (id : Ident) (now : Time) : Loads r id now (r.load id now) := by
  have hst := Store.settled_get now r.store id
  have hsnd := Store.get_snd r.store id now
  unfold load
  cases hg : r.store.get id now with
  | mk st payload? =>
    rw [hg] at hst hsnd
    simp only at hst hsnd
    cases hs : r.store.standing id now with
    | none =>
      rw [hs] at hsnd
      subst hsnd
      exact .absent hs hst
    | some x =>
      obtain ⟨payload, deadline⟩ := x
      rw [hs] at hsnd
      subst hsnd
      simp only [Option.map_some]
      cases hdec : r.codec.decode payload with
      | error e => exact .unreadable hs hdec hst
      | ok s =>
        have hrule : (s.withRule r.rule).isExpired now = s.isExpired now := rfl
        simp only [hrule]
        cases hidle : s.isExpired now with
        | true => exact .idle hs hdec hidle hst
        | false => exact .found hs hdec hidle hst

lemma find_snd (r : Repository) (id : Ident) (now : Time) :
    (r.find id now).2 = (r.load id now).2.map (·.map (·.touch now)) :=
  rfl

lemma find_of_none {id : Ident} (h : r.store.standing id now = none) :
    (r.find id now).2 = .ok none := by
  rw [find_snd]
  have hcases := load_cases r id now
  generalize r.load id now = outcome at hcases
  cases hcases with
  | absent _ _ => rfl
  | unreadable hsome _ _ => rw [h] at hsome; cases hsome
  | idle hsome _ _ _ => rw [h] at hsome; cases hsome
  | found hsome _ _ _ => rw [h] at hsome; cases hsome

lemma find_of_decoded {id : Ident} {payload : Bytes} {due : Option (Time × Action)} {t : Session}
    (h : r.store.standing id now = some (payload, due)) (hdec : r.codec.decode payload = .ok t) :
    ∃ st : Store, r.find id now =
      if t.isExpired now then (delete { r with store := st } id, .ok none)
      else ({ r with store := st }, .ok (some ((t.withRule r.rule).touch now))) := by
  have hcases := load_cases r id now
  have hfind : r.find id now =
      ((r.load id now).1, (r.load id now).2.map (·.map (·.touch now))) := rfl
  rw [hfind]
  generalize r.load id now = outcome at hcases
  cases hcases with
  | absent hnone _ => rw [h] at hnone; cases hnone
  | unreadable hsome herror _ =>
    obtain ⟨rfl, -⟩ := Prod.mk.inj (Option.some.inj (h.symm.trans hsome))
    rw [hdec] at herror
    cases herror
  | @idle _ _ _ st hsome hread hidle _ =>
    obtain ⟨rfl, -⟩ := Prod.mk.inj (Option.some.inj (h.symm.trans hsome))
    obtain rfl := Except.ok.inj (hdec.symm.trans hread)
    exact ⟨st, (if_pos hidle).symm⟩
  | @found _ _ _ st hsome hread hlive _ =>
    obtain ⟨rfl, -⟩ := Prod.mk.inj (Option.some.inj (h.symm.trans hsome))
    obtain rfl := Except.ok.inj (hdec.symm.trans hread)
    exact ⟨st, (if_neg (by simp [hlive])).symm⟩

lemma find_of_standing {id : Ident} {payload : Bytes} {due : Option (Time × Action)}
    (h : r.store.standing id now = some (payload, due)) :
    (r.find id now).2 = (r.codec.decode payload).map fun t =>
      if t.isExpired now then none else some ((t.withRule r.rule).touch now) := by
  rw [find_snd]
  have hcases := load_cases r id now
  generalize r.load id now = outcome at hcases
  cases hcases with
  | absent hnone _ => rw [h] at hnone; cases hnone
  | unreadable hsome hdec _ =>
    obtain ⟨rfl, rfl⟩ := Prod.mk.inj (Option.some.inj (h.symm.trans hsome))
    rw [hdec]
    rfl
  | idle hsome hdec hidle _ =>
    obtain ⟨rfl, rfl⟩ := Prod.mk.inj (Option.some.inj (h.symm.trans hsome))
    rw [hdec, Except.map, Except.map, hidle]
    rfl
  | found hsome hdec hlive _ =>
    obtain ⟨rfl, rfl⟩ := Prod.mk.inj (Option.some.inj (h.symm.trans hsome))
    rw [hdec, Except.map, Except.map, hlive]
    rfl

/-- An entry gives its record out until its deadline, as long as the record is not idle. -/
lemma find_of_entry {id : Ident} {payload : Bytes} {keys : List IndexKey}
    {due : Option (Time × Action)} {t : Session}
    (hst : r.store.standing id now = (Entry.live payload keys due).standing now)
    (hdec : r.codec.decode payload = .ok t) :
    ∃ found, (r.find id now).2 = .ok found ∧
      (found.isSome = true ↔
        (∀ time, due.map Prod.fst = some time → now < time) ∧ t.isExpired now = false) ∧
      ∀ u, found = some u → u = (t.withRule r.rule).touch now := by
  rw [Entry.standing_live] at hst
  rw [← Entry.isExpired_live_eq_false payload keys]
  cases hlate : (Entry.live payload keys due).isExpired now with
  | true =>
    rw [hlate] at hst
    refine ⟨none, find_of_none hst, by simp, fun u hu => ?_⟩
    cases hu
  | false =>
    rw [hlate] at hst
    rw [find_of_standing hst, hdec]
    cases hidle : t.isExpired now with
    | true =>
      refine ⟨none, by simp [Except.map, hidle], by simp, fun u hu => ?_⟩
      cases hu
    | false =>
      refine ⟨some ((t.withRule r.rule).touch now), by simp [Except.map, hidle], by simp, ?_⟩
      intro u hu
      exact (Option.some.inj hu).symm

lemma find_snd_congr {r₁ r₂ : Repository} {id : Ident} (hcodec : r₁.codec = r₂.codec)
    (hrule : r₁.rule = r₂.rule) (hst : r₁.store.standing id now = r₂.store.standing id now) :
    (r₁.find id now).2 = (r₂.find id now).2 := by
  cases h : r₂.store.standing id now with
  | none => rw [find_of_none (hst.trans h), find_of_none h]
  | some x => rw [find_of_standing (hst.trans h), find_of_standing h, hcodec, hrule]

/-! ### What no step changes -/

lemma Writes.setUpAs {outcome : Repository × Session × Except Fault Unit}
    (h : Writes r s now outcome) : SetUpAs r outcome.1 := by
  cases h with
  | unencoded _ => exact .refl r
  | refused _ hst => exact .settled hst
  | whole _ _ _ _ hmid => exact .inserted hmid _ _
  | merged _ _ _ _ _ hmid => exact .inserted hmid _ _
  | unsent _ _ hst => exact .settled hst
  | unresent _ _ hst => exact .settled hst
  | resent _ _ _ _ hmid => exact .inserted hmid _ _

lemma setUpAs_save (r : Repository) (s : Session) (now : Time) : SetUpAs r (r.save s now).1 := by
  have hcases := save_cases r s now
  generalize r.save s now = outcome at hcases
  cases hcases with
  | ended _ => exact .refl r
  | expired _ _ _ => exact setUpAs_delete r s.id
  | skipped _ _ _ _ => exact .refl r
  | written _ _ _ hwrite => exact (setUpAs_vacate r s).trans hwrite.setUpAs

lemma setUpAs_load (r : Repository) (id : Ident) (now : Time) : SetUpAs r (r.load id now).1 := by
  have hcases := load_cases r id now
  generalize r.load id now = outcome at hcases
  cases hcases with
  | absent _ hst => exact .settled hst
  | unreadable _ _ hst => exact .settled hst
  | idle _ _ _ hst => exact (SetUpAs.settled hst).trans (setUpAs_delete _ id)
  | found _ _ _ hst => exact .settled hst

/-! ### Live entries -/

lemma live_delete {id other : Ident} {e : Entry} (h : (r.delete id).store.find? other = some e) :
    r.store.find? other = some e := by
  unfold delete at h
  rw [Store.find?_remove] at h
  split at h
  · cases h
  · exact h

lemma live_vacate {id : Ident} {e : Entry} (h : (r.vacate s).store.find? id = some e) :
    r.store.find? id = some e := by
  unfold vacate at h
  split at h
  · exact live_delete h
  · exact h

lemma live_load {id other : Ident} {payload : Bytes} {keys : List IndexKey}
    {due : Option (Time × Action)}
    (h : (r.load id now).1.store.find? other = some (.live payload keys due)) :
    r.store.find? other = some (.live payload keys due) := by
  have hcases := load_cases r id now
  generalize r.load id now = outcome at hcases h
  cases hcases with
  | absent _ hst => exact hst.live other payload keys due h
  | unreadable _ _ hst => exact hst.live other payload keys due h
  | idle _ _ _ hst => exact hst.live other payload keys due (live_delete h)
  | found _ _ _ hst => exact hst.live other payload keys due h

end Repository

/-! ### A sample -/

namespace Sample

def start : Time := ⟨1700000000000000000, by decide⟩

def seconds (n : Nat) (h : n < 1000) : Time :=
  ⟨start.nanos + n * 1000000000, by
    have hstart : start.nanos = 1700000000000000000 := rfl
    omega⟩

def reader : Hook := ⟨.idle ⟨some (.ofSeconds 60), .destroy⟩, some .binary⟩

def repository (hook : Option Hook) : Repository :=
  .create (.create .binary hook none .zero start) .binary

def record : Session := .create ⟨"x"⟩ start .deltaCapable

/-- The repository after the record was saved for the first time. -/
def stored (hook : Option Hook) : Repository := ((repository hook).save record start).1

def saved : Session := ((repository none).save record start).2.1

def rotated : Session := saved.rotate ⟨"y"⟩

def withValue (s : Session) (value : Json) : Session :=
  match s.setAttribute "k" value with
  | .ok (s, _) => s
  | .error _ => s

end Sample

end Sessions
