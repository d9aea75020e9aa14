import Sessions.Proofs.Codec.BuiltIn
import Sessions.Proofs.Repository.Steps

/-!
# What a save stores

A save that writes puts one payload under the record's id: the record's own, whole, or that of what
stands there with the changes merged into it. The rest of the store keeps what it holds or loses it.

Over the codecs of this library such a payload is read again, so a store that holds every record
under its own id (`Store.InPlace`) goes on to do so.
-/

namespace Sessions

open Store (Settled)

namespace Repository

variable {r : Repository} {s : Session} {now : Time}

/-- The payloads, each with its deadline, that a save of a record may put under the record's id. -/
inductive Puts (r : Repository) (s : Session) (now : Time) (payload : Bytes)
    (due : Option (Time × Action)) : Prop
  | whole {header} (henc : r.codec.encode s = (s.commit, .ok payload))
      (hread : Header.read payload = .ok header) (hfull : header.isDelta = false)
      (hdl : r.store.payloadDeadline payload now = .ok due)
  | merged {delta header stored old} (henc : r.codec.encode s = (s.commit, .ok delta))
      (hread : Header.read delta = .ok header) (hdelta : header.isDelta = true)
      (hold : (r.vacate s).store.standing s.id now = some (stored, old))
      (hmerge : r.store.mergeDelta s.id stored delta now = .ok (payload, due))
  /-- There was nothing to merge the changes into. -/
  | resent {delta} (henc : r.codec.encode s = (s.commit, .ok delta))
      (hnone : (r.vacate s).store.standing s.id now = none)
      (hfull : r.codec.encodeFull s.commit = (s.commit, .ok payload))
      (hdl : r.store.payloadDeadline payload now = .ok due)

/-- The ways in which a save can end, told by what becomes of the store and the record. -/
inductive Storing (r : Repository) (s : Session) (now : Time) :
    Repository × Session × Except Fault Unit → Prop
  | ended {e} (hend : s.phase.isEnded = true) : Storing r s now (r, s, .error e)
  /-- Nothing was stored; a payload may have been produced. -/
  | failed {s' e st} (hst : Settled now (r.vacate s).store st) (hs' : s' = s ∨ s' = s.commit) :
      Storing r s now ({ r with store := st }, s', .error e)
  /-- The record was found idle past its interval. -/
  | idle (hopen : s.phase.isEnded = false) (hnew : s.phase ≠ .new)
      (hidle : s.isExpired now = true) :
      Storing r s now (r.delete s.id, { s with phase := .expired }, .ok ())
  /-- There was nothing to write. -/
  | skipped (hopen : s.phase.isEnded = false) (hlive : s.isExpired now = false)
      (hdelta : s.hasDelta = false) (hfull : s.needsFullWrite = false) :
      Storing r s now (r, s, .ok ())
  | stored {payload due mid} (hopen : s.phase.isEnded = false)
      (hlive : s.phase = .new ∨ s.isExpired now = false)
      (hdue : s.hasDelta = true ∨ s.needsFullWrite = true)
      (hmid : Settled now (r.vacate s).store mid) (hputs : Puts r s now payload due) :
      Storing r s now
        ({ r with store := mid.insert s.id (.live payload (IndexKey.ofSession s r.indexable) due) },
          s.commit, .ok ())

/-- **Every way in which a save over a lawful codec ends.** -/
theorem storing_save (hlaw : r.codec.Lawful) (s : Session) (now : Time) :
    Storing r s now (r.save s now) := by
  have hcases := save_cases r s now
  generalize r.save s now = outcome at hcases
  cases hcases with
  | ended hend => exact .ended hend
  | expired hopen hnew hidle => exact .idle hopen hnew hidle
  | skipped hopen hlive hdelta hfull => exact .skipped hopen hlive hdelta hfull
  | written hopen hlive hdue hwrite =>
    have hvacated := setUpAs_vacate r s
    have hcodec : (r.vacate s).codec = r.codec := hvacated.codec
    have hindexable : (r.vacate s).indexable = r.indexable := hvacated.indexable
    have hshape : ∀ st : Store, { r.vacate s with store := st } = { r with store := st } := by
      intro st
      rw [hvacated.repo]
    have hcommit : s.commit.id = s.id := rfl
    cases hwrite with
    | unencoded henc =>
      rw [hcodec] at henc
      obtain rfl := hlaw.encode_error henc
      rw [hvacated.repo]
      exact .failed (Settled.refl now _) (.inl rfl)
    | refused henc hst =>
      rw [hcodec] at henc
      rw [hshape]
      exact .failed hst (.inr (hlaw.encode_ok henc))
    | whole henc hread hheader hdl hmid =>
      rw [hcodec] at henc
      rw [Store.payloadDeadline_congr hvacated.store] at hdl
      obtain rfl := hlaw.encode_ok henc
      rw [hshape, hindexable, hcommit]
      exact .stored hopen hlive hdue hmid (.whole henc hread hheader hdl)
    | merged henc hread hheader hold hmerge hmid =>
      rw [hcodec] at henc
      rw [Store.mergeDelta_congr hvacated.store] at hmerge
      obtain rfl := hlaw.encode_ok henc
      rw [hshape, hindexable, hcommit]
      exact .stored hopen hlive hdue hmid (.merged henc hread hheader hold hmerge)
    | unsent henc hfull hst =>
      rw [hcodec] at henc hfull
      obtain rfl := hlaw.encodeFull_error hfull
      rw [hshape]
      exact .failed hst (.inr (hlaw.encode_ok henc))
    | unresent henc hfull hst =>
      rw [hcodec] at henc hfull
      rw [hshape]
      refine .failed hst (.inr ?_)
      rw [hlaw.encodeFull_ok hfull, hlaw.encode_ok henc, Session.commit_commit]
    | resent henc hnone hfull hdl hmid =>
      rw [hcodec] at henc hfull
      rw [Store.payloadDeadline_congr hvacated.store] at hdl
      obtain rfl := hlaw.encode_ok henc
      obtain rfl := hlaw.encodeFull_ok hfull
      rw [hshape, hindexable, Session.commit_commit, hcommit]
      rw [Session.commit_commit] at hfull
      exact .stored hopen hlive hdue hmid (.resent henc hnone hfull hdl)

/-- A save that ends with the record stored: it succeeds, and there was something to write. -/
def Lands (r : Repository) (s : Session) (now : Time) : Prop :=
  (r.save s now).2.2 = .ok () ∧ (r.save s now).2.1.phase ≠ .expired ∧
    (s.hasDelta = true ∨ s.needsFullWrite = true)

instance (r : Repository) (s : Session) (now : Time) : Decidable (r.Lands s now) := by
  unfold Lands
  infer_instance

/-- What is stored when a save lands. Then the record has not ended and is not idle. -/
lemma Lands.exists_puts (h : r.Lands s now) (hlaw : r.codec.Lawful) :
    s.phase.isEnded = false ∧ (s.phase = .new ∨ s.isExpired now = false) ∧
      ∃ payload due mid, Settled now (r.vacate s).store mid ∧ Puts r s now payload due ∧
        (r.save s now).1 =
          { r with
            store := mid.insert s.id (.live payload (IndexKey.ofSession s r.indexable) due) } := by
  obtain ⟨hok, hlive, hdue⟩ := h
  have hstoring := storing_save hlaw s now
  generalize r.save s now = saved at hstoring hok hlive
  cases hstoring with
  | ended _ => cases hok
  | failed _ _ => cases hok
  | idle _ _ _ => exact absurd rfl hlive
  | skipped _ _ hdelta hfull => simp [hdelta, hfull] at hdue
  | stored hopen hfresh _ hmid hputs => exact ⟨hopen, hfresh, _, _, _, hmid, hputs, rfl⟩

/-- **What a save makes of the record**: nothing, or it is committed, or, found idle, it has
expired. -/
theorem session_save (hlaw : r.codec.Lawful) (s : Session) (now : Time) :
    (r.save s now).2.1 = s ∨ (r.save s now).2.1 = s.commit ∨
      s.isExpired now = true ∧ (r.save s now).2.1 = { s with phase := .expired } := by
  have hstoring := storing_save hlaw s now
  generalize r.save s now = outcome at hstoring
  cases hstoring with
  | ended _ => exact .inl rfl
  | failed _ hs' => exact hs'.imp_right .inl
  | idle _ _ hidle => exact .inr (.inr ⟨hidle, rfl⟩)
  | skipped _ _ _ _ => exact .inl rfl
  | stored _ _ _ _ _ => exact .inr (.inl rfl)

lemma vacate_of_full (h : s.needsFullWrite = false) : r.vacate s = r := by
  obtain ⟨-, hprevious⟩ := Bool.or_eq_false_iff.1 h
  have hnone : s.previous = none := by simpa using hprevious
  rw [vacate, hnone]

/-- **What a save can do to the entries**: a live one was there before, or was put by the save,
which landed. -/
theorem live_save (hlaw : r.codec.Lawful) (s : Session) (now : Time) {id : Ident} {payload : Bytes}
    {keys : List IndexKey} {due : Option (Time × Action)}
    (hlive : (r.save s now).1.store.find? id = some (.live payload keys due)) :
    r.store.find? id = some (.live payload keys due) ∨
      s.id = id ∧ r.Lands s now ∧ Puts r s now payload due := by
  have hstoring := storing_save hlaw s now
  unfold Lands
  generalize r.save s now = saved at hstoring hlive ⊢
  cases hstoring with
  | ended _ => exact .inl hlive
  | failed hst _ => exact .inl (live_vacate (hst.live id payload keys due hlive))
  | idle _ _ _ => exact .inl (live_delete hlive)
  | skipped _ _ _ _ => exact .inl hlive
  | stored hopen _ hdue hmid hputs =>
    rw [Store.find?_insert] at hlive
    split at hlive
    next hid =>
      obtain ⟨rfl, -, rfl⟩ := Entry.live.inj (Option.some.inj hlive)
      exact .inr ⟨hid, ⟨rfl, commit_phase_ne_expired hopen, hdue⟩, hputs⟩
    next => exact .inl (live_vacate (hmid.live id payload keys due hlive))

/-! ### What stands meanwhile -/

lemma standing_load {id : Ident} {payload : Bytes} {due : Option (Time × Action)} {t : Session}
    (hst : r.store.standing id now = some (payload, due)) (hdec : r.codec.decode payload = .ok t)
    (hlive : t.isExpired now = false) (other : Ident) :
    (r.load other now).1.store.standing id now = some (payload, due) := by
  have hkept : ∀ {st : Store}, Settled now r.store st →
      st.standing id now = some (payload, due) :=
    fun hsettled => (hsettled.kept id now (Time.le_refl now)).trans hst
  have hcases := load_cases r other now
  generalize r.load other now = outcome at hcases
  cases hcases with
  | absent _ hsettled => exact hkept hsettled
  | unreadable _ _ hsettled => exact hkept hsettled
  | found _ _ _ hsettled => exact hkept hsettled
  | idle hsome hread hidle hsettled =>
    have hne : other ≠ id := by
      rintro rfl
      obtain ⟨rfl, -⟩ := Prod.mk.inj (Option.some.inj (hst.symm.trans hsome))
      obtain rfl := Except.ok.inj (hdec.symm.trans hread)
      rw [hlive] at hidle
      cases hidle
    rw [standing_delete, if_neg hne]
    exact hkept hsettled

lemma standing_save (hlaw : r.codec.Lawful) {id : Ident} {payload : Bytes}
    {due : Option (Time × Action)} (hst : r.store.standing id now = some (payload, due))
    (hprevious : s.previous ≠ some id)
    (hother : s.id = id → s.isExpired now = false ∧ ¬r.Lands s now) :
    (r.save s now).1.store.standing id now = some (payload, due) := by
  have hkept : ∀ {st : Store}, Settled now (r.vacate s).store st →
      st.standing id now = some (payload, due) := by
    intro st hsettled
    rw [hsettled.kept id now (Time.le_refl now), standing_vacate, if_neg hprevious, hst]
  unfold Lands at hother
  have hstoring := storing_save hlaw s now
  generalize r.save s now = saved at hstoring hother
  cases hstoring with
  | ended _ => exact hst
  | failed hsettled _ => exact hkept hsettled
  | skipped _ _ _ _ => exact hst
  | idle _ _ hidle =>
    have hne : s.id ≠ id := by
      intro heq
      rw [(hother heq).1] at hidle
      cases hidle
    rw [standing_delete, if_neg hne, hst]
  | stored hopen _ hdue hsettled _ =>
    have hne : s.id ≠ id := fun heq =>
      (hother heq).2 ⟨rfl, commit_phase_ne_expired hopen, hdue⟩
    rw [Store.standing_insert, if_neg hne]
    exact hkept hsettled

end Repository

/-! ## Records in their places -/

/-- Each live entry of a store holds a record with the id that it is kept under, which satisfies
`Q`. -/
def Store.InPlace (c : Codec) (Q : Session → Prop) (st : Store) : Prop :=
  ∀ id payload keys due, st.find? id = some (.live payload keys due) →
    ∃ t, c.ReadsAs payload t ∧ t.id = id ∧ Q t

/-- What holds of records and lasts when they are stored with a codec and read again. -/
structure Codec.Lasts (c : Codec) (Q : Session → Prop) : Prop where
  storable : ∀ s, Q s → s.Storable c.depthLimit ∧ s.kind = c.recordKind
  commit : ∀ s, Q s → Q s.commit
  reloaded : ∀ s, Q s → Q s.echoed.reloaded
  patched : ∀ base s, Q base → Q s → base.id = s.id → Q (base.patched s.echoed)

section

variable {c : Codec} {Q : Session → Prop} {r : Repository} {s : Session} {now : Time}

lemma Store.InPlace.standing {st : Store} (h : st.InPlace c Q) {id : Ident} {payload : Bytes}
    {due : Option (Time × Action)} (hst : st.standing id now = some (payload, due)) :
    ∃ t, c.ReadsAs payload t ∧ t.id = id ∧ Q t := by
  obtain ⟨keys, hfind⟩ := Store.find?_of_standing hst
  exact h id payload keys due hfind

/-- **What a save puts into a store is read again**: the record that was saved, or what stood there
with the changes, each value as it comes back. -/
theorem Repository.Puts.readsAs (hc : c.BuiltIn) (hQ : c.Lasts Q) (hcodec : r.codec = c)
    (hstore : r.store.codec = c) (hin : r.store.InPlace c Q) (hs : Q s) {payload : Bytes}
    {due : Option (Time × Action)} (h : Puts r s now payload due) :
    c.ReadsAs payload s.echoed.reloaded ∨
      ∃ base, base.id = s.id ∧ Q base ∧
        c.ReadsAs payload (base.patched s.echoed).echoed.reloaded := by
  obtain ⟨hstorable, hkind⟩ := hQ.storable s hs
  cases h with
  | whole henc hread hfull _ =>
    rw [hcodec] at henc
    rcases hc.rereads.preferred hstorable hkind henc with hback | ⟨-, hup⟩
    · exact .inl hback
    · rw [hup.isDelta hread] at hfull
      cases hfull
  | @merged delta header stored old henc hread hdelta hold hmerge =>
    rw [hcodec] at henc
    rcases hc.rereads.preferred hstorable hkind henc with hback | ⟨⟨-, hneeds⟩, hup⟩
    · rw [hback.isDelta hread] at hdelta
      cases hdelta
    · -- a delta comes from a record with no previous id, so nothing was vacated
      rw [vacate_of_full hneeds] at hold
      obtain ⟨base, hbase, hid, hQbase⟩ := hin.standing hold
      obtain ⟨u, merged, hu, hmerged, -, hwritten⟩ := Store.exists_of_mergeDelta hmerge
      rw [hstore, hbase.decode] at hu
      obtain rfl := Except.ok.inj hu
      rw [hstore, hup.1 base hid] at hmerged
      obtain ⟨rfl, -⟩ := Prod.mk.inj hmerged
      rw [hstore] at hwritten
      obtain ⟨hstored, hstoredKind⟩ := hQ.storable _ (hQ.patched base s hQbase hs hid)
      exact .inr ⟨base, hid, hQbase,
        hc.rereads.whole hstored hstoredKind (Prod.ext rfl hwritten)⟩
  | resent _ _ hfull _ =>
    rw [hcodec] at hfull
    obtain ⟨hcommitted, hcommittedKind⟩ := hQ.storable _ (hQ.commit s hs)
    have hback : c.ReadsAs payload s.commit.echoed.reloaded :=
      hc.rereads.whole hcommitted hcommittedKind hfull
    exact .inl hback

/-- What a save puts into a store is in its place. -/
theorem Repository.Puts.inPlace (hc : c.BuiltIn) (hQ : c.Lasts Q) (hcodec : r.codec = c)
    (hstore : r.store.codec = c) (hin : r.store.InPlace c Q) (hs : Q s) {payload : Bytes}
    {due : Option (Time × Action)} (h : Puts r s now payload due) :
    ∃ t, c.ReadsAs payload t ∧ t.id = s.id ∧ Q t := by
  rcases h.readsAs hc hQ hcodec hstore hin hs with hback | ⟨base, hid, hbase, hback⟩
  · exact ⟨_, hback, rfl, hQ.reloaded s hs⟩
  · exact ⟨_, hback, hid, hQ.reloaded _ (hQ.patched base s hbase hs hid)⟩

end

end Sessions
