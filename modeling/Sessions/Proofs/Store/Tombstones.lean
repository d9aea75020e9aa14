import Sessions.Proofs.Store.Records

/-!
# Tombstones and sweeps

A sweep leaves no live entry behind its deadline and no tombstone that has been kept for the
retention time, and nothing else is changed by it (`Swept`). Sweeps come with every call that may
sweep, when the last one was a minute ago (`lastSweep`). A tombstone was left by an entry whose
action was to invalidate, when a call dealt with it behind its deadline, and it stays from then on
until its id is removed or written again, or a sweep finds that it was kept long enough.
-/

namespace Sessions

namespace Store

variable {st : Store} {now : Time}

/-! ## What a sweep leaves -/

/-- Exactly what a sweep does. -/
structure Swept (now : Time) (st swept : Store) : Prop where
  /-- No live entry is past its deadline. -/
  live : ∀ id payload keys due action,
    swept.find? id = some (.live payload keys (some (due, action))) → now < due
  destroyed : ∀ id payload keys due,
    st.find? id = some (.live payload keys (some (due, .destroy))) → due ≤ now →
      swept.find? id = none
  invalidated : ∀ id payload keys due,
    st.find? id = some (.live payload keys (some (due, .invalidate))) → due ≤ now →
      swept.find? id = if st.retention ≤ .zero then none else some (.tombstone now)
  spent : ∀ id since, st.find? id = some (.tombstone since) → st.retention ≤ now.since since →
    swept.find? id = none
  kept : ∀ id, (∀ e, st.find? id = some e →
    e.isExpired now = false ∧ e.isSpent now st.retention = false) → swept.find? id = st.find? id

lemma tended_sweep (st : Store) (now : Time) (id : Ident) :
    Tended now st.retention False True (st.find? id) ((st.sweep now).find? id) := by
  rw [find?_sweep]
  exact .sweep trivial _

lemma swept_sweep (st : Store) (now : Time) : Swept now st (st.sweep now) where
  live id payload keys due action hleft := by
    have htended := st.tended_sweep now id
    rw [hleft] at htended
    generalize st.find? id = held at htended
    cases htended with
    | kept hlive _ =>
      exact (Entry.isExpired_live_eq_false payload keys).1 (hlive (.inr trivial) _ rfl) due rfl
  destroyed id payload keys due hheld hdue := by
    have htended := st.tended_sweep now id
    rw [hheld] at htended
    generalize (st.sweep now).find? id = left at htended ⊢
    cases htended with
    | destroyed _ _ => rfl
    | kept hlive _ => simpa [Entry.isExpired, hdue] using hlive (.inr trivial) _ rfl
  invalidated id payload keys due hheld hdue := by
    have htended := st.tended_sweep now id
    rw [hheld] at htended
    generalize (st.sweep now).find? id = left at htended ⊢
    cases htended with
    | invalidated _ _ hretention =>
      have hpos : ¬st.retention ≤ .zero := Int.not_le.2 (hretention trivial)
      rw [if_neg hpos]
    | forgotten _ _ hretention => rw [if_pos hretention]
    | kept hlive _ => simpa [Entry.isExpired, hdue] using hlive (.inr trivial) _ rfl
  spent id since hheld hspent := by
    have htended := st.tended_sweep now id
    rw [hheld] at htended
    generalize (st.sweep now).find? id = left at htended ⊢
    cases htended with
    | dropped _ _ => rfl
    | kept _ hkept => simpa [Entry.isSpent, hspent] using hkept trivial _ rfl
  kept id hnot := by
    rcases (st.tended_sweep now id).eq_or_over with heq | ⟨e, hheld, hover, -⟩
    · exact heq
    · obtain ⟨hlive, hunspent⟩ := hnot e hheld
      simp [hlive, hunspent] at hover

/-! ## When a store sweeps -/

lemma tidy_of_sweeps (h : sweepInterval ≤ now.since st.sweptAt) : st.tidy now = st.sweep now := by
  rw [tidy_eq, if_pos h]

lemma tidy_sweep (st : Store) (now : Time) : (st.sweep now).tidy now = st.sweep now := by
  rw [tidy_eq, if_neg]
  change ¬sweepInterval.nanos ≤ now.nanos - now.nanos
  rw [Int.sub_self]
  decide

/-- **A call that sweeps goes on as it would after a sweep.** -/
theorem answer_of_sweeps {c : Call} (h : st.Sweeps now c) :
    st.answer now c = (st.sweep now).answer now c := by
  obtain ⟨hc, hswept⟩ := h
  have htidy : st.tidy now = (st.sweep now).tidy now := by
    rw [tidy_sweep, tidy_of_sweeps hswept]
  cases c with
  | get id => simp only [answer, get, htidy]
  | put id payload keys => simp only [answer, put, htidy]
  | putDelta id delta keys => simp only [answer, putDelta, htidy]
  | findByKey key => simp only [answer, findByKey, htidy]
  | remove id => cases hc
  | size => cases hc

lemma swept_retention_answer (st : Store) (now : Time) (c : Call) :
    (st.answer now c).1.sweptAt = (if st.Sweeps now c then now else st.sweptAt) ∧
      (st.answer now c).1.retention = st.retention := by
  have htidy : c.maySweep = true →
      (st.tidy now).sweptAt = (if st.Sweeps now c then now else st.sweptAt) ∧
        (st.tidy now).retention = st.retention := by
    intro hc
    simp only [Sweeps, hc, true_and, tidy_eq]
    split <;> exact ⟨rfl, rfl⟩
  have hlook : ∀ id, ((st.tidy now).livePayload id now).1.sweptAt = (st.tidy now).sweptAt ∧
      ((st.tidy now).livePayload id now).1.retention = (st.tidy now).retention := by
    intro id
    unfold livePayload
    split
    · exact ⟨rfl, rfl⟩
    · split <;> exact ⟨rfl, rfl⟩
  cases c with
  | get id =>
    obtain ⟨hswept, hretention⟩ := hlook id
    exact ⟨hswept.trans (htidy rfl).1, hretention.trans (htidy rfl).2⟩
  | put id payload keys =>
    rw [answer, put]
    cases (st.tidy now).payloadDeadline payload now <;> exact htidy rfl
  | putDelta id delta keys =>
    obtain ⟨hswept, hretention⟩ := hlook id
    have hmid := And.intro (hswept.trans (htidy rfl).1) (hretention.trans (htidy rfl).2)
    rw [answer, putDelta]
    generalize (st.tidy now).livePayload id now = looked at hmid ⊢
    obtain ⟨mid, found⟩ := looked
    cases found with
    | none => exact hmid
    | some stored =>
      simp only
      cases mid.mergeDelta id stored delta now <;> exact hmid
  | findByKey key => exact htidy rfl
  | remove id => exact ⟨rfl, rfl⟩
  | size => exact ⟨rfl, rfl⟩

end Store

namespace Moment

variable {m : Moment} {id : Ident} {turns : List Turn}

/-- When a store has swept last after some turns, if it had swept at a time before them. -/
def lastSweep (swept now : Time) : List Turn → Time
  | [] => swept
  | .clock time :: turns => lastSweep swept time turns
  | .call c :: turns =>
    lastSweep (if c.maySweep = true ∧ Store.sweepInterval ≤ now.since swept then now else swept)
      now turns

lemma sweptAt_run (m : Moment) (turns : List Turn) :
    (m.run turns).store.sweptAt = lastSweep m.store.sweptAt m.now turns := by
  induction turns generalizing m with
  | nil => rfl
  | cons e turns ih =>
    rw [run_cons, ih]
    cases e with
    | clock time => rfl
    | call c =>
      rw [lastSweep, turn, (m.store.swept_retention_answer m.now c).1]
      rfl

lemma retention_run (m : Moment) (turns : List Turn) :
    (m.run turns).store.retention = m.store.retention := by
  induction turns generalizing m with
  | nil => rfl
  | cons e turns ih =>
    rw [run_cons, ih]
    cases e with
    | clock time => rfl
    | call c => exact (m.store.swept_retention_answer m.now c).2

/-! ## Where tombstones come from -/

/-- The tombstone under an id was left when a call dealt with an entry that was to be invalidated,
past its deadline, and it has stayed since. -/
def LeftBehind (id : Ident) (since : Time) (m : Moment) (turns : List Turn) : Prop :=
  ∃ before c after payload keys due, turns = before ++ .call c :: after ∧
    (m.run before).store.find? id = some (.live payload keys (some (due, .invalidate))) ∧
    due ≤ since ∧ (m.run before).now = since ∧
    ((m.run before).turn (.call c)).store.find? id = some (.tombstone since) ∧
    Through (fun m e => (m.turn e).store.find? id = some (.tombstone since))
      ((m.run before).turn (.call c)) after

/-- A tombstone is left by an entry that was to be invalidated, or it was there already. -/
lemma invalidates_or_eq {e : Turn} {since : Time}
    (h : (m.turn e).store.find? id = some (.tombstone since)) :
    (∃ c payload keys due, e = .call c ∧ m.now = since ∧ due ≤ m.now ∧
      m.store.find? id = some (.live payload keys (some (due, .invalidate)))) ∨
      m.store.find? id = some (.tombstone since) := by
  cases e with
  | clock time => exact .inr h
  | call c =>
    have hfate := m.fate_turn c id
    rw [h] at hfate
    cases hfate with
    | tended _ _ htended =>
      generalize m.store.find? id = held at htended ⊢
      cases htended with
      | invalidated _ hdue _ => exact .inl ⟨c, _, _, _, rfl, rfl, hdue, rfl⟩
      | kept _ _ => exact .inr rfl

lemma leftBehind_of_tombstone (hm : m.store.find? id = none) {since : Time}
    (h : (m.run turns).store.find? id = some (.tombstone since)) :
    LeftBehind id since m turns := by
  obtain ⟨before, e, after, hturns, ⟨c, payload, keys, due, rfl, hnow, hdue, hheld⟩, hleft,
    hstays⟩ := exists_origin (P := fun m => m.store.find? id = some (.tombstone since))
      (fun m e hleft => (invalidates_or_eq hleft).imp_right fun hbefore => ⟨hbefore, hleft⟩)
      (by simp [hm]) h
  exact ⟨before, c, after, payload, keys, due, hturns, hheld, hnow ▸ hdue, hnow, hleft, hstays⟩

/-- A tombstone stays, unless its id is removed or written, or a sweep finds it kept for the
retention time. -/
lemma tombstone_stays {c : Call} {since : Time} (h : m.store.find? id = some (.tombstone since)) :
    (m.turn (.call c)).store.find? id = some (.tombstone since) ∨ c = .remove id ∨
      m.store.Writes m.now c id ∨
        m.store.Sweeps m.now c ∧ m.store.retention ≤ m.now.since since := by
  have hfate := m.fate_turn c id
  generalize (m.turn (.call c)).store.find? id = left at hfate ⊢
  cases hfate with
  | written hwrites => exact .inr (.inr (.inl hwrites))
  | removed hremove => exact .inr (.inl hremove)
  | tended _ _ htended =>
    rw [h] at htended
    cases htended with
    | dropped hswept hspent => exact .inr (.inr (.inr ⟨hswept, hspent⟩))
    | kept _ _ => exact .inl rfl

/-- **Tombstones and sweeps.** A store that writes the fields of its entries each on its own keeps,
through any run, the entries of the store: so one has no payload exactly when it was invalidated,
and then neither keys nor a deadline. A call that may sweep does so a minute after the last sweep,
and goes on with what the sweep leaves. A tombstone stays until it is removed, written over or swept
when it was kept for the retention time; and it stems from an entry that was to be invalidated. -/
theorem tombstones_exact (codec : Codec) (hook : Option Hook) (defaultExpiry : Option Expiry)
    (retention : Duration) (time : Time) (turns : List Turn) :
    let first := start codec hook defaultExpiry retention time
    let m := first.run turns
    (first.store.records.after time turns = m.store.records ∧
      ∀ id r, (first.store.records.after time turns).find? id = some r → r.Sound) ∧
    (∀ c : Call, c.maySweep = true →
      Store.sweepInterval ≤ m.now.since (lastSweep time time turns) →
        m.store.answer m.now c = (m.store.sweep m.now).answer m.now c ∧
          Store.Swept m.now m.store (m.store.sweep m.now)) ∧
    (∀ c id since, m.store.find? id = some (.tombstone since) →
      (m.turn (.call c)).store.find? id = some (.tombstone since) ∨ c = .remove id ∨
        m.store.Writes m.now c id ∨
          m.store.Sweeps m.now c ∧ max retention .zero ≤ m.now.since since) ∧
    ∀ id since, m.store.find? id = some (.tombstone since) → LeftBehind id since first turns := by
  intro first m
  have hrecords : m.store.records = first.store.records.after time turns := records_run first turns
  have hretention : m.store.retention = max retention .zero := retention_run first turns
  have hswept : m.store.sweptAt = lastSweep time time turns := sweptAt_run first turns
  refine ⟨⟨hrecords.symm, fun id r hfind => Store.sound_of_find?_records (hrecords ▸ hfind)⟩,
    fun c hc hlast => ⟨?_, m.store.swept_sweep m.now⟩, fun c id since h => ?_,
    fun id since h => leftBehind_of_tombstone rfl h⟩
  · exact Store.answer_of_sweeps ⟨hc, hswept ▸ hlast⟩
  · rw [← hretention]
    exact tombstone_stays h

end Moment

/-! ### Two sessions that lapse -/

namespace Sample

/-- A store that destroys a session after a hundred seconds, and invalidates it earlier if it has
been idle for a minute. Tombstones are kept for fifty seconds. -/
def watched : Moment :=
  .start .binary
    (some ⟨.fixed ⟨.ofSeconds 100, some ⟨some (.ofSeconds 60), .invalidate⟩, .destroy⟩,
      some .binary⟩) none (.ofSeconds 50) .epoch

def noon : Time := ⟨81000000000, by decide⟩

def dusk : Time := ⟨151000000000, by decide⟩

/-- A session that is as old as the other one, and was in use at noon. -/
def elder : Bytes :=
  (Binary.full ((Session.create ⟨"y"⟩ .epoch .deltaCapable).touch noon)).toOption.getD []

/-- One session is stored at first, and another one at noon, when the first has been idle. -/
def morning : List Turn :=
  [.call (.put ⟨"x"⟩ (fresh "x") []), .clock noon, .call (.put ⟨"y"⟩ elder [])]

def day : List Turn := morning ++ [.clock dusk]

end Sample

namespace Moment

open Sample

/-- At noon the first session leaves a tombstone. At dusk that is dropped by the sweep which
finds the other session, too old by then, and destroys it. -/
theorem tombstones_exact_watched :
    LeftBehind ⟨"x"⟩ noon watched morning ∧
      (watched.run day).store.find? ⟨"x"⟩ = some (.tombstone noon) ∧
      ((watched.run day).store.find? ⟨"y"⟩).isSome = true ∧
      (watched.run day).store.answer dusk (.get ⟨"z"⟩) =
        ((watched.run day).store.sweep dusk).answer dusk (.get ⟨"z"⟩) ∧
      Store.Swept dusk (watched.run day).store ((watched.run day).store.sweep dusk) ∧
      ((watched.run day).store.sweep dusk).find? ⟨"x"⟩ = none ∧
      ((watched.run day).store.sweep dusk).find? ⟨"y"⟩ = none := by
  have hnoon : (watched.run morning).store.find? ⟨"x"⟩ = some (.tombstone noon) := by
    decide +kernel
  obtain ⟨-, -, -, hleft⟩ := tombstones_exact .binary watched.store.hook none (.ofSeconds 50) .epoch
    morning
  obtain ⟨-, hsweeps, -, -⟩ := tombstones_exact .binary watched.store.hook none (.ofSeconds 50)
    .epoch day
  obtain ⟨hanswer, hswept⟩ := hsweeps (.get ⟨"z"⟩) rfl (by decide)
  exact ⟨hleft ⟨"x"⟩ noon hnoon, by decide +kernel, by decide +kernel, hanswer, hswept,
    by decide +kernel, by decide +kernel⟩

end Moment

end Sessions
