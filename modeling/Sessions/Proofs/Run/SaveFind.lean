import Sessions.Proofs.Basic
import Sessions.Proofs.Run.Invariant

/-!
# Finding what was saved

In every run, a look-up gives out exactly the record that was last saved under the id: unless the
id was removed since, the entry's deadline has been reached, or the record is idle past its
interval.
-/

namespace Sessions

variable {c : Codec} {limit : Nat} {w : World} {id : Ident}

/-- A record with its interval cut to whole seconds. -/
def Session.inWholeSeconds (v : Session) : Session :=
  { v with maxIdle := .ofSeconds v.maxIdle.wholeSeconds }

/-- What a look-up at a time hands out for the saved record `v`. -/
structure Session.Returns (v t : Session) (now : Time) : Prop where
  id : t.id = v.id
  created : t.created = v.created
  /-- The look-up counts as an access. -/
  accessed : t.accessed = max now.floorMillis v.created
  maxIdle : t.maxIdle = .ofSeconds v.maxIdle.wholeSeconds
  principal : t.principal = v.principal
  kind : t.kind = v.kind
  values : ∀ name, t.attributes.value? name = v.attributes.value? name

/-- The record that was last saved under an id, as long as it can be found: a save that wrote it is
the latest event of the id, its entry's deadline lies ahead, and it is not idle past its
interval. -/
def World.Visible (w : World) (id : Ident) (v : Session) : Prop :=
  ∃ i deadline, w.latest id = some (.wrote i deadline) ∧ w.saved i = some v ∧
    (∀ due, deadline = some due → w.now < due) ∧ v.inWholeSeconds.isExpired w.now = false

lemma Session.Agrees.returns {v t : Session} (h : v.Agrees t) (now : Time) (rule : ChangeRule) :
    v.Returns ((t.withRule rule).touch now) now := by
  have htouch : ∀ time, ((t.withRule rule).moveAccess time).accessed = time ∧
      ((t.withRule rule).moveAccess time).id = t.id ∧
      ((t.withRule rule).moveAccess time).created = t.created ∧
      ((t.withRule rule).moveAccess time).maxIdle = t.maxIdle ∧
      ((t.withRule rule).moveAccess time).principal = t.principal ∧
      ((t.withRule rule).moveAccess time).kind = t.kind ∧
      ∀ name, ((t.withRule rule).moveAccess time).attributes.value? name =
        t.attributes.value? name := by
    intro time
    unfold Session.moveAccess
    split
    next heq => exact ⟨heq.symm, rfl, rfl, rfl, rfl, rfl, fun _ => rfl⟩
    next => exact ⟨rfl, rfl, rfl, rfl, rfl, rfl, fun _ => rfl⟩
  obtain ⟨haccessed, hid, hcreated, hmaxIdle, hprincipal, hkind, hvalues⟩ :=
    htouch (max now.floorMillis t.created)
  exact ⟨hid.trans h.id, hcreated.trans h.created, haccessed.trans (by rw [h.created]),
    hmaxIdle.trans h.maxIdle, hprincipal.trans h.principal, hkind.trans h.kind,
    fun name => (hvalues name).trans (h.values name)⟩

/-- **Find after save**: in every run of a repository whose codec is composed of those of this
library, a look-up succeeds, gives out a record exactly when the one last saved under the id can
still be found, and gives out that one. -/
theorem find_last_saved (hc : c.BuiltIn) (h : Reachable c c.depthLimit w) (id : Ident) :
    ∃ found, (w.repo.find id w.now).2 = .ok found ∧
      (found.isSome = true ↔ ∃ v, w.Visible id v) ∧
      ∀ t, found = some t → ∃ v, w.Visible id v ∧ v.id = id ∧ v.Returns t w.now := by
  have hinv := h.inv hc.faithful
  by_cases hwrote : ∃ i deadline, w.latest id = some (.wrote i deadline)
  · obtain ⟨i, deadline, hlatest⟩ := hwrote
    obtain ⟨-, v, t, payload, keys, due, hv, hid, hdec, hagrees, rfl, hst⟩ :=
      (hinv.store id).written i deadline hlatest
    have hidle : t.isExpired w.now = v.inWholeSeconds.isExpired w.now := hagrees.isExpired w.now
    obtain ⟨found, hfound, hsome, hgiven⟩ :=
      Repository.find_of_entry (hst w.now (Time.le_refl _)) (hinv.codec.symm ▸ hdec)
    rw [hidle] at hsome
    refine ⟨found, hfound, hsome.trans ⟨fun ⟨hdue, hlive⟩ => ?_, ?_⟩, fun u hu => ?_⟩
    · exact ⟨v, i, _, hlatest, hv, hdue, hlive⟩
    · -- whatever can be seen under the id is the record that was written last
      rintro ⟨u, j, d, hj, hu, hdue, hlive⟩
      obtain ⟨rfl, rfl⟩ := Event.wrote.inj (Option.some.inj (hj.symm.trans hlatest))
      obtain rfl := Option.some.inj (hu.symm.trans hv)
      exact ⟨hdue, hlive⟩
    · obtain ⟨hdue, hlive⟩ := hsome.1 (hu ▸ rfl)
      rw [hgiven u hu]
      exact ⟨v, ⟨i, _, hlatest, hv, hdue, hlive⟩, hid, hagrees.returns w.now w.repo.rule⟩
  · have hnone := (hinv.store id).absent (fun i deadline hi => hwrote ⟨i, deadline, hi⟩) w.now
      (Time.le_refl _)
    refine ⟨none, Repository.find_of_none hnone, ⟨fun h => (by cases h), ?_⟩, fun t ht => ?_⟩
    · rintro ⟨v, i, deadline, hi, -⟩
      exact absurd ⟨i, deadline, hi⟩ hwrote
    · cases ht

namespace Sample

def opened : World :=
  .start (.create .binary none none .zero start) .binary Session.defaultMaxIdle [] .identity start

def made : World := (opened.hold 0 (opened.repo.newSession ⟨"x"⟩ start)).own 0 ⟨"x"⟩

def changed : Session := Edit.apply start (opened.repo.newSession ⟨"x"⟩ start) (.set "k" (.int 1))

def run : World :=
  (made.hold 0 changed).afterSave 0 changed (made.repo.save changed start).1
    (made.repo.save changed start).2.1

lemma save_changed : made.repo.save changed start =
    ((made.repo.save changed start).1, (made.repo.save changed start).2.1, .ok ()) := by
  have hok : (made.repo.save changed start).2.2 = .ok () := by decide +kernel
  rw [← hok]

lemma reachable_run : Reachable .binary (Codec.depthLimit .binary) run := by
  have hfits : (Edit.set "k" (.int 1)).Fits (Codec.depthLimit .binary) :=
    ⟨by simp [Json.Readable], Nat.zero_le _⟩
  have hopened : Reachable .binary (Codec.depthLimit .binary) opened :=
    .start none none .zero _ [] (.inl rfl) start
  have hmade : Reachable .binary (Codec.depthLimit .binary) made :=
    hopened.step (.create rfl (by decide) rfl)
  have hheld : (made.hold 0 changed).records 0 = some changed := rfl
  exact (hmade.step (.edit rfl _ hfits)).step (.save hheld save_changed)

end Sample

open Sample in
theorem find_last_saved_run :
    Codec.BuiltIn .binary ∧ Reachable .binary (Codec.depthLimit .binary) run ∧
      ∃ t v, (run.repo.find ⟨"x"⟩ run.now).2 = .ok (some t) ∧ run.Visible ⟨"x"⟩ v ∧
        v.Returns t run.now := by
  have hsome : (run.repo.find ⟨"x"⟩ run.now).2.toOption.join.isSome = true := by decide +kernel
  obtain ⟨found, hfound, -, hgiven⟩ := find_last_saved .binary reachable_run ⟨"x"⟩
  cases found with
  | none =>
    rw [hfound] at hsome
    cases hsome
  | some t =>
    obtain ⟨v, hvisible, -, hreturns⟩ := hgiven t rfl
    exact ⟨.binary, reachable_run, t, v, hfound, hvisible, hreturns⟩

namespace Sample

/-- The double after `1e33`, whose own text is read as `1e33`. -/
def drifting : Json := .double ⟨false, 5100510072459938205, by decide⟩

/-- The value that is found under `k` after a record with this value was saved. -/
def foundValue (value : Json) : Option Json :=
  let r := ((repository none).save (withValue record value) start).1
  ((r.find ⟨"x"⟩ start).2.toOption.join).bind (·.attributes.value? "k")

end Sample

open Sample in
/-- A save can succeed although what it stores is not read back: a value that is nested deeper than
a text may be makes every look-up fail, and a double can come back as its neighbour. -/
theorem saved_can_be_lost :
    (((repository none).save (withValue record (nested 128)) start).2.2 = .ok () ∧
      ∀ found, (((repository none).save (withValue record (nested 128)) start).1.find ⟨"x"⟩
        start).2 ≠ .ok found) ∧
      ((repository none).save (withValue record drifting) start).2.2 = .ok () ∧
        (withValue record drifting).attributes.value? "k" = some drifting ∧
        (foundValue drifting).isSome = true ∧ foundValue drifting ≠ some drifting := by
  have herror : (((repository none).save (withValue record (nested 128)) start).1.find ⟨"x"⟩
      start).2.toOption.isSome = false := by decide +kernel
  refine ⟨⟨by decide +kernel, fun found h => ?_⟩, by decide +kernel, by decide +kernel,
    by decide +kernel, by decide +kernel⟩
  rw [h] at herror
  cases herror

end Sessions
