import Sessions.Proofs.Codec.FaultyDelta
import Sessions.Proofs.Repository.Skipped

/-!
# The life of a record

A record is changed by its holder, by the codecs that write it or merge deltas into it, and by the
repositories that save or end it, and several of these set its fields without the checks that the
others make. Whatever happens to it, its times stay in order and in whole milliseconds, its interval
stays within bounds, and its notes stay consistent (`Session.Regular`); it stays the session that
was created when it was, and once ended it is never opened again (`Session.Keeps`). That is shown of
one step, and by induction of a life.
-/

namespace Sessions

namespace Attributes

variable {a b : Attributes}

lemma isDirty_iff_of_clean (h : a.log = .clean) : a.isDirty = true ↔ a.changedNames ≠ [] := by
  rw [isDirty, changedNames, h]
  decide

lemma Touched.isDirty_iff {name : String} (h : Touched a name b)
    (ha : a.isDirty = true ↔ a.changedNames ≠ []) : b.isDirty = true ↔ b.changedNames ≠ [] := by
  rcases h.noted with hlog | ⟨hlog, -⟩
  · have hmem : name ∈ b.changedNames := (mem_changedNames_mark hlog rfl).2 (.inl rfl)
    have hdirty : b.isDirty = true := by rw [isDirty, hlog, ChangeLog.mark]
    exact ⟨fun _ => List.ne_nil_of_mem hmem, fun _ => hdirty⟩
  · rw [isDirty, changedNames, hlog]
    exact ha

end Attributes

namespace Session

variable {s t u : Session}

/-- What holds of every record, whatever its id is. -/
structure Regular (s : Session) : Prop where
  created : s.created.floorMillis = s.created
  accessed : s.accessed.floorMillis = s.accessed
  order : s.created ≤ s.accessed
  interval : s.maxIdle ≤ .longest
  /-- A record that was never written is not stored under another id. -/
  previous : s.phase = .new → s.previous = none
  noted : s.attributes.isDirty = true ↔ s.attributes.changedNames ≠ []

inductive Origin : Session → Prop
  | created (id : Ident) (now : Time) (kind : Kind) : Origin (.create id now kind)
  | decoded {c : Codec} (hc : c.BuiltIn) {payload : Bytes} {s : Session}
      (h : c.decode payload = .ok s) : Origin s

lemma Origin.regular (h : s.Origin) : s.Regular := by
  cases h with
  | created id now kind =>
    exact ⟨now.floorMillis_floorMillis, now.floorMillis_floorMillis, Time.le_refl _,
      (by decide : defaultMaxIdle ≤ .longest), fun _ => rfl, Attributes.isDirty_iff_of_clean rfl⟩
  | decoded hc h =>
    obtain ⟨hfresh, -⟩ := hc.fresh_read (Codec.decode_eq_ok.1 h)
    have hform := hfresh.wellFormed
    exact ⟨hform.created, hform.accessed, hform.order, hform.interval, fun _ => hfresh.previous,
      Attributes.isDirty_iff_of_clean hfresh.log⟩

/-! ## One step -/

inductive Step where
  /-- The holder does something to it. -/
  | operation (op : Operation)
  | commit
  /-- A payload of it is appended to a sink, in the form that the codec prefers. -/
  | write (c : Codec) (sink : Bytes)
  | writeFull (c : Codec) (sink : Bytes)
  /-- A delta is merged into it, as far as that goes. -/
  | merge (c : Codec) (delta : Bytes)
  | save (r : Repository) (now : Time)
  | invalidate (r : Repository)

namespace Step

def apply (s : Session) : Step → Session
  | operation op => op.apply s
  | commit => s.commit
  | write c sink => (c.write s sink).session
  | writeFull c sink => (c.writeFull s sink).session
  | merge c delta => (c.merge s delta).1
  | save r now => (r.save s now).2.1
  | invalidate r => (r.invalidate s).2

/-- The codecs that write the record keep the contract of writing, and those that merge deltas into
it are of this library. -/
def Proper : Step → Prop
  | write c _ => c.Lawful
  | writeFull c _ => c.Lawful
  | merge c _ => c.BuiltIn
  | save r _ => r.codec.Lawful
  | _ => True

end Step

/-- What is kept of a record, whatever happens to it. -/
structure Keeps (s t : Session) : Prop where
  regular : s.Regular → t.Regular
  created : t.created = s.created
  ended : s.phase.isEnded = true → t.phase.isEnded = true

namespace Keeps

lemma refl (s : Session) : Keeps s s := ⟨fun h => h, rfl, fun h => h⟩

lemma trans (hst : Keeps s t) (htu : Keeps t u) : Keeps s u where
  regular h := htu.regular (hst.regular h)
  created := htu.created.trans hst.created
  ended h := htu.ended (hst.ended h)

lemma edit (s : Session) (e : Edit) (now : Time) : Keeps s (e.apply now s) := by
  have houtcome := outcome_apply s e now
  generalize e.apply now s = t at houtcome ⊢
  cases houtcome with
  | refused => exact .refl s
  | moved htime =>
    unfold moveAccess
    split
    · exact .refl s
    · exact ⟨fun h => { h with accessed := (htime h.created).1, order := (htime h.created).2 },
        rfl, fun h => h⟩
  | idle interval =>
    unfold setMaxIdle
    dsimp only
    split
    · exact .refl s
    · exact ⟨fun h => { h with interval := min_le_longest interval }, rfl, fun h => h⟩
  | @named name a htouched _ =>
    have hkept : ∀ (principal : Option String) (dirty : Bool), Keeps s
        { s with attributes := a, principal := principal, dirty := dirty } := fun _ _ =>
      ⟨fun h => { h with noted := htouched.isDirty_iff h.noted }, rfl, fun h => h⟩
    unfold withAttributes syncPrincipal
    dsimp only
    split
    · split
      · exact hkept s.principal s.dirty
      · exact hkept (namedPrincipal a) true
    · exact hkept s.principal s.dirty

lemma operation (s : Session) (op : Operation) : Keeps s (op.apply s) := by
  cases op with
  | edit e now => exact .edit s e now
  | rotate id =>
    refine ⟨fun h => { h with previous := fun hnew => ?_ }, rfl, fun h => h⟩
    -- only a record that is stored under its id remembers that
    have hnew : s.phase = .new := hnew
    simp [Operation.apply, rotate, hnew, h.previous hnew]
  | withRule rule => exact ⟨fun h => { h with }, rfl, fun h => h⟩
  | withMaxIdle interval =>
    exact ⟨fun h => { h with interval := min_le_longest interval }, rfl, fun h => h⟩

lemma commit (s : Session) : Keeps s s.commit := by
  refine ⟨fun h => { h with previous := fun _ => rfl, noted := ?_ }, rfl, fun hend => ?_⟩
  · exact Attributes.isDirty_iff_of_clean rfl
  · have hold : s.phase ≠ .new := by
      intro hnew
      rw [hnew] at hend
      cases hend
    change (if s.phase = .new then Phase.persisted else s.phase).isEnded = true
    rwa [if_neg hold]

lemma finish (s : Session) {phase : Phase} (hphase : phase.isEnded = true) :
    Keeps s { s with phase := phase } := by
  refine ⟨fun h => { h with previous := fun hnew => ?_ }, rfl, fun _ => hphase⟩
  have hnew : phase = .new := hnew
  rw [hnew] at hphase
  cases hphase

lemma writing {w : Writing} (h : Codec.Commits s w) : Keeps s w.session := by
  rcases h with ⟨-, hcommit⟩ | ⟨-, hsame⟩
  · rw [hcommit]
    exact .commit s
  · rw [hsame]
    exact .refl s

lemma preamble {preamble : Binary.Preamble} {payload rest : Bytes}
    (h : Binary.readPreamble s.id payload = .ok (some (preamble, rest)))
    (changes : List (String × Option Json)) :
    Keeps s { preamble.apply s with
      attributes := changes.foldl Attributes.applyChange s.attributes } := by
  obtain ⟨haccessed, hinterval, -⟩ := Binary.takePreamble_ok (Binary.takePreamble_of_read h)
  have hlog := Attributes.log_foldl_applyChange changes s.attributes
  refine ⟨fun hs => ?_, rfl, fun hend => hend⟩
  refine ⟨hs.created, Time.floorMillis_max haccessed hs.created, Time.le_max_right _ _, hinterval,
    hs.previous, ?_⟩
  rw [Attributes.isDirty, Attributes.changedNames, hlog]
  exact hs.noted

lemma ending {payload : Bytes} {result : Session × Except Fault Bool}
    (h : Binary.Ending s payload result) : Keeps s result.1 := by
  cases h with
  | declined => exact .refl s
  | stopped hstopped =>
    cases hstopped with
    | early => exact .refl s
    | uncounted hpreamble => exact .preamble hpreamble []
    | within hpreamble => exact .preamble hpreamble _
  | merged hpreamble => exact .preamble hpreamble _

lemma merge {c : Codec} (hc : c.BuiltIn) (s : Session) (delta : Bytes) :
    Keeps s (c.merge s delta).1 := by
  rcases hc.merge_cases s delta with hmerge | hmerge
  · rw [hmerge]
    exact .ending (Binary.ending_merge s delta)
  · rw [hmerge]
    exact .refl s

section Saving

variable {r : Repository} {now : Time}

lemma encode {c : Codec} (hc : c.Lawful) {outcome : Except Fault Bytes}
    (h : c.encode s = (t, outcome)) : Keeps s t := by
  obtain rfl : (c.write s []).session = t := congrArg Prod.fst h
  exact .writing (hc.write s [])

lemma encodeFull {c : Codec} (hc : c.Lawful) {outcome : Except Fault Bytes}
    (h : c.encodeFull s = (t, outcome)) : Keeps s t := by
  obtain rfl : (c.writeFull s []).session = t := congrArg Prod.fst h
  exact .writing (hc.writeFull s [])

lemma writes (hc : r.codec.Lawful) {result : Repository × Session × Except Fault Unit}
    (h : r.Writes s now result) : Keeps s result.2.1 := by
  cases h with
  | unencoded henc => exact .encode hc henc
  | refused henc => exact .encode hc henc
  | whole henc => exact .encode hc henc
  | merged henc => exact .encode hc henc
  | unsent henc hfull => exact (encode hc henc).trans (encodeFull hc hfull)
  | unresent henc hfull => exact (encode hc henc).trans (encodeFull hc hfull)
  | resent henc _ hfull => exact (encode hc henc).trans (encodeFull hc hfull)

lemma save (hc : r.codec.Lawful) (s : Session) (now : Time) : Keeps s (r.save s now).2.1 := by
  have hcases := r.save_cases s now
  generalize r.save s now = result at hcases ⊢
  cases hcases with
  | ended => exact .refl s
  | expired => exact .finish s rfl
  | skipped => exact .refl s
  | written _ _ _ hwrite =>
    have hcodec : (r.vacate s).codec = r.codec := (Repository.setUpAs_vacate r s).codec
    exact .writes (hcodec ▸ hc) hwrite

end Saving

end Keeps

/-- **One step keeps a record in order**, whatever it is and however it ends. -/
theorem keeps_apply {step : Step} (h : step.Proper) (s : Session) : Keeps s (step.apply s) := by
  cases step with
  | operation op => exact .operation s op
  | commit => exact .commit s
  | write c sink => exact .writing (h.write s sink)
  | writeFull c sink => exact .writing (h.writeFull s sink)
  | merge c delta => exact .merge h s delta
  | save r now => exact .save h s now
  | invalidate r => exact .finish s rfl

/-! ## A life -/

variable {steps : List Step}

def after (s : Session) (steps : List Step) : Session := steps.foldl Step.apply s

lemma after_append (s : Session) (front back : List Step) :
    s.after (front ++ back) = (s.after front).after back := List.foldl_append

lemma keeps_after (h : ∀ step ∈ steps, step.Proper) (s : Session) : Keeps s (s.after steps) := by
  induction steps generalizing s with
  | nil => exact .refl s
  | cons step rest ih =>
    have hstep := keeps_apply (h step List.mem_cons_self) s
    exact hstep.trans (ih (fun next hnext => h next (List.mem_cons_of_mem step hnext)) _)

lemma save_of_ended (r : Repository) (hend : s.phase.isEnded = true) (now : Time) :
    r.save s now = (r, s, .error (.ended s.id.text s.phase)) := if_pos hend

/-- **The life of a record.** A record that is created, or decoded from whatever bytes, stays
regular and keeps its creation time, whatever is done to it. Once it has ended, at whichever step,
it stays ended; every save of it is refused as invalid input and changes neither it nor the
repository. -/
theorem regular_after (hs : s.Origin) (hsteps : ∀ step ∈ steps, step.Proper) :
    (s.after steps).Regular ∧ (s.after steps).created = s.created ∧
    ∀ front back, steps = front ++ back → (s.after front).phase.isEnded = true →
      (s.after steps).phase.isEnded = true ∧
      ∀ (r : Repository) (now : Time), ∃ e,
        r.save (s.after steps) now = (r, s.after steps, .error e) ∧ e.category = .invalidInput := by
  have hlife := keeps_after hsteps s
  refine ⟨hlife.regular hs.regular, hlife.created, ?_⟩
  rintro front back rfl hend
  have hback := keeps_after (fun step hstep => hsteps step (List.mem_append_right front hstep))
    (s.after front)
  rw [← after_append] at hback
  have hended := hback.ended hend
  exact ⟨hended, fun r now => ⟨_, save_of_ended r hended now, rfl⟩⟩

end Session

namespace Sample

/-- The record is saved, gets a new id and half of a delta, which cuts its interval to a minute, and
is found idle when it is saved again. -/
def untilIdle : List Session.Step :=
  [.operation (.edit (.set "step" (.int 1)) start), .save (repository none) start,
    .operation (.rotate ⟨"y"⟩), .merge .binary torn,
    .save (stored none) (seconds 70 (by decide))]

def belated : List Session.Step :=
  [.operation (.edit .touch (seconds 90 (by decide))), .operation (.rotate ⟨""⟩),
    .write .binary [], .save (stored none) start]

end Sample

namespace Session

open Sample

/-- A delta that is torn, an expiry, and what comes too late. -/
theorem regular_after_idle :
    record.Origin ∧ (∀ step ∈ untilIdle ++ belated, step.Proper) ∧
      (record.after untilIdle).phase = .expired ∧
      (record.after (untilIdle ++ belated)).Regular ∧
      (record.after (untilIdle ++ belated)).created = record.created ∧
      (record.after (untilIdle ++ belated)).phase.isEnded = true ∧
      ∃ e, (stored none).save (record.after (untilIdle ++ belated)) start =
        (stored none, record.after (untilIdle ++ belated), .error e) ∧
        e.category = .invalidInput := by
  have horigin : record.Origin := .created _ _ _
  have hproper : ∀ step ∈ untilIdle ++ belated, step.Proper := by
    simp only [untilIdle, belated, List.cons_append, List.nil_append, List.forall_mem_cons,
      List.not_mem_nil, false_implies, implies_true, and_true, Step.Proper, true_and]
    exact ⟨Codec.lawful_binary, .binary, Codec.lawful_binary, Codec.lawful_binary,
      Codec.lawful_binary⟩
  have hidle : (record.after untilIdle).phase = .expired := by decide +kernel
  obtain ⟨hregular, hcreated, hended⟩ := regular_after horigin hproper
  obtain ⟨hend, hrefused⟩ := hended untilIdle belated rfl (by rw [hidle]; rfl)
  exact ⟨horigin, hproper, hidle, hregular, hcreated, hend, hrefused (stored none) start⟩

end Session

end Sessions
