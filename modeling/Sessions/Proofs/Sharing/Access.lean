import Sessions.Proofs.Expiry.Idle
import Sessions.Proofs.Sharing.Entries

/-!
# How long an access counts

A save puts the last access of its copy into the store, and the stored session can be found until
its interval has passed since then. That stays so while other copies are loaded and saved, as long
as none is written or found idle whose own last access is earlier: a save judges idleness by the
copy that it is given, and writes that copy's last access over a later one.
-/

namespace Sessions

open Store (Settled)

variable {s : Session} {id : Ident} {interval : Duration} {access now later : Time}

lemma Session.isExpired_of_lt (hinterval : s.maxIdle = interval) (haccess : access ≤ s.accessed)
    (h : now.nanos < access.nanos + interval.nanos) : s.isExpired now = false := by
  rw [← Bool.not_eq_true, isExpired, idleTooLong_iff, Time.nanos_utc, Time.nanos_utc, hinterval]
  rintro ⟨-, -, hover⟩
  rw [Time.le_iff] at haccess
  omega

/-- A save of the copy takes a later access back: the copy is idle, or is written. -/
def Session.Recedes (access now : Time) (s : Session) : Prop :=
  s.accessed < access ∧
    (s.isExpired now = true ∨ s.hasDelta = true ∨ s.needsFullWrite = true)

instance (access now : Time) (s : Session) : Decidable (s.Recedes access now) := by
  unfold Session.Recedes
  infer_instance

lemma Session.le_accessed (h : ¬s.Recedes access now)
    (hdue : s.isExpired now = true ∨ s.hasDelta = true ∨ s.needsFullWrite = true) :
    access ≤ s.accessed :=
  Int.not_lt.1 fun hlt => h ⟨hlt, hdue⟩

namespace Repository

variable {r : Repository} {c : Codec} {Q : Session → Prop} {payload : Bytes}

/-- A repository whose store gives no entry a deadline. -/
def Endless (r : Repository) : Prop := r.store.hook = none ∧ r.store.defaultExpiry = none

lemma SetUpAs.endless {r' : Repository} (hsetup : SetUpAs r r') (h : r.Endless) : r'.Endless := by
  have hsettings := hsetup.store
  simp only [Store.settings, Prod.mk.injEq] at hsettings
  exact ⟨hsettings.2.1.trans h.1, hsettings.2.2.trans h.2⟩

lemma Puts.due_eq_none {due : Option (Time × Action)} (h : Puts r s now payload due)
    (hendless : r.Endless) : due = none := by
  have hdeadline : ∀ {opinion due}, opinion = none → r.store.deadline opinion now = .ok due →
      due = none := by
    rintro _ due rfl hdl
    rw [Store.deadline, hendless.2] at hdl
    exact (Except.ok.inj hdl).symm
  have hfull : r.store.payloadDeadline payload now = .ok due → due = none := by
    intro hdl
    obtain ⟨header, -, hdl⟩ := bind_eq_ok.1 hdl
    rw [hendless.1] at hdl
    split at hdl
    · cases hdl
    · exact hdeadline rfl hdl
  cases h with
  | whole _ _ _ hdl => exact hfull hdl
  | resent _ _ _ hdl => exact hfull hdl
  | merged _ _ _ _ hmerge =>
    obtain ⟨base, merged, -, -, hdl, -⟩ := Store.exists_of_mergeDelta hmerge
    rw [hendless.1] at hdl
    exact hdeadline rfl hdl

/-- Under the id stands a record with the given interval, last accessed at the given time or
later. -/
def Awake (c : Codec) (id : Ident) (interval : Duration) (access : Time) (r : Repository)
    (now : Time) : Prop :=
  ∃ payload t, r.store.standing id now = some (payload, none) ∧ c.ReadsAs payload t ∧ t.id = id ∧
    t.maxIdle = interval ∧ access ≤ t.accessed

lemma Awake.anytime (h : Awake c id interval access r now) (later : Time) :
    Awake c id interval access r later := by
  obtain ⟨payload, t, hst, hback⟩ := h
  exact ⟨payload, t, Store.standing_until hst fun time hnone => (nomatch hnone), hback⟩

lemma Awake.exists_find (hcodec : r.codec = c) (h : Awake c id interval access r now)
    (hnow : now.nanos < access.nanos + interval.nanos) :
    ∃ u, (r.find id now).2 = .ok (some u) ∧ u.id = id := by
  obtain ⟨payload, t, hst, hback, hid, hinterval, haccess⟩ := h
  refine ⟨(t.withRule r.rule).touch now, ?_, ?_⟩
  · rw [find_of_standing hst, hcodec, hback.decode, Except.map,
      Session.isExpired_of_lt hinterval haccess hnow]
    rfl
  · exact (Session.edited_apply (t.withRule r.rule) .touch now).id.trans hid

lemma Awake.settled {st : Store} (h : Awake c id interval access r now)
    (hst : Settled now r.store st) : Awake c id interval access { r with store := st } now := by
  obtain ⟨payload, t, hstands, hback⟩ := h
  exact ⟨payload, t, (hst.kept id now (Time.le_refl now)).trans hstands, hback⟩

lemma Awake.delete {other : Ident} (h : Awake c id interval access r now) (hne : other ≠ id) :
    Awake c id interval access (r.delete other) now := by
  obtain ⟨payload, t, hst, hback⟩ := h
  exact ⟨payload, t, by rw [standing_delete, if_neg hne, hst], hback⟩

lemma Awake.load (hcodec : r.codec = c) (h : Awake c id interval access r now)
    (hnow : now.nanos < access.nanos + interval.nanos) (other : Ident) :
    Awake c id interval access (r.load other now).1 now := by
  obtain ⟨payload, t, hst, hback, hid, hinterval, haccess⟩ := h
  have hlive := Session.isExpired_of_lt hinterval haccess hnow
  have hkept := standing_load hst (hcodec ▸ hback.decode) hlive other
  exact ⟨payload, t, hkept, hback, hid, hinterval, haccess⟩

/-- A whole number of seconds is kept by a payload. -/
def Whole (interval : Duration) : Prop := .ofSeconds interval.wholeSeconds = interval

lemma Puts.awake (hc : c.BuiltIn) (hQ : c.Lasts Q) (hcodec : r.codec = c)
    (hstore : r.store.codec = c) (hin : r.store.InPlace c Q) (hs : Q s) (hendless : r.Endless)
    (hwhole : Whole interval) (hinterval : s.maxIdle = interval) (haccess : access ≤ s.accessed)
    {due : Option (Time × Action)} (h : Puts r s now payload due) (mid : Store)
    (keys : List IndexKey) :
    Awake c s.id interval access { r with store := mid.insert s.id (.live payload keys due) }
      now := by
  have hstands : ∀ t : Session, c.ReadsAs payload t → t.id = s.id → t.maxIdle = interval →
      access ≤ t.accessed →
      Awake c s.id interval access { r with store := mid.insert s.id (.live payload keys due) }
        now := by
    intro t hback hid hmaxIdle hlate
    refine ⟨payload, t, ?_, hback, hid, hmaxIdle, hlate⟩
    rw [Store.standing_insert, if_pos rfl, h.due_eq_none hendless]
    rfl
  have hcut : Duration.ofSeconds s.maxIdle.wholeSeconds = interval := by rw [hinterval, hwhole]
  rcases h.readsAs hc hQ hcodec hstore hin hs with hback | ⟨base, hid, -, hback⟩
  · exact hstands _ hback rfl hcut haccess
  · refine hstands _ hback hid ?_ (Time.le_trans haccess (Time.le_max_left _ _))
    change Duration.ofSeconds (Duration.ofSeconds s.maxIdle.wholeSeconds).wholeSeconds = interval
    rw [hcut, hwhole]

/-- A save of another session, or of a copy that takes no access back, leaves the record awake. -/
lemma Awake.save (hc : c.BuiltIn) (hQ : c.Lasts Q) (hcodec : r.codec = c)
    (hstore : r.store.codec = c) (hin : r.store.InPlace c Q) (hs : Q s) (hendless : r.Endless)
    (hwhole : Whole interval) (h : Awake c id interval access r now)
    (hnow : now.nanos < access.nanos + interval.nanos) (hprevious : s.previous ≠ some id)
    (hsame : s.id = id → s.maxIdle = interval ∧ ¬s.Recedes access now) :
    Awake c id interval access (r.save s now).1 now := by
  by_cases hwritten : s.id = id ∧ r.Lands s now
  · obtain ⟨rfl, hlands⟩ := hwritten
    obtain ⟨hinterval, hkeeps⟩ := hsame rfl
    obtain ⟨-, -, payload, due, mid, -, hputs, hsave⟩ := hlands.exists_puts (hcodec ▸ hc.lawful)
    have haccess := Session.le_accessed hkeeps (.inr hlands.2.2)
    rw [hsave]
    exact hputs.awake hc hQ hcodec hstore hin hs hendless hwhole hinterval haccess mid _
  · obtain ⟨payload, t, hst, hback⟩ := h
    have hother : s.id = id → s.isExpired now = false ∧ ¬r.Lands s now := by
      intro hid
      obtain ⟨hinterval, hkeeps⟩ := hsame hid
      refine ⟨Bool.eq_false_iff.2 fun hidle => ?_, fun hlands => hwritten ⟨hid, hlands⟩⟩
      rw [Session.isExpired_of_lt hinterval (Session.le_accessed hkeeps (.inl hidle)) hnow] at hidle
      cases hidle
    exact ⟨payload, t, standing_save (hcodec ▸ hc.lawful) hst hprevious hother, hback⟩

end Repository

namespace Sharing

variable {c : Codec} {w : Sharing} {d : Deed} {ok : Time → Session → Prop}

/-- What may happen while a session stays in use. The clock does not go back, no other session gets
its id, nobody deletes it or invalidates a copy of it, and no copy is saved that was moved away from
its id. A copy of it that is saved has the interval and is `ok` at that time. -/
def Undisturbed (id : Ident) (interval : Duration) (ok : Time → Session → Prop) (w : Sharing) :
    Deed → Prop
  | .tick now => w.now ≤ now
  | .create _ other | .rotate _ other | .delete other => other ≠ id
  | .invalidate i => ∀ s ∈ w.copies i, s.id ≠ id
  | .save i => ∀ s ∈ w.copies i, s.previous ≠ some id ∧
      (s.id = id → s.maxIdle = interval ∧ ok w.now s)
  | .load .. | .clone .. | .edit .. | .tidy => True

instance [∀ now s, Decidable (ok now s)] (w : Sharing) :
    ∀ d, Decidable (Undisturbed id interval ok w d)
  | .tick now => inferInstanceAs (Decidable (w.now ≤ now))
  | .create _ other | .rotate _ other | .delete other => inferInstanceAs (Decidable (other ≠ id))
  | .invalidate i => inferInstanceAs (Decidable (∀ s ∈ w.copies i, s.id ≠ id))
  | .save i => inferInstanceAs (Decidable (∀ s ∈ w.copies i, s.previous ≠ some id ∧
      (s.id = id → s.maxIdle = interval ∧ ok w.now s)))
  | .load .. | .clone .. | .edit .. | .tidy => .isTrue trivial

/-- What holds after an access was stored, until the interval has passed. -/
structure InUse (c : Codec) (id : Ident) (interval : Duration) (access : Time) (w : Sharing) :
    Prop where
  orderly : Orderly c (fun _ _ => True) w
  endless : w.repo.Endless
  awake : w.now.nanos < access.nanos + interval.nanos →
    w.repo.Awake c id interval access w.now

lemma InUse.act (hc : c.BuiltIn) (hwhole : Repository.Whole interval)
    (h : InUse c id interval access w)
    (hd : Undisturbed id interval (fun now s => ¬s.Recedes access now) w d)
    (hvalue : ∀ value ∈ d.value?, value.Valid ∧ value.depth ≤ c.depthLimit) :
    InUse c id interval access (w.act d) := by
  refine ⟨h.orderly.act hc hvalue (dates_any w d), (w.setUpAs_act d).endless h.endless,
    fun hlater => ?_⟩
  have hforward : w.now ≤ (w.act d).now := by
    rcases w.now_act d with hsame | ⟨now, rfl, hnow⟩
    · exact hsame ▸ Time.le_refl w.now
    · exact hnow ▸ hd
  have hnow : w.now.nanos < access.nanos + interval.nanos := by
    rw [Time.le_iff] at hforward
    omega
  have hawake := h.awake hnow
  suffices hkept : (w.act d).repo.Awake c id interval access w.now from hkept.anytime _
  cases w.acts d with
  | still hrepo _ =>
    rw [hrepo]
    exact hawake
  | loads _ hrepo _ =>
    rw [hrepo]
    exact hawake.load h.orderly.codec hnow _
  | @removes other heq hrepo _ =>
    rw [hrepo]
    refine hawake.delete ?_
    rcases heq with rfl | ⟨i, s, rfl, hs, rfl⟩
    · exact hd
    · exact hd s hs
  | tidies _ hrepo _ =>
    rw [hrepo]
    exact hawake.settled (Store.settled_tidy w.now w.repo.store)
  | @saves i s heq hs hact =>
    subst heq
    obtain ⟨hprevious, hsame⟩ := hd s hs
    rw [hact, repo_afterSave]
    exact hawake.save hc (c.lasts_belongs _) h.orderly.codec h.orderly.store h.orderly.entries
      (h.orderly.copies i s hs) h.endless hwhole hnow hprevious hsame

lemma InUse.of_lands (hc : c.BuiltIn) (horderly : Orderly c (fun _ _ => True) w)
    (hendless : w.repo.Endless) {i : Nat} (hcopy : w.copies i = some s)
    (hlands : w.repo.Lands s w.now) (hwhole : Repository.Whole s.maxIdle) :
    InUse c s.id s.maxIdle s.accessed (w.act (.save i)) := by
  have hsaved : Orderly c (fun _ _ => True) (w.act (.save i)) :=
    horderly.act hc (fun _ hnone => nomatch hnone) trivial
  refine ⟨hsaved, (w.setUpAs_act _).endless hendless, fun _ => ?_⟩
  obtain ⟨-, -, payload, due, mid, -, hputs, hsave⟩ :=
    hlands.exists_puts (horderly.codec ▸ hc.lawful)
  rw [repo_act_save hcopy, hsave]
  exact (hputs.awake hc (c.lasts_belongs _) horderly.codec horderly.store horderly.entries
    (horderly.copies i s hcopy) hendless hwhole rfl (Time.le_refl s.accessed) mid _).anytime _

/-- **A stored access counts until the interval has passed**, as long as no copy of the session
whose own last access is earlier is written, or found idle, by a save. -/
theorem find_after_access (hc : c.BuiltIn) {retention maxIdle : Duration} {names : List String}
    {rule : ChangeRule} {start : Time} {before after : List Deed}
    (hw : (Sharing.start c none none retention maxIdle names rule start).run before = w)
    (hvalues : ∀ d ∈ before ++ after, ∀ value ∈ d.value?,
      value.Valid ∧ value.depth ≤ c.depthLimit)
    {i : Nat} (hcopy : w.copies i = some s) (hlands : w.repo.Lands s w.now)
    (hwhole : Repository.Whole s.maxIdle)
    (hafter : Through (Undisturbed s.id s.maxIdle fun now t => ¬t.Recedes s.accessed now)
      (w.act (.save i)) after)
    (hlate : ((w.act (.save i)).run after).now ≤ later)
    (hearly : later.nanos < s.accessed.nanos + s.maxIdle.nanos) :
    ∃ u, (((w.act (.save i)).run after).repo.find s.id later).2 = .ok (some u) ∧ u.id = s.id := by
  obtain ⟨hbefore, hrest⟩ := List.forall_mem_append.1 hvalues
  have horderly : Orderly c (fun _ _ => True) w :=
    hw ▸ orderly_of_run hc none none retention maxIdle names rule start hbefore
  have hendless : w.repo.Endless := hw ▸ (setUpAs_run _ before).endless ⟨rfl, rfl⟩
  have hinUse := InUse.of_lands hc horderly hendless hcopy hlands hwhole
  have hrun := run_induction (fun _ _ h hd => InUse.act hc hwhole h hd.1 hd.2) hinUse
    (hafter.and_forall hrest)
  have hnow : ((w.act (.save i)).run after).now.nanos < s.accessed.nanos + s.maxIdle.nanos := by
    rw [Time.le_iff] at hlate
    omega
  exact ((hrun.awake hnow).anytime later).exists_find hrun.orderly.codec hearly

end Sharing

/-! ### Two visitors -/

namespace Sample

/-- An empty repository whose sessions may stay idle for a minute. -/
def minute : Sharing := .start .binary none none .zero (.ofSeconds 60) [] .identity start

/-- One copy is loaded at once, and another after fifty seconds. -/
def lateVisit : List Deed :=
  [.create 0 ⟨"x"⟩, .save 0, .load 1 ⟨"x"⟩ true, .tick (seconds 50 (by decide)),
    .load 2 ⟨"x"⟩ true]

def lateCopy : Session := ((minute.run lateVisit).copies 2).getD record

def comingBack : List Deed :=
  [.tick (seconds 80 (by decide)), .load 1 ⟨"x"⟩ true, .save 1]

/-- The first holder comes back with the old copy, which was last used a minute ago. -/
def comingBackLate : List Deed := [.tick (seconds 60 (by decide)), .save 1]

lemma lateCopy_held : (minute.run lateVisit).copies 2 = some lateCopy := by
  have hsome : ((minute.run lateVisit).copies 2).isSome = true := by decide +kernel
  obtain ⟨s, hs⟩ := Option.isSome_iff_exists.1 hsome
  rw [lateCopy, hs, Option.getD_some]

lemma lateCopy_lands : (minute.run lateVisit).repo.Lands lateCopy (minute.run lateVisit).now ∧
    Repository.Whole lateCopy.maxIdle := by
  unfold Repository.Whole
  decide +kernel

end Sample

namespace Sharing

open Sample

theorem find_after_access_coming_back :
    (minute.run lateVisit).copies 2 = some lateCopy ∧
      (minute.run lateVisit).repo.Lands lateCopy (minute.run lateVisit).now ∧
      Through (Undisturbed lateCopy.id lateCopy.maxIdle
          fun now t => ¬t.Recedes lateCopy.accessed now)
        ((minute.run lateVisit).act (.save 2)) comingBack ∧
      ∃ u, ((((minute.run lateVisit).act (.save 2)).run comingBack).repo.find lateCopy.id
        (seconds 105 (by decide))).2 = .ok (some u) ∧ u.id = lateCopy.id := by
  obtain ⟨hlands, hwhole⟩ := lateCopy_lands
  have hafter : Through (Undisturbed lateCopy.id lateCopy.maxIdle
      fun now t => ¬t.Recedes lateCopy.accessed now)
      ((minute.run lateVisit).act (.save 2)) comingBack := by decide +kernel
  have htimes : (((minute.run lateVisit).act (.save 2)).run comingBack).now ≤
      seconds 105 (by decide) ∧
        (seconds 105 (by decide)).nanos < lateCopy.accessed.nanos + lateCopy.maxIdle.nanos := by
    decide +kernel
  have hnone : (lateVisit ++ comingBack).filterMap Deed.value? = [] := rfl
  refine ⟨lateCopy_held, hlands, hafter, ?_⟩
  refine find_after_access .binary rfl (fun d hd value hvalue => ?_) lateCopy_held hlands hwhole
    hafter htimes.1 htimes.2
  rw [List.filterMap_eq_nil_iff.1 hnone d hd] at hvalue
  cases hvalue

/-- The old copy is idle by its own last access, so saving it removes the session. -/
theorem access_can_be_undone :
    ¬∀ (c : Codec) (_ : c.BuiltIn) (retention maxIdle : Duration) (names : List String)
      (rule : ChangeRule) (start : Time) (before after : List Deed) (w : Sharing) (i : Nat)
      (s : Session) (later : Time),
      (Sharing.start c none none retention maxIdle names rule start).run before = w →
        (∀ d ∈ before ++ after, ∀ value ∈ d.value?, value.Valid ∧ value.depth ≤ c.depthLimit) →
        w.copies i = some s → w.repo.Lands s w.now → Repository.Whole s.maxIdle →
        Through (Undisturbed s.id s.maxIdle fun _ _ => True) (w.act (.save i)) after →
        ((w.act (.save i)).run after).now ≤ later →
        later.nanos < s.accessed.nanos + s.maxIdle.nanos →
        ∃ u, (((w.act (.save i)).run after).repo.find s.id later).2 = .ok (some u) := by
  intro h
  obtain ⟨hlands, hwhole⟩ := lateCopy_lands
  have hafter : Through (Undisturbed lateCopy.id lateCopy.maxIdle fun _ _ => True)
      ((minute.run lateVisit).act (.save 2)) comingBackLate := by decide +kernel
  have htimes : (((minute.run lateVisit).act (.save 2)).run comingBackLate).now ≤
      seconds 60 (by decide) ∧
        (seconds 60 (by decide)).nanos < lateCopy.accessed.nanos + lateCopy.maxIdle.nanos := by
    decide +kernel
  have hgone : ((((minute.run lateVisit).act (.save 2)).run comingBackLate).repo.find lateCopy.id
      (seconds 60 (by decide))).2.map Option.isSome = .ok false := by decide +kernel
  have hnone : (lateVisit ++ comingBackLate).filterMap Deed.value? = [] := rfl
  obtain ⟨u, hu⟩ := h .binary .binary .zero (.ofSeconds 60) [] .identity Sample.start lateVisit
    comingBackLate (minute.run lateVisit) 2 lateCopy (seconds 60 (by decide)) rfl
    (fun d hd value hvalue => by
      rw [List.filterMap_eq_nil_iff.1 hnone d hd] at hvalue
      cases hvalue)
    lateCopy_held hlands hwhole hafter htimes.1 htimes.2
  rw [hu] at hgone
  cases hgone

end Sharing

end Sessions
