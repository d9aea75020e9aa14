import Sessions.Proofs.Sharing.Keys

/-!
# Principals of shared sessions

A record's principal is the text of its principal attribute. A delta always brings the principal of
the copy that is saved, but the attribute only if that copy has changed it. So the two stay in step
in the store as long as no copy is merged that has left the attribute alone and has another
principal than the stored record.
-/

namespace Sessions

namespace Session

variable {s t base : Session}

lemma namedPrincipal_congr {a b : Attributes}
    (h : (b.value? principalAttribute).bind Json.text? =
      (a.value? principalAttribute).bind Json.text?) : namedPrincipal b = namedPrincipal a := by
  rw [namedPrincipal, h, namedPrincipal]

lemma namedPrincipal_echoed (a : Attributes) : namedPrincipal a.echoed = namedPrincipal a := by
  refine namedPrincipal_congr ?_
  rw [Attributes.value?_echoed]
  cases a.value? principalAttribute with
  | none => rfl
  | some value => exact value.text?_echo

lemma InStep.reloaded (h : s.InStep) : s.echoed.reloaded.InStep := by
  have hvalue := (agrees_reloaded s.echoed).values principalAttribute
  have hnamed : namedPrincipal s.echoed.reloaded.attributes = namedPrincipal s.attributes :=
    (namedPrincipal_congr (congrArg (·.bind Json.text?) hvalue)).trans
      (namedPrincipal_echoed s.attributes)
  exact Eq.trans h hnamed.symm

/-- A record in step stays so when a copy in step is merged into it that has changed the attribute
or has the same principal. -/
lemma InStep.patched (hbase : base.InStep) (hs : s.InStep)
    (h : principalAttribute ∉ s.attributes.changedNames → base.principal = s.principal) :
    (base.patched s.echoed).InStep := by
  have hvalue : (base.patched s.echoed).attributes.value? principalAttribute =
      if principalAttribute ∈ s.attributes.changedNames
      then s.attributes.echoed.value? principalAttribute
      else base.attributes.value? principalAttribute := value?_patched base s.echoed _
  by_cases hchanged : principalAttribute ∈ s.attributes.changedNames
  · rw [if_pos hchanged] at hvalue
    have hnamed : namedPrincipal (base.patched s.echoed).attributes = namedPrincipal s.attributes :=
      (namedPrincipal_congr (by rw [hvalue])).trans (namedPrincipal_echoed s.attributes)
    exact Eq.trans hs hnamed.symm
  · rw [if_neg hchanged] at hvalue
    have hnamed : namedPrincipal (base.patched s.echoed).attributes =
        namedPrincipal base.attributes := namedPrincipal_congr (by rw [hvalue])
    exact (h hchanged).symm.trans (Eq.trans hbase hnamed.symm)

end Session

namespace Sharing

variable {names : List String} {w : Sharing}

/-- The copy, where it would be merged, has changed the principal's attribute or has the principal
of the stored record. -/
def PrincipalUpToDate (w : Sharing) (s : Session) : Prop :=
  s.hasDelta = true → s.needsFullWrite = false →
    principalAttribute ∉ s.attributes.changedNames →
      ∀ base ∈ w.repo.store.record? s.id w.now, base.principal = s.principal

instance (w : Sharing) (s : Session) : Decidable (w.PrincipalUpToDate s) := by
  unfold PrincipalUpToDate
  infer_instance

/-- What holds as long as no copy is saved with an outdated principal. -/
structure PrincipalInStep (names : List String) (w : Sharing) : Prop where
  binary : OnBinary names w
  copies : w.Held Session.InStep
  entries : ∀ id t, w.repo.store.Holds id t → t.InStep

lemma PrincipalInStep.held (h : PrincipalInStep names w) (d : Deed) :
    (w.act d).Held Session.InStep := by
  have hkeeps : w.Keeps Session.InStep d := by
    cases d with
    | create i id => exact fun _ => rfl
    | load i id lookup =>
      refine ⟨fun payload due t hst hdec => ?_, fun s => ?_⟩
      · rw [h.binary.repo.codec] at hdec
        exact h.entries id t (Store.holds_of_standing hst hdec)
      · exact (Session.edited_apply s .touch w.now).inStep
    | edit i e => exact fun s => (Session.edited_apply s e w.now).inStep
    | rotate i id => exact fun _ s _ hs => hs
    | save i => exact fun s _ hs => ⟨hs, fun _ => hs⟩
    | invalidate i => exact fun s hs => hs
    | clone _ _ | delete _ | tidy | tick _ => trivial
  exact held_act h.binary.repo.lawful hkeeps h.copies

lemma PrincipalInStep.act (h : PrincipalInStep names w) (d : Deed)
    (hcurrent : Saves PrincipalUpToDate w d) : PrincipalInStep names (w.act d) := by
  refine ⟨h.binary.act d, h.held d, ?_⟩
  rintro id t ⟨payload, keys, due, hlive, hdec⟩
  rcases live_act h.binary d hlive with ⟨hlive, -⟩ | ⟨i, s, rfl, hs, -, hdue, -, -, hleaves⟩
  · exact h.entries id t ⟨payload, keys, due, hlive, hdec⟩
  · obtain ⟨hform, hprincipal⟩ := h.binary.copies i s hs
    rcases hleaves.decoded hform hprincipal hdec with rfl | ⟨base, hneeds, hbase, -, rfl⟩
    · exact (h.copies i s hs).reloaded
    · have hstep : base.InStep := h.entries s.id base (Store.holds_of_record? hbase)
      have hdelta : s.hasDelta = true := by simpa [hneeds] using hdue
      refine (hstep.patched (h.copies i s hs) fun hchanged => ?_).reloaded
      exact hcurrent s hs hdelta hneeds hchanged base hbase

/-- **The principal of a stored record is that of the copy whose save wrote it**, and it is in step
with the record's attributes if no copy was saved with an outdated principal. -/
theorem principal_of_entries (hook : Option Hook) (expiry : Option Expiry)
    (retention maxIdle : Duration) (names : List String) (rule : ChangeRule) (now : Time)
    (deeds : List Deed) {id : Ident} {t : Session}
    (hholds : ((start .binary hook expiry retention maxIdle names rule now).run
      deeds).repo.store.Holds id t) :
    (∃ s, ((start .binary hook expiry retention maxIdle names rule now).run
        deeds).lastStored id = some s ∧ t.principal = s.principal) ∧
      (Through (Saves PrincipalUpToDate)
          (start .binary hook expiry retention maxIdle names rule now) deeds →
        t.principal = Session.namedPrincipal t.attributes) := by
  constructor
  · have hrun := keysOfSaver_run hook expiry retention maxIdle names rule now deeds
    obtain ⟨payload, keys, due, hlive, hdec⟩ := hholds
    obtain ⟨s, hlast, -, hprincipal⟩ := hrun.entries id payload keys due hlive
    exact ⟨s, hlast, hprincipal t hdec⟩
  · intro hcurrent
    have hstep : PrincipalInStep names
        (start .binary hook expiry retention maxIdle names rule now) :=
      ⟨onBinary_start hook expiry retention maxIdle names rule now, fun _ _ h => (nomatch h),
        fun _ _ ⟨_, _, _, h, _⟩ => nomatch h⟩
    have hrun := run_induction (fun _ d h hd => h.act d hd) hstep hcurrent
    exact hrun.entries id t hholds

end Sharing

/-! ### A sign-in -/

namespace Sample

def shared : Sharing := .start .binary none none .zero (.ofSeconds 1800) [] .identity start

/-- The second copy changes an attribute after it was loaded with the first holder's principal. -/
def signedIn : List Deed :=
  [.create 0 ⟨"x"⟩, .edit 0 (.principal (some "alice")), .save 0, .load 1 ⟨"x"⟩ true,
    .edit 1 (.set "k" (.int 1)), .save 1]

def signedInBetween : List Deed :=
  [.create 0 ⟨"x"⟩, .save 0, .load 1 ⟨"x"⟩ true, .edit 0 (.principal (some "alice")), .save 0,
    .edit 1 (.set "k" (.int 1)), .save 1]

lemma holds_of_liveX {w : Sharing} {t : Session} {keys : List IndexKey}
    (h : liveX w = some (t, keys)) : w.repo.store.Holds ⟨"x"⟩ t := by
  obtain ⟨payload, due, hlive, hdec⟩ := exists_of_liveX h
  exact ⟨payload, keys, due, hlive, hdec⟩

end Sample

namespace Sharing

open Sample

theorem principal_of_entries_signed_in :
    Through (Saves PrincipalUpToDate) shared signedIn ∧ ∃ t,
      (shared.run signedIn).repo.store.Holds ⟨"x"⟩ t ∧ t.principal = some "alice" ∧
        t.attributes.value? "k" = some (.int 1) ∧
        t.principal = Session.namedPrincipal t.attributes := by
  have hcurrent : Through (Saves PrincipalUpToDate) shared signedIn := by decide +kernel
  have hrecord : (liveX (shared.run signedIn)).map
      (fun x => (x.1.principal, x.1.attributes.value? "k")) =
        some (some "alice", some (.int 1)) := by decide +kernel
  obtain ⟨⟨t, keys⟩, hx, hfields⟩ := Option.map_eq_some_iff.1 hrecord
  obtain ⟨hprincipal, hvalue⟩ := Prod.mk.inj hfields
  have hholds := holds_of_liveX hx
  refine ⟨hcurrent, t, hholds, hprincipal, hvalue, ?_⟩
  rw [shared] at hholds hcurrent
  exact (principal_of_entries none none .zero (.ofSeconds 1800) [] .identity Sample.start signedIn
    hholds).2 hcurrent

/-- The second copy's save takes the principal out of the record, and leaves its attribute. -/
theorem principal_can_be_lost :
    ¬∀ (hook : Option Hook) (expiry : Option Expiry) (retention maxIdle : Duration)
      (names : List String) (rule : ChangeRule) (now : Time) (deeds : List Deed) (id : Ident)
      (t : Session),
      ((start .binary hook expiry retention maxIdle names rule now).run
          deeds).repo.store.Holds id t →
        t.principal = Session.namedPrincipal t.attributes := by
  intro h
  have hrecord : (liveX (shared.run signedInBetween)).map
      (fun x => (x.1.principal, Session.namedPrincipal x.1.attributes)) =
        some (none, some "alice") := by decide +kernel
  obtain ⟨⟨t, keys⟩, hx, hfields⟩ := Option.map_eq_some_iff.1 hrecord
  obtain ⟨hnone, halice⟩ := Prod.mk.inj hfields
  have hholds := holds_of_liveX hx
  rw [shared] at hholds
  have hsame := h none none .zero (.ofSeconds 1800) [] .identity Sample.start signedInBetween ⟨"x"⟩
    t hholds
  rw [hnone, halice] at hsame
  cases hsame

end Sharing

end Sessions
