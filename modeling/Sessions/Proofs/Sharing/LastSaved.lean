import Sessions.Proofs.Codec.Legibility
import Sessions.Proofs.IndexKey
import Sessions.Proofs.Sharing.Entries

/-!
# Sessions that are saved through one copy

When each session is saved through one copy only and no save fails, the copy notes all that has
changed since it was saved last. So the keys of every live entry are those of the record that was
last saved under its id, also where that save had nothing to write, although sessions are rotated,
removed, expire and are swept in between.
-/

namespace Sessions

namespace Session

variable {s t v : Session} {new : Option Json}

/-- The id that a record is stored under, if it is stored. -/
def home (s : Session) : Ident := s.previous.getD s.id

lemma new_or_persisted (h : s.phase.isEnded = false) : s.phase = .new ∨ s.phase = .persisted := by
  cases hphase : s.phase with
  | new => exact .inl rfl
  | persisted => exact .inr rfl
  | expired | deleted =>
    rw [hphase] at h
    cases h

lemma needsFullWrite_eq_false :
    s.needsFullWrite = false ↔ s.phase ≠ .new ∧ s.previous = none := by
  simp [needsFullWrite]

lemma home_of_previous (h : s.previous = none) : s.home = s.id := by
  rw [home, h]
  rfl

lemma Edited.home (h : Edited new s t) : t.home = s.home := by
  rw [Session.home, h.previous, h.id, Session.home]

lemma home_rotate (hphase : s.phase = .persisted) (id : Ident) : (s.rotate id).home = s.home := by
  cases hp : s.previous with
  | none => simp [home, rotate, hp, hphase]
  | some previous => simp [home, rotate, hp]

lemma tracks_commit (s : Session) : Tracks s s.commit :=
  ⟨rfl, rfl, rfl, fun _ => ⟨rfl, rfl, rfl⟩, fun _ _ => rfl⟩

lemma Tracks.ofSession_eq (h : Tracks v s) (hclean : s.attributes.LogClean)
    (hdelta : s.hasDelta = false) (names : List String) :
    IndexKey.ofSession s names = IndexKey.ofSession v names := by
  obtain ⟨hdirty, hlog⟩ := Bool.or_eq_false_iff.1 hdelta
  have hvalues : ∀ name, s.attributes.value? name = v.attributes.value? name := fun name =>
    h.values name (by rw [hclean hlog]; exact List.not_mem_nil)
  simp only [IndexKey.ofSession, (h.noted hdirty).2.2, hvalues]

lemma InStep.principal_eq_iff (h : s.InStep) {name : String} : s.principal = some name ↔
    name ≠ "" ∧ s.attributes.value? principalAttribute = some (.str name) := by
  have htext : ∀ value : Json, value.text? = some name ↔ value = .str name := by
    intro value
    cases value <;> simp [Json.text?]
  rw [show s.principal = _ from h, namedPrincipal, Option.filter_eq_some_iff]
  simp only [Option.bind_eq_some_iff, htext, exists_eq_right, decide_eq_true_eq]
  exact and_comm

end Session

namespace Sharing

variable {c : Codec} {names : List String} {speaker : Ident → Nat} {w w' : Sharing} {i : Nat}
  {s : Session}

/-- The record that was saved last under an id, whether or not it had to be written. -/
def lastSaved (w : Sharing) (id : Ident) : Option Session :=
  (w.saves.find? fun v => v.copy.id = id).map (·.copy)

lemma lastSaved_congr (h : w'.saves = w.saves) (id : Ident) : w'.lastSaved id = w.lastSaved id := by
  rw [lastSaved, h, lastSaved]

/-- The texts behind the keys of all records that were saved. -/
def hashed (w : Sharing) : List String :=
  w.saves.flatMap fun v => IndexKey.textsOf v.copy w.repo.indexable

/-- Each session is saved through one copy: that of the holder whom `speaker` names. The holder
saves no session of another, and does not take another copy of the own one. -/
def Sole (speaker : Ident → Nat) (w : Sharing) : Deed → Prop
  | .save i => ∀ s ∈ w.copies i, speaker s.id = i ∧ speaker s.home = i
  | .load i id _ => speaker id ≠ i
  | .clone j i => ∀ s ∈ w.copies j, s.phase = .persisted → speaker s.home ≠ i
  | _ => True

instance (speaker : Ident → Nat) (w : Sharing) : ∀ d, Decidable (Sole speaker w d)
  | .save i =>
    inferInstanceAs (Decidable (∀ s ∈ w.copies i, speaker s.id = i ∧ speaker s.home = i))
  | .load i id _ => inferInstanceAs (Decidable (speaker id ≠ i))
  | .clone j i =>
    inferInstanceAs (Decidable (∀ s ∈ w.copies j, s.phase = .persisted → speaker s.home ≠ i))
  | .create .. | .edit .. | .rotate .. | .invalidate .. | .delete .. | .tidy | .tick .. =>
    .isTrue trivial

def Succeeds (w : Sharing) (s : Session) : Prop := (w.repo.save s w.now).2.2 = .ok ()

instance (w : Sharing) (s : Session) : Decidable (w.Succeeds s) :=
  inferInstanceAs (Decidable (_ = _))

/-! ## Copies that speak for their sessions -/

/-- What is known of a holder's copy: where it speaks for its session, its principal is the one that
its attributes name, and it notes what has changed since it was last saved. -/
structure Speaks (speaker : Ident → Nat) (w : Sharing) (i : Nat) (s : Session) : Prop where
  inStep : s.phase = .new ∨ s.phase = .persisted ∧ speaker s.home = i → s.InStep
  tracks : s.phase = .persisted → speaker s.home = i →
    ∃ v, w.lastSaved s.home = some v ∧ v.Tracks s

lemma Speaks.frame (h : Speaks speaker w i s)
    (hsaved : ∀ id, speaker id = i → w'.lastSaved id = w.lastSaved id) :
    Speaks speaker w' i s where
  inStep := h.inStep
  tracks hphase hhome := by
    rw [hsaved s.home hhome]
    exact h.tracks hphase hhome

lemma speaks_of_not (hnew : s.phase ≠ .new) (h : s.phase = .persisted → speaker s.home ≠ i) :
    Speaks speaker w i s :=
  ⟨fun hcase => (hcase.resolve_left hnew).elim fun hphase hhome => absurd hhome (h hphase),
    fun hphase hhome => absurd hhome (h hphase)⟩

lemma speaks_of_ended (h : s.phase.isEnded = true) : Speaks speaker w i s := by
  refine speaks_of_not ?_ ?_ <;> intro hphase <;> rw [hphase] at h <;> cases h

lemma Speaks.edited {t : Session} {new : Option Json} (h : Speaks speaker w i s)
    (hrule : s.attributes.rule.Notices) (hedit : Session.Edited new s t) :
    Speaks speaker w i t := by
  have hhome := hedit.home
  refine ⟨fun hcase => hedit.inStep (h.inStep ?_), fun hphase hspeaks => ?_⟩
  · rwa [hedit.phase, hhome] at hcase
  · rw [hedit.phase] at hphase
    rw [hhome] at hspeaks ⊢
    obtain ⟨v, hv, htracks⟩ := h.tracks hphase hspeaks
    exact ⟨v, hv, htracks.edited hrule hedit⟩

lemma Speaks.rotate (h : Speaks speaker w i s) (id : Ident) :
    Speaks speaker w i (s.rotate id) := by
  have hhome : s.phase = .persisted → (s.rotate id).home = s.home :=
    fun hphase => Session.home_rotate hphase id
  refine ⟨fun hcase => h.inStep ?_, fun hphase hspeaks => ?_⟩
  · rcases hcase with hnew | ⟨hphase, hspeaks⟩
    · exact .inl hnew
    · rw [hhome hphase] at hspeaks
      exact .inr ⟨hphase, hspeaks⟩
  · rw [hhome hphase] at hspeaks ⊢
    obtain ⟨v, hv, htracks⟩ := h.tracks hphase hspeaks
    exact ⟨v, hv, htracks.rotate hphase id⟩

lemma speaks_of_saved {t : Session} (hstep : t.InStep) (hlast : w.lastSaved t.home = some s)
    (htracks : s.Tracks t) : Speaks speaker w i t :=
  ⟨fun _ => hstep, fun _ _ => ⟨s, hlast, htracks⟩⟩

lemma lastSaved_afterSave (w : Sharing) (i : Nat) (s s' : Session) (r : Repository) (id : Ident) :
    (w.afterSave i s (r, s', .ok ())).lastSaved id =
      if s.id = id then some s else w.lastSaved id := by
  rw [lastSaved, afterSave, List.find?_cons]
  by_cases hid : s.id = id
  · simp [hid]
  · simp [hid, lastSaved]

/-! ## The invariant of runs -/

/-- What was saved last tells the keys of every live entry. -/
structure Told (names : List String) (speaker : Ident → Nat) (w : Sharing) : Prop where
  speaks : ∀ i s, w.copies i = some s → Speaks speaker w i s
  saved : ∀ v ∈ w.saves, v.copy.InStep
  entries : ∀ id payload keys due, w.repo.store.find? id = some (.live payload keys due) →
    ∃ s, w.lastSaved id = some s ∧ keys = IndexKey.ofSession s names

/-- **What holds as long as each session is saved through one copy** and no save fails. -/
structure Solo (c : Codec) (names : List String) (speaker : Ident → Nat) (w : Sharing) : Prop where
  orderly : Orderly c (fun _ _ => True) w
  indexable : w.repo.indexable = names
  rule : w.repo.rule.Notices
  copies : w.Held fun s => s.attributes.rule.Notices ∧ s.attributes.LogClean
  told : Told names speaker w

lemma solo_start (c : Codec) (hook : Option Hook) (expiry : Option Expiry)
    (retention maxIdle : Duration) (names : List String) {rule : ChangeRule} (hrule : rule.Notices)
    (now : Time) (speaker : Ident → Nat) :
    Solo c names speaker (start c hook expiry retention maxIdle names rule now) where
  orderly := orderly_start c hook expiry retention maxIdle names rule now
  indexable := rfl
  rule := hrule
  copies _ _ h := nomatch h
  told := ⟨fun _ _ h => (nomatch h), fun _ h => (nomatch h), fun _ _ _ _ h => nomatch h⟩

namespace Solo

variable {d : Deed}

lemma lawful (h : Solo c names speaker w) (hc : c.BuiltIn) : w.repo.codec.Lawful :=
  h.orderly.codec ▸ hc.lawful

lemma held (hc : c.BuiltIn) (h : Solo c names speaker w) (d : Deed) :
    (w.act d).Held fun s => s.attributes.rule.Notices ∧ s.attributes.LogClean := by
  have hedited : ∀ e s, s.attributes.rule.Notices ∧ s.attributes.LogClean →
      (Edit.apply w.now s e).attributes.rule.Notices ∧
        (Edit.apply w.now s e).attributes.LogClean := by
    intro e s hs
    have hedit := (Session.edited_apply s e w.now).attributes
    exact ⟨by rw [hedit.rule]; exact hs.1, hedit.clean hs.2⟩
  have hkeeps : w.Keeps (fun s => s.attributes.rule.Notices ∧ s.attributes.LogClean) d := by
    cases d with
    | create i id => exact fun _ => ⟨h.rule, fun _ => rfl⟩
    | load i id lookup =>
      refine ⟨fun payload due t _ hdec => ?_, hedited .touch⟩
      rw [h.orderly.codec, Codec.decode_eq_ok] at hdec
      exact ⟨h.rule, (hc.fresh_read hdec).1.logClean⟩
    | edit i e => exact hedited e
    | rotate i id => exact fun _ s _ hs => hs
    | save i => exact fun s _ hs => ⟨⟨hs.1, fun _ => rfl⟩, fun _ => hs⟩
    | invalidate i => exact fun s hs => hs
    | clone _ _ | delete _ | tidy | tick _ => trivial
  exact held_act (h.lawful hc) hkeeps h.copies

/-- What speaks still does if one holder gets another copy, and no other holder's session was
saved. -/
lemma speaks_of_hold (h : Solo c names speaker w) {j : Nat} {t u : Session}
    (hu : w'.copies j = some u) (hcopies : w'.copies = Function.update w.copies i (some t))
    (hsaved : ∀ id, speaker id ≠ i → w'.lastSaved id = w.lastSaved id)
    (ht : Speaks speaker w' i t) : Speaks speaker w' j u := by
  rw [hcopies] at hu
  by_cases hj : j = i
  · subst hj
    rw [Function.update_self] at hu
    exact Option.some.inj hu ▸ ht
  · rw [Function.update_of_ne hj] at hu
    exact (h.told.speaks j u hu).frame fun id hid => hsaved id fun hi => hj (hid.symm.trans hi)

lemma inStep_of_open (h : Solo c names speaker w) (hs : w.copies i = some s)
    (hopen : s.phase.isEnded = false) (hhome : speaker s.home = i) : s.InStep :=
  (h.told.speaks i s hs).inStep
    ((Session.new_or_persisted hopen).imp_right fun hphase => ⟨hphase, hhome⟩)

/-! ### One deed -/

/-- What a save has to leave in the store and in the copy, so that the keys are told. -/
lemma told_afterSave (h : Solo c names speaker w) (hid : speaker s.id = i) (hstep : s.InStep)
    {r : Repository} {s' : Session}
    (hspeaks : Speaks speaker (w.afterSave i s (r, s', .ok ())) i s')
    (hentries : ∀ id payload keys due, r.store.find? id = some (.live payload keys due) →
      if s.id = id then keys = IndexKey.ofSession s names
      else w.repo.store.find? id = some (.live payload keys due)) :
    Told names speaker (w.afterSave i s (r, s', .ok ())) where
  speaks j t ht := by
    refine h.speaks_of_hold ht rfl (fun id hne => ?_) hspeaks
    rw [lastSaved_afterSave, if_neg]
    rintro rfl
    exact hne hid
  saved v hv := by
    rcases List.mem_cons.1 hv with rfl | hold
    · exact hstep
    · exact h.told.saved v hold
  entries id payload keys due hlive := by
    have hkeys := hentries id payload keys due (by rwa [repo_afterSave] at hlive)
    rw [lastSaved_afterSave]
    split at hkeys
    next heq => exact ⟨s, if_pos heq, hkeys⟩
    next hne =>
      rw [if_neg hne]
      exact h.told.entries id payload keys due hkeys

/-- **A save that succeeds tells the keys**, also if it had nothing to write. -/
lemma told_save (hc : c.BuiltIn) (h : Solo c names speaker w) (hs : w.copies i = some s)
    (hsole : speaker s.id = i ∧ speaker s.home = i) (hok : w.Succeeds s) :
    Told names speaker (w.afterSave i s (w.repo.save s w.now)) := by
  have hstoring := Repository.storing_save (h.lawful hc) s w.now
  rw [Succeeds] at hok
  generalize w.repo.save s w.now = saved at hstoring hok ⊢
  cases hstoring with
  | ended _ => cases hok
  | failed _ _ => cases hok
  | idle hopen hnew _ =>
    refine h.told_afterSave hsole.1 (h.inStep_of_open hs hopen hsole.2)
      (speaks_of_ended rfl) fun id payload keys due hlive => ?_
    have hold := Repository.live_delete hlive
    split
    next heq =>
      rw [Repository.delete, Store.find?_remove, if_pos heq] at hlive
      cases hlive
    next => exact hold
  | skipped hopen _ hdelta hfull =>
    -- what is saved has the keys of what was saved before
    obtain ⟨hnew, hprevious⟩ := Session.needsFullWrite_eq_false.1 hfull
    have hphase : s.phase = .persisted := (Session.new_or_persisted hopen).resolve_left hnew
    have hhome := Session.home_of_previous hprevious
    have hstep := h.inStep_of_open hs hopen hsole.2
    obtain ⟨v, hv, htracks⟩ := (h.told.speaks i s hs).tracks hphase hsole.2
    refine h.told_afterSave hsole.1 hstep (speaks_of_saved hstep ?_ (Session.tracks_self hprevious))
      fun id payload keys due hlive => ?_
    · rw [lastSaved_afterSave, hhome, if_pos rfl]
    · split
      next heq =>
        obtain ⟨u, hu, hkeys⟩ := h.told.entries id payload keys due hlive
        rw [← heq, ← hhome, hv] at hu
        obtain rfl := Option.some.inj hu
        rw [hkeys, htracks.ofSession_eq (h.copies i s hs).2 hdelta]
      next => exact hlive
  | stored hopen _ _ hmid _ =>
    have hstep := h.inStep_of_open hs hopen hsole.2
    refine h.told_afterSave hsole.1 hstep
      (speaks_of_saved hstep ?_ (Session.tracks_commit s)) fun id payload keys due hlive => ?_
    · exact (lastSaved_afterSave ..).trans (if_pos rfl)
    · rw [Store.find?_insert] at hlive
      split at hlive
      next heq =>
        obtain ⟨-, rfl, -⟩ := Entry.live.inj (Option.some.inj hlive)
        rw [if_pos heq, h.indexable]
      next hne =>
        rw [if_neg hne]
        exact Repository.live_vacate (hmid.live id payload keys due hlive)

lemma home_of_load (hc : c.BuiltIn) (h : Solo c names speaker w) (id : Ident) (lookup : Bool)
    (hfound : ((if lookup then w.repo.find id w.now else w.repo.load id w.now)).2 = .ok (some s)) :
    s.phase = .persisted ∧ s.home = id := by
  have hread : ∀ payload due t, w.repo.store.standing id w.now = some (payload, due) →
      w.repo.codec.decode payload = .ok t → t.phase = .persisted ∧ t.home = id := by
    intro payload due t hst hdec
    obtain ⟨u, hback, hid, -⟩ := h.orderly.entries.standing hst
    rw [h.orderly.codec] at hdec
    obtain rfl := Except.ok.inj (hback.decode.symm.trans hdec)
    obtain ⟨hfresh, -⟩ := hc.fresh_read (Codec.decode_eq_ok.1 hdec)
    exact ⟨hfresh.phase, by rw [Session.home, hfresh.previous, Option.getD_none, hid]⟩
  cases lookup with
  | false =>
    obtain ⟨payload, due, t, hst, hdec, -, rfl⟩ := load_eq_some hfound
    exact hread payload due t hst hdec
  | true =>
    obtain ⟨payload, due, t, hst, hdec, -, rfl⟩ := find_eq_some hfound
    obtain ⟨hphase, hhome⟩ := hread payload due t hst hdec
    have hedit := Session.edited_apply (t.withRule w.repo.rule) .touch w.now
    exact ⟨hedit.phase.trans hphase, hedit.home.trans hhome⟩

lemma speaks_change (h : Solo c names speaker w) {f : Session → Session} {j : Nat} {t : Session}
    (hf : ∀ s, w.copies i = some s → Speaks speaker w i (f s))
    (ht : (w.change i f).copies j = some t) : Speaks speaker (w.change i f) j t := by
  unfold change at ht ⊢
  split at ht
  next s hs => exact h.speaks_of_hold ht rfl (fun _ _ => rfl) ((hf s hs).frame fun _ _ => rfl)
  next => exact h.told.speaks j t ht

lemma speaks_load (hc : c.BuiltIn) (h : Solo c names speaker w) {id : Ident} {lookup : Bool}
    (hsole : speaker id ≠ i) {j : Nat} {t : Session}
    (ht : (w.act (.load i id lookup)).copies j = some t) :
    Speaks speaker (w.act (.load i id lookup)) j t := by
  rw [Sharing.act] at ht ⊢
  have hhome := fun s => @home_of_load c names speaker w s hc h id lookup
  generalize (if lookup then w.repo.find id w.now else w.repo.load id w.now) = found at ht hhome ⊢
  unfold afterLoad at ht ⊢
  split at ht
  next r s =>
    obtain ⟨hphase, rfl⟩ := hhome s rfl
    exact h.speaks_of_hold ht rfl (fun _ _ => rfl)
      (speaks_of_not (by simp [hphase]) fun _ => hsole)
  next => exact (h.told.speaks j t ht).frame fun _ _ => rfl

lemma speaks_clone (h : Solo c names speaker w) {k : Nat} (hsole : Sole speaker w (.clone k i))
    {j : Nat} {t : Session} (ht : (w.act (.clone k i)).copies j = some t) :
    Speaks speaker (w.act (.clone k i)) j t := by
  rw [Sharing.act] at ht ⊢
  split at ht
  next s hs =>
    have hother : s.phase = .persisted → speaker s.home ≠ i := hsole s hs
    refine h.speaks_of_hold ht rfl (fun _ _ => rfl) ?_
    by_cases hnew : s.phase = .new
    · exact ⟨fun _ => (h.told.speaks k s hs).inStep (.inl hnew),
        fun hphase hspeaks => absurd hspeaks (hother hphase)⟩
    · exact speaks_of_not hnew hother
  next => exact h.told.speaks j t ht

/-- **Every deed leaves copies speaking for their sessions.** -/
lemma speaks_act (hc : c.BuiltIn) (h : Solo c names speaker w) (hsole : Sole speaker w d)
    (hok : Saves Succeeds w d) {j : Nat} {t : Session} (ht : (w.act d).copies j = some t) :
    Speaks speaker (w.act d) j t := by
  cases d with
  | create i id =>
    rw [Sharing.act] at ht ⊢
    split at ht
    next hid =>
      rw [if_pos hid]
      exact h.told.speaks j t ht
    next hid =>
      rw [if_neg hid]
      exact h.speaks_of_hold ht rfl (fun _ _ => rfl) ⟨fun _ => rfl, fun hphase => by cases hphase⟩
  | load i id lookup => exact h.speaks_load hc hsole ht
  | clone k i => exact h.speaks_clone hsole ht
  | edit i e =>
    exact h.speaks_change (fun s hs => (h.told.speaks i s hs).edited (h.copies i s hs).1
      (Session.edited_apply s e w.now)) ht
  | rotate i id =>
    rw [Sharing.act] at ht ⊢
    split at ht
    next hid =>
      rw [if_pos hid]
      exact h.told.speaks j t ht
    next hid =>
      rw [if_neg hid]
      exact h.speaks_change (fun s hs => (h.told.speaks i s hs).rotate id) ht
  | save i =>
    rw [Sharing.act] at ht ⊢
    split at ht
    next s hs => exact (h.told_save hc hs (hsole s hs) (hok s hs)).speaks j t ht
    next => exact h.told.speaks j t ht
  | invalidate i =>
    rw [Sharing.act] at ht ⊢
    split at ht
    next s hs => exact h.speaks_of_hold ht rfl (fun _ _ => rfl) (speaks_of_ended rfl)
    next => exact h.told.speaks j t ht
  | delete id | tidy | tick now => exact (h.told.speaks j t ht).frame fun _ _ => rfl

/-- **Every deed leaves the keys told** by what was saved last. -/
lemma told_act (hc : c.BuiltIn) (h : Solo c names speaker w) (hsole : Sole speaker w d)
    (hok : Saves Succeeds w d) : Told names speaker (w.act d) := by
  have hother : (w.act d).saves = w.saves → (∀ id payload keys due,
      (w.act d).repo.store.find? id = some (.live payload keys due) →
        w.repo.store.find? id = some (.live payload keys due)) → Told names speaker (w.act d) := by
    intro hsaves hlive
    refine ⟨fun j t ht => h.speaks_act hc hsole hok ht, fun v hv => h.told.saved v (hsaves ▸ hv),
      fun id payload keys due hnow => ?_⟩
    rw [lastSaved_congr hsaves]
    exact h.told.entries id payload keys due (hlive id payload keys due hnow)
  cases w.acts d with
  | still hrepo hsaves =>
    refine hother hsaves fun id payload keys due hlive => ?_
    rwa [hrepo] at hlive
  | loads _ hrepo hsaves =>
    refine hother hsaves fun id payload keys due hlive => ?_
    rw [hrepo] at hlive
    exact Repository.live_load hlive
  | removes _ hrepo hsaves =>
    refine hother hsaves fun id payload keys due hlive => ?_
    rw [hrepo] at hlive
    exact Repository.live_delete hlive
  | tidies _ hrepo hsaves =>
    refine hother hsaves fun id payload keys due hlive => ?_
    rw [hrepo] at hlive
    exact (Store.settled_tidy w.now w.repo.store).live id payload keys due hlive
  | @saves i s hd hs hact =>
    subst hd
    rw [hact]
    exact h.told_save hc hs (hsole s hs) (hok s hs)

/-- **Every deed keeps this**, if its saves are by the one copy and succeed. -/
theorem act (hc : c.BuiltIn) (h : Solo c names speaker w)
    (hvalue : ∀ value ∈ d.value?, value.Valid ∧ value.depth ≤ c.depthLimit)
    (hsole : Sole speaker w d) (hok : Saves Succeeds w d) : Solo c names speaker (w.act d) where
  orderly := h.orderly.act hc hvalue (dates_any w d)
  indexable := (w.setUpAs_act d).indexable.trans h.indexable
  rule := (w.setUpAs_act d).rule ▸ h.rule
  copies := h.held hc d
  told := h.told_act hc hsole hok

end Solo

/-! ### Runs -/

/-- Deeds bring a repository with one of the usual rules to a state, each session is saved through
one copy on the way, and no save fails. -/
def Reached (c : Codec) (names : List String) (speaker : Ident → Nat) (deeds : List Deed)
    (w : Sharing) : Prop :=
  ∃ (hook : Option Hook) (expiry : Option Expiry) (retention maxIdle : Duration) (rule : ChangeRule)
    (now : Time), (rule = .identity ∨ rule = .always) ∧
      Through (fun w d => Sole speaker w d ∧ Saves Succeeds w d)
        (start c hook expiry retention maxIdle names rule now) deeds ∧
      w = (start c hook expiry retention maxIdle names rule now).run deeds

lemma Reached.solo (hc : c.BuiltIn) {deeds : List Deed}
    (hvalues : ∀ d ∈ deeds, ∀ value ∈ d.value?, value.Valid ∧ value.depth ≤ c.depthLimit)
    (h : Reached c names speaker deeds w) : Solo c names speaker w := by
  obtain ⟨hook, expiry, retention, maxIdle, rule, now, hrule, hthrough, rfl⟩ := h
  have hnotices : rule.Notices := by
    rcases hrule with rfl | rfl
    · exact notices_identity
    · exact notices_always
  refine run_induction (fun w d h hd => ?_)
    (solo_start c hook expiry retention maxIdle names hnotices now speaker)
    (hthrough.and_forall hvalues)
  obtain ⟨⟨hsole, hok⟩, hvalue⟩ := hd
  exact h.act hc hvalue hsole hok

end Sharing

end Sessions
