import Sessions.Proofs.Repository.Ending
import Sessions.Proofs.Sharing.Basic

/-!
# What removed ids come back by

An id goes when it is deleted, when a copy with it is invalidated, or when a save moves a session
away from it. Copies that were held before do not know. As long as no save of a copy with that id is
written, nothing is found under the id again. One that is written has nothing to merge its changes
into, so it stores its copy whole, and the session is back.
-/

namespace Sessions

open Store (Settled)

namespace Repository

variable {r r' : Repository} {id : Ident} {s : Session} {now : Time}

/-- Nothing stands under the id, at any time. -/
def Absent (id : Ident) (r : Repository) : Prop := ∀ time, r.store.standing id time = none

lemma Absent.fades (h : r.Absent id) (hfades : Fades id r r') : r'.Absent id := by
  intro time
  cases hst : r'.store.standing id time with
  | none => rfl
  | some x =>
    have hbefore := hfades.standing time x hst
    rw [h time] at hbefore
    cases hbefore

lemma Absent.find (h : r.Absent id) (now : Time) : (r.find id now).2 = .ok none :=
  find_of_none (h now)

lemma absent_delete (r : Repository) (id : Ident) : (r.delete id).Absent id := by
  intro time
  rw [standing_delete, if_pos rfl]

/-- A save that is not written, or is written under another id, brings nothing back. -/
lemma fades_of_not_lands (hlaw : r.codec.Lawful) (h : s.id = id → ¬r.Lands s now) :
    Fades id r (r.save s now).1 := by
  by_cases hid : s.id = id
  · have hlands := h hid
    unfold Lands at hlands
    have hstoring := storing_save hlaw s now
    generalize r.save s now = saved at hstoring hlands
    cases hstoring with
    | ended _ => exact Fades.refl id r
    | failed hst _ =>
      have hvacate := (fades_vacate r s id).trans (fades_settled hst id)
      rwa [(setUpAs_vacate r s).repo] at hvacate
    | idle _ _ _ => exact fades_delete r s.id id
    | skipped _ _ _ _ => exact Fades.refl id r
    | stored hopen _ hdue _ _ => exact absurd ⟨rfl, commit_phase_ne_expired hopen, hdue⟩ hlands
  · exact fades_save r hlaw s now hid

lemma Lands.absent (hlaw : r.codec.Lawful) (h : r.Lands s now) (hprevious : s.previous = some id)
    (hne : s.id ≠ id) : (r.save s now).1.Absent id := by
  obtain ⟨-, -, payload, due, mid, hmid, -, hsave⟩ := h.exists_puts hlaw
  have hvacated : (r.vacate s).Absent id := by
    intro time
    rw [standing_vacate, if_pos hprevious]
  have hleft : Absent id { r.vacate s with store := mid } :=
    hvacated.fades (fades_settled hmid id)
  intro time
  rw [hsave]
  exact (Store.standing_insert s.id id payload _ due).trans ((if_neg hne).trans (hleft time))

/-- **What comes back is the whole copy**: with nothing to merge into, a save that is written stores
a full payload of its record. -/
theorem Lands.exists_whole (hlaw : r.codec.Lawful) (h : r.Lands s now) (hid : r.Absent s.id) :
    ∃ payload keys due, (r.save s now).1.store.find? s.id = some (.live payload keys due) ∧
      ((r.codec.encode s).2 = .ok payload ∧
          (∃ header, Header.read payload = .ok header ∧ header.isDelta = false) ∨
        (r.codec.encodeFull s.commit).2 = .ok payload) := by
  obtain ⟨-, -, payload, due, mid, -, hputs, hsave⟩ := h.exists_puts hlaw
  refine ⟨payload, IndexKey.ofSession s r.indexable, due, ?_, ?_⟩
  · rw [hsave, Store.find?_insert, if_pos rfl]
  · cases hputs with
    | @whole header henc hread hfull _ => exact .inl ⟨congrArg Prod.snd henc, header, hread, hfull⟩
    | resent _ _ hfull _ => exact .inr (congrArg Prod.snd hfull)
    | merged _ _ _ hold _ =>
      have hbefore := (fades_vacate r s s.id).standing now _ hold
      rw [hid now] at hbefore
      cases hbefore

end Repository

/-- The deed gives its holder a copy from the repository. -/
def Deed.obtains : Deed → Bool
  | .create _ _ | .load _ _ _ => true
  | _ => false

namespace Sharing

variable {id : Ident} {w : Sharing} {d : Deed} {s : Session}

/-- The deed removes the id: by deleting it, by invalidating a copy with it, or by a save that moves
a session from it to another id. -/
def Removes (id : Ident) (w : Sharing) : Deed → Prop
  | .delete other => other = id
  | .invalidate i => ∃ s ∈ w.copies i, s.id = id
  | .save i => ∃ s ∈ w.copies i, s.previous = some id ∧ s.id ≠ id ∧ w.repo.Lands s w.now
  | _ => False

/-- The deed is a save that is written under the id. -/
def Revives (id : Ident) (w : Sharing) : Deed → Prop
  | .save i => ∃ s ∈ w.copies i, s.id = id ∧ w.repo.Lands s w.now
  | _ => False

instance (id : Ident) (w : Sharing) : ∀ d, Decidable (Removes id w d)
  | .delete other => inferInstanceAs (Decidable (other = id))
  | .invalidate i => inferInstanceAs (Decidable (∃ s ∈ w.copies i, s.id = id))
  | .save i => inferInstanceAs
      (Decidable (∃ s ∈ w.copies i, s.previous = some id ∧ s.id ≠ id ∧ w.repo.Lands s w.now))
  | .create .. | .load .. | .clone .. | .edit .. | .rotate .. | .tidy | .tick .. =>
    .isFalse not_false

instance (id : Ident) (w : Sharing) : ∀ d, Decidable (Revives id w d)
  | .save i => inferInstanceAs (Decidable (∃ s ∈ w.copies i, s.id = id ∧ w.repo.Lands s w.now))
  | .create .. | .load .. | .clone .. | .edit .. | .rotate .. | .invalidate .. | .delete .. | .tidy
  | .tick .. => .isFalse not_false

lemma absent_of_removes (hlaw : w.repo.codec.Lawful) (h : Removes id w d) :
    (w.act d).repo.Absent id := by
  cases d with
  | delete other =>
    obtain rfl := h
    exact Repository.absent_delete w.repo other
  | invalidate i =>
    obtain ⟨s, hs, rfl⟩ := h
    rw [act, Option.mem_def.1 hs]
    exact Repository.absent_delete w.repo s.id
  | save i =>
    obtain ⟨s, hs, hprevious, hne, hlands⟩ := h
    rw [repo_act_save hs]
    exact hlands.absent hlaw hprevious hne
  | create _ _ | load _ _ _ | clone _ _ | edit _ _ | rotate _ _ | tidy | tick _ => exact h.elim

lemma absent_act (hlaw : w.repo.codec.Lawful) (h : w.repo.Absent id) (hd : ¬Revives id w d) :
    (w.act d).repo.Absent id := by
  cases w.acts d with
  | still hrepo _ =>
    rw [hrepo]
    exact h
  | loads _ hrepo _ =>
    rw [hrepo]
    exact h.fades (Repository.fades_load w.repo _ w.now)
  | removes _ hrepo _ =>
    rw [hrepo]
    exact h.fades (Repository.fades_delete w.repo _ id)
  | tidies _ hrepo _ =>
    rw [hrepo]
    exact h.fades (Repository.fades_settled (Store.settled_tidy w.now w.repo.store) id)
  | @saves i s heq hs hact =>
    subst heq
    rw [hact, repo_afterSave]
    refine h.fades (Repository.fades_of_not_lands hlaw fun hid hlands => hd ?_)
    exact ⟨s, hs, hid, hlands⟩

/-- **A removed id stays away until a save of a copy with that id is written.** Until then nothing
is found under it at any time, whatever is done with copies and ids. A copy that is written then has
not ended, is not idle and has something to write, and it is stored whole. -/
theorem absent_until_landing (hlaw : w.repo.codec.Lawful) (hremoves : Removes id w d)
    {deeds : List Deed} (hdeeds : Through (fun w e => ¬Revives id w e) (w.act d) deeds) :
    (∀ time, (((w.act d).run deeds).repo.find id time).2 = .ok none) ∧
      ∀ i s, ((w.act d).run deeds).copies i = some s → s.id = id →
        ((w.act d).run deeds).repo.Lands s ((w.act d).run deeds).now →
        (s.phase.isEnded = false ∧
            (s.phase = .new ∨ s.isExpired ((w.act d).run deeds).now = false) ∧
            (s.hasDelta = true ∨ s.needsFullWrite = true)) ∧
          ∃ payload keys due,
            (((w.act d).run deeds).act (.save i)).repo.store.find? id =
                some (.live payload keys due) ∧
              ((w.repo.codec.encode s).2 = .ok payload ∧
                  (∃ header, Header.read payload = .ok header ∧ header.isDelta = false) ∨
                (w.repo.codec.encodeFull s.commit).2 = .ok payload) := by
  have hstart : (w.act d).repo.codec = w.repo.codec ∧ (w.act d).repo.Absent id :=
    ⟨(w.setUpAs_act d).codec, absent_of_removes hlaw hremoves⟩
  have hstep : ∀ (v : Sharing) (e : Deed),
      v.repo.codec = w.repo.codec ∧ v.repo.Absent id → ¬Revives id v e →
        (v.act e).repo.codec = w.repo.codec ∧ (v.act e).repo.Absent id :=
    fun v e hv he => ⟨(v.setUpAs_act e).codec.trans hv.1, absent_act (hv.1 ▸ hlaw) hv.2 he⟩
  have hrun := run_induction hstep hstart hdeeds
  obtain ⟨hsame, habsent⟩ := hrun
  have hlater : ((w.act d).run deeds).repo.codec.Lawful := hsame ▸ hlaw
  refine ⟨habsent.find, fun i s hs hid hlands => ?_⟩
  subst hid
  obtain ⟨hopen, hfresh, -⟩ := hlands.exists_puts hlater
  refine ⟨⟨hopen, hfresh, hlands.2.2⟩, ?_⟩
  rw [repo_act_save hs, ← hsame]
  exact hlands.exists_whole hlater habsent

end Sharing

/-! ### Copies that stay behind -/

namespace Sample

/-- Three copies of a stored session, of which one has another id. -/
def leftBehind : Sharing :=
  (Sharing.start .binary none none .zero (.ofSeconds 60) [] .identity start).run
    [.create 0 ⟨"x"⟩, .save 0, .clone 0 1, .clone 0 2, .rotate 0 ⟨"y"⟩]

/-- One copy has nothing to write when it is saved, and another one is ended. Then the first one is
changed. -/
def quiet : List Deed :=
  [.save 1, .edit 2 (.set "k" (.int 1)), .invalidate 2, .save 2, .edit 1 (.set "k" (.int 1))]

def comingTooLate : List Deed := [.edit 1 (.set "k" (.int 1)), .save 1]

lemma leftBehind_codec : leftBehind.repo.codec = .binary := (Sharing.setUpAs_run _ _).codec

end Sample

namespace Sharing

open Sample

theorem absent_until_landing_left_behind :
    leftBehind.repo.codec.Lawful ∧ Removes ⟨"x"⟩ leftBehind (.save 0) ∧
      Through (fun w e => ¬Revives ⟨"x"⟩ w e) (leftBehind.act (.save 0)) quiet ∧
      (∀ time, (((leftBehind.act (.save 0)).run quiet).repo.find ⟨"x"⟩ time).2 = .ok none) ∧
      ∃ payload keys due, (((leftBehind.act (.save 0)).run quiet).act (.save 1)).repo.store.find?
        ⟨"x"⟩ = some (.live payload keys due) := by
  have hlaw : leftBehind.repo.codec.Lawful := by
    rw [leftBehind_codec]
    exact Codec.BuiltIn.binary.lawful
  have hremoves : Removes ⟨"x"⟩ leftBehind (.save 0) := by decide +kernel
  have hquiet : Through (fun w e => ¬Revives ⟨"x"⟩ w e) (leftBehind.act (.save 0)) quiet := by
    decide +kernel
  have hrevives : Revives ⟨"x"⟩ ((leftBehind.act (.save 0)).run quiet) (.save 1) := by
    decide +kernel
  obtain ⟨habsent, hback⟩ := absent_until_landing hlaw hremoves hquiet
  obtain ⟨s, hs, hid, hlands⟩ := hrevives
  obtain ⟨-, payload, keys, due, hfind, -⟩ := hback 1 s hs hid hlands
  exact ⟨hlaw, hremoves, hquiet, habsent, payload, keys, due, hfind⟩

/-- A copy that was held when its id was deleted is changed and saved, and the session is back. -/
theorem removed_can_return :
    ¬∀ (c : Codec) (_ : c.BuiltIn) (retention maxIdle : Duration) (names : List String)
      (rule : ChangeRule) (start : Time) (before after : List Deed) (d : Deed) (id : Ident)
      (w : Sharing),
      (Sharing.start c none none retention maxIdle names rule start).run before = w →
        Removes id w d → (∀ e ∈ after, e.obtains = false) →
        (((w.act d).run after).repo.find id ((w.act d).run after).now).2 = .ok none := by
  intro h
  have hremoves : Removes ⟨"x"⟩ leftBehind (.delete ⟨"x"⟩) := by decide +kernel
  have hgone := h .binary .binary .zero (.ofSeconds 60) [] .identity Sample.start _ comingTooLate
    (.delete ⟨"x"⟩) ⟨"x"⟩ leftBehind rfl hremoves (by decide +kernel)
  have hback : (((leftBehind.act (.delete ⟨"x"⟩)).run comingTooLate).repo.find ⟨"x"⟩
      ((leftBehind.act (.delete ⟨"x"⟩)).run comingTooLate).now).2.map Option.isSome =
        .ok true := by decide +kernel
  rw [hgone] at hback
  cases hback

end Sharing

end Sessions
