import Mathlib.Logic.Function.Basic
import Sessions.Proofs.Changes
import Sessions.Proofs.Repository.Stored

/-!
# Copies of a session

Any number of holders have copies of sessions, loaded from one repository at different times, and
change and save them in any order. Beside what the program has, a run remembers the saves that
succeeded.

Two lemmas say what one deed can do: `held_act` for the copies that are held, and `live_or_puts` for
the entries of the store; `live_act` says more of the entries when all of it goes through the binary
codec. What every run keeps follows from them by `run_induction`.
-/

namespace Sessions

open Store (Settled)

structure Save where
  /-- The copy, as it was when it was saved. -/
  copy : Session
  /-- Whether it was written. If not, it was found idle, or there was nothing to write. -/
  stored : Bool

/-- A repository, its clock, the copies by holder, and the saves that succeeded, latest first. -/
structure Sharing where
  repo : Repository
  now : Time
  copies : Nat → Option Session
  saves : List Save

/-- What a holder, or anyone else at the repository, may do. -/
inductive Deed where
  /-- The holder gets a new session with an id that is not blank. -/
  | create (holder : Nat) (id : Ident)
  /-- The holder gets the stored session, if there is one; a look-up counts as an access. -/
  | load (holder : Nat) (id : Ident) (lookup : Bool)
  | clone (source target : Nat)
  | edit (holder : Nat) (e : Edit)
  | rotate (holder : Nat) (id : Ident)
  | save (holder : Nat)
  | invalidate (holder : Nat)
  | delete (id : Ident)
  /-- Housekeeping of the store, as it comes with every search. -/
  | tidy
  /-- The clock is set. -/
  | tick (now : Time)

namespace Sharing

/-- A repository whose sessions nobody has loaded yet. -/
def ofRepository (r : Repository) (now : Time) : Sharing := ⟨r, now, fun _ => none, []⟩

def start (c : Codec) (hook : Option Hook) (expiry : Option Expiry) (retention maxIdle : Duration)
    (indexable : List String) (rule : ChangeRule) (now : Time) : Sharing :=
  ofRepository ⟨.create c hook expiry retention now, c, maxIdle, indexable, rule⟩ now

def hold (w : Sharing) (i : Nat) (s : Session) : Sharing :=
  { w with copies := Function.update w.copies i (some s) }

def change (w : Sharing) (i : Nat) (f : Session → Session) : Sharing :=
  match w.copies i with
  | some s => w.hold i (f s)
  | none => w

/-- After a save of the holder's copy `s` has ended. -/
def afterSave (w : Sharing) (i : Nat) (s : Session) :
    Repository × Session × Except Fault Unit → Sharing
  | (r, s', .error _) => { w.hold i s' with repo := r }
  | (r, s', .ok ()) =>
    { w.hold i s' with
      repo := r
      saves := ⟨s, s'.phase ≠ .expired && (s.hasDelta || s.needsFullWrite)⟩ :: w.saves }

/-- After the holder was given what loading or looking up has found. -/
def afterLoad (w : Sharing) (i : Nat) : Repository × Except Fault (Option Session) → Sharing
  | (r, .ok (some s)) => { w.hold i s with repo := r }
  | (r, _) => { w with repo := r }

/-- One deed. It does nothing if its id is blank or its holder has no copy. -/
def act (w : Sharing) : Deed → Sharing
  | .create i id => if isBlank id.text then w else w.hold i (w.repo.newSession id w.now)
  | .load i id lookup =>
    w.afterLoad i (if lookup then w.repo.find id w.now else w.repo.load id w.now)
  | .clone i j =>
    match w.copies i with
    | some s => w.hold j s
    | none => w
  | .edit i e => w.change i fun s => e.apply w.now s
  | .rotate i id => if isBlank id.text then w else w.change i (·.rotate id)
  | .save i =>
    match w.copies i with
    | some s => w.afterSave i s (w.repo.save s w.now)
    | none => w
  | .invalidate i =>
    match w.copies i with
    | some s => { w.hold i (w.repo.invalidate s).2 with repo := (w.repo.invalidate s).1 }
    | none => w
  | .delete id => { w with repo := w.repo.delete id }
  | .tidy => { w with repo := { w.repo with store := w.repo.store.tidy w.now } }
  | .tick now => { w with now := now }

def run (w : Sharing) (deeds : List Deed) : Sharing := deeds.foldl act w

@[simp] lemma run_nil (w : Sharing) : w.run [] = w := rfl

@[simp] lemma run_cons (w : Sharing) (d : Deed) (deeds : List Deed) :
    w.run (d :: deeds) = (w.act d).run deeds := rfl

/-- Every deed of a run satisfies a condition on the state that it meets. -/
def Through (P : Sharing → Deed → Prop) (w : Sharing) : List Deed → Prop
  | [] => True
  | d :: deeds => P w d ∧ Through P (w.act d) deeds

instance decidableThrough {P : Sharing → Deed → Prop} [∀ w d, Decidable (P w d)] :
    ∀ (w : Sharing) (deeds : List Deed), Decidable (Through P w deeds)
  | _, [] => .isTrue trivial
  | w, d :: deeds => @instDecidableAnd _ _ _ (decidableThrough (w.act d) deeds)

lemma through_true (w : Sharing) (deeds : List Deed) : Through (fun _ _ => True) w deeds := by
  induction deeds generalizing w with
  | nil => trivial
  | cons d deeds ih => exact ⟨trivial, ih (w.act d)⟩

lemma Through.and_forall {P : Sharing → Deed → Prop} {R : Deed → Prop} {w : Sharing}
    {deeds : List Deed} (h : Through P w deeds) (hR : ∀ d ∈ deeds, R d) :
    Through (fun w d => P w d ∧ R d) w deeds := by
  induction deeds generalizing w with
  | nil => trivial
  | cons d deeds ih =>
    exact ⟨⟨h.1, hR d List.mem_cons_self⟩, ih h.2 fun e he => hR e (List.mem_cons_of_mem d he)⟩

def Saves (P : Sharing → Session → Prop) (w : Sharing) : Deed → Prop
  | .save i => ∀ s ∈ w.copies i, P w s
  | _ => True

instance {P : Sharing → Session → Prop} [∀ w s, Decidable (P w s)] (w : Sharing) :
    ∀ d, Decidable (Saves P w d)
  | .save i => inferInstanceAs (Decidable (∀ s ∈ w.copies i, P w s))
  | .create .. | .load .. | .clone .. | .edit .. | .rotate .. | .invalidate .. | .delete .. | .tidy
  | .tick .. => .isTrue trivial

/-- **What every deed keeps, every run keeps.** -/
theorem run_induction {P : Sharing → Deed → Prop} {Inv : Sharing → Prop}
    (hstep : ∀ w d, Inv w → P w d → Inv (w.act d)) {w : Sharing} {deeds : List Deed} (hw : Inv w)
    (hdeeds : Through P w deeds) : Inv (w.run deeds) := by
  induction deeds generalizing w with
  | nil =>
    rw [run_nil]
    exact hw
  | cons d deeds ih =>
    rw [run_cons]
    exact ih (hstep w d hw hdeeds.1) hdeeds.2

/-- The copy whose save was the last to write an entry under an id. -/
def lastStored (w : Sharing) (id : Ident) : Option Session :=
  (w.saves.find? fun v => v.stored && v.copy.id = id).map (·.copy)

lemma lastStored_congr {w w' : Sharing} (h : w'.saves = w.saves) (id : Ident) :
    w'.lastStored id = w.lastStored id := by
  rw [lastStored, h, lastStored]

/-- What all copies satisfy that are held. -/
def Held (Q : Session → Prop) (w : Sharing) : Prop := ∀ i s, w.copies i = some s → Q s

variable {w : Sharing} {Q : Session → Prop} {s s' : Session} {i : Nat}

/-! ## Copies -/

lemma Held.hold (h : w.Held Q) (hs : Q s) (i : Nat) : (w.hold i s).Held Q := by
  intro j t ht
  by_cases hj : j = i
  · subst hj
    have hself : (w.hold j s).copies j = some s := Function.update_self ..
    obtain rfl := Option.some.inj (hself.symm.trans ht)
    exact hs
  · have hother : (w.hold i s).copies j = w.copies j := Function.update_of_ne hj ..
    exact h j t (hother.symm.trans ht)

/-- What a deed has to keep, so that all copies keep it. -/
def Keeps (w : Sharing) (Q : Session → Prop) : Deed → Prop
  | .create _ id => isBlank id.text = false → Q (w.repo.newSession id w.now)
  | .load _ id _ =>
    (∀ payload due t, w.repo.store.standing id w.now = some (payload, due) →
      w.repo.codec.decode payload = .ok t → Q (t.withRule w.repo.rule)) ∧
        ∀ s, Q s → Q (s.touch w.now)
  | .edit _ e => ∀ s, Q s → Q (e.apply w.now s)
  | .rotate i id => isBlank id.text = false → ∀ s ∈ w.copies i, Q s → Q (s.rotate id)
  | .save i => ∀ s ∈ w.copies i, Q s →
    Q s.commit ∧ (s.isExpired w.now = true → Q { s with phase := .expired })
  | .invalidate _ => ∀ s, Q s → Q { s with phase := .deleted }
  | .clone .. | .delete _ | .tidy | .tick _ => True

lemma Held.change (h : w.Held Q) {f : Session → Session} {i : Nat}
    (hf : ∀ s ∈ w.copies i, Q s → Q (f s)) : (w.change i f).Held Q := by
  unfold Sharing.change
  split
  next s hs => exact h.hold (hf s hs (h i s hs)) i
  next => exact h

lemma load_eq_some {r : Repository} {id : Ident} {now : Time}
    (h : (r.load id now).2 = .ok (some s)) : ∃ payload due t,
      r.store.standing id now = some (payload, due) ∧ r.codec.decode payload = .ok t ∧
        t.isExpired now = false ∧ s = t.withRule r.rule := by
  have hcases := Repository.load_cases r id now
  generalize r.load id now = outcome at hcases h
  cases hcases with
  | absent _ _ => cases h
  | unreadable _ _ _ => cases h
  | idle _ _ _ _ => cases h
  | found hsome hdec hlive _ =>
    obtain rfl := Option.some.inj (Except.ok.inj h)
    exact ⟨_, _, _, hsome, hdec, hlive, rfl⟩

lemma find_eq_some {r : Repository} {id : Ident} {now : Time}
    (h : (r.find id now).2 = .ok (some s)) : ∃ payload due t,
      r.store.standing id now = some (payload, due) ∧ r.codec.decode payload = .ok t ∧
        t.isExpired now = false ∧ s = (t.withRule r.rule).touch now := by
  rw [Repository.find_snd] at h
  cases hloaded : (r.load id now).2 with
  | error e =>
    rw [hloaded] at h
    cases h
  | ok found =>
    rw [hloaded] at h
    cases found with
    | none => cases Except.ok.inj h
    | some u =>
      obtain ⟨payload, due, t, hst, hdec, hlive, rfl⟩ := load_eq_some hloaded
      exact ⟨payload, due, t, hst, hdec, hlive, (Option.some.inj (Except.ok.inj h)).symm⟩

lemma Held.afterLoad (h : w.Held Q) {i : Nat} {id : Ident} {lookup : Bool}
    (hkeeps : w.Keeps Q (.load i id lookup)) : (w.act (.load i id lookup)).Held Q := by
  obtain ⟨hload, htouch⟩ := hkeeps
  rw [act]
  unfold Sharing.afterLoad
  split
  next r s hfound =>
    refine h.hold ?_ i
    cases lookup with
    | false =>
      obtain ⟨payload, due, t, hst, hdec, -, rfl⟩ :=
        load_eq_some (s := s) (by simpa using congrArg Prod.snd hfound)
      exact hload payload due t hst hdec
    | true =>
      obtain ⟨payload, due, t, hst, hdec, -, rfl⟩ :=
        find_eq_some (s := s) (by simpa using congrArg Prod.snd hfound)
      exact htouch _ (hload payload due t hst hdec)
  next => exact h

/-- **What a deed can do to copies.** -/
theorem held_act (hlaw : w.repo.codec.Lawful) {d : Deed} (hkeeps : w.Keeps Q d) (h : w.Held Q) :
    (w.act d).Held Q := by
  cases d with
  | create i id =>
    rw [act]
    split
    · exact h
    next hid => exact h.hold (hkeeps (by simpa using hid)) i
  | load i id lookup => exact h.afterLoad hkeeps
  | clone i j =>
    rw [act]
    split
    next s hs => exact h.hold (h i s hs) j
    next => exact h
  | edit i e => exact h.change fun s _ => hkeeps s
  | rotate i id =>
    rw [act]
    split
    · exact h
    next hid => exact h.change (hkeeps (by simpa using hid))
  | save i =>
    rw [act]
    split
    next s hs =>
      have hsaved := Repository.session_save hlaw s w.now
      have hQ : Q (w.repo.save s w.now).2.1 := by
        rcases hsaved with heq | heq | ⟨hidle, heq⟩
        · rw [heq]
          exact h i s hs
        · rw [heq]
          exact (hkeeps s hs (h i s hs)).1
        · rw [heq]
          exact (hkeeps s hs (h i s hs)).2 hidle
      unfold afterSave
      split
      next r s' e heq =>
        rw [heq] at hQ
        exact h.hold hQ i
      next r s' heq =>
        rw [heq] at hQ
        exact h.hold hQ i
    next => exact h
  | invalidate i =>
    rw [act]
    split
    next s hs => exact h.hold (hkeeps s (h i s hs)) i
    next => exact h
  | delete id => exact h
  | tidy => exact h
  | tick now => exact h

/-! ## The repository -/

/-- What a deed does to the repository and to what is remembered of saves. -/
inductive Acts (w : Sharing) (d : Deed) : Prop
  | still (hrepo : (w.act d).repo = w.repo) (hsaves : (w.act d).saves = w.saves)
  | loads {i : Nat} {id : Ident} {lookup : Bool} (hd : d = .load i id lookup)
      (hrepo : (w.act d).repo = (w.repo.load id w.now).1)
      (hsaves : (w.act d).saves = w.saves)
  | removes {id : Ident}
      (hd : d = .delete id ∨ ∃ i s, d = .invalidate i ∧ w.copies i = some s ∧ s.id = id)
      (hrepo : (w.act d).repo = w.repo.delete id)
      (hsaves : (w.act d).saves = w.saves)
  | tidies (hd : d = .tidy)
      (hrepo : (w.act d).repo = { w.repo with store := w.repo.store.tidy w.now })
      (hsaves : (w.act d).saves = w.saves)
  | saves {i : Nat} {s : Session} (hd : d = .save i) (hs : w.copies i = some s)
      (hact : w.act d = w.afterSave i s (w.repo.save s w.now))

lemma acts_change {d : Deed} {f : Session → Session} (h : w.act d = w.change i f) : w.Acts d := by
  have hsame : (w.change i f).repo = w.repo ∧ (w.change i f).saves = w.saves := by
    unfold change
    split <;> exact ⟨rfl, rfl⟩
  rw [← h] at hsame
  exact .still hsame.1 hsame.2

/-- **Every deed does one of these.** -/
theorem acts (w : Sharing) (d : Deed) : w.Acts d := by
  cases d with
  | create i id =>
    by_cases hid : isBlank id.text = true
    · exact .still (by simp [act, hid]) (by simp [act, hid])
    · exact .still (by simp [act, hid, hold]) (by simp [act, hid, hold])
  | load i id lookup =>
    have hafter : ∀ found, (w.afterLoad i found).repo = found.1 ∧
        (w.afterLoad i found).saves = w.saves := by
      intro found
      unfold afterLoad
      split <;> exact ⟨rfl, rfl⟩
    refine .loads rfl ?_ (hafter _).2
    rw [act, (hafter _).1]
    cases lookup <;> rfl
  | clone i j =>
    cases hs : w.copies i with
    | none => exact .still (by simp [act, hs]) (by simp [act, hs])
    | some s => exact .still (by simp [act, hs, hold]) (by simp [act, hs, hold])
  | edit i e => exact acts_change rfl
  | rotate i id =>
    by_cases hid : isBlank id.text = true
    · exact .still (by simp [act, hid]) (by simp [act, hid])
    · exact acts_change (if_neg hid)
  | save i =>
    cases hs : w.copies i with
    | none => exact .still (by simp [act, hs]) (by simp [act, hs])
    | some s => exact .saves rfl hs (by simp [act, hs])
  | invalidate i =>
    cases hs : w.copies i with
    | none => exact .still (by simp [act, hs]) (by simp [act, hs])
    | some s =>
      have hrepo : (w.act (.invalidate i)).repo = w.repo.delete s.id := by
        simp [act, hs, Repository.invalidate]
      exact .removes (.inr ⟨i, s, rfl, hs, rfl⟩) hrepo (by simp [act, hs, hold])
  | delete id => exact .removes (.inl rfl) rfl rfl
  | tidy => exact .tidies rfl rfl rfl
  | tick now => exact .still rfl rfl

lemma repo_afterSave (w : Sharing) (i : Nat) (s : Session)
    (saved : Repository × Session × Except Fault Unit) :
    (w.afterSave i s saved).repo = saved.1 := by
  unfold afterSave
  split <;> rfl

lemma repo_act_save (h : w.copies i = some s) :
    (w.act (.save i)).repo = (w.repo.save s w.now).1 := by
  rw [act, h]
  exact repo_afterSave w i s _

lemma now_act (w : Sharing) (d : Deed) :
    (w.act d).now = w.now ∨ ∃ now, d = .tick now ∧ (w.act d).now = now := by
  have hchange : ∀ i f, (w.change i f).now = w.now := by
    intro i f
    unfold change
    split <;> rfl
  cases d with
  | tick now => exact .inr ⟨now, rfl, rfl⟩
  | create i id =>
    rw [act]
    split <;> exact .inl rfl
  | load i id lookup =>
    rw [act]
    unfold afterLoad
    split <;> exact .inl rfl
  | clone i j =>
    rw [act]
    split <;> exact .inl rfl
  | edit i e => exact .inl (hchange i _)
  | rotate i id =>
    rw [act]
    split
    · exact .inl rfl
    · exact .inl (hchange i _)
  | save i =>
    rw [act]
    split
    · unfold afterSave
      split <;> exact .inl rfl
    · exact .inl rfl
  | invalidate i =>
    rw [act]
    split <;> exact .inl rfl
  | delete id => exact .inl rfl
  | tidy => exact .inl rfl

lemma setUpAs_act (w : Sharing) (d : Deed) : w.repo.SetUpAs (w.act d).repo := by
  cases w.acts d with
  | still hrepo _ =>
    rw [hrepo]
    exact .refl w.repo
  | loads _ hrepo _ =>
    rw [hrepo]
    exact Repository.setUpAs_load w.repo _ w.now
  | removes _ hrepo _ =>
    rw [hrepo]
    exact Repository.setUpAs_delete w.repo _
  | tidies _ hrepo _ =>
    rw [hrepo]
    exact .settled (Store.settled_tidy w.now w.repo.store)
  | saves _ _ hact =>
    rw [hact, repo_afterSave]
    exact Repository.setUpAs_save w.repo _ w.now

lemma setUpAs_run (w : Sharing) (deeds : List Deed) : w.repo.SetUpAs (w.run deeds).repo := by
  induction deeds generalizing w with
  | nil => exact .refl w.repo
  | cons d deeds ih => exact (w.setUpAs_act d).trans (ih (w.act d))

/-- **What a deed can do to the entries**: a live one was there before, or was put by a save of a
copy with its id, which landed. -/
theorem live_or_puts (hlaw : w.repo.codec.Lawful) (d : Deed) {id : Ident} {payload : Bytes}
    {keys : List IndexKey} {due : Option (Time × Action)}
    (hlive : (w.act d).repo.store.find? id = some (.live payload keys due)) :
    w.repo.store.find? id = some (.live payload keys due) ∨
      ∃ i s, d = .save i ∧ w.copies i = some s ∧ s.id = id ∧ w.repo.Lands s w.now ∧
        Repository.Puts w.repo s w.now payload due := by
  cases w.acts d with
  | still hrepo _ =>
    rw [hrepo] at hlive
    exact .inl hlive
  | loads _ hrepo _ =>
    rw [hrepo] at hlive
    exact .inl (Repository.live_load hlive)
  | removes _ hrepo _ =>
    rw [hrepo] at hlive
    exact .inl (Repository.live_delete hlive)
  | tidies _ hrepo _ =>
    rw [hrepo] at hlive
    exact .inl ((Store.settled_tidy w.now w.repo.store).live id payload keys due hlive)
  | @saves i s hd hs hact =>
    rw [hact, repo_afterSave] at hlive
    exact (Repository.live_save hlaw s w.now hlive).imp_right fun hputs => ⟨i, s, hd, hs, hputs⟩

/-! ## Entries over the binary codec -/

/-- A run over the binary codec, with the given indexable attributes. -/
structure OnBinary (names : List String) (w : Sharing) : Prop where
  repo : w.repo.OnBinary
  indexable : w.repo.indexable = names
  copies : w.Held fun s => s.WellFormed ∧ s.principal ≠ some ""

lemma onBinary_start (hook : Option Hook) (expiry : Option Expiry) (retention maxIdle : Duration)
    (names : List String) (rule : ChangeRule) (now : Time) :
    OnBinary names (start .binary hook expiry retention maxIdle names rule now) :=
  ⟨⟨rfl, rfl⟩, rfl, fun _ _ h => nomatch h⟩

lemma OnBinary.act {names : List String} (h : OnBinary names w) (d : Deed) :
    OnBinary names (w.act d) := by
  have hsetup := w.setUpAs_act d
  have hkeeps : w.Keeps (fun s => s.WellFormed ∧ s.principal ≠ some "") d := by
    have hedited : ∀ e s, s.WellFormed ∧ s.principal ≠ some "" →
        (Edit.apply w.now s e).WellFormed ∧ (Edit.apply w.now s e).principal ≠ some "" := by
      intro e s hs
      have hedit := Session.edited_apply s e w.now
      exact ⟨hedit.wellFormed hs.1, hedit.principal hs.2⟩
    cases d with
    | create i id =>
      intro hid
      exact ⟨((Session.wellFormed_create hid w.now _).withMaxIdle _).withRule _, by
        simp [Repository.newSession, Session.withRule, Session.withMaxIdle, Session.create]⟩
    | load i id lookup =>
      refine ⟨fun payload due t _ hdec => ?_, hedited .touch⟩
      rw [h.repo.codec, Binary.decode_eq_ok] at hdec
      obtain ⟨hfresh, hprincipal⟩ := Binary.fresh_read hdec
      exact ⟨hfresh.wellFormed.withRule _, hprincipal⟩
    | edit i e => exact hedited e
    | rotate i id => exact fun hid s _ hs => ⟨hs.1.rotate hid, hs.2⟩
    | save i => exact fun s _ hs => ⟨⟨hs.1.commit, hs.2⟩, fun _ => ⟨hs.1.withPhase _, hs.2⟩⟩
    | invalidate i => exact fun s hs => ⟨hs.1.withPhase _, hs.2⟩
    | clone _ _ | delete _ | tidy | tick _ => trivial
  exact ⟨⟨hsetup.codec.trans h.repo.codec, hsetup.storeCodec.trans h.repo.store⟩,
    hsetup.indexable.trans h.indexable, held_act h.repo.lawful hkeeps h.copies⟩

/-- **What a deed can do to the entries**: a live entry was there before, and what its id stands for
was not saved since; or it was written by a save of a copy with that id. -/
theorem live_act {names : List String} (h : OnBinary names w) (d : Deed) {id : Ident}
    {payload : Bytes} {keys : List IndexKey} {due : Option (Time × Action)}
    (hlive : (w.act d).repo.store.find? id = some (.live payload keys due)) :
    (w.repo.store.find? id = some (.live payload keys due) ∧
        (w.act d).lastStored id = w.lastStored id) ∨
      ∃ i s, d = .save i ∧ w.copies i = some s ∧ s.id = id ∧
        (s.hasDelta = true ∨ s.needsFullWrite = true) ∧ keys = IndexKey.ofSession s names ∧
        (w.act d).lastStored id = some s ∧ Repository.Leaves w.repo.store s w.now payload := by
  cases w.acts d with
  | still hrepo hsaves =>
    rw [hrepo] at hlive
    exact .inl ⟨hlive, lastStored_congr hsaves id⟩
  | loads _ hrepo hsaves =>
    rw [hrepo] at hlive
    exact .inl ⟨Repository.live_load hlive, lastStored_congr hsaves id⟩
  | removes _ hrepo hsaves =>
    rw [hrepo] at hlive
    exact .inl ⟨Repository.live_delete hlive, lastStored_congr hsaves id⟩
  | tidies _ hrepo hsaves =>
    rw [hrepo] at hlive
    exact .inl ⟨(Store.settled_tidy w.now w.repo.store).live id payload keys due hlive,
      lastStored_congr hsaves id⟩
  | @saves i s hd hs hact =>
    obtain ⟨hform, hprincipal⟩ := h.copies i s hs
    have hleaving := Repository.leaving_save h.repo hform hprincipal w.now
    generalize w.repo.save s w.now = saved at hact hleaving
    rw [hact, repo_afterSave] at hlive
    cases hleaving with
    | ended => exact .inl ⟨hlive, by rw [hact]; rfl⟩
    | failed hst _ =>
      exact .inl ⟨Repository.live_vacate (hst.live id payload keys due hlive), by rw [hact]; rfl⟩
    | idle _ => exact .inl ⟨Repository.live_delete hlive, by rw [hact]; rfl⟩
    | skipped _ hdelta hfull =>
      refine .inl ⟨hlive, ?_⟩
      rw [hact, lastStored, afterSave]
      simp [hdelta, hfull, lastStored]
    | stored hopen hdue hmid hleaves =>
      have hphase : s.commit.phase ≠ .expired := Repository.commit_phase_ne_expired hopen
      have hcond : (s.commit.phase ≠ .expired && (s.hasDelta || s.needsFullWrite)) = true := by
        rcases hdue with hdue | hdue <;> simp [hphase, hdue]
      rw [Store.find?_insert] at hlive
      by_cases hid : s.id = id
      · rw [if_pos hid] at hlive
        obtain ⟨rfl, rfl, rfl⟩ := Entry.live.inj (Option.some.inj hlive)
        refine .inr ⟨i, s, hd, hs, hid, hdue, by rw [h.indexable], ?_, hleaves⟩
        rw [hact, lastStored, afterSave, hcond, List.find?_cons_of_pos (by simp [hid])]
        rfl
      · rw [if_neg hid] at hlive
        refine .inl ⟨Repository.live_vacate (hmid.live id payload keys due hlive), ?_⟩
        rw [hact, lastStored, afterSave]
        simp [hid, lastStored]

end Sharing

end Sessions
