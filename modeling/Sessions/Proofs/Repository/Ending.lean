import Sessions.Proofs.Basic
import Sessions.Proofs.Codec.Lawful
import Sessions.Proofs.Expiry.Idle
import Sessions.Proofs.Repository.Steps

/-!
# Ending a session

A session ends when it is invalidated, or when a save finds it idle past its interval. Either way
the entry under its current id goes and stays away, whatever is done to the repository, until a
record is saved under that id. Nothing is done about the id that a rotated record is still stored
under: it stays away exactly when nothing could be found under it before.
-/

namespace Sessions

inductive Act where
  | save (s : Session) (now : Time)
  | find (id : Ident) (now : Time)
  | delete (id : Ident)
  | invalidate (s : Session)
  | findByPrincipal (name : String) (now : Time)
  | findByAttribute (name : String) (value : Json) (now : Time)

def Act.SavesUnder (id : Ident) : Act → Prop
  | save s _ => s.id = id
  | _ => False

namespace Repository

variable {r r' : Repository} {s s' : Session} {id : Ident} {now later : Time}

def act (r : Repository) : Act → Repository
  | .save s now => (r.save s now).1
  | .find id now => (r.find id now).1
  | .delete id => r.delete id
  | .invalidate s => (r.invalidate s).1
  | .findByPrincipal name now => (r.findByPrincipal name now).1
  | .findByAttribute name value now => (r.findByAttribute name value now).1

def run (r : Repository) (acts : List Act) : Repository := acts.foldl act r

/-! ### Ids under which nothing new comes to stand -/

/-- Under the id nothing stands that did not stand before. -/
structure Fades (id : Ident) (r r' : Repository) : Prop where
  codec : r'.codec = r.codec
  standing : ∀ later x, r'.store.standing id later = some x → r.store.standing id later = some x

lemma Fades.refl (id : Ident) (r : Repository) : Fades id r r := ⟨rfl, fun _ _ h => h⟩

lemma Fades.trans {a b c : Repository} (hab : Fades id a b) (hbc : Fades id b c) :
    Fades id a c where
  codec := by rw [hbc.codec, hab.codec]
  standing later x h := hab.standing later x (hbc.standing later x h)

lemma fades_settled {st : Store} (hst : Store.Settled now r.store st) (id : Ident) :
    Fades id r { r with store := st } :=
  ⟨rfl, hst.shrunk id⟩

lemma fades_delete (r : Repository) (other id : Ident) : Fades id r (r.delete other) := by
  refine ⟨rfl, fun later x h => ?_⟩
  rw [standing_delete] at h
  split at h
  · cases h
  · exact h

lemma fades_vacate (r : Repository) (s : Session) (id : Ident) : Fades id r (r.vacate s) := by
  unfold vacate
  split
  · exact fades_delete r _ id
  · exact Fades.refl id r

lemma fades_insert {mid : Store} {other : Ident} {payload : Bytes} {keys : List IndexKey}
    {deadline : Option (Time × Action)} (hmid : Store.Settled now r.store mid) (hne : other ≠ id) :
    Fades id r { r with store := mid.insert other (.live payload keys deadline) } := by
  refine ⟨rfl, fun later x h => ?_⟩
  simp only at h
  rw [Store.standing_insert, if_neg hne] at h
  exact hmid.shrunk id later x h

lemma Writes.fades {outcome : Except Fault Unit} (h : Writes r s now (r', s', outcome))
    (hlaw : r.codec.Lawful) (hne : s.id ≠ id) : Fades id r r' := by
  cases h with
  | unencoded _ => exact Fades.refl id r
  | refused _ hst => exact fades_settled hst id
  | whole henc _ _ _ hmid =>
    rw [hlaw.encode_ok henc]
    exact fades_insert hmid hne
  | merged henc _ _ _ _ hmid =>
    rw [hlaw.encode_ok henc]
    exact fades_insert hmid hne
  | unsent _ _ hst => exact fades_settled hst id
  | unresent _ _ hst => exact fades_settled hst id
  | resent henc _ hfull _ hmid =>
    rw [hlaw.encodeFull_ok hfull, hlaw.encode_ok henc]
    exact fades_insert hmid hne

lemma fades_save (r : Repository) (hlaw : r.codec.Lawful) (s : Session) (now : Time)
    (hne : s.id ≠ id) : Fades id r (r.save s now).1 := by
  have hcases := save_cases r s now
  generalize r.save s now = outcome at hcases
  cases hcases with
  | ended _ => exact Fades.refl id r
  | expired _ _ _ => exact fades_delete r s.id id
  | skipped _ _ _ _ => exact Fades.refl id r
  | written _ _ _ hwrite =>
    obtain ⟨r', s', outcome⟩ := outcome
    have hvacate := fades_vacate r s id
    exact hvacate.trans (hwrite.fades (hvacate.codec ▸ hlaw) hne)

lemma fades_load (r : Repository) (other : Ident) (now : Time) :
    Fades id r (r.load other now).1 := by
  have hcases := load_cases r other now
  generalize r.load other now = outcome at hcases
  cases hcases with
  | absent _ hst => exact fades_settled hst id
  | unreadable _ _ hst => exact fades_settled hst id
  | idle _ _ _ hst => exact (fades_settled hst id).trans (fades_delete _ other id)
  | found _ _ _ hst => exact fades_settled hst id

lemma fades_loadAll (ids : List Ident) (r : Repository) (now : Time) :
    Fades id r (r.loadAll now ids).1 := by
  induction ids generalizing r with
  | nil => exact Fades.refl id r
  | cons other rest ih =>
    have hload : Fades id r (r.load other now).1 := fades_load r other now
    unfold loadAll
    cases hl : r.load other now with
    | mk r₁ found =>
      rw [hl] at hload
      cases found with
      | error e => exact hload
      | ok found => exact hload.trans (ih r₁)

lemma fades_findByKey (r : Repository) (key : IndexKey) (now : Time) :
    Fades id r (r.findByKey key now).1 :=
  (fades_settled (Store.settled_tidy now r.store) id).trans (fades_loadAll _ _ now)

/-- **One act** brings nothing back under an id that it does not save under. -/
theorem fades_act (hlaw : r.codec.Lawful) {a : Act} (ha : ¬a.SavesUnder id) :
    Fades id r (r.act a) := by
  cases a with
  | save s now => exact fades_save r hlaw s now ha
  | find other now => exact fades_load r other now
  | delete other => exact fades_delete r other id
  | invalidate s => exact fades_delete r s.id id
  | findByPrincipal name now => exact fades_findByKey r (.ofPrincipal name) now
  | findByAttribute name value now =>
    simp only [act, findByAttribute]
    split
    · exact Fades.refl id r
    · exact fades_findByKey r _ now

/-- **A run of acts** brings nothing back under an id that none of them saves under. -/
theorem fades_run (acts : List Act) (hlaw : r.codec.Lawful)
    (hacts : ∀ a ∈ acts, ¬a.SavesUnder id) : Fades id r (r.run acts) := by
  induction acts generalizing r with
  | nil => exact Fades.refl id r
  | cons a rest ih =>
    have hact := fades_act hlaw (hacts a List.mem_cons_self)
    exact hact.trans (ih (hact.codec ▸ hlaw) fun b hb => hacts b (List.mem_cons_of_mem a hb))

/-! ### Ids under which nothing is found -/

/-- From a time on, nothing is found under the id. -/
def Gone (r : Repository) (id : Ident) (now : Time) : Prop :=
  ∀ later, now ≤ later → (r.find id later).2 = .ok none

lemma find_eq_none_iff :
    (r.find id now).2 = .ok none ↔ ∀ x, r.store.standing id now = some x →
      ∃ s, r.codec.decode x.1 = .ok s ∧ s.isExpired now = true := by
  cases hst : r.store.standing id now with
  | none => simp [find_of_none hst]
  | some x =>
    rw [find_of_standing hst]
    cases hdec : r.codec.decode x.1 with
    | error e => simp [Except.map, hdec]
    | ok s => simp [Except.map, hdec]

lemma gone_of_find (h : (r.find id now).2 = .ok none) : Gone r id now := by
  intro later hle
  rw [find_eq_none_iff] at h ⊢
  intro x hx
  obtain ⟨s, hdec, hidle⟩ := h x (Store.standing_mono hle hx)
  exact ⟨s, hdec, Session.isExpired_mono hle hidle⟩

lemma Gone.fades (h : Gone r id now) (hfades : Fades id r r') : Gone r' id now := by
  intro later hle
  have hlater := h later hle
  rw [find_eq_none_iff] at hlater ⊢
  intro x hx
  rw [hfades.codec]
  exact hlater x (hfades.standing later x hx)

lemma gone_delete (r : Repository) (id : Ident) (now : Time) : Gone (r.delete id) id now := by
  intro later _
  rw [find_eq_none_iff]
  intro x hx
  simp [standing_delete] at hx

/-! ### Ended sessions -/

inductive Ends (r : Repository) (s : Session) (now : Time) : Repository → Prop
  | invalidated : Ends r s now (r.invalidate s).1
  /-- A save succeeds and leaves the record expired. -/
  | expired {r' : Repository} {s' : Session} (hsave : r.save s now = (r', s', .ok ()))
      (hphase : s'.phase = .expired) : Ends r s now r'

lemma Writes.phase_ne_expired (h : Writes r s now (r', s', .ok ())) (hlaw : r.codec.Lawful)
    (hopen : s.phase.isEnded = false) : s'.phase ≠ .expired := by
  cases h with
  | whole henc _ _ _ _ =>
    rw [hlaw.encode_ok henc]
    exact commit_phase_ne_expired hopen
  | merged henc _ _ _ _ _ =>
    rw [hlaw.encode_ok henc]
    exact commit_phase_ne_expired hopen
  | resent henc _ hfull _ _ =>
    rw [hlaw.encodeFull_ok hfull, hlaw.encode_ok henc, Session.commit_commit]
    exact commit_phase_ne_expired hopen

lemma Ends.eq_delete (h : Ends r s now r') (hlaw : r.codec.Lawful) : r' = r.delete s.id := by
  cases h with
  | invalidated => rfl
  | expired hsave hphase =>
    have hcases := save_cases r s now
    rw [hsave] at hcases
    cases hcases with
    | expired _ _ _ => rfl
    | skipped hopen _ _ _ => rw [hphase] at hopen; cases hopen
    | written hopen _ _ hwrite =>
      have hcodec := (fades_vacate r s s.id).codec
      exact absurd hphase (hwrite.phase_ne_expired (hcodec ▸ hlaw) hopen)

/-- **Where an ended session stays away.** Under its current id nothing is found any more until a
record is saved under it. Under the id that a rotated record is stored under, the same holds exactly
if it is the current id or nothing could be found under it when the session ended. -/
theorem gone_of_ends (hlaw : r.codec.Lawful) (hend : Ends r s now r') :
    (∀ acts : List Act, (∀ a ∈ acts, ¬a.SavesUnder s.id) → (r'.run acts).Gone s.id now) ∧
      ∀ previous, s.previous = some previous →
        ((∀ acts : List Act, (∀ a ∈ acts, ¬a.SavesUnder previous) →
            (r'.run acts).Gone previous now) ↔
          previous = s.id ∨ (r.find previous now).2 = .ok none) := by
  obtain rfl := hend.eq_delete hlaw
  have hlaw' : (r.delete s.id).codec.Lawful := hlaw
  have hcurrent : ∀ acts : List Act, (∀ a ∈ acts, ¬a.SavesUnder s.id) →
      ((r.delete s.id).run acts).Gone s.id now := fun acts hacts =>
    (gone_delete r s.id now).fades (fades_run acts hlaw' hacts)
  refine ⟨hcurrent, fun previous _ => ⟨fun h => ?_, ?_⟩⟩
  · by_cases hsame : previous = s.id
    · exact .inl hsame
    · -- ending the session has not touched the entry of the previous id
      have hfind := h [] (by simp) now (Time.le_refl now)
      have hst : (r.delete s.id).store.standing previous now =
          r.store.standing previous now := by
        rw [standing_delete, if_neg (Ne.symm hsame)]
      have hcongr : ((r.delete s.id).find previous now).2 = (r.find previous now).2 :=
        find_snd_congr rfl rfl hst
      exact .inr (hcongr ▸ hfind)
  · rintro (rfl | hnone) acts hacts
    · exact hcurrent acts hacts
    · have hdelete := fades_delete r s.id previous
      exact (gone_of_find hnone).fades (hdelete.trans (fades_run acts hlaw' hacts))

open Sample in
/-- A rotated record is invalidated: it is still found under the id that it is stored under. -/
theorem gone_of_ends_rotated :
    (stored none).codec.Lawful ∧
      Ends (stored none) rotated start ((stored none).invalidate rotated).1 ∧
      ¬∀ acts : List Act, (∀ a ∈ acts, ¬a.SavesUnder ⟨"x"⟩) →
        (((stored none).invalidate rotated).1.run acts).Gone ⟨"x"⟩ start := by
  have hfades : Fades ⟨"y"⟩ (repository none) (stored none) :=
    fades_save (repository none) Codec.lawful_binary record start (by decide)
  have hlaw : (stored none).codec.Lawful := hfades.codec ▸ Codec.lawful_binary
  have hfound : ((stored none).find ⟨"x"⟩ start).2.toOption.join.isSome = true := by
    decide +kernel
  have hprevious : rotated.previous = some ⟨"x"⟩ := by decide +kernel
  refine ⟨hlaw, .invalidated, fun h => ?_⟩
  rcases ((gone_of_ends hlaw .invalidated).2 _ hprevious).1 h with hsame | hnone
  · revert hsame
    decide +kernel
  · rw [hnone] at hfound
    cases hfound

open Sample in
/-- A session can be found after its end, whether it was invalidated or found idle by a save. -/
theorem ended_can_be_found :
    rotated.previous = some ⟨"x"⟩ ∧
      ((((stored none).invalidate rotated).1.find ⟨"x"⟩ start).2 ≠ .ok none) ∧
      let s := rotated.setMaxIdle .zero
      ((stored none).save s start).2.1.phase = .expired ∧
        ((stored none).save s start).2.2 = .ok () ∧
        (((stored none).save s start).1.find ⟨"x"⟩ start).2 ≠ .ok none := by
  have hinvalidated : (((stored none).invalidate rotated).1.find ⟨"x"⟩
      start).2.toOption.join.isSome = true := by decide +kernel
  have hexpired : (((stored none).save (rotated.setMaxIdle .zero) start).1.find ⟨"x"⟩
      start).2.toOption.join.isSome = true := by decide +kernel
  refine ⟨by decide +kernel, fun h => ?_, by decide +kernel, by decide +kernel, fun h => ?_⟩
  · rw [h] at hinvalidated
    cases hinvalidated
  · rw [h] at hexpired
    cases hexpired

end Repository

end Sessions
