import Sessions.Proofs.Store.Ledger

/-!
# What becomes of an entry

A call can do three things to what is under an id: store something in its place, remove it, or tend
to it, and nothing else (`fate_answer`). Tending deals with an entry past its deadline if the id is
looked up or the store sweeps, and with a tombstone only by a sweep. What its time is not over for
is left as it is.
-/

namespace Sessions

/-- Whether a call sweeps when it is time to. -/
def Call.maySweep : Call → Bool
  | get _ | put .. | putDelta .. | findByKey _ => true
  | remove _ | size => false

/-- Whether a call looks at what is under an id before it does anything else. -/
def Call.looksUp (id : Ident) : Call → Bool
  | get other | putDelta other .. => other = id
  | put .. | remove _ | findByKey _ | size => false

def Answer.isStored : Answer → Bool
  | stored (.ok _) | merged (.ok true) => true
  | _ => false

/-! ## Tending -/

/-- What tending leaves of what was under an id, with the id looked up or not and a sweep or not. -/
inductive Tended (now : Time) (retention : Duration) (seen swept : Prop) :
    Option Entry → Option Entry → Prop
  | destroyed {payload keys due} (hdealt : seen ∨ swept) (hdue : due ≤ now) :
    Tended now retention seen swept (some (.live payload keys (some (due, .destroy)))) none
  | invalidated {payload keys due} (hdealt : seen ∨ swept) (hdue : due ≤ now)
    (hretention : swept → .zero < retention) :
    Tended now retention seen swept (some (.live payload keys (some (due, .invalidate))))
      (some (.tombstone now))
  /-- A sweep drops the tombstone that it leaves if that is not to be kept at all. -/
  | forgotten {payload keys due} (hswept : swept) (hdue : due ≤ now)
    (hretention : retention ≤ .zero) :
    Tended now retention seen swept (some (.live payload keys (some (due, .invalidate)))) none
  | dropped {since} (hswept : swept) (hspent : retention ≤ now.since since) :
    Tended now retention seen swept (some (.tombstone since)) none
  | kept {held} (hlive : seen ∨ swept → ∀ e, held = some e → e.isExpired now = false)
    (hspent : swept → ∀ e, held = some e → e.isSpent now retention = false) :
    Tended now retention seen swept held held

namespace Tended

variable {now : Time} {retention : Duration} {seen swept : Prop} {held left : Option Entry}

lemma isSpent_now (now : Time) (retention : Duration) :
    (Entry.tombstone now).isSpent now retention = true ↔ retention ≤ .zero := by
  simp [Entry.isSpent, Duration.le_iff, Duration.zero]

lemma isExpired_eq_true {e : Entry} (h : e.isExpired now = true) :
    ∃ payload keys due action, e = .live payload keys (some (due, action)) ∧ due ≤ now := by
  unfold Entry.isExpired at h
  split at h
  next payload keys due action => exact ⟨payload, keys, due, action, rfl, by simpa using h⟩
  next => cases h

lemma refl (hseen : ¬seen) (hswept : ¬swept) (held : Option Entry) :
    Tended now retention seen swept held held :=
  .kept (fun h => (h.elim hseen hswept).elim) fun h => (hswept h).elim

lemma absent : Tended now retention seen swept none none :=
  .kept (by simp) (by simp)

lemma sweep (hswept : swept) (held : Option Entry) :
    Tended now retention seen swept held (held.bind (·.sweep now retention)) := by
  cases held with
  | none => exact .absent
  | some e =>
    rw [Option.bind_some, Entry.sweep]
    by_cases hx : e.isExpired now = true
    · obtain ⟨payload, keys, due, action, rfl, hdue⟩ := isExpired_eq_true hx
      rw [if_pos hx]
      cases action with
      | destroy => exact .destroyed (.inr hswept) hdue
      | invalidate =>
        simp only [Entry.expire, Option.filter_some]
        by_cases hs : (Entry.tombstone now).isSpent now retention = true
        · simpa [hs] using .forgotten hswept hdue ((isSpent_now now retention).1 hs)
        · have hpos : Duration.zero < retention :=
            Int.not_le.1 fun hle => hs ((isSpent_now now retention).2 hle)
          simpa [hs] using .invalidated (.inr hswept) hdue fun _ => hpos
    · rw [if_neg hx, Option.filter_some]
      by_cases hs : e.isSpent now retention = true
      · cases e with
        | live payload keys due => cases hs
        | tombstone since =>
          simpa [hs] using .dropped hswept (by simpa [Entry.isSpent] using hs)
      · have hkept : Tended now retention seen swept (some e) (some e) :=
          .kept (fun _ _ he => Option.some.inj he ▸ by simpa using hx)
            fun _ _ he => Option.some.inj he ▸ by simpa using hs
        simpa [hs] using hkept

lemma look (h : Tended now retention False swept held left) :
    Tended now retention True swept held
      (left.bind fun e => if e.isExpired now then e.expire now else some e) := by
  cases h with
  | destroyed hdealt hdue => exact .destroyed (.inl trivial) hdue
  | invalidated hdealt hdue hretention => exact .invalidated (.inl trivial) hdue hretention
  | forgotten hswept hdue hretention => exact .forgotten hswept hdue hretention
  | dropped hswept hspent => exact .dropped hswept hspent
  | kept hlive hspent =>
    cases held with
    | none => exact .absent
    | some e =>
      rw [Option.bind_some]
      by_cases hx : e.isExpired now = true
      · -- a sweep would have dealt with it
        have hunswept : ¬swept := fun hswept => by
          simpa [hx] using hlive (.inr hswept) e rfl
        obtain ⟨payload, keys, due, action, rfl, hdue⟩ := isExpired_eq_true hx
        rw [if_pos hx]
        cases action with
        | destroy => exact .destroyed (.inl trivial) hdue
        | invalidate =>
          exact .invalidated (.inl trivial) hdue fun hswept => (hunswept hswept).elim
      · rw [if_neg hx]
        exact .kept (fun _ _ he => Option.some.inj he ▸ by simpa using hx) hspent

/-- **Only what its time is over for is changed**: it is gone, or it has left a tombstone. -/
theorem eq_or_over (h : Tended now retention seen swept held left) :
    left = held ∨ ∃ e, held = some e ∧
      (e.isExpired now = true ∨ e.isSpent now retention = true) ∧
        (left = none ∨ left = some (.tombstone now)) := by
  cases h with
  | destroyed _ hdue => exact .inr ⟨_, rfl, .inl (by simpa [Entry.isExpired] using hdue), .inl rfl⟩
  | invalidated _ hdue _ =>
    exact .inr ⟨_, rfl, .inl (by simpa [Entry.isExpired] using hdue), .inr rfl⟩
  | forgotten _ hdue _ =>
    exact .inr ⟨_, rfl, .inl (by simpa [Entry.isExpired] using hdue), .inl rfl⟩
  | dropped _ hspent => exact .inr ⟨_, rfl, .inr (by simpa [Entry.isSpent] using hspent), .inl rfl⟩
  | kept _ _ => exact .inl rfl

end Tended

/-! ## Calls -/

namespace Store

variable {st : Store} {now : Time} {c : Call} {id : Ident}

/-- The call sweeps: it may, and the last sweep was a minute ago. -/
def Sweeps (st : Store) (now : Time) (c : Call) : Prop :=
  c.maySweep = true ∧ sweepInterval ≤ now.since st.sweptAt

instance (st : Store) (now : Time) (c : Call) : Decidable (st.Sweeps now c) :=
  inferInstanceAs (Decidable (_ ∧ _))

def Writes (st : Store) (now : Time) (c : Call) (id : Ident) : Prop :=
  c.id? = some id ∧ (st.answer now c).2.isStored = true

instance (st : Store) (now : Time) (c : Call) (id : Ident) : Decidable (st.Writes now c id) :=
  inferInstanceAs (Decidable (_ ∧ _))

lemma tidy_eq (st : Store) (now : Time) :
    st.tidy now = if sweepInterval ≤ now.since st.sweptAt then st.sweep now else st := by
  have hor : now.since st.sweptAt < sweepInterval ↔ ¬sweepInterval ≤ now.since st.sweptAt :=
    Int.not_le.symm
  simp only [tidy, hor, ite_not]

lemma tended_tidy (hc : c.maySweep = true) (id : Ident) :
    Tended now st.retention False (st.Sweeps now c) (st.find? id) ((st.tidy now).find? id) := by
  rw [tidy_eq]
  split
  next hswept =>
    rw [find?_sweep]
    exact .sweep ⟨hc, hswept⟩ _
  next hswept => exact .refl not_false (fun h => hswept h.2) _

lemma tended_livePayload (hc : c.maySweep = true) (other id : Ident) :
    Tended now st.retention (other = id) (st.Sweeps now c) (st.find? id)
      (((st.tidy now).livePayload other now).1.find? id) := by
  have htidy : Tended now st.retention False (st.Sweeps now c) _ _ := tended_tidy hc id
  rw [find?_livePayload]
  by_cases hid : other = id
  · subst hid
    simpa using htidy.look
  · simpa [hid] using htidy

inductive Fate (st : Store) (now : Time) (c : Call) (id : Ident) : Option Entry → Prop
  | written {payload keys due} (h : st.Writes now c id) :
    Fate st now c id (some (.live payload keys due))
  | removed (h : c = .remove id) : Fate st now c id none
  | tended {left} (hwrites : ¬st.Writes now c id) (hremove : c ≠ .remove id)
    (h : Tended now st.retention (c.looksUp id = true) (st.Sweeps now c) (st.find? id) left) :
    Fate st now c id left

lemma not_writes_of_ne {other : Ident} (hc : c.id? = some other) (hne : other ≠ id) :
    ¬st.Writes now c id :=
  fun h => hne (Option.some.inj (hc.symm.trans h.1))

lemma not_writes_of_unstored (h : (st.answer now c).2.isStored = false) : ¬st.Writes now c id :=
  fun hwrites => by simp [hwrites.2] at h

lemma fate_put (st : Store) (now : Time) (other : Ident) (payload : Bytes) (keys : List IndexKey)
    (id : Ident) : st.Fate now (.put other payload keys) id
      ((st.put other payload keys now).1.find? id) := by
  have htidy : Tended now st.retention False (st.Sweeps now (.put other payload keys)) _ _ :=
    tended_tidy rfl id
  cases hdue : (st.tidy now).payloadDeadline payload now with
  | error e =>
    have hput : st.put other payload keys now = (st.tidy now, .error e) := by simp only [put, hdue]
    have hunstored : ¬st.Writes now (.put other payload keys) id :=
      not_writes_of_unstored (by rw [answer, hput]; rfl)
    rw [hput]
    exact .tended hunstored (by simp) (by simpa [Call.looksUp])
  | ok due =>
    have hput : st.put other payload keys now =
        ((st.tidy now).insert other (.live payload keys due), .ok ()) := by
      simp only [put, hdue]
    rw [hput, find?_insert]
    split
    next hid => exact .written ⟨congrArg some hid, by rw [answer, hput]; rfl⟩
    next hid => exact .tended (not_writes_of_ne rfl hid) (by simp) (by simpa [Call.looksUp])

lemma fate_putDelta (st : Store) (now : Time) (other : Ident) (delta : Bytes)
    (keys : List IndexKey) (id : Ident) : st.Fate now (.putDelta other delta keys) id
      ((st.putDelta other delta keys now).1.find? id) := by
  have hlook : Tended now st.retention (other = id) (st.Sweeps now (.putDelta other delta keys))
      _ _ := tended_livePayload rfl other id
  have hseen : (other = id) = (Call.looksUp id (.putDelta other delta keys) = true) := by
    simp [Call.looksUp]
  rw [hseen] at hlook
  cases hlive : (st.tidy now).livePayload other now with
  | mk mid found =>
    rw [hlive] at hlook
    have hkept : ∀ outcome, outcome ≠ .ok true →
        st.putDelta other delta keys now = (mid, outcome) →
          st.Fate now (.putDelta other delta keys) id
            ((st.putDelta other delta keys now).1.find? id) := by
      intro outcome hne hput
      have hunstored : ¬st.Writes now (.putDelta other delta keys) id := by
        refine not_writes_of_unstored ?_
        rw [answer, hput]
        rcases outcome with e | (_ | _)
        · rfl
        · rfl
        · exact absurd rfl hne
      rw [hput]
      exact .tended hunstored (by simp) hlook
    cases found with
    | none => exact hkept (.ok false) (by simp) (by simp only [putDelta, hlive])
    | some stored =>
      cases hmerge : mid.mergeDelta other stored delta now with
      | error e => exact hkept (.error e) (by simp) (by simp only [putDelta, hlive, hmerge])
      | ok merged =>
        have hput : st.putDelta other delta keys now =
            (mid.insert other (.live merged.1 keys merged.2), .ok true) := by
          simp only [putDelta, hlive, hmerge]
        rw [hput, find?_insert]
        split
        next hid => exact .written ⟨congrArg some hid, by rw [answer, hput]; rfl⟩
        next hid => exact .tended (not_writes_of_ne rfl hid) (by simp) hlook

/-- **Everything that a call can do to what is under an id.** -/
theorem fate_answer (st : Store) (now : Time) (c : Call) (id : Ident) :
    st.Fate now c id ((st.answer now c).1.find? id) := by
  cases c with
  | get other =>
    refine .tended (not_writes_of_unstored rfl) (by simp) ?_
    simp only [Call.looksUp, decide_eq_true_eq]
    exact tended_livePayload rfl other id
  | put other payload keys => exact st.fate_put now other payload keys id
  | putDelta other delta keys => exact st.fate_putDelta now other delta keys id
  | remove other =>
    rw [answer, find?_remove]
    split
    next hid => exact .removed (congrArg _ hid)
    next hid =>
      exact .tended (not_writes_of_unstored rfl) (fun heq => hid (Call.remove.inj heq))
        (.refl (by simp [Call.looksUp]) (by simp [Sweeps, Call.maySweep]) _)
  | findByKey key =>
    refine .tended (not_writes_of_unstored rfl) (by simp) ?_
    simp only [Call.looksUp, Bool.false_eq_true]
    exact tended_tidy rfl id
  | size =>
    exact .tended (not_writes_of_unstored rfl) (by simp)
      (.refl (by simp [Call.looksUp]) (by simp [Sweeps, Call.maySweep]) _)

end Store

end Sessions
