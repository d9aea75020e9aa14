import Sessions.Proofs.Expiry.Countdown
import Sessions.Proofs.Store.Deadline
import Sessions.Proofs.Store.History

/-!
# What happens to an entry in the end

A store asks the policy of its hook about every record that it stores: the one in a full payload, or
the one that a delta makes of what is stored. The first leaf that has an opinion decides, and its
action goes with the entry. When the entry is dealt with, past its deadline, that action says what
is left of it.
-/

namespace Sessions

/-- What an entry leaves when it is dealt with: nothing if it is to be destroyed, and a tombstone if
it is to be invalidated, unless that is forgotten at once. -/
def Action.leaves (action : Action) (now : Time) (forgotten : Prop) [Decidable forgotten] :
    Option Entry :=
  match action with
  | .destroy => none
  | .invalidate => if forgotten then none else some (.tombstone now)

/-! ## What is stored -/

namespace Store

variable {st : Store} {now : Time} {c : Call} {id : Ident}

/-- The record that a call has judged before it stores something. -/
inductive Judged (st : Store) (now : Time) : Call → Session → Prop
  | put {id : Ident} {payload : Bytes} {keys : List IndexKey} {s : Session}
    (h : st.codec.decode payload = .ok s) : Judged st now (.put id payload keys) s
  | putDelta {id : Ident} {delta stored : Bytes} {keys : List IndexKey}
    {old : Option (Time × Action)} {base s : Session}
    (hst : st.standing id now = some (stored, old)) (hbase : st.codec.decode stored = .ok base)
    (hmerge : st.codec.merge base delta = (s, .ok true)) :
    Judged st now (.putDelta id delta keys) s

lemma Judged.maxIdle_le {s : Session} (h : st.Judged now c s) (hc : st.codec.BuiltIn) :
    s.maxIdle ≤ .longest := by
  have hdecoded : ∀ {payload t}, st.codec.decode payload = .ok t → t.WellFormed := fun ht =>
    (hc.fresh_read (Codec.decode_eq_ok.1 ht)).1.wellFormed
  cases h with
  | put hs => exact (hdecoded hs).interval
  | @putDelta _ delta _ _ _ base _ _ hbase hmerge =>
    have hmerged := (hc.merged base delta).wellFormed (hdecoded hbase)
    rw [hmerge] at hmerged
    exact hmerged.interval

lemma deadline_of_decision {d : Decision} {due : Option (Time × Action)}
    (h : st.deadline (some (.ofDecision d)) now = .ok due) :
    ∃ time, due = some (time, d.action) ∧
      time.nanos = now.nanos + (Expiry.ofDecision d).ttl.nanos := by
  have hdated : ((Expiry.ofDecision d).deadline now).map some = .ok due := h
  unfold Expiry.deadline at hdated
  split at hdated
  next time hadd =>
    cases hdated
    exact ⟨time, rfl, Time.ofNanos?_eq_some_iff.1 hadd⟩
  next => cases hdated

lemma exists_judged {p : Policy} (hhook : st.hook = some ⟨p, some st.codec⟩)
    (h : st.Writes now c id) :
    ∃ s payload keys due, st.Judged now c s ∧
      (st.answer now c).1.find? id = some (.live payload keys due) ∧
      st.deadline ((p.evaluate s now).map .ofDecision) now = .ok due := by
  obtain ⟨hid, hstored⟩ := h
  cases c with
  | put other payload keys =>
    obtain rfl : other = id := Option.some.inj hid
    cases hput : st.put other payload keys now with
    | mk st' outcome =>
      rw [answer, hput] at hstored
      rcases put_cases hput with ⟨e, rfl, -⟩ | ⟨due, mid, rfl, hdue, -, rfl⟩
      · cases hstored
      · obtain ⟨header, -, hdue⟩ := bind_eq_ok.1 hdue
        split at hdue
        · cases hdue
        · rw [hhook] at hdue
          obtain ⟨opinion, hopinion, hdue⟩ := bind_eq_ok.1 hdue
          obtain ⟨s, hs, hopinion⟩ := bind_eq_ok.1 hopinion
          cases hopinion
          refine ⟨s, payload, keys, due, .put hs, ?_, hdue⟩
          rw [answer, hput, find?_insert, if_pos rfl]
  | putDelta other delta keys =>
    obtain rfl : other = id := Option.some.inj hid
    cases hput : st.putDelta other delta keys now with
    | mk st' outcome =>
      rw [answer, hput] at hstored
      rcases putDelta_cases hput with ⟨e, rfl, -⟩ | ⟨rfl, -, -⟩ |
        ⟨stored, old, payload, due, mid, rfl, hst, hmerged, -, rfl⟩
      · cases hstored
      · cases hstored
      · obtain ⟨base, s, hbase, hmerge, hdue, -⟩ := exists_of_mergeDelta hmerged
        rw [hhook] at hdue
        refine ⟨s, payload, keys, due, .putDelta hst hbase hmerge, ?_, hdue⟩
        rw [answer, hput, find?_insert, if_pos rfl]
  | get other => cases hstored
  | remove other => cases hstored
  | findByKey key => cases hstored
  | size => cases hstored

end Store

/-! ## What is left -/

namespace Moment

variable {m : Moment} {c : Call} {id : Ident}

/-- **An entry that is dealt with past its deadline leaves what its action says.** -/
lemma find?_of_dealt {payload : Bytes} {keys : List IndexKey} {time : Time} {action : Action}
    (hlive : m.store.find? id = some (.live payload keys (some (time, action))))
    (hdealt : c.looksUp id = true ∨ m.store.Sweeps m.now c)
    (hwrites : ¬m.store.Writes m.now c id) (hdue : time ≤ m.now) :
    (m.turn (.call c)).store.find? id =
      action.leaves m.now (m.store.Sweeps m.now c ∧ m.store.retention ≤ .zero) := by
  have hfate := m.fate_turn c id
  generalize (m.turn (.call c)).store.find? id = left at hfate ⊢
  cases hfate with
  | written hw => exact absurd hw hwrites
  | removed hr =>
    subst hr
    rcases hdealt with hlooks | ⟨hsweeps, -⟩
    · cases hlooks
    · cases hsweeps
  | tended _ _ htended =>
    rw [hlive] at htended
    cases htended with
    | destroyed => rfl
    | invalidated _ _ hretention =>
      exact (if_neg fun ⟨hswept, hle⟩ => Int.not_le.2 (hretention hswept) hle).symm
    | forgotten hswept _ hretention => exact (if_pos ⟨hswept, hretention⟩).symm
    | kept hahead _ =>
      have hlate := (Entry.isExpired_live_eq_false payload keys).1 (hahead hdealt _ rfl) time rfl
      exact absurd hdue (Int.not_le.2 hlate)

/-- **The action of the leaf that decides is what happens in the end.** Whatever is stored has been
judged by the policy of the hook, as a record whose interval is no longer than records may have.
There every fixed lifetime answers as it should; and if some leaf has an opinion, the entry is dated
by the first one, and has its action. The first call after that, past the deadline, that looks the
entry up or sweeps, leaves what the action says. -/
theorem decided_action {p : Policy} (hp : p.Checked)
    (hhook : m.store.hook = some ⟨p, some m.store.codec⟩)
    (hbounded : ∀ s, m.store.Judged m.now c s → s.maxIdle ≤ .longest)
    (hwrites : m.store.Writes m.now c id) :
    ∃ s payload keys due, m.store.Judged m.now c s ∧
      (m.turn (.call c)).store.find? id = some (.live payload keys due) ∧
      (∀ q, .fixed q ∈ p.leaves → q.Answers s m.now (q.evaluate s m.now)) ∧
      ((∃ leaf ∈ p.leaves, leaf.evaluate s m.now ≠ none) →
        ∃ before leaf after d time, p.leaves = before ++ leaf :: after ∧
          (∀ other ∈ before, other.evaluate s m.now = none) ∧ leaf.evaluate s m.now = some d ∧
          due = some (time, d.action) ∧
          time.nanos = m.now.nanos + (Expiry.ofDecision d).ttl.nanos ∧
          ∀ turns final, Through (Spares id due) (m.turn (.call c)) turns →
            let m' := (m.turn (.call c)).run turns
            (final.looksUp id = true ∨ m'.store.Sweeps m'.now final) →
            ¬m'.store.Writes m'.now final id → time ≤ m'.now →
              (m'.turn (.call final)).store.find? id = d.action.leaves m'.now
                (m'.store.Sweeps m'.now final ∧ m'.store.retention ≤ .zero)) := by
  obtain ⟨s, payload, keys, due, hjudged, hlive, hdue⟩ := Store.exists_judged hhook hwrites
  refine ⟨s, payload, keys, due, hjudged, hlive,
    fun q hq => FixedPolicy.answers_evaluate (hp.fixed q hq) (hbounded s hjudged) m.now, ?_⟩
  rintro ⟨leaf, hmem, hopinion⟩
  have hsome : (p.leaves.findSome? (·.evaluate s m.now)).isSome = true :=
    List.findSome?_isSome_iff.2 ⟨leaf, hmem, Option.isSome_iff_ne_none.2 hopinion⟩
  obtain ⟨d, hd⟩ := Option.isSome_iff_exists.1 hsome
  obtain ⟨before, first, after, hleaves, hfirst, hbefore⟩ := List.findSome?_eq_some_iff.1 hd
  rw [Policy.evaluate_eq_findSome?, hd] at hdue
  obtain ⟨time, rfl, htime⟩ := Store.deadline_of_decision hdue
  refine ⟨before, first, after, d, time, hleaves, hbefore, hfirst, rfl, htime, ?_⟩
  intro turns final hspared m' hdealt hunwritten hpast
  exact find?_of_dealt (find?_run_of_spares hlive hspared) hdealt hunwritten hpast

end Moment

/-! ### A tie -/

namespace Sample

/-- Sessions that belong to someone are kept for an hour. Others are kept for a minute, and as long
after their last access, which is heeded where both end together. -/
def guarded : Policy :=
  .firstOf [.custom ⟨fun s _ => if s.principal.isSome then some (.ofSeconds 3600) else none,
      .invalidate⟩,
    .firstOf [.idle ⟨none, .invalidate⟩,
      .fixed ⟨.ofSeconds 60, some ⟨some (.ofSeconds 60), .destroy⟩, .invalidate⟩]]

lemma checked_guarded : guarded.Checked where
  idle q h := by
    obtain rfl : q = ⟨none, .invalidate⟩ := by
      simpa [guarded, Policy.leaves, Policy.leavesOf] using h
    exact ⟨none, .invalidate, rfl⟩
  fixed q h := by
    obtain rfl : q = ⟨.ofSeconds 60, some ⟨some (.ofSeconds 60), .destroy⟩, .invalidate⟩ := by
      simpa [guarded, Policy.leaves, Policy.leavesOf] using h
    exact ⟨⟨.ofSeconds 60, none, .invalidate⟩, .ofSeconds 60, .invalidate, rfl,
      .inr ⟨_, ⟨some (.ofSeconds 60), .destroy, rfl⟩, rfl⟩⟩

def guardhouse : Moment :=
  .start twoDeep (some ⟨guarded, some twoDeep⟩) none Store.defaultRetention .epoch

def nextMinute : Time := ⟨60000000000, by decide⟩

end Sample

namespace Moment

open Sample

/-- A session that belongs to nobody is stored, and asked for when both its lifetime and its idle
time are over: the delegate has decided, so it is gone and leaves no tombstone. -/
theorem decided_action_guarded :
    guarded.Checked ∧
      guardhouse.store.Writes guardhouse.now (.put ⟨"x"⟩ (fresh "x") []) ⟨"x"⟩ ∧
      (∃ payload keys, (guardhouse.turn (.call (.put ⟨"x"⟩ (fresh "x") []))).store.find? ⟨"x"⟩ =
        some (.live payload keys (some (nextMinute, .destroy)))) ∧
      (guardhouse.run [.call (.put ⟨"x"⟩ (fresh "x") []), .clock nextMinute,
        .call (.get ⟨"x"⟩)]).store.find? ⟨"x"⟩ = none := by
  have hwrites : guardhouse.store.Writes guardhouse.now (.put ⟨"x"⟩ (fresh "x") []) ⟨"x"⟩ := by
    decide +kernel
  have hstored : (guardhouse.turn (.call (.put ⟨"x"⟩ (fresh "x") []))).store.find? ⟨"x"⟩ =
      some (.live (fresh "x") [] (some (nextMinute, .destroy))) := by
    decide +kernel
  obtain ⟨s, payload, keys, due, hjudged, hlive, -, hdecided⟩ :=
    decided_action checked_guarded rfl (fun s h => h.maxIdle_le builtIn_twoDeep) hwrites
  cases hjudged with
  | put hs =>
    obtain rfl := Except.ok.inj (hs.symm.trans decode_visitBase)
    rw [hstored] at hlive
    cases hlive
    obtain ⟨before, leaf, after, d, time, -, -, -, hdue, -, hleft⟩ := hdecided
      ⟨.fixed ⟨.ofSeconds 60, some ⟨some (.ofSeconds 60), .destroy⟩, .invalidate⟩,
        by simp [guarded, Policy.leaves, Policy.leavesOf], by decide +kernel⟩
    obtain ⟨rfl, haction⟩ := Prod.mk.inj (Option.some.inj hdue)
    have hgone := hleft [.clock nextMinute] (.get ⟨"x"⟩) ⟨trivial, trivial⟩ (.inl rfl)
      (by decide +kernel) (Time.le_refl _)
    rw [← haction] at hgone
    exact ⟨checked_guarded, hwrites, ⟨_, _, hstored⟩, hgone⟩

end Moment

end Sessions
