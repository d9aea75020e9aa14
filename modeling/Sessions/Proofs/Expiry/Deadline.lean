import Sessions.Proofs.Codec.IdleInterval
import Sessions.Store

/-!
# What a policy comes to

A decision becomes a deadline by way of whole seconds: it is cut, and is one second at least, so the
deadline may lie before the moment that the decision means, and after it if less than a second was
left. With a fixed lifetime a deadline never lies beyond the end of the lifetime and of that second;
where the policy has no opinion, the session's own interval ends within the lifetime.

The policies of this library look at the times of a record and its interval only, so they decide
alike on records that share these.
-/

namespace Sessions

namespace Expiry

variable {now : Time} {d : Decision}

/-- How long a decision keeps an entry: for its whole seconds, at least one and at most as many as
fit. -/
lemma nanos_ttl (d : Decision) : (ofDecision d).ttl.nanos =
    max 1 (min (d.timeout.nanos / 1000000000) 2147483647) * 1000000000 := by
  have hdiv := Duration.tdiv_bounds d.timeout.nanos
  have hseconds : (Int32.ofInt (max 1 (min d.timeout.wholeSeconds.toInt 2147483647))).toInt =
      max 1 (min d.timeout.wholeSeconds.toInt 2147483647) :=
    Int32.toInt_ofInt_of_le (by omega) (by omega)
  rw [ttl, ofDecision, Duration.nanos_ofSeconds, Int32.toInt_toInt64, hseconds,
    Duration.toInt_wholeSeconds]
  omega

lemma ttl_le (d : Decision) :
    (ofDecision d).ttl.nanos ≤ max 1000000000 d.timeout.nanos := by
  rw [nanos_ttl]
  omega

lemma nanos_of_deadline {e : Expiry} {time : Time} {action : Action}
    (h : e.deadline now = .ok (time, action)) : time.nanos = now.nanos + e.ttl.nanos := by
  unfold deadline at h
  split at h
  next due hadd =>
    obtain ⟨rfl, -⟩ := Prod.mk.inj (Except.ok.inj h)
    exact Time.ofNanos?_eq_some_iff.1 hadd
  next => cases h

end Expiry

lemma Store.deadline_decided {st : Store} {d : Decision} {now : Time}
    {due : Option (Time × Action)} (h : st.deadline (some (.ofDecision d)) now = .ok due) :
    ∃ time action, due = some (time, action) ∧
      time.nanos = now.nanos + (Expiry.ofDecision d).ttl.nanos := by
  have hdated : ((Expiry.ofDecision d).deadline now).map some = .ok due := h
  cases hdl : (Expiry.ofDecision d).deadline now with
  | error e =>
    rw [hdl] at hdated
    cases hdated
  | ok dated =>
    rw [hdl] at hdated
    exact ⟨dated.1, dated.2, (Except.ok.inj hdated).symm, Expiry.nanos_of_deadline hdl⟩

/-! ## Fixed lifetimes -/

/-- The record ends with a lifetime: what was written is due when that is over, or a second after it
was written; or its own interval ends before. -/
def Session.Lapses (lifetime : Duration) (written : Time) (due : Option (Time × Action))
    (s : Session) : Prop :=
  (∃ time action, due = some (time, action) ∧
    time.nanos ≤ max (s.created.nanos + lifetime.nanos) (written.nanos + 1000000000)) ∨
  ∃ e ∈ s.idleEnd, e ≤ s.created.nanos + lifetime.nanos

lemma Session.Lapses.lt {lifetime : Duration} {written later : Time}
    {due : Option (Time × Action)} {s : Session} (h : s.Lapses lifetime written due)
    (hdue : ∀ time, due.map Prod.fst = some time → later < time)
    (hlive : s.isExpired later = false) :
    later.nanos < s.created.nanos + lifetime.nanos ∨ later.nanos < written.nanos + 1000000000 := by
  rcases h with ⟨time, action, rfl, htime⟩ | ⟨e, he, hends⟩
  · have hearly := hdue time rfl
    rw [Time.lt_iff] at hearly
    omega
  · have hnot : ¬e ≤ later.nanos := by
      intro hover
      rw [Session.isExpired_iff.2 ⟨e, he, hover⟩] at hlive
      cases hlive
    omega

namespace FixedPolicy

variable {p : FixedPolicy} {s : Session} {now : Time}

lemma create_eq_ok_iff {lifetime : Duration} {action : Action} :
    create lifetime action = .ok p ↔
      p = ⟨lifetime, none, action⟩ ∧ 0 < lifetime.nanos ∧ lifetime ≤ .longest := by
  rw [create]
  split
  next hrange =>
    simp only [reduceCtorEq, false_iff, not_and]
    intro _ hpos hle
    exact hrange.elim (Int.not_le.2 hpos) (Int.not_lt.2 hle)
  next hrange =>
    rw [not_or] at hrange
    have hbounds : 0 < lifetime.nanos ∧ lifetime ≤ .longest :=
      ⟨Int.not_le.1 hrange.1, Int.not_lt.1 hrange.2⟩
    simp only [Except.ok.injEq, hbounds, and_true, eq_comm]

lemma create_eq_ok {lifetime : Duration} {action : Action} (h : create lifetime action = .ok p) :
    p = ⟨lifetime, none, action⟩ ∧ 0 < lifetime.nanos ∧ lifetime ≤ .longest :=
  create_eq_ok_iff.1 h

/-- **A fixed lifetime is never exceeded by a decision.** Without an opinion, the session's own
interval ends within it. -/
theorem evaluate_cases (hpos : 0 ≤ p.timeout.nanos) (hle : p.timeout ≤ .longest) (s : Session)
    (now : Time) :
    (∃ d, p.evaluate s now = some d ∧
      now.nanos + d.timeout.nanos ≤ s.created.nanos + p.timeout.nanos) ∨
    p.evaluate s now = none ∧ ∃ e ∈ s.idleEnd, e ≤ s.created.nanos + p.timeout.nanos := by
  obtain ⟨fixed, hfixed, hleft⟩ := Duration.exists_sub? hpos hle now s.created
  have hwithin : ∀ d : Decision, d.timeout ≤ fixed →
      now.nanos + d.timeout.nanos ≤ s.created.nanos + p.timeout.nanos := by
    intro d hd
    rw [Duration.le_iff] at hd
    calc
      now.nanos + d.timeout.nanos ≤ now.nanos + fixed.nanos := by omega
      _ = s.created.nanos + p.timeout.nanos := by omega
  simp only [evaluate, hfixed]
  cases p.idle.bind (·.evaluate s now) with
  | some d =>
    left
    simp only [Option.map_some, Option.some_or]
    split
    next hidle => exact ⟨d, rfl, hwithin d hidle⟩
    next => exact ⟨_, rfl, hwithin _ (Int.le_refl _)⟩
  | none =>
    simp only [Option.map_none, Option.none_or]
    cases hown : ownRemaining s now with
    | none => exact .inl ⟨_, rfl, hwithin _ (Int.le_refl _)⟩
    | some own =>
      simp only
      split
      next hidle =>
        -- what is left of the interval is at most what is left of the lifetime
        unfold ownRemaining at hown
        split at hown
        · cases hown
        next hends =>
          have hnanos := Duration.sub?_eq_some_iff.1 hown
          rw [Time.nanos_since] at hnanos
          rw [Duration.le_iff] at hidle
          exact .inr ⟨rfl, _, if_neg hends, by omega⟩
      next => exact .inl ⟨_, rfl, hwithin _ (Int.le_refl _)⟩

/-- **What is stored under a fixed lifetime ends with it.** -/
theorem lapses {st : Store} {due : Option (Time × Action)} (hpos : 0 ≤ p.timeout.nanos)
    (hle : p.timeout ≤ .longest)
    (h : st.deadline ((p.evaluate s now).map .ofDecision) now = .ok due) :
    s.Lapses p.timeout now due := by
  rcases evaluate_cases hpos hle s now with ⟨d, hd, hwithin⟩ | ⟨-, hown⟩
  · rw [hd] at h
    obtain ⟨time, action, hdue, htime⟩ := Store.deadline_decided h
    have httl := Expiry.ttl_le d
    exact .inl ⟨time, action, hdue, by omega⟩
  · exact .inr hown

end FixedPolicy

/-! ## Idle timeouts -/

namespace IdlePolicy

/-- Until when an idle timeout keeps what is stored now, in nanoseconds since the epoch: for what is
left of it since the last access, in whole seconds, and for one second at least. -/
def keptUntil (timeout : Duration) (accessed now : Time) : Int :=
  now.nanos +
    max 1 (min ((timeout.nanos - (now.nanos - accessed.nanos)) / 1000000000) 2147483647) *
      1000000000

lemma lt_keptUntil (timeout : Duration) (accessed now : Time) :
    now.nanos < keptUntil timeout accessed now := by
  rw [keptUntil]
  omega

lemma keptUntil_mono (timeout : Duration) {accessed later : Time} (h : accessed ≤ later)
    (now : Time) : keptUntil timeout accessed now ≤ keptUntil timeout later now := by
  rw [Time.le_iff] at h
  rw [keptUntil, keptUntil]
  omega

/-- **An idle timeout is dated by what is left of it** since the last access. -/
theorem due_eq {timeout : Duration} {action : Action} {st : Store} {s : Session} {now : Time}
    {due : Option (Time × Action)} (hpos : 0 ≤ timeout.nanos) (hle : timeout ≤ .longest)
    (h : st.deadline (((IdlePolicy.mk (some timeout) action).evaluate s now).map .ofDecision) now =
      .ok due) :
    ∃ time action, due = some (time, action) ∧ time.nanos = keptUntil timeout s.accessed now := by
  obtain ⟨left, hevaluate, hleft⟩ := exists_evaluate hpos hle action s now
  rw [hevaluate] at h
  obtain ⟨time, found, hdue, htime⟩ := Store.deadline_decided h
  rw [Expiry.nanos_ttl, hleft] at htime
  exact ⟨time, found, hdue, htime⟩

end IdlePolicy

/-! ## What policies look at -/

namespace Policy

mutual

/-- The parts of a policy that users have brought. -/
def customs : Policy → List CustomPolicy
  | idle _ => []
  | fixed _ => []
  | custom q => [q]
  | firstOf parts => customsOf parts

def customsOf : List Policy → List CustomPolicy
  | [] => []
  | p :: rest => customs p ++ customsOf rest

end

variable {s t : Session} {now : Time}

mutual

/-- **A policy decides alike on records with the same times and interval**, if the parts that users
have brought do. -/
theorem evaluate_congr (hcreated : t.created = s.created) (haccessed : t.accessed = s.accessed)
    (hmaxIdle : t.maxIdle = s.maxIdle) (p : Policy)
    (hcustoms : ∀ q ∈ p.customs, q.remaining t now = q.remaining s now) :
    p.evaluate t now = p.evaluate s now := by
  cases p with
  | idle p => simp only [evaluate, IdlePolicy.evaluate, haccessed]
  | fixed p =>
    simp only [evaluate, FixedPolicy.evaluate, FixedPolicy.ownRemaining, IdlePolicy.evaluate,
      hcreated, haccessed, hmaxIdle]
  | custom q =>
    have hsame := hcustoms q (List.mem_singleton_self q)
    simp only [evaluate, CustomPolicy.evaluate, hsame]
  | firstOf parts => exact evaluateFirst_congr hcreated haccessed hmaxIdle parts hcustoms

theorem evaluateFirst_congr (hcreated : t.created = s.created)
    (haccessed : t.accessed = s.accessed) (hmaxIdle : t.maxIdle = s.maxIdle) (parts : List Policy)
    (hcustoms : ∀ q ∈ customsOf parts, q.remaining t now = q.remaining s now) :
    evaluateFirst parts t now = evaluateFirst parts s now := by
  cases parts with
  | nil => rfl
  | cons p rest =>
    have hfirst := evaluate_congr hcreated haccessed hmaxIdle p fun q hq =>
      hcustoms q (List.mem_append_left _ hq)
    have hrest := evaluateFirst_congr hcreated haccessed hmaxIdle rest fun q hq =>
      hcustoms q (List.mem_append_right _ hq)
    rw [evaluateFirst, hfirst, hrest, ← evaluateFirst]

end

end Policy

end Sessions
