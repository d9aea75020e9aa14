import Sessions.Expiry.Policy
import Sessions.Proofs.Basic

/-!
# Idle intervals

A record and an idle timeout both tell whether a session has been idle for too long, by different
sums: the record turns the clock back by its interval and compares two dates, where the clock's
calendar may not go back that far; the timeout takes the time since the last access off itself and
looks at the sign of what is left. On clocks in UTC both come to one moment, the last access and the
interval after it, which may lie beyond the calendar (`Session.idleEnd`). On clocks at other offsets
they may differ near the start of the calendar, because it starts later where the clock is behind.
-/

namespace Sessions

namespace Duration

lemma exists_left {timeout : Duration} (hpos : 0 ≤ timeout.nanos) (hle : timeout ≤ .longest)
    (now earlier : Reading) : ∃ left, timeout.sub? (now.since earlier) = some left ∧
      left.nanos = timeout.nanos - (now.nanos - earlier.nanos) := by
  have hlongest : Duration.longest.nanos = 2147483647 * 1000000000 := rfl
  have hnow := now.shown.inRange
  have hearlier := earlier.shown.inRange
  have hoffset := now.offset.inRange
  have hoffset' := earlier.offset.inRange
  rw [Duration.le_iff, hlongest] at hle
  have hrange : -2 ^ 63 * 1000000000 - 999999999 ≤ timeout.nanos - (now.nanos - earlier.nanos) ∧
      timeout.nanos - (now.nanos - earlier.nanos) ≤ (2 ^ 63 - 1) * 1000000000 + 999999999 := by
    unfold Reading.nanos
    omega
  exact ⟨⟨_, hrange⟩, sub?_eq_some_iff.2 rfl, rfl⟩

lemma exists_sub? {timeout : Duration} (hpos : 0 ≤ timeout.nanos) (hle : timeout ≤ .longest)
    (now earlier : Time) : ∃ left, timeout.sub? (now.since earlier) = some left ∧
      left.nanos = timeout.nanos - (now.nanos - earlier.nanos) := by
  simpa only [Reading.since_utc, Time.nanos_utc] using exists_left hpos hle now.utc earlier.utc

lemma isNegative_eq_false {d : Duration} : d.isNegative = false ↔ 0 ≤ d.nanos := by
  simp [isNegative]

lemma min_longest {interval : Duration} (hle : interval ≤ .longest) :
    min interval .longest = interval := if_pos hle

end Duration

/-! ## The interval of a record -/

namespace Session

variable {s : Session} {now later : Time} {accessed reading : Reading}

/-- The interval is over when it has passed since the access, and the clock can be turned back by
it. -/
lemma idleTooLong_iff : s.idleTooLong accessed reading = true ↔
    0 ≤ s.maxIdle.nanos ∧ (reading.sub? s.maxIdle).isSome = true ∧
      accessed.nanos + s.maxIdle.nanos ≤ reading.nanos := by
  unfold idleTooLong
  cases hcut : reading.sub? s.maxIdle with
  | none => simp
  | some cutoff =>
    have hnanos := Reading.nanos_of_sub? hcut
    rw [Bool.and_eq_true, Bool.not_eq_true', Duration.isNegative_eq_false, decide_eq_true_eq,
      Reading.le_iff, hnanos, Option.isSome_some, eq_self, true_and]
    omega

/-- When the session has been idle for its whole interval, in nanoseconds since the epoch; none if
that is never. -/
def idleEnd (s : Session) : Option Int :=
  if s.maxIdle.isNegative then none else some (s.accessed.nanos + s.maxIdle.nanos)

/-- A session is idle past its interval from the end of that interval on; where it would have to
have begun before the calendar, it has not ended. -/
theorem isExpired_iff : s.isExpired now = true ↔ ∃ e ∈ s.idleEnd, e ≤ now.nanos := by
  rw [isExpired, idleTooLong_iff, Time.nanos_utc, Time.nanos_utc]
  unfold idleEnd
  cases hneg : s.maxIdle.isNegative with
  | true =>
    have hless : s.maxIdle.nanos < 0 := by simpa [Duration.isNegative] using hneg
    simp [Int.not_le.2 hless]
  | false =>
    have hpos : 0 ≤ s.maxIdle.nanos := Duration.isNegative_eq_false.1 hneg
    simp only [Bool.false_eq_true, if_false, Option.mem_def, Option.some.injEq, exists_eq_left']
    have hahead : s.accessed.utc.offset ≤ now.utc.offset := Int.le_refl 0
    refine ⟨fun h => h.2.2, fun h => ⟨hpos, Reading.isSome_sub?_of_ahead hpos hahead ?_, h⟩⟩
    rwa [Time.nanos_utc, Time.nanos_utc]

lemma isExpired_of_negative (h : s.maxIdle.nanos < 0) (now : Time) :
    s.isExpired now = false := by
  rw [isExpired, idleTooLong, Duration.isNegative, decide_eq_true h]
  rfl

lemma isExpired_mono (hle : now ≤ later) (h : s.isExpired now = true) :
    s.isExpired later = true := by
  obtain ⟨e, he, hover⟩ := isExpired_iff.1 h
  exact isExpired_iff.2 ⟨e, he, Int.le_trans hover hle⟩

lemma idleEnd_of_nonneg (hpos : 0 ≤ s.maxIdle.nanos) :
    s.idleEnd = some (s.accessed.nanos + s.maxIdle.nanos) := by
  rw [idleEnd, Duration.isNegative_eq_false.2 hpos]
  rfl

end Session

/-! ## Idle timeouts -/

namespace IdlePolicy

variable {p : IdlePolicy} {timeout : Duration} {action : Action}

lemma create_eq_ok_iff : create (some timeout) action = .ok p ↔
    p = ⟨some timeout, action⟩ ∧ 0 ≤ timeout.nanos ∧ timeout ≤ .longest := by
  simp only [create]
  split
  next hrange =>
    rw [Duration.isNegative, decide_eq_true_eq] at hrange
    simp only [reduceCtorEq, false_iff, not_and]
    intro _ hpos hle
    exact hrange.elim (Int.not_lt.2 hpos) (Int.not_lt.2 hle)
  next hrange =>
    rw [not_or, Duration.isNegative, decide_eq_true_eq] at hrange
    have hbounds : 0 ≤ timeout.nanos ∧ timeout ≤ .longest :=
      ⟨Int.not_lt.1 hrange.1, Int.not_lt.1 hrange.2⟩
    simp only [Except.ok.injEq, hbounds, and_true, eq_comm]

lemma create_eq_ok (h : create (some timeout) action = .ok p) :
    p = ⟨some timeout, action⟩ ∧ 0 ≤ timeout.nanos ∧ timeout ≤ .longest :=
  create_eq_ok_iff.1 h

lemma exists_judge (hpos : 0 ≤ timeout.nanos) (hle : timeout ≤ .longest) (action : Action)
    (accessed now : Reading) :
    ∃ left, (mk (some timeout) action).judge accessed now = some ⟨left, action⟩ ∧
      left.nanos = timeout.nanos - (now.nanos - accessed.nanos) := by
  obtain ⟨left, hsub, hleft⟩ := Duration.exists_left hpos hle now accessed
  refine ⟨left, ?_, hleft⟩
  rw [judge, remaining, Option.bind_some, hsub, Option.map_some]

lemma exists_evaluate (hpos : 0 ≤ timeout.nanos) (hle : timeout ≤ .longest) (action : Action)
    (s : Session) (now : Time) :
    ∃ left, (mk (some timeout) action).evaluate s now = some ⟨left, action⟩ ∧
      left.nanos = timeout.nanos - (now.nanos - s.accessed.nanos) := by
  have hjudge := exists_judge hpos hle action s.accessed.utc now.utc
  rwa [Time.nanos_utc, Time.nanos_utc] at hjudge

end IdlePolicy

namespace Session

variable {s t : Session} {interval : Duration}

lemma maxIdle_setMaxIdle (s : Session) (interval : Duration) :
    (s.setMaxIdle interval).maxIdle = min interval .longest := by
  unfold setMaxIdle
  by_cases h : min interval Duration.longest = s.maxIdle
  · rw [if_pos h, h]
  · rw [if_neg h]

lemma accessed_setMaxIdle (s : Session) (interval : Duration) :
    (s.setMaxIdle interval).accessed = s.accessed := by
  unfold setMaxIdle
  dsimp only
  split <;> rfl

lemma maxIdle_of_set (hle : interval ≤ .longest)
    (hset : t = s.setMaxIdle interval ∨ t = s.withMaxIdle interval) :
    t.maxIdle = interval ∧ t.accessed = s.accessed := by
  have hmin := Duration.min_longest hle
  rcases hset with rfl | rfl
  · exact ⟨(maxIdle_setMaxIdle s interval).trans hmin, accessed_setMaxIdle s interval⟩
  · exact ⟨hmin, rfl⟩

/-- **A record and an idle timeout agree in UTC.** An interval that is a valid timeout and is set on
a record ends it when the timeout is due on it: from the moment on that lies the interval after the
last access, wherever that is, and for good. -/
theorem isExpired_eq_due (hpos : 0 ≤ interval.nanos) (hle : interval ≤ .longest)
    (hset : t = s.setMaxIdle interval ∨ t = s.withMaxIdle interval) (action : Action) :
    ∃ p, IdlePolicy.create (some interval) action = .ok p ∧ ∀ now,
      (∃ d, p.evaluate t now = some d ∧ d.isExpired = t.isExpired now) ∧
      (t.isExpired now = true ↔ s.accessed.nanos + interval.nanos ≤ now.nanos) ∧
      ∀ later, now ≤ later → t.isExpired now = true → t.isExpired later = true := by
  obtain ⟨hmaxIdle, haccessed⟩ := maxIdle_of_set hle hset
  have hexpired : ∀ now, t.isExpired now = true ↔
      s.accessed.nanos + interval.nanos ≤ now.nanos := by
    intro now
    rw [isExpired_iff, idleEnd_of_nonneg (by rw [hmaxIdle]; exact hpos), hmaxIdle, haccessed]
    simp
  refine ⟨_, IdlePolicy.create_eq_ok_iff.2 ⟨rfl, hpos, hle⟩, fun now =>
    ⟨?_, hexpired now, fun later => isExpired_mono⟩⟩
  obtain ⟨left, hleft, hnanos⟩ := IdlePolicy.exists_evaluate hpos hle action t now
  refine ⟨_, hleft, ?_⟩
  rw [Bool.eq_iff_iff, hexpired, Decision.isExpired, decide_eq_true_eq, hnanos, haccessed]
  omega

/-- **A record and an idle timeout agree on every clock that is no further behind UTC than the one
of the last access.** The timeout goes by the instants alone. The record turns the clock back by the
interval, and where the calendar of a clock does not go back that far it takes the interval for one
that has not run out, although the access may be earlier still by a clock that is further ahead. -/
theorem idleTooLong_eq_due (hpos : 0 ≤ interval.nanos) (hle : interval ≤ .longest)
    (hset : t = s.setMaxIdle interval ∨ t = s.withMaxIdle interval) (action : Action) :
    ∃ p, IdlePolicy.create (some interval) action = .ok p ∧ ∀ accessed now : Reading,
      (∃ d, p.judge accessed now = some d ∧
        (d.isExpired = true ↔ accessed.nanos + interval.nanos ≤ now.nanos)) ∧
      (t.idleTooLong accessed now = true ↔
        (now.sub? interval).isSome = true ∧
          accessed.nanos + interval.nanos ≤ now.nanos) ∧
      (accessed.offset ≤ now.offset →
        (t.idleTooLong accessed now = true ↔ accessed.nanos + interval.nanos ≤ now.nanos)) ∧
      ∀ later, now ≤ later → now.offset ≤ later.offset →
        t.idleTooLong accessed now = true → t.idleTooLong accessed later = true := by
  obtain ⟨hmaxIdle, -⟩ := maxIdle_of_set hle hset
  have hidle : ∀ accessed now, t.idleTooLong accessed now = true ↔
      (now.sub? interval).isSome = true ∧ accessed.nanos + interval.nanos ≤ now.nanos := by
    intro accessed now
    rw [idleTooLong_iff, hmaxIdle]
    exact and_iff_right hpos
  refine ⟨_, IdlePolicy.create_eq_ok_iff.2 ⟨rfl, hpos, hle⟩, fun accessed now =>
    ⟨?_, hidle accessed now, fun hahead => ?_, fun later hlater hahead hover => ?_⟩⟩
  · obtain ⟨left, hleft, hnanos⟩ := IdlePolicy.exists_judge hpos hle action accessed now
    refine ⟨_, hleft, ?_⟩
    rw [Decision.isExpired, decide_eq_true_eq, hnanos]
    omega
  · rw [hidle]
    exact and_iff_right_of_imp (Reading.isSome_sub?_of_ahead hpos hahead)
  · obtain ⟨hturned, hpassed⟩ := (hidle accessed now).1 hover
    exact (hidle accessed later).2
      ⟨Reading.isSome_sub?_mono hpos hlater hahead hturned, Int.le_trans hpassed hlater⟩

end Session

namespace Sample

/-- The first instant of the calendar. -/
def dawn : Time := ⟨-377705116800000000000, by decide⟩

/-- A record of that instant with an interval of half an hour. -/
def resting : Session := (Session.create ⟨"x"⟩ dawn .plain).withMaxIdle Session.defaultMaxIdle

/-- Half an hour later in UTC. -/
def rested : Reading := Time.utc ⟨-377705115000000000000, by decide⟩

/-- Five hours and ten minutes after the first instant, on a clock that is five hours behind UTC. -/
def behind : Reading := ⟨⟨-377705116200000000000, by decide⟩, ⟨-18000, by decide⟩⟩

end Sample

namespace Session

open Sample

theorem idleTooLong_eq_due_at_dawn :
    0 ≤ defaultMaxIdle.nanos ∧ defaultMaxIdle ≤ .longest ∧
    ∃ p, IdlePolicy.create (some defaultMaxIdle) .destroy = .ok p ∧
      (∃ d, p.judge dawn.utc rested = some d ∧ d.isExpired = true) ∧
      resting.idleTooLong dawn.utc dawn.utc = false ∧
      resting.idleTooLong dawn.utc rested = true ∧
      (∀ later, rested ≤ later → rested.offset ≤ later.offset →
        resting.idleTooLong dawn.utc later = true) ∧
      (∃ d, p.judge dawn.utc behind = some d ∧ d.isExpired = true) ∧
      resting.idleTooLong dawn.utc behind = false := by
  have hpos : 0 ≤ defaultMaxIdle.nanos := by decide
  have hle : defaultMaxIdle ≤ .longest := by decide
  obtain ⟨p, hp, hagree⟩ := idleTooLong_eq_due (s := .create ⟨"x"⟩ dawn .plain) hpos hle
    (.inr (Eq.refl resting)) .destroy
  obtain ⟨-, -, hstart, -⟩ := hagree dawn.utc dawn.utc
  obtain ⟨⟨d, hd, hdue⟩, -, hend, hkept⟩ := hagree dawn.utc rested
  obtain ⟨⟨d', hd', hdue'⟩, hturned, -⟩ := hagree dawn.utc behind
  have hlive : resting.idleTooLong dawn.utc dawn.utc = false := by
    rw [← Bool.not_eq_true, hstart (by decide)]
    decide
  have hover : resting.idleTooLong dawn.utc rested = true :=
    (hend (by decide)).2 (by decide)
  have hmissed : resting.idleTooLong dawn.utc behind = false := by
    rw [← Bool.not_eq_true, hturned]
    decide
  exact ⟨hpos, hle, p, hp, ⟨d, hd, hdue.2 (by decide)⟩, hlive, hover,
    fun later hlater hahead => hkept later hlater hahead hover,
    ⟨d', hd', hdue'.2 (by decide)⟩, hmissed⟩

/-- On a clock that is behind UTC the interval of half an hour reaches back past the start of the
calendar five hours after the access, although it ran out long ago and the record was found to be
idle for too long earlier, in UTC. -/
theorem idle_check_can_miss :
    dawn.utc.nanos + resting.maxIdle.nanos ≤ behind.nanos ∧
      (∃ p d, IdlePolicy.create (some defaultMaxIdle) .destroy = .ok p ∧
        p.judge dawn.utc behind = some d ∧ d.isExpired = true) ∧
      resting.idleTooLong dawn.utc behind = false ∧
      rested ≤ behind ∧ resting.idleTooLong dawn.utc rested = true :=
  ⟨by decide, ⟨⟨some defaultMaxIdle, .destroy⟩, ⟨⟨-16800000000000, by decide⟩, .destroy⟩,
    by decide, by decide, by decide⟩, by decide, by decide, by decide⟩

end Session

end Sessions
