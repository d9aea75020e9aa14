import Mathlib.Tactic.Lemma
import Sessions.Time

/-!
# Arithmetic of times

Durations and instants are whole numbers within bounds, and every statement about them comes down to
one about the numbers. On the wire an instant is a number of milliseconds and a duration one of
seconds, both counted towards zero: whole ones come back as they were.
-/

namespace Sessions

namespace Duration

@[ext] lemma ext {a b : Duration} (h : a.nanos = b.nanos) : a = b := by
  cases a; cases b; simp_all

lemma le_iff {a b : Duration} : a ≤ b ↔ a.nanos ≤ b.nanos := Iff.rfl

lemma lt_iff {a b : Duration} : a < b ↔ a.nanos < b.nanos := Iff.rfl

@[simp] lemma nanos_ofSeconds (s : Int64) : (ofSeconds s).nanos = s.toInt * 1000000000 := rfl

lemma ofSeconds_le_longest {seconds : Int64} :
    ofSeconds seconds ≤ .longest ↔ seconds.toInt ≤ 2147483647 := by
  have hlongest : Duration.longest.nanos = 2147483647 * 1000000000 := rfl
  rw [le_iff, nanos_ofSeconds, hlongest]
  omega

lemma tdiv_bounds (n : Int) :
    (0 ≤ n → n.tdiv 1000000000 * 1000000000 ≤ n ∧ n < (n.tdiv 1000000000 + 1) * 1000000000) ∧
      (n < 0 → (n.tdiv 1000000000 - 1) * 1000000000 < n ∧ n ≤ n.tdiv 1000000000 * 1000000000) := by
  have h := Int.tdiv_eq_ediv (a := n) (b := 1000000000)
  have hs : Int.sign 1000000000 = 1 := rfl
  rw [hs] at h
  split at h <;> omega

lemma toInt_wholeSeconds (d : Duration) : d.wholeSeconds.toInt = d.nanos.tdiv 1000000000 := by
  have h := d.inRange
  have hdiv := tdiv_bounds d.nanos
  rw [wholeSeconds, Int64.toInt_ofInt_of_le (by omega) (by omega)]

lemma wholeSeconds_ofSeconds (s : Int64) : (ofSeconds s).wholeSeconds = s := by
  apply Int64.toInt_inj.1
  rw [toInt_wholeSeconds, nanos_ofSeconds, Int.mul_tdiv_cancel _ (by decide)]

lemma sub?_eq_some_iff {a b d : Duration} : a.sub? b = some d ↔ d.nanos = a.nanos - b.nanos := by
  unfold sub? ofNanos?
  split
  next h =>
    constructor
    · intro e; cases e; rfl
    · intro e; exact congrArg some (Duration.ext e.symm)
  next h =>
    constructor
    · intro e; cases e
    · intro e; exact absurd (e ▸ d.inRange) h

end Duration

namespace Time

@[ext] lemma ext {a b : Time} (h : a.nanos = b.nanos) : a = b := by
  cases a; cases b; simp_all

lemma le_iff {a b : Time} : a ≤ b ↔ a.nanos ≤ b.nanos := Iff.rfl

lemma lt_iff {a b : Time} : a < b ↔ a.nanos < b.nanos := Iff.rfl

lemma le_refl (a : Time) : a ≤ a := Int.le_refl a.nanos

lemma le_trans {a b c : Time} (hab : a ≤ b) (hbc : b ≤ c) : a ≤ c := Int.le_trans hab hbc

lemma max_eq_left {a b : Time} (h : b ≤ a) : max a b = a := by
  change (if a ≤ b then b else a) = a
  split
  next hge => exact Time.ext (Int.le_antisymm h hge)
  next => rfl

lemma le_max_left (a b : Time) : a ≤ max a b := by
  change a ≤ if a ≤ b then b else a
  split
  next h => exact h
  next => exact Int.le_refl _

lemma le_max_right (a b : Time) : b ≤ max a b := by
  change b ≤ if a ≤ b then b else a
  split
  · exact Int.le_refl _
  next h => exact Int.le_of_lt (Int.not_le.1 h)

lemma floorMillis_max {a b : Time} (ha : a.floorMillis = a) (hb : b.floorMillis = b) :
    (max a b).floorMillis = max a b := by
  change (if a ≤ b then b else a).floorMillis = if a ≤ b then b else a
  split
  · exact hb
  · exact ha

@[simp] lemma nanos_since (t earlier : Time) :
    (t.since earlier).nanos = t.nanos - earlier.nanos := rfl

@[simp] lemma nanos_floorMillis (t : Time) :
    t.floorMillis.nanos = t.nanos / 1000000 * 1000000 := rfl

lemma floorMillis_floorMillis (t : Time) : t.floorMillis.floorMillis = t.floorMillis := by
  ext; simp only [nanos_floorMillis]; omega

lemma toInt_millis (t : Time) : t.millis.toInt = t.nanos.tdiv 1000000 := by
  have h := t.inRange
  have hdiv := Int.tdiv_eq_ediv (a := t.nanos) (b := 1000000)
  have hs : Int.sign 1000000 = 1 := rfl
  rw [hs] at hdiv
  rw [millis, Int64.toInt_ofInt_of_le (by split at hdiv <;> omega) (by split at hdiv <;> omega)]

lemma ofNanos?_eq_some_iff {n : Int} {t : Time} : ofNanos? n = some t ↔ t.nanos = n := by
  unfold ofNanos?
  split
  next h =>
    constructor
    · intro e; cases e; rfl
    · intro e; exact congrArg some (Time.ext e.symm)
  next h =>
    constructor
    · intro e; cases e
    · intro e; exact absurd (e ▸ t.inRange) h

lemma isSome_sub?_iff {t : Time} {d : Duration} (hpos : 0 ≤ d.nanos) :
    (t.sub? d).isSome = true ↔ -377705116800000000000 ≤ t.nanos - d.nanos := by
  have ht := t.inRange
  unfold sub? ofNanos?
  split
  next h => simp [h.1]
  next h =>
    rw [Option.isSome_none]
    simp only [Bool.false_eq_true, false_iff]
    omega

lemma ofMillis?_millis {t : Time} (h : t.floorMillis = t) : ofMillis? t.millis = some t := by
  have hn : t.nanos / 1000000 * 1000000 = t.nanos := congrArg Time.nanos h
  have hdiv := Int.tdiv_eq_ediv (a := t.nanos) (b := 1000000)
  have hs : Int.sign 1000000 = 1 := rfl
  rw [hs] at hdiv
  rw [ofMillis?, ofNanos?_eq_some_iff, toInt_millis]
  split at hdiv <;> omega

@[simp] lemma nanos_utc (t : Time) : t.utc.nanos = t.nanos := by
  simp [utc, Offset.utc, Reading.nanos]

end Time

lemma Offset.le_iff {a b : Offset} : a ≤ b ↔ a.seconds ≤ b.seconds := Iff.rfl

namespace Reading

variable {accessed now later cutoff : Reading} {d : Duration}

lemma le_iff : accessed ≤ now ↔ accessed.nanos ≤ now.nanos := Iff.rfl

@[simp] lemma nanos_since (r earlier : Reading) :
    (r.since earlier).nanos = r.nanos - earlier.nanos := rfl

lemma isSome_sub?_iff {r : Reading} (hpos : 0 ≤ d.nanos) :
    (r.sub? d).isSome = true ↔ -377705116800000000000 ≤ r.shown.nanos - d.nanos := by
  rw [sub?, Option.isSome_map, Time.isSome_sub?_iff hpos]

lemma nanos_of_sub? (h : now.sub? d = some cutoff) : cutoff.nanos = now.nanos - d.nanos := by
  obtain ⟨shown, hshown, rfl⟩ := Option.map_eq_some_iff.1 h
  have hnanos := Time.ofNanos?_eq_some_iff.1 hshown
  simp only [nanos, hnanos]
  omega

@[simp] lemma since_utc (t earlier : Time) : t.utc.since earlier.utc = t.since earlier := by
  ext
  simp

/-- On a clock that is no further behind, the calendar goes back to every access. -/
lemma isSome_sub?_of_ahead (hpos : 0 ≤ d.nanos) (hahead : accessed.offset ≤ now.offset)
    (hle : accessed.nanos + d.nanos ≤ now.nanos) : (now.sub? d).isSome = true := by
  have hshown := accessed.shown.inRange
  rw [Offset.le_iff] at hahead
  rw [isSome_sub?_iff hpos]
  unfold nanos at hle
  omega

lemma isSome_sub?_mono (hpos : 0 ≤ d.nanos) (hle : now ≤ later)
    (hahead : now.offset ≤ later.offset) (h : (now.sub? d).isSome = true) :
    (later.sub? d).isSome = true := by
  rw [isSome_sub?_iff hpos] at h ⊢
  rw [Offset.le_iff] at hahead
  rw [le_iff] at hle
  unfold nanos at hle
  omega

end Reading

end Sessions
