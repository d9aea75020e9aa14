import Sessions.Proofs.Codec.Legibility
import Sessions.Proofs.Expiry.Idle

/-!
# Idle expiry after a round trip

A payload has the idle interval in whole seconds, cut towards zero. So a stored record ends when the
record that was written would end without the part of its interval below a second: never, if its
interval is negative, and at the very same moment if the interval is a number of whole seconds. Only
an interval between minus one second and zero, which never ends, becomes one that does.
-/

namespace Sessions

namespace Duration

lemma nanos_ofSeconds_wholeSeconds (d : Duration) :
    (ofSeconds d.wholeSeconds).nanos = d.nanos - d.subsecond := by
  have hsplit := Int.mul_tdiv_add_tmod d.nanos 1000000000
  rw [nanos_ofSeconds, toInt_wholeSeconds, subsecond]
  omega

lemma subsecond_bounds (d : Duration) :
    (0 ≤ d.nanos → 0 ≤ d.subsecond ∧ d.subsecond ≤ d.nanos ∧ d.subsecond < 1000000000) ∧
      (d.nanos ≤ -1000000000 → d.nanos - d.subsecond < 0) := by
  have hdiv := tdiv_bounds d.nanos
  have hsplit := Int.mul_tdiv_add_tmod d.nanos 1000000000
  rw [subsecond]
  omega

end Duration

namespace Session

variable {s t : Session}

lemma idleEnd_cut (hinterval : 0 ≤ s.maxIdle.nanos ∨ s.maxIdle.nanos ≤ -1000000000)
    (haccessed : t.accessed = s.accessed)
    (hmaxIdle : t.maxIdle = .ofSeconds s.maxIdle.wholeSeconds) :
    t.idleEnd = s.idleEnd.map (· - s.maxIdle.subsecond) := by
  have hnanos := s.maxIdle.nanos_ofSeconds_wholeSeconds
  obtain ⟨hpos, hneg⟩ := s.maxIdle.subsecond_bounds
  unfold idleEnd
  rw [hmaxIdle, haccessed]
  simp only [Duration.isNegative, hnanos]
  rcases hinterval with hle | hlt
  · obtain ⟨-, hless, -⟩ := hpos hle
    have hcut : ¬s.maxIdle.nanos - s.maxIdle.subsecond < 0 := by omega
    have hwhole : ¬s.maxIdle.nanos < 0 := by omega
    simp only [hcut, hwhole, decide_false, Bool.false_eq_true, if_false, Option.map_some]
    exact congrArg some (by omega)
  · have hcut := hneg hlt
    have hwhole : s.maxIdle.nanos < 0 := by omega
    simp only [hcut, hwhole, decide_true, if_true, Option.map_none]

end Session

namespace Codec

open Session (idleEnd isExpired_iff)

variable {c : Codec} {s s' : Session} {payload : Bytes}

lemma exists_decoded (hc : BuiltIn c) (hs : s.Made) (h : c.encodeFull s = (s', .ok payload))
    (hfits : ∀ header, Header.read payload = .ok header →
      ∀ name value, s.attributes.value? name = some value →
        value.Valid ∧ value.depth ≤ room header) :
    ∃ t, c.decode payload = .ok t ∧ t.accessed = s.accessed ∧
      t.maxIdle = .ofSeconds s.maxIdle.wholeSeconds := by
  have hcarries := hc.carries h
  obtain ⟨header, hheader, -⟩ := hcarries.header
  have hvalues := hfits header hheader
  obtain ⟨found, principal, hfound, -, hiff⟩ := hcarries.decode_iff hs.wellFormed.1
    fun name value hv => (hvalues name value hv).1
  obtain rfl : header = found := Except.ok.inj (hheader.symm.trans hfound)
  exact ⟨_, (hiff _).2 ⟨fun name value hv => (hvalues name value hv).2, rfl⟩, rfl, rfl⟩

/-- **A stored record ends when the written one does, without the part of its interval below a
second**: at the same moment if there is no such part, and never if the interval is negative. -/
theorem isExpired_decoded (hc : BuiltIn c) (hs : s.Made)
    (h : c.encodeFull s = (s', .ok payload))
    (hfits : ∀ header, Header.read payload = .ok header →
      ∀ name value, s.attributes.value? name = some value →
        value.Valid ∧ value.depth ≤ room header)
    (hinterval : 0 ≤ s.maxIdle.nanos ∨ s.maxIdle.nanos ≤ -1000000000) :
    ∃ t, c.decode payload = .ok t ∧
      (∀ now, t.isExpired now = true ↔
        ∃ e ∈ s.idleEnd, e - s.maxIdle.subsecond ≤ now.nanos) ∧
      (∀ now, s.isExpired now = true → t.isExpired now = true) ∧
      (s.maxIdle.subsecond = 0 ∨ s.maxIdle.isNegative = true →
        ∀ now, t.isExpired now = s.isExpired now) := by
  obtain ⟨t, hread, haccessed, hmaxIdle⟩ := exists_decoded hc hs h hfits
  have hend := Session.idleEnd_cut hinterval haccessed hmaxIdle
  have hexpired : ∀ now, t.isExpired now = true ↔
      ∃ e ∈ s.idleEnd, e - s.maxIdle.subsecond ≤ now.nanos := by
    intro now
    simp only [isExpired_iff, hend, Option.mem_def, Option.map_eq_some_iff,
      exists_exists_and_eq_and]
  refine ⟨t, hread, hexpired, fun now hgone => ?_, fun hwhole now => ?_⟩
  · -- what is cut off is not negative if there is an end at all
    obtain ⟨e, he, hle⟩ := isExpired_iff.1 hgone
    have hpos : 0 ≤ s.maxIdle.nanos := by
      by_contra hneg
      have hnone : s.idleEnd = none := if_pos (by simpa [Duration.isNegative] using hneg)
      rw [hnone] at he
      cases he
    have hless := (s.maxIdle.subsecond_bounds.1 hpos).1
    exact (hexpired now).2 ⟨e, he, by omega⟩
  · rw [Bool.eq_iff_iff, hexpired, isExpired_iff]
    rcases hwhole with hzero | hneg
    · simp only [hzero, Int.sub_zero]
    · have hnone : s.idleEnd = none := if_pos hneg
      simp only [hnone, Option.mem_def, reduceCtorEq, false_and, exists_false]

/-- An interval between minus one second and zero is written as zero: the sign is lost with the part
below a second, and a record that would never end has ended at its last access once it is read. -/
theorem isExpired_decoded_of_lost_sign (hc : BuiltIn c) (hs : s.Made)
    (h : c.encodeFull s = (s', .ok payload))
    (hfits : ∀ header, Header.read payload = .ok header →
      ∀ name value, s.attributes.value? name = some value →
        value.Valid ∧ value.depth ≤ room header)
    (hneg : s.maxIdle.nanos < 0) (hless : -1000000000 < s.maxIdle.nanos) :
    ∃ t, c.decode payload = .ok t ∧
      ∀ now, s.isExpired now = false ∧ (t.isExpired now = true ↔ s.accessed ≤ now) := by
  obtain ⟨t, hread, haccessed, hmaxIdle⟩ := exists_decoded hc hs h hfits
  have hbounds := (Duration.tdiv_bounds s.maxIdle.nanos).2 hneg
  have hzero : t.maxIdle.nanos = 0 := by
    rw [hmaxIdle, Duration.nanos_ofSeconds, Duration.toInt_wholeSeconds]
    omega
  refine ⟨t, hread, fun now => ⟨Session.isExpired_of_negative hneg now, ?_⟩⟩
  rw [isExpired_iff, Session.idleEnd_of_nonneg (Int.le_of_eq hzero.symm), hzero, haccessed]
  simp [Time.le_iff]

end Codec

namespace Sample

def lasting (interval : Duration) : Session :=
  (Session.create ⟨"x"⟩ evening .deltaCapable).withMaxIdle interval

/-- Whether the record has ended once it was written and read. -/
def endedWhenRead (s : Session) (now : Time) : Option Bool := do
  let payload ← (Codec.binary.encodeFull s).2.toOption
  let t ← (Codec.binary.decode payload).toOption
  some (t.isExpired now)

end Sample

namespace Codec

open Sample

theorem isExpired_decoded_pioneer :
    ∃ payload t, twoDeep.encodeFull pioneer = (pioneer.commit, .ok payload) ∧
      twoDeep.decode payload = .ok t ∧
      ∀ now, t.isExpired now = true ↔ 88500000000 ≤ now.nanos := by
  have hmade : pioneer.Made :=
    (((Session.Made.create (by decide) _ _).withMaxIdle _).rotate (by decide)).edit _ _
  have hok : (twoDeep.encodeFull pioneer).2.toOption.isSome = true := by decide +kernel
  cases hwritten : twoDeep.encodeFull pioneer with
  | mk s outcome =>
    cases outcome with
    | error e =>
      rw [hwritten] at hok
      cases hok
    | ok payload =>
      obtain rfl := builtIn_twoDeep.lawful.encodeFull_ok hwritten
      have hfits : ∀ header, Header.read payload = .ok header →
          ∀ name value, pioneer.attributes.value? name = some value →
            value.Valid ∧ value.depth ≤ room header := by
        intro header hheader name value hv
        have hless : Portable.maxDepth ≤ room header := by
          unfold room
          split <;> decide
        obtain ⟨hback, hdepth⟩ := readsBack_pioneer name value hv
        exact ⟨hback.valid.1, Nat.le_trans hdepth hless⟩
      obtain ⟨t, ht, hexpired, -⟩ := isExpired_decoded builtIn_twoDeep hmade hwritten hfits
        (.inl (by decide))
      refine ⟨payload, t, rfl, ht, fun now => ?_⟩
      have hend : pioneer.idleEnd = some 89000000000 := by decide
      have hcut : pioneer.maxIdle.subsecond = 500000000 := by decide
      rw [hexpired, hend, hcut]
      constructor
      · rintro ⟨e, he, hle⟩
        obtain rfl := Option.some.inj he
        omega
      · exact fun hle => ⟨_, rfl, by omega⟩

/-- An interval of a second and a half ends after a second once it was stored. -/
theorem idle_end_can_move :
    (lasting ⟨1500000000, by decide⟩).isExpired ⟨-500000000, by decide⟩ = false ∧
      endedWhenRead (lasting ⟨1500000000, by decide⟩) ⟨-500000000, by decide⟩ = some true := by
  decide +kernel

end Codec

end Sessions
