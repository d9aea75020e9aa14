import Sessions.Proofs.Codec.Reading

/-!
# Documents that become records

A document has its times in milliseconds and its interval in seconds, each in 64 signed bits; a
record has nanoseconds within a calendar and an interval within bounds. `Document.Acceptable` says
which documents become records. What became a record is read off it again as it was: milliseconds
are whole, so nothing is lost where times before 1970 are counted towards it.
-/

namespace Sessions

namespace Time

/-- The calendar, in milliseconds. -/
def HasMillis (millis : Int64) : Prop :=
  -377705116800000 ≤ millis.toInt ∧ millis.toInt ≤ 253402300799999

lemma ofMillis?_eq_some_iff {millis : Int64} {t : Time} :
    ofMillis? millis = some t ↔ t.nanos = millis.toInt * 1000000 := ofNanos?_eq_some_iff

lemma exists_ofMillis?_iff {millis : Int64} :
    (∃ t, ofMillis? millis = some t) ↔ HasMillis millis := by
  simp only [ofMillis?_eq_some_iff]
  constructor
  · rintro ⟨t, ht⟩
    have hrange := t.inRange
    rw [HasMillis]
    omega
  · intro ⟨hlow, hhigh⟩
    exact ⟨⟨millis.toInt * 1000000, by omega⟩, rfl⟩

lemma millis_of_ofMillis? {millis : Int64} {t : Time} (h : ofMillis? millis = some t) :
    t.millis = millis := by
  apply Int64.toInt_inj.1
  rw [toInt_millis, ofMillis?_eq_some_iff.1 h, Int.mul_tdiv_cancel _ (by decide)]

end Time

/-! ## Attributes -/

lemma Entries.map_insert {α β : Type} (f : α → β) (name : String) (value : α)
    (entries : List (String × α)) :
    (insert name value entries).map (fun e => (e.1, f e.2)) =
      insert name (f value) (entries.map fun e => (e.1, f e.2)) := by
  induction entries with
  | nil => rfl
  | cons e rest ih =>
    obtain ⟨n, v⟩ := e
    simp only [insert, List.map_cons]
    split
    · rfl
    · split
      · rfl
      · rw [List.map_cons, ih]

namespace Attributes

lemma entries_load (a : Attributes) (name : String) (value : Json) :
    (a.load name value).entries = Entries.insert name value a.entries :=
  Entries.map_insert Handle.value name ⟨.own a.made, value⟩ a.held.entries

lemma entries_ofEntries (t : Table Json) : (ofEntries t.entries).entries = t.entries :=
  calc
    (ofEntries t.entries).entries
        = t.entries.foldl (fun sorted e => Entries.insert e.1 e.2 sorted) [] :=
      (List.foldl_hom entries fun a e => (entries_load a e.1 e.2).symm).symm
    _ = t.entries := Entries.foldl_insert [] t.ascending

end Attributes

/-! ## Documents -/

namespace Document

variable {d : Document} {s : Session}

/-- What is asked of a document that is to become a record. -/
structure Acceptable (d : Document) : Prop where
  id : isBlank d.id = false
  created : Time.HasMillis d.created
  accessed : Time.HasMillis d.accessed
  order : d.created.toInt ≤ d.accessed.toInt
  interval : d.maxIdleSeconds.toInt ≤ 2147483647

lemma le_iff_of_ofMillis? {created accessed : Time}
    (hcreated : Time.ofMillis? d.created = some created)
    (haccessed : Time.ofMillis? d.accessed = some accessed) :
    created ≤ accessed ↔ d.created.toInt ≤ d.accessed.toInt := by
  rw [Time.le_iff, Time.ofMillis?_eq_some_iff.1 hcreated, Time.ofMillis?_eq_some_iff.1 haccessed]
  omega

lemma acceptable_of_toSession (h : d.toSession = .ok s) : d.Acceptable := by
  obtain ⟨hid, created, hcreated, accessed, haccessed, h⟩ := toSession_eq_ok_iff.1 h
  obtain ⟨⟨horder, hinterval⟩, -⟩ := Session.restore_eq_ok_iff.1 h
  exact ⟨hid, Time.exists_ofMillis?_iff.1 ⟨created, hcreated⟩,
    Time.exists_ofMillis?_iff.1 ⟨accessed, haccessed⟩,
    (le_iff_of_ofMillis? hcreated haccessed).1 horder, Duration.ofSeconds_le_longest.1 hinterval⟩

lemma Acceptable.exists_toSession (h : d.Acceptable) : ∃ s, d.toSession = .ok s := by
  obtain ⟨created, hcreated⟩ := Time.exists_ofMillis?_iff.2 h.created
  obtain ⟨accessed, haccessed⟩ := Time.exists_ofMillis?_iff.2 h.accessed
  have horder := (le_iff_of_ofMillis? hcreated haccessed).2 h.order
  have hinterval := Duration.ofSeconds_le_longest.2 h.interval
  exact ⟨_, toSession_eq_ok_iff.2 ⟨h.id, created, hcreated, accessed, haccessed,
    Session.restore_eq_ok_iff.2 ⟨⟨horder, hinterval⟩, rfl⟩⟩⟩

lemma ofSession_toSession (h : d.toSession = .ok s) : ofSession s = d := by
  obtain ⟨-, created, hcreated, accessed, haccessed, h⟩ := toSession_eq_ok_iff.1 h
  obtain ⟨-, rfl⟩ := Session.restore_eq_ok_iff.1 h
  obtain ⟨id, createdMillis, accessedMillis, seconds, principal, attributes⟩ := d
  have hentries := Attributes.entries_ofEntries attributes
  simp only [ofSession, Time.millis_of_ofMillis? hcreated, Time.millis_of_ofMillis? haccessed,
    Duration.wholeSeconds_ofSeconds, hentries]

/-- **A document survives being a record.** It becomes one exactly if it is acceptable, and then the
document of the record is the document that it came from. -/
theorem survives_record (d : Document) :
    ((∃ s, d.toSession = .ok s) ↔ d.Acceptable) ∧ ∀ s, d.toSession = .ok s → ofSession s = d :=
  ⟨⟨fun ⟨_, hs⟩ => acceptable_of_toSession hs, Acceptable.exists_toSession⟩,
    fun _ => ofSession_toSession⟩

end Document

namespace Sample

/-- A document of the first millisecond of the calendar, last accessed in the last one before 1970,
with values and an interval that no record of this library would be given otherwise. -/
def foreign : Document where
  id := " y "
  created := -377705116800000
  accessed := -1
  maxIdleSeconds := -9223372036854775808
  principal := some "ann"
  attributes := .ofList [("step", .null), ("", .arr [.double (.zero true)])]

end Sample

namespace Document

open Sample

/-- Neither the time before 1970 nor the value `null`, which no edit stores, is lost. -/
theorem survives_record_foreign :
    foreign.Acceptable ∧ ∃ s, foreign.toSession = .ok s ∧ s.accessed.nanos = -1000000 ∧
      s.attributes.value? "step" = some .null ∧ ofSession s = foreign := by
  obtain ⟨hiff, hback⟩ := survives_record foreign
  have hread : foreign.toSession.toOption.any (fun s =>
      s.accessed.nanos = -1000000 ∧ s.attributes.value? "step" = some .null) = true := by
    decide +kernel
  cases hs : foreign.toSession with
  | error e =>
    rw [hs] at hread
    cases hread
  | ok s =>
    rw [hs] at hread
    obtain ⟨haccessed, hstep⟩ := of_decide_eq_true hread
    exact ⟨hiff.1 ⟨s, hs⟩, s, rfl, haccessed, hstep, hback s hs⟩

/-- A millisecond earlier, it is no time of the calendar. -/
example : Document.toSession { foreign with created := -377705116800001 } =
    .error (.timeOutOfRange "creation time" (-377705116800001)) := by
  rfl

end Document

end Sessions
