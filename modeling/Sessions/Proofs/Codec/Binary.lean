import Sessions.Codec.Binary
import Sessions.Proofs.Session
import Sessions.Proofs.Wire

/-!
# Reading back binary payloads

Each field that was written is taken off the front of what follows; a full payload gives the
record back, and a delta brings a stored record up to date.
-/

namespace Sessions.Binary

variable {bytes payload : Bytes}

/-! ## Fields -/

lemma takeId_append {id : Ident} (hid : isBlank id.text = false)
    (h : Wire.putText "session id" id.text = .ok bytes) (rest : Bytes) :
    takeId (bytes ++ rest) = .ok (id, rest) := by
  rw [takeId, Wire.takeText_append h, ok_bind]
  simp [Ident.parse, hid]

lemma takeTime_append {t : Time} (ht : t.floorMillis = t) (field : String) (rest : Bytes) :
    takeTime field (Wire.putInt64 t.millis ++ rest) = .ok (t, rest) := by
  rw [takeTime, Wire.takeInt64_putInt64, ok_bind]
  simp only [Time.ofMillis?_millis ht]

lemma takeInterval_append (seconds : Int64) (rest : Bytes) :
    takeInterval (Wire.putInt64 seconds ++ rest) = .ok (.ofSeconds seconds, rest) := by
  rw [takeInterval, Wire.takeInt64_putInt64, ok_bind]

/-- A missing principal is written as an empty one, which is none when it is read. -/
lemma takePrincipal_append {principal : Option String} (hne : principal ≠ some "")
    (h : putPrincipal principal = .ok bytes) (rest : Bytes) :
    takePrincipal (bytes ++ rest) = .ok (principal, rest) := by
  unfold putPrincipal Wire.putText Wire.putBytes at h
  obtain ⟨length, hlength, h⟩ := bind_eq_ok.1 h
  simp only [Except.ok.injEq] at h
  subst h
  rw [takePrincipal, List.append_assoc, Wire.takeLength_append hlength, ok_bind]
  cases principal with
  | none => simp [Utf8.encode]
  | some name =>
    have hpos : (Utf8.encode name).length ≠ 0 := by
      intro hzero
      have hnil : Utf8.encode name = Utf8.encode "" := by
        rw [List.length_eq_zero_iff.1 hzero]
        rfl
      exact hne (congrArg some (Utf8.encode_injective hnil))
    simp only [Option.getD_some, hpos, if_false, Wire.takeCounted_append, ok_bind, Wire.asText,
      Utf8.decode_encode]

lemma takeValue_append {value : Json} (h : Wire.putBytes "attribute value" value.bytes = .ok bytes)
    (rest : Bytes) :
    takeValue (bytes ++ rest) = match Json.read value.bytes with
      | .ok v => .ok (v, rest)
      | .error flaw => .error (.json flaw) := by
  rw [takeValue, Wire.takeBytes_append h]
  cases hread : Json.read value.bytes with
  | ok v => simp only [ok_bind, hread]
  | error flaw => simp only [ok_bind, hread]

lemma takeEntries_append {entries : List (String × Json)} (h : putEntries entries = .ok bytes)
    (a b : Attributes) (rest : Bytes) :
    takeEntries entries.length a (bytes ++ rest) = .ok b ↔
      (∀ e ∈ entries, e.2.Legible) ∧
        b = (entries.map fun e => (e.1, e.2.echo)).foldl (fun a e => a.load e.1 e.2) a := by
  induction entries generalizing a bytes with
  | nil => simp [takeEntries, eq_comm]
  | cons e more ih =>
    obtain ⟨name, value⟩ := e
    rw [putEntries] at h
    obtain ⟨first, hfirst, h⟩ := bind_eq_ok.1 h
    obtain ⟨others, hothers, h⟩ := bind_eq_ok.1 h
    rw [putEntry] at hfirst
    obtain ⟨nameBytes, hname, hfirst⟩ := bind_eq_ok.1 hfirst
    obtain ⟨valueBytes, hvalue, hfirst⟩ := bind_eq_ok.1 hfirst
    simp only [Except.ok.injEq] at h hfirst
    subst h hfirst
    rw [List.length_cons, takeEntries]
    simp only [List.append_assoc, Wire.takeText_append hname, ok_bind, takeValue_append hvalue]
    cases hread : Json.read value.bytes with
    | ok v =>
      have hlegible : value.Legible := ⟨v, hread⟩
      rw [List.map_cons, List.foldl_cons, Json.echo_of_read hread, List.forall_mem_cons]
      simp only [ok_bind, hlegible, true_and]
      exact ih hothers _
    | error flaw =>
      constructor
      · intro hok
        cases hok
      · rintro ⟨hlegible, -⟩
        obtain ⟨v, hv⟩ := hlegible (name, value) List.mem_cons_self
        rw [hread] at hv
        cases hv

/-- The value of a change can be read, if it has one. -/
def LegibleChange (change : String × Option Json) : Prop := ∀ value ∈ change.2, value.Legible

/-- A change with its value as it comes back. -/
def echoChange (change : String × Option Json) : String × Option Json :=
  (change.1, change.2.map Json.echo)

lemma takeChange_append {name : String} {value : Option Json}
    (h : putChange name value = .ok bytes) (a b : Attributes) (rest tl : Bytes) :
    takeChange a (bytes ++ rest) = .ok (b, tl) ↔
      LegibleChange (name, value) ∧ b = a.applyChange (echoChange (name, value)) ∧ tl = rest := by
  rw [putChange] at h
  obtain ⟨nameBytes, hname, h⟩ := bind_eq_ok.1 h
  cases value with
  | some value =>
    obtain ⟨valueBytes, hvalue, h⟩ := bind_eq_ok.1 h
    simp only [Except.ok.injEq] at h
    subst h
    rw [takeChange, List.append_assoc, Wire.takeText_append hname, ok_bind]
    simp only [List.cons_append, Wire.takeByte_cons, ok_bind, if_true, takeValue_append hvalue]
    cases hread : Json.read value.bytes with
    | ok v =>
      have hlegible : LegibleChange (name, some value) := by
        intro u hu
        obtain rfl := Option.some.inj hu
        exact ⟨v, hread⟩
      have hecho : echoChange (name, some value) = (name, some v) := by
        rw [echoChange, Option.map_some, Json.echo_of_read hread]
      rw [hecho]
      simp only [ok_bind, Except.ok.injEq, Prod.mk.injEq, hlegible, true_and,
        Attributes.applyChange]
      exact and_congr eq_comm eq_comm
    | error flaw =>
      constructor
      · intro hok
        cases hok
      · rintro ⟨hlegible, -⟩
        obtain ⟨v, hv⟩ := hlegible value rfl
        rw [hread] at hv
        cases hv
  | none =>
    have hmarker : removedMarker ≠ setMarker := by decide
    have hlegible : LegibleChange (name, none) := by
      intro u hu
      cases hu
    simp only [Except.ok.injEq] at h
    subst h
    rw [takeChange, List.append_assoc, Wire.takeText_append hname, ok_bind]
    simp only [List.cons_append, List.nil_append, Wire.takeByte_cons, ok_bind, hmarker, if_false,
      if_true, Except.ok.injEq, Prod.mk.injEq, hlegible, true_and]
    exact and_congr eq_comm eq_comm

lemma takeChanges_append {changes : List (String × Option Json)}
    (h : putChanges changes = .ok bytes) (a b : Attributes) (rest : Bytes) :
    takeChanges changes.length a (bytes ++ rest) = (b, .ok ()) ↔
      (∀ c ∈ changes, LegibleChange c) ∧
        b = (changes.map echoChange).foldl Attributes.applyChange a := by
  induction changes generalizing a bytes with
  | nil => simp [takeChanges, eq_comm]
  | cons c more ih =>
    obtain ⟨name, value⟩ := c
    rw [putChanges] at h
    obtain ⟨first, hfirst, h⟩ := bind_eq_ok.1 h
    obtain ⟨others, hothers, h⟩ := bind_eq_ok.1 h
    simp only [Except.ok.injEq] at h
    subst h
    have hfield := takeChange_append hfirst a
    rw [List.length_cons, takeChanges, List.append_assoc]
    cases htake : takeChange a (first ++ (others ++ rest)) with
    | ok taken =>
      obtain ⟨a', tl⟩ := taken
      obtain ⟨hlegible, rfl, rfl⟩ := (hfield a' (others ++ rest) tl).1 htake
      rw [List.map_cons, List.foldl_cons, List.forall_mem_cons]
      simp only [hlegible, true_and]
      exact ih hothers _
    | error e =>
      constructor
      · intro hok
        cases (Prod.mk.inj hok).2
      · rintro ⟨hlegible, -⟩
        have hchange := hlegible (name, value) List.mem_cons_self
        rw [(hfield _ (others ++ rest) _).2 ⟨hchange, rfl, rfl⟩] at htake
        cases htake

/-! ## Full payloads -/

variable {s t base : Session}

/-- **A full payload is read if all values can be**, and then as the record with what these come
back as. -/
theorem read_full_iff (hs : s.WellFormed) (hprincipal : s.principal ≠ some "")
    (h : full s = .ok payload) :
    read payload = .ok (some t) ↔
      (∀ name value, s.attributes.value? name = some value → value.Legible) ∧
        t = s.echoed.reloaded := by
  rw [full] at h
  obtain ⟨id, hid, h⟩ := bind_eq_ok.1 h
  obtain ⟨principal, hput, h⟩ := bind_eq_ok.1 h
  obtain ⟨blob, hblob, h⟩ := bind_eq_ok.1 h
  obtain ⟨attributes, hattributes, h⟩ := bind_eq_ok.1 h
  rw [Binary.blob] at hblob
  obtain ⟨count, hcount, hblob⟩ := bind_eq_ok.1 hblob
  obtain ⟨entries, hentries, hblob⟩ := bind_eq_ok.1 hblob
  simp only [Except.ok.injEq] at h hblob
  subst h hblob
  have hsize : s.attributes.size = s.attributes.entries.length := by
    simp [Attributes.size, Table.size, Attributes.entries]
  have hbytes : Wire.takeBytes "attributes" (attributes ++ []) = .ok (count ++ entries, []) :=
    Wire.takeBytes_append hattributes []
  rw [List.append_nil] at hbytes
  have horder : ¬s.accessed < s.created := Int.not_lt.2 hs.order
  have hrecord : takeRecord s.kind (id ++ (Wire.putInt64 s.created.millis ++
      (Wire.putInt64 s.accessed.millis ++ (Wire.putInt64 s.maxIdle.wholeSeconds ++
        (principal ++ attributes))))) =
      (takeEntries s.attributes.size default entries).map fun a =>
        { s.echoed.reloaded with attributes := a } := by
    rw [takeRecord, takeId_append hs.id hid, ok_bind]
    simp only [takeTime_append hs.created, takeTime_append hs.accessed, takeInterval_append,
      takePrincipal_append hprincipal hput, hbytes, Wire.takeLength_append hcount, ok_bind]
    cases takeEntries s.attributes.size default entries with
    | ok a =>
      simp only [ok_bind, Session.restore, horder, if_false, Session.checkInterval,
        Session.wholeSeconds_le_longest hs.interval, if_true]
      rfl
    | error e => rfl
  have haccepts : accepts ⟨tag, .full s.kind⟩ = true := by simp [accepts]
  simp only [List.append_assoc]
  rw [read, Header.read_write, ok_bind, if_pos haccepts]
  simp only [Header.drop_write, hrecord]
  have htake := fun b => takeEntries_append hentries default b []
  rw [List.append_nil, ← hsize, ← Attributes.entries_echoed] at htake
  have hvalues : (∀ e ∈ s.attributes.entries, e.2.Legible) ↔
      ∀ name value, s.attributes.value? name = some value → value.Legible :=
    Attributes.forall_entries
  cases hread : takeEntries s.attributes.size default entries with
  | ok a =>
    obtain ⟨hlegible, rfl⟩ := (htake a).1 hread
    constructor
    · intro hok
      exact ⟨hvalues.1 hlegible, (Option.some.inj (Except.ok.inj hok)).symm⟩
    · rintro ⟨-, rfl⟩
      rfl
  | error e =>
    constructor
    · intro hok
      cases hok
    · rintro ⟨hlegible, -⟩
      rw [(htake _).2 ⟨hvalues.2 hlegible, rfl⟩] at hread
      cases hread

/-- **A full payload gives the record back**, each value as it is read from its text. -/
theorem read_full (hs : s.Storable Json.maxDepth) (h : full s = .ok payload) :
    read payload = .ok (some s.echoed.reloaded) :=
  (read_full_iff hs.wellFormed hs.principal h).2 ⟨hs.legible (Nat.le_refl _), rfl⟩

lemma header_full (h : full s = .ok payload) :
    Header.read payload = .ok ⟨tag, .full s.kind⟩ := by
  rw [full] at h
  obtain ⟨id, -, h⟩ := bind_eq_ok.1 h
  obtain ⟨principal, -, h⟩ := bind_eq_ok.1 h
  obtain ⟨blob, -, h⟩ := bind_eq_ok.1 h
  obtain ⟨attributes, -, h⟩ := bind_eq_ok.1 h
  simp only [Except.ok.injEq] at h
  subst h
  simp only [List.append_assoc, Header.read_write]

/-! ## Deltas -/

lemma header_delta (h : delta s = .ok payload) : Header.read payload = .ok ⟨tag, .delta⟩ := by
  rw [delta] at h
  obtain ⟨id, -, h⟩ := bind_eq_ok.1 h
  obtain ⟨principal, -, h⟩ := bind_eq_ok.1 h
  obtain ⟨count, -, h⟩ := bind_eq_ok.1 h
  obtain ⟨changes, -, h⟩ := bind_eq_ok.1 h
  simp only [Except.ok.injEq] at h
  subst h
  simp only [List.append_assoc, Header.read_write]

/-- **A delta is merged into a record of the same id if all changed values can be read**, and then
with what these come back as. -/
theorem merge_delta_iff (hs : s.WellFormed) (hprincipal : s.principal ≠ some "")
    (h : delta s = .ok payload) :
    merge base payload = (t, .ok true) ↔
      base.id = s.id ∧ (∀ name ∈ s.attributes.changedNames, ∀ value,
        s.attributes.value? name = some value → value.Legible) ∧ t = base.patched s.echoed := by
  have hheader := header_delta h
  rw [delta] at h
  obtain ⟨id, hidBytes, h⟩ := bind_eq_ok.1 h
  obtain ⟨principal, hput, h⟩ := bind_eq_ok.1 h
  obtain ⟨count, hcount, h⟩ := bind_eq_ok.1 h
  obtain ⟨changes, hchanges, h⟩ := bind_eq_ok.1 h
  simp only [Except.ok.injEq] at h
  subst h
  have haccepts : accepts ⟨tag, .delta⟩ = true ∧ Header.isDelta ⟨tag, .delta⟩ = true := by
    simp [accepts, Header.isDelta]
  rw [merge, hheader]
  simp only [haccepts, and_self, if_true, List.append_assoc, Header.drop_write]
  by_cases hid : base.id = s.id
  · have hpreamble : ∀ rest, takePreamble base.id (id ++ (Wire.putInt64 s.accessed.millis ++
        (Wire.putInt64 s.maxIdle.wholeSeconds ++ (principal ++ rest)))) =
          .ok (⟨s.accessed, .ofSeconds s.maxIdle.wholeSeconds, s.principal⟩, rest) := by
      intro rest
      rw [takePreamble, takeId_append hs.id hidBytes, ok_bind]
      simp only [hid, ne_eq, not_true_eq_false, if_false, takeTime_append hs.accessed,
        takeInterval_append, takePrincipal_append hprincipal hput, ok_bind,
        Session.checkInterval, Session.wholeSeconds_le_longest hs.interval, if_true]
    simp only [hpreamble, Wire.takeLength_append hcount]
    have htake := fun b => takeChanges_append hchanges base.attributes b []
    rw [List.append_nil] at htake
    have hlegible : (∀ c ∈ s.attributes.changes, LegibleChange c) ↔
        ∀ name ∈ s.attributes.changedNames, ∀ value,
          s.attributes.value? name = some value → value.Legible := by
      simp only [Attributes.changes, List.forall_mem_map]
      rfl
    have hechoed : s.attributes.changes.map echoChange = s.echoed.attributes.changes :=
      (Attributes.changes_echoed s.attributes).symm
    rw [hlegible, hechoed] at htake
    change (let p := takeChanges s.attributes.changes.length base.attributes changes
      (({ (Preamble.apply _ base) with attributes := p.1 } : Session),
        p.2.map fun _ => true)) = _ ↔ _
    simp only [hid, true_and]
    cases hread : takeChanges s.attributes.changes.length base.attributes changes with
    | mk b outcome =>
      cases outcome with
      | ok done =>
        obtain ⟨hall, rfl⟩ := (htake b).1 hread
        constructor
        · intro hok
          exact ⟨hall, (Prod.mk.inj hok).1.symm⟩
        · rintro ⟨-, rfl⟩
          rfl
      | error e =>
        constructor
        · intro hok
          cases (Prod.mk.inj hok).2
        · rintro ⟨hall, -⟩
          rw [(htake _).2 ⟨hall, rfl⟩] at hread
          cases (Prod.mk.inj hread).2
  · have hforeign : ∀ rest, takePreamble base.id (id ++ rest) =
        .error (.foreignDelta s.id.text base.id.text) := by
      intro rest
      rw [takePreamble, takeId_append hs.id hidBytes, ok_bind]
      simp only [ne_eq, Ne.symm hid, not_false_eq_true, if_true]
    simp only [hforeign, hid, false_and, iff_false]
    intro hok
    cases (Prod.mk.inj hok).2

/-- **A delta is merged into a record of the same id**, each value as it is read from its text. -/
theorem merge_delta (hs : s.Storable Json.maxDepth) (hid : base.id = s.id)
    (h : delta s = .ok payload) : merge base payload = (base.patched s.echoed, .ok true) :=
  (merge_delta_iff hs.wellFormed hs.principal h).2
    ⟨hid, fun name _ => hs.legible (Nat.le_refl _) name, rfl⟩

/-! ## Payloads -/

/-- What the codec prefers to write: the changes of a delta-capable record that is stored, and the
whole record otherwise. -/
def preferred (s : Session) : Except Fault Bytes :=
  if s.kind = .deltaCapable ∧ ¬s.needsFullWrite then delta s else full s

lemma payloadOf_append_eq_ok {s' : Session} {x : Except Fault Bytes} :
    Codec.payloadOf (append s [] x) = (s', .ok payload) ↔ x = .ok payload ∧ s' = s.commit := by
  cases x with
  | ok p =>
    simp only [Codec.payloadOf, append, List.nil_append, Prod.mk.injEq, Except.ok.injEq]
    exact ⟨fun h => ⟨h.2, h.1.symm⟩, fun h => ⟨h.2.symm, h.1⟩⟩
  | error e => simp [Codec.payloadOf, append]

lemma encode_eq_ok {s' : Session} :
    Codec.binary.encode s = (s', .ok payload) ↔ preferred s = .ok payload ∧ s' = s.commit := by
  have hwrite : Codec.binary.write s [] = append s [] (preferred s) := by
    change write s [] = _
    rw [write, preferred]
    split <;> rfl
  rw [Codec.encode, hwrite, payloadOf_append_eq_ok]

lemma encodeFull_eq_ok {s' : Session} :
    Codec.binary.encodeFull s = (s', .ok payload) ↔ full s = .ok payload ∧ s' = s.commit :=
  payloadOf_append_eq_ok

lemma encodeFull_snd (s : Session) : (Codec.binary.encodeFull s).2 = full s := by
  change (Codec.payloadOf (append s [] (full s))).2 = _
  cases full s <;> rfl

lemma decode_eq_ok : Codec.binary.decode payload = .ok t ↔ read payload = .ok (some t) := by
  rw [Codec.decode]
  change (read payload >>= _) = _ ↔ _
  cases read payload with
  | error e => simp [bind, Except.bind]
  | ok found =>
    cases found with
    | some u => simp
    | none =>
      simp only [ok_bind, Except.ok.injEq, reduceCtorEq, iff_false]
      intro h
      obtain ⟨header, -, h⟩ := bind_eq_ok.1 h
      cases h

end Sessions.Binary
