import Sessions.Proofs.Store.History

/-!
# Entries as records

An entry can also be kept as four fields that are written each on its own: a payload, its keys, a
deadline, and the time at which the entry was invalidated. Then nothing in the type of a record says
that one without a payload was invalidated. What is due is cleared field by field, a sweep collects
the ids of what is due and deals with them one by one, and a merge writes its fields in place.

A store that keeps records is at every moment the store that keeps entries (`records_answer`,
`records_run`). So each of its records is that of an entry, and its fields fit together
(`sound_of_find?_records`).
-/

namespace Sessions

structure Record where
  payload : Option Bytes
  keys : List IndexKey
  deadline : Option (Time × Action)
  since : Option Time

namespace Record

def isLive (r : Record) : Bool := r.payload.isSome

def isExpired (now : Time) (r : Record) : Bool :=
  match r.deadline with
  | some (deadline, _) => deadline ≤ now
  | none => false

def isSpent (now : Time) (retention : Duration) (r : Record) : Bool :=
  match r.since with
  | some since => retention ≤ now.since since
  | none => false

/-- Clears the fields of a record that is due. If it was invalidated before, the time is kept. -/
def clear (now : Time) (r : Record) : Record :=
  { payload := none, keys := [], deadline := none, since := some (r.since.getD now) }

/-- What remains of a record that is due. -/
def expire (now : Time) (r : Record) : Option Record :=
  match (r.deadline.map Prod.snd).getD default with
  | .destroy => none
  | .invalidate => some (r.clear now)

/-- A record has no payload just when it was invalidated, and then neither keys nor a deadline. -/
structure Sound (r : Record) : Prop where
  invalidated : r.payload = none ↔ r.since.isSome = true
  keys : r.payload = none → r.keys = []
  deadline : r.payload = none → r.deadline = none

lemma expire_expire (now : Time) (r : Record) :
    (r.expire now).bind (expire now) = r.expire now := by
  unfold expire
  split <;> rfl

end Record

namespace Entry

def record : Entry → Record
  | live payload keys deadline => ⟨some payload, keys, deadline, none⟩
  | tombstone since => ⟨none, [], none, some since⟩

variable (e : Entry) (now : Time)

lemma sound_record : e.record.Sound := by
  cases e <;> constructor <;> simp [record]

@[simp] lemma payload_record : e.record.payload = e.payload? := by cases e <;> rfl

@[simp] lemma keys_record : e.record.keys = e.keys := by cases e <;> rfl

@[simp] lemma isLive_record : e.record.isLive = e.isLive := by cases e <;> rfl

@[simp] lemma isExpired_record : e.record.isExpired now = e.isExpired now := by
  cases e with
  | live payload keys deadline => cases deadline <;> rfl
  | tombstone since => rfl

@[simp] lemma isSpent_record (retention : Duration) :
    e.record.isSpent now retention = e.isSpent now retention := by
  cases e <;> rfl

@[simp] lemma expire_record : e.record.expire now = (e.expire now).map record := by
  cases e with
  | live payload keys deadline =>
    rcases deadline with _ | ⟨due, _ | _⟩ <;> rfl
  | tombstone since => rfl

lemma isLive_of_isExpired {e : Entry} {now : Time} (h : e.isExpired now = true) :
    e.isLive = true := by
  cases e with
  | live payload keys deadline => rfl
  | tombstone since => cases h

lemma record_sweep (retention : Duration) : (e.sweep now retention).map record =
    (if e.record.isLive && e.record.isExpired now then e.record.expire now
      else some e.record).bind fun r => if r.isSpent now retention then none else some r := by
  have hlive : (e.isLive && e.isExpired now) = e.isExpired now := by
    cases hx : e.isExpired now with
    | false => rw [Bool.and_false]
    | true => rw [isLive_of_isExpired hx, Bool.and_true]
  rw [isLive_record, isExpired_record, hlive, expire_record, sweep, ← Option.map_some,
    ← apply_ite (Option.map record)]
  cases (if e.isExpired now then e.expire now else some e) with
  | none => rfl
  | some left => by_cases hs : left.isSpent now retention = true <;> simp [Option.filter, hs]

end Entry

/-! ## A store of records -/

structure Records where
  /-- The deadline of a full payload that is stored at a time. -/
  deadline : Bytes → Time → Except Fault (Option (Time × Action))
  /-- The payload that a delta makes of a stored one, and its deadline. -/
  merge : Ident → Bytes → Bytes → Time → Except Fault (Bytes × Option (Time × Action))
  retention : Duration
  held : Table Record
  sweptAt : Time

namespace Records

def find? (rs : Records) (id : Ident) : Option Record := rs.held.find? id.text

def insert (rs : Records) (id : Ident) (r : Record) : Records :=
  { rs with held := rs.held.insert id.text r }

def erase (rs : Records) (id : Ident) : Records := { rs with held := rs.held.erase id.text }

/-- Deals with what is under an id. -/
def expire (now : Time) (rs : Records) (id : Ident) : Records :=
  match rs.find? id with
  | none => rs
  | some r =>
    match r.expire now with
    | some cleared => rs.insert id cleared
    | none => rs.erase id

/-- The ids of what is due and has not been dealt with. -/
def stale (rs : Records) (now : Time) : List Ident :=
  (rs.held.entries.filter fun e => e.2.isLive && e.2.isExpired now).map fun e => ⟨e.1⟩

/-- Drops what was invalidated and kept for the retention time. -/
def drop (rs : Records) (now : Time) : Records :=
  { rs with
    held := rs.held.filterMap fun _ r => if r.isSpent now rs.retention then none else some r
    sweptAt := now }

def sweep (rs : Records) (now : Time) : Records := ((rs.stale now).foldl (expire now) rs).drop now

def tidy (rs : Records) (now : Time) : Records :=
  if now.since rs.sweptAt < Store.sweepInterval then rs else rs.sweep now

def livePayload (rs : Records) (id : Ident) (now : Time) : Records × Option Bytes :=
  match rs.find? id with
  | none => (rs, none)
  | some r => if r.isExpired now && r.isLive then (rs.expire now id, none) else (rs, r.payload)

/-- Writes what a merge has made in place, if there still is something to merge into. -/
def rewrite (rs : Records) (id : Ident) (payload : Bytes) (keys : List IndexKey)
    (deadline : Option (Time × Action)) : Records × Bool :=
  match rs.find? id with
  | some r =>
    if r.isLive then
      (rs.insert id { r with payload := some payload, keys := keys, deadline := deadline }, true)
    else (rs, false)
  | none => (rs, false)

def answer (rs : Records) (now : Time) : Call → Records × Answer
  | .get id =>
    (((rs.tidy now).livePayload id now).1, .found ((rs.tidy now).livePayload id now).2)
  | .put id payload keys =>
    let rs := rs.tidy now
    match rs.deadline payload now with
    | .ok deadline => (rs.insert id ⟨some payload, keys, deadline, none⟩, .stored (.ok ()))
    | .error e => (rs, .stored (.error e))
  | .putDelta id delta keys =>
    match (rs.tidy now).livePayload id now with
    | (rs, none) => (rs, .merged (.ok false))
    | (rs, some stored) =>
      match rs.merge id stored delta now with
      | .ok (payload, deadline) =>
        ((rs.rewrite id payload keys deadline).1,
          .merged (.ok (rs.rewrite id payload keys deadline).2))
      | .error e => (rs, .merged (.error e))
  | .remove id => (rs.erase id, .removed)
  | .findByKey key =>
    let rs := rs.tidy now
    (rs, .ids ((rs.held.entries.filter fun e =>
      e.2.isLive && !e.2.isExpired now && e.2.keys.contains key).map fun e => ⟨e.1⟩))
  | .size =>
    (rs, .count (rs.held.entries.filter fun e => e.2.isLive && !e.2.isExpired now).length)

def after : Records → Time → List Turn → Records
  | rs, _, [] => rs
  | rs, _, .clock time :: turns => rs.after time turns
  | rs, now, .call c :: turns => (rs.answer now c).1.after now turns

variable {rs : Records} {now : Time} {id other : Ident}

lemma find?_insert (r : Record) :
    (rs.insert id r).find? other = if id = other then some r else rs.find? other := by
  cases id; cases other
  simp [find?, insert, Table.find?_insert]

lemma find?_erase : (rs.erase id).find? other = if id = other then none else rs.find? other := by
  cases id; cases other
  simp [find?, erase, Table.find?_erase]

lemma find?_expire : (rs.expire now id).find? other =
    if id = other then (rs.find? id).bind (Record.expire now) else rs.find? other := by
  unfold expire
  cases hfind : rs.find? id with
  | none =>
    by_cases h : id = other
    · subst h; simp [hfind]
    · simp [h]
  | some r =>
    simp only [Option.bind_some]
    cases r.expire now with
    | none => exact find?_erase
    | some cleared => exact find?_insert cleared

lemma find?_foldl_expire (ids : List Ident) (rs : Records) :
    (ids.foldl (expire now) rs).find? other =
      if other ∈ ids then (rs.find? other).bind (Record.expire now) else rs.find? other := by
  induction ids generalizing rs with
  | nil => simp
  | cons id ids ih =>
    rw [List.foldl_cons, ih, find?_expire]
    by_cases hid : id = other
    · subst hid
      simp only [if_true, List.mem_cons_self, Option.bind_assoc, Record.expire_expire, ite_self]
    · simp [hid, Ne.symm hid]

lemma mem_stale : id ∈ rs.stale now ↔
    ((rs.find? id).any fun r => r.isLive && r.isExpired now) = true :=
  rs.held.mem_ids (fun r => r.isLive && r.isExpired now) id

lemma ext_find? {a b : Records} (hdeadline : a.deadline = b.deadline) (hmerge : a.merge = b.merge)
    (hretention : a.retention = b.retention) (hswept : a.sweptAt = b.sweptAt)
    (h : ∀ id, a.find? id = b.find? id) : a = b := by
  have hheld : a.held = b.held := Table.ext_find? fun name => h ⟨name⟩
  cases a
  cases b
  simp_all

lemma expire_eq (rs : Records) (now : Time) (id : Ident) :
    ∃ held, rs.expire now id = { rs with held := held } := by
  unfold expire
  split
  · exact ⟨rs.held, rfl⟩
  · split <;> exact ⟨_, rfl⟩

lemma foldl_expire_eq (ids : List Ident) (rs : Records) (now : Time) :
    ∃ held, ids.foldl (expire now) rs = { rs with held := held } := by
  induction ids generalizing rs with
  | nil => exact ⟨rs.held, rfl⟩
  | cons id ids ih =>
    obtain ⟨held, hexpire⟩ := rs.expire_eq now id
    obtain ⟨left, hrest⟩ := ih { rs with held := held }
    exact ⟨left, by rw [List.foldl_cons, hexpire, hrest]⟩

lemma sweep_eq (rs : Records) (now : Time) :
    ∃ held, rs.sweep now = { rs with held := held, sweptAt := now } := by
  obtain ⟨held, hcleared⟩ := foldl_expire_eq (rs.stale now) rs now
  rw [sweep, hcleared]
  exact ⟨_, rfl⟩

lemma find?_drop : (rs.drop now).find? id =
    (rs.find? id).bind fun r => if r.isSpent now rs.retention then none else some r :=
  Table.find?_filterMap rs.held _ id.text

lemma find?_sweep (rs : Records) (now : Time) (id : Ident) :
    (rs.sweep now).find? id = (rs.find? id).bind fun r =>
      (if r.isLive && r.isExpired now then r.expire now else some r).bind fun r =>
        if r.isSpent now rs.retention then none else some r := by
  have hretention : ((rs.stale now).foldl (expire now) rs).retention = rs.retention := by
    obtain ⟨held, hcleared⟩ := foldl_expire_eq (rs.stale now) rs now
    rw [hcleared]
  rw [sweep, find?_drop, hretention, find?_foldl_expire]
  simp only [mem_stale]
  cases rs.find? id with
  | none => simp
  | some r => rfl

end Records

/-! ## The records of a store -/

namespace Store

variable {st : Store} {now : Time}

/-- A store, with its entries as records. -/
def records (st : Store) : Records where
  deadline := st.payloadDeadline
  merge := st.mergeDelta
  retention := st.retention
  held := st.entries.filterMap fun _ e => some e.record
  sweptAt := st.sweptAt

lemma find?_records (st : Store) (id : Ident) :
    st.records.find? id = (st.find? id).map Entry.record := by
  refine (Table.find?_filterMap st.entries _ id.text).trans ?_
  rw [find?]
  cases st.entries.find? id.text <;> rfl

lemma records_eq {rs : Records} (hdeadline : st.payloadDeadline = rs.deadline)
    (hmerge : st.mergeDelta = rs.merge) (hretention : st.retention = rs.retention)
    (hswept : st.sweptAt = rs.sweptAt) (h : ∀ id, (st.find? id).map Entry.record = rs.find? id) :
    st.records = rs :=
  Records.ext_find? hdeadline hmerge hretention hswept fun id => (st.find?_records id).trans (h id)

lemma records_insert (st : Store) (id : Ident) (e : Entry) :
    (st.insert id e).records = st.records.insert id e.record :=
  records_eq rfl rfl rfl rfl fun other => by
    rw [find?_insert, Records.find?_insert, find?_records, apply_ite (Option.map Entry.record)]
    rfl

lemma records_remove (st : Store) (id : Ident) : (st.remove id).1.records = st.records.erase id :=
  records_eq rfl rfl rfl rfl fun other => by
    rw [find?_remove, Records.find?_erase, find?_records, apply_ite (Option.map Entry.record)]
    rfl

lemma records_sweep (st : Store) (now : Time) : (st.sweep now).records = st.records.sweep now := by
  obtain ⟨held, heq⟩ := st.records.sweep_eq now
  have hfind := st.records.find?_sweep now
  rw [heq] at hfind ⊢
  refine records_eq rfl rfl rfl rfl fun id => ?_
  rw [hfind, find?_sweep, find?_records, Option.map_bind, Option.bind_map]
  exact Option.bind_congr fun e _ => e.record_sweep now st.retention

lemma records_tidy (st : Store) (now : Time) : (st.tidy now).records = st.records.tidy now := by
  rw [tidy, Records.tidy, apply_ite records, records_sweep]
  rfl

lemma records_expire {id : Ident} {e : Entry} (h : st.find? id = some e) (now : Time) :
    st.records.expire now id = match e.expire now with
      | some left => (st.insert id left).records
      | none => (st.remove id).1.records := by
  rw [Records.expire, find?_records, h]
  simp only [Option.map_some, Entry.expire_record]
  cases e.expire now with
  | none => exact (st.records_remove id).symm
  | some left => exact (st.records_insert id left).symm

lemma records_livePayload (st : Store) (id : Ident) (now : Time) :
    st.records.livePayload id now =
      ((st.livePayload id now).1.records, (st.livePayload id now).2) := by
  rw [Records.livePayload, livePayload, find?_records]
  cases hfind : st.find? id with
  | none => rfl
  | some e =>
    simp only [Option.map_some, Entry.isExpired_record, Entry.isLive_record, Entry.payload_record,
      records_expire hfind]
    by_cases hx : e.isExpired now = true
    · rw [Entry.isLive_of_isExpired hx, hx]
      cases e.expire now <;> rfl
    · simp [hx]

lemma find?_of_livePayload {mid : Store} {id : Ident} {stored : Bytes}
    (h : st.livePayload id now = (mid, some stored)) :
    ∃ keys due, mid.find? id = some (.live stored keys due) := by
  unfold livePayload at h
  cases hfind : st.find? id with
  | none => simp [hfind] at h
  | some e =>
    rw [hfind] at h
    by_cases hx : e.isExpired now = true
    · simp [hx] at h
    · simp only [hx, Bool.false_eq_true, if_false] at h
      obtain ⟨rfl, hpayload⟩ := Prod.mk.inj h
      cases e with
      | live payload keys due => exact ⟨keys, due, Option.some.inj hpayload ▸ hfind⟩
      | tombstone since => cases hpayload

lemma records_rewrite {id : Ident} {stored : Bytes} {old : List IndexKey}
    {due : Option (Time × Action)} (h : st.find? id = some (.live stored old due))
    (payload : Bytes) (keys : List IndexKey) (deadline : Option (Time × Action)) :
    st.records.rewrite id payload keys deadline =
      ((st.insert id (.live payload keys deadline)).records, true) := by
  rw [Records.rewrite, find?_records, h, records_insert]
  rfl

lemma records_putDelta (st : Store) (now : Time) (id : Ident) (delta : Bytes)
    (keys : List IndexKey) : st.records.answer now (.putDelta id delta keys) =
      ((st.answer now (.putDelta id delta keys)).1.records,
        (st.answer now (.putDelta id delta keys)).2) := by
  simp only [Records.answer, answer, putDelta, ← records_tidy, records_livePayload]
  cases hlive : (st.tidy now).livePayload id now with
  | mk mid found =>
    cases found with
    | none => rfl
    | some stored =>
      have hmerge : mid.records.merge = mid.mergeDelta := rfl
      obtain ⟨old, due, hfind⟩ := find?_of_livePayload hlive
      simp only [hmerge]
      cases mid.mergeDelta id stored delta now with
      | error e => rfl
      | ok merged => simp only [records_rewrite hfind]

/-- **A store is at every moment the store of its records**: each call is answered alike. -/
theorem records_answer (st : Store) (now : Time) (c : Call) :
    st.records.answer now c = ((st.answer now c).1.records, (st.answer now c).2) := by
  cases c with
  | get id =>
    rw [Records.answer, ← records_tidy, records_livePayload]
    rfl
  | put id payload keys =>
    have hdated : (st.tidy now).records.deadline payload now =
      (st.tidy now).payloadDeadline payload now := rfl
    simp only [Records.answer, answer, put, ← records_tidy, hdated]
    cases (st.tidy now).payloadDeadline payload now with
    | error e => rfl
    | ok deadline => simp only [records_insert, Entry.record]
  | putDelta id delta keys => exact st.records_putDelta now id delta keys
  | remove id =>
    rw [Records.answer, ← records_remove]
    rfl
  | findByKey key =>
    have hids := (st.tidy now).entries.ids_filter_filterMap (fun _ e => some e.record)
      fun r => r.isLive && !r.isExpired now && r.keys.contains key
    simp only [Option.any_some, Entry.isLive_record, Entry.isExpired_record, Entry.keys_record]
      at hids
    rw [Records.answer, ← records_tidy]
    exact Prod.ext rfl (congrArg Answer.ids hids)
  | size =>
    have hids := st.entries.ids_filter_filterMap (fun _ e => some e.record)
      fun r => r.isLive && !r.isExpired now
    simp only [Option.any_some, Entry.isLive_record, Entry.isExpired_record] at hids
    have hcount := congrArg List.length hids
    rw [List.length_map, List.length_map] at hcount
    exact Prod.ext rfl (congrArg Answer.count hcount)

lemma sound_of_find?_records {id : Ident} {r : Record} (h : st.records.find? id = some r) :
    r.Sound := by
  rw [find?_records] at h
  obtain ⟨e, -, rfl⟩ := Option.map_eq_some_iff.1 h
  exact e.sound_record

end Store

/-- **The two stores go through the same runs.** -/
theorem Moment.records_run (m : Moment) (turns : List Turn) :
    (m.run turns).store.records = m.store.records.after m.now turns := by
  induction turns generalizing m with
  | nil => rfl
  | cons e turns ih =>
    rw [run_cons, ih]
    cases e with
    | clock time => rfl
    | call c =>
      rw [Records.after, m.store.records_answer]
      rfl

end Sessions
