import Sessions.Codec.Binary
import Sessions.Proofs.Store

/-!
# A store that forgets at once

A ledger keeps one payload, its index keys and its deadline under an id, and drops an entry the
moment its deadline is reached. It has no tombstones and no sweeps, and no operation of it touches
what is under another id. A store deals with the entries past their deadline late, in four places
that differ in what they leave behind, and still answers as a ledger does. So nothing that is done
to one id ever shows in what is answered about another.

What a store holds at a time is a ledger (`Store.ledger`): housekeeping leaves it as it is, every
operation does to it what a ledger does, and when time passes it drops what a ledger drops.
-/

namespace Sessions

lemma Table.ids_filter_filterMap {α β : Type} (t : Table α) (f : String → α → Option β)
    (pick : β → Bool) :
    ((t.filterMap f).entries.filter fun e => pick e.2).map (fun e => (⟨e.1⟩ : Ident)) =
      (t.entries.filter fun e => (f e.1 e.2).any pick).map fun e => ⟨e.1⟩ := by
  change ((t.entries.filterMap fun e => (f e.1 e.2).map fun x => (e.1, x)).filter _).map _ = _
  induction t.entries with
  | nil => rfl
  | cons e rest ih =>
    cases hf : f e.1 e.2 with
    | none => simpa [hf] using ih
    | some x =>
      by_cases hpick : pick x = true
      · simpa [hf, hpick] using ih
      · simpa [hf, hpick] using ih

lemma Table.mem_ids {α : Type} (t : Table α) (pick : α → Bool) (id : Ident) :
    id ∈ (t.entries.filter fun e => pick e.2).map (fun e => (⟨e.1⟩ : Ident)) ↔
      (t.find? id.text).any pick = true := by
  rw [List.mem_map, Option.any_eq_true]
  constructor
  · rintro ⟨⟨name, x⟩, hmem, rfl⟩
    obtain ⟨hmem, hpick⟩ := List.mem_filter.1 hmem
    exact ⟨x, (t.mem_entries_iff name x).1 hmem, hpick⟩
  · rintro ⟨x, hfind, hpick⟩
    exact ⟨(id.text, x), List.mem_filter.2 ⟨(t.mem_entries_iff id.text x).2 hfind, hpick⟩, rfl⟩

structure Holding where
  payload : Bytes
  keys : List IndexKey
  deadline : Option (Time × Action)

def Holding.isDue (now : Time) (h : Holding) : Bool :=
  match h.deadline with
  | some (deadline, _) => deadline ≤ now
  | none => false

inductive Call where
  | get (id : Ident)
  | put (id : Ident) (payload : Bytes) (keys : List IndexKey)
  | putDelta (id : Ident) (delta : Bytes) (keys : List IndexKey)
  | remove (id : Ident)
  | findByKey (key : IndexKey)
  | size

/-- What is answered. That an entry was there when it was removed is left out: a store says so of
an entry past its deadline that it has not dealt with yet. -/
inductive Answer where
  | found (payload : Option Bytes)
  | stored (outcome : Except Fault Unit)
  | merged (outcome : Except Fault Bool)
  | removed
  | ids (ids : List Ident)
  | count (entries : Nat)

/-- The one id that a call is about; none if it is about all. -/
def Call.id? : Call → Option Ident
  | get id => some id
  | put id _ _ => some id
  | putDelta id _ _ => some id
  | remove id => some id
  | findByKey _ => none
  | size => none

/-- What an answer says about an id. The count of the entries says nothing about a single one. -/
def about (id : Ident) : Call × Answer → Option Answer
  | (_, .ids ids) => some (.ids (if id ∈ ids then [id] else []))
  | (_, .count _) => none
  | (c, a) => if c.id? = some id then some a else none

/-- What comes to a store in its turn: time passes, or something is asked of it. -/
inductive Turn where
  | clock (time : Time)
  | call (c : Call)

def Forward : Time → List Turn → Prop
  | _, [] => True
  | now, .clock time :: rest => now ≤ time ∧ Forward time rest
  | now, .call _ :: rest => Forward now rest

/-- Whether a turn can matter to an id: time passes, or a call is not about another id. -/
def Turn.concerns (id : Ident) : Turn → Bool
  | clock _ => true
  | call c => c.id?.all (· = id)

lemma Forward.filter {now : Time} {turns : List Turn} (h : Forward now turns) (id : Ident) :
    Forward now (turns.filter (·.concerns id)) := by
  induction turns generalizing now with
  | nil => exact h
  | cons e rest ih =>
    cases e with
    | clock time => exact ⟨h.1, ih h.2⟩
    | call c =>
      have hrest : Forward now (rest.filter (·.concerns id)) := ih h
      rw [List.filter_cons]
      split <;> exact hrest

/-! ## Ledgers -/

/-- A store that drops an entry the moment its deadline is reached. -/
structure Ledger where
  /-- The deadline of a full payload that is stored at a time. -/
  deadline : Bytes → Time → Except Fault (Option (Time × Action))
  /-- The payload that a delta makes of a stored one, and its deadline. -/
  merge : Ident → Bytes → Bytes → Time → Except Fault (Bytes × Option (Time × Action))
  held : Table Holding

namespace Ledger

def find? (l : Ledger) (id : Ident) : Option Holding := l.held.find? id.text

/-- Time passes: what is due is dropped. -/
def tick (l : Ledger) (now : Time) : Ledger :=
  { l with held := l.held.filterMap fun _ h => if h.isDue now then none else some h }

def remove (l : Ledger) (id : Ident) : Ledger := { l with held := l.held.erase id.text }

/-- Puts a holding in place of what the id held before, unless it is due already. -/
def hold (l : Ledger) (id : Ident) (h : Holding) (now : Time) : Ledger :=
  if h.isDue now then l.remove id else { l with held := l.held.insert id.text h }

def answer (l : Ledger) (now : Time) : Call → Ledger × Answer
  | .get id => (l, .found ((l.find? id).map (·.payload)))
  | .put id payload keys =>
    match l.deadline payload now with
    | .ok deadline => (l.hold id ⟨payload, keys, deadline⟩ now, .stored (.ok ()))
    | .error e => (l, .stored (.error e))
  | .putDelta id delta keys =>
    match l.find? id with
    | none => (l, .merged (.ok false))
    | some h =>
      match l.merge id h.payload delta now with
      | .ok (payload, deadline) => (l.hold id ⟨payload, keys, deadline⟩ now, .merged (.ok true))
      | .error e => (l, .merged (.error e))
  | .remove id => (l.remove id, .removed)
  | .findByKey key =>
    (l, .ids ((l.held.entries.filter fun e => e.2.keys.contains key).map fun e => ⟨e.1⟩))
  | .size => (l, .count l.held.size)

lemma find?_tick (l : Ledger) (now : Time) (id : Ident) :
    (l.tick now).find? id = (l.find? id).bind fun h => if h.isDue now then none else some h :=
  Table.find?_filterMap l.held _ id.text

lemma find?_remove (l : Ledger) (id other : Ident) :
    (l.remove id).find? other = if id = other then none else l.find? other := by
  cases id
  cases other
  simp [find?, remove, Table.find?_erase]

lemma find?_hold (l : Ledger) (id other : Ident) (h : Holding) (now : Time) :
    (l.hold id h now).find? other =
      if id = other then if h.isDue now then none else some h else l.find? other := by
  unfold hold
  split
  next hdue => rw [find?_remove]
  next hdue =>
    cases id
    cases other
    simp [find?, Table.find?_insert]

lemma hold_deadline (l : Ledger) (id : Ident) (h : Holding) (now : Time) :
    (l.hold id h now).deadline = l.deadline ∧ (l.hold id h now).merge = l.merge := by
  unfold hold
  split <;> exact ⟨rfl, rfl⟩

def log : Ledger → Time → List Turn → List (Call × Answer)
  | _, _, [] => []
  | l, _, .clock time :: rest => log (l.tick time) time rest
  | l, now, .call c :: rest => (c, (l.answer now c).2) :: log (l.answer now c).1 now rest

/-! ### What is done to other ids -/

structure Alike (id : Ident) (l m : Ledger) : Prop where
  deadline : m.deadline = l.deadline
  merge : m.merge = l.merge
  find? : m.find? id = l.find? id

variable {l m : Ledger} {id : Ident} {now : Time}

lemma Alike.tick (h : Alike id l m) (later : Time) : Alike id (l.tick later) (m.tick later) :=
  ⟨h.deadline, h.merge, by rw [find?_tick, find?_tick, h.find?]⟩

lemma Alike.hold (h : Alike id l m) (holding : Holding) :
    Alike id (l.hold id holding now) (m.hold id holding now) := by
  have hl := l.hold_deadline id holding now
  have hm := m.hold_deadline id holding now
  exact ⟨by rw [hl.1, hm.1, h.deadline], by rw [hl.2, hm.2, h.merge], by simp [find?_hold]⟩

lemma Alike.answer (h : Alike id l m) (now : Time) {c : Call} (hc : c.id?.all (· = id) = true) :
    about id (c, (m.answer now c).2) = about id (c, (l.answer now c).2) ∧
      Alike id (l.answer now c).1 (m.answer now c).1 := by
  have hown : ∀ {other : Ident}, (some other).all (· = id) = true → other = id := by
    intro other ho
    simpa using ho
  cases c with
  | get other =>
    obtain rfl := hown hc
    exact ⟨by simp only [Ledger.answer, h.find?], h⟩
  | put other payload keys =>
    obtain rfl := hown hc
    simp only [Ledger.answer, h.deadline]
    cases l.deadline payload now with
    | ok deadline => exact ⟨rfl, h.hold _⟩
    | error e => exact ⟨rfl, h⟩
  | putDelta other delta keys =>
    obtain rfl := hown hc
    simp only [Ledger.answer, h.find?, h.merge]
    cases l.find? other with
    | none => exact ⟨rfl, h⟩
    | some held =>
      simp only
      cases l.merge other held.payload delta now with
      | ok merged => exact ⟨rfl, h.hold _⟩
      | error e => exact ⟨rfl, h⟩
  | remove other =>
    obtain rfl := hown hc
    exact ⟨rfl, h.deadline, h.merge, by
      simp only [Ledger.answer, find?_remove, if_true]⟩
  | findByKey key =>
    have hsame : m.held.find? id.text = l.held.find? id.text := h.find?
    have hmem := (m.held.mem_ids (fun held => held.keys.contains key) id).trans
      (hsame ▸ (l.held.mem_ids (fun held => held.keys.contains key) id).symm)
    refine ⟨?_, h⟩
    simp only [Ledger.answer, about, hmem]
  | size => exact ⟨rfl, h⟩

lemma alike_answer (l : Ledger) (now : Time) {c : Call} {other : Ident} (hc : c.id? = some other)
    (hne : other ≠ id) :
    about id (c, (l.answer now c).2) = none ∧ Alike id (l.answer now c).1 l := by
  have hself : Alike id l l := ⟨rfl, rfl, rfl⟩
  have hhold : ∀ holding, Alike id (l.hold other holding now) l := by
    intro holding
    obtain ⟨hdeadline, hmerge⟩ := l.hold_deadline other holding now
    exact ⟨hdeadline.symm, hmerge.symm, by rw [find?_hold, if_neg hne]⟩
  cases c with
  | get o =>
    obtain rfl := Option.some.inj hc
    exact ⟨by simp [Ledger.answer, about, Call.id?, hne], hself⟩
  | put o payload keys =>
    obtain rfl := Option.some.inj hc
    simp only [Ledger.answer]
    cases l.deadline payload now with
    | ok deadline => exact ⟨by simp [about, Call.id?, hne], hhold _⟩
    | error e => exact ⟨by simp [about, Call.id?, hne], hself⟩
  | putDelta o delta keys =>
    obtain rfl := Option.some.inj hc
    simp only [Ledger.answer]
    cases l.find? o with
    | none => exact ⟨by simp [about, Call.id?, hne], hself⟩
    | some held =>
      simp only
      cases l.merge o held.payload delta now with
      | ok merged => exact ⟨by simp [about, Call.id?, hne], hhold _⟩
      | error e => exact ⟨by simp [about, Call.id?, hne], hself⟩
  | remove o =>
    obtain rfl := Option.some.inj hc
    exact ⟨by simp [Ledger.answer, about, Call.id?, hne], rfl, rfl, by
      simp [Ledger.answer, find?_remove, hne]⟩
  | findByKey key => cases hc
  | size => cases hc

/-- **What is answered about an id does not depend on what is done to others.** -/
theorem about_log (turns : List Turn) (l m : Ledger) (now : Time) (h : Alike id l m) :
    (l.log now turns).filterMap (about id) =
      (m.log now (turns.filter (·.concerns id))).filterMap (about id) := by
  induction turns generalizing l m now with
  | nil => rfl
  | cons e rest ih =>
    cases e with
    | clock time => exact ih _ _ time (h.tick time)
    | call c =>
      rw [List.filter_cons]
      split
      next hc =>
        obtain ⟨hsaid, hleft⟩ := h.answer now hc
        simp only [log, List.filterMap_cons, hsaid, ih _ _ now hleft]
      next hc =>
        obtain ⟨other, hother, hne⟩ : ∃ other, c.id? = some other ∧ other ≠ id := by
          cases hid : c.id? with
          | none => simp [Turn.concerns, hid] at hc
          | some other => exact ⟨other, rfl, by simpa [Turn.concerns, hid] using hc⟩
        obtain ⟨hsaid, hleft⟩ := alike_answer l now hother hne
        simp only [log, List.filterMap_cons, hsaid]
        exact ih _ _ now ⟨h.deadline.trans hleft.deadline, h.merge.trans hleft.merge,
          h.find?.trans hleft.find?⟩

end Ledger

namespace Store

def answer (st : Store) (now : Time) : Call → Store × Answer
  | .get id => ((st.get id now).1, .found (st.get id now).2)
  | .put id payload keys =>
    ((st.put id payload keys now).1, .stored (st.put id payload keys now).2)
  | .putDelta id delta keys =>
    ((st.putDelta id delta keys now).1, .merged (st.putDelta id delta keys now).2)
  | .remove id => ((st.remove id).1, .removed)
  | .findByKey key => ((st.findByKey key now).1, .ids (st.findByKey key now).2)
  | .size => (st, .count (st.size now))

def log : Store → Time → List Turn → List (Call × Answer)
  | _, _, [] => []
  | st, _, .clock time :: rest => log st time rest
  | st, now, .call c :: rest => (c, (st.answer now c).2) :: log (st.answer now c).1 now rest

end Store

/-! ## The ledger that a store is -/

namespace Entry

/-- What is left of an entry at a time, as a ledger has it. -/
def holding (now : Time) : Entry → Option Holding
  | live payload keys deadline =>
    if Holding.isDue now ⟨payload, keys, deadline⟩ then none else some ⟨payload, keys, deadline⟩
  | tombstone _ => none

lemma isExpired_live (now : Time) (payload : Bytes) (keys : List IndexKey)
    (deadline : Option (Time × Action)) :
    (live payload keys deadline).isExpired now = Holding.isDue now ⟨payload, keys, deadline⟩ := by
  cases deadline <;> rfl

lemma standing_eq (now : Time) (e : Entry) :
    e.standing now = (e.holding now).map fun h => (h.payload, h.deadline) := by
  cases e with
  | live payload keys deadline =>
    rw [standing_live, isExpired_live, holding]
    split <;> rfl
  | tombstone since => rfl

lemma isPresent_eq (now : Time) (e : Entry) : e.isPresent now = (e.holding now).isSome := by
  cases e with
  | live payload keys deadline =>
    rw [isPresent, isExpired_live, holding]
    split <;> simp_all [isLive]
  | tombstone since => rfl

lemma isPresent_and_contains (now : Time) (key : IndexKey) (e : Entry) :
    (e.isPresent now && e.keys.contains key) =
      (e.holding now).any fun h => h.keys.contains key := by
  rw [isPresent_eq]
  cases e with
  | live payload keys deadline =>
    rw [holding]
    split <;> simp [Entry.keys]
  | tombstone since => rfl

lemma holding_later {now later : Time} (hle : now ≤ later) (e : Entry) :
    e.holding later = (e.holding now).bind fun h => if h.isDue later then none else some h := by
  cases e with
  | live payload keys deadline =>
    simp only [holding]
    by_cases hnow : Holding.isDue now ⟨payload, keys, deadline⟩ = true
    · have hlater := isExpired_mono hle ((isExpired_live now payload keys deadline).trans hnow)
      rw [isExpired_live] at hlater
      simp [hnow, hlater]
    · simp [hnow]
  | tombstone since => rfl

end Entry

namespace Store

variable {st st' : Store} {now later : Time}

/-- What a store holds at a time, with its ways to date and to merge payloads. -/
def ledger (st : Store) (now : Time) : Ledger where
  deadline := st.payloadDeadline
  merge := st.mergeDelta
  held := st.entries.filterMap fun _ e => e.holding now

lemma find?_ledger (st : Store) (now : Time) (id : Ident) :
    (st.ledger now).find? id = (st.find? id).bind (·.holding now) :=
  Table.find?_filterMap st.entries _ id.text

lemma standing_eq (st : Store) (id : Ident) (now : Time) :
    st.standing id now = ((st.ledger now).find? id).map fun h => (h.payload, h.deadline) := by
  rw [find?_ledger, standing]
  cases st.find? id with
  | none => rfl
  | some e => exact Entry.standing_eq now e

lemma ledger_eq {l : Ledger} (hdeadline : l.deadline = st.payloadDeadline)
    (hmerge : l.merge = st.mergeDelta) (h : ∀ id, (st.ledger now).find? id = l.find? id) :
    st.ledger now = l := by
  have hheld : (st.ledger now).held = l.held := Table.ext_find? fun name => h ⟨name⟩
  rw [ledger] at hheld ⊢
  simp only at hheld
  rw [hheld, ← hdeadline, ← hmerge]

lemma payloadDeadline_eq (h : st'.settings = st.settings) :
    st'.payloadDeadline = st.payloadDeadline :=
  funext fun payload => funext fun now => payloadDeadline_congr h payload now

lemma mergeDelta_eq (h : st'.settings = st.settings) : st'.mergeDelta = st.mergeDelta :=
  funext fun id => funext fun stored => funext fun delta => funext fun now =>
    mergeDelta_congr h id stored delta now

/-- **Housekeeping leaves the ledger as it is**, now and later. -/
theorem Settled.ledger (h : Settled now st st') (hle : now ≤ later) :
    st'.ledger later = st.ledger later := by
  refine ledger_eq (payloadDeadline_eq h.settings).symm (mergeDelta_eq h.settings).symm fun id => ?_
  have hkept := h.kept id later hle
  cases hstands : st'.standing id later with
  | none =>
    have hnone : ∀ a : Store, a.standing id later = none → (a.ledger later).find? id = none := by
      intro a ha
      rw [standing_eq, Option.map_eq_none_iff] at ha
      exact ha
    rw [hnone st' hstands, hnone st (hkept ▸ hstands)]
  | some x =>
    -- the entry that stands is the one that stood, keys and all
    obtain ⟨payload, due⟩ := x
    obtain ⟨keys, hfind⟩ := find?_of_standing hstands
    rw [find?_ledger, find?_ledger, hfind, h.live id _ _ _ hfind]

/-- **When time passes, a store holds what a ledger keeps.** -/
theorem ledger_tick (hle : now ≤ later) : (st.ledger now).tick later = st.ledger later := by
  refine (ledger_eq rfl rfl fun id => ?_).symm
  have htick : ((st.ledger now).tick later).find? id =
      ((st.ledger now).find? id).bind fun h => if h.isDue later then none else some h :=
    Table.find?_filterMap (st.ledger now).held _ id.text
  rw [htick, find?_ledger, find?_ledger, Option.bind_assoc]
  exact Option.bind_congr fun e _ => Entry.holding_later hle e

lemma ledger_insert (st : Store) (id : Ident) (payload : Bytes) (keys : List IndexKey)
    (deadline : Option (Time × Action)) (now : Time) :
    (st.insert id (.live payload keys deadline)).ledger now =
      (st.ledger now).hold id ⟨payload, keys, deadline⟩ now := by
  obtain ⟨hdeadline, hmerge⟩ :=
    (st.ledger now).hold_deadline id ⟨payload, keys, deadline⟩ now
  refine ledger_eq hdeadline hmerge fun other => ?_
  rw [find?_ledger, find?_insert, Ledger.find?_hold, find?_ledger]
  split
  · rfl
  · rfl

lemma ledger_remove (st : Store) (id : Ident) (now : Time) :
    (st.remove id).1.ledger now = (st.ledger now).remove id := by
  refine ledger_eq rfl rfl fun other => ?_
  rw [find?_ledger, find?_remove, Ledger.find?_remove, find?_ledger]
  split
  · rfl
  · rfl

/-! ## Answers -/

lemma size_eq (st : Store) (now : Time) : st.size now = (st.ledger now).held.size := by
  have hids := st.entries.ids_filter_filterMap (fun _ e => e.holding now) fun _ => true
  have hpresent : (fun e : String × Entry => e.2.isPresent now) =
      fun e => (e.2.holding now).any fun _ => true := by
    funext e
    rw [Entry.isPresent_eq, Option.any_true]
  have hlength := congrArg List.length hids
  rw [List.filter_eq_self.2 fun _ _ => rfl, List.length_map, List.length_map] at hlength
  rw [size, hpresent, ← hlength]
  rfl

lemma findByKey_snd (st : Store) (key : IndexKey) (now : Time) :
    (st.findByKey key now).2 = (((st.ledger now).held.entries.filter
      fun e => e.2.keys.contains key).map fun e => (⟨e.1⟩ : Ident)) := by
  have hids := (st.tidy now).entries.ids_filter_filterMap (fun _ e => e.holding now)
    fun h => h.keys.contains key
  simp only [← Entry.isPresent_and_contains] at hids
  rw [← (settled_tidy now st).ledger (Time.le_refl now)]
  exact hids.symm

/-- A call is answered by a store as by its ledger, and leaves the ledger that this leaves. -/
def AnswersAs (st : Store) (now : Time) (c : Call) : Prop :=
  (st.answer now c).2 = ((st.ledger now).answer now c).2 ∧
    (st.answer now c).1.ledger now = ((st.ledger now).answer now c).1

lemma answersAs_put (st : Store) (now : Time) (id : Ident) (payload : Bytes)
    (keys : List IndexKey) : st.AnswersAs now (.put id payload keys) := by
  have htidy := (settled_tidy now st).ledger (Time.le_refl now)
  have hdated : (st.tidy now).payloadDeadline payload now = (st.ledger now).deadline payload now :=
    payloadDeadline_congr (settled_tidy now st).settings payload now
  simp only [AnswersAs, answer, put, Ledger.answer, hdated]
  cases (st.ledger now).deadline payload now with
  | error e => exact ⟨rfl, htidy⟩
  | ok deadline => exact ⟨rfl, htidy ▸ ledger_insert (st.tidy now) id payload keys deadline now⟩

lemma answersAs_putDelta (st : Store) (now : Time) (id : Ident) (delta : Bytes)
    (keys : List IndexKey) : st.AnswersAs now (.putDelta id delta keys) := by
  have hsettled := (settled_tidy now st).trans (settled_livePayload now (st.tidy now) id)
  have hledger := hsettled.ledger (Time.le_refl now)
  have hfound := st.get_snd id now
  rw [get, standing_eq, Option.map_map] at hfound
  simp only [AnswersAs, answer, putDelta, Ledger.answer]
  cases hlive : (st.tidy now).livePayload id now with
  | mk mid found =>
    rw [hlive] at hsettled hledger hfound
    simp only at hsettled hledger hfound
    subst hfound
    cases (st.ledger now).find? id with
    | none => exact ⟨rfl, hledger⟩
    | some h =>
      have hmerged : mid.mergeDelta id h.payload delta now =
          (st.ledger now).merge id h.payload delta now :=
        mergeDelta_congr hsettled.settings id h.payload delta now
      simp only [Option.map_some, Function.comp, hmerged]
      cases (st.ledger now).merge id h.payload delta now with
      | error e => exact ⟨rfl, hledger⟩
      | ok merged => exact ⟨rfl, hledger ▸ ledger_insert mid id merged.1 keys merged.2 now⟩

/-- **A store answers as its ledger does**, and is then the ledger that this leaves. -/
theorem answersAs (st : Store) (now : Time) (c : Call) : st.AnswersAs now c := by
  have hle := Time.le_refl now
  cases c with
  | get id =>
    refine ⟨congrArg Answer.found ?_, (settled_get now st id).ledger hle⟩
    rw [get_snd, standing_eq, Option.map_map]
    rfl
  | put id payload keys => exact answersAs_put st now id payload keys
  | putDelta id delta keys => exact answersAs_putDelta st now id delta keys
  | remove id => exact ⟨rfl, ledger_remove st id now⟩
  | findByKey key =>
    exact ⟨congrArg Answer.ids (findByKey_snd st key now), (settled_tidy now st).ledger hle⟩
  | size => exact ⟨congrArg Answer.count (size_eq st now), rfl⟩

/-- A store and its ledger give the same answers for ever. -/
lemma log_eq (turns : List Turn) (st : Store) (now : Time) (h : Forward now turns) :
    st.log now turns = (st.ledger now).log now turns := by
  induction turns generalizing st now with
  | nil => rfl
  | cons e rest ih =>
    cases e with
    | clock time =>
      rw [Store.log, Ledger.log, ledger_tick h.1]
      exact ih st time h.2
    | call c =>
      obtain ⟨hanswer, hleft⟩ := st.answersAs now c
      rw [Store.log, Ledger.log, hanswer, ih _ now h, hleft]

/-- **Nobody can tell that a store deals with expired entries late.** From an empty store on, with
any codec, hook, default expiry and retention, it answers as the empty ledger with the same ways to
date and to merge payloads. Hence what it answers about an id is what it answers when nothing is
done to any other id. -/
theorem log_eq_ledger (codec : Codec) (hook : Option Hook) (defaultExpiry : Option Expiry)
    (retention : Duration) (start : Time) (turns : List Turn) (h : Forward start turns) :
    let st := create codec hook defaultExpiry retention start
    st.log start turns = (Ledger.mk st.payloadDeadline st.mergeDelta ∅).log start turns ∧
      ∀ id, (st.log start turns).filterMap (about id) =
        (st.log start (turns.filter (·.concerns id))).filterMap (about id) := by
  intro st
  refine ⟨log_eq turns st start h, fun id => ?_⟩
  rw [log_eq turns st start h, log_eq _ st start (h.filter id)]
  exact Ledger.about_log turns _ _ start ⟨rfl, rfl, rfl⟩

end Store

namespace Sample

def fresh (id : String) : Bytes :=
  (Binary.full (.create ⟨id⟩ .epoch .deltaCapable)).toOption.getD []

/-- Two sessions are stored, and one of them is asked for when both have been idle for too long. -/
def lapse : List Turn :=
  [.call (.put ⟨"x"⟩ (fresh "x") []), .call (.put ⟨"y"⟩ (fresh "y") []), .call .size,
    .clock ⟨90000000000, by decide⟩, .call (.get ⟨"x"⟩), .call .size]

/-- A store that keeps a session for a minute after its last access. -/
def minutely : Store :=
  .create .binary (some ⟨.idle ⟨some (.ofSeconds 60), .invalidate⟩, some .binary⟩) none .zero .epoch

def counts (log : List (Call × Answer)) : List Nat :=
  log.filterMap fun
    | (_, .count n) => some n
    | _ => none

end Sample

namespace Store

open Sample

theorem log_eq_ledger_lapse :
    Forward .epoch lapse ∧ counts (minutely.log .epoch lapse) = [2, 0] ∧
      minutely.log .epoch lapse =
        (Ledger.mk minutely.payloadDeadline minutely.mergeDelta ∅).log .epoch lapse := by
  have hforward : Forward .epoch lapse := ⟨by decide, trivial⟩
  exact ⟨hforward, by decide +kernel, (log_eq_ledger .binary _ none .zero .epoch lapse hforward).1⟩

end Store

end Sessions
