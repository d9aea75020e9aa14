import Sessions.Proofs.Basic
import Sessions.Store

/-!
# What a store holds

An entry stands at a time when it is live and its deadline lies ahead. Sweeps and the late removal
of expired entries never change what stands from then on, so a store can be reasoned about by what
stands under each id alone.
-/

namespace Sessions

namespace Entry

/-- The payload and the deadline of an entry that can be answered at a time. -/
def standing (now : Time) : Entry → Option (Bytes × Option (Time × Action))
  | live payload keys deadline =>
    if (live payload keys deadline).isExpired now then none else some (payload, deadline)
  | tombstone _ => none

lemma standing_live (now : Time) (payload : Bytes) (keys : List IndexKey)
    (deadline : Option (Time × Action)) : (live payload keys deadline).standing now =
      if (live payload keys deadline).isExpired now then none else some (payload, deadline) :=
  rfl

lemma isExpired_live_eq_false {now : Time} (payload : Bytes) (keys : List IndexKey)
    {due : Option (Time × Action)} :
    (live payload keys due).isExpired now = false ↔
      ∀ time, due.map Prod.fst = some time → now < time := by
  cases due with
  | none => simp [isExpired]
  | some due =>
    obtain ⟨time, action⟩ := due
    simp only [isExpired, decide_eq_false_iff_not, Option.map_some, Option.some.injEq,
      forall_eq']
    exact Int.not_le

lemma standing_of_lt {now : Time} (payload : Bytes) (keys : List IndexKey)
    {due : Option (Time × Action)} (h : ∀ time, due.map Prod.fst = some time → now < time) :
    (live payload keys due).standing now = some (payload, due) := by
  rw [standing_live, (isExpired_live_eq_false payload keys).2 h]
  rfl

lemma isExpired_mono {now later : Time} (hle : now ≤ later) {e : Entry}
    (h : e.isExpired now = true) : e.isExpired later = true := by
  unfold isExpired at h ⊢
  split at h
  · simp only [decide_eq_true_eq] at h ⊢
    exact Time.le_trans h hle
  · cases h

lemma standing_of_isExpired {now : Time} {e : Entry} (h : e.isExpired now = true) :
    e.standing now = none := by
  cases e with
  | live payload keys deadline => simp [standing, h]
  | tombstone since => rfl

lemma standing_expire (now later : Time) (e : Entry) :
    (e.expire now).bind (·.standing later) = none := by
  unfold expire
  split <;> rfl

lemma payload_of_standing (now : Time) (e : Entry) :
    (if e.isExpired now then none else e.payload?) = (e.standing now).map Prod.fst := by
  cases e with
  | live payload keys deadline =>
    by_cases h : (live payload keys deadline).isExpired now = true <;>
      simp [standing, payload?, h]
  | tombstone since => rfl

lemma expire_ne_live (now : Time) (e : Entry) (payload : Bytes) (keys : List IndexKey)
    (due : Option (Time × Action)) : e.expire now ≠ some (live payload keys due) := by
  unfold expire
  split <;> simp

lemma eq_live_of_sweep {now : Time} {retention : Duration} {e : Entry} {payload : Bytes}
    {keys : List IndexKey} {due : Option (Time × Action)}
    (h : e.sweep now retention = some (live payload keys due)) : e = live payload keys due := by
  have hleft := (Option.filter_eq_some_iff.1 h).1
  split at hleft
  · exact absurd hleft (expire_ne_live now e payload keys due)
  · exact Option.some.inj hleft

lemma standing_sweep (now later : Time) (retention : Duration) (e : Entry) :
    (e.sweep now retention).bind (·.standing later) =
      if e.isExpired now then none else e.standing later := by
  unfold sweep
  by_cases hx : e.isExpired now = true
  · rw [if_pos hx, if_pos hx]
    unfold expire
    split
    · rfl
    · by_cases hs : (tombstone now).isSpent now retention = true <;>
        simp [Option.filter, hs, standing]
    next since => cases hx
  · rw [if_neg hx, if_neg hx]
    cases e with
    | live payload keys deadline => rfl
    | tombstone since =>
      by_cases hs : (tombstone since).isSpent now retention = true <;>
        simp [Option.filter, hs, standing]

lemma standing_mono {now later : Time} (hle : now ≤ later) {e : Entry}
    {x : Bytes × Option (Time × Action)} (h : e.standing later = some x) :
    e.standing now = some x := by
  cases e with
  | live payload keys deadline =>
    unfold standing at h ⊢
    by_cases hx : (live payload keys deadline).isExpired now = true
    · simp [isExpired_mono hle hx] at h
    · by_cases hl : (live payload keys deadline).isExpired later = true
      · simp [hl] at h
      · simpa [hx, hl] using h
  | tombstone since => cases h

end Entry

namespace Store

variable {st : Store} {now later : Time}

lemma find?_insert (st : Store) (id other : Ident) (e : Entry) :
    (st.insert id e).find? other = if id = other then some e else st.find? other := by
  cases id; cases other
  simp [find?, insert, Table.find?_insert]

lemma find?_remove (st : Store) (id other : Ident) :
    (st.remove id).1.find? other = if id = other then none else st.find? other := by
  cases id; cases other
  simp [find?, remove, Table.find?_erase]

lemma find?_sweep (st : Store) (now : Time) (id : Ident) :
    (st.sweep now).find? id = (st.find? id).bind (·.sweep now st.retention) := by
  simp [find?, sweep, Table.find?_filterMap]

lemma find?_livePayload (st : Store) (id other : Ident) (now : Time) :
    (st.livePayload id now).1.find? other =
      if id = other then
        (st.find? id).bind fun e => if e.isExpired now then e.expire now else some e
      else st.find? other := by
  cases id with | mk id =>
  cases other with | mk other =>
  cases he : st.find? ⟨id⟩ with
  | none =>
    by_cases h : id = other
    · subst h; simp [livePayload, he]
    · simp [livePayload, he, h]
  | some e =>
    by_cases hx : e.isExpired now
    · cases hl : e.expire now with
      | none =>
        simp only [livePayload, he, hx, hl]
        simp [find?, Table.find?_erase, hl, hx]
      | some left =>
        simp only [livePayload, he, hx, hl]
        simp [find?, Table.find?_insert, hl, hx]
    · by_cases h : id = other
      · subst h; simp [livePayload, he, hx]
      · simp [livePayload, he, hx, h]

lemma payload_livePayload (st : Store) (id : Ident) (now : Time) :
    (st.livePayload id now).2 =
      (st.find? id).bind fun e => if e.isExpired now then none else e.payload? := by
  cases he : st.find? id with
  | none => simp [livePayload, he]
  | some e => by_cases hx : e.isExpired now <;> simp [livePayload, he, hx]

/-- What can be answered under an id at a time. -/
def standing (st : Store) (id : Ident) (now : Time) : Option (Bytes × Option (Time × Action)) :=
  (st.find? id).bind (·.standing now)

lemma find?_of_standing {id : Ident} {payload : Bytes} {due : Option (Time × Action)}
    (h : st.standing id now = some (payload, due)) :
    ∃ keys, st.find? id = some (.live payload keys due) := by
  obtain ⟨e, he, hx⟩ := Option.bind_eq_some_iff.1 h
  cases e with
  | live held keys deadline =>
    rw [Entry.standing_live] at hx
    split at hx
    · cases hx
    · obtain ⟨rfl, rfl⟩ := Prod.mk.inj (Option.some.inj hx)
      exact ⟨keys, he⟩
  | tombstone since => cases hx

lemma lt_of_standing {id : Ident} {payload : Bytes} {due : Option (Time × Action)}
    (h : st.standing id now = some (payload, due)) :
    ∀ time, due.map Prod.fst = some time → now < time := by
  obtain ⟨e, -, hstands⟩ := Option.bind_eq_some_iff.1 h
  cases e with
  | tombstone since => cases hstands
  | live held keys deadline =>
    rw [Entry.standing_live] at hstands
    split at hstands
    · cases hstands
    next hlive =>
      obtain ⟨rfl, rfl⟩ := Prod.mk.inj (Option.some.inj hstands)
      exact (Entry.isExpired_live_eq_false held keys).1 (by simpa using hlive)

lemma standing_until {id : Ident} {payload : Bytes} {due : Option (Time × Action)}
    (h : st.standing id now = some (payload, due))
    (hdue : ∀ time, due.map Prod.fst = some time → later < time) :
    st.standing id later = some (payload, due) := by
  obtain ⟨keys, hfind⟩ := find?_of_standing h
  rw [standing, hfind, Option.bind_some, Entry.standing_of_lt payload keys hdue]

lemma standing_mono (hle : now ≤ later) {id : Ident} {x : Bytes × Option (Time × Action)}
    (h : st.standing id later = some x) : st.standing id now = some x := by
  obtain ⟨e, he, hx⟩ := Option.bind_eq_some_iff.1 h
  exact Option.bind_eq_some_iff.2 ⟨e, he, Entry.standing_mono hle hx⟩

lemma standing_insert (id other : Ident) (payload : Bytes) (keys : List IndexKey)
    (deadline : Option (Time × Action)) :
    (st.insert id (.live payload keys deadline)).standing other now =
      if id = other then (Entry.live payload keys deadline).standing now
      else st.standing other now := by
  unfold standing
  rw [find?_insert]
  split <;> rfl

lemma standing_remove (id other : Ident) :
    (st.remove id).1.standing other now = if id = other then none else st.standing other now := by
  unfold standing
  rw [find?_remove]
  split <;> rfl

def deadlineOf (st : Store) (id : Ident) : Option Time :=
  match st.find? id with
  | some (.live _ _ deadline) => deadline.map Prod.fst
  | _ => none

lemma deadlineOf_insert (st : Store) (id : Ident) (payload : Bytes) (keys : List IndexKey)
    (due : Option (Time × Action)) :
    (st.insert id (.live payload keys due)).deadlineOf id = due.map Prod.fst := by
  rw [deadlineOf, find?_insert, if_pos rfl]

/-! ### Housekeeping -/

def settings (st : Store) : Codec × Option Hook × Option Expiry :=
  (st.codec, st.hook, st.defaultExpiry)

/-- Nothing has happened to a store but housekeeping, up to `now`: no entry that stands from then
on was lost, none has come to stand, and live entries are as they were. -/
structure Settled (now : Time) (st st' : Store) : Prop where
  kept : ∀ id later, now ≤ later → st'.standing id later = st.standing id later
  shrunk : ∀ id later x, st'.standing id later = some x → st.standing id later = some x
  live : ∀ id payload keys due, st'.find? id = some (.live payload keys due) →
    st.find? id = some (.live payload keys due)
  settings : st'.settings = st.settings

lemma Settled.refl (now : Time) (st : Store) : Settled now st st :=
  ⟨fun _ _ _ => rfl, fun _ _ _ h => h, fun _ _ _ _ h => h, rfl⟩

lemma Settled.trans {a b c : Store} (hab : Settled now a b) (hbc : Settled now b c) :
    Settled now a c where
  kept id later hle := by rw [hbc.kept id later hle, hab.kept id later hle]
  shrunk id later x h := hab.shrunk id later x (hbc.shrunk id later x h)
  live id payload keys due h := hab.live id payload keys due (hbc.live id payload keys due h)
  settings := by rw [hbc.settings, hab.settings]

lemma settled_tidy (now : Time) (st : Store) : Settled now st (st.tidy now) := by
  have hsweep : ∀ id later, (st.sweep now).standing id later =
      (st.find? id).bind fun e => if e.isExpired now then none else e.standing later := by
    intro id later
    unfold standing
    rw [find?_sweep, Option.bind_assoc]
    simp only [Entry.standing_sweep]
  unfold tidy
  split
  · exact Settled.refl now st
  · refine ⟨fun id later hle => ?_, fun id later x h => ?_, fun id payload keys due h => ?_, rfl⟩
    · rw [hsweep]
      refine Option.bind_congr fun e _ => ?_
      split
      next hx => rw [Entry.standing_of_isExpired (Entry.isExpired_mono hle hx)]
      next => rfl
    · rw [hsweep] at h
      obtain ⟨e, he, hx⟩ := Option.bind_eq_some_iff.1 h
      split at hx
      · cases hx
      · exact Option.bind_eq_some_iff.2 ⟨e, he, hx⟩
    · rw [find?_sweep] at h
      obtain ⟨e, he, hsweep⟩ := Option.bind_eq_some_iff.1 h
      rw [he, Entry.eq_live_of_sweep hsweep]

lemma settled_livePayload (now : Time) (st : Store) (id : Ident) :
    Settled now st (st.livePayload id now).1 := by
  have hlive : ∀ other later, (st.livePayload id now).1.standing other later =
      if id = other then
        (st.find? id).bind fun e => if e.isExpired now then none else e.standing later
      else st.standing other later := by
    intro other later
    unfold standing
    rw [find?_livePayload]
    split
    · rw [Option.bind_assoc]
      refine Option.bind_congr fun e _ => ?_
      split
      · exact Entry.standing_expire now later e
      · rfl
    · rfl
  refine ⟨fun other later hle => ?_, fun other later x h => ?_,
    fun other payload keys due h => ?_, ?_⟩
  · rw [hlive]
    split
    next heq =>
      subst heq
      refine Option.bind_congr fun e _ => ?_
      split
      next hx => rw [Entry.standing_of_isExpired (Entry.isExpired_mono hle hx)]
      next => rfl
    next => rfl
  · rw [hlive] at h
    split at h
    next heq =>
      subst heq
      obtain ⟨e, he, hx⟩ := Option.bind_eq_some_iff.1 h
      split at hx
      · cases hx
      · exact Option.bind_eq_some_iff.2 ⟨e, he, hx⟩
    next => exact h
  · rw [find?_livePayload] at h
    split at h
    next heq =>
      subst heq
      obtain ⟨e, he, hx⟩ := Option.bind_eq_some_iff.1 h
      split at hx
      · exact absurd hx (Entry.expire_ne_live now e payload keys due)
      · rw [he, Option.some.inj hx]
    next => exact h
  · unfold livePayload
    split
    · rfl
    · split <;> rfl

lemma settled_get (now : Time) (st : Store) (id : Ident) : Settled now st (st.get id now).1 :=
  (settled_tidy now st).trans (settled_livePayload now _ id)

lemma livePayload_snd (st : Store) (id : Ident) (now : Time) :
    (st.livePayload id now).2 = (st.standing id now).map Prod.fst := by
  rw [payload_livePayload]
  unfold standing
  cases st.find? id with
  | none => rfl
  | some e => exact Entry.payload_of_standing now e

/-- **A look-up answers what stands.** -/
theorem get_snd (st : Store) (id : Ident) (now : Time) :
    (st.get id now).2 = (st.standing id now).map Prod.fst := by
  unfold get
  rw [livePayload_snd, (settled_tidy now st).kept id now (Time.le_refl now)]

/-! ### Writing -/

lemma payloadDeadline_congr {a b : Store} (h : a.settings = b.settings) (payload : Bytes)
    (now : Time) : a.payloadDeadline payload now = b.payloadDeadline payload now := by
  simp only [Store.settings, Prod.mk.injEq] at h
  simp only [payloadDeadline, Store.deadline, h]

lemma mergeDelta_congr {a b : Store} (h : a.settings = b.settings) (id : Ident)
    (stored delta : Bytes) (now : Time) :
    a.mergeDelta id stored delta now = b.mergeDelta id stored delta now := by
  simp only [Store.settings, Prod.mk.injEq] at h
  simp only [mergeDelta, Store.deadline, h]

/-- What a merge is: the stored payload is read, the delta is applied to it, and the result is
written whole. -/
lemma exists_of_mergeDelta {id : Ident} {stored delta payload : Bytes}
    {due : Option (Time × Action)}
    (h : st.mergeDelta id stored delta now = .ok (payload, due)) :
    ∃ base merged, st.codec.decode stored = .ok base ∧
      st.codec.merge base delta = (merged, .ok true) ∧
      st.deadline (st.hook.bind (·.ofSession merged now)) now = .ok due ∧
      (st.codec.encodeFull merged).2 = .ok payload := by
  obtain ⟨base, hbase, hread⟩ := bind_eq_ok.1 h
  cases hmerge : st.codec.merge base delta with
  | mk merged understood =>
    rw [hmerge] at hread
    obtain ⟨known, rfl, happlied⟩ := bind_eq_ok.1 hread
    cases known with
    | false => cases happlied
    | true =>
      obtain ⟨deadline, hdl, hrest⟩ := bind_eq_ok.1 happlied
      obtain ⟨written, hwritten, hpair⟩ := bind_eq_ok.1 hrest
      obtain ⟨rfl, rfl⟩ := Prod.mk.inj (Except.ok.inj hpair)
      exact ⟨base, merged, hbase, hmerge, hdl, hwritten⟩

lemma put_cases {id : Ident} {payload : Bytes} {keys : List IndexKey} {st' : Store}
    {outcome : Except Fault Unit} (h : st.put id payload keys now = (st', outcome)) :
    (∃ e, outcome = .error e ∧ Settled now st st') ∨
      ∃ deadline mid, outcome = .ok () ∧ st.payloadDeadline payload now = .ok deadline ∧
        Settled now st mid ∧ st' = mid.insert id (.live payload keys deadline) := by
  have ht := settled_tidy now st
  unfold put at h
  simp only [payloadDeadline_congr ht.settings] at h
  cases hd : st.payloadDeadline payload now with
  | error e =>
    simp only [hd, Prod.mk.injEq] at h
    obtain ⟨rfl, rfl⟩ := h
    exact .inl ⟨e, rfl, ht⟩
  | ok deadline =>
    simp only [hd, Prod.mk.injEq] at h
    obtain ⟨rfl, rfl⟩ := h
    exact .inr ⟨deadline, _, rfl, rfl, ht, rfl⟩

lemma putDelta_cases {id : Ident} {delta : Bytes} {keys : List IndexKey} {st' : Store}
    {outcome : Except Fault Bool} (h : st.putDelta id delta keys now = (st', outcome)) :
    (∃ e, outcome = .error e ∧ Settled now st st') ∨
      (outcome = .ok false ∧ st.standing id now = none ∧ Settled now st st') ∨
      ∃ stored old payload deadline mid, outcome = .ok true ∧
        st.standing id now = some (stored, old) ∧
        st.mergeDelta id stored delta now = .ok (payload, deadline) ∧
        Settled now st mid ∧ st' = mid.insert id (.live payload keys deadline) := by
  have ht := settled_tidy now st
  have hl := ht.trans (settled_livePayload now (st.tidy now) id)
  have hsnd := livePayload_snd (st.tidy now) id now
  rw [ht.kept id now (Time.le_refl now)] at hsnd
  unfold putDelta at h
  cases hp : (st.tidy now).livePayload id now with
  | mk mid found =>
    rw [hp] at hl hsnd
    simp only at hl hsnd
    cases hs : st.standing id now with
    | none =>
      rw [hs] at hsnd
      subst hsnd
      simp only [hp] at h
      obtain ⟨rfl, rfl⟩ := h
      exact .inr (.inl ⟨rfl, rfl, hl⟩)
    | some x =>
      obtain ⟨stored, old⟩ := x
      rw [hs] at hsnd
      subst hsnd
      simp only [hp, Option.map_some, mergeDelta_congr hl.settings] at h
      cases hm : st.mergeDelta id stored delta now with
      | error e =>
        simp only [hm, Prod.mk.injEq] at h
        obtain ⟨rfl, rfl⟩ := h
        exact .inl ⟨e, rfl, hl⟩
      | ok merged =>
        obtain ⟨payload, deadline⟩ := merged
        simp only [hm, Prod.mk.injEq] at h
        obtain ⟨rfl, rfl⟩ := h
        exact .inr (.inr ⟨stored, old, payload, deadline, mid, rfl, rfl, hm, hl, rfl⟩)

lemma settled_of_put_error {id : Ident} {payload : Bytes} {keys : List IndexKey} {f : Fault}
    (h : (st.put id payload keys now).2 = .error f) :
    Settled now st (st.put id payload keys now).1 := by
  cases hwrite : st.put id payload keys now with
  | mk st' outcome =>
    rw [hwrite] at h
    rcases put_cases hwrite with ⟨e, -, hsettled⟩ | ⟨deadline, mid, hok, -⟩
    · exact hsettled
    · rw [hok] at h
      cases h

lemma settled_of_putDelta_ne {id : Ident} {delta : Bytes} {keys : List IndexKey}
    (h : (st.putDelta id delta keys now).2 ≠ .ok true) :
    Settled now st (st.putDelta id delta keys now).1 := by
  cases hwrite : st.putDelta id delta keys now with
  | mk st' outcome =>
    rw [hwrite] at h
    rcases putDelta_cases hwrite with ⟨e, -, hsettled⟩ | ⟨-, -, hsettled⟩ |
      ⟨stored, old, payload, deadline, mid, hok, -⟩
    · exact hsettled
    · exact hsettled
    · exact absurd hok h

end Store

end Sessions
