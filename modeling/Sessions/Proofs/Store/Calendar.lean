import Sessions.Proofs.Codec.Faults
import Sessions.Proofs.Expiry.Deadline
import Sessions.Proofs.Store.Ledger

/-!
# Writes near the end of the calendar

A store dates what it writes: the time of the write and the seconds that the hook, or else the
default, gives it. When the calendar ends before that, there is no such instant, and the write is
abandoned where everything else that could be wrong with it has been looked at. Nothing is stored
then, neither with a deadline nor without one.
-/

namespace Sessions

namespace Time

def last : Time := ⟨253402300799999999999, by decide⟩

lemma add?_eq_none_iff {t : Time} {d : Duration} (h : 0 ≤ d.nanos) :
    t.add? d = none ↔ last.nanos < t.nanos + d.nanos := by
  have hlast : last.nanos = 253402300799999999999 := rfl
  have hrange := t.inRange
  unfold add? ofNanos?
  split
  next hin => simp only [reduceCtorEq, false_iff]; omega
  next hout => simp only [true_iff]; omega

end Time

namespace Expiry

variable {e : Expiry} {now : Time}

/-- The calendar ends before the time is over. -/
def Overruns (e : Expiry) (now : Time) : Prop := Time.last.nanos < now.nanos + e.ttl.nanos

instance : Decidable (e.Overruns now) := inferInstanceAs (Decidable (_ < _))

lemma nanos_ttl_eq (e : Expiry) : e.ttl.nanos = e.seconds.toInt * 1000000000 := by
  rw [ttl, Duration.nanos_ofSeconds, Int32.toInt_toInt64]

/-- There is room for any time while as many seconds are left as fit 32 signed bits. -/
lemma not_overruns (h : now.nanos + 2147483647 * 1000000000 ≤ Time.last.nanos) :
    ¬e.Overruns now := by
  have hmost := e.seconds.toInt_lt
  have hlast : Time.last.nanos = 253402300799999999999 := rfl
  rw [Overruns, nanos_ttl_eq]
  omega

lemma deadline_eq_error_iff (hpos : 0 < e.seconds.toInt) {f : Fault} :
    e.deadline now = .error f ↔ f = .outsideCalendar ∧ e.Overruns now := by
  have hnone : now.add? e.ttl = none ↔ e.Overruns now :=
    Time.add?_eq_none_iff (by rw [nanos_ttl_eq]; omega)
  rw [deadline, ← hnone]
  cases now.add? e.ttl with
  | some time => simp
  | none => simp [eq_comm]

lemma seconds_ofDecision (d : Decision) : 0 < (ofDecision d).seconds.toInt := by
  have hnanos := nanos_ttl_eq (ofDecision d)
  rw [nanos_ttl] at hnanos
  omega

end Expiry

lemma map_eq_error {α β : Type} {x : Except Fault α} {f : α → β} {e : Fault} :
    x.map f = .error e ↔ x = .error e := by
  cases x <;> simp [Except.map]

/-- A codec whose own arithmetic stays within the calendar. -/
structure Codec.StaysInCalendar (c : Codec) : Prop where
  decode : ∀ payload, c.decode payload ≠ .error .outsideCalendar
  merge : ∀ s payload, (c.merge s payload).2 ≠ .error .outsideCalendar
  encodeFull : ∀ s, (c.encodeFull s).2 ≠ .error .outsideCalendar

lemma Contained.ne_outsideCalendar {α : Type} {x : Except Fault α} (h : Contained x) :
    x ≠ .error .outsideCalendar := by
  intro hx
  cases h _ hx

lemma Codec.BuiltIn.staysInCalendar {c : Codec} (hc : c.BuiltIn) : c.StaysInCalendar where
  decode payload := (hc.contained_decode payload).ne_outsideCalendar
  merge s payload := (hc.contained_merge s payload).ne_outsideCalendar
  encodeFull s := (hc.contained_encodeFull s).ne_outsideCalendar

namespace Store

variable {st : Store} {now : Time}

/-- What the hook says of a full payload. -/
def opinion (st : Store) (payload : Bytes) (now : Time) : Except Fault (Option Expiry) :=
  match st.hook with
  | some hook => hook.ofPayload payload now
  | none => .ok none

/-- How long a full payload is to be kept, when there is nothing wrong with it. -/
def KeepsPayload (st : Store) (payload : Bytes) (now : Time) (e : Expiry) : Prop :=
  ∃ header said, Header.read payload = .ok header ∧ header.isDelta = false ∧
    st.opinion payload now = .ok said ∧ said.or st.defaultExpiry = some e

/-- How long what the id holds is to be kept with a delta merged into it, when there is nothing
wrong with either. -/
def KeepsMerged (st : Store) (id : Ident) (delta : Bytes) (now : Time) (e : Expiry) : Prop :=
  ∃ stored old base merged, st.standing id now = some (stored, old) ∧
    st.codec.decode stored = .ok base ∧ st.codec.merge base delta = (merged, .ok true) ∧
    (st.hook.bind (·.ofSession merged now)).or st.defaultExpiry = some e

section

variable (hcodec : st.codec.StaysInCalendar)
  (hhook : ∀ h ∈ st.hook, ∀ c ∈ h.codec, c.StaysInCalendar)
  (hdefault : ∀ e ∈ st.defaultExpiry, 0 < e.seconds.toInt)

include hdefault in
lemma deadline_eq_outsideCalendar_iff {said : Option Expiry}
    (hsaid : ∀ e ∈ said, 0 < e.seconds.toInt) :
    st.deadline said now = .error .outsideCalendar ↔
      ∃ e, said.or st.defaultExpiry = some e ∧ e.Overruns now := by
  rw [deadline]
  cases hkept : said.or st.defaultExpiry with
  | none => simp
  | some e =>
    have hpos : 0 < e.seconds.toInt := by
      rcases Option.or_eq_some_iff.1 hkept with h | ⟨-, h⟩
      · exact hsaid e h
      · exact hdefault e h
    have herror : e.deadline now = .error .outsideCalendar ↔ _ := Expiry.deadline_eq_error_iff hpos
    cases hdue : e.deadline now with
    | ok due => simpa [hdue, Except.map] using herror
    | error f => simpa [hdue, Except.map] using herror

lemma seconds_ofSession {hook : Hook} {s : Session} {e : Expiry}
    (h : hook.ofSession s now = some e) : 0 < e.seconds.toInt := by
  obtain ⟨d, -, rfl⟩ := Option.map_eq_some_iff.1 h
  exact Expiry.seconds_ofDecision d

lemma seconds_opinion {payload : Bytes} {said : Option Expiry}
    (h : st.opinion payload now = .ok said) : ∀ e ∈ said, 0 < e.seconds.toInt := by
  intro e he
  obtain rfl : said = some e := he
  unfold opinion at h
  split at h
  next hook _ =>
    unfold Hook.ofPayload at h
    split at h
    · cases h
    · obtain ⟨s, -, h⟩ := bind_eq_ok.1 h
      exact seconds_ofSession (Except.ok.inj h)
  next => cases h

include hhook in
lemma opinion_ne_outsideCalendar (payload : Bytes) :
    st.opinion payload now ≠ .error .outsideCalendar := by
  unfold opinion
  split
  next hook hh =>
    unfold Hook.ofPayload
    split
    · nofun
    next c hc =>
      have hdecode := (hhook hook hh c hc).decode payload
      cases hread : c.decode payload with
      | ok s => nofun
      | error f => simpa [hread, bind, Except.bind] using hdecode
  next => nofun

lemma payloadDeadline_of_header {payload : Bytes} {header : Header}
    (hread : Header.read payload = .ok header) (hdelta : header.isDelta = false) :
    st.payloadDeadline payload now =
      st.opinion payload now >>= fun said => st.deadline said now := by
  rw [payloadDeadline, hread, ok_bind, hdelta, opinion]
  cases st.hook <;> rfl

include hhook hdefault in
lemma payloadDeadline_eq_outsideCalendar_iff {payload : Bytes} :
    st.payloadDeadline payload now = .error .outsideCalendar ↔
      ∃ e, st.KeepsPayload payload now e ∧ e.Overruns now := by
  have hheader := (Header.contained_read payload).ne_outsideCalendar
  have hopinion : st.opinion payload now ≠ .error .outsideCalendar :=
    opinion_ne_outsideCalendar hhook payload
  unfold KeepsPayload
  cases hread : Header.read payload with
  | error f => simpa [payloadDeadline, hread, bind, Except.bind] using hheader
  | ok header =>
    cases hdelta : header.isDelta with
    | true => simp [payloadDeadline, hread, hdelta]
    | false =>
      rw [payloadDeadline_of_header hread hdelta]
      cases hsaid : st.opinion payload now with
      | error f =>
        rw [hsaid] at hopinion
        simpa [bind, Except.bind] using hopinion
      | ok said =>
        simpa [hdelta] using deadline_eq_outsideCalendar_iff hdefault (seconds_opinion hsaid)

include hcodec hdefault in
lemma mergeDelta_eq_outsideCalendar_iff {id : Ident} {stored delta : Bytes} :
    st.mergeDelta id stored delta now = .error .outsideCalendar ↔
      ∃ base merged e, st.codec.decode stored = .ok base ∧
        st.codec.merge base delta = (merged, .ok true) ∧
        (st.hook.bind (·.ofSession merged now)).or st.defaultExpiry = some e ∧
        e.Overruns now := by
  have hdecode := hcodec.decode stored
  unfold mergeDelta
  cases hread : st.codec.decode stored with
  | error f => simpa [hread, bind, Except.bind] using hdecode
  | ok base =>
    have hmerged := hcodec.merge base delta
    cases hmerge : st.codec.merge base delta with
    | mk merged understood =>
      rw [hmerge] at hmerged
      rcases understood with f | (_ | _)
      · simpa [hmerge, bind, Except.bind] using hmerged
      · simp [hmerge]
      · have hsaid : ∀ e ∈ st.hook.bind (·.ofSession merged now), 0 < e.seconds.toInt := by
          intro e he
          obtain ⟨hook, -, h⟩ := Option.bind_eq_some_iff.1 he
          exact seconds_ofSession h
        have hdeadline : st.deadline (st.hook.bind (·.ofSession merged now)) now =
            .error .outsideCalendar ↔ _ := deadline_eq_outsideCalendar_iff hdefault hsaid
        have hwritten := hcodec.encodeFull merged
        cases hdue : st.deadline (st.hook.bind (·.ofSession merged now)) now with
        | error f => simpa [hmerge, hdue, bind, Except.bind] using hdeadline
        | ok due =>
          -- the deadline is there, and the codec does not leave the calendar when it writes
          rw [hdue] at hdeadline
          cases hpayload : (st.codec.encodeFull merged).2 with
          | error f => simp_all [bind, Except.bind]
          | ok payload => simp_all [bind, Except.bind]

lemma put_snd (id : Ident) (payload : Bytes) (keys : List IndexKey) :
    (st.put id payload keys now).2 = (st.payloadDeadline payload now).map fun _ => () := by
  rw [put, ← payloadDeadline_congr (settled_tidy now st).settings payload now]
  cases (st.tidy now).payloadDeadline payload now <;> simp [Except.map]

lemma putDelta_snd (id : Ident) (delta : Bytes) (keys : List IndexKey) :
    (st.putDelta id delta keys now).2 = match st.standing id now with
      | some (stored, _) => (st.mergeDelta id stored delta now).map fun _ => true
      | none => .ok false := by
  have hsettled := (settled_tidy now st).trans (settled_livePayload now (st.tidy now) id)
  have hfound := st.get_snd id now
  rw [get] at hfound
  rw [putDelta]
  cases hlive : (st.tidy now).livePayload id now with
  | mk mid found =>
    rw [hlive] at hsettled hfound
    simp only at hfound
    cases hstands : st.standing id now with
    | none =>
      rw [hstands] at hfound
      subst hfound
      rfl
    | some x =>
      rw [hstands] at hfound
      subst hfound
      simp only [Option.map_some, mergeDelta_congr hsettled.settings]
      cases st.mergeDelta id x.1 delta now <;> rfl

lemma settled_of_putDelta_error {id : Ident} {delta : Bytes} {keys : List IndexKey} {f : Fault}
    (h : (st.putDelta id delta keys now).2 = .error f) :
    Settled now st (st.putDelta id delta keys now).1 :=
  settled_of_putDelta_ne (by rw [h]; nofun)

include hhook hdefault in
lemma put_outsideCalendar_iff (id : Ident) (payload : Bytes) (keys : List IndexKey) :
    (st.put id payload keys now).2 = .error .outsideCalendar ↔
      ∃ e, st.KeepsPayload payload now e ∧ e.Overruns now := by
  rw [put_snd, map_eq_error, payloadDeadline_eq_outsideCalendar_iff hhook hdefault]

include hcodec hdefault in
lemma putDelta_outsideCalendar_iff (id : Ident) (delta : Bytes) (keys : List IndexKey) :
    (st.putDelta id delta keys now).2 = .error .outsideCalendar ↔
      ∃ e, st.KeepsMerged id delta now e ∧ e.Overruns now := by
  rw [putDelta_snd]
  unfold KeepsMerged
  cases hstands : st.standing id now with
  | none => simp
  | some x =>
    obtain ⟨stored, old⟩ := x
    rw [map_eq_error, mergeDelta_eq_outsideCalendar_iff hcodec hdefault]
    constructor
    · rintro ⟨base, merged, e, hbase, hmerged, hkept, hover⟩
      exact ⟨e, ⟨stored, old, base, merged, rfl, hbase, hmerged, hkept⟩, hover⟩
    · rintro ⟨e, ⟨_, _, base, merged, hx, hbase, hmerged, hkept⟩, hover⟩
      obtain ⟨rfl, rfl⟩ := Prod.mk.inj (Option.some.inj hx)
      exact ⟨base, merged, e, hbase, hmerged, hkept, hover⟩

include hcodec hhook hdefault in
/-- **When a write leaves the calendar**: exactly when there is nothing else wrong with it and it is
to be kept beyond the last instant. What fails stores nothing. There is room for every write while
as many seconds are left as fit 32 signed bits. -/
theorem write_outsideCalendar_iff (id : Ident) (payload : Bytes) (keys : List IndexKey)
    (now : Time) :
    ((st.put id payload keys now).2 = .error .outsideCalendar ↔
      ∃ e, st.KeepsPayload payload now e ∧ e.Overruns now) ∧
    ((st.putDelta id payload keys now).2 = .error .outsideCalendar ↔
      ∃ e, st.KeepsMerged id payload now e ∧ e.Overruns now) ∧
    (∀ f, (st.put id payload keys now).2 = .error f →
      Settled now st (st.put id payload keys now).1) ∧
    (∀ f, (st.putDelta id payload keys now).2 = .error f →
      Settled now st (st.putDelta id payload keys now).1) ∧
    (now.nanos + 2147483647 * 1000000000 ≤ Time.last.nanos →
      (st.put id payload keys now).2 ≠ .error .outsideCalendar ∧
        (st.putDelta id payload keys now).2 ≠ .error .outsideCalendar) := by
  have hput : (st.put id payload keys now).2 = .error .outsideCalendar ↔ _ :=
    put_outsideCalendar_iff hhook hdefault id payload keys
  have hdelta : (st.putDelta id payload keys now).2 = .error .outsideCalendar ↔ _ :=
    putDelta_outsideCalendar_iff hcodec hdefault id payload keys
  refine ⟨hput, hdelta, fun f => settled_of_put_error, fun f => settled_of_putDelta_error,
    fun hroom => ⟨fun h => ?_, fun h => ?_⟩⟩
  · obtain ⟨e, -, hover⟩ := hput.1 h
    exact Expiry.not_overruns hroom hover
  · obtain ⟨e, -, hover⟩ := hdelta.1 h
    exact Expiry.not_overruns hroom hover

end

end Store

/-! ### The last second -/

namespace Sample

/-- A store that keeps what nobody has an opinion on for some seconds. -/
def keeping (seconds : Int32) : Store :=
  .create .binary none (some ⟨seconds, .destroy⟩) .zero Time.last

def eve : Time := ⟨253402300793999999999, by decide⟩

def onTheEve : Store := ((keeping 5).put ⟨"x"⟩ (fresh "x") [] eve).1

def brink : Time := ⟨253402300795999999999, by decide⟩

def parting : Bytes :=
  (Binary.delta ((Edit.set "k" (.int 1)).apply .epoch
    (Session.create ⟨"x"⟩ .epoch .deltaCapable).commit)).toOption.getD []

end Sample

namespace Store

open Sample

theorem write_outsideCalendar_iff_last_second :
    ((keeping 1).put ⟨"x"⟩ (fresh "x") [] Time.last).2 = .error .outsideCalendar ∧
      Settled Time.last (keeping 1) ((keeping 1).put ⟨"x"⟩ (fresh "x") [] Time.last).1 ∧
      ((keeping 1).put ⟨"x"⟩ (fresh "x") [] .epoch).2 ≠ .error .outsideCalendar ∧
      ∃ e, onTheEve.KeepsMerged ⟨"x"⟩ parting brink e ∧ e.Overruns brink := by
  have hdefault : ∀ seconds, 0 < seconds.toInt →
      ∀ e ∈ (keeping seconds).defaultExpiry, 0 < e.seconds.toInt := by
    intro seconds hpos e he
    obtain rfl := Option.some.inj he
    exact hpos
  have hhook : ∀ st : Store, st.hook = none →
      ∀ h ∈ st.hook, ∀ c ∈ h.codec, c.StaysInCalendar := by
    intro st hnone h hh
    rw [hnone] at hh
    cases hh
  have hbinary := Codec.BuiltIn.binary.staysInCalendar
  obtain ⟨hput, -, hsettled, -⟩ := @write_outsideCalendar_iff (keeping 1) hbinary
    (hhook _ rfl) (hdefault 1 (by decide)) ⟨"x"⟩ (fresh "x") [] Time.last
  obtain ⟨-, -, -, -, hroom⟩ := @write_outsideCalendar_iff (keeping 1) hbinary
    (hhook _ rfl) (hdefault 1 (by decide)) ⟨"x"⟩ (fresh "x") [] .epoch
  obtain ⟨-, hdelta, -⟩ := @write_outsideCalendar_iff onTheEve hbinary
    (hhook _ rfl) (hdefault 5 (by decide)) ⟨"x"⟩ parting [] brink
  have hfails := hput.2 ⟨⟨1, .destroy⟩, ⟨⟨Binary.tag, .full .deltaCapable⟩, none, by decide +kernel,
    rfl, rfl, rfl⟩, by decide⟩
  exact ⟨hfails, hsettled _ hfails, (hroom (by decide)).1, hdelta.1 (by decide +kernel)⟩

/-- Writes to stores over the codecs of this library do not leave the calendar. -/
def WritesStayInCalendar : Prop :=
  ∀ (st : Store) (id : Ident) (payload : Bytes) (keys : List IndexKey) (now : Time),
    st.codec.BuiltIn → (∀ h ∈ st.hook, ∀ c ∈ h.codec, c.BuiltIn) →
    (∀ e ∈ st.defaultExpiry, 0 < e.seconds.toInt) →
      (st.put id payload keys now).2 ≠ .error .outsideCalendar ∧
        (st.putDelta id payload keys now).2 ≠ .error .outsideCalendar

/-- A session can be neither stored nor changed when the default goes beyond the last instant. -/
theorem writes_can_leave_calendar :
    ((keeping 1).put ⟨"x"⟩ (fresh "x") [] Time.last).2 = .error .outsideCalendar ∧
      (onTheEve.putDelta ⟨"x"⟩ parting [] brink).2 = .error .outsideCalendar ∧
      ¬WritesStayInCalendar := by
  have hfails : ((keeping 1).put ⟨"x"⟩ (fresh "x") [] Time.last).2 = .error .outsideCalendar := by
    decide +kernel
  refine ⟨hfails, by decide +kernel, fun h => ?_⟩
  exact (h (keeping 1) ⟨"x"⟩ (fresh "x") [] Time.last .binary nofun
    (fun e he => Option.some.inj he ▸ by decide)).1 hfails

end Store

end Sessions
