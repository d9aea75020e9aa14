import Sessions.Proofs.Codec.Restoring
import Sessions.Proofs.Expiry.Deadline
import Sessions.Proofs.Store.Ledger

/-!
# A delta is stored as the payload that it makes

A store dates a full payload by the record that its hook decodes, and a delta by the record that the
delta was merged into, which it has at hand. Where the hook reads payloads with the codec of the
store, both are the same record but for its handles and for what its values come back as, so the
store that is left is the same either way (`putDelta_eq_put`). A hook without a codec has no opinion
on payloads, but it has one on records.
-/

namespace Sessions

/-- A part of a policy that looks at what a record says, not at the handles that hold its values. -/
def CustomPolicy.Extensional (q : CustomPolicy) : Prop :=
  ∀ (s t : Session) (now : Time), s.Alike t →
    (∀ name, t.attributes.value? name = s.attributes.value? name) →
      q.remaining t now = q.remaining s now

namespace Store

variable {st : Store} {id : Ident} {stored delta payload : Bytes} {old due : Option (Time × Action)}
  {base merged : Session} {keys : List IndexKey} {now : Time}

/-- A hook that judges the merged record as it judges its payload: it reads payloads with the given
codec, or it has no codec and no opinion on the record either. The parts that users have brought go
by what the record says, and its values come back from their texts as they are. -/
structure Judges (h : Hook) (c : Codec) (merged : Session) (now : Time) : Prop where
  codec : h.codec = some c ∨ h.codec = none ∧ h.policy.evaluate merged now = none
  customs : ∀ q ∈ h.policy.customs, q.Extensional ∧
    ∀ name value, merged.attributes.value? name = some value → value.ReadsBack

/-- **A payload is dated as the record that was merged for it.** -/
theorem payloadDeadline_merged (hc : st.codec.Restores) (hbase : st.codec.decode stored = .ok base)
    (hkind : base.kind = .deltaCapable) (hmerge : st.codec.merge base delta = (merged, .ok true))
    (hwritten : (st.codec.encodeFull merged).2 = .ok payload)
    (hhook : ∀ h ∈ st.hook, Judges h st.codec merged now) :
    st.payloadDeadline payload now = st.deadline (st.hook.bind (·.ofSession merged now)) now := by
  obtain ⟨t, hback, halike, hvalues⟩ := hc hbase hkind hmerge hwritten
  obtain ⟨header, hheader, hfull⟩ := hback.2
  rw [payloadDeadline, hheader, ok_bind]
  simp only [hfull, Bool.false_eq_true, if_false]
  cases hhook' : st.hook with
  | none => rfl
  | some h =>
    obtain ⟨hcodec, hcustoms⟩ := hhook h hhook'
    suffices hopinion : h.ofPayload payload now = .ok (h.ofSession merged now) by
      simp only [hopinion, ok_bind, Option.bind_some]
    rcases hcodec with hcodec | ⟨hcodec, hnone⟩
    · have hsame : h.policy.evaluate t now = h.policy.evaluate merged now :=
        Policy.evaluate_congr halike.created halike.accessed halike.maxIdle h.policy fun q hq =>
          (hcustoms q hq).1 merged t now halike (hvalues (hcustoms q hq).2)
      rw [Hook.ofPayload, hcodec]
      simp only [hback.decode, ok_bind, Hook.ofSession, hsame]
    · rw [Hook.ofPayload, hcodec, Hook.ofSession, hnone, Option.map_none]

lemma livePayload_tidy (hst : st.standing id now = some (stored, old)) :
    (st.tidy now).livePayload id now = (st.tidy now, some stored) := by
  rw [← (settled_tidy now st).kept id now (Time.le_refl now)] at hst
  obtain ⟨e, he, hstands⟩ := Option.bind_eq_some_iff.1 hst
  have hlive : e.isExpired now ≠ true := by
    intro hexpired
    rw [Entry.standing_of_isExpired hexpired] at hstands
    cases hstands
  have hpayload := Entry.payload_of_standing now e
  rw [if_neg hlive, hstands] at hpayload
  rw [livePayload, he]
  simp only [hlive, Bool.false_eq_true, if_false, hpayload, Option.map_some]

/-- **Storing a delta is storing the payload that it makes.** The store that is left is the same, so
the entry has the same deadline and action; and one of the two fails if the other does. -/
theorem putDelta_eq_put (hc : st.codec.Restores) (hst : st.standing id now = some (stored, old))
    (hbase : st.codec.decode stored = .ok base) (hkind : base.kind = .deltaCapable)
    (hmerge : st.codec.merge base delta = (merged, .ok true))
    (hwritten : (st.codec.encodeFull merged).2 = .ok payload)
    (hhook : ∀ h ∈ st.hook, Judges h st.codec merged now) :
    (st.putDelta id delta keys now).1 = (st.put id payload keys now).1 ∧
      (st.putDelta id delta keys now).2 = (st.put id payload keys now).2.map fun _ => true := by
  have hsettings := (settled_tidy now st).settings
  have hdated : st.payloadDeadline payload now =
      st.deadline (st.hook.bind (·.ofSession merged now)) now :=
    payloadDeadline_merged hc hbase hkind hmerge hwritten hhook
  have hmerged : st.mergeDelta id stored delta now =
      (st.payloadDeadline payload now).map fun due => (payload, due) := by
    rw [mergeDelta, hbase, ok_bind, hmerge, hdated]
    cases hdue : st.deadline (st.hook.bind (·.ofSession merged now)) now with
    | error e =>
      simp only [ok_bind, if_true, hdue]
      rfl
    | ok due => simp only [ok_bind, if_true, hdue, hwritten, Except.map]
  rw [putDelta, livePayload_tidy hst, put]
  simp only [mergeDelta_congr hsettings, payloadDeadline_congr hsettings, hmerged]
  cases st.payloadDeadline payload now with
  | error e => exact ⟨rfl, rfl⟩
  | ok due => exact ⟨rfl, rfl⟩

end Store

/-! ### A visit that is stored as a delta -/

namespace Sample

def hooked (hook : Hook) : Store :=
  ((Store.create twoDeep (some hook) none .zero .epoch).put ⟨"x"⟩ (fresh "x") [] .epoch).1

def visitBase : Session := (twoDeep.decode (fresh "x")).toOption.getD default

def visitTime : Time := ⟨30000000000, by decide⟩

def visitDelta (value : Json) : Bytes :=
  (Binary.delta ((Edit.set "k" value).apply visitTime
    ((Session.create ⟨"x"⟩ .epoch .deltaCapable).commit.touch visitTime))).toOption.getD []

def visitMerged (value : Json) : Session := (twoDeep.merge visitBase (visitDelta value)).1

def visitPayload (value : Json) : Bytes :=
  (twoDeep.encodeFull (visitMerged value)).2.toOption.getD []

/-- Sessions that belong to someone are kept for an hour, and others for a minute after their last
access. -/
def byOwner : Policy :=
  .firstOf [.custom ⟨fun s _ => if s.principal.isSome then some (.ofSeconds 3600) else none,
    .invalidate⟩, .idle ⟨some (.ofSeconds 60), .destroy⟩]

/-- A double that comes back as another one, which comes back as yet another one. -/
def wandering : Json := .double ⟨false, 5226610862026310434, by decide⟩

/-- Sessions are kept for a minute while they have a certain double. -/
def byDouble : Policy :=
  .custom ⟨fun s _ =>
    if s.attributes.value? "k" = some wandering.echo then some (.ofSeconds 60) else none, .destroy⟩

lemma decode_visitBase : twoDeep.decode (fresh "x") = .ok visitBase := by
  have hok : (twoDeep.decode (fresh "x")).toOption.isSome = true := by decide +kernel
  rw [visitBase]
  cases hread : twoDeep.decode (fresh "x") with
  | error e =>
    rw [hread] at hok
    cases hok
  | ok s => rfl

lemma kind_visitBase : visitBase.kind = .deltaCapable := by decide +kernel

lemma merge_visit {value : Json} (h : (twoDeep.merge visitBase (visitDelta value)).2 = .ok true) :
    twoDeep.merge visitBase (visitDelta value) = (visitMerged value, .ok true) :=
  Prod.ext rfl h

lemma exists_standing {hook : Hook}
    (h : ((hooked hook).standing ⟨"x"⟩ visitTime).map Prod.fst = some (fresh "x")) :
    ∃ old, (hooked hook).standing ⟨"x"⟩ visitTime = some (fresh "x", old) := by
  obtain ⟨⟨payload, old⟩, hsome, rfl⟩ := Option.map_eq_some_iff.1 h
  exact ⟨old, hsome⟩

lemma judges_byOwner :
    Store.Judges ⟨byOwner, some twoDeep⟩ twoDeep (visitMerged (.int 1)) visitTime := by
  refine ⟨.inl rfl, fun q hq => ?_⟩
  obtain rfl := List.mem_singleton.1 hq
  refine ⟨fun s t now halike _ => ?_, fun name value hvalue => ?_⟩
  · simp only [halike.principal]
  · have hentries : (visitMerged (.int 1)).attributes.entries = [("k", .int 1)] := by
      decide +kernel
    have hmem := Attributes.exists_mem_entries hvalue
    rw [hentries, List.mem_singleton] at hmem
    obtain ⟨-, rfl⟩ := Prod.mk.inj hmem
    have hback : Json.read (Json.int 1).bytes = .ok (.int 1) := by decide +kernel
    exact hback

end Sample

namespace Store

open Sample

theorem putDelta_eq_put_visit :
    ∃ old, (hooked ⟨byOwner, some twoDeep⟩).standing ⟨"x"⟩ visitTime = some (fresh "x", old) ∧
      ((hooked ⟨byOwner, some twoDeep⟩).putDelta ⟨"x"⟩ (visitDelta (.int 1)) [] visitTime).1 =
        ((hooked ⟨byOwner, some twoDeep⟩).put ⟨"x"⟩ (visitPayload (.int 1)) [] visitTime).1 ∧
      ((hooked ⟨byOwner, some twoDeep⟩).put ⟨"x"⟩ (visitPayload (.int 1)) []
        visitTime).1.deadlineOf ⟨"x"⟩ = some ⟨90000000000, by decide⟩ := by
  have hstands : ((hooked ⟨byOwner, some twoDeep⟩).standing ⟨"x"⟩ visitTime).map Prod.fst =
      some (fresh "x") := by decide +kernel
  have hmerge := merge_visit (by decide +kernel : (twoDeep.merge visitBase
    (visitDelta (.int 1))).2 = .ok true)
  have hwritten : (twoDeep.encodeFull (visitMerged (.int 1))).2 = .ok (visitPayload (.int 1)) := by
    decide +kernel
  have hhook : ∀ h ∈ (hooked ⟨byOwner, some twoDeep⟩).hook,
      Judges h twoDeep (visitMerged (.int 1)) visitTime := by
    intro h hh
    obtain rfl := Option.some.inj hh
    exact judges_byOwner
  obtain ⟨old, hst⟩ := exists_standing hstands
  obtain ⟨hsame, -⟩ := putDelta_eq_put builtIn_twoDeep.restores hst decode_visitBase kind_visitBase
    hmerge hwritten hhook
  exact ⟨old, hst, hsame, by decide +kernel⟩

/-- Deltas and payloads are dated alike by all stores whose hook is of a kind. -/
def DatesAlike (asked : Codec → Hook → Prop) : Prop :=
  ∀ (st : Store) (id : Ident) (stored delta payload : Bytes) (old : Option (Time × Action))
    (base merged : Session) (keys : List IndexKey) (now : Time), st.codec.BuiltIn →
    (∀ h ∈ st.hook, asked st.codec h) → st.standing id now = some (stored, old) →
    st.codec.decode stored = .ok base → base.kind = .deltaCapable →
    st.codec.merge base delta = (merged, .ok true) →
    (st.codec.encodeFull merged).2 = .ok payload →
      (st.putDelta id delta keys now).1.deadlineOf id = (st.put id payload keys now).1.deadlineOf id

/-- A hook without a codec leaves a payload to the default, and decides on the record that a delta
was merged into. And a policy that looks at a double may see another one in the payload. -/
theorem deadlines_can_differ :
    ¬DatesAlike (fun _ h => h.codec = none) ∧ ¬DatesAlike (fun c h => h.codec = some c) := by
  constructor
  · intro h
    have hstands : ((hooked ⟨byOwner, none⟩).standing ⟨"x"⟩ visitTime).map Prod.fst =
        some (fresh "x") := by decide +kernel
    have hmerge := merge_visit (by decide +kernel : (twoDeep.merge visitBase
      (visitDelta (.int 1))).2 = .ok true)
    obtain ⟨old, hst⟩ := exists_standing hstands
    have hsame := h (hooked ⟨byOwner, none⟩) ⟨"x"⟩ (fresh "x") (visitDelta (.int 1))
      (visitPayload (.int 1)) old visitBase (visitMerged (.int 1)) [] visitTime builtIn_twoDeep
      (fun h hh => Option.some.inj hh ▸ rfl) hst decode_visitBase kind_visitBase hmerge
      (by decide +kernel)
    revert hsame
    decide +kernel
  · intro h
    have hstands : ((hooked ⟨byDouble, some twoDeep⟩).standing ⟨"x"⟩ visitTime).map Prod.fst =
        some (fresh "x") := by decide +kernel
    have hmerge := merge_visit (by decide +kernel : (twoDeep.merge visitBase
      (visitDelta wandering)).2 = .ok true)
    obtain ⟨old, hst⟩ := exists_standing hstands
    have hsame := h (hooked ⟨byDouble, some twoDeep⟩) ⟨"x"⟩ (fresh "x") (visitDelta wandering)
      (visitPayload wandering) old visitBase (visitMerged wandering) [] visitTime builtIn_twoDeep
      (fun h hh => Option.some.inj hh ▸ rfl) hst decode_visitBase kind_visitBase hmerge
      (by decide +kernel)
    revert hsame
    decide +kernel

end Store

end Sessions
