import Mathlib.Data.List.Basic
import Sessions.Proofs.Sharing.Basic

/-!
# Index keys of shared sessions

Whenever an entry is written, its index keys are those of the copy whose save wrote it. If that save
was merged into the stored record, the copy may be out of date in attributes that it did not change,
and then the keys are not those of the record that the entry holds. They are as long as no copy is
saved that is out of date in an indexable attribute.
-/

namespace Sessions

namespace IndexKey

variable {s t : Session} {names : List String}

lemma ofAttribute_congr {name : String} {v w : Json} (hname : name ≠ principalAttribute)
    (h : v.bytes = w.bytes) : ofAttribute name v = ofAttribute name w := by
  have htext : ∀ u : Json, attributeText name u = "attr:" ++ name ++ ":" ++ u.render := by
    intro u
    cases u <;> simp [attributeText, hname]
  rw [ofAttribute, ofAttribute, htext, htext, Utf8.encode_injective h]

lemma ofSession_congr (hprincipal : t.principal = s.principal)
    (htexts : ∀ name ∈ names, name ≠ principalAttribute →
      (t.attributes.value? name).map Json.bytes = (s.attributes.value? name).map Json.bytes) :
    ofSession t names = ofSession s names := by
  have hkey : ∀ name ∈ names,
      (if name = principalAttribute then none
        else (t.attributes.value? name).map (ofAttribute name)) =
      if name = principalAttribute then none
        else (s.attributes.value? name).map (ofAttribute name) := by
    intro name hmem
    by_cases hname : name = principalAttribute
    · rw [if_pos hname, if_pos hname]
    · rw [if_neg hname, if_neg hname]
      have htext := htexts name hmem hname
      cases ht : t.attributes.value? name with
      | none =>
        cases hs : s.attributes.value? name with
        | none => rfl
        | some v => rw [ht, hs] at htext; cases htext
      | some w =>
        cases hs : s.attributes.value? name with
        | none => rw [ht, hs] at htext; cases htext
        | some v =>
          rw [ht, hs] at htext
          exact congrArg some (ofAttribute_congr hname (Option.some.inj htext))
  rw [ofSession, ofSession, hprincipal, List.filterMap_congr hkey]

end IndexKey

namespace Session

variable {s base : Session} {name : String}

/-- The value of the record under a name comes back with the same text. -/
def SteadyAt (s : Session) (name : String) : Prop :=
  ∀ value ∈ s.attributes.value? name, value.Steady

instance (s : Session) (name : String) : Decidable (s.SteadyAt name) := by
  unfold SteadyAt
  infer_instance

/-- A steady value has the same text after it was written and read. -/
lemma SteadyAt.text_echoed (h : s.SteadyAt name) :
    (s.echoed.attributes.value? name).map Json.bytes =
      (s.attributes.value? name).map Json.bytes := by
  change (s.attributes.echoed.value? name).map Json.bytes = _
  rw [Attributes.value?_echoed]
  cases hv : s.attributes.value? name with
  | none => rfl
  | some value => exact congrArg some (h value hv)

lemma SteadyAt.congr (h : s.SteadyAt name)
    (htext : (base.attributes.value? name).map Json.bytes =
      (s.attributes.value? name).map Json.bytes) : base.SteadyAt name := by
  intro value hvalue
  rw [hvalue] at htext
  obtain ⟨v, hv, hbytes⟩ := Option.map_eq_some_iff.1 htext.symm
  exact (h v hv).congr hbytes.symm

end Session

namespace Sharing

variable {names : List String} {w : Sharing}

/-- The copy's value under a name comes back with the same text and, where the copy would be merged
and has not changed it, is the stored one. -/
def UpToDateAt (w : Sharing) (s : Session) (name : String) : Prop :=
  s.SteadyAt name ∧
    (s.hasDelta = true → s.needsFullWrite = false → name ∉ s.attributes.changedNames →
      ∀ base ∈ w.repo.store.record? s.id w.now,
        (base.attributes.value? name).map Json.bytes =
          (s.attributes.value? name).map Json.bytes)

instance (w : Sharing) (s : Session) (name : String) : Decidable (w.UpToDateAt s name) := by
  unfold UpToDateAt
  infer_instance

/-- The copy is up to date in its indexable attributes. The principal has a key of its own. -/
def KeysUpToDate (w : Sharing) (s : Session) : Prop :=
  ∀ name ∈ w.repo.indexable, name = principalAttribute ∨ w.UpToDateAt s name

instance (w : Sharing) (s : Session) : Decidable (w.KeysUpToDate s) := by
  unfold KeysUpToDate
  infer_instance

/-- What holds of the keys of each entry in every run. -/
structure KeysOfSaver (names : List String) (w : Sharing) : Prop where
  binary : OnBinary names w
  entries : ∀ id payload keys due, w.repo.store.find? id = some (.live payload keys due) →
    ∃ s, w.lastStored id = some s ∧ keys = IndexKey.ofSession s names ∧
      ∀ t, Codec.binary.decode payload = .ok t → t.principal = s.principal

lemma KeysOfSaver.act (h : KeysOfSaver names w) (d : Deed) : KeysOfSaver names (w.act d) := by
  refine ⟨h.binary.act d, fun id payload keys due hlive => ?_⟩
  rcases live_act h.binary d hlive with ⟨hlive, hlast⟩ | ⟨i, s, -, hs, -, -, hkeys, hlast, hleaves⟩
  · rw [hlast]
    exact h.entries id payload keys due hlive
  · obtain ⟨hform, hprincipal⟩ := h.binary.copies i s hs
    refine ⟨s, hlast, hkeys, fun t hdec => ?_⟩
    rcases hleaves.decoded hform hprincipal hdec with rfl | ⟨base, -, -, -, rfl⟩
    · rfl
    · rfl

lemma keysOfSaver_run (hook : Option Hook) (expiry : Option Expiry) (retention maxIdle : Duration)
    (names : List String) (rule : ChangeRule) (now : Time) (deeds : List Deed) :
    KeysOfSaver names ((start .binary hook expiry retention maxIdle names rule now).run deeds) := by
  have hstart : KeysOfSaver names (start .binary hook expiry retention maxIdle names rule now) :=
    ⟨onBinary_start hook expiry retention maxIdle names rule now, fun _ _ _ _ h => nomatch h⟩
  exact run_induction (fun _ d h _ => h.act d) hstart (through_true _ deeds)

/-- What holds of the keys of each entry as long as no copy is saved that is out of date. -/
structure KeysInStep (names : List String) (w : Sharing) : Prop where
  binary : OnBinary names w
  entries : ∀ id payload keys due, w.repo.store.find? id = some (.live payload keys due) →
    ∀ t, Codec.binary.decode payload = .ok t → keys = IndexKey.ofSession t names

/-- A save of a copy that is up to date stores a record with the same keys. -/
lemma keys_of_leaves (h : OnBinary names w) {s t : Session} {payload : Bytes}
    (hform : s.WellFormed) (hprincipal : s.principal ≠ some "") (hcurrent : w.KeysUpToDate s)
    (hdue : s.hasDelta = true ∨ s.needsFullWrite = true)
    (hleaves : Repository.Leaves w.repo.store s w.now payload)
    (hdec : Codec.binary.decode payload = .ok t) :
    IndexKey.ofSession t names = IndexKey.ofSession s names := by
  rw [KeysUpToDate, h.indexable] at hcurrent
  rcases hleaves.decoded hform hprincipal hdec with rfl | ⟨base, hneeds, hbase, -, rfl⟩
  · refine IndexKey.ofSession_congr rfl fun name hmem hname => ?_
    rw [(Session.agrees_reloaded s.echoed).values]
    exact ((hcurrent name hmem).resolve_left hname).1.text_echoed
  · refine IndexKey.ofSession_congr rfl fun name hmem hname => ?_
    obtain ⟨hsteady, hrest⟩ := (hcurrent name hmem).resolve_left hname
    -- the patched record has the copy's text under the name, changed or not
    have htext : ((base.patched s.echoed).attributes.value? name).map Json.bytes =
        (s.attributes.value? name).map Json.bytes := by
      rw [Session.value?_patched]
      change (if name ∈ s.attributes.changedNames then s.echoed.attributes.value? name
        else base.attributes.value? name).map Json.bytes = _
      by_cases hchanged : name ∈ s.attributes.changedNames
      · rw [if_pos hchanged]
        exact hsteady.text_echoed
      · rw [if_neg hchanged]
        exact hrest (by simpa [hneeds] using hdue) hneeds hchanged base hbase
    rw [(Session.agrees_reloaded (base.patched s.echoed).echoed).values,
      (hsteady.congr htext).text_echoed, htext]

lemma KeysInStep.act (h : KeysInStep names w) (d : Deed) (hcurrent : Saves KeysUpToDate w d) :
    KeysInStep names (w.act d) := by
  refine ⟨h.binary.act d, fun id payload keys due hlive t hdec => ?_⟩
  rcases live_act h.binary d hlive with ⟨hlive, -⟩ | ⟨i, s, rfl, hs, -, hdue, rfl, -, hleaves⟩
  · exact h.entries id payload keys due hlive t hdec
  · obtain ⟨hform, hprincipal⟩ := h.binary.copies i s hs
    exact (keys_of_leaves h.binary hform hprincipal (hcurrent s hs) hdue hleaves hdec).symm

/-- **The index keys of an entry are those of the copy whose save wrote it**, and the principal of
the stored record is that copy's. They are the keys of the stored record if no copy was saved that
was out of date in an indexable attribute. -/
theorem keys_of_entries (hook : Option Hook) (expiry : Option Expiry) (retention maxIdle : Duration)
    (names : List String) (rule : ChangeRule) (now : Time) (deeds : List Deed) {id : Ident}
    {payload : Bytes} {keys : List IndexKey} {due : Option (Time × Action)} {t : Session}
    (hlive : ((start .binary hook expiry retention maxIdle names rule now).run
      deeds).repo.store.find? id = some (.live payload keys due))
    (hdec : Codec.binary.decode payload = .ok t) :
    (∃ s, ((start .binary hook expiry retention maxIdle names rule now).run
        deeds).lastStored id = some s ∧
      keys = IndexKey.ofSession s names ∧ t.principal = s.principal) ∧
      (Through (Saves KeysUpToDate)
          (start .binary hook expiry retention maxIdle names rule now) deeds →
        keys = IndexKey.ofSession t names) := by
  constructor
  · have hrun := keysOfSaver_run hook expiry retention maxIdle names rule now deeds
    obtain ⟨s, hlast, hkeys, hprincipal⟩ := hrun.entries id payload keys due hlive
    exact ⟨s, hlast, hkeys, hprincipal t hdec⟩
  · intro hcurrent
    have hstep : KeysInStep names (start .binary hook expiry retention maxIdle names rule now) :=
      ⟨onBinary_start hook expiry retention maxIdle names rule now, fun _ _ _ _ h => nomatch h⟩
    have hrun := run_induction (fun _ d h hd => h.act d hd) hstep hcurrent
    exact hrun.entries id payload keys due hlive t hdec

end Sharing

/-! ### Two holders -/

namespace Sample

/-- An empty repository whose sessions can be found by tenant. -/
def tenants : Sharing :=
  .start .binary none none .zero (.ofSeconds 1800) ["tenant"] .identity start

/-- A second copy changes another attribute while the first holder's tenant is already stored. -/
def inTurn : List Deed :=
  [.create 0 ⟨"x"⟩, .edit 0 (.set "tenant" (.str "acme")), .save 0, .load 1 ⟨"x"⟩ false,
    .edit 1 (.set "k" (.int 1)), .save 1]

/-- The same changes, but the second copy was loaded before the tenant was stored. -/
def overtaken : List Deed :=
  [.create 0 ⟨"x"⟩, .save 0, .load 1 ⟨"x"⟩ false, .edit 0 (.set "tenant" (.str "acme")), .save 0,
    .edit 1 (.set "k" (.int 1)), .save 1]

def liveX (w : Sharing) : Option (Session × List IndexKey) :=
  match w.repo.store.find? ⟨"x"⟩ with
  | some (.live payload keys _) => (Codec.binary.decode payload).toOption.map fun t => (t, keys)
  | _ => none

lemma exists_of_liveX {w : Sharing} {t : Session} {keys : List IndexKey}
    (h : liveX w = some (t, keys)) : ∃ payload due,
      w.repo.store.find? ⟨"x"⟩ = some (.live payload keys due) ∧
        Codec.binary.decode payload = .ok t := by
  unfold liveX at h
  split at h
  next payload held due hfind =>
    cases hdec : Codec.binary.decode payload with
    | error e => simp [hdec, Except.toOption] at h
    | ok u =>
      simp only [hdec, Except.toOption, Option.map_some, Option.some.injEq, Prod.mk.injEq] at h
      obtain ⟨rfl, rfl⟩ := h
      exact ⟨payload, due, hfind, hdec⟩
  next => cases h

end Sample

namespace Sharing

open Sample

theorem keys_of_entries_in_turn :
    Through (Saves KeysUpToDate) tenants inTurn ∧ ∃ payload keys due t,
      (tenants.run inTurn).repo.store.find? ⟨"x"⟩ = some (.live payload keys due) ∧
        Codec.binary.decode payload = .ok t ∧ keys.length = 1 ∧
        t.attributes.value? "k" = some (.int 1) ∧ keys = IndexKey.ofSession t ["tenant"] := by
  have hcurrent : Through (Saves KeysUpToDate) tenants inTurn := by decide +kernel
  have hlength : (liveX (tenants.run inTurn)).map (fun x => x.2.length) = some 1 := by
    decide +kernel
  have hvalue : (liveX (tenants.run inTurn)).map (fun x => x.1.attributes.value? "k") =
      some (some (.int 1)) := by decide +kernel
  obtain ⟨⟨t, keys⟩, hx, hone⟩ := Option.map_eq_some_iff.1 hlength
  rw [hx] at hvalue
  obtain ⟨payload, due, hlive, hdec⟩ := exists_of_liveX hx
  refine ⟨hcurrent, payload, keys, due, t, hlive, hdec, hone, Option.some.inj hvalue, ?_⟩
  rw [tenants] at hlive hcurrent
  exact (keys_of_entries none none .zero (.ofSeconds 1800) ["tenant"] .identity Sample.start inTurn
    hlive hdec).2 hcurrent

/-- The second copy's save takes the first holder's tenant out of the index, and leaves it in the
record. -/
theorem keys_can_be_stale :
    ¬∀ (hook : Option Hook) (expiry : Option Expiry) (retention maxIdle : Duration)
      (names : List String) (rule : ChangeRule) (now : Time) (deeds : List Deed) (id : Ident)
      (payload : Bytes) (keys : List IndexKey) (due : Option (Time × Action)) (t : Session),
      ((start .binary hook expiry retention maxIdle names rule now).run deeds).repo.store.find? id =
          some (.live payload keys due) →
        Codec.binary.decode payload = .ok t → keys = IndexKey.ofSession t names := by
  intro h
  have hkeys : (liveX (tenants.run overtaken)).map (fun x => x.2.length) = some 0 := by
    decide +kernel
  have htenant : (liveX (tenants.run overtaken)).map
      (fun x => (IndexKey.ofSession x.1 ["tenant"]).length) = some 1 := by decide +kernel
  obtain ⟨⟨t, keys⟩, hx, hnone⟩ := Option.map_eq_some_iff.1 hkeys
  rw [hx] at htenant
  obtain ⟨payload, due, hlive, hdec⟩ := exists_of_liveX hx
  rw [tenants] at hlive
  have hsame := h none none .zero (.ofSeconds 1800) ["tenant"] .identity Sample.start overtaken
    ⟨"x"⟩ payload keys due t hlive hdec
  have hone : (IndexKey.ofSession t ["tenant"]).length = 1 := Option.some.inj htenant
  rw [← hsame] at hone
  exact absurd (hnone.symm.trans hone) Nat.zero_ne_one

end Sharing

end Sessions
