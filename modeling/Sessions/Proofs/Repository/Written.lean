import Sessions.Proofs.Changes
import Sessions.Proofs.Codec.BuiltIn
import Sessions.Proofs.Repository.Steps

/-!
# Saves that succeed

What a successful write leaves in the store: a payload from which the record comes back whole, or
the entry that stood there before, patched with all that the record had noted.
-/

namespace Sessions

open Store (Settled)

variable {limit : Nat} {s s' t base : Session}

namespace Session

/-- Whether a record read from a store has all that is noted in the one that was written. -/
structure Carries (s t : Session) : Prop where
  id : t.id = s.id
  kind : t.kind = s.kind
  accessed : t.accessed = max s.accessed t.created
  maxIdle : t.maxIdle = .ofSeconds s.maxIdle.wholeSeconds
  principal : t.principal = s.principal
  changes : ∀ name ∈ s.attributes.changedNames, t.attributes.value? name = s.attributes.value? name

lemma Agrees.carries (h : Agrees s t) (horder : s.created ≤ s.accessed) : Carries s t where
  id := h.id
  kind := h.kind
  accessed := by rw [h.accessed, h.created, Time.max_eq_left horder]
  maxIdle := h.maxIdle
  principal := h.principal
  changes name _ := h.values name

lemma carries_patched (hid : base.id = s.id) (hkind : base.kind = s.kind) :
    Carries s (base.patched s) where
  id := hid
  kind := hkind
  accessed := rfl
  maxIdle := rfl
  principal := rfl
  changes name hname := by rw [value?_patched, if_pos hname]

lemma Carries.trans_agrees {u : Session} (hst : Carries s t) (htu : Agrees t u) : Carries s u where
  id := by rw [htu.id, hst.id]
  kind := by rw [htu.kind, hst.kind]
  accessed := by rw [htu.accessed, htu.created, ← hst.accessed]
  maxIdle := by rw [htu.maxIdle, hst.maxIdle, Duration.wholeSeconds_ofSeconds]
  principal := by rw [htu.principal, hst.principal]
  changes name hname := by rw [htu.values, hst.changes name hname]

lemma Sound.patched (hbase : base.Sound limit) (hs : s.Sound limit) :
    (base.patched s).Sound limit :=
  { hbase.wellFormed.patched hs.wellFormed with
    principal := hs.principal
    values := fun name value hv => by
      rw [value?_patched] at hv
      split at hv
      · exact hs.values name value hv
      · exact hbase.values name value hv }

end Session

/-- An entry that stands under the id is a record with that id, of the given kind, that reads back
as it is written. -/
def Store.ReadsBack (st : Store) (kind : Kind) (limit : Nat) (id : Ident) (now : Time) : Prop :=
  ∀ payload due, st.standing id now = some (payload, due) →
    ∃ base, st.codec.decode payload = .ok base ∧ base.id = id ∧ base.kind = kind ∧
      base.Sound limit

namespace Repository

variable {r r' : Repository} {now : Time}

/-- **What a successful write stores** reads back as the record itself, or as the former entry with
the record's changes. -/
theorem Writes.stored (hc : r.codec.Faithful s.kind limit) (hstore : r.store.codec = r.codec)
    (hs : s.Sound limit)
    (hentry : ∀ payload due, r.store.standing s.id now = some (payload, due) →
      ∃ base, r.codec.decode payload = .ok base ∧ base.id = s.id ∧ base.kind = s.kind ∧
        (base.patched s).Sound limit)
    (h : Writes r s now (r', s', .ok ())) :
    s' = s.commit ∧ ∃ payload keys due mid t,
      r' = { r with store := mid.insert s.id (.live payload keys due) } ∧
        Settled now r.store mid ∧ r.codec.decode payload = .ok t ∧
        (s.Agrees t ∨ ∃ stored old base, r.store.standing s.id now = some (stored, old) ∧
          r.codec.decode stored = .ok base ∧ (base.patched s).Agrees t) := by
  cases h with
  | whole henc hread hfull hdl hmid =>
    obtain rfl := hc.lawful.encode_ok henc
    exact ⟨rfl, _, _, _, _, _, rfl, hmid, hc.full hs rfl henc hread hfull,
      .inl s.agrees_reloaded⟩
  | resent henc _ hfull hdl hmid =>
    obtain rfl := hc.lawful.encode_ok henc
    have hdec := hc.whole hs.commit rfl hfull
    obtain rfl := hc.lawful.encodeFull_ok hfull
    exact ⟨s.commit_commit, _, _, _, _, _, rfl, hmid, hdec,
      .inl (Session.agrees_commit.1 s.commit.agrees_reloaded)⟩
  | merged henc hread hdelta hold hmerge hmid =>
    obtain rfl := hc.lawful.encode_ok henc
    obtain ⟨base, hbase, hid, hkind, hsound⟩ := hentry _ _ hold
    have hpatch := (hc.delta base hs rfl henc hread hdelta).2 hid
    obtain ⟨u, merged, hu, hmerged, -, hfull⟩ := Store.exists_of_mergeDelta hmerge
    rw [hstore, hbase] at hu
    obtain rfl := Except.ok.inj hu
    rw [hstore, hpatch] at hmerged
    obtain ⟨rfl, -⟩ := Prod.mk.inj hmerged
    rw [hstore] at hfull
    exact ⟨rfl, _, _, _, _, _, rfl, hmid, hc.whole hsound hkind (Prod.ext rfl hfull),
      .inr ⟨_, _, base, hold, hbase, (base.patched s).agrees_reloaded⟩⟩

/-- From a time on, the record is found under the id, until the deadline of the entry there and as
long as the record is not idle. -/
def Finds (r : Repository) (id : Ident) (t : Session) (now : Time) : Prop :=
  ∀ later, now ≤ later → ∃ found, (r.find id later).2 = .ok found ∧
    (found.isSome = true ↔ (∀ due, r.store.deadlineOf id = some due → later < due) ∧
      t.isExpired later = false) ∧
    ∀ u, found = some u → u = (t.withRule r.rule).touch later

/-- A save that succeeds without finding the record idle, over a store that shares its codec and
in which whatever stands under the record's id reads back. -/
structure Stores (r : Repository) (limit : Nat) (s : Session) (now : Time) (r' : Repository)
    (s' : Session) : Prop where
  codec : r.store.codec = r.codec
  entry : r.store.ReadsBack s.kind limit s.id now
  save : r.save s now = (r', s', .ok ())
  live : s'.phase ≠ .expired

lemma Stores.isEnded (h : r.Stores limit s now r' s') : s.phase.isEnded = false := by
  have hcases := save_cases r s now
  rw [h.save] at hcases
  cases hcases with
  | expired hopen _ _ => exact hopen
  | skipped hopen _ _ _ => exact hopen
  | written hopen _ _ _ => exact hopen

/-- **A save brings every change that was noted into what is found** from then on. -/
theorem Stores.finds (h : r.Stores limit s now r' s') (hc : r.codec.Faithful s.kind limit)
    (hs : s.Sound limit) (hdue : s.hasDelta = true ∨ s.needsFullWrite = true) :
    ∃ t, s.Carries t ∧ r'.Finds s.id t now := by
  have hcases := save_cases r s now
  rw [h.save] at hcases
  cases hcases with
  | expired _ _ _ => exact absurd rfl h.live
  | skipped _ _ hdelta hfull => simp [hdelta, hfull] at hdue
  | written hopen hlive _ hwrite =>
    have hcodec := (setUpAs_vacate r s).codec
    have hstore : (r.vacate s).store.codec = r.codec :=
      (setUpAs_vacate r s).storeCodec.trans h.codec
    have hentry : ∀ payload due, (r.vacate s).store.standing s.id now = some (payload, due) →
        ∃ base, (r.vacate s).codec.decode payload = .ok base ∧ base.id = s.id ∧
          base.kind = s.kind ∧ base.Sound limit := by
      intro payload due hst
      rw [standing_vacate] at hst
      split at hst
      · cases hst
      · rw [hcodec, ← h.codec]
        exact h.entry payload due hst
    obtain ⟨-, payload, keys, due, mid, t, rfl, -, hdec, hagrees⟩ :=
      hwrite.stored (hcodec ▸ hc) (hstore.trans hcodec.symm) hs fun payload due hst => by
        obtain ⟨base, hbase, hid, hkind, hsound⟩ := hentry payload due hst
        exact ⟨base, hbase, hid, hkind, hsound.patched hs⟩
    refine ⟨t, ?_, fun later _ => ?_⟩
    · rcases hagrees with hagrees | ⟨stored, old, base, hst, hbase, hagrees⟩
      · exact hagrees.carries hs.order
      · obtain ⟨other, hother, hid, hkind, -⟩ := hentry stored old hst
        obtain rfl := Except.ok.inj (hother.symm.trans hbase)
        exact (Session.carries_patched hid hkind).trans_agrees hagrees
    · rw [Store.deadlineOf_insert]
      exact find_of_entry ((Store.standing_insert s.id s.id payload keys due).trans (if_pos rfl))
        hdec

end Repository

end Sessions
