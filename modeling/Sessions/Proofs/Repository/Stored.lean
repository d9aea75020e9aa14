import Sessions.Proofs.Codec.Reading
import Sessions.Proofs.Repository.Storing

/-!
# What a save over the binary codec leaves in the store

A save that writes puts one payload under the record's id: the record's own full payload, or that
of the stored record with the changes that were noted merged into it. The rest of the store keeps
its live entries or loses them, and what is in an entry never changes on its own.
-/

namespace Sessions

open Store (Settled)

namespace Binary

variable {s : Session} {payload : Bytes} {header : Header}

lemma full_of_preferred (h : preferred s = .ok payload) (hread : Header.read payload = .ok header)
    (hheader : header.isDelta = false) :
    full s = .ok payload ∧ (s.kind = .plain ∨ s.needsFullWrite = true) := by
  unfold preferred at h
  split at h
  · rw [header_delta h] at hread
    obtain rfl := Except.ok.inj hread
    cases hheader
  next hcond =>
    refine ⟨h, ?_⟩
    cases hkind : s.kind with
    | plain => exact .inl rfl
    | deltaCapable => exact .inr (by simpa [hkind] using hcond)

lemma delta_of_preferred (h : preferred s = .ok payload) (hread : Header.read payload = .ok header)
    (hheader : header.isDelta = true) : delta s = .ok payload ∧ s.needsFullWrite = false := by
  unfold preferred at h
  split at h
  next hcond => exact ⟨h, by simpa using hcond.2⟩
  · rw [header_full h] at hread
    obtain rfl := Except.ok.inj hread
    cases hheader

end Binary

namespace Store

variable {st st' : Store} {id : Ident} {t u : Session} {now : Time}

def Holds (st : Store) (id : Ident) (t : Session) : Prop :=
  ∃ payload keys due, st.find? id = some (.live payload keys due) ∧
    Codec.binary.decode payload = .ok t

/-- The record that stands under an id. -/
def record? (st : Store) (id : Ident) (now : Time) : Option Session :=
  (st.standing id now).bind fun x => (Codec.binary.decode x.1).toOption

lemma holds_of_standing {payload : Bytes} {due : Option (Time × Action)}
    (hst : st.standing id now = some (payload, due)) (hdec : Codec.binary.decode payload = .ok t) :
    st.Holds id t := by
  obtain ⟨keys, hfind⟩ := find?_of_standing hst
  exact ⟨payload, keys, due, hfind, hdec⟩

lemma exists_of_record? (h : st.record? id now = some t) :
    ∃ payload due, st.standing id now = some (payload, due) ∧
      Codec.binary.decode payload = .ok t := by
  obtain ⟨⟨payload, due⟩, hst, hdec⟩ := Option.bind_eq_some_iff.1 h
  refine ⟨payload, due, hst, ?_⟩
  cases hread : Codec.binary.decode payload with
  | error e => simp [hread, Except.toOption] at hdec
  | ok u =>
    simp only [hread, Except.toOption, Option.some.injEq] at hdec
    rw [hdec]

lemma holds_of_record? (h : st.record? id now = some t) : st.Holds id t := by
  obtain ⟨payload, due, hst, hdec⟩ := exists_of_record? h
  exact holds_of_standing hst hdec

lemma Holds.standing (h : st.Holds id t) (hlive : (st.standing id now).isSome = true) :
    ∃ payload due, st.standing id now = some (payload, due) ∧
      Codec.binary.decode payload = .ok t := by
  obtain ⟨⟨payload, due⟩, hst⟩ := Option.isSome_iff_exists.1 hlive
  obtain ⟨held, keys, deadline, hfind, hdec⟩ := h
  obtain ⟨otherKeys, hother⟩ := find?_of_standing hst
  obtain ⟨rfl, -, -⟩ := Entry.live.inj (Option.some.inj (hfind.symm.trans hother))
  exact ⟨held, due, hst, hdec⟩

lemma Holds.eq_of_standing (h : st.Holds id t) {payload : Bytes} {due : Option (Time × Action)}
    (hst : st.standing id now = some (payload, due)) (hdec : Codec.binary.decode payload = .ok u) :
    u = t := by
  obtain ⟨held, deadline, hstands, hheld⟩ := h.standing (Option.isSome_of_eq_some hst)
  obtain ⟨rfl, -⟩ := Prod.mk.inj (Option.some.inj (hst.symm.trans hstands))
  exact Except.ok.inj (hdec.symm.trans hheld)

lemma Holds.record? (h : st.Holds id t) (hlive : (st.standing id now).isSome = true) :
    st.record? id now = some t := by
  obtain ⟨payload, due, hst, hdec⟩ := h.standing hlive
  rw [Store.record?, hst, Option.bind_some, hdec]
  rfl

lemma Holds.settled (h : st.Holds id t) (hlive : (st.standing id now).isSome = true)
    (hst : Settled now st st') : st'.Holds id t := by
  obtain ⟨payload, due, hstands, hdec⟩ := h.standing hlive
  exact holds_of_standing ((hst.kept id now (Time.le_refl now)).trans hstands) hdec

end Store

namespace Repository

variable {r : Repository} {s : Session} {now : Time}

/-- A repository of the binary codec, shared with its store. -/
structure OnBinary (r : Repository) : Prop where
  codec : r.codec = .binary
  store : r.store.codec = .binary

lemma OnBinary.lawful (h : r.OnBinary) : r.codec.Lawful := by
  rw [h.codec]
  exact Codec.lawful_binary

/-- What a save of a record may store: the whole record, if it is written whole or there is nothing
to merge it into, or the stored one with the changes. -/
inductive Leaves (st : Store) (s : Session) (now : Time) (payload : Bytes) : Prop
  | whole (hwhole : s.kind = .plain ∨ s.needsFullWrite = true ∨ st.standing s.id now = none)
      (hfull : Binary.full s = .ok payload)
  | merged {base : Session} (hneeds : s.needsFullWrite = false)
      (hbase : st.record? s.id now = some base) (hid : base.id = s.id)
      (hfull : Binary.full (base.patched s.echoed) = .ok payload)

/-- The ways in which a save can end, told by what they leave in the store. -/
inductive Leaving (r : Repository) (s : Session) (now : Time) :
    Repository × Session × Except Fault Unit → Prop
  | ended {e} : Leaving r s now (r, s, .error e)
  /-- Nothing was stored; a payload may have been produced. -/
  | failed {s' e st} (hst : Settled now (r.vacate s).store st) (hs' : s' = s ∨ s' = s.commit) :
      Leaving r s now ({ r with store := st }, s', .error e)
  /-- The record was found idle past its interval. -/
  | idle (hidle : s.isExpired now = true) :
      Leaving r s now (r.delete s.id, { s with phase := .expired }, .ok ())
  /-- There was nothing to write. -/
  | skipped (hopen : s.phase.isEnded = false) (hdelta : s.hasDelta = false)
      (hfull : s.needsFullWrite = false) : Leaving r s now (r, s, .ok ())
  | stored {payload due mid} (hopen : s.phase.isEnded = false)
      (hdue : s.hasDelta = true ∨ s.needsFullWrite = true)
      (hmid : Settled now (r.vacate s).store mid) (hleaves : Leaves r.store s now payload) :
      Leaving r s now
        ({ r with store := mid.insert s.id (.live payload (IndexKey.ofSession s r.indexable) due) },
          s.commit, .ok ())

/-- A merge reads the stored payload, applies the changes and writes the result whole. -/
lemma leaves_merged {st : Store} {delta stored payload : Bytes} {old due : Option (Time × Action)}
    (hst : st.codec = .binary) (hs : s.WellFormed) (hprincipal : s.principal ≠ some "")
    (hneeds : s.needsFullWrite = false) (hdelta : Binary.delta s = .ok delta)
    (hold : st.standing s.id now = some (stored, old))
    (hmerge : st.mergeDelta s.id stored delta now = .ok (payload, due)) :
    Leaves st s now payload := by
  obtain ⟨base, merged, hbase, hmerged, -, hfull⟩ := Store.exists_of_mergeDelta hmerge
  rw [hst] at hbase hmerged hfull
  obtain ⟨hid, -, rfl⟩ := (Binary.merge_delta_iff hs hprincipal hdelta).1 hmerged
  rw [Binary.encodeFull_snd] at hfull
  have hrecord : st.record? s.id now = some base := by
    rw [Store.record?, hold, Option.bind_some, hbase]
    rfl
  exact .merged hneeds hrecord hid hfull

lemma Puts.leaves {payload : Bytes} {due : Option (Time × Action)} (hr : r.OnBinary)
    (hs : s.WellFormed) (hprincipal : s.principal ≠ some "") (h : Puts r s now payload due) :
    Leaves r.store s now payload := by
  cases h with
  | whole henc hread hheader _ =>
    rw [hr.codec, Binary.encode_eq_ok] at henc
    obtain ⟨hfull, hwhole⟩ := Binary.full_of_preferred henc.1 hread hheader
    exact .whole (hwhole.imp_right .inl) hfull
  | merged henc hread hheader hold hmerge =>
    rw [hr.codec, Binary.encode_eq_ok] at henc
    obtain ⟨hdelta, hneeds⟩ := Binary.delta_of_preferred henc.1 hread hheader
    rw [vacate_of_full hneeds] at hold
    exact leaves_merged hr.store hs hprincipal hneeds hdelta hold hmerge
  | resent _ hnone hfull _ =>
    rw [hr.codec, Binary.encodeFull_eq_ok] at hfull
    have hwhole : s.needsFullWrite = true ∨ r.store.standing s.id now = none := by
      by_cases hneeds : s.needsFullWrite = true
      · exact .inl hneeds
      · rw [vacate_of_full (by simpa using hneeds)] at hnone
        exact .inr hnone
    exact .whole (.inr hwhole) hfull.1

/-- **Every way in which a save over the binary codec ends.** -/
theorem leaving_save (hr : r.OnBinary) (hs : s.WellFormed) (hprincipal : s.principal ≠ some "")
    (now : Time) : Leaving r s now (r.save s now) := by
  have hstoring := storing_save hr.lawful s now
  generalize r.save s now = outcome at hstoring
  cases hstoring with
  | ended _ => exact .ended
  | failed hst hs' => exact .failed hst hs'
  | idle _ _ hidle => exact .idle hidle
  | skipped hopen _ hdelta hfull => exact .skipped hopen hdelta hfull
  | stored hopen _ hdue hmid hputs =>
    exact .stored hopen hdue hmid (hputs.leaves hr hs hprincipal)

/-! ### Reading it back -/

lemma fresh_record? {st : Store} {id : Ident} {t : Session} (h : st.record? id now = some t) :
    t.Fresh ∧ t.principal ≠ some "" := by
  obtain ⟨payload, due, -, hdec⟩ := Store.exists_of_record? h
  exact Binary.fresh_read (Binary.decode_eq_ok.1 hdec)

/-- **What a stored payload is read as**, if it can be read: the record that was saved, or the
stored one with the changes, each value as it comes back. -/
theorem Leaves.decoded {st : Store} {payload : Bytes} {t : Session} (h : Leaves st s now payload)
    (hs : s.WellFormed) (hprincipal : s.principal ≠ some "")
    (hdec : Codec.binary.decode payload = .ok t) :
    t = s.echoed.reloaded ∨ ∃ base, s.needsFullWrite = false ∧ st.record? s.id now = some base ∧
      base.id = s.id ∧ t = (base.patched s.echoed).echoed.reloaded := by
  rw [Binary.decode_eq_ok] at hdec
  cases h with
  | whole _ hfull => exact .inl ((Binary.read_full_iff hs hprincipal hfull).1 hdec).2
  | merged hneeds hbase hid hfull =>
    have hform := (fresh_record? hbase).1.wellFormed.patched hs.echoed
    exact .inr ⟨_, hneeds, hbase, hid, ((Binary.read_full_iff hform hprincipal hfull).1 hdec).2⟩

end Repository

end Sessions
