import Sessions.Proofs.Store.Fate

/-!
# Writes that come to nothing

A write first sweeps, and one of a delta deals with what is under its id. Then it may fail: at the
header or at the stored payload, in the middle of a delta, at the hook, at the deadline, or when it
writes the merged record. Or it finds nothing to merge into. Then nobody can tell that it was tried,
neither at once nor later, and only what its time was over for may have been dealt with.
-/

namespace Sessions

namespace Store

variable {st st' : Store} {now : Time}

/-- **Housekeeping shows in no answer.** -/
theorem Settled.answer (h : Settled now st st') (c : Call) :
    (st'.answer now c).2 = (st.answer now c).2 := by
  rw [(st'.answersAs now c).1, (st.answersAs now c).1, h.ledger (Time.le_refl now)]

lemma Settled.log (h : Settled now st st') {turns : List Turn} (hturns : Forward now turns) :
    st'.log now turns = st.log now turns := by
  rw [log_eq turns st' now hturns, log_eq turns st now hturns, h.ledger (Time.le_refl now)]

/-- Nothing has happened to a store that anybody can tell, now or later: what was changed is what
its time was over for. -/
structure Intact (now : Time) (st st' : Store) : Prop where
  get : ∀ id, (st'.get id now).2 = (st.get id now).2
  findByKey : ∀ key, (st'.findByKey key now).2 = (st.findByKey key now).2
  size : st'.size now = st.size now
  log : ∀ turns, Forward now turns → st'.log now turns = st.log now turns
  entries : ∀ id, st'.find? id = st.find? id ∨ ∃ e, st.find? id = some e ∧
    (e.isExpired now = true ∨ e.isSpent now st.retention = true) ∧
      (st'.find? id = none ∨ st'.find? id = some (.tombstone now))

/-- A call that neither stores nor removes anything leaves a store intact, if all that it does is
housekeeping. -/
lemma intact_of_settled {c : Call} (h : Settled now st (st.answer now c).1)
    (hwrites : (st.answer now c).2.isStored = false) (hremove : ∀ id, c ≠ .remove id) :
    Intact now st (st.answer now c).1 where
  get id := Answer.found.inj (h.answer (.get id))
  findByKey key := Answer.ids.inj (h.answer (.findByKey key))
  size := Answer.count.inj (h.answer .size)
  log _ hturns := h.log hturns
  entries id := by
    have hfate := st.fate_answer now c id
    generalize (st.answer now c).1.find? id = left at hfate
    cases hfate with
    | written hw => exact absurd hw (not_writes_of_unstored hwrites)
    | removed hr => exact absurd hr (hremove id)
    | tended _ _ htended => exact htended.eq_or_over

/-- **A write that comes to nothing changes nothing**, whether it fails or has nothing to merge a
delta into. -/
theorem failed_write_intact (st : Store) (id : Ident) (payload : Bytes) (keys : List IndexKey)
    (now : Time) :
    ((st.put id payload keys now).2 ≠ .ok () → Intact now st (st.put id payload keys now).1) ∧
      ((st.putDelta id payload keys now).2 ≠ .ok true →
        Intact now st (st.putDelta id payload keys now).1) := by
  constructor
  · intro hne
    cases houtcome : (st.put id payload keys now).2 with
    | ok done => exact absurd houtcome hne
    | error f =>
      have hunstored : (st.answer now (.put id payload keys)).2.isStored = false := by
        rw [answer, houtcome]
        rfl
      exact intact_of_settled (settled_of_put_error houtcome) hunstored (by simp)
  · intro hne
    have hunstored : (st.answer now (.putDelta id payload keys)).2.isStored = false := by
      rw [answer]
      rcases houtcome : (st.putDelta id payload keys now).2 with f | (_ | _)
      · rfl
      · rfl
      · exact absurd houtcome hne
    exact intact_of_settled (settled_of_putDelta_ne hne) hunstored (by simp)

end Store

/-! ### Torn payloads -/

namespace Sample

def minded : Store := (minutely.put ⟨"x"⟩ (fresh "x") [] .epoch).1

def early : Time := ⟨31000000000, by decide⟩

def late : Time := ⟨91000000000, by decide⟩

end Sample

namespace Store

open Sample

/-- A torn delta does not touch the session that it is meant for. A torn payload fails after the
sweep that comes before it, which has dropped the lapsed session. -/
theorem failed_write_intact_torn :
    (minded.putDelta ⟨"x"⟩ [71] [] early).2 ≠ .ok true ∧
      Intact early minded (minded.putDelta ⟨"x"⟩ [71] [] early).1 ∧
      (minded.putDelta ⟨"x"⟩ [71] [] early).1.size early = 1 ∧
      (minded.put ⟨"y"⟩ [71] [] late).2 ≠ .ok () ∧
      Intact late minded (minded.put ⟨"y"⟩ [71] [] late).1 ∧
      (minded.put ⟨"y"⟩ [71] [] late).1.find? ⟨"x"⟩ = none ∧ minded.find? ⟨"x"⟩ ≠ none := by
  have hdelta : (minded.putDelta ⟨"x"⟩ [71] [] early).2 ≠ .ok true := by decide +kernel
  have hput : (minded.put ⟨"y"⟩ [71] [] late).2 ≠ .ok () := by decide +kernel
  exact ⟨hdelta, (failed_write_intact minded ⟨"x"⟩ [71] [] early).2 hdelta, by decide +kernel,
    hput, (failed_write_intact minded ⟨"y"⟩ [71] [] late).1 hput, by decide +kernel,
    by decide +kernel⟩

end Store

end Sessions
