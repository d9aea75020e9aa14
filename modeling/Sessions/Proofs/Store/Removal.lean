import Sessions.Proofs.Store.History

/-!
# What a removal reports

A removal answers whether there was a payload to remove, and does not look at the clock. So it also
says yes of what lapsed when nobody looked: an entry whose deadline was reached after the last time
that the store dealt with it. Such an entry is neither answered nor counted nor listed any more.
-/

namespace Sessions

namespace Store

variable {st : Store} {id : Ident} {now : Time}

lemma remove_snd_iff : (st.remove id).2 = true ↔
    ∃ payload keys due, st.find? id = some (.live payload keys due) := by
  rw [remove]
  cases st.find? id with
  | none => simp
  | some e => cases e <;> simp [Entry.isLive]

lemma get_isSome_iff : (st.get id now).2.isSome = true ↔
    ∃ payload keys due, st.find? id = some (.live payload keys due) ∧
      ∀ time, due.map Prod.fst = some time → now < time := by
  rw [get_snd, Option.isSome_map, Option.isSome_iff_exists]
  constructor
  · rintro ⟨⟨payload, due⟩, hstands⟩
    obtain ⟨keys, hfind⟩ := find?_of_standing hstands
    exact ⟨payload, keys, due, hfind, lt_of_standing hstands⟩
  · rintro ⟨payload, keys, due, hfind, hahead⟩
    refine ⟨(payload, due), ?_⟩
    rw [standing, hfind, Option.bind_some, Entry.standing_of_lt payload keys hahead]

/-- An id that was just looked up has no entry left that is due, so a removal says what the look-up
has said. -/
lemma remove_get (st : Store) (id : Ident) (now : Time) :
    ((st.get id now).1.remove id).2 = (st.get id now).2.isSome := by
  rw [Bool.eq_iff_iff, remove_snd_iff]
  constructor
  · rintro ⟨payload, keys, due, hlive⟩
    have hfate := st.fate_answer now (.get id) id
    rw [show (st.answer now (.get id)).1 = (st.get id now).1 from rfl, hlive] at hfate
    cases hfate with
    | written hwrites => cases hwrites.2
    | tended _ _ htended =>
      generalize hheld : st.find? id = held at htended
      cases htended with
      | kept hahead _ =>
        have hunexpired := hahead (.inl (by simp [Call.looksUp])) _ rfl
        exact get_isSome_iff.2
          ⟨payload, keys, due, hheld, (Entry.isExpired_live_eq_false payload keys).1 hunexpired⟩
  · intro hfound
    rw [get_snd, ← (settled_get now st id).kept id now (Time.le_refl now), Option.isSome_map,
      Option.isSome_iff_exists] at hfound
    obtain ⟨⟨payload, due⟩, hstands⟩ := hfound
    obtain ⟨keys, hfind⟩ := find?_of_standing hstands
    exact ⟨payload, keys, due, hfind⟩

end Store

namespace Moment

variable {id : Ident}

/-- What was stored under the id has lapsed, and has not been dealt with since. -/
def Overlooked (id : Ident) (m : Moment) (turns : List Turn) : Prop :=
  ∃ due action, Outstanding id (some (due, action)) m turns ∧ due ≤ (m.run turns).now

/-- **A removal reports what could be answered, and what was overlooked.** It reports just what
could be answered if the id is looked up first. -/
theorem remove_reports (codec : Codec) (hook : Option Hook) (defaultExpiry : Option Expiry)
    (retention : Duration) (time : Time) (turns : List Turn) (id : Ident) :
    let first := start codec hook defaultExpiry retention time
    let m := first.run turns
    ((m.store.remove id).2 = true ↔
      (m.store.get id m.now).2.isSome = true ∨ Overlooked id first turns) ∧
    ((m.store.get id m.now).1.remove id).2 = (m.store.get id m.now).2.isSome := by
  intro first m
  have hempty : first.store.find? id = none := rfl
  refine ⟨?_, m.store.remove_get id m.now⟩
  rw [Store.remove_snd_iff, Store.get_isSome_iff]
  constructor
  · rintro ⟨payload, keys, due, hlive⟩
    have hstored : Outstanding id due first turns :=
      (outstanding_iff hempty).2 ⟨payload, keys, hlive⟩
    by_cases hahead : ∀ time, due.map Prod.fst = some time → m.now < time
    · exact .inl ⟨payload, keys, due, hlive, hahead⟩
    · obtain ⟨lapsed, hlapsed⟩ := not_forall.1 hahead
      obtain ⟨hdue, hle⟩ := Classical.not_imp.1 hlapsed
      obtain ⟨⟨lapsed, action⟩, rfl, rfl⟩ := Option.map_eq_some_iff.1 hdue
      exact .inr ⟨lapsed, action, hstored, Int.not_lt.1 hle⟩
  · rintro (⟨payload, keys, due, hlive, -⟩ | ⟨due, action, hstored, -⟩)
    · exact ⟨payload, keys, due, hlive⟩
    · obtain ⟨payload, keys, hlive⟩ := (outstanding_iff hempty).1 hstored
      exact ⟨payload, keys, _, hlive⟩

end Moment

/-! ### A session that lapses unseen -/

namespace Sample

def tenSecondly : Moment :=
  .start .binary none (some ⟨10, .destroy⟩) .zero .epoch

def unseen : List Turn := [.call (.put ⟨"x"⟩ (fresh "x") []), .clock ⟨10000000000, by decide⟩]

end Sample

namespace Moment

open Sample

/-- A removal reports what a look-up would have answered. -/
def RemovalsReportLife : Prop :=
  ∀ (codec : Codec) (hook : Option Hook) (defaultExpiry : Option Expiry) (retention : Duration)
    (time : Time) (turns : List Turn) (id : Ident),
    let m := (start codec hook defaultExpiry retention time).run turns
    (m.store.remove id).2 = (m.store.get id m.now).2.isSome

/-- A session that lapsed unseen is neither answered nor counted, and is reported as removed. -/
theorem removal_can_report_lapsed :
    ((tenSecondly.run unseen).store.remove ⟨"x"⟩).2 = true ∧
      ((tenSecondly.run unseen).store.get ⟨"x"⟩ (tenSecondly.run unseen).now).2 = none ∧
      (tenSecondly.run unseen).store.size (tenSecondly.run unseen).now = 0 ∧
      ¬RemovalsReportLife := by
  have hremoved : ((tenSecondly.run unseen).store.remove ⟨"x"⟩).2 = true := by decide +kernel
  have hlapsed :
      ((tenSecondly.run unseen).store.get ⟨"x"⟩ (tenSecondly.run unseen).now).2 = none := by
    decide +kernel
  refine ⟨hremoved, hlapsed, by decide +kernel, fun h => ?_⟩
  have hsame := h .binary none (some ⟨10, .destroy⟩) .zero .epoch unseen ⟨"x"⟩
  rw [show start .binary none (some ⟨10, .destroy⟩) .zero .epoch = tenSecondly from rfl] at hsame
  simp only [hremoved, hlapsed] at hsame
  cases hsame

end Moment

end Sessions
