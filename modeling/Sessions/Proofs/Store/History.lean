import Mathlib.Data.List.Induction
import Sessions.Proofs.Store.Fate

/-!
# Runs of a store

A store and its clock, taken through what comes to them. The clock may be set to any time, back as
well. What is live at the end was stored by one of the calls and has been spared since
(`outstanding_iff`): no call has stored anything in its place, removed it, or dealt with it when it
was due.
-/

namespace Sessions

structure Moment where
  store : Store
  now : Time

namespace Moment

def start (codec : Codec) (hook : Option Hook) (defaultExpiry : Option Expiry)
    (retention : Duration) (now : Time) : Moment :=
  ⟨.create codec hook defaultExpiry retention now, now⟩

def turn (m : Moment) : Turn → Moment
  | .clock time => { m with now := time }
  | .call c => { m with store := (m.store.answer m.now c).1 }

def run (m : Moment) (turns : List Turn) : Moment := turns.foldl turn m

variable {m : Moment} {id : Ident} {turns : List Turn}

@[simp] lemma run_nil (m : Moment) : m.run [] = m := rfl

@[simp] lemma run_cons (m : Moment) (e : Turn) (turns : List Turn) :
    m.run (e :: turns) = (m.turn e).run turns := rfl

@[simp] lemma run_append (m : Moment) (before after : List Turn) :
    m.run (before ++ after) = (m.run before).run after := by
  simp [run, List.foldl_append]

/-- Every turn of a run satisfies a condition on the moment at which it comes. -/
def Through (P : Moment → Turn → Prop) (m : Moment) : List Turn → Prop
  | [] => True
  | e :: turns => P m e ∧ Through P (m.turn e) turns

lemma through_append {P : Moment → Turn → Prop} {before after : List Turn} :
    Through P m (before ++ after) ↔ Through P m before ∧ Through P (m.run before) after := by
  induction before generalizing m with
  | nil => simp [Through]
  | cons e before ih => simp [Through, ih, and_assoc]

/-- **What holds after a run and not before it came about at some turn and has been kept since**, if
a turn after which it holds either brings it about or keeps it. -/
lemma exists_origin {P : Moment → Prop} {Brings Keeps : Moment → Turn → Prop}
    (hstep : ∀ m e, P (m.turn e) → Brings m e ∨ P m ∧ Keeps m e) (hm : ¬P m)
    (h : P (m.run turns)) :
    ∃ before e after, turns = before ++ e :: after ∧ Brings (m.run before) e ∧
      P ((m.run before).turn e) ∧ Through Keeps ((m.run before).turn e) after := by
  induction turns using List.reverseRecOn with
  | nil => exact absurd h hm
  | append_singleton turns e ih =>
    rw [run_append, run_cons, run_nil] at h
    rcases hstep _ e h with hbrings | ⟨hbefore, hkeeps⟩
    · exact ⟨turns, e, [], rfl, hbrings, h, trivial⟩
    · obtain ⟨before, first, after, rfl, hbrings, hholds, hkept⟩ := ih hbefore
      rw [run_append, run_cons] at hkeeps
      exact ⟨before, first, after ++ [e], by simp, hbrings, hholds,
        through_append.2 ⟨hkept, hkeeps, trivial⟩⟩

lemma fate_turn (m : Moment) (c : Call) (id : Ident) :
    m.store.Fate m.now c id ((m.turn (.call c)).store.find? id) :=
  m.store.fate_answer m.now c id

/-! ## What is left of an entry -/

/-- The turn leaves alone what is under an id with a deadline. -/
def Spares (id : Ident) (due : Option (Time × Action)) (m : Moment) : Turn → Prop
  | .clock _ => True
  | .call c => ¬m.store.Writes m.now c id ∧ c ≠ .remove id ∧
    (c.looksUp id = true ∨ m.store.Sweeps m.now c →
      ∀ time, due.map Prod.fst = some time → m.now < time)

/-- Something with the deadline was stored under the id and has been spared since. -/
def Outstanding (id : Ident) (due : Option (Time × Action)) (m : Moment) (turns : List Turn) :
    Prop :=
  ∃ before c after, turns = before ++ .call c :: after ∧
    (m.run before).store.Writes (m.run before).now c id ∧
    (∃ payload keys,
      ((m.run before).turn (.call c)).store.find? id = some (.live payload keys due)) ∧
    Through (Spares id due) ((m.run before).turn (.call c)) after

section

variable {payload : Bytes} {keys : List IndexKey} {due : Option (Time × Action)}

lemma find?_of_spares {e : Turn} (hlive : m.store.find? id = some (.live payload keys due))
    (h : Spares id due m e) : (m.turn e).store.find? id = some (.live payload keys due) := by
  cases e with
  | clock time => exact hlive
  | call c =>
    obtain ⟨hwrites, hremove, hahead⟩ := h
    have hfate := m.fate_turn c id
    generalize (m.turn (.call c)).store.find? id = left at hfate ⊢
    cases hfate with
    | written hw => exact absurd hw hwrites
    | removed hr => exact absurd hr hremove
    | tended _ _ htended =>
      rw [hlive] at htended
      cases htended with
      | destroyed hdealt hle => exact absurd hle (Int.not_le.2 (hahead hdealt _ rfl))
      | invalidated hdealt hle _ => exact absurd hle (Int.not_le.2 (hahead hdealt _ rfl))
      | forgotten hswept hle _ => exact absurd hle (Int.not_le.2 (hahead (.inr hswept) _ rfl))
      | kept _ _ => rfl

lemma find?_run_of_spares (hlive : m.store.find? id = some (.live payload keys due))
    (h : Through (Spares id due) m turns) :
    (m.run turns).store.find? id = some (.live payload keys due) := by
  induction turns generalizing m with
  | nil => exact hlive
  | cons e turns ih => exact ih (find?_of_spares hlive h.1) h.2

lemma writes_or_spares {e : Turn}
    (hlive : (m.turn e).store.find? id = some (.live payload keys due)) :
    (∃ c, e = .call c ∧ m.store.Writes m.now c id) ∨
      m.store.find? id = some (.live payload keys due) ∧ Spares id due m e := by
  cases e with
  | clock time => exact .inr ⟨hlive, trivial⟩
  | call c =>
    have hfate := m.fate_turn c id
    rw [hlive] at hfate
    cases hfate with
    | written hw => exact .inl ⟨c, rfl, hw⟩
    | tended hwrites hremove htended =>
      generalize hheld : m.store.find? id = held at htended
      cases htended with
      | kept hahead _ =>
        refine .inr ⟨rfl, hwrites, hremove, fun hdealt => ?_⟩
        exact (Entry.isExpired_live_eq_false payload keys).1 (hahead hdealt _ rfl)

/-- **What is live was stored by a call and has been spared since.** -/
theorem outstanding_iff (hm : m.store.find? id = none) :
    Outstanding id due m turns ↔
      ∃ payload keys, (m.run turns).store.find? id = some (.live payload keys due) := by
  constructor
  · rintro ⟨before, c, after, rfl, -, ⟨payload, keys, hlive⟩, hspared⟩
    rw [run_append, run_cons]
    exact ⟨payload, keys, find?_run_of_spares hlive hspared⟩
  · intro hlive
    obtain ⟨before, e, after, hturns, ⟨c, rfl, hwrites⟩, hstored, hspared⟩ := exists_origin
      (P := fun m => ∃ payload keys, m.store.find? id = some (.live payload keys due))
      (fun m e ⟨payload, keys, hlive⟩ => (writes_or_spares hlive).imp_right
        fun ⟨hbefore, hspares⟩ => ⟨⟨payload, keys, hbefore⟩, hspares⟩) (by simp [hm]) hlive
    exact ⟨before, c, after, hturns, hwrites, hstored, hspared⟩

end

end Moment

end Sessions
