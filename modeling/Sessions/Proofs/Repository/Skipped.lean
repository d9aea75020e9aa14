import Sessions.Proofs.Delta
import Sessions.Proofs.Repository.Steps

/-!
# What a skipped save leaves out

A save skips a record that has no changes to save. Whatever has been done to such a record since it
was committed, it is the same as it was then in everything but the interval, so nothing else that
came after the commit is left out. The interval is left out where a builder has set it, because that
flags nothing; the setter does.
-/

namespace Sessions

namespace Session

/-- What the holder of a record can do to it. -/
inductive Operation where
  | edit (e : Edit) (now : Time)
  | rotate (id : Ident)
  | withRule (rule : ChangeRule)
  | withMaxIdle (interval : Duration)

namespace Operation

def apply (s : Session) : Operation → Session
  | edit e now => e.apply now s
  | rotate id => s.rotate id
  | withRule rule => s.withRule rule
  | withMaxIdle interval => s.withMaxIdle interval

/-- A rule that the operation brings in takes no handle for an unchanged one unless their values
are the same. -/
def Heeds : Operation → Prop
  | withRule rule => rule.Heeds
  | _ => True

/-- Whether the operation is one for sessions under construction, which flags nothing. -/
def builds : Operation → Bool
  | withMaxIdle _ => true
  | _ => false

end Operation

def operate (s : Session) (ops : List Operation) : Session := ops.foldl Operation.apply s

variable {base s : Session} {ops : List Operation}

/-- Compared with `base`, a record has changed in nothing that is not flagged. Its interval is left
out. -/
structure Flags (base s : Session) : Prop where
  created : s.created = base.created
  phase : s.phase = base.phase
  unflagged : s.dirty = false →
    s.id = base.id ∧ s.accessed = base.accessed ∧ s.principal = base.principal
  rule : s.attributes.rule.Heeds
  attributes : base.attributes.Notes s.attributes

lemma flags_commit (hrule : s.attributes.rule.Heeds) : Flags s.commit s.commit :=
  ⟨rfl, rfl, fun _ => ⟨rfl, rfl, rfl⟩, hrule, Attributes.notes_commit s.attributes.commit⟩

lemma Flags.apply (h : Flags base s) {op : Operation} (hop : op.Heeds) :
    Flags base (op.apply s) := by
  cases op with
  | edit e now =>
    have hedit := edited_apply s e now
    refine ⟨hedit.created.trans h.created, hedit.phase.trans h.phase, fun hclean => ?_, ?_, ?_⟩
    · obtain ⟨hs, haccessed, -, hprincipal⟩ := hedit.noted hclean
      change (e.apply now s).id = _ ∧ (e.apply now s).accessed = _ ∧ _
      rw [hedit.id, haccessed]
      exact ⟨(h.unflagged hs).1, (h.unflagged hs).2.1, hprincipal.trans (h.unflagged hs).2.2⟩
    · exact hedit.attributes.rule ▸ h.rule
    · rcases touched_apply s e now with heq | ⟨name, htouched⟩
      · exact heq ▸ h.attributes
      · exact h.attributes.touched h.rule htouched
  | rotate id =>
    refine ⟨h.created, h.phase, fun hclean => ?_, h.rule, h.attributes⟩
    cases hclean
  | withRule rule =>
    exact ⟨h.created, h.phase, h.unflagged, hop, ⟨h.attributes.same, h.attributes.dirty⟩⟩
  | withMaxIdle interval => exact ⟨h.created, h.phase, h.unflagged, h.rule, h.attributes⟩

lemma Flags.operate (h : Flags base s) (hops : ∀ op ∈ ops, op.Heeds) :
    Flags base (s.operate ops) := by
  induction ops generalizing s with
  | nil => exact h
  | cons op rest ih =>
    exact ih (h.apply (hops op List.mem_cons_self)) fun o ho => hops o (List.mem_cons_of_mem op ho)

lemma Flags.same (h : Flags base s) (hclean : s.hasDelta = false) :
    base.same { s with maxIdle := base.maxIdle } = true := by
  obtain ⟨hdirty, hlog⟩ := Bool.or_eq_false_iff.1 hclean
  obtain ⟨hid, haccessed, hprincipal⟩ := h.unflagged hdirty
  simp [Session.same, hid, h.created, haccessed, hprincipal, h.attributes.same_of_clean hlog]

lemma maxIdle_operate (hops : ∀ op ∈ ops, op.builds = false)
    (hclean : (s.operate ops).dirty = false) :
    s.dirty = false ∧ (s.operate ops).maxIdle = s.maxIdle := by
  induction ops generalizing s with
  | nil => exact ⟨hclean, rfl⟩
  | cons op rest ih =>
    obtain ⟨hdirty, hinterval⟩ := ih (fun o ho => hops o (List.mem_cons_of_mem op ho)) hclean
    have hstep : s.dirty = false ∧ (op.apply s).maxIdle = s.maxIdle := by
      cases op with
      | edit e now =>
        obtain ⟨hs, -, hmaxIdle, -⟩ := (edited_apply s e now).noted hdirty
        exact ⟨hs, hmaxIdle⟩
      | rotate id => cases hdirty
      | withRule rule => exact ⟨hdirty, rfl⟩
      | withMaxIdle interval => cases hops _ List.mem_cons_self
    exact ⟨hstep.1, hinterval.trans hstep.2⟩

end Session

namespace Repository

open Session

variable {s : Session} {ops : List Operation}

lemma save_of_clean (r : Repository) {now : Time} (hphase : s.phase = .persisted)
    (hlive : s.isExpired now = false) (hdelta : s.hasDelta = false)
    (hfull : s.needsFullWrite = false) : r.save s now = (r, s, .ok ()) := by
  have hcases := save_cases r s now
  generalize r.save s now = outcome at hcases ⊢
  cases hcases with
  | ended hend => rw [hphase] at hend; cases hend
  | expired _ _ hidle => rw [hlive] at hidle; cases hidle
  | skipped _ _ _ _ => rfl
  | written _ _ hdue _ => simp [hdelta, hfull] at hdue

/-- **A record without changes to save is the record that was committed**, whatever has been done
to it since, and a save leaves it and the repository as they are. For an interval that a builder
has set on the committed record this says nothing. -/
theorem skipped_same_as_committed (hphase : s.commit.phase = .persisted)
    (hrule : s.attributes.rule.Heeds) (hops : ∀ op ∈ ops, op.Heeds)
    (hdelta : (s.commit.operate ops).hasDelta = false)
    (hfull : (s.commit.operate ops).needsFullWrite = false) :
    s.commit.same { s.commit.operate ops with maxIdle := s.maxIdle } = true ∧
      ((∀ op ∈ ops, op.builds = false) → s.commit.same (s.commit.operate ops) = true) ∧
      ∀ (r : Repository) (now : Time), (s.commit.operate ops).isExpired now = false →
        r.save (s.commit.operate ops) now = (r, s.commit.operate ops, .ok ()) := by
  have hflags : Flags s.commit (s.commit.operate ops) := (flags_commit hrule).operate hops
  have hsame := hflags.same hdelta
  refine ⟨hsame, fun hbuilds => ?_, fun r now hlive => ?_⟩
  · have hdirty : (s.commit.operate ops).dirty = false := (Bool.or_eq_false_iff.1 hdelta).1
    obtain ⟨-, hinterval⟩ := maxIdle_operate hbuilds hdirty
    rwa [← hinterval] at hsame
  · exact r.save_of_clean (hflags.phase.trans hphase) hlive hdelta hfull

end Repository

namespace Sample

/-- A record that compares values, with a zero. -/
def zeroed : Session := withValue (record.withRule .equality) (.double (.zero false))

/-- The other zero is put in its place, and nothing else that is done changes anything. -/
def zeroing : List Session.Operation :=
  [.edit (.set "k" (.double (.zero true))) start, .withRule .always, .edit (.remove "j") start,
    .edit .touch start, .edit (.maxIdle Session.defaultMaxIdle) start]

/-- A stored record whose interval is set to five seconds by a builder. -/
def shortened : Session := saved.commit.operate [.withMaxIdle (.ofSeconds 5)]

end Sample

namespace Repository

open Sample Session

/-- The two zeros are the same, and a save leaves the other one unsaved. -/
theorem skipped_same_as_committed_zeros :
    zeroed.commit.phase = .persisted ∧ zeroed.attributes.rule.Heeds ∧
      (∀ op ∈ zeroing, op.Heeds) ∧ (zeroed.commit.operate zeroing).hasDelta = false ∧
      (zeroed.commit.operate zeroing).needsFullWrite = false ∧
      zeroed.commit.same (zeroed.commit.operate zeroing) = true ∧
      (stored none).save (zeroed.commit.operate zeroing) start =
        (stored none, zeroed.commit.operate zeroing, .ok ()) := by
  have hrule : zeroed.attributes.rule.Heeds := heeds_equality
  have hops : ∀ op ∈ zeroing, op.Heeds := by
    simp [zeroing, Operation.Heeds, heeds_always]
  have hclean : zeroed.commit.phase = .persisted ∧
      (zeroed.commit.operate zeroing).hasDelta = false ∧
      (zeroed.commit.operate zeroing).needsFullWrite = false ∧
      (∀ op ∈ zeroing, op.builds = false) ∧
      (zeroed.commit.operate zeroing).isExpired start = false := by decide +kernel
  obtain ⟨hphase, hdelta, hfull, hbuilds, hlive⟩ := hclean
  obtain ⟨-, hsame, hskipped⟩ := skipped_same_as_committed hphase hrule hops hdelta hfull
  exact ⟨hphase, hrule, hops, hdelta, hfull, hsame hbuilds, hskipped (stored none) start hlive⟩

/-- A builder changes the interval of a committed record and flags nothing, so the save skips the
record, and what is found has the interval as it was stored before. -/
theorem clean_can_be_unsaved :
    shortened.hasDelta = false ∧ shortened.needsFullWrite = false ∧
      saved.commit.same shortened = false ∧
      ((stored none).save shortened start).2.2 = .ok () ∧
      (((stored none).save shortened start).1.find ⟨"x"⟩ start).2.map (·.map (·.maxIdle)) =
        .ok (some defaultMaxIdle) := by decide +kernel

end Repository

end Sessions
