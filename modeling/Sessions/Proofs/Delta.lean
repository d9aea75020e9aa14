import Sessions.Proofs.Changes
import Sessions.Proofs.Json.Same

/-!
# The delta of attributes

The changed names with their present values are what it takes to bring the attributes of the last
commit to the present ones: a name that is not noted holds the same as it did then, however often
it was written, removed and put back in between, and no name is noted that no call has touched.
-/

namespace Sessions

/-- A rule that takes no handle for an unchanged one unless their values are the same. -/
def ChangeRule.Heeds (rule : ChangeRule) : Prop :=
  ∀ old new, rule.differs old new = false → old.value.same new.value = true

lemma ChangeRule.Notices.heeds {rule : ChangeRule} (h : rule.Notices) : rule.Heeds := by
  intro old new hdiffers
  rw [h old new hdiffers]
  exact new.value.same_refl

lemma heeds_identity : ChangeRule.identity.Heeds := notices_identity.heeds

lemma heeds_always : ChangeRule.always.Heeds := notices_always.heeds

lemma heeds_equality : ChangeRule.equality.Heeds := by
  intro old new h
  simpa [ChangeRule.equality] using h

namespace Attributes

variable {a b base : Attributes} {name : String}

/-! ### Notes that are complete -/

/-- Compared with `base`, the attributes `a` hold the same under each name that they do not note,
and they are dirty exactly when they note any. -/
structure Notes (base a : Attributes) : Prop where
  same : ∀ name, name ∉ a.changedNames → Json.SameHeld (base.value? name) (a.value? name)
  dirty : a.isDirty = true ↔ a.changedNames ≠ []

lemma changedNames_commit (a : Attributes) : a.commit.changedNames = [] := rfl

lemma notes_commit (a : Attributes) : Notes a a.commit where
  same name _ := Json.SameHeld.refl (a.value? name)
  dirty := by simp [isDirty, ChangeLog.clean, changedNames_commit]

/-- Touching a name either notes it or leaves the same under it. -/
lemma Notes.touched (h : Notes base a) (hrule : a.rule.Heeds) (htouched : Touched a name b) :
    Notes base b where
  same other hother :=
    (h.same other fun hmem => hother (htouched.kept hmem)).trans
      (htouched.rel (R := fun v w => v.same w = true) Json.same_refl hrule hother)
  dirty := by
    rcases htouched.noted with hlog | ⟨hlog, -⟩
    · have hmem : name ∈ b.changedNames := (mem_changedNames_mark hlog rfl).2 (.inl rfl)
      simp [isDirty, hlog, ChangeLog.mark, List.ne_nil_of_mem hmem]
    · simpa [isDirty, changedNames, hlog] using h.dirty

/-- **What is noted is enough**: the changes, applied to `base`, give the present attributes. -/
theorem Notes.replay (h : Notes base a) : (a.changes.foldl applyChange base).same a = true := by
  refine same_of_held fun name => ?_
  rw [changes, value?_foldl_applyChange]
  split
  next => exact Json.SameHeld.refl _
  next hname => exact h.same name hname

lemma Notes.same_of_clean (h : Notes base a) (hclean : a.isDirty = false) :
    base.same a = true := by
  refine same_of_held fun name => h.same name ?_
  have hnone : a.changedNames = [] := by
    by_contra hsome
    rw [h.dirty.2 hsome] at hclean
    cases hclean
  simp [hnone]

/-! ### Calls -/

inductive Call where
  | set (name : String) (value : Json)
  | store (name : String) (h : Handle)
  | remove (name : String)

namespace Call

def target : Call → String
  | set name _ => name
  | store name _ => name
  | remove name => name

def answer (a : Attributes) : Call → Except Fault (Attributes × Option Handle)
  | set name value => a.set name value
  | store name h => a.store name h
  | remove name => a.remove name

/-- The attributes after a call, or as they were when it was refused. -/
def apply (a : Attributes) (c : Call) : Attributes :=
  match c.answer a with
  | .ok (b, _) => b
  | .error _ => a

lemma touched_of_answer {c : Call} {old : Option Handle} (h : c.answer a = .ok (b, old)) :
    Touched a c.target b := by
  cases c with
  | set name value => exact touched_set h
  | store name handle => exact touched_store h
  | remove name => exact touched_remove h

lemma apply_cases (a : Attributes) (c : Call) :
    (c.answer a).isOk = true ∧ Touched a c.target (c.apply a) ∨
      (c.answer a).isOk = false ∧ c.apply a = a := by
  rw [apply]
  cases h : c.answer a with
  | ok p =>
    obtain ⟨b, old⟩ := p
    exact .inl ⟨rfl, touched_of_answer h⟩
  | error e => exact .inr ⟨rfl, rfl⟩

lemma rule_apply (a : Attributes) (c : Call) : (c.apply a).rule = a.rule := by
  rcases apply_cases a c with ⟨-, htouched⟩ | ⟨-, heq⟩
  · exact htouched.rule
  · rw [heq]

end Call

lemma Notes.apply (h : Notes base a) (hrule : a.rule.Heeds) (c : Call) :
    Notes base (c.apply a) := by
  rcases Call.apply_cases a c with ⟨-, htouched⟩ | ⟨-, heq⟩
  · exact h.touched hrule htouched
  · rwa [heq]

def run (a : Attributes) (calls : List Call) : Attributes := calls.foldl Call.apply a

def accepted (a : Attributes) : List Call → List String
  | [] => []
  | c :: rest =>
    if (c.answer a).isOk then c.target :: accepted (c.apply a) rest else accepted (c.apply a) rest

lemma run_nil (a : Attributes) : run a [] = a := rfl

lemma run_cons (a : Attributes) (c : Call) (rest : List Call) :
    run a (c :: rest) = run (c.apply a) rest := rfl

lemma Notes.run (h : Notes base a) (hrule : a.rule.Heeds) (calls : List Call) :
    Notes base (a.run calls) := by
  induction calls generalizing a with
  | nil => exact h
  | cons c rest ih => exact ih (h.apply hrule c) (by rwa [c.rule_apply])

lemma mem_accepted (calls : List Call) (h : name ∈ (a.run calls).changedNames) :
    name ∈ a.changedNames ∨ name ∈ accepted a calls := by
  induction calls generalizing a with
  | nil => exact .inl h
  | cons c rest ih =>
    rw [accepted]
    rcases c.apply_cases a with ⟨hok, htouched⟩ | ⟨hrefused, heq⟩
    · rw [if_pos hok, List.mem_cons]
      rcases ih h with hmem | hmem
      · exact (htouched.eq_or_mem hmem).elim (fun heq => .inr (.inl heq)) .inl
      · exact .inr (.inr hmem)
    · rw [run_cons, heq] at h
      rw [if_neg (by simp [hrefused]), heq]
      exact ih h

/-- **The delta of attributes is complete and exact.** After any calls since a commit, the changes
bring the committed attributes to the present ones; each name in them is that of a call that was
not refused; and the attributes are dirty exactly when there is such a name. -/
theorem changes_exact (a : Attributes) (hrule : a.rule.Heeds) (calls : List Call) :
    ((a.commit.run calls).changes.foldl applyChange a.commit).same (a.commit.run calls) = true ∧
      (∀ name ∈ (a.commit.run calls).changedNames, name ∈ accepted a.commit calls) ∧
      ((a.commit.run calls).isDirty = true ↔ (a.commit.run calls).changedNames ≠ []) := by
  have hnotes : Notes a.commit (a.commit.run calls) := (notes_commit a.commit).run hrule calls
  refine ⟨hnotes.replay, fun name hname => ?_, hnotes.dirty⟩
  exact (mem_accepted calls hname).resolve_left (by simp [changedNames_commit])

/-- Two attributes, one of them a zero. -/
def basket : Attributes :=
  (empty .equality).run [.set "a" (.int 1), .set "b" (.double (.zero false))]

/-- One name gets the other zero, one is written and removed, one is new and removed again, and one
is refused. -/
def basketCalls : List Call :=
  [.set "b" (.double (.zero true)), .set "a" (.int 2), .remove "a", .set "c" (.bool true),
    .set "c" .null, .set " " (.int 3)]

/-- The other zero passes unnoted, and is the same for the replay. -/
theorem changes_exact_basket :
    basket.rule.Heeds ∧
      ((basket.commit.run basketCalls).changes.foldl applyChange basket.commit).same
        (basket.commit.run basketCalls) = true ∧
      (∀ name ∈ (basket.commit.run basketCalls).changedNames,
        name ∈ accepted basket.commit basketCalls) ∧
      (basket.commit.run basketCalls).isDirty = true ∧
      (basket.commit.run basketCalls).changes = [("a", none), ("c", none)] ∧
      accepted basket.commit basketCalls = ["b", "a", "a", "c", "c"] := by
  have hrule : basket.rule.Heeds := heeds_equality
  have hchanges : (basket.commit.run basketCalls).changes = [("a", none), ("c", none)] := by
    decide +kernel
  have hnames : (basket.commit.run basketCalls).changedNames ≠ [] := by decide +kernel
  obtain ⟨hreplay, haccepted, hdirty⟩ := changes_exact basket hrule basketCalls
  exact ⟨hrule, hreplay, haccepted, hdirty.2 hnames, hchanges, by decide +kernel⟩

end Attributes

end Sessions
