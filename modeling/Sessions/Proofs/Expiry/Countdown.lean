import Mathlib.Data.List.Find
import Sessions.Proofs.Expiry.Deadline

/-!
# Policies count down

What a policy of this library says of a record at some time is how much is left until a moment that
does not depend on the time (`ending`). So its decisions at two times differ by what has passed
between them, the same part decides at both, and what is due stays due. The moments are exact: no
subtraction leaves the range of durations, because a policy's timeouts are bounded when it is made,
the record's own interval when it is set, and times by the calendar.
-/

namespace Sessions

variable {s : Session}

/-! ## Options and searches -/

section

variable {α β : Type}

lemma rel_of_map_eq {γ : Type} {r : α → β → Prop} {f : α → γ} {g : β → γ} {x : Option α}
    {y : Option β} (h : x.map f = y.map g) (hr : ∀ a b, f a = g b → r a b) :
    Option.Rel r x y := by
  cases x with
  | none =>
    cases y with
    | none => exact .none
    | some b => cases h
  | some a =>
    cases y with
    | none => cases h
    | some b => exact .some (hr a b (Option.some.inj h))

lemma findSome?_congr {f g : α → Option β} {l : List α} (h : ∀ a ∈ l, f a = g a) :
    l.findSome? f = l.findSome? g := by
  induction l with
  | nil => rfl
  | cons a rest ih =>
    rw [List.findSome?_cons, List.findSome?_cons, h a List.mem_cons_self,
      ih fun b hb => h b (List.mem_cons_of_mem a hb)]

end

/-! ## Moments -/

/-- When a decision that is made now runs out, in nanoseconds since the epoch, and what happens
then. -/
def Decision.ending (d : Decision) (now : Time) : Int × Action :=
  (now.nanos + d.timeout.nanos, d.action)

/-! ## Idle timeouts -/

namespace IdlePolicy

variable {p : IdlePolicy}

def Checked (p : IdlePolicy) : Prop := ∃ timeout action, create timeout action = .ok p

lemma Checked.bounds (h : p.Checked) {t : Duration} (ht : p.timeout = some t) :
    0 ≤ t.nanos ∧ t ≤ .longest := by
  obtain ⟨timeout, action, hcreate⟩ := h
  cases timeout with
  | some timeout =>
    obtain ⟨rfl, hbounds⟩ := create_eq_ok hcreate
    obtain rfl := Option.some.inj ht
    exact hbounds
  | none =>
    obtain rfl := Except.ok.inj hcreate
    cases ht

/-- When the timeout after the last access is over. -/
def ending (p : IdlePolicy) (s : Session) : Option (Int × Action) :=
  p.timeout.map fun t => (s.accessed.nanos + t.nanos, p.action)

lemma map_ending_evaluate (h : p.Checked) (s : Session) (now : Time) :
    (p.evaluate s now).map (·.ending now) = p.ending s := by
  obtain ⟨timeout, action⟩ := p
  cases timeout with
  | none => rfl
  | some t =>
    obtain ⟨hpos, hle⟩ := h.bounds rfl
    obtain ⟨left, hevaluate, hleft⟩ := exists_evaluate hpos hle action s now
    have hends : now.nanos + left.nanos = s.accessed.nanos + t.nanos := by omega
    rw [hevaluate, ending, Option.map_some, Option.map_some, Decision.ending, hends]

end IdlePolicy

/-! ## Fixed lifetimes -/

namespace FixedPolicy

variable {p : FixedPolicy}

def Checked (p : FixedPolicy) : Prop :=
  ∃ made timeout action, create timeout action = .ok made ∧
    (p = made ∨ ∃ idle : IdlePolicy, idle.Checked ∧ p = made.withIdle idle)

lemma Checked.bounds (h : p.Checked) : 0 ≤ p.timeout.nanos ∧ p.timeout ≤ .longest := by
  obtain ⟨made, timeout, action, hcreate, h⟩ := h
  obtain ⟨rfl, hpos, hle⟩ := create_eq_ok hcreate
  rcases h with rfl | ⟨idle, -, rfl⟩
  · exact ⟨Int.le_of_lt hpos, hle⟩
  · exact ⟨Int.le_of_lt hpos, hle⟩

lemma Checked.idle (h : p.Checked) {idle : IdlePolicy} (hidle : p.idle = some idle) :
    idle.Checked := by
  obtain ⟨made, timeout, action, hcreate, h⟩ := h
  obtain ⟨rfl, -⟩ := create_eq_ok hcreate
  rcases h with rfl | ⟨found, hchecked, rfl⟩
  · cases hidle
  · obtain rfl := Option.some.inj hidle
    exact hchecked

def limit (p : FixedPolicy) (s : Session) : Int := s.created.nanos + p.timeout.nanos

/-- When the idle limit that the policy heeds is reached: that of the delegate if it sets one, and
otherwise the session's own. -/
def idleLimit (p : FixedPolicy) (s : Session) : Option Int :=
  ((p.idle.bind (·.ending s)).map (·.1)).or s.idleEnd

/-- The idle limit is reached no later than the lifetime is over. -/
def Yields (p : FixedPolicy) (s : Session) : Prop := ∃ e ∈ p.idleLimit s, e ≤ p.limit s

instance (p : FixedPolicy) (s : Session) : Decidable (p.Yields s) :=
  inferInstanceAs (Decidable (∃ e ∈ p.idleLimit s, e ≤ p.limit s))

/-- The end that the delegate sets if the policy yields to the idle limit, and the end of the
lifetime otherwise. -/
def ending (p : FixedPolicy) (s : Session) : Option (Int × Action) :=
  if p.Yields s then p.idle.bind (·.ending s) else some (p.limit s, p.action)

def idleRemaining (p : FixedPolicy) (s : Session) (now : Time) : Option Duration :=
  ((p.idle.bind (·.evaluate s now)).map (·.timeout)).or (ownRemaining s now)

/-- At this time no more is left of the idle limit than of the lifetime. -/
def yieldsAt (p : FixedPolicy) (s : Session) (now : Time) : Bool :=
  match p.timeout.sub? (now.since s.created), p.idleRemaining s now with
  | some fixed, some idle => idle ≤ fixed
  | _, _ => false

lemma evaluate_eq (p : FixedPolicy) (s : Session) (now : Time) :
    p.evaluate s now = if p.yieldsAt s now then p.idle.bind (·.evaluate s now)
      else (p.timeout.sub? (now.since s.created)).map fun fixed => ⟨fixed, p.action⟩ := by
  rw [evaluate, yieldsAt, idleRemaining]
  cases p.timeout.sub? (now.since s.created) with
  | none => rfl
  | some fixed =>
    dsimp only
    cases ((p.idle.bind (·.evaluate s now)).map (·.timeout)).or (ownRemaining s now) with
    | none => rfl
    | some idle =>
      by_cases hle : idle ≤ fixed
      · simp only [hle, if_true, decide_true]
      · simp only [hle, if_false, decide_false, Bool.false_eq_true, Option.map_some]

lemma map_ownRemaining (hs : s.maxIdle ≤ .longest) (now : Time) :
    (ownRemaining s now).map (now.nanos + ·.nanos) = s.idleEnd := by
  rw [ownRemaining, Session.idleEnd]
  split
  · rfl
  next hends =>
    have hpos : 0 ≤ s.maxIdle.nanos :=
      Duration.isNegative_eq_false.1 (Bool.eq_false_iff.2 hends)
    obtain ⟨left, hsub, hleft⟩ := Duration.exists_sub? hpos hs now s.accessed
    rw [hsub, Option.map_some, hleft]
    exact congrArg some (by omega)

lemma map_delegated (h : p.Checked) (s : Session) (now : Time) :
    (p.idle.bind (·.evaluate s now)).map (·.ending now) = p.idle.bind (·.ending s) := by
  cases hidle : p.idle with
  | none => rfl
  | some idle => exact IdlePolicy.map_ending_evaluate (h.idle hidle) s now

lemma map_idleRemaining (h : p.Checked) (hs : s.maxIdle ≤ .longest) (now : Time) :
    (p.idleRemaining s now).map (now.nanos + ·.nanos) = p.idleLimit s := by
  rw [idleRemaining, idleLimit, Option.map_or, map_ownRemaining hs, ← map_delegated h s now,
    Option.map_map, Option.map_map]
  rfl

/-- **Whether a policy yields does not depend on the time.** -/
lemma yieldsAt_iff (h : p.Checked) (hs : s.maxIdle ≤ .longest) (now : Time) :
    p.yieldsAt s now = true ↔ p.Yields s := by
  obtain ⟨hpos, hle⟩ := h.bounds
  obtain ⟨fixed, hsub, hfixed⟩ := Duration.exists_sub? hpos hle now s.created
  rw [yieldsAt, hsub, Yields, limit, ← map_idleRemaining h hs now]
  cases p.idleRemaining s now with
  | none => simp
  | some idle =>
    simp only [decide_eq_true_eq, Option.map_some, Option.mem_def, Option.some.injEq,
      exists_eq_left', Duration.le_iff]
    omega

lemma map_ending_evaluate (h : p.Checked) (hs : s.maxIdle ≤ .longest) (now : Time) :
    (p.evaluate s now).map (·.ending now) = p.ending s := by
  obtain ⟨hpos, hle⟩ := h.bounds
  obtain ⟨fixed, hsub, hfixed⟩ := Duration.exists_sub? hpos hle now s.created
  rw [evaluate_eq, ending]
  by_cases hyields : p.Yields s
  · rw [if_pos ((yieldsAt_iff h hs now).2 hyields), if_pos hyields, map_delegated h s now]
  · have hends : now.nanos + fixed.nanos = p.limit s := by
      rw [limit]
      omega
    rw [if_neg fun hat => hyields ((yieldsAt_iff h hs now).1 hat), if_neg hyields, hsub,
      Option.map_some, Option.map_some, Decision.ending, hends]

/-- What a policy answers about a record at a time. -/
inductive Answers (p : FixedPolicy) (s : Session) (now : Time) : Option Decision → Prop
  /-- The delegate's own decision, if it runs out no later than the lifetime. -/
  | delegate {d : Decision} (hd : p.idle.bind (·.evaluate s now) = some d)
    (h : now.nanos + d.timeout.nanos ≤ p.limit s) : Answers p s now (some d)
  /-- Nothing, if the delegate has no opinion and the session's own interval runs out no later. -/
  | defers {e : Int} (hnone : p.idle.bind (·.evaluate s now) = none) (he : s.idleEnd = some e)
    (h : e ≤ p.limit s) : Answers p s now none
  /-- What is left of the lifetime, if that is over before anything else runs out. -/
  | lifetime {left : Duration} (hleft : now.nanos + left.nanos = p.limit s)
    (hdelegate : ∀ d, p.idle.bind (·.evaluate s now) = some d →
      p.limit s < now.nanos + d.timeout.nanos)
    (hown : p.idle.bind (·.evaluate s now) = none → ∀ e, s.idleEnd = some e → p.limit s < e) :
    Answers p s now (some ⟨left, p.action⟩)

lemma idleLimit_eq (h : p.Checked) (s : Session) (now : Time) : p.idleLimit s =
    ((p.idle.bind (·.evaluate s now)).map fun d => now.nanos + d.timeout.nanos).or s.idleEnd := by
  rw [idleLimit, ← map_delegated h s now, Option.map_map]
  rfl

/-- **What a fixed lifetime answers**, by exact arithmetic. -/
theorem answers_evaluate (h : p.Checked) (hs : s.maxIdle ≤ .longest) (now : Time) :
    p.Answers s now (p.evaluate s now) := by
  have hyields := yieldsAt_iff h hs now
  rw [Yields, idleLimit_eq h s now] at hyields
  rw [evaluate_eq]
  by_cases hat : p.yieldsAt s now = true
  · obtain ⟨e, he, hle⟩ := hyields.1 hat
    rw [if_pos hat]
    cases hd : p.idle.bind (·.evaluate s now) with
    | some d =>
      rw [hd] at he
      obtain rfl := Option.some.inj he
      exact .delegate hd hle
    | none =>
      rw [hd] at he
      exact .defers hd he hle
  · have hlate : ∀ e, _ = some e → p.limit s < e := fun e he =>
      Int.not_le.1 fun hle => hat (hyields.2 ⟨e, he, hle⟩)
    obtain ⟨hpos, hle⟩ := h.bounds
    obtain ⟨left, hsub, hleft⟩ := Duration.exists_sub? hpos hle now s.created
    rw [if_neg hat, hsub, Option.map_some]
    refine .lifetime (by rw [limit]; omega) (fun d hd => ?_) fun hnone e he => ?_
    · exact hlate _ (by rw [hd]; rfl)
    · exact hlate e (by rw [hnone]; exact he)

end FixedPolicy

/-! ## Policies made of policies -/

namespace Policy

mutual

def leaves : Policy → List Policy
  | idle p => [idle p]
  | fixed p => [fixed p]
  | custom p => [custom p]
  | firstOf parts => leavesOf parts

def leavesOf : List Policy → List Policy
  | [] => []
  | p :: rest => leaves p ++ leavesOf rest

end

mutual

/-- **The first leaf that has an opinion decides.** -/
lemma evaluate_eq_findSome? (p : Policy) (s : Session) (now : Time) :
    p.evaluate s now = p.leaves.findSome? (·.evaluate s now) := by
  cases p with
  | idle q => simp [leaves]
  | fixed q => simp [leaves]
  | custom q => simp [leaves]
  | firstOf parts => exact evaluateFirst_eq_findSome? parts s now

lemma evaluateFirst_eq_findSome? (parts : List Policy) (s : Session) (now : Time) :
    evaluateFirst parts s now = (leavesOf parts).findSome? (·.evaluate s now) := by
  cases parts with
  | nil => rfl
  | cons p rest =>
    rw [evaluateFirst, leavesOf, List.findSome?_append, ← evaluate_eq_findSome? p s now,
      ← evaluateFirst_eq_findSome? rest s now]

end

def decider (p : Policy) (s : Session) (now : Time) : Option Policy :=
  p.leaves.find? fun leaf => (leaf.evaluate s now).isSome

structure Checked (p : Policy) : Prop where
  idle : ∀ q, .idle q ∈ p.leaves → q.Checked
  fixed : ∀ q, .fixed q ∈ p.leaves → q.Checked

/-- When the session ends for a part of this library that is not made of others, and what happens
then; none if it has no opinion. -/
def leafEnding (leaf : Policy) (s : Session) : Option (Int × Action) :=
  match leaf with
  | idle q => q.ending s
  | fixed q => q.ending s
  | custom _ => none
  | firstOf _ => none

mutual

lemma leaf_cases {leaf : Policy} (p : Policy) (h : leaf ∈ p.leaves) :
    (∃ q, leaf = .idle q) ∨ (∃ q, leaf = .fixed q) ∨ ∃ q ∈ p.customs, leaf = .custom q := by
  cases p with
  | idle q => exact .inl ⟨q, List.mem_singleton.1 h⟩
  | fixed q => exact .inr (.inl ⟨q, List.mem_singleton.1 h⟩)
  | custom q => exact .inr (.inr ⟨q, List.mem_singleton_self q, List.mem_singleton.1 h⟩)
  | firstOf parts => exact leaf_cases_of parts h

lemma leaf_cases_of {leaf : Policy} (parts : List Policy) (h : leaf ∈ leavesOf parts) :
    (∃ q, leaf = .idle q) ∨ (∃ q, leaf = .fixed q) ∨ ∃ q ∈ customsOf parts, leaf = .custom q := by
  cases parts with
  | nil => cases h
  | cons p rest =>
    rcases List.mem_append.1 h with h | h
    · exact (leaf_cases p h).imp_right <| .imp_right fun ⟨q, hq, heq⟩ =>
        ⟨q, List.mem_append_left _ hq, heq⟩
    · exact (leaf_cases_of rest h).imp_right <| .imp_right fun ⟨q, hq, heq⟩ =>
        ⟨q, List.mem_append_right _ hq, heq⟩

end

variable {p : Policy}

lemma map_ending_leaf (hp : p.Checked) (hcustoms : p.customs = []) (hs : s.maxIdle ≤ .longest)
    (now : Time) {leaf : Policy} (h : leaf ∈ p.leaves) :
    (leaf.evaluate s now).map (·.ending now) = leaf.leafEnding s := by
  rcases leaf_cases p h with ⟨q, rfl⟩ | ⟨q, rfl⟩ | ⟨q, hq, -⟩
  · exact IdlePolicy.map_ending_evaluate (hp.idle q h) s now
  · exact FixedPolicy.map_ending_evaluate (hp.fixed q h) hs now
  · rw [hcustoms] at hq
    cases hq

lemma map_ending_evaluate (hp : p.Checked) (hcustoms : p.customs = []) (hs : s.maxIdle ≤ .longest)
    (now : Time) :
    (p.evaluate s now).map (·.ending now) = p.leaves.findSome? (·.leafEnding s) := by
  rw [evaluate_eq_findSome?, List.map_findSome?]
  exact findSome?_congr fun leaf h => map_ending_leaf hp hcustoms hs now h

lemma decider_eq (hp : p.Checked) (hcustoms : p.customs = []) (hs : s.maxIdle ≤ .longest)
    (now : Time) : p.decider s now = p.leaves.find? fun leaf => (leaf.leafEnding s).isSome :=
  List.find?_congr fun leaf h => by
    rw [← map_ending_leaf hp hcustoms hs now h, Option.isSome_map]

/-- **Policies count down.** For a policy made of idle timeouts and fixed lifetimes, the decisions
on a record run out at a moment, and with an action, that do not depend on the time at which they
are made: those that the first leaf sets that sets any. So at two times there is a decision at both
or at none, with the same action and with less left by exactly what has passed between them; the
same leaf decides, by the same limit; and what is due stays due. -/
theorem evaluate_counts_down (hp : p.Checked) (hcustoms : p.customs = [])
    (hs : s.maxIdle ≤ .longest) :
    (∀ now, (p.evaluate s now).map (·.ending now) = p.leaves.findSome? (·.leafEnding s)) ∧
    ∀ now later : Time,
      Option.Rel (fun d e : Decision => e.action = d.action ∧
          e.timeout.nanos = d.timeout.nanos - (later.nanos - now.nanos))
        (p.evaluate s now) (p.evaluate s later) ∧
      p.decider s later = p.decider s now ∧
      (∀ q, p.decider s now = some (.fixed q) → q.yieldsAt s later = q.yieldsAt s now) ∧
      (now ≤ later → ∀ d ∈ p.evaluate s now, d.isExpired = true →
        ∃ e ∈ p.evaluate s later, e.isExpired = true) := by
  have hends := map_ending_evaluate hp hcustoms hs
  refine ⟨hends, fun now later => ?_⟩
  have hrel : Option.Rel (fun d e : Decision => e.action = d.action ∧
      e.timeout.nanos = d.timeout.nanos - (later.nanos - now.nanos))
      (p.evaluate s now) (p.evaluate s later) := by
    refine rel_of_map_eq ((hends now).trans (hends later).symm) fun d e hsame => ?_
    obtain ⟨hmoment, haction⟩ := Prod.mk.inj hsame
    exact ⟨haction.symm, by omega⟩
  refine ⟨hrel, ?_, fun q hq => ?_, fun hle d hd hdue => ?_⟩
  · rw [decider_eq hp hcustoms hs, decider_eq hp hcustoms hs]
  · have hchecked := hp.fixed q (List.mem_of_find?_eq_some hq)
    rw [Bool.eq_iff_iff, FixedPolicy.yieldsAt_iff hchecked hs, FixedPolicy.yieldsAt_iff hchecked hs]
  · rw [Option.mem_def.1 hd] at hrel
    generalize p.evaluate s later = found at hrel ⊢
    cases hrel with
    | @some _ e hstep =>
      rw [Decision.isExpired, decide_eq_true_eq] at hdue
      rw [Time.le_iff] at hle
      exact ⟨e, rfl, by rw [Decision.isExpired, decide_eq_true_eq]; omega⟩

end Policy

namespace Sample

/-- The first lifetime leaves `pioneer` to its own interval, the timeout is switched off, and the
second lifetime yields to its delegate. -/
def tiered : Policy :=
  .firstOf [.fixed ⟨.ofSeconds 91, none, .invalidate⟩, .firstOf [.idle ⟨none, .invalidate⟩,
    .fixed ⟨.ofSeconds 90, some ⟨some (.ofSeconds 60), .destroy⟩, .invalidate⟩]]

lemma checked_tiered : tiered.Checked where
  idle q h := by
    obtain rfl : q = ⟨none, .invalidate⟩ := by
      simpa [tiered, Policy.leaves, Policy.leavesOf] using h
    exact ⟨none, .invalidate, rfl⟩
  fixed q h := by
    have hq : q = ⟨.ofSeconds 91, none, .invalidate⟩ ∨
        q = ⟨.ofSeconds 90, some ⟨some (.ofSeconds 60), .destroy⟩, .invalidate⟩ := by
      simpa [tiered, Policy.leaves, Policy.leavesOf] using h
    rcases hq with rfl | rfl
    · exact ⟨_, .ofSeconds 91, .invalidate, rfl, .inl rfl⟩
    · exact ⟨⟨.ofSeconds 90, none, .invalidate⟩, .ofSeconds 90, .invalidate, rfl,
        .inr ⟨_, ⟨some (.ofSeconds 60), .destroy, rfl⟩, rfl⟩⟩

end Sample

namespace Policy

open Sample

/-- The delegate decides when the record is made and a second and a half later. -/
theorem evaluate_counts_down_tiered :
    tiered.Checked ∧ tiered.customs = [] ∧ pioneer.maxIdle ≤ .longest ∧
      tiered.evaluate pioneer evening = some ⟨.ofSeconds 60, .destroy⟩ ∧
      Option.Rel (fun d e : Decision => e.action = d.action ∧
          e.timeout.nanos = d.timeout.nanos - (Time.epoch.nanos - evening.nanos))
        (tiered.evaluate pioneer evening) (tiered.evaluate pioneer .epoch) ∧
      (tiered.evaluate pioneer .epoch).map (·.timeout.nanos) = some 58500000000 ∧
      tiered.decider pioneer .epoch = tiered.decider pioneer evening := by
  have hmaxIdle : pioneer.maxIdle ≤ .longest := by decide
  obtain ⟨hrel, hdecider, -⟩ :=
    (evaluate_counts_down checked_tiered rfl hmaxIdle).2 evening .epoch
  exact ⟨checked_tiered, rfl, hmaxIdle, by decide +kernel, hrel, by decide +kernel, hdecider⟩

end Policy

end Sessions
