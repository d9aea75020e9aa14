import Mathlib.Control.Monad.Basic
import Sessions.Proofs.Table
import Sessions.Proofs.Text
import Sessions.Proofs.Time

/-!
# Outcomes and options

Taking apart a computation that succeeded or failed, and options whose contents are related.
-/

namespace Sessions

/-! ## Outcomes -/

lemma bind_eq_ok {ε α β : Type} {x : Except ε α} {f : α → Except ε β} {y : β} :
    (x >>= f) = .ok y ↔ ∃ a, x = .ok a ∧ f a = .ok y := by
  cases x with
  | error e => simp [bind, Except.bind]
  | ok a => simp [bind, Except.bind]

lemma exists_bind_eq_ok {ε α β : Type} {x : Except ε α} {f : α → Except ε β} :
    (∃ y, (x >>= f) = .ok y) ↔ ∃ a, x = .ok a ∧ ∃ y, f a = .ok y := by
  cases x with
  | error e => simp [bind, Except.bind]
  | ok a => simp [bind, Except.bind]

lemma bind_eq_error {ε α β : Type} {x : Except ε α} {f : α → Except ε β} {e : ε} :
    (x >>= f) = .error e ↔ x = .error e ∨ ∃ a, x = .ok a ∧ f a = .error e := by
  cases x with
  | error e => simp [bind, Except.bind]
  | ok a => simp [bind, Except.bind]

@[simp] lemma ok_bind {ε α β : Type} (a : α) (f : α → Except ε β) :
    (Except.ok a >>= f) = f a := rfl

/-! ## Options -/

section Options

variable {α β : Type} {r : α → α → Prop} {x y : Option α}

lemma rel_refl (h : ∀ a, r a a) : ∀ x : Option α, Option.Rel r x x
  | some a => .some (h a)
  | none => .none

lemma rel_map {q : β → β → Prop} {f : α → β} (h : ∀ a b, r a b → q (f a) (f b))
    (hxy : Option.Rel r x y) : Option.Rel q (x.map f) (y.map f) := by
  cases hxy with
  | some hab => exact .some (h _ _ hab)
  | none => exact .none

lemma eq_of_rel (hxy : Option.Rel Eq x y) : x = y := by
  cases hxy with
  | some hab => rw [hab]
  | none => rfl

end Options

end Sessions
