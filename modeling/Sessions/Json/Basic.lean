import Sessions.Decimal.Shortest
import Sessions.Table

/-!
# JSON values

Whole numbers and doubles are different values, so `1` and `1.0` are never the same, while the
two zeros among the doubles are. The members of an object are listed by increasing name.
-/

namespace Sessions

/-- A JSON value. -/
inductive Json where
  | null
  | bool (value : Bool)
  | int (value : Int)
  | double (value : Binary64)
  | str (text : String)
  | arr (items : List Json)
  | obj (members : List (String × Json))

namespace Json

instance : Inhabited Json := ⟨null⟩

def isNull : Json → Bool
  | null => true
  | _ => false

def text? : Json → Option String
  | str text => some text
  | _ => none

mutual

/-- Structural equality, with a given test for the doubles. -/
def sameBy (number : Binary64 → Binary64 → Bool) : Json → Json → Bool
  | null, null => true
  | bool a, bool b => a == b
  | int a, int b => a == b
  | double a, double b => number a b
  | str a, str b => a == b
  | arr a, arr b => sameItemsBy number a b
  | obj a, obj b => sameMembersBy number a b
  | _, _ => false

def sameItemsBy (number : Binary64 → Binary64 → Bool) : List Json → List Json → Bool
  | [], [] => true
  | a :: as, b :: bs => sameBy number a b && sameItemsBy number as bs
  | _, _ => false

def sameMembersBy (number : Binary64 → Binary64 → Bool) :
    List (String × Json) → List (String × Json) → Bool
  | [], [] => true
  | (m, a) :: as, (n, b) :: bs => m == n && sameBy number a b && sameMembersBy number as bs
  | _, _ => false

end

/-- Equality of values, with `0.0` and `-0.0` the same. -/
def same (a b : Json) : Bool := sameBy Binary64.same a b

mutual

/-- How many arrays and objects enclose the innermost value. -/
def depth : Json → Nat
  | arr items => depthItems items + 1
  | obj members => depthMembers members + 1
  | _ => 0

def depthItems : List Json → Nat
  | [] => 0
  | x :: rest => max (depth x) (depthItems rest)

def depthMembers : List (String × Json) → Nat
  | [] => 0
  | (_, x) :: rest => max (depth x) (depthMembers rest)

end

/-- An object from members in any order; the last of several with one name stays. -/
def ofMembers (members : List (String × Json)) : Json :=
  obj (members.foldl (fun sorted m => Entries.insert m.1 m.2 sorted) [])

/-- The member of an object under `name`. -/
def member? (name : String) : Json → Option Json
  | obj members => Entries.find? name members
  | _ => none

section

variable {number : Binary64 → Binary64 → Bool}

mutual

theorem sameBy_refl (h : ∀ x, number x x = true) : ∀ v : Json, sameBy number v v = true
  | null => rfl
  | bool _ => by simp [sameBy]
  | int _ => by simp [sameBy]
  | double x => h x
  | str _ => by simp [sameBy]
  | arr items => by simpa [sameBy] using sameItemsBy_refl h items
  | obj members => by simpa [sameBy] using sameMembersBy_refl h members

theorem sameItemsBy_refl (h : ∀ x, number x x = true) :
    ∀ items : List Json, sameItemsBy number items items = true
  | [] => rfl
  | x :: rest => by simp [sameItemsBy, sameBy_refl h x, sameItemsBy_refl h rest]

theorem sameMembersBy_refl (h : ∀ x, number x x = true) :
    ∀ members : List (String × Json), sameMembersBy number members members = true
  | [] => rfl
  | (_, x) :: rest => by simp [sameMembersBy, sameBy_refl h x, sameMembersBy_refl h rest]

end

mutual

theorem eq_of_sameBy (h : ∀ x y, number x y = true → x = y) :
    ∀ {v w : Json}, sameBy number v w = true → v = w
  | null, w, hs => by cases w <;> simp_all [sameBy]
  | bool _, w, hs => by cases w <;> simp_all [sameBy]
  | int _, w, hs => by cases w <;> simp_all [sameBy]
  | double x, w, hs => by cases w <;> simp_all [sameBy]; exact h _ _ hs
  | str _, w, hs => by cases w <;> simp_all [sameBy]
  | arr items, w, hs => by cases w <;> simp_all [sameBy]; exact eq_of_sameItemsBy h hs
  | obj members, w, hs => by cases w <;> simp_all [sameBy]; exact eq_of_sameMembersBy h hs

theorem eq_of_sameItemsBy (h : ∀ x y, number x y = true → x = y) :
    ∀ {v w : List Json}, sameItemsBy number v w = true → v = w
  | [], [], _ => rfl
  | [], _ :: _, hs => by simp [sameItemsBy] at hs
  | _ :: _, [], hs => by simp [sameItemsBy] at hs
  | a :: as, b :: bs, hs => by
    simp only [sameItemsBy, Bool.and_eq_true] at hs
    rw [eq_of_sameBy h hs.1, eq_of_sameItemsBy h hs.2]

theorem eq_of_sameMembersBy (h : ∀ x y, number x y = true → x = y) :
    ∀ {v w : List (String × Json)}, sameMembersBy number v w = true → v = w
  | [], [], _ => rfl
  | [], _ :: _, hs => by simp [sameMembersBy] at hs
  | _ :: _, [], hs => by simp [sameMembersBy] at hs
  | (m, a) :: as, (n, b) :: bs, hs => by
    simp only [sameMembersBy, Bool.and_eq_true, beq_iff_eq] at hs
    rw [hs.1.1, eq_of_sameBy h hs.1.2, eq_of_sameMembersBy h hs.2]

end

end

instance : DecidableEq Json := fun v w =>
  if h : sameBy (· == ·) v w = true then .isTrue (eq_of_sameBy (fun _ _ => beq_iff_eq.1) h)
  else .isFalse fun he => h (he ▸ sameBy_refl (fun _ => beq_self_eq_true _) v)

end Json

end Sessions
