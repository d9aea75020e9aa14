import Sessions.Proofs.Json.Echo

/-!
# Where a colon stands in a printed value

The text of a value is not the text of another one behind something that ends in a colon. So a name
and a value can be joined by a plain colon, whatever characters the name has.

The text is scanned once, with the place of each character: outside of strings at some depth of
brackets, inside of a string, or behind a reverse solidus in one. The scan is lost at a reverse
solidus outside of strings and at a colon outside of strings and brackets. A value that is scanned
from outside ends where it began. From inside of a string its quotes are taken the wrong way round,
and the scan can only end inside again, or be lost.
-/

namespace Sessions.Json

/-- Where a character stands. The depth is how many brackets are open there. -/
inductive Spot where
  | outside (depth : Nat)
  | inside (depth : Nat)
  | escaped (depth : Nat)
  | lost
  deriving DecidableEq

namespace Spot

def next : Spot → Char → Spot
  | outside depth, c =>
    if c = '"' then inside depth
    else if c = '\\' then lost
    else if c = '[' ∨ c = '\x7b' then outside (depth + 1)
    else if c = ']' ∨ c = '\x7d' then outside (depth - 1)
    else if c = ':' ∧ depth = 0 then lost
    else outside depth
  | inside depth, c =>
    if c = '"' then outside depth else if c = '\\' then escaped depth else inside depth
  | escaped depth, _ => inside depth
  | lost, _ => lost

def scan (s : Spot) (cs : List Char) : Spot := cs.foldl next s

variable {s : Spot} {depth : Nat}

@[simp] lemma scan_nil (s : Spot) : s.scan [] = s := rfl

@[simp] lemma scan_cons (s : Spot) (c : Char) (cs : List Char) :
    s.scan (c :: cs) = (s.next c).scan cs := rfl

@[simp] lemma scan_append (s : Spot) (cs ds : List Char) :
    s.scan (cs ++ ds) = (s.scan cs).scan ds := by
  simp [scan, List.foldl_append]

@[simp] lemma scan_lost (cs : List Char) : lost.scan cs = lost := by
  induction cs with
  | nil => rfl
  | cons c cs ih => exact ih

/-- Inside of a string, or lost. -/
def Within : Spot → Prop
  | inside _ | lost => True
  | outside _ | escaped _ => False

lemma Within.eq_inside_or_lost (h : s.Within) : (∃ depth, s = inside depth) ∨ s = lost := by
  cases s with
  | inside depth => exact .inl ⟨depth, rfl⟩
  | lost => exact .inr rfl
  | outside depth => cases h
  | escaped depth => cases h

/-! ## Single characters -/

/-- A character that changes nothing wherever it stands. -/
def Plain (c : Char) : Prop :=
  c ≠ '"' ∧ c ≠ '\\' ∧ c ≠ '[' ∧ c ≠ '\x7b' ∧ c ≠ ']' ∧ c ≠ '\x7d' ∧ c ≠ ':'

instance (c : Char) : Decidable (Plain c) := inferInstanceAs (Decidable (_ ∧ _))

lemma Plain.unquoted {c : Char} (h : Plain c) : c ≠ '"' ∧ c ≠ '\\' := ⟨h.1, h.2.1⟩

lemma plain_of_isNumeric {c : Char} (h : IsNumeric c) : Plain c := by
  rcases h with hdigit | hsign
  · simp only [Char.isDigit, Bool.and_eq_true, decide_eq_true_eq, ge_iff_le] at hdigit
    refine ⟨?_, ?_, ?_, ?_, ?_, ?_, ?_⟩ <;> rintro rfl <;> revert hdigit <;> decide
  · simp only [List.mem_cons, List.not_mem_nil, or_false] at hsign
    rcases hsign with rfl | rfl | rfl | rfl <;> decide

lemma scan_outside_plain {cs : List Char} (h : ∀ c ∈ cs, Plain c) :
    (outside depth).scan cs = outside depth := by
  induction cs with
  | nil => rfl
  | cons c cs ih =>
    obtain ⟨hquote, hsolidus, hopen, hopen', hclose, hclose', hcolon⟩ := h c List.mem_cons_self
    rw [scan_cons, next]
    simp only [hquote, hsolidus, hopen, hopen', hclose, hclose', hcolon, false_and, or_self,
      if_false]
    exact ih fun d hd => h d (List.mem_cons_of_mem c hd)

lemma scan_inside_plain {cs : List Char} (h : ∀ c ∈ cs, c ≠ '"' ∧ c ≠ '\\') :
    (inside depth).scan cs = inside depth := by
  induction cs with
  | nil => rfl
  | cons c cs ih =>
    obtain ⟨hquote, hsolidus⟩ := h c List.mem_cons_self
    rw [scan_cons, next]
    simp only [hquote, hsolidus, if_false]
    exact ih fun d hd => h d (List.mem_cons_of_mem c hd)

lemma within_next (hs : s.Within) {c : Char} (h : c ≠ '"' ∧ c ≠ '\\') : (s.next c).Within := by
  rcases hs.eq_inside_or_lost with ⟨depth, rfl⟩ | rfl
  · rw [next, if_neg h.1, if_neg h.2]
    trivial
  · trivial

lemma within_scan_plain (hs : s.Within) {cs : List Char} (h : ∀ c ∈ cs, c ≠ '"' ∧ c ≠ '\\') :
    (s.scan cs).Within := by
  induction cs generalizing s with
  | nil => exact hs
  | cons c cs ih =>
    exact ih (within_next hs (h c List.mem_cons_self)) fun d hd => h d (List.mem_cons_of_mem c hd)

/-! ## Strings -/

lemma escapeChar_cases (c : Char) :
    (escapeChar c = [c] ∧ c ≠ '"' ∧ c ≠ '\\') ∨
      ∃ letter rest, escapeChar c = '\\' :: letter :: rest ∧ ∀ d ∈ rest, d ≠ '"' ∧ d ≠ '\\' := by
  have hdigit : ∀ n, n < 16 → Hex.digit n ≠ '"' ∧ Hex.digit n ≠ '\\' := by decide
  unfold escapeChar
  split
  · exact .inr ⟨_, _, rfl, nofun⟩
  next hquote =>
    split
    · exact .inr ⟨_, _, rfl, nofun⟩
    next hsolidus =>
      iterate 5
        split
        · exact .inr ⟨_, _, rfl, nofun⟩
      split
      next hcontrol =>
        refine .inr ⟨_, _, rfl, ?_⟩
        simp only [List.forall_mem_cons, List.not_mem_nil, false_implies, implies_true, and_true]
        exact ⟨by decide, by decide, hdigit _ (by omega), hdigit _ (by omega)⟩
      next => exact .inl ⟨rfl, hquote, hsolidus⟩

lemma scan_inside_escaped (cs : List Char) :
    (inside depth).scan (cs.flatMap escapeChar) = inside depth := by
  induction cs with
  | nil => rfl
  | cons c cs ih =>
    have hchar : (inside depth).scan (escapeChar c) = inside depth := by
      rcases escapeChar_cases c with ⟨heq, hplain⟩ | ⟨letter, rest, heq, hrest⟩
      · rw [heq]
        exact scan_inside_plain fun d hd => List.mem_singleton.1 hd ▸ hplain
      · rw [heq]
        change (inside depth).scan rest = _
        exact scan_inside_plain hrest
    rw [List.flatMap_cons, scan_append, hchar, ih]

/-- The characters of a string that are scanned as if they stood outside of it: the scan stays
outside, or a reverse solidus loses it. -/
lemma scan_outside_escaped (cs : List Char) (depth : Nat) :
    (∃ depth', (outside depth).scan (cs.flatMap escapeChar) = outside depth') ∨
      (outside depth).scan (cs.flatMap escapeChar) = lost := by
  induction cs generalizing depth with
  | nil => exact .inl ⟨depth, rfl⟩
  | cons c cs ih =>
    rw [List.flatMap_cons, scan_append]
    rcases escapeChar_cases c with ⟨heq, hquote, hsolidus⟩ | ⟨letter, rest, heq, -⟩
    · rw [heq, scan_cons, scan_nil, next, if_neg hquote, if_neg hsolidus]
      split
      · exact ih _
      · split
        · exact ih _
        · split
          · exact .inr (scan_lost _)
          · exact ih _
    · rw [heq]
      change (∃ depth', (lost.scan rest).scan _ = _) ∨ (lost.scan rest).scan _ = _
      rw [scan_lost, scan_lost]
      exact .inr rfl

lemma scan_outside_quoted (text : String) :
    (outside depth).scan (quoted text) = outside depth := by
  rw [quoted, List.cons_append, scan_cons, scan_append]
  change ((inside depth).scan _).scan _ = _
  rw [scan_inside_escaped]
  rfl

lemma within_scan_quoted (hs : s.Within) (text : String) : (s.scan (quoted text)).Within := by
  rcases hs.eq_inside_or_lost with ⟨depth, rfl⟩ | rfl
  · rw [quoted, List.cons_append, scan_cons, scan_append]
    change (((outside depth).scan _).scan _).Within
    rcases scan_outside_escaped text.toList depth with ⟨depth', heq⟩ | heq
    · rw [heq]
      trivial
    · rw [heq]
      trivial
  · rw [scan_lost]
    trivial

end Spot

/-! ## Values -/

open Spot

variable {s : Spot} {depth : Nat}

lemma plain_null : ∀ c ∈ chars .null, Plain c := by simp [chars, Plain]

lemma plain_bool : ∀ b, ∀ c ∈ chars (.bool b), Plain c
  | true => by simp [chars, Plain]
  | false => by simp [chars, Plain]

lemma plain_intChars {n : Int} : ∀ c ∈ intChars n, Plain c :=
  fun _ hc => plain_of_isNumeric (isNumeric_intChars hc)

lemma plain_double {x : Binary64} : ∀ c ∈ x.render doubleLayout, Plain c :=
  fun _ hc => plain_of_isNumeric (isNumeric_double hc)

mutual

/-- **A value that is scanned from outside** ends where it began. -/
theorem scan_outside_chars : ∀ (v : Json) (depth : Nat),
    (outside depth).scan v.chars = outside depth
  | .null, depth => scan_outside_plain plain_null
  | .bool b, depth => scan_outside_plain (plain_bool b)
  | .int n, depth => by rw [chars]; exact scan_outside_plain plain_intChars
  | .double x, depth => by rw [chars]; exact scan_outside_plain plain_double
  | .str text, depth => by rw [chars]; exact scan_outside_quoted text
  | .arr items, depth => by
    rw [chars, List.cons_append, scan_cons, scan_append]
    change ((outside (depth + 1)).scan _).scan _ = _
    rw [scan_outside_items items depth]
    rfl
  | .obj members, depth => by
    rw [chars, List.cons_append, scan_cons, scan_append]
    change ((outside (depth + 1)).scan _).scan _ = _
    rw [scan_outside_members members depth]
    rfl

theorem scan_outside_items : ∀ (items : List Json) (depth : Nat),
    (outside (depth + 1)).scan (itemsChars items) = outside (depth + 1)
  | [], depth => rfl
  | [x], depth => scan_outside_chars x (depth + 1)
  | x :: y :: rest, depth => by
    rw [itemsChars, scan_append, scan_outside_chars x (depth + 1), scan_cons]
    exact scan_outside_items (y :: rest) depth

/-- A colon between a name and its value stands in brackets. -/
theorem scan_outside_members : ∀ (members : List (String × Json)) (depth : Nat),
    (outside (depth + 1)).scan (membersChars members) = outside (depth + 1)
  | [], depth => rfl
  | [(name, x)], depth => by
    rw [membersChars, scan_append, scan_outside_quoted, scan_cons]
    exact scan_outside_chars x (depth + 1)
  | (name, x) :: m :: rest, depth => by
    rw [membersChars, scan_append, scan_outside_quoted, scan_cons, scan_append]
    change (((outside (depth + 1)).scan x.chars).scan _) = _
    rw [scan_outside_chars x (depth + 1), scan_cons]
    exact scan_outside_members (m :: rest) depth

end

mutual

/-- **A value that is scanned from inside** of a string ends inside of one, or is lost. -/
theorem within_scan_chars : ∀ (v : Json) {s : Spot}, s.Within → (s.scan v.chars).Within
  | .null, _, hs => within_scan_plain hs fun c hc => (plain_null c hc).unquoted
  | .bool b, _, hs => within_scan_plain hs fun c hc => (plain_bool b c hc).unquoted
  | .int n, _, hs => by
    rw [chars]
    exact within_scan_plain hs fun c hc => (plain_intChars c hc).unquoted
  | .double x, _, hs => by
    rw [chars]
    exact within_scan_plain hs fun c hc => (plain_double c hc).unquoted
  | .str text, _, hs => by
    rw [chars]
    exact within_scan_quoted hs text
  | .arr items, s, hs => by
    rw [chars, List.cons_append, scan_cons, scan_append]
    exact within_next (within_scan_items items (within_next hs (by decide))) (by decide)
  | .obj members, s, hs => by
    rw [chars, List.cons_append, scan_cons, scan_append]
    exact within_next (within_scan_members members (within_next hs (by decide))) (by decide)

theorem within_scan_items : ∀ (items : List Json) {s : Spot}, s.Within →
    (s.scan (itemsChars items)).Within
  | [], _, hs => hs
  | [x], _, hs => within_scan_chars x hs
  | x :: y :: rest, s, hs => by
    rw [itemsChars, scan_append, scan_cons]
    exact within_scan_items (y :: rest) (within_next (within_scan_chars x hs) (by decide))

theorem within_scan_members : ∀ (members : List (String × Json)) {s : Spot}, s.Within →
    (s.scan (membersChars members)).Within
  | [], _, hs => hs
  | [(name, x)], s, hs => by
    rw [membersChars, scan_append, scan_cons]
    exact within_scan_chars x (within_next (within_scan_quoted hs name) (by decide))
  | (name, x) :: m :: rest, s, hs => by
    rw [membersChars, scan_append, scan_cons, scan_append, scan_cons]
    have hvalue := within_scan_chars x (within_next (within_scan_quoted hs name)
      (by decide : ':' ≠ '"' ∧ ':' ≠ '\\'))
    exact within_scan_members (m :: rest) (within_next hvalue (by decide))

end

/-- **No printed value is another one behind something and a colon.** -/
theorem chars_ne_append_colon (v w : Json) (front : List Char) :
    v.chars ≠ front ++ ':' :: w.chars := by
  intro heq
  have hscan := congrArg (outside 0).scan heq
  rw [scan_outside_chars, scan_append, scan_cons] at hscan
  have hinside : ∀ depth, outside 0 ≠ (inside depth).scan w.chars := by
    intro depth hout
    have hwithin := within_scan_chars w (s := inside depth) trivial
    rw [← hout] at hwithin
    exact hwithin
  cases hspot : (outside 0).scan front with
  | outside depth =>
    rw [hspot] at hscan
    cases depth with
    | zero =>
      change outside 0 = lost.scan w.chars at hscan
      rw [scan_lost] at hscan
      cases hscan
    | succ depth =>
      change outside 0 = (outside (depth + 1)).scan w.chars at hscan
      rw [scan_outside_chars] at hscan
      cases hscan
  | inside depth =>
    rw [hspot] at hscan
    exact hinside depth hscan
  | escaped depth =>
    rw [hspot] at hscan
    exact hinside depth hscan
  | lost =>
    rw [hspot] at hscan
    change outside 0 = lost.scan w.chars at hscan
    rw [scan_lost] at hscan
    cases hscan

end Sessions.Json
