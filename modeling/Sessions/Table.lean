/-!
# Tables

A table maps names to values and lists its entries by strictly increasing name. The order of
names is that of their characters' code points, which is also the order of their UTF-8 bytes, so
everything written from a table comes out in one canonical order and two tables with the same
answers are equal.

Insertion, removal and look-up are defined on lists of entries first: the members of a JSON object
are such a list too.
-/

namespace Sessions

namespace Entries

variable {α : Type}

/-- Names strictly increase along the list. -/
def Ascending (entries : List (String × α)) : Prop :=
  entries.Pairwise fun a b => a.1 < b.1

/-- The value held under `name`. -/
def find? (name : String) : List (String × α) → Option α
  | [] => none
  | (n, v) :: rest => if n = name then some v else find? name rest

/-- Puts `value` under `name`, in place of an earlier value or at its sorted position. -/
def insert (name : String) (value : α) : List (String × α) → List (String × α)
  | [] => [(name, value)]
  | (n, v) :: rest =>
    if name < n then (name, value) :: (n, v) :: rest
    else if n = name then (name, value) :: rest
    else (n, v) :: insert name value rest

/-- Drops the entry under `name`. -/
def erase (name : String) : List (String × α) → List (String × α)
  | [] => []
  | (n, v) :: rest => if n = name then rest else (n, v) :: erase name rest

theorem lt_of_not_lt_of_ne {a b : String} (h : ¬a < b) (hne : b ≠ a) : b < a := by
  rcases String.le_total a b with hab | hba
  · exact absurd (String.le_antisymm (String.not_lt.1 h) hab) hne
  · exact Decidable.byContradiction fun hn => hne (String.le_antisymm hba (String.not_lt.1 hn))

@[simp] theorem ascending_nil : Ascending ([] : List (String × α)) := List.Pairwise.nil

theorem ascending_cons {e : String × α} {rest : List (String × α)} :
    Ascending (e :: rest) ↔ (∀ x ∈ rest, e.1 < x.1) ∧ Ascending rest :=
  List.pairwise_cons

theorem mem_insert {name : String} {value : α} {entries : List (String × α)} {x : String × α}
    (hx : x ∈ insert name value entries) : x = (name, value) ∨ x ∈ entries := by
  induction entries with
  | nil => simpa [insert] using hx
  | cons e rest ih =>
    obtain ⟨n, v⟩ := e
    simp only [insert] at hx
    split at hx
    · simpa using hx
    · split at hx
      · rcases List.mem_cons.1 hx with h | h
        · exact .inl h
        · exact .inr (List.mem_cons_of_mem _ h)
      · rcases List.mem_cons.1 hx with h | h
        · exact .inr (h ▸ List.mem_cons_self)
        · exact (ih h).imp id (List.mem_cons_of_mem _)

theorem mem_of_mem_erase {name : String} {entries : List (String × α)} {x : String × α}
    (hx : x ∈ erase name entries) : x ∈ entries := by
  induction entries with
  | nil => simp [erase] at hx
  | cons e rest ih =>
    obtain ⟨n, v⟩ := e
    simp only [erase] at hx
    split at hx
    · exact List.mem_cons_of_mem _ hx
    · rcases List.mem_cons.1 hx with h | h
      · exact h ▸ List.mem_cons_self
      · exact List.mem_cons_of_mem _ (ih h)

theorem Ascending.insert {entries : List (String × α)} (h : Ascending entries) (name : String)
    (value : α) : Ascending (insert name value entries) := by
  induction entries with
  | nil => simp [Entries.insert, Ascending]
  | cons e rest ih =>
    obtain ⟨n, v⟩ := e
    obtain ⟨hhead, htail⟩ := ascending_cons.1 h
    simp only [Entries.insert]
    split
    next hlt =>
      refine ascending_cons.2 ⟨fun x hx => ?_, h⟩
      rcases List.mem_cons.1 hx with rfl | hx
      · exact hlt
      · exact String.lt_trans hlt (hhead x hx)
    next hlt =>
      split
      next heq => subst heq; exact ascending_cons.2 ⟨hhead, htail⟩
      next hne =>
        refine ascending_cons.2 ⟨fun x hx => ?_, ih htail⟩
        rcases mem_insert hx with rfl | hx
        · exact lt_of_not_lt_of_ne hlt hne
        · exact hhead x hx

theorem Ascending.erase {entries : List (String × α)} (h : Ascending entries) (name : String) :
    Ascending (erase name entries) := by
  induction entries with
  | nil => simp [Entries.erase]
  | cons e rest ih =>
    obtain ⟨n, v⟩ := e
    obtain ⟨hhead, htail⟩ := ascending_cons.1 h
    simp only [Entries.erase]
    split
    · exact htail
    · exact ascending_cons.2 ⟨fun x hx => hhead x (mem_of_mem_erase hx), ih htail⟩

theorem Ascending.filterMap {β : Type} {entries : List (String × α)} (h : Ascending entries)
    (f : String → α → Option β) :
    Ascending (entries.filterMap fun e => (f e.1 e.2).map fun x => (e.1, x)) := by
  refine List.Pairwise.filterMap _ (fun a b hab x hx y hy => ?_) h
  simp only [Option.map_eq_some_iff] at hx hy
  obtain ⟨_, _, rfl⟩ := hx
  obtain ⟨_, _, rfl⟩ := hy
  exact hab

end Entries

/-- Values by name, listed by strictly increasing name. -/
structure Table (α : Type) where
  entries : List (String × α)
  ascending : Entries.Ascending entries

namespace Table

variable {α : Type}

def empty : Table α := ⟨[], Entries.ascending_nil⟩

instance : EmptyCollection (Table α) := ⟨empty⟩

instance : Inhabited (Table α) := ⟨∅⟩

def find? (t : Table α) (name : String) : Option α := Entries.find? name t.entries

def insert (t : Table α) (name : String) (value : α) : Table α :=
  ⟨Entries.insert name value t.entries, t.ascending.insert name value⟩

def erase (t : Table α) (name : String) : Table α :=
  ⟨Entries.erase name t.entries, t.ascending.erase name⟩

def contains (t : Table α) (name : String) : Bool := (t.find? name).isSome

def names (t : Table α) : List String := t.entries.map Prod.fst

def size (t : Table α) : Nat := t.entries.length

def isEmpty (t : Table α) : Bool := t.entries.isEmpty

/-- Replaces or drops each value. -/
def filterMap {β : Type} (f : String → α → Option β) (t : Table α) : Table β :=
  ⟨t.entries.filterMap fun e => (f e.1 e.2).map fun x => (e.1, x), t.ascending.filterMap f⟩

/-- Later entries of the list replace earlier ones of the same name. -/
def ofList (entries : List (String × α)) : Table α :=
  entries.foldl (fun t e => t.insert e.1 e.2) ∅

end Table

/-- A set of names is a table without values. -/
abbrev Names := Table Unit

end Sessions
