import Mathlib.Tactic.Lemma
import Sessions.Table

/-!
# What a table answers

Look-ups after an insertion, a removal and a replacement of all values, first for sorted lists of
entries and then for tables. Entries in order make a table again when they are inserted one by one,
and a table is what it answers (`Table.ext_find?`).
-/

namespace Sessions

variable {α : Type}

namespace Entries

lemma find?_eq_none_of_lt {name : String} {entries : List (String × α)}
    (h : ∀ x ∈ entries, name < x.1) : find? name entries = none := by
  induction entries with
  | nil => rfl
  | cons e rest ih =>
    obtain ⟨n, v⟩ := e
    have hn : n ≠ name := fun heq => String.lt_irrefl name (heq ▸ h (n, v) List.mem_cons_self)
    simp only [find?, if_neg hn]
    exact ih fun x hx => h x (List.mem_cons_of_mem _ hx)

lemma find?_insert (name other : String) (value : α) (entries : List (String × α)) :
    find? other (insert name value entries) =
      if name = other then some value else find? other entries := by
  induction entries with
  | nil => simp [insert, find?]
  | cons e rest ih =>
    obtain ⟨n, v⟩ := e
    simp only [insert]
    split
    next => simp [find?]
    next =>
      split
      next heq => subst heq; by_cases h : n = other <;> simp [find?, h]
      next hne =>
        simp only [find?, ih]
        by_cases h : n = other
        · subst h; simp [Ne.symm hne]
        · simp [h]

lemma find?_erase {entries : List (String × α)} (h : Ascending entries) (name other : String) :
    find? other (erase name entries) = if name = other then none else find? other entries := by
  induction entries with
  | nil => simp [erase, find?]
  | cons e rest ih =>
    obtain ⟨n, v⟩ := e
    obtain ⟨hhead, htail⟩ := ascending_cons.1 h
    simp only [erase]
    split
    next heq =>
      subst heq
      by_cases h : n = other
      · subst h; simpa using find?_eq_none_of_lt hhead
      · simp [find?, h]
    next hne =>
      simp only [find?, ih htail]
      by_cases h : n = other
      · subst h; simp [Ne.symm hne]
      · simp [h]

lemma mem_iff_find? {entries : List (String × α)} (h : Ascending entries) (name : String)
    (value : α) : (name, value) ∈ entries ↔ find? name entries = some value := by
  induction entries with
  | nil => simp [find?]
  | cons e rest ih =>
    obtain ⟨n, v⟩ := e
    obtain ⟨hhead, htail⟩ := ascending_cons.1 h
    by_cases hn : n = name
    · subst hn
      have hnot : (n, value) ∉ rest := fun hm => String.lt_irrefl n (hhead _ hm)
      simp [find?, hnot, eq_comm]
    · simp [find?, hn, ih htail, Ne.symm hn]

lemma ext_find? {xs ys : List (String × α)} (hx : Ascending xs) (hy : Ascending ys)
    (h : ∀ name, find? name xs = find? name ys) : xs = ys := by
  induction xs generalizing ys with
  | nil =>
    cases ys with
    | nil => rfl
    | cons e rest => simpa [find?] using h e.1
  | cons e rest ih =>
    obtain ⟨n, v⟩ := e
    cases ys with
    | nil => simpa [find?] using h n
    | cons f more =>
      obtain ⟨m, w⟩ := f
      obtain ⟨hhead, htail⟩ := ascending_cons.1 hx
      obtain ⟨hhead', htail'⟩ := ascending_cons.1 hy
      have hmem : (m, w) ∈ (n, v) :: rest :=
        (mem_iff_find? hx m w).2 (by rw [h m]; simp [find?])
      have hmem' : (n, v) ∈ (m, w) :: more :=
        (mem_iff_find? hy n v).2 (by rw [← h n]; simp [find?])
      have hnm : n = m := by
        rcases List.mem_cons.1 hmem with heq | hm
        · exact (congrArg Prod.fst heq).symm
        · rcases List.mem_cons.1 hmem' with heq | hm'
          · exact congrArg Prod.fst heq
          · exact absurd (hhead _ hm) (String.lt_asymm (hhead' _ hm'))
      subst hnm
      have hvw : v = w := by simpa [find?] using h n
      subst hvw
      refine congrArg _ (ih htail htail' fun name => ?_)
      by_cases hname : n = name
      · subst hname
        rw [find?_eq_none_of_lt hhead, find?_eq_none_of_lt hhead']
      · simpa [find?, hname] using h name

lemma insert_of_lt {name : String} {value : α} {entries : List (String × α)}
    (h : ∀ e ∈ entries, e.1 < name) : insert name value entries = entries ++ [(name, value)] := by
  induction entries with
  | nil => rfl
  | cons e rest ih =>
    obtain ⟨n, v⟩ := e
    have hlt := h (n, v) List.mem_cons_self
    have hne : n ≠ name := fun heq => String.lt_irrefl name (heq ▸ hlt)
    simp only [insert, if_neg (String.lt_asymm hlt), if_neg hne, List.cons_append]
    rw [ih fun e he => h e (List.mem_cons_of_mem _ he)]

lemma foldl_insert (front : List (String × α)) {entries : List (String × α)}
    (h : Ascending (front ++ entries)) :
    entries.foldl (fun sorted e => insert e.1 e.2 sorted) front = front ++ entries := by
  induction entries generalizing front with
  | nil => simp
  | cons e rest ih =>
    have hlt : ∀ x ∈ front, x.1 < e.1 := fun x hx =>
      (List.pairwise_append.1 h).2.2 x hx e List.mem_cons_self
    rw [List.foldl_cons, insert_of_lt hlt, ih _ (by simpa using h)]
    simp

end Entries

namespace Table

@[simp] lemma find?_empty (name : String) : (∅ : Table α).find? name = none := rfl

lemma find?_insert (t : Table α) (name other : String) (value : α) :
    (t.insert name value).find? other = if name = other then some value else t.find? other :=
  Entries.find?_insert name other value t.entries

lemma find?_erase (t : Table α) (name other : String) :
    (t.erase name).find? other = if name = other then none else t.find? other :=
  Entries.find?_erase t.ascending name other

lemma mem_entries_iff (t : Table α) (name : String) (value : α) :
    (name, value) ∈ t.entries ↔ t.find? name = some value :=
  Entries.mem_iff_find? t.ascending name value

lemma find?_filterMap {β : Type} (t : Table α) (f : String → α → Option β) (name : String) :
    (t.filterMap f).find? name = (t.find? name).bind (f name) := by
  refine Option.ext fun x => ?_
  rw [← mem_entries_iff, Option.bind_eq_some_iff]
  simp only [filterMap, List.mem_filterMap, Option.map_eq_some_iff, Prod.mk.injEq]
  constructor
  · rintro ⟨⟨n, v⟩, hm, y, hy, rfl, rfl⟩
    exact ⟨v, (mem_entries_iff t _ v).1 hm, hy⟩
  · rintro ⟨v, hv, hx⟩
    exact ⟨(name, v), (mem_entries_iff t name v).2 hv, x, hx, rfl, rfl⟩

@[ext] lemma ext_find? {s t : Table α} (h : ∀ name, s.find? name = t.find? name) : s = t := by
  cases s with
  | mk xs hx =>
    cases t with
    | mk ys hy =>
      have : xs = ys := Entries.ext_find? hx hy h
      subst this
      rfl

lemma ofList_entries (t : Table α) : Table.ofList t.entries = t := by
  have hentries : (Table.ofList t.entries).entries = t.entries :=
    calc
      (Table.ofList t.entries).entries
          = t.entries.foldl (fun sorted e => Entries.insert e.1 e.2 sorted) [] :=
        (List.foldl_hom Table.entries fun _ _ => rfl).symm
      _ = t.entries := Entries.foldl_insert [] t.ascending
  exact Table.ext_find? fun name => congrArg (Entries.find? name) hentries

end Table

end Sessions
