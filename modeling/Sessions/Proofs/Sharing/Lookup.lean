import Sessions.Proofs.Repository.Lookup
import Sessions.Proofs.Sharing.LastSaved
import Sessions.Proofs.Sharing.Principal

/-!
# What look-ups by key give out

Where the keys of every live entry are those of the record that was last saved under its id,
look-ups by principal and by attribute give out exactly the sessions that a look-up by id would find
and whose last saved record fits. A look-up by the principal's attribute does so for the texts that
name a principal.
-/

namespace Sessions

namespace Sharing

variable {c : Codec} {names : List String} {speaker : Ident → Nat} {w : Sharing}

/-- A look-up by key does to the repository what housekeeping does and loading what it finds. So
runs tell of the states that look-ups lead to as well. -/
theorem exists_run_findByKey (w : Sharing) (i : Nat) (key : IndexKey) : ∃ ids : List Ident,
    (w.repo.findByKey key w.now).1 =
      (w.run (.tidy :: ids.map fun id => .load i id false)).repo := by
  have hall : ∀ (ids : List Ident) (w : Sharing), ∃ loaded : List Ident,
      (w.repo.loadAll w.now ids).1 = (w.run (loaded.map fun id => .load i id false)).repo := by
    intro ids
    induction ids with
    | nil => exact fun w => ⟨[], rfl⟩
    | cons id ids ih =>
      intro w
      have hrepo : (w.act (.load i id false)).repo = (w.repo.load id w.now).1 := by
        rw [act]
        unfold afterLoad
        split
        next heq => exact (congrArg Prod.fst heq).symm
        next heq => exact (congrArg Prod.fst heq).symm
      have hnow : (w.act (.load i id false)).now = w.now := by
        rcases w.now_act (.load i id false) with hnow | ⟨now, hd, -⟩
        · exact hnow
        · cases hd
      obtain ⟨loaded, hrest⟩ := ih (w.act (.load i id false))
      rw [hrepo, hnow] at hrest
      rw [Repository.loadAll]
      generalize w.repo.load id w.now = found at hrepo hrest ⊢
      obtain ⟨r, outcome⟩ := found
      cases outcome with
      | error e => exact ⟨[id], hrepo.symm⟩
      | ok t => exact ⟨id :: loaded, hrest⟩
  exact hall _ (w.act .tidy)

/-- The sessions that a look-up by id finds and whose last saved record satisfies a condition, each
once and by increasing id. What a look-up by id gives out has been accessed. -/
def Lists (w : Sharing) (P : Session → Prop) (outcome : Except Fault (List Session)) : Prop :=
  ∃ sessions, outcome = .ok sessions ∧ sessions.Pairwise (fun t u => t.id.text < u.id.text) ∧
    ∀ id u, (∃ t ∈ sessions, t.id = id ∧ t.touch w.now = u) ↔
      (w.repo.find id w.now).2 = .ok (some u) ∧ ∃ s, w.lastSaved id = some s ∧ P s

lemma not_lists_of_none {P : Session → Prop} {outcome : Except Fault (List Session)} (id : Ident)
    (hfound : (w.repo.find id w.now).2.map Option.isSome = .ok true)
    (hsaved : ∃ s ∈ w.lastSaved id, P s) (hnone : outcome.map List.length = .ok 0) :
    ¬w.Lists P outcome := by
  rintro ⟨sessions, rfl, -, hmem⟩
  obtain rfl := List.length_eq_zero_iff.1 (Except.ok.inj hnone)
  cases hfind : (w.repo.find id w.now).2 with
  | error e =>
    rw [hfind] at hfound
    cases hfound
  | ok found =>
    rw [hfind] at hfound
    obtain ⟨u, rfl⟩ := Option.isSome_iff_exists.1 (Except.ok.inj hfound)
    obtain ⟨t, ht, -⟩ := (hmem id u).2 ⟨hfind, hsaved⟩
    cases ht

/-- A look-up by the key of a text finds the sessions whose last saved record has the text. -/
theorem Solo.lists (h : Solo c names speaker w) {text : String} {P : Session → Prop}
    (hdistinct : IndexKey.Distinct (text :: w.hashed))
    (hP : ∀ v ∈ w.saves, text ∈ IndexKey.textsOf v.copy names ↔ P v.copy) :
    w.Lists P (w.repo.findByKey (.ofText text) w.now).2 := by
  have hkey : ∀ {id s}, w.lastSaved id = some s →
      (IndexKey.ofText text ∈ IndexKey.ofSession s names ↔ P s) := by
    intro id s hlast
    obtain ⟨v, hv, hcopy⟩ := Option.map_eq_some_iff.1 hlast
    have hmem := List.mem_of_find?_eq_some hv
    rw [← hcopy, ← hP v hmem]
    refine hdistinct.ofText_mem_ofSession fun other hother => List.mem_flatMap.2 ⟨v, hmem, ?_⟩
    rwa [h.indexable]
  obtain ⟨sessions, hok, hordered, hmem⟩ :=
    Repository.findByKey_exact h.orderly.codec h.orderly.entries (.ofText text) w.now
  refine ⟨sessions, hok, hordered, fun id u => (hmem id u).trans (and_congr_right fun hfound => ?_)⟩
  constructor
  · rintro ⟨payload, keys, due, hlive, hin⟩
    obtain ⟨s, hlast, rfl⟩ := h.told.entries id payload keys due hlive
    exact ⟨s, hlast, (hkey hlast).1 hin⟩
  · rintro ⟨s, hlast, hs⟩
    obtain ⟨-, -, -, hstands⟩ := Repository.exists_of_find hfound
    obtain ⟨⟨payload, due⟩, hst⟩ := Option.isSome_iff_exists.1 hstands
    obtain ⟨keys, hlive⟩ := Store.find?_of_standing hst
    obtain ⟨s', hlast', rfl⟩ := h.told.entries id payload keys due hlive
    obtain rfl := Option.some.inj (hlast.symm.trans hlast')
    exact ⟨payload, _, due, hlive, (hkey hlast).2 hs⟩

/-- **Look-ups by key are exact.** Where each session is saved through one copy, no save fails, and
values are nested no deeper than the codec reads back, a look-up by principal, or by an indexable
attribute and a value, gives out the sessions that look-ups by id find and whose last saved record
has the principal, or an attribute that prints as the value does, as long as no digests collide. -/
theorem lookups_exact (hc : c.BuiltIn) {deeds : List Deed}
    (hvalues : ∀ d ∈ deeds, ∀ value ∈ d.value?, value.Valid ∧ value.depth ≤ c.depthLimit)
    (h : Reached c names speaker deeds w) :
    (∀ p, IndexKey.Distinct (IndexKey.principalText p :: w.hashed) →
      w.Lists (fun s => s.principal = some p) (w.repo.findByPrincipal p w.now).2) ∧
      ∀ n ∈ names, n ≠ principalAttribute → ∀ v : Json,
        IndexKey.Distinct (IndexKey.attributeText n v :: w.hashed) →
          w.Lists (fun s => (s.attributes.value? n).map Json.render = some v.render)
            (w.repo.findByAttribute n v w.now).2 := by
  have hsolo := h.solo hc hvalues
  refine ⟨fun p hdistinct => ?_, fun n hn hname v hdistinct => ?_⟩
  · exact hsolo.lists hdistinct fun _ _ => IndexKey.principalText_mem_textsOf
  · rw [Repository.findByAttribute, if_neg fun hnot => hnot.2 (hsolo.indexable ▸ hn)]
    refine hsolo.lists hdistinct fun _ _ => ?_
    rw [IndexKey.attributeText_mem_textsOf hname, and_iff_right hn]

/-- **A look-up by the principal's attribute** is always permitted. It gives out the sessions whose
last saved attribute is the value, if that is a text and not empty, and none for other values: only
such a text is a principal. -/
theorem principal_lookup_exact (hc : c.BuiltIn) {deeds : List Deed}
    (hvalues : ∀ d ∈ deeds, ∀ value ∈ d.value?, value.Valid ∧ value.depth ≤ c.depthLimit)
    (h : Reached c names speaker deeds w) (v : Json)
    (hdistinct : IndexKey.Distinct (IndexKey.attributeText principalAttribute v :: w.hashed)) :
    w.Lists (fun s => (∃ text, v = .str text ∧ text ≠ "") ∧
        s.attributes.value? principalAttribute = some v)
      (w.repo.findByAttribute principalAttribute v w.now).2 := by
  have hsolo := h.solo hc hvalues
  rw [Repository.findByAttribute, if_neg fun hnot => hnot.1 rfl]
  refine hsolo.lists hdistinct fun saved hmem => ?_
  have hstep := hsolo.told.saved saved hmem
  rw [IndexKey.attributeText_principalAttribute_mem_textsOf]
  constructor
  · rintro ⟨p, rfl, hp⟩
    obtain ⟨hne, hvalue⟩ := hstep.principal_eq_iff.1 hp
    exact ⟨⟨p, rfl, hne⟩, hvalue⟩
  · rintro ⟨⟨p, rfl, hne⟩, hvalue⟩
    exact ⟨p, rfl, hstep.principal_eq_iff.2 ⟨hne, hvalue⟩⟩

end Sharing

/-! ### A directory of sessions -/

namespace Sample

def directory : Sharing :=
  .start .binary none none .zero (.ofSeconds 1800) ["tenant"] .identity start

/-- Two sessions of one principal. The attribute of one is changed, and the other gets a new id. -/
def listed : List Deed :=
  [.create 0 ⟨"x"⟩, .edit 0 (.principal (some "alice")), .edit 0 (.set "tenant" (.int 1)), .save 0,
    .create 1 ⟨"y"⟩, .edit 1 (.principal (some "alice")), .save 1, .load 2 ⟨"x"⟩ true,
    .edit 0 (.set "tenant" (.int 2)), .save 0, .rotate 1 ⟨"z"⟩, .save 1, .save 0]

/-- The first session is saved by the first holder, the other by the second. -/
def owner (id : Ident) : Nat := if id.text = "x" then 0 else 1

lemma valid_listed : ∀ d ∈ listed, ∀ value ∈ d.value?,
    value.Valid ∧ value.depth ≤ Codec.binary.depthLimit := by
  intro d hd value hvalue
  have hmem : value ∈ listed.filterMap Deed.value? := List.mem_filterMap.2 ⟨d, hd, hvalue⟩
  have hvalues : listed.filterMap Deed.value? = [.str "alice", .int 1, .str "alice", .int 2] := rfl
  simp only [hvalues, List.mem_cons, List.not_mem_nil, or_false] at hmem
  rcases hmem with rfl | rfl | rfl | rfl <;> exact ⟨by simp [Json.Valid], by decide⟩

lemma reached_listed : Sharing.Reached .binary ["tenant"] owner listed (directory.run listed) :=
  ⟨none, none, .zero, .ofSeconds 1800, .identity, start, .inl rfl, by decide +kernel, rfl⟩

lemma distinct_listed :
    IndexKey.Distinct (IndexKey.principalText "alice" :: (directory.run listed).hashed) := by
  decide +kernel

/-- A session gets a principal attribute, and another attribute. -/
def labelled (label other : Json) : List Deed :=
  [.create 0 ⟨"x"⟩, .edit 0 (.set principalAttribute label), .edit 0 (.set "k" other), .save 0]

lemma valid_labelled {label other : Json} (hlabel : label.Valid) (hother : other.Valid) :
    ∀ d ∈ labelled label other, ∀ value ∈ d.value?, value.Valid := by
  intro d hd value hvalue
  have hmem : value ∈ (labelled label other).filterMap Deed.value? :=
    List.mem_filterMap.2 ⟨d, hd, hvalue⟩
  have hvalues : (labelled label other).filterMap Deed.value? = [label, other] := rfl
  simp only [hvalues, List.mem_cons, List.not_mem_nil, or_false] at hmem
  rcases hmem with rfl | rfl
  · exact hlabel
  · exact hother

end Sample

namespace Sharing

open Sample

theorem lookups_exact_listed :
    IndexKey.Distinct (IndexKey.principalText "alice" :: (directory.run listed).hashed) ∧
      IndexKey.Distinct
        (IndexKey.attributeText "tenant" (.int 2) :: (directory.run listed).hashed) ∧
      (directory.run listed).Lists (fun s => s.principal = some "alice")
        ((directory.run listed).repo.findByPrincipal "alice" (directory.run listed).now).2 ∧
      (directory.run listed).Lists
        (fun s => (s.attributes.value? "tenant").map Json.render = some (Json.int 2).render)
        ((directory.run listed).repo.findByAttribute "tenant" (.int 2)
          (directory.run listed).now).2 ∧
      ((directory.run listed).repo.findByPrincipal "alice" (directory.run listed).now).2.map
        (·.map (·.id)) = .ok [⟨"x"⟩, ⟨"z"⟩] := by
  have hattribute : IndexKey.Distinct
      (IndexKey.attributeText "tenant" (.int 2) :: (directory.run listed).hashed) := by
    decide +kernel
  obtain ⟨hby, hwith⟩ := lookups_exact .binary valid_listed reached_listed
  exact ⟨distinct_listed, hattribute, hby "alice" distinct_listed,
    hwith "tenant" (by simp) (by decide) (.int 2) hattribute, by decide +kernel⟩

theorem principal_lookup_exact_listed :
    IndexKey.Distinct (IndexKey.attributeText principalAttribute (.str "alice") ::
        (directory.run listed).hashed) ∧
      (directory.run listed).Lists (fun s => (∃ text, Json.str "alice" = .str text ∧ text ≠ "") ∧
          s.attributes.value? principalAttribute = some (.str "alice"))
        ((directory.run listed).repo.findByAttribute principalAttribute (.str "alice")
          (directory.run listed).now).2 := by
  have hdistinct : IndexKey.Distinct (IndexKey.attributeText principalAttribute (.str "alice") ::
      (directory.run listed).hashed) := by
    rw [← IndexKey.principalText_eq_attributeText.2 ⟨rfl, rfl⟩]
    exact distinct_listed
  exact ⟨hdistinct,
    principal_lookup_exact .binary valid_listed reached_listed (.str "alice") hdistinct⟩

/-- A look-up by the principal's attribute and a value gives out the sessions whose last saved
attribute is the value, whatever values records have. -/
def ListedBy (v : Json) : Prop :=
  ∀ (c : Codec) (_ : c.BuiltIn) (names : List String) (speaker : Ident → Nat) (deeds : List Deed)
    (w : Sharing), (∀ d ∈ deeds, ∀ value ∈ d.value?, value.Valid) →
    Reached c names speaker deeds w →
      IndexKey.Distinct (IndexKey.attributeText principalAttribute v :: w.hashed) →
        w.Lists (fun s => s.attributes.value? principalAttribute = some v)
          (w.repo.findByAttribute principalAttribute v w.now).2

lemma ListedBy.run_labelled {v : Json} (h : ListedBy v) (hv : v.Valid) (other : Json)
    (hother : other.Valid)
    (hthrough : Through (fun w d => Sole (fun _ => 0) w d ∧ Saves Succeeds w d) shared
      (labelled v other))
    (hdistinct : IndexKey.Distinct (IndexKey.attributeText principalAttribute v ::
      (shared.run (labelled v other)).hashed)) :
    (shared.run (labelled v other)).Lists
      (fun s => s.attributes.value? principalAttribute = some v)
      ((shared.run (labelled v other)).repo.findByAttribute principalAttribute v
        (shared.run (labelled v other)).now).2 :=
  h .binary .binary [] (fun _ => 0) (labelled v other) _ (valid_labelled hv hother)
    ⟨none, none, .zero, .ofSeconds 1800, .identity, Sample.start, .inl rfl, hthrough, rfl⟩ hdistinct

/-- A session whose value is empty, or not a text, is found by id, and not by the value. And none is
found by its value where another value is nested too deep. -/
theorem principal_lookup_can_miss :
    ¬ListedBy (.str "") ∧ ¬ListedBy (.int 5) ∧ ¬ListedBy (.str "alice") := by
  refine ⟨fun h => ?_, fun h => ?_, fun h => ?_⟩
  · refine not_lists_of_none ⟨"x"⟩ ?_ ?_ ?_ (h.run_labelled trivial .null trivial ?_ ?_)
    all_goals decide +kernel
  · refine not_lists_of_none ⟨"x"⟩ ?_ ?_ ?_
      (h.run_labelled (by simp [Json.Valid]) .null trivial ?_ ?_)
    all_goals decide +kernel
  · have hfailed : ((shared.run (labelled (.str "alice") (nested 128))).repo.findByAttribute
        principalAttribute (.str "alice")
        (shared.run (labelled (.str "alice") (nested 128))).now).2.toOption = none := by
      decide +kernel
    obtain ⟨sessions, hok, -⟩ := h.run_labelled trivial (nested 128) (readable_nested 128).1.valid.1
      (by decide +kernel) (by decide +kernel)
    rw [hok] at hfailed
    cases hfailed

end Sharing

end Sessions
