import Mathlib.Data.Set.Function
import Sessions.IndexKey
import Sessions.Proofs.Json.Colons

/-!
# What an index key is the key of

The text behind a key tells the principal or the attribute that it is the key of, and the value up
to how it is printed, although a name may have colons and quotes of its own.
-/

namespace Sessions

namespace Json

lemma render_str_eq_iff {text : String} {v : Json} :
    (str text).render = v.render ↔ v = .str text := by
  refine ⟨fun h => ?_, fun h => h ▸ rfl⟩
  have hchars : quoted text = v.chars := String.ofList_injective h
  have hquote : '"' ∈ v.chars := hchars ▸ List.mem_cons_self
  have hnumeric : ¬Spot.Plain '"' := by decide
  cases v with
  | str other =>
    have hbytes : (str text).bytes = (str other).bytes := congrArg Utf8.encode h
    have hread := read_bytes (v := str text) trivial (Nat.zero_le _)
    rw [hbytes, read_bytes (v := str other) trivial (Nat.zero_le _)] at hread
    exact Except.ok.inj hread
  | null => simp [chars] at hquote
  | bool b => cases b <;> simp [chars] at hquote
  | int n => exact absurd (plain_intChars _ (by rwa [chars] at hquote)) hnumeric
  | double x => exact absurd (plain_double _ (by rwa [chars] at hquote)) hnumeric
  | arr items => simp [chars, quoted] at hchars
  | obj members => simp [chars, quoted] at hchars

end Json

namespace IndexKey

variable {m n p : String} {v w : Json}

/-- A name and the text of a value, joined by a colon. -/
def joined (name : String) (value : Json) : String := "attr:" ++ name ++ ":" ++ value.render

lemma joined_inj : joined m v = joined n w ↔ m = n ∧ v.render = w.render := by
  refine ⟨fun h => ?_, fun ⟨hname, hvalue⟩ => by rw [joined, joined, hname, hvalue]⟩
  have hlists : m.toList ++ ':' :: v.chars = n.toList ++ ':' :: w.chars := by
    have htexts := congrArg String.toList h
    simpa [joined, Json.render] using htexts
  have heq : m.toList = n.toList ∧ v.chars = w.chars := by
    rcases List.append_eq_append_iff.1 hlists with ⟨between, hlonger, hrest⟩ |
      ⟨between, hlonger, hrest⟩
    · cases between with
      | nil => exact ⟨by simpa using hlonger.symm, by simpa using hrest⟩
      | cons c front =>
        obtain ⟨-, hvalue⟩ := List.cons.inj hrest
        exact absurd hvalue (Json.chars_ne_append_colon v w front)
    · cases between with
      | nil => exact ⟨by simpa using hlonger, by simpa using hrest.symm⟩
      | cons c front =>
        obtain ⟨-, hvalue⟩ := List.cons.inj hrest
        exact absurd hvalue (Json.chars_ne_append_colon w v front)
  exact ⟨String.toList_injective heq.1, congrArg String.ofList heq.2⟩

lemma principalText_inj : principalText p = principalText n ↔ p = n := by
  refine ⟨fun h => String.toList_injective ?_, fun h => h ▸ rfl⟩
  have hlists := congrArg String.toList h
  simpa [principalText] using hlists

lemma principalText_ne_joined : principalText p ≠ joined n v := by
  intro h
  have hlists := congrArg String.toList h
  simp [principalText, joined] at hlists

lemma attributeText_cases (name : String) (value : Json) :
    (∃ text, name = principalAttribute ∧ value = .str text ∧
      attributeText name value = principalText text) ∨
      ((name ≠ principalAttribute ∨ ∀ text, value ≠ .str text) ∧
        attributeText name value = joined name value) := by
  cases value with
  | str text =>
    by_cases hname : name = principalAttribute
    · exact .inl ⟨text, hname, rfl, if_pos hname⟩
    · exact .inr ⟨.inl hname, if_neg hname⟩
  | _ => exact .inr ⟨.inr nofun, rfl⟩

/-- **The text behind a key tells the name and the value**, up to how the value is printed. -/
lemma attributeText_inj :
    attributeText m v = attributeText n w ↔ m = n ∧ v.render = w.render := by
  rcases attributeText_cases m v with ⟨text, rfl, rfl, hm⟩ | ⟨hother, hm⟩ <;>
    rcases attributeText_cases n w with ⟨text', rfl, rfl, hn⟩ | ⟨hother', hn⟩ <;> rw [hm, hn]
  · rw [principalText_inj, Json.render_str_eq_iff]
    simp [eq_comm]
  · refine iff_of_false principalText_ne_joined ?_
    rintro ⟨rfl, hrender⟩
    exact (hother'.resolve_left (· rfl)) text (Json.render_str_eq_iff.1 hrender)
  · refine iff_of_false (Ne.symm principalText_ne_joined) ?_
    rintro ⟨rfl, hrender⟩
    exact (hother.resolve_left (· rfl)) text' (Json.render_str_eq_iff.1 hrender.symm)
  · exact joined_inj

lemma principalText_eq_attributeText :
    principalText p = attributeText n v ↔ n = principalAttribute ∧ v = .str p := by
  rcases attributeText_cases n v with ⟨text, rfl, rfl, hn⟩ | ⟨hother, hn⟩
  · rw [hn, principalText_inj]
    simp [eq_comm]
  · rw [hn]
    refine iff_of_false principalText_ne_joined ?_
    rintro ⟨rfl, rfl⟩
    exact (hother.resolve_left (· rfl)) p rfl

/-- No two of the texts have the same digest. -/
def Distinct (texts : List String) : Prop :=
  ∀ a ∈ texts, ∀ b ∈ texts, ofText a = ofText b → a = b

instance (texts : List String) : Decidable (Distinct texts) := by
  unfold Distinct
  infer_instance

lemma Distinct.injOn {texts : List String} (h : Distinct texts) :
    Set.InjOn ofText { text | text ∈ texts } :=
  fun a ha b hb => h a ha b hb

/-- **Keys are injective**, where no two of the hashed texts have the same digest. Two attributes
have the same key exactly when they have the same name and print alike, whatever characters the
names have; and a principal has the key of its own attribute, and of no other. -/
theorem keys_injective {texts : Set String} (h : Set.InjOn ofText texts) :
    (∀ m n v w, attributeText m v ∈ texts → attributeText n w ∈ texts →
      (ofAttribute m v = ofAttribute n w ↔ m = n ∧ v.render = w.render)) ∧
      ∀ p n v, principalText p ∈ texts → attributeText n v ∈ texts →
        (ofPrincipal p = ofAttribute n v ↔ n = principalAttribute ∧ v = .str p) :=
  ⟨fun _ _ _ _ hm hn => (h.eq_iff hm hn).trans attributeText_inj,
    fun _ _ _ hp hn => (h.eq_iff hp hn).trans principalText_eq_attributeText⟩

/-- Texts that are easily taken for each other. -/
def lookalikes : List String :=
  [attributeText "k" (.str ":1"), attributeText "k:\"" (.int 1), attributeText "k" (.str "1"),
    principalText "1", attributeText principalAttribute (.str "1"),
    attributeText principalAttribute (.int 1)]

/-- A colon and a quote in a name are not taken for those of a value. The principal's attribute has
the key of the principal if it is a text, and else a key of its own. -/
theorem keys_injective_lookalikes :
    Distinct lookalikes ∧
      ofAttribute "k" (.str ":1") ≠ ofAttribute "k:\"" (.int 1) ∧
      ofPrincipal "1" = ofAttribute principalAttribute (.str "1") ∧
      ofPrincipal "1" ≠ ofAttribute principalAttribute (.int 1) := by
  have hdistinct : Distinct lookalikes := by decide +kernel
  obtain ⟨hattributes, hprincipals⟩ := keys_injective hdistinct.injOn
  refine ⟨hdistinct, ?_, ?_, ?_⟩
  · rw [Ne, hattributes "k" "k:\"" (.str ":1") (.int 1) (by simp [lookalikes])
      (by simp [lookalikes])]
    simp
  · exact (hprincipals "1" principalAttribute (.str "1") (by simp [lookalikes])
      (by simp [lookalikes])).2 ⟨rfl, rfl⟩
  · rw [Ne, hprincipals "1" principalAttribute (.int 1) (by simp [lookalikes])
      (by simp [lookalikes])]
    simp

/-! ## The keys of a session -/

/-- The texts whose digests are the keys of a session. -/
def textsOf (s : Session) (indexable : List String) : List String :=
  (s.principal.map principalText).toList
    ++ indexable.filterMap fun name =>
      if name = principalAttribute then none
      else (s.attributes.value? name).map (attributeText name)

variable {s : Session} {names : List String}

lemma ofSession_eq_map (s : Session) (names : List String) :
    ofSession s names = (textsOf s names).map ofText := by
  have hprincipal : (s.principal.map ofPrincipal).toList =
      (s.principal.map principalText).toList.map ofText := by
    cases s.principal <;> rfl
  rw [ofSession, textsOf, List.map_append, List.map_filterMap, hprincipal]
  congr 2
  funext name
  split
  · rfl
  · cases s.attributes.value? name <;> rfl

lemma mem_textsOf {text : String} : text ∈ textsOf s names ↔
    (∃ p, s.principal = some p ∧ principalText p = text) ∨
      ∃ n ∈ names, n ≠ principalAttribute ∧
        ∃ v, s.attributes.value? n = some v ∧ attributeText n v = text := by
  simp only [textsOf, List.mem_append, Option.mem_toList, Option.map_eq_some_iff,
    List.mem_filterMap]
  refine or_congr_right (exists_congr fun n => and_congr_right fun _ => ?_)
  split
  next hname => simp [hname]
  next hname => simp [hname, Option.map_eq_some_iff]

lemma principalText_mem_textsOf : principalText p ∈ textsOf s names ↔ s.principal = some p := by
  rw [mem_textsOf]
  constructor
  · rintro (⟨q, hq, htext⟩ | ⟨n, -, hname, v, -, htext⟩)
    · rwa [← principalText_inj.1 htext]
    · exact absurd (principalText_eq_attributeText.1 htext.symm).1 hname
  · exact fun h => .inl ⟨p, h, rfl⟩

lemma attributeText_mem_textsOf (hname : n ≠ principalAttribute) :
    attributeText n w ∈ textsOf s names ↔
      n ∈ names ∧ (s.attributes.value? n).map Json.render = some w.render := by
  rw [mem_textsOf]
  constructor
  · rintro (⟨q, -, htext⟩ | ⟨m, hm, -, v, hv, htext⟩)
    · exact absurd (principalText_eq_attributeText.1 htext).1 hname
    · obtain ⟨rfl, hrender⟩ := attributeText_inj.1 htext
      exact ⟨hm, by rw [hv, Option.map_some, hrender]⟩
  · rintro ⟨hmem, hrender⟩
    obtain ⟨v, hv, hsame⟩ := Option.map_eq_some_iff.1 hrender
    exact .inr ⟨n, hmem, hname, v, hv, attributeText_inj.2 ⟨rfl, hsame⟩⟩

lemma attributeText_principalAttribute_mem_textsOf :
    attributeText principalAttribute w ∈ textsOf s names ↔
      ∃ p, w = .str p ∧ s.principal = some p := by
  rcases attributeText_cases principalAttribute w with ⟨p, -, rfl, htext⟩ | ⟨hother, -⟩
  · rw [htext, principalText_mem_textsOf]
    simp
  · have hnot : ∀ p, w ≠ .str p := hother.resolve_left (· rfl)
    refine iff_of_false (fun hmem => ?_) fun ⟨p, hw, _⟩ => hnot p hw
    rcases mem_textsOf.1 hmem with ⟨q, -, htext⟩ | ⟨m, -, hname, v, -, htext⟩
    · exact hnot q (principalText_eq_attributeText.1 htext).2
    · exact hname (attributeText_inj.1 htext).1

lemma Distinct.ofText_mem_ofSession {text : String} {texts : List String}
    (h : Distinct (text :: texts)) (hs : ∀ other ∈ textsOf s names, other ∈ texts) :
    ofText text ∈ ofSession s names ↔ text ∈ textsOf s names := by
  rw [ofSession_eq_map, List.mem_map]
  constructor
  · rintro ⟨other, hmem, hsame⟩
    rwa [← h other (List.mem_cons_of_mem text (hs other hmem)) text List.mem_cons_self hsame]
  · exact fun hmem => ⟨text, hmem, rfl⟩

end IndexKey

end Sessions
