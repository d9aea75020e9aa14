import Sessions.Proofs.Session

/-!
# Changes of a record

A record notes what has changed since its last commit. `Session.Tracks` says that these notes are
complete: compared with the state that was last stored, only noted attributes and, if the record is
dirty, its other fields may differ. Every edit keeps that.
-/

namespace Sessions

/-- A rule that takes no handle with another value for an unchanged one. -/
def ChangeRule.Notices (rule : ChangeRule) : Prop :=
  ∀ old new, rule.differs old new = false → old.value = new.value

lemma notices_identity : ChangeRule.identity.Notices := by
  intro old new h
  have heq : old = new := by simpa [ChangeRule.identity] using h
  rw [heq]

lemma notices_always : ChangeRule.always.Notices := by
  intro old new h
  cases h

/-- Whether a rule lets a handle take the place of another unnoticed. -/
def ChangeRule.Passes (rule : ChangeRule) (old new : Handle) : Prop :=
  old = new ∨ rule.differs old new = false

namespace Attributes

def LogClean (a : Attributes) : Prop := a.isDirty = false → a.changedNames = []

/-- What writing or removing a name may do to attributes. -/
structure Edited (a b : Attributes) : Prop where
  rule : b.rule = a.rule
  kept : ∀ name ∈ a.changedNames, name ∈ b.changedNames
  noted : a.rule.Notices → ∀ name, name ∉ b.changedNames → b.value? name = a.value? name
  dirty : a.isDirty = true → b.isDirty = true
  clean : a.LogClean → b.LogClean

variable {a b c : Attributes}

lemma Edited.refl (a : Attributes) : Edited a a := ⟨rfl, fun _ h => h, fun _ _ _ => rfl, id, id⟩

lemma mem_changedNames {name : String} :
    name ∈ a.changedNames ↔ (a.log.names.find? name).isSome = true := by
  constructor
  · intro h
    obtain ⟨⟨n, v⟩, hmem, rfl⟩ := List.mem_map.1 h
    rw [(a.log.names.mem_entries_iff n v).1 hmem]
    rfl
  · intro h
    obtain ⟨v, hv⟩ := Option.isSome_iff_exists.1 h
    exact List.mem_map.2 ⟨(name, v), (a.log.names.mem_entries_iff name v).2 hv, rfl⟩

lemma mem_changedNames_mark {log : ChangeLog} {name other : String}
    (hlog : b.log = log.mark name) (ha : a.log = log) :
    other ∈ b.changedNames ↔ other = name ∨ other ∈ a.changedNames := by
  rw [mem_changedNames, mem_changedNames, hlog, ha, ChangeLog.mark, Table.find?_insert]
  by_cases h : name = other
  · simp [h]
  · simp [h, Ne.symm h]

/-! ### One name -/

/-- What storing a handle under a name, or dropping it, may do to attributes. -/
structure Touched (a : Attributes) (name : String) (b : Attributes) : Prop where
  rule : b.rule = a.rule
  others : ∀ other, other ≠ name → b.handle? other = a.handle? other
  /-- The name is noted, unless the rule lets it pass. -/
  noted : b.log = a.log.mark name ∨
    b.log = a.log ∧ Option.Rel a.rule.Passes (a.handle? name) (b.handle? name)

lemma Touched.of_handle? {name : String} (hrule : b.rule = a.rule) (hlog : b.log = a.log)
    (h : ∀ other, b.handle? other = a.handle? other) : Touched a name b := by
  refine ⟨hrule, fun other _ => h other, .inr ⟨hlog, ?_⟩⟩
  rw [h name]
  exact rel_refl (fun _ => .inl rfl) _

lemma touched_drop (a : Attributes) (name : String) : Touched a name (a.drop name).1 := by
  unfold drop
  split
  next old hold =>
    refine ⟨rfl, fun other hne => ?_, .inl rfl⟩
    exact (a.held.find?_erase name other).trans (if_neg (Ne.symm hne))
  next => exact .of_handle? rfl rfl fun _ => rfl

lemma touched_store {name : String} {h : Handle} {old : Option Handle}
    (hstore : a.store name h = .ok (b, old)) : Touched a name b := by
  unfold store at hstore
  split at hstore
  · cases hstore
  · split at hstore
    · have hb : (a.drop name).1 = b := congrArg Prod.fst (Except.ok.inj hstore)
      exact hb ▸ touched_drop a name
    · simp only [Except.ok.injEq, Prod.mk.injEq] at hstore
      obtain ⟨rfl, -⟩ := hstore
      have hothers : ∀ other, other ≠ name →
          (a.held.insert name h).find? other = a.handle? other := fun other hne =>
        (a.held.find?_insert name other h).trans (if_neg (Ne.symm hne))
      refine ⟨rfl, hothers, ?_⟩
      cases hold : a.handle? name with
      | none => exact .inl rfl
      | some former =>
        simp only
        split
        · exact .inl rfl
        next hsame =>
          refine .inr ⟨rfl, ?_⟩
          have hnew : (a.held.insert name h).find? name = some h :=
            (a.held.find?_insert name name h).trans (if_pos rfl)
          change Option.Rel a.rule.Passes (some former) ((a.held.insert name h).find? name)
          rw [hnew]
          exact .some (.inr (by simpa using hsame))

lemma touched_set {name : String} {value : Json} {old : Option Handle}
    (hset : a.set name value = .ok (b, old)) : Touched a name b := by
  have hstore := touched_store (a := { a with made := a.made + 1 }) hset
  exact ⟨hstore.rule, hstore.others, hstore.noted⟩

lemma touched_remove {name : String} {old : Option Handle}
    (hremove : a.remove name = .ok (b, old)) : Touched a name b := by
  unfold remove at hremove
  split at hremove
  · cases hremove
  · have hb : (a.drop name).1 = b := congrArg Prod.fst (Except.ok.inj hremove)
    exact hb ▸ touched_drop a name

namespace Touched

variable {name : String}

lemma value?_of_ne (h : Touched a name b) {other : String} (hne : other ≠ name) :
    b.value? other = a.value? other := by
  rw [value?, value?, h.others other hne]

lemma kept (h : Touched a name b) {other : String} (hother : other ∈ a.changedNames) :
    other ∈ b.changedNames := by
  rcases h.noted with hlog | ⟨hlog, -⟩
  · exact (mem_changedNames_mark hlog rfl).2 (.inr hother)
  · rwa [changedNames, hlog]

lemma eq_or_mem (h : Touched a name b) {other : String} (hother : other ∈ b.changedNames) :
    other = name ∨ other ∈ a.changedNames := by
  rcases h.noted with hlog | ⟨hlog, -⟩
  · exact (mem_changedNames_mark hlog rfl).1 hother
  · rw [changedNames, hlog] at hother
    exact .inr hother

lemma dirty (h : Touched a name b) (hdirty : a.isDirty = true) : b.isDirty = true := by
  rcases h.noted with hlog | ⟨hlog, -⟩
  · simp [isDirty, hlog, ChangeLog.mark]
  · rwa [isDirty, hlog]

lemma clean (h : Touched a name b) (hclean : a.LogClean) : b.LogClean := by
  rcases h.noted with hlog | ⟨hlog, -⟩
  · intro hdirty
    simp [isDirty, hlog, ChangeLog.mark] at hdirty
  · rwa [LogClean, isDirty, changedNames, hlog]

/-- What is not noted holds what it held, as far as the rule tells. -/
lemma rel {R : Json → Json → Prop} (hrefl : ∀ v, R v v)
    (hrule : ∀ old new, a.rule.differs old new = false → R old.value new.value)
    (h : Touched a name b) {other : String} (hother : other ∉ b.changedNames) :
    Option.Rel R (a.value? other) (b.value? other) := by
  by_cases hne : other = name
  · subst hne
    rcases h.noted with hlog | ⟨-, hpasses⟩
    · exact absurd ((mem_changedNames_mark hlog rfl).2 (.inl rfl)) hother
    · refine rel_map (fun old new hpass => ?_) hpasses
      rcases hpass with rfl | hdiffers
      · exact hrefl old.value
      · exact hrule old new hdiffers
  · rw [h.value?_of_ne hne]
    exact rel_refl hrefl _

lemma edited (h : Touched a name b) : Edited a b where
  rule := h.rule
  kept _ hother := h.kept hother
  noted hrule _ hother := (eq_of_rel (h.rel (fun _ => rfl) hrule hother)).symm
  dirty := h.dirty
  clean := h.clean

end Touched

/-! ### Values after an edit -/

lemma value?_drop {name other : String} {value : Json}
    (h : (a.drop name).1.value? other = some value) : a.value? other = some value := by
  unfold drop at h
  split at h
  · change ((a.held.erase name).find? other).map (·.value) = some value at h
    rw [Table.find?_erase] at h
    split at h
    · cases h
    · exact h
  · exact h

lemma value?_store {name other : String} {h : Handle} {old : Option Handle} {value : Json}
    (hstore : a.store name h = .ok (b, old)) (hvalue : b.value? other = some value) :
    value = h.value ∨ a.value? other = some value := by
  unfold store at hstore
  split at hstore
  · cases hstore
  · split at hstore
    · have hb : (a.drop name).1 = b := congrArg Prod.fst (Except.ok.inj hstore)
      exact .inr (value?_drop (hb ▸ hvalue))
    · simp only [Except.ok.injEq, Prod.mk.injEq] at hstore
      obtain ⟨rfl, -⟩ := hstore
      change ((a.held.insert name h).find? other).map (·.value) = some value at hvalue
      rw [Table.find?_insert] at hvalue
      split at hvalue
      · exact .inl (Option.some.inj hvalue).symm
      · exact .inr hvalue

end Attributes

inductive Edit where
  | set (name : String) (value : Json)
  | store (name : String) (h : Handle)
  | remove (name : String)
  | principal (name : Option String)
  | touch
  | access (time : Time)
  | maxIdle (interval : Duration)

namespace Edit

/-- Values that come back as they were when a text is read. -/
def Fits (limit : Nat) : Edit → Prop
  | set _ value => value.Readable ∧ value.depth ≤ limit
  | store _ h => h.value.Readable ∧ h.value.depth ≤ limit
  | _ => True

def apply (now : Time) (s : Session) (e : Edit) : Session :=
  let outcome := match e with
    | set name value => (s.setAttribute name value).map Prod.fst
    | store name h => (s.storeAttribute name h).map Prod.fst
    | remove name => (s.removeAttribute name).map Prod.fst
    | principal name => s.setPrincipal name
    | touch => .ok (s.touch now)
    | access time => s.setAccessed time
    | maxIdle interval => .ok (s.setMaxIdle interval)
  match outcome with
  | .ok t => t
  | .error _ => s

def value? : Edit → Option Json
  | set _ value => some value
  | store _ h => some h.value
  | principal (some text) => some (.str text)
  | _ => none

lemma Fits.value {limit : Nat} {e : Edit} (h : e.Fits limit) {value : Json}
    (hvalue : e.value? = some value) : value.Readable ∧ value.depth ≤ limit := by
  cases e with
  | set name v => exact Option.some.inj hvalue ▸ h
  | store name handle => exact Option.some.inj hvalue ▸ h
  | principal name =>
    cases name with
    | some text =>
      obtain rfl := Option.some.inj hvalue
      exact ⟨by simp [Json.Readable], Nat.zero_le limit⟩
    | none => cases hvalue
  | remove name => cases hvalue
  | touch => cases hvalue
  | access time => cases hvalue
  | maxIdle interval => cases hvalue

end Edit

namespace Session

variable {limit : Nat} {s s' t v : Session} {new : Option Json}

/-- Whether the principal is the one that the attributes name. -/
def InStep (s : Session) : Prop := s.principal = namedPrincipal s.attributes

/-- What an edit may do to a record; `new` is the value that it brings in. -/
structure Edited (new : Option Json) (s t : Session) : Prop where
  id : t.id = s.id
  previous : t.previous = s.previous
  created : t.created = s.created
  kind : t.kind = s.kind
  phase : t.phase = s.phase
  attributes : s.attributes.Edited t.attributes
  /-- A record that is not dirty has kept its other fields. -/
  noted : t.dirty = false → s.dirty = false ∧ t.accessed = s.accessed ∧ t.maxIdle = s.maxIdle ∧
    t.principal = s.principal
  wellFormed : s.WellFormed → t.WellFormed
  principal : s.principal ≠ some "" → t.principal ≠ some ""
  inStep : s.InStep → t.InStep
  values : ∀ name value, t.attributes.value? name = some value →
    s.attributes.value? name = some value ∨ new = some value

lemma Edited.refl (s : Session) : Edited new s s :=
  ⟨rfl, rfl, rfl, rfl, rfl, .refl s.attributes, fun h => ⟨h, rfl, rfl, rfl⟩,
    fun h => h, fun h => h, fun h => h, fun _ _ h => .inl h⟩

lemma Edited.sound (h : Edited new s t)
    (hnew : ∀ value, new = some value → value.Readable ∧ value.depth ≤ limit)
    (hs : s.Sound limit) : t.Sound limit := by
  have hform := h.wellFormed hs.wellFormed
  refine ⟨hform.id, hform.created, hform.accessed, hform.order, hform.interval,
    h.principal hs.principal, fun name value hv => ?_⟩
  rcases h.values name value hv with hold | hvalue
  · exact hs.values name value hold
  · exact hnew value hvalue

lemma edited_moveAccess {time : Time}
    (htime : s.WellFormed → time.floorMillis = time ∧ s.created ≤ time) :
    Edited new s (s.moveAccess time) := by
  unfold moveAccess
  split
  · exact Edited.refl s
  · exact ⟨rfl, rfl, rfl, rfl, rfl, .refl s.attributes, fun h => by simp at h,
      fun h => { h with accessed := (htime h).1, order := (htime h).2 }, fun h => h, fun h => h,
      fun _ _ h => .inl h⟩

lemma min_le_longest (d : Duration) : min d .longest ≤ .longest := by
  change (if d ≤ .longest then d else .longest) ≤ _
  split
  · assumption
  · exact Int.le_refl _

lemma edited_setMaxIdle (s : Session) (interval : Duration) :
    Edited new s (s.setMaxIdle interval) := by
  unfold setMaxIdle
  simp only
  split
  · exact Edited.refl s
  · exact ⟨rfl, rfl, rfl, rfl, rfl, .refl s.attributes, fun h => by simp at h,
      fun h => { h with interval := min_le_longest interval }, fun h => h, fun h => h,
      fun _ _ h => .inl h⟩

lemma namedPrincipal_ne_empty (a : Attributes) : namedPrincipal a ≠ some "" := by
  intro h
  have := (Option.filter_eq_some_iff.1 h).2
  simp at this

lemma edited_withAttributes {a : Attributes} {name : String}
    (htouched : s.attributes.Touched name a)
    (hvalues : ∀ other value, a.value? other = some value →
      s.attributes.value? other = some value ∨ new = some value) :
    Edited new s (s.withAttributes name a) := by
  have hedit := htouched.edited
  unfold withAttributes
  simp only
  split
  next hname =>
    unfold syncPrincipal
    simp only
    split
    next hsame =>
      exact ⟨rfl, rfl, rfl, rfl, rfl, hedit, fun h => ⟨h, rfl, rfl, rfl⟩,
        fun h => ⟨h.id, h.created, h.accessed, h.order, h.interval⟩, fun h => h,
        fun _ => hsame.symm, hvalues⟩
    next =>
      exact ⟨rfl, rfl, rfl, rfl, rfl, hedit, fun h => by simp at h,
        fun h => ⟨h.id, h.created, h.accessed, h.order, h.interval⟩,
        fun _ => namedPrincipal_ne_empty a, fun _ => rfl, hvalues⟩
  next hname =>
    refine ⟨rfl, rfl, rfl, rfl, rfl, hedit, fun h => ⟨h, rfl, rfl, rfl⟩,
      fun h => ⟨h.id, h.created, h.accessed, h.order, h.interval⟩, fun h => h, fun h => ?_, hvalues⟩
    have hkept := htouched.value?_of_ne (Ne.symm hname)
    change s.principal = namedPrincipal a
    rw [namedPrincipal, hkept]
    exact h

/-- The ways in which an edit can end; `new` is the value that it brings in. -/
inductive Outcome (s : Session) (new : Option Json) : Session → Prop
  /-- It was refused. -/
  | refused : Outcome s new s
  | moved {time : Time}
      (htime : s.created.floorMillis = s.created → time.floorMillis = time ∧ s.created ≤ time) :
      Outcome s new (s.moveAccess time)
  | idle (interval : Duration) : Outcome s new (s.setMaxIdle interval)
  | named {name a} (htouched : s.attributes.Touched name a)
      (hvalues : ∀ other value, a.value? other = some value →
        s.attributes.value? other = some value ∨ new = some value) :
      Outcome s new (s.withAttributes name a)

namespace Outcome

lemma stored {name : String} {h : Handle} {old : Option Handle} (hnew : new = some h.value)
    (hstore : s.storeAttribute name h = .ok (t, old)) : Outcome s new t := by
  obtain ⟨⟨a, former⟩, ha, hstore⟩ := bind_eq_ok.1 hstore
  obtain ⟨rfl, -⟩ := Prod.mk.inj (Except.ok.inj hstore)
  refine .named (Attributes.touched_store ha) fun other value hv => ?_
  rcases Attributes.value?_store ha hv with rfl | h
  · exact .inr hnew
  · exact .inl h

lemma set {name : String} {value : Json} {old : Option Handle} (hnew : new = some value)
    (hset : s.setAttribute name value = .ok (t, old)) : Outcome s new t := by
  obtain ⟨⟨a, former⟩, ha, hset⟩ := bind_eq_ok.1 hset
  obtain ⟨rfl, -⟩ := Prod.mk.inj (Except.ok.inj hset)
  refine .named (Attributes.touched_set ha) fun other v hv => ?_
  rcases Attributes.value?_store ha hv with rfl | h
  · exact .inr hnew
  · exact .inl h

lemma removed {name : String} {old : Option Handle}
    (hremove : s.removeAttribute name = .ok (t, old)) : Outcome s new t := by
  obtain ⟨⟨a, former⟩, ha, hremove⟩ := bind_eq_ok.1 hremove
  obtain ⟨rfl, -⟩ := Prod.mk.inj (Except.ok.inj hremove)
  have hdrop : (s.attributes.drop name).1 = a := by
    unfold Attributes.remove at ha
    split at ha
    · cases ha
    · exact congrArg Prod.fst (Except.ok.inj ha)
  exact .named (Attributes.touched_remove ha) fun other value hv =>
    .inl (Attributes.value?_drop (hdrop ▸ hv))

lemma principal {name : Option String} (hnew : ∀ text, name = some text → new = some (.str text))
    (hset : s.setPrincipal name = .ok t) : Outcome s new t := by
  cases name with
  | some text =>
    obtain ⟨⟨u, former⟩, hu, hset⟩ := bind_eq_ok.1 hset
    obtain rfl := Except.ok.inj hset
    exact .set (hnew text rfl) hu
  | none =>
    obtain ⟨⟨u, former⟩, hu, hset⟩ := bind_eq_ok.1 hset
    obtain rfl := Except.ok.inj hset
    exact .removed hu

lemma touch (s : Session) (now : Time) : Outcome s new (s.touch now) :=
  .moved fun h => ⟨Time.floorMillis_max now.floorMillis_floorMillis h, Time.le_max_right _ _⟩

lemma access {time : Time} (h : s.setAccessed time = .ok t) : Outcome s new t := by
  unfold setAccessed at h
  split at h
  · cases h
  next hle =>
    obtain rfl := Except.ok.inj h
    exact .moved fun _ => ⟨time.floorMillis_floorMillis, Int.not_lt.1 hle⟩

end Outcome

/-- **Every way in which an edit ends.** -/
theorem outcome_apply (s : Session) (e : Edit) (now : Time) :
    Outcome s e.value? (e.apply now s) := by
  have hkept : ∀ outcome : Except Fault Session,
      (∀ t, outcome = .ok t → Outcome s e.value? t) →
      Outcome s e.value? (match outcome with | .ok t => t | .error _ => s) := by
    intro outcome hok
    cases outcome with
    | ok t => exact hok t rfl
    | error e => exact .refused
  have hfst : ∀ {x : Except Fault (Session × Option Handle)} {t : Session},
      x.map Prod.fst = .ok t → ∃ old, x = .ok (t, old) := by
    intro x t hx
    cases x with
    | ok p =>
      obtain ⟨u, old⟩ := p
      obtain rfl : u = t := Except.ok.inj hx
      exact ⟨old, rfl⟩
    | error e => cases hx
  refine hkept _ fun t ht => ?_
  cases e with
  | set name value =>
    obtain ⟨old, hset⟩ := hfst ht
    exact .set rfl hset
  | store name handle =>
    obtain ⟨old, hstore⟩ := hfst ht
    exact .stored rfl hstore
  | remove name =>
    obtain ⟨old, hremove⟩ := hfst ht
    exact .removed hremove
  | principal name =>
    refine .principal (fun text htext => ?_) ht
    rw [htext]
    rfl
  | touch =>
    obtain rfl := Except.ok.inj ht
    exact .touch s now
  | access time => exact .access ht
  | maxIdle interval =>
    obtain rfl := Except.ok.inj ht
    exact .idle interval

/-- **Every edit is an edited record**, with the value that it brings in. -/
theorem edited_apply (s : Session) (e : Edit) (now : Time) :
    Edited e.value? s (e.apply now s) := by
  have houtcome := outcome_apply s e now
  generalize e.apply now s = t at houtcome ⊢
  cases houtcome with
  | refused => exact .refl s
  | moved htime => exact edited_moveAccess fun h => htime h.created
  | idle interval => exact edited_setMaxIdle s interval
  | named htouched hvalues => exact edited_withAttributes htouched hvalues

lemma attributes_withAttributes (s : Session) (name : String) (a : Attributes) :
    (s.withAttributes name a).attributes = a := by
  simp only [withAttributes, syncPrincipal, apply_ite Session.attributes, ite_self]

lemma touched_apply (s : Session) (e : Edit) (now : Time) :
    (e.apply now s).attributes = s.attributes ∨
      ∃ name, s.attributes.Touched name (e.apply now s).attributes := by
  have houtcome := outcome_apply s e now
  generalize e.apply now s = t at houtcome ⊢
  cases houtcome with
  | refused => exact .inl rfl
  | moved htime => exact .inl (by simp only [moveAccess, apply_ite Session.attributes, ite_self])
  | idle interval => exact .inl (by simp only [setMaxIdle, apply_ite Session.attributes, ite_self])
  | named htouched _ =>
    rw [attributes_withAttributes]
    exact .inr ⟨_, htouched⟩

/-! ### Notes that are complete -/

/-- Compared with the state `v` that was last stored, a record has changed in nothing that it does
not note; `v` is stored under its previous id, if it has one, and under its own id otherwise. -/
structure Tracks (v s : Session) : Prop where
  home : s.previous.getD s.id = v.id
  created : s.created = v.created
  kind : s.kind = v.kind
  noted : s.dirty = false →
    s.accessed = v.accessed ∧ s.maxIdle = v.maxIdle ∧ s.principal = v.principal
  values : ∀ name, name ∉ s.attributes.changedNames →
    s.attributes.value? name = v.attributes.value? name

/-- An edit notes what it changes. -/
lemma Tracks.edited (h : Tracks v s) (hrule : s.attributes.rule.Notices)
    (hedit : Edited new s t) : Tracks v t where
  home := by rw [hedit.previous, hedit.id, h.home]
  created := by rw [hedit.created, h.created]
  kind := by rw [hedit.kind, h.kind]
  noted hclean := by
    obtain ⟨hs, haccessed, hmaxIdle, hprincipal⟩ := hedit.noted hclean
    rw [haccessed, hmaxIdle, hprincipal]
    exact h.noted hs
  values name hname := by
    rw [hedit.attributes.noted hrule name hname]
    exact h.values name fun hmem => hname (hedit.attributes.kept name hmem)

lemma Tracks.rotate (h : Tracks v s) (hphase : s.phase = .persisted) (id : Ident) :
    Tracks v (s.rotate id) where
  home := by
    have hhome := h.home
    cases hp : s.previous with
    | none => simpa [Session.rotate, hp, hphase] using hhome
    | some previous => simpa [Session.rotate, hp] using hhome
  created := h.created
  kind := h.kind
  noted hclean := by simp [Session.rotate] at hclean
  values := h.values

lemma tracks_self (h : s.previous = none) : Tracks s s :=
  ⟨by rw [h]; rfl, rfl, rfl, fun _ => ⟨rfl, rfl, rfl⟩, fun _ _ => rfl⟩

/-- A record without noted changes agrees with whatever agrees with its stored state. -/
lemma Tracks.agrees (h : Tracks v s) (hclean : s.attributes.LogClean)
    (hdelta : s.hasDelta = false) (hprevious : s.previous = none) (ht : Agrees v t) :
    Agrees s t := by
  obtain ⟨hdirty, hlog⟩ := Bool.or_eq_false_iff.1 hdelta
  obtain ⟨haccessed, hmaxIdle, hprincipal⟩ := h.noted hdirty
  have hhome : s.id = v.id := by simpa [hprevious] using h.home
  have hnames : s.attributes.changedNames = [] := hclean hlog
  exact ⟨by rw [ht.id, hhome], by rw [ht.created, h.created], by rw [ht.accessed, haccessed],
    by rw [ht.maxIdle, hmaxIdle], by rw [ht.principal, hprincipal], by rw [ht.kind, h.kind],
    fun name => by rw [ht.values, h.values name (by simp [hnames])]⟩

end Session

end Sessions
