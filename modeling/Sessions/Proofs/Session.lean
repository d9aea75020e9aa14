import Sessions.Proofs.Json.Echo
import Sessions.Session

/-!
# Records that survive storage

What every record that was made by a repository satisfies (`Session.Sound`), and the records that
come back: `Session.reloaded` from a full payload, `Session.patched` from a stored one and a delta.
Both agree with the record that was written in everything that is stored (`Session.Agrees`), as far
as its values come back unchanged; what does come back in their place is `Session.echoed`.
-/

namespace Sessions

namespace Attributes

@[simp] lemma log_commit (a : Attributes) : a.commit.log = .clean := rfl

lemma handle?_load (a : Attributes) (name other : String) (value : Json) :
    (a.load name value).handle? other =
      if name = other then some ⟨.own a.made, value⟩ else a.handle? other :=
  a.held.find?_insert name other _

lemma handle?_unload (a : Attributes) (name other : String) :
    (a.unload name).handle? other = if name = other then none else a.handle? other :=
  a.held.find?_erase name other

/-- A changed name with its present value, applied as a payload applies it. -/
def applyChange (a : Attributes) (change : String × Option Json) : Attributes :=
  match change.2 with
  | some value => a.load change.1 value
  | none => a.unload change.1

lemma value?_applyChange (a : Attributes) (name other : String) (value : Option Json) :
    (a.applyChange (name, value)).value? other =
      if name = other then value else a.value? other := by
  cases value with
  | some value =>
    simp only [applyChange, value?, handle?_load]
    split <;> rfl
  | none =>
    simp only [applyChange, value?, handle?_unload]
    split <;> rfl

lemma value?_foldl_applyChange (f : String → Option Json) (names : List String) (a : Attributes)
    (name : String) :
    ((names.map fun n => (n, f n)).foldl applyChange a).value? name =
      if name ∈ names then f name else a.value? name := by
  induction names generalizing a with
  | nil => rfl
  | cons n rest ih =>
    rw [List.map_cons, List.foldl_cons, ih, value?_applyChange]
    by_cases hn : n = name
    · subst hn
      simp
    · by_cases hrest : name ∈ rest <;> simp [hn, hrest, Ne.symm hn]

lemma log_foldl_applyChange (changes : List (String × Option Json)) (a : Attributes) :
    (changes.foldl applyChange a).log = a.log := by
  induction changes generalizing a with
  | nil => rfl
  | cons change rest ih =>
    obtain ⟨name, value⟩ := change
    rw [List.foldl_cons, ih]
    cases value <;> rfl

lemma value?_of_mem_entries {a : Attributes} {e : String × Json} (h : e ∈ a.entries) :
    a.value? e.1 = some e.2 := by
  obtain ⟨⟨name, handle⟩, hmem, rfl⟩ := List.mem_map.1 h
  have hfind := (a.held.mem_entries_iff name handle).1 hmem
  simp [value?, handle?, hfind]

lemma exists_mem_entries {a : Attributes} {name : String} {value : Json}
    (h : a.value? name = some value) : (name, value) ∈ a.entries := by
  obtain ⟨handle, hfind, rfl⟩ := Option.map_eq_some_iff.1 h
  exact List.mem_map.2 ⟨(name, handle), (a.held.mem_entries_iff name handle).2 hfind, rfl⟩

lemma forall_entries {a : Attributes} {P : Json → Prop} :
    (∀ e ∈ a.entries, P e.2) ↔ ∀ name value, a.value? name = some value → P value :=
  ⟨fun h name value hv => h (name, value) (exists_mem_entries hv),
    fun h e he => h e.1 e.2 (value?_of_mem_entries he)⟩

lemma ofEntries_eq_foldl (entries : List (String × Json)) :
    ofEntries entries = (entries.map fun e => (e.1, some e.2)).foldl applyChange default := by
  rw [List.foldl_map]
  rfl

lemma value?_ofEntries (a : Attributes) (name : String) :
    (ofEntries a.entries).value? name = a.value? name := by
  have hnames : a.entries.map (fun e => (e.1, some e.2)) =
      (a.entries.map Prod.fst).map fun n => (n, a.value? n) := by
    rw [List.map_map]
    exact List.map_congr_left fun e he => by rw [Function.comp, value?_of_mem_entries he]
  rw [ofEntries_eq_foldl, hnames, value?_foldl_applyChange]
  split
  · rfl
  next hmem =>
    cases hv : a.value? name with
    | none => rfl
    | some value => exact absurd (List.mem_map_of_mem (exists_mem_entries hv)) hmem

def echoed (a : Attributes) : Attributes :=
  { a with held := a.held.filterMap fun _ h => some ⟨h.token, h.value.echo⟩ }

lemma value?_echoed (a : Attributes) (name : String) :
    a.echoed.value? name = (a.value? name).map Json.echo := by
  rw [value?, handle?, echoed, Table.find?_filterMap, value?, handle?]
  cases a.held.find? name <;> rfl

lemma entries_echoed (a : Attributes) :
    a.echoed.entries = a.entries.map fun e => (e.1, e.2.echo) := by
  simp [entries, echoed, Table.filterMap]

lemma changes_echoed (a : Attributes) :
    a.echoed.changes = a.changes.map fun c => (c.1, c.2.map Json.echo) := by
  rw [changes, changes, List.map_map]
  exact List.map_congr_left fun name _ => by rw [value?_echoed]; rfl

lemma echoed_eq {a : Attributes} (h : ∀ name value, a.value? name = some value → value.ReadsBack) :
    a.echoed = a := by
  have hheld : (a.held.filterMap fun _ h => some ⟨h.token, h.value.echo⟩) = a.held := by
    refine Table.ext_find? fun name => ?_
    rw [Table.find?_filterMap]
    cases hfind : a.held.find? name with
    | none => rfl
    | some handle =>
      have hback := h name handle.value (by rw [value?, handle?, hfind]; rfl)
      simp [hback.echo]
  rw [echoed, hheld]

end Attributes

namespace Session

/-- What holds of every record but for its principal and the values of its attributes. -/
structure WellFormed (s : Session) : Prop where
  id : isBlank s.id.text = false
  created : s.created.floorMillis = s.created
  accessed : s.accessed.floorMillis = s.accessed
  order : s.created ≤ s.accessed
  interval : s.maxIdle ≤ .longest

/-- What holds of every record that a repository hands out, when values nested deeper than `limit`
are kept out of it. -/
structure Sound (limit : Nat) (s : Session) : Prop where
  id : isBlank s.id.text = false
  created : s.created.floorMillis = s.created
  accessed : s.accessed.floorMillis = s.accessed
  order : s.created ≤ s.accessed
  interval : s.maxIdle ≤ .longest
  principal : s.principal ≠ some ""
  values : ∀ name value, s.attributes.value? name = some value →
    value.Readable ∧ value.depth ≤ limit

/-- What holds of every record that a repository hands out, whatever doubles are in its values, when
values nested deeper than `limit` are kept out of it. -/
structure Storable (limit : Nat) (s : Session) : Prop where
  wellFormed : s.WellFormed
  principal : s.principal ≠ some ""
  values : ∀ name value, s.attributes.value? name = some value →
    value.Valid ∧ value.depth ≤ limit

/-- The record that a full payload gives back. The interval is cut to whole seconds. -/
def reloaded (s : Session) : Session where
  id := s.id
  previous := none
  created := s.created
  accessed := s.accessed
  maxIdle := .ofSeconds s.maxIdle.wholeSeconds
  principal := s.principal
  attributes := .ofEntries s.attributes.entries
  kind := s.kind
  phase := .persisted
  dirty := false

def patched (base s : Session) : Session :=
  { base with
    accessed := max s.accessed base.created
    maxIdle := .ofSeconds s.maxIdle.wholeSeconds
    principal := s.principal
    attributes := s.attributes.changes.foldl Attributes.applyChange base.attributes }

/-- Whether a record read from a store agrees with the one that was written. -/
structure Agrees (s t : Session) : Prop where
  id : t.id = s.id
  created : t.created = s.created
  accessed : t.accessed = s.accessed
  maxIdle : t.maxIdle = .ofSeconds s.maxIdle.wholeSeconds
  principal : t.principal = s.principal
  kind : t.kind = s.kind
  values : ∀ name, t.attributes.value? name = s.attributes.value? name

def echoed (s : Session) : Session := { s with attributes := s.attributes.echoed }

variable {limit : Nat} {s t base : Session}

lemma wholeSeconds_le_longest {d : Duration} (h : d ≤ .longest) :
    Duration.ofSeconds d.wholeSeconds ≤ .longest := by
  have hdiv := Duration.tdiv_bounds d.nanos
  have hlongest : Duration.longest.nanos = 2147483647 * 1000000000 := rfl
  rw [Duration.le_iff, hlongest] at h ⊢
  rw [Duration.nanos_ofSeconds, Duration.toInt_wholeSeconds]
  omega

lemma WellFormed.patched (hbase : base.WellFormed) (hs : s.WellFormed) :
    (base.patched s).WellFormed where
  id := hbase.id
  created := hbase.created
  accessed := Time.floorMillis_max hs.accessed hbase.created
  order := Time.le_max_right s.accessed base.created
  interval := wholeSeconds_le_longest hs.interval

lemma WellFormed.echoed (h : s.WellFormed) : s.echoed.WellFormed :=
  ⟨h.id, h.created, h.accessed, h.order, h.interval⟩

lemma Sound.wellFormed (h : s.Sound limit) : s.WellFormed :=
  ⟨h.id, h.created, h.accessed, h.order, h.interval⟩

lemma Sound.storable (h : s.Sound limit) : s.Storable limit :=
  ⟨h.wellFormed, h.principal, fun name value hv =>
    ⟨(h.values name value hv).1.valid.1, (h.values name value hv).2⟩⟩

lemma Sound.echoed (h : s.Sound limit) (hlimit : limit ≤ Json.maxDepth) : s.echoed = s := by
  rw [Session.echoed, Attributes.echoed_eq fun name value hv => ?_]
  exact Json.readsBack_of_readable (h.values name value hv).1
    (Nat.le_trans (h.values name value hv).2 hlimit)

lemma Storable.mono {larger : Nat} (h : s.Storable limit) (hle : limit ≤ larger) :
    s.Storable larger :=
  { h with values := fun name value hv =>
      ⟨(h.values name value hv).1, Nat.le_trans (h.values name value hv).2 hle⟩ }

lemma Sound.commit (h : s.Sound limit) : s.commit.Sound limit :=
  ⟨h.id, h.created, h.accessed, h.order, h.interval, h.principal, h.values⟩

lemma agrees_commit : Agrees s.commit t ↔ Agrees s t :=
  ⟨fun h => ⟨h.id, h.created, h.accessed, h.maxIdle, h.principal, h.kind, h.values⟩,
    fun h => ⟨h.id, h.created, h.accessed, h.maxIdle, h.principal, h.kind, h.values⟩⟩

lemma WellFormed.reloaded (h : s.WellFormed) : s.reloaded.WellFormed :=
  ⟨h.id, h.created, h.accessed, h.order, wholeSeconds_le_longest h.interval⟩

lemma agrees_reloaded (s : Session) : Agrees s s.reloaded :=
  ⟨rfl, rfl, rfl, rfl, rfl, rfl, Attributes.value?_ofEntries s.attributes⟩

lemma value?_patched (base s : Session) (name : String) :
    (base.patched s).attributes.value? name =
      if name ∈ s.attributes.changedNames then s.attributes.value? name
      else base.attributes.value? name :=
  Attributes.value?_foldl_applyChange s.attributes.value? s.attributes.changedNames
    base.attributes name

lemma Storable.legible (h : s.Storable limit) (hlimit : limit ≤ Json.maxDepth) :
    ∀ name value, s.attributes.value? name = some value → value.Legible := fun name value hv =>
  (h.values name value hv).1.legible (Nat.le_trans (h.values name value hv).2 hlimit)

lemma Storable.echoed (h : s.Storable limit) (hlimit : limit ≤ Json.maxDepth) :
    s.echoed.Storable limit := by
  refine ⟨h.wellFormed.echoed, h.principal, fun name value hv => ?_⟩
  rw [Session.echoed, Attributes.value?_echoed] at hv
  obtain ⟨old, hold, rfl⟩ := Option.map_eq_some_iff.1 hv
  obtain ⟨hvalid, hdepth⟩ := h.values name old hold
  obtain ⟨hecho, hsame⟩ := hvalid.echo (Nat.le_trans hdepth hlimit)
  exact ⟨hecho, hsame ▸ hdepth⟩

lemma Storable.reloaded (h : s.Storable limit) : s.reloaded.Storable limit :=
  ⟨h.wellFormed.reloaded, h.principal, fun name value hv =>
    h.values name value (by rw [← (agrees_reloaded s).values, hv])⟩

lemma Storable.patched (hbase : base.Storable limit) (hs : s.Storable limit) :
    (base.patched s).Storable limit := by
  refine ⟨hbase.wellFormed.patched hs.wellFormed, hs.principal, fun name value hv => ?_⟩
  rw [value?_patched] at hv
  split at hv
  · exact hs.values name value hv
  · exact hbase.values name value hv

lemma log_patched (base s : Session) : (base.patched s).attributes.log = base.attributes.log :=
  Attributes.log_foldl_applyChange s.attributes.changes base.attributes

/-- Cutting to whole seconds once more changes nothing. -/
lemma Agrees.trans {u : Session} (hst : Agrees s t) (htu : Agrees t u) : Agrees s u where
  id := by rw [htu.id, hst.id]
  created := by rw [htu.created, hst.created]
  accessed := by rw [htu.accessed, hst.accessed]
  maxIdle := by rw [htu.maxIdle, hst.maxIdle, Duration.wholeSeconds_ofSeconds]
  principal := by rw [htu.principal, hst.principal]
  kind := by rw [htu.kind, hst.kind]
  values name := by rw [htu.values, hst.values]

lemma Agrees.sound (h : Agrees s t) (hs : s.Sound limit) : t.Sound limit where
  id := by rw [h.id]; exact hs.id
  created := by rw [h.created]; exact hs.created
  accessed := by rw [h.accessed]; exact hs.accessed
  order := by rw [h.created, h.accessed]; exact hs.order
  interval := by rw [h.maxIdle]; exact wholeSeconds_le_longest hs.interval
  principal := by rw [h.principal]; exact hs.principal
  values name value hv := hs.values name value (by rw [← h.values, hv])

lemma Agrees.isExpired (h : Agrees s t) (now : Time) :
    t.isExpired now = s.reloaded.isExpired now := by
  unfold Session.isExpired Session.idleTooLong
  rw [h.maxIdle, h.accessed]
  rfl

/-- **A delta brings the last stored state up to date**: if the stored record agrees with a former
state `old` of the record, and all that has changed since is marked, then the patched record agrees
with the record. -/
theorem agrees_patched {old : Session} (hbase : Agrees old base) (hid : s.id = old.id)
    (hcreated : s.created = old.created) (hkind : s.kind = old.kind)
    (horder : s.created ≤ s.accessed)
    (hvalues : ∀ name, name ∉ s.attributes.changedNames →
      s.attributes.value? name = old.attributes.value? name) :
    Agrees s (patched base s) where
  id := by rw [hid, ← hbase.id]; rfl
  created := by rw [hcreated, ← hbase.created]; rfl
  accessed := by
    have hle : base.created ≤ s.accessed := by
      rw [hbase.created, ← hcreated]
      exact horder
    exact Time.max_eq_left hle
  maxIdle := rfl
  principal := rfl
  kind := by rw [hkind, ← hbase.kind]; rfl
  values name := by
    have hfold := Attributes.value?_foldl_applyChange s.attributes.value?
      s.attributes.changedNames base.attributes name
    change (s.attributes.changes.foldl Attributes.applyChange base.attributes).value? name = _
    rw [Attributes.changes, hfold]
    split
    next => rfl
    next hname => rw [hbase.values, hvalues name hname]

end Session

end Sessions
