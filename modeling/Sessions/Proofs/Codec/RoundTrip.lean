import Sessions.Proofs.Codec.BuiltIn
import Sessions.Proofs.Codec.Reading

/-!
# A record comes back from its full payload

However a record was made and changed, and however the codecs are composed, a payload that carries
the whole record is read as a record that agrees with it and has no changes to save. The values are
those that are read from the texts of the values that were written.
-/

namespace Sessions

/-- The records that are made without reading one: new ones, and what settings, edits, new ids and
commits make of them. -/
inductive Session.Built : Session → Prop
  | create {id : Ident} (hid : isBlank id.text = false) (now : Time) (kind : Kind) :
      Built (.create id now kind)
  | withMaxIdle {s : Session} (h : Built s) (interval : Duration) : Built (s.withMaxIdle interval)
  | withRule {s : Session} (h : Built s) (rule : ChangeRule) : Built (s.withRule rule)
  | edit {s : Session} (h : Built s) (e : Edit) (now : Time) : Built (e.apply now s)
  | rotate {s : Session} (h : Built s) {id : Ident} (hid : isBlank id.text = false) :
      Built (s.rotate id)
  | commit {s : Session} (h : Built s) : Built s.commit

namespace Session

variable {s : Session} {limit : Nat}

lemma Built.made (h : s.Built) : s.Made := by
  induction h with
  | create hid now kind => exact .create hid now kind
  | withMaxIdle _ interval ih => exact ih.withMaxIdle interval
  | withRule _ rule ih => exact ih.withRule rule
  | edit _ e now ih => exact ih.edit e now
  | rotate _ hid ih => exact ih.rotate hid
  | commit _ ih => exact ih.commit

lemma Built.principal (h : s.Built) : s.principal ≠ some "" := by
  induction h with
  | create hid now kind => exact Option.some_ne_none "" ∘ Eq.symm
  | edit _ e now ih => exact (edited_apply _ e now).principal ih
  | withMaxIdle _ _ ih | withRule _ _ ih | rotate _ _ ih | commit _ ih => exact ih

lemma Built.storable (h : s.Built) (hvalues : ∀ name value,
      s.attributes.value? name = some value → value.ReadsBack ∧ value.depth ≤ limit) :
    s.Storable limit ∧ s.echoed = s := by
  refine ⟨⟨h.made.wellFormed.1, h.principal, fun name value hv => ?_⟩, ?_⟩
  · obtain ⟨hback, hdepth⟩ := hvalues name value hv
    exact ⟨hback.valid.1, hdepth⟩
  · rw [echoed, Attributes.echoed_eq fun name value hv => (hvalues name value hv).1]

end Session

namespace Codec

variable {c : Codec} {s s' : Session} {payload : Bytes}

lemma BuiltIn.rereads_kind (hc : BuiltIn c) (kind : Kind) : Rereads c kind Portable.maxDepth := by
  cases kind with
  | plain => exact hc.rereads_plain
  | deltaCapable => exact hc.rereads_deltaCapable.mono (by decide)

lemma BuiltIn.readsAs (hc : BuiltIn c) (hs : s.Storable Portable.maxDepth)
    (h : c.encodeFull s = (s', .ok payload) ∨
      (s.needsFullWrite = true ∨ s.kind = .plain) ∧ c.encode s = (s', .ok payload)) :
    c.ReadsAs payload s.echoed.reloaded := by
  have hreread := hc.rereads_kind s.kind
  rcases h with hwhole | ⟨hneeds, hpreferred⟩
  · exact hreread.whole hs rfl hwhole
  · rcases hreread.preferred hs rfl hpreferred with hback | ⟨⟨hkind, hless⟩, -⟩
    · exact hback
    · rw [hless, hkind] at hneeds
      rcases hneeds with hneeds | hneeds <;> cases hneeds

/-- **A record comes back from a payload that carries it whole**, with every composition of the
codecs: as a persisted record without changes that has the same id, times, principal, kind and
attributes, its idle interval cut to whole seconds. -/
theorem decode_written (hc : BuiltIn c) (hs : s.Built)
    (hvalues : ∀ name value, s.attributes.value? name = some value →
      value.ReadsBack ∧ value.depth ≤ Portable.maxDepth)
    (hwritten : c.encodeFull s = (s', .ok payload) ∨
      (s.needsFullWrite = true ∨ s.kind = .plain) ∧ c.encode s = (s', .ok payload)) :
    ∃ t, c.decode payload = .ok t ∧ s.Agrees t ∧ t.phase = .persisted ∧ t.previous = none ∧
      t.hasDelta = false := by
  obtain ⟨hstorable, hechoed⟩ := hs.storable hvalues
  have hback := hc.readsAs hstorable hwritten
  rw [hechoed] at hback
  obtain ⟨hfresh, -⟩ := hc.fresh_read hback.1
  exact ⟨s.reloaded, hback.decode, s.agrees_reloaded, hfresh.phase, hfresh.previous,
    hfresh.hasDelta⟩

end Codec

namespace Sample

def twoDeep : Codec := .chain [.portable, .chain [.portable, .binary]]

lemma builtIn_twoDeep : twoDeep.BuiltIn := by
  have hinner : Codec.compose [.portable, .binary] = some (.chain [.portable, .binary]) := rfl
  have houter : Codec.compose [.portable, .chain [.portable, .binary]] = some twoDeep := rfl
  refine .composed (List.forall_mem_cons.2 ⟨.portable, List.forall_mem_singleton.2 ?_⟩) houter
  exact .composed (List.forall_mem_cons.2 ⟨.portable, List.forall_mem_singleton.2 .binary⟩) hinner

def evening : Time := ⟨-1500000000, by decide⟩

/-- A record from before 1970 whose interval is no whole number of seconds. -/
def pioneer : Session :=
  (Edit.set "step" (.arr [.int 1, .str "small"])).apply evening
    (((Session.create ⟨"x"⟩ evening .deltaCapable).withMaxIdle ⟨90500000000, by decide⟩).rotate
      ⟨"y"⟩)

lemma readsBack_pioneer (name : String) (value : Json)
    (h : pioneer.attributes.value? name = some value) :
    value.ReadsBack ∧ value.depth ≤ Portable.maxDepth := by
  have hmem := Attributes.exists_mem_entries h
  have hentries : pioneer.attributes.entries = [("step", .arr [.int 1, .str "small"])] := rfl
  rw [hentries, List.mem_singleton] at hmem
  obtain ⟨-, rfl⟩ := Prod.mk.inj hmem
  exact ⟨by decide +kernel, by decide⟩

end Sample

namespace Codec

open Sample

theorem decode_written_pioneer :
    pioneer.Built ∧ pioneer.needsFullWrite = true ∧
      ∃ payload t, twoDeep.encode pioneer = (pioneer.commit, .ok payload) ∧
        twoDeep.decode payload = .ok t ∧ pioneer.Agrees t ∧ t.phase = .persisted ∧
        t.previous = none ∧ t.hasDelta = false := by
  have hbuilt : pioneer.Built :=
    (((Session.Built.create (by decide) _ _).withMaxIdle _).rotate (by decide)).edit _ _
  have hok : (twoDeep.encode pioneer).2.toOption.isSome = true := by decide +kernel
  cases hwritten : twoDeep.encode pioneer with
  | mk s outcome =>
    cases outcome with
    | error e =>
      rw [hwritten] at hok
      cases hok
    | ok payload =>
      obtain rfl := builtIn_twoDeep.lawful.encode_ok hwritten
      obtain ⟨t, ht⟩ := decode_written builtIn_twoDeep hbuilt readsBack_pioneer
        (.inr ⟨.inl rfl, hwritten⟩)
      exact ⟨hbuilt, rfl, payload, t, rfl, ht⟩

end Codec

end Sessions
