import Sessions.Proofs.Sharing.Basic

/-!
# Merging the changes of several copies

Copies of one stored session are changed and saved in any order. A save merges the changes that its
copy has noted into the stored record, and nothing else, so an attribute of the stored record has
the value of the latest saved copy that had changed it. A copy that is out of date takes nothing
back that it has not changed itself.
-/

namespace Sessions

open Store (Settled)

namespace Session

variable {id : Ident} {s t base : Session} {new : Option Json} {now : Time}

/-- A delta-capable record under an id, all of whose values are read from their own texts. -/
structure Exact (id : Ident) (s : Session) : Prop where
  id : s.id = id
  kind : s.kind = .deltaCapable
  values : ∀ name value, s.attributes.value? name = some value → value.ReadsBack

/-- A copy that is merged when it is saved. -/
structure Mergeable (id : Ident) (s : Session) : Prop extends Exact id s where
  delta : s.needsFullWrite = false
  clean : s.attributes.LogClean

lemma Exact.echoed (h : s.Exact id) : s.echoed = s := by
  rw [Session.echoed, Attributes.echoed_eq h.values]

lemma Exact.legible (h : s.Exact id) : ∀ name value, s.attributes.value? name = some value →
    value.Legible :=
  fun name value hvalue => (h.values name value hvalue).reprints.legible

lemma Exact.reloaded (h : s.Exact id) : s.reloaded.Exact id where
  id := h.id
  kind := h.kind
  values name value hvalue := h.values name value (by rw [← (agrees_reloaded s).values, hvalue])

lemma Exact.patched (hbase : base.Exact id) (hs : s.Exact id) : (base.patched s).Exact id where
  id := hbase.id
  kind := hbase.kind
  values name value hvalue := by
    rw [value?_patched] at hvalue
    split at hvalue
    · exact hs.values name value hvalue
    · exact hbase.values name value hvalue

lemma Exact.mergeable (h : t.Exact id) (hfresh : t.Fresh) (rule : ChangeRule) :
    (t.withRule rule).Mergeable id :=
  ⟨⟨h.id, h.kind, h.values⟩, hfresh.needsFullWrite, hfresh.logClean⟩

lemma Mergeable.edited (hs : s.Mergeable id) (h : Edited new s t)
    (hnew : ∀ value ∈ new, value.ReadsBack) : t.Mergeable id where
  id := h.id.trans hs.id
  kind := h.kind.trans hs.kind
  values name value hvalue := by
    rcases h.values name value hvalue with hold | hbrought
    · exact hs.values name value hold
    · exact hnew value hbrought
  delta := by
    rw [needsFullWrite, h.phase, h.previous]
    exact hs.delta
  clean := h.attributes.clean hs.clean

lemma Mergeable.commit (h : s.Mergeable id) : s.commit.Mergeable id where
  id := h.id
  kind := h.kind
  values := h.values
  delta := by cases hphase : s.phase <;> simp [needsFullWrite, Session.commit, hphase]
  clean _ := rfl

lemma Mergeable.changedNames (h : s.Mergeable id) (hdelta : s.hasDelta = false) :
    s.attributes.changedNames = [] :=
  h.clean (Bool.or_eq_false_iff.1 hdelta).2

end Session

/-! ## The stored record -/

namespace Repository

variable {r : Repository} {id : Ident} {s t : Session} {now : Time}

lemma holds_load (hr : r.OnBinary) (h : r.store.Holds id t)
    (hlive : (r.store.standing id now).isSome = true) (hidle : t.isExpired now = false) :
    (r.load id now).1.store.Holds id t := by
  have hcases := load_cases r id now
  generalize r.load id now = outcome at hcases
  cases hcases with
  | absent _ hst => exact h.settled hlive hst
  | unreadable _ _ hst => exact h.settled hlive hst
  | idle hsome hdec hexpired _ =>
    rw [hr.codec] at hdec
    rw [h.eq_of_standing hsome hdec, hidle] at hexpired
    cases hexpired
  | found _ _ _ hst => exact h.settled hlive hst

/-- How the record that is stored after a save of `s` follows from the one stored before. -/
inductive Merged (s t : Session) : Except Fault Unit → Session → Prop
  | unchanged {e} : Merged s t (.error e) t
  | changed {t'} (hvalues : ∀ name, t'.attributes.value? name =
      if name ∈ s.attributes.changedNames then s.attributes.value? name
      else t.attributes.value? name) : Merged s t (.ok ()) t'

/-- **A save merges what its copy has changed, and nothing else.** -/
theorem holds_save (hr : r.OnBinary) (hform : s.WellFormed) (hprincipal : s.principal ≠ some "")
    (hs : s.Mergeable id) (h : r.store.Holds id t) (ht : t.Exact id)
    (hlive : (r.store.standing id now).isSome = true) (hidle : s.isExpired now = false) :
    ∃ t', (r.save s now).1.store.Holds id t' ∧ t'.Exact id ∧
      Merged s t (r.save s now).2.2 t' := by
  have hvacate : r.vacate s = r := vacate_of_full hs.delta
  have hleaving := leaving_save hr hform hprincipal now
  generalize r.save s now = saved at hleaving
  cases hleaving with
  | ended => exact ⟨t, h, ht, .unchanged⟩
  | failed hst _ =>
    rw [hvacate] at hst
    exact ⟨t, h.settled hlive hst, ht, .unchanged⟩
  | idle hexpired =>
    rw [hidle] at hexpired
    cases hexpired
  | skipped _ hdelta _ =>
    refine ⟨t, h, ht, .changed fun name => ?_⟩
    rw [hs.changedNames hdelta, if_neg List.not_mem_nil]
  | @stored payload due mid _ _ _ hleaves =>
    have hfind : ∀ keys, (mid.insert s.id (.live payload keys due)).find? id =
        some (.live payload keys due) := fun keys => by
      rw [Store.find?_insert, if_pos hs.id]
    cases hleaves with
    | whole hwhole _ =>
      -- the copy is no whole write, and there is something to merge it into
      rw [hs.kind, hs.delta, hs.id] at hwhole
      rcases hwhole with hplain | hfull | hnone
      · cases hplain
      · cases hfull
      · rw [hnone] at hlive
        cases hlive
    | merged _ hbase _ hfull =>
      rw [hs.id] at hbase
      obtain rfl := Option.some.inj ((h.record? hlive).symm.trans hbase)
      rw [hs.echoed] at hfull
      have hexact := ht.patched hs.toExact
      have hpatched := (fresh_record? hbase).1.wellFormed.patched hform
      have hread := (Binary.read_full_iff hpatched hprincipal hfull).2 ⟨hexact.legible, rfl⟩
      rw [hexact.echoed] at hread
      refine ⟨_, ⟨payload, _, due, hfind _, Binary.decode_eq_ok.2 hread⟩, hexact.reloaded,
        .changed fun name => ?_⟩
      rw [(Session.agrees_reloaded _).values, Session.value?_patched]

end Repository

namespace Sharing

variable {names : List String} {id : Ident} {base : Session} {w : Sharing}

/-- What may happen to copies of a session that stays live: it is not made anew, rotated or removed,
nothing is loaded or saved that is idle, and the values set are read from their own texts. -/
def Gentle (id : Ident) (w : Sharing) : Deed → Prop
  | .load _ other _ => other = id ∧ (w.repo.store.standing id w.now).isSome = true ∧
      ∀ t ∈ w.repo.store.record? id w.now, t.isExpired w.now = false
  | .edit _ e => ∀ value ∈ e.value?, value.ReadsBack
  | .save i => ∀ s ∈ w.copies i,
      (w.repo.store.standing id w.now).isSome = true ∧ s.isExpired w.now = false
  | .tidy => (w.repo.store.standing id w.now).isSome = true
  | .clone .. | .tick _ => True
  | .create .. | .rotate .. | .invalidate _ | .delete _ => False

instance (w : Sharing) : ∀ d, Decidable (Gentle id w d)
  | .load .. => inferInstanceAs (Decidable (_ ∧ _ ∧ _))
  | .edit _ e => inferInstanceAs (Decidable (∀ value ∈ e.value?, value.ReadsBack))
  | .save i => inferInstanceAs (Decidable (∀ s ∈ w.copies i,
      (w.repo.store.standing id w.now).isSome = true ∧ s.isExpired w.now = false))
  | .tidy => inferInstanceAs (Decidable (_ = true))
  | .clone .. | .tick _ => .isTrue trivial
  | .create .. | .rotate .. | .invalidate _ | .delete _ => .isFalse fun h => h

/-- The value under a name in the latest of some saved copies that had changed it, or in `base` if
none had. -/
def lastChange (saves : List Save) (base : Session) (name : String) : Option Json :=
  match saves.find? fun v => name ∈ v.copy.attributes.changedNames with
  | some v => v.copy.attributes.value? name
  | none => base.attributes.value? name

lemma lastChange_cons (v : Save) (saves : List Save) (base : Session) (name : String) :
    lastChange (v :: saves) base name =
      if name ∈ v.copy.attributes.changedNames then v.copy.attributes.value? name
      else lastChange saves base name := by
  by_cases h : name ∈ v.copy.attributes.changedNames <;> simp [lastChange, h]

/-- Saves of copies that have not changed a name leave its value. -/
lemma lastChange_append {later : List Save} {name : String}
    (h : ∀ v ∈ later, name ∉ v.copy.attributes.changedNames) (saves : List Save)
    (base : Session) : lastChange (later ++ saves) base name = lastChange saves base name := by
  induction later with
  | nil => rfl
  | cons v rest ih =>
    rw [List.cons_append, lastChange_cons, if_neg (h v List.mem_cons_self)]
    exact ih fun u hu => h u (List.mem_cons_of_mem v hu)

/-- What holds of a session whose copies are merged. -/
structure Merging (names : List String) (id : Ident) (base : Session) (w : Sharing) : Prop where
  binary : OnBinary names w
  copies : w.Held (Session.Mergeable id)
  stored : ∃ t, w.repo.store.Holds id t ∧ t.Exact id ∧
    ∀ name, t.attributes.value? name = lastChange w.saves base name

lemma Merging.held (h : Merging names id base w) {d : Deed} (hd : Gentle id w d) :
    (w.act d).Held (Session.Mergeable id) := by
  have hkeeps : w.Keeps (Session.Mergeable id) d := by
    cases d with
    | load i other lookup =>
      obtain ⟨rfl, -, -⟩ := hd
      refine ⟨fun payload due u hst hdec => ?_, fun s hs => ?_⟩
      · obtain ⟨t, hholds, hexact, -⟩ := h.stored
        rw [h.binary.repo.codec] at hdec
        obtain rfl := hholds.eq_of_standing hst hdec
        exact hexact.mergeable (Binary.fresh_read (Binary.decode_eq_ok.1 hdec)).1 _
      · exact hs.edited (Session.edited_apply s .touch w.now) fun _ hnone => by cases hnone
    | edit i e => exact fun s hs => hs.edited (Session.edited_apply s e w.now) hd
    | save i =>
      intro s hheld hs
      refine ⟨hs.commit, fun hidle => ?_⟩
      rw [(hd s hheld).2] at hidle
      cases hidle
    | create i other => exact hd.elim
    | rotate i other => exact hd.elim
    | invalidate i => exact hd.elim
    | clone _ _ | delete _ | tidy | tick _ => trivial
  exact held_act h.binary.repo.lawful hkeeps h.copies

lemma Merging.act (h : Merging names id base w) {d : Deed} (hd : Gentle id w d) :
    Merging names id base (w.act d) := by
  refine ⟨h.binary.act d, h.held hd, ?_⟩
  obtain ⟨t, hholds, hexact, hvalues⟩ := h.stored
  cases w.acts d with
  | still hrepo hsaves =>
    rw [hrepo, hsaves]
    exact ⟨t, hholds, hexact, hvalues⟩
  | loads heq hrepo hsaves =>
    subst heq
    obtain ⟨rfl, hlive, hidle⟩ := hd
    obtain ⟨⟨payload, due⟩, hst⟩ := Option.isSome_iff_exists.1 hlive
    rw [hrepo, hsaves]
    exact ⟨t, Repository.holds_load h.binary.repo hholds hlive
      (hidle t (hholds.record? hlive)), hexact, hvalues⟩
  | removes heq _ _ =>
    rcases heq with rfl | ⟨i, s, rfl, -⟩
    · exact hd.elim
    · exact hd.elim
  | tidies heq hrepo hsaves =>
    subst heq
    rw [hrepo, hsaves]
    exact ⟨t, hholds.settled hd (Store.settled_tidy w.now w.repo.store), hexact, hvalues⟩
  | @saves i s heq hs hact =>
    subst heq
    obtain ⟨hlive, hidle⟩ := hd s hs
    obtain ⟨hform, hprincipal⟩ := h.binary.copies i s hs
    obtain ⟨t', hholds', hexact', hmerged⟩ := Repository.holds_save h.binary.repo hform hprincipal
      (h.copies i s hs) hholds hexact hlive hidle
    generalize w.repo.save s w.now = saved at hact hholds' hmerged
    rw [hact, repo_afterSave]
    refine ⟨t', hholds', hexact', fun name => ?_⟩
    obtain ⟨r', s', outcome⟩ := saved
    cases hmerged with
    | unchanged => exact hvalues name
    | changed hchanged => rw [afterSave, lastChange_cons, hchanged, hvalues]

/-- **No change is lost.** Throughout a run in which a session stays live, each attribute of the
stored record has the value of the latest saved copy that had changed it, and the one it had at
first if there was none. So what one copy has changed and saved stays, whatever copies are saved
later that have not changed it too. -/
theorem values_of_merged {r : Repository} {now : Time} (hr : r.OnBinary)
    (hstored : r.store.Holds id base) (hexact : base.Exact id) {deeds : List Deed}
    (hgentle : Through (Gentle id) (ofRepository r now) deeds) :
    ∃ t, ((ofRepository r now).run deeds).repo.store.Holds id t ∧
      (∀ name, t.attributes.value? name =
        lastChange ((ofRepository r now).run deeds).saves base name) ∧
      ∀ later v earlier, ((ofRepository r now).run deeds).saves = later ++ v :: earlier →
        ∀ name ∈ v.copy.attributes.changedNames,
          (∀ u ∈ later, name ∉ u.copy.attributes.changedNames) →
            t.attributes.value? name = v.copy.attributes.value? name := by
  have hstart : Merging r.indexable id base (ofRepository r now) :=
    ⟨⟨hr, rfl, fun _ _ h => nomatch h⟩, fun _ _ h => (nomatch h),
      ⟨base, hstored, hexact, fun _ => rfl⟩⟩
  obtain ⟨t, hholds, -, hvalues⟩ := (run_induction (fun _ _ h hd => h.act hd) hstart hgentle).stored
  refine ⟨t, hholds, hvalues, fun later v earlier hsaves name hname hlater => ?_⟩
  rw [hvalues, hsaves, lastChange_append hlater, lastChange_cons, if_pos hname]

end Sharing

/-! ### Two carts -/

namespace Sample

def kept : Session := ((stored none).store.record? ⟨"x"⟩ start).getD record

lemma holds_kept : (stored none).store.Holds ⟨"x"⟩ kept := by
  have hsome : ((stored none).store.record? ⟨"x"⟩ start).isSome = true := by decide +kernel
  obtain ⟨t, ht⟩ := Option.isSome_iff_exists.1 hsome
  rw [kept, ht]
  exact Store.holds_of_record? ht

lemma exact_kept : kept.Exact ⟨"x"⟩ where
  id := by decide +kernel
  kind := by decide +kernel
  values name value hvalue := by
    have hentries : kept.attributes.entries = [] := by decide +kernel
    have hmem := Attributes.exists_mem_entries hvalue
    rw [hentries] at hmem
    cases hmem

/-- Two copies put something in the cart, and one of them takes its own away again. -/
def carts : List Deed :=
  [.load 0 ⟨"x"⟩ true, .load 1 ⟨"x"⟩ true, .edit 0 (.set "tea" (.int 1)),
    .edit 1 (.set "milk" (.int 2)), .save 1, .save 0, .edit 1 (.remove "milk"), .save 1]

end Sample

namespace Sharing

open Sample

theorem values_of_merged_carts :
    (stored none).OnBinary ∧
      Through (Gentle ⟨"x"⟩) (ofRepository (stored none) Sample.start) carts ∧
      ∃ t, ((ofRepository (stored none) Sample.start).run carts).repo.store.Holds ⟨"x"⟩ t ∧
        t.attributes.value? "tea" = some (.int 1) ∧ t.attributes.value? "milk" = none := by
  have hbinary : (stored none).OnBinary := ⟨rfl, rfl⟩
  have hgentle : Through (Gentle ⟨"x"⟩) (ofRepository (stored none) Sample.start) carts := by
    decide +kernel
  have hlast : lastChange ((ofRepository (stored none) Sample.start).run carts).saves kept "tea" =
        some (.int 1) ∧
      lastChange ((ofRepository (stored none) Sample.start).run carts).saves kept "milk" =
        none := by
    decide +kernel
  obtain ⟨t, hholds, hvalues, -⟩ := values_of_merged hbinary holds_kept exact_kept hgentle
  exact ⟨hbinary, hgentle, t, hholds, (hvalues "tea").trans hlast.1, (hvalues "milk").trans hlast.2⟩

end Sharing

end Sessions
