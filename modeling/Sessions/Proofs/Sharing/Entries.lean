import Sessions.Proofs.Codec.RoundTrip
import Sessions.Proofs.Sharing.Basic

/-!
# Entries hold their own sessions

Payloads come to the store in three ways: whole, as the stored record with a delta merged into it,
and whole again where there is nothing to merge a delta into. Ids change in between. All the same,
every live entry holds a record with the id that it is kept under and the creation time of the
session that the id was given to, and the codec reads it.
-/

namespace Sessions

namespace Session

variable {s base : Session} {new : Option Json} {c : Codec} {T : Ident → Time → Prop}

/-- A record that a repository over the codec stores and reads again, whose id and creation time
belong together. -/
structure Belongs (c : Codec) (T : Ident → Time → Prop) (s : Session) : Prop where
  storable : s.Storable c.depthLimit
  kind : s.kind = c.recordKind
  time : T s.id s.created

lemma Belongs.mono {T' : Ident → Time → Prop} (h : s.Belongs c T)
    (hT : ∀ id time, T id time → T' id time) : s.Belongs c T' :=
  ⟨h.storable, h.kind, hT s.id s.created h.time⟩

lemma Belongs.edited {t : Session} (h : s.Belongs c T) (hedit : Edited new s t)
    (hnew : ∀ value ∈ new, value.Valid ∧ value.depth ≤ c.depthLimit) : t.Belongs c T where
  storable := by
    refine ⟨hedit.wellFormed h.storable.wellFormed, hedit.principal h.storable.principal, ?_⟩
    intro name value hvalue
    rcases hedit.values name value hvalue with hold | hbrought
    · exact h.storable.values name value hold
    · exact hnew value hbrought
  kind := hedit.kind.trans h.kind
  time := by
    rw [hedit.id, hedit.created]
    exact h.time

lemma Belongs.withRule (h : s.Belongs c T) (rule : ChangeRule) : (s.withRule rule).Belongs c T :=
  ⟨⟨h.storable.wellFormed.withRule rule, h.storable.principal, h.storable.values⟩, h.kind, h.time⟩

lemma Belongs.withPhase (h : s.Belongs c T) (phase : Phase) :
    ({ s with phase := phase } : Session).Belongs c T :=
  ⟨⟨h.storable.wellFormed.withPhase phase, h.storable.principal, h.storable.values⟩, h.kind, h.time⟩

lemma Belongs.commit (h : s.Belongs c T) : s.commit.Belongs c T :=
  ⟨⟨h.storable.wellFormed.commit, h.storable.principal, h.storable.values⟩, h.kind, h.time⟩

lemma Belongs.rotate (h : s.Belongs c T) {id : Ident} (hid : isBlank id.text = false)
    (htime : T id s.created) : (s.rotate id).Belongs c T :=
  ⟨⟨h.storable.wellFormed.rotate hid, h.storable.principal, h.storable.values⟩, h.kind, htime⟩

end Session

namespace Codec

lemma depthLimit_le (c : Codec) : c.depthLimit ≤ Json.maxDepth := by
  unfold depthLimit
  split <;> decide

lemma lasts_belongs (c : Codec) (T : Ident → Time → Prop) : c.Lasts (Session.Belongs c T) where
  storable _ hs := ⟨hs.storable, hs.kind⟩
  commit _ hs := hs.commit
  reloaded _ hs := ⟨(hs.storable.echoed c.depthLimit_le).reloaded, hs.kind, hs.time⟩
  patched _ _ hbase hs _ :=
    ⟨hbase.storable.patched (hs.storable.echoed c.depthLimit_le), hbase.kind, hbase.time⟩

end Codec

namespace Repository

variable {r : Repository} {c : Codec} {Q : Session → Prop} {now : Time}

lemma exists_find (hcodec : r.codec = c) (h : r.store.InPlace c Q) (id : Ident) (now : Time) :
    ∃ found, (r.find id now).2 = .ok found ∧ ∀ u ∈ found, u.id = id := by
  cases hst : r.store.standing id now with
  | none => exact ⟨none, find_of_none hst, fun u hu => nomatch hu⟩
  | some x =>
    obtain ⟨payload, due⟩ := x
    obtain ⟨t, hback, hid, -⟩ := h.standing hst
    rw [find_of_standing hst, hcodec, hback.decode]
    refine ⟨_, rfl, fun u hu => ?_⟩
    simp only at hu
    split at hu
    · cases hu
    · obtain rfl := Option.some.inj hu
      exact (Session.edited_apply (t.withRule r.rule) .touch now).id.trans hid

end Repository

def Deed.value? : Deed → Option Json
  | .edit _ e => e.value?
  | _ => none

def Deed.newId? : Deed → Option Ident
  | .create _ id | .rotate _ id => some id
  | _ => none

namespace Sharing

variable {w : Sharing} {c : Codec} {T : Ident → Time → Prop} {d : Deed}

/-- All that is held and all that is stored belongs there. -/
structure Orderly (c : Codec) (T : Ident → Time → Prop) (w : Sharing) : Prop where
  codec : w.repo.codec = c
  store : w.repo.store.codec = c
  copies : w.Held (Session.Belongs c T)
  entries : w.repo.store.InPlace c (Session.Belongs c T)

/-- What has to be known of the id that a deed gives to a session. -/
def Dates (T : Ident → Time → Prop) (w : Sharing) : Deed → Prop
  | .create _ id => T id w.now.floorMillis
  | .rotate i id => ∀ s ∈ w.copies i, T id s.created
  | _ => True

lemma Dates.mono {T' : Ident → Time → Prop} (h : Dates T w d)
    (hT : ∀ id time, T id time → T' id time) : Dates T' w d := by
  cases d with
  | create i id => exact hT id _ h
  | rotate i id => exact fun s hs => hT id _ (h s hs)
  | load _ _ _ | clone _ _ | edit _ _ | save _ | invalidate _ | delete _ | tidy | tick _ => trivial

lemma dates_any (w : Sharing) (d : Deed) : Dates (fun _ _ => True) w d := by
  cases d with
  | create _ _ => trivial
  | rotate _ _ => exact fun _ _ => trivial
  | load _ _ _ | clone _ _ | edit _ _ | save _ | invalidate _ | delete _ | tidy | tick _ => trivial

lemma orderly_start (c : Codec) (hook : Option Hook) (expiry : Option Expiry)
    (retention maxIdle : Duration) (names : List String) (rule : ChangeRule) (now : Time) :
    Orderly c T (start c hook expiry retention maxIdle names rule now) :=
  ⟨rfl, rfl, fun _ _ h => (nomatch h), fun _ _ _ _ h => nomatch h⟩

lemma Orderly.mono {T' : Ident → Time → Prop} (h : Orderly c T w)
    (hT : ∀ id time, T id time → T' id time) : Orderly c T' w where
  codec := h.codec
  store := h.store
  copies i s hs := (h.copies i s hs).mono hT
  entries id payload keys due hlive := by
    obtain ⟨t, hback, hid, ht⟩ := h.entries id payload keys due hlive
    exact ⟨t, hback, hid, ht.mono hT⟩

lemma Orderly.held (hc : c.BuiltIn) (h : Orderly c T w)
    (hvalue : ∀ value ∈ d.value?, value.Valid ∧ value.depth ≤ c.depthLimit) (hdates : Dates T w d) :
    (w.act d).Held (Session.Belongs c T) := by
  have hkeeps : w.Keeps (Session.Belongs c T) d := by
    cases d with
    | create i id =>
      intro hid
      refine ⟨⟨?_, by simp [Repository.newSession, Session.withRule, Session.withMaxIdle,
        Session.create], fun name value hv => ?_⟩, ?_, hdates⟩
      · exact ((Session.wellFormed_create hid w.now _).withMaxIdle _).withRule _
      · cases hv
      · change w.repo.kind = c.recordKind
        rw [Repository.kind, h.codec, Codec.recordKind]
    | load i id lookup =>
      refine ⟨fun payload due t hst hdec => ?_, fun s hs => ?_⟩
      · obtain ⟨u, hback, -, hu⟩ := h.entries.standing hst
        rw [h.codec, hback.decode] at hdec
        exact Except.ok.inj hdec ▸ hu.withRule _
      · refine hs.edited (Session.edited_apply s .touch w.now) fun value hvalue => ?_
        cases hvalue
    | edit i e => exact fun s hs => hs.edited (Session.edited_apply s e w.now) hvalue
    | rotate i id => exact fun hid s hheld hs => hs.rotate hid (hdates s hheld)
    | save i => exact fun s _ hs => ⟨hs.commit, fun _ => hs.withPhase _⟩
    | invalidate i => exact fun s hs => hs.withPhase _
    | clone _ _ | delete _ | tidy | tick _ => trivial
  exact held_act (h.codec ▸ hc.lawful) hkeeps h.copies

/-- **Every deed leaves all that is held and stored where it belongs.** -/
theorem Orderly.act (hc : c.BuiltIn) (h : Orderly c T w)
    (hvalue : ∀ value ∈ d.value?, value.Valid ∧ value.depth ≤ c.depthLimit) (hdates : Dates T w d) :
    Orderly c T (w.act d) := by
  have hsetup := w.setUpAs_act d
  refine ⟨hsetup.codec.trans h.codec, hsetup.storeCodec.trans h.store, h.held hc hvalue hdates, ?_⟩
  intro id payload keys due hlive
  rcases w.live_or_puts (h.codec ▸ hc.lawful) d hlive with hold | ⟨i, s, -, hs, hid, -, hputs⟩
  · exact h.entries id payload keys due hold
  · obtain ⟨t, hback, ht, hbelongs⟩ :=
      hputs.inPlace hc (c.lasts_belongs T) h.codec h.store h.entries (h.copies i s hs)
    exact ⟨t, hback, ht.trans hid, hbelongs⟩

/-! ## When sessions were created -/

/-- When the session with an id was created, as far as the id was given to one. A new session is
created now; one that gets another id keeps its time. -/
def bear (w : Sharing) (born : Ident → Option Time) : Deed → Ident → Option Time
  | .create _ id => Function.update born id (some w.now.floorMillis)
  | .rotate i id =>
    match w.copies i with
    | some s => Function.update born id (born s.id)
    | none => born
  | _ => born

def births (w : Sharing) (born : Ident → Option Time) : List Deed → Ident → Option Time
  | [] => born
  | d :: deeds => (w.act d).births (w.bear born d) deeds

lemma bear_of_ne {born : Ident → Option Time} {id : Ident} (h : d.newId? ≠ some id) :
    w.bear born d id = born id := by
  cases d with
  | create i other =>
    have hne : id ≠ other := fun heq => h (heq ▸ rfl)
    exact Function.update_of_ne hne ..
  | rotate i other =>
    have hne : id ≠ other := fun heq => h (heq ▸ rfl)
    cases hs : w.copies i with
    | none => rw [bear, hs]
    | some s =>
      rw [bear, hs]
      exact Function.update_of_ne hne ..
  | load _ _ _ | clone _ _ | edit _ _ | save _ | invalidate _ | delete _ | tidy | tick _ => rfl

/-- The ids that deeds give are different, and new. -/
def Unborn (born : Ident → Option Time) (deeds : List Deed) : Prop :=
  (deeds.filterMap Deed.newId?).Nodup ∧ ∀ id ∈ deeds.filterMap Deed.newId?, born id = none

lemma Unborn.tail {born : Ident → Option Time} {deeds : List Deed} (h : Unborn born (d :: deeds)) :
    Unborn (w.bear born d) deeds := by
  obtain ⟨hnodup, hnone⟩ := h
  refine ⟨hnodup.sublist ((List.sublist_cons_self d deeds).filterMap _), fun id hid => ?_⟩
  have hne : d.newId? ≠ some id := by
    intro heq
    rw [List.filterMap_cons_some heq] at hnodup
    exact (List.nodup_cons.1 hnodup).1 hid
  rw [bear_of_ne hne]
  obtain ⟨e, he, heq⟩ := List.mem_filterMap.1 hid
  exact hnone id (List.mem_filterMap.2 ⟨e, List.mem_cons_of_mem d he, heq⟩)

lemma Unborn.bear_eq {born : Ident → Option Time} {deeds : List Deed}
    (h : Unborn born (d :: deeds)) {id : Ident} {time : Time} (htime : born id = some time) :
    w.bear born d id = some time := by
  have hne : d.newId? ≠ some id := by
    intro heq
    rw [h.2 id (List.mem_filterMap.2 ⟨d, List.mem_cons_self, heq⟩)] at htime
    cases htime
  rw [bear_of_ne hne, htime]

lemma dates_bear {fresh : Prop} {born : Ident → Option Time}
    (h : w.Held fun s => fresh → born s.id = some s.created) (d : Deed) :
    Dates (fun id time => fresh → w.bear born d id = some time) w d := by
  cases d with
  | create i id => exact fun _ => Function.update_self ..
  | rotate i id =>
    intro s hs hfresh
    have hself : w.bear born (.rotate i id) id = born s.id := by
      rw [bear, Option.mem_def.1 hs]
      exact Function.update_self ..
    exact hself.trans (h i s hs hfresh)
  | load _ _ _ | clone _ _ | edit _ _ | save _ | invalidate _ | delete _ | tidy | tick _ => trivial

/-- **What every deed keeps of ids and creation times, every run keeps**, if no id is given twice:
an invariant that may be said of any relation of ids to times, and that has each copy's own id and
time related. -/
lemma births_induction (Inv : (Ident → Time → Prop) → Sharing → Prop) {P : Deed → Prop}
    {fresh : Prop}
    (hmono : ∀ {T T' : Ident → Time → Prop} {w : Sharing}, Inv T w →
      (∀ id time, T id time → T' id time) → Inv T' w)
    (hcopies : ∀ {T : Ident → Time → Prop} {w : Sharing}, Inv T w →
      w.Held fun s => T s.id s.created)
    (hact : ∀ {T : Ident → Time → Prop} {w : Sharing} {d : Deed}, Inv T w → P d → Dates T w d →
      Inv T (w.act d))
    {deeds : List Deed} {born : Ident → Option Time} (hdeeds : ∀ d ∈ deeds, P d)
    (h : Inv (fun id time => fresh → born id = some time) w)
    (hfresh : fresh → Unborn born deeds) :
    Inv (fun id time => fresh → w.births born deeds id = some time) (w.run deeds) := by
  induction deeds generalizing w born with
  | nil => exact h
  | cons d deeds ih =>
    rw [run_cons]
    have hbear : Inv (fun id time => fresh → w.bear born d id = some time) w :=
      hmono h fun id time htime hyes => (hfresh hyes).bear_eq (htime hyes)
    have hnext := hact hbear (hdeeds d List.mem_cons_self) (dates_bear (hcopies h) d)
    exact ih (fun e he => hdeeds e (List.mem_cons_of_mem d he)) hnext fun hyes => (hfresh hyes).tail

/-- Whatever deeds do, all that is held and stored is in its place; and if no id is given twice, it
has the time of its session. -/
lemma orderly_run (hc : c.BuiltIn) {fresh : Prop} {deeds : List Deed} {born : Ident → Option Time}
    (h : Orderly c (fun id time => fresh → born id = some time) w)
    (hvalues : ∀ d ∈ deeds, ∀ value ∈ d.value?, value.Valid ∧ value.depth ≤ c.depthLimit)
    (hfresh : fresh → Unborn born deeds) :
    Orderly c (fun id time => fresh → w.births born deeds id = some time) (w.run deeds) :=
  births_induction (Orderly c) Orderly.mono (fun h i s hs => (h.copies i s hs).time)
    (fun h hvalue hdates => h.act hc hvalue hdates) hvalues h hfresh

lemma orderly_of_run (hc : c.BuiltIn) (hook : Option Hook) (expiry : Option Expiry)
    (retention maxIdle : Duration) (names : List String) (rule : ChangeRule) (now : Time)
    {deeds : List Deed} (hvalues : ∀ d ∈ deeds, ∀ value ∈ d.value?,
      value.Valid ∧ value.depth ≤ c.depthLimit) :
    Orderly c (fun _ _ => True)
      ((start c hook expiry retention maxIdle names rule now).run deeds) := by
  have hstart : Orderly c
      (fun id time => False → (fun _ => none : Ident → Option Time) id = some time)
      (start c hook expiry retention maxIdle names rule now) :=
    orderly_start c hook expiry retention maxIdle names rule now
  exact (orderly_run hc hstart hvalues fun h => h.elim).mono fun _ _ _ => trivial

/-- **A store entry always holds its own session.** After any deeds, over any composition of the
codecs, the payload of each live entry is a full one and is read as a record with the id of the
entry; if no id was given twice, the record has the creation time of the session with that id. So a
look-up never fails, and never finds another session. -/
theorem entries_hold_own (hc : c.BuiltIn) (hook : Option Hook) (expiry : Option Expiry)
    (retention maxIdle : Duration) (names : List String) (rule : ChangeRule) (now : Time)
    {deeds : List Deed} (hvalues : ∀ d ∈ deeds, ∀ value ∈ d.value?,
      value.Valid ∧ value.depth ≤ Portable.maxDepth) :
    (∀ id payload keys due,
      ((start c hook expiry retention maxIdle names rule now).run deeds).repo.store.find? id =
          some (.live payload keys due) →
        (∃ header, Header.read payload = .ok header ∧ header.isDelta = false) ∧
          ∃ t, c.decode payload = .ok t ∧ t.id = id ∧
            ((deeds.filterMap Deed.newId?).Nodup →
              (start c hook expiry retention maxIdle names rule now).births (fun _ => none) deeds
                id = some t.created)) ∧
      ∀ id later, ∃ found,
        (((start c hook expiry retention maxIdle names rule now).run deeds).repo.find id later).2 =
            .ok found ∧ ∀ u ∈ found, u.id = id := by
  have hlimit : Portable.maxDepth ≤ c.depthLimit := by
    unfold Codec.depthLimit
    split <;> decide
  have hfit : ∀ d ∈ deeds, ∀ value ∈ d.value?, value.Valid ∧ value.depth ≤ c.depthLimit :=
    fun d hd value hvalue =>
      ⟨(hvalues d hd value hvalue).1, Nat.le_trans (hvalues d hd value hvalue).2 hlimit⟩
  have hrun := orderly_run hc
    (orderly_start c hook expiry retention maxIdle names rule now) hfit
    fun hnodup : (deeds.filterMap Deed.newId?).Nodup => ⟨hnodup, fun _ _ => rfl⟩
  refine ⟨fun id payload keys due hlive => ?_, Repository.exists_find hrun.codec hrun.entries⟩
  obtain ⟨t, hback, hid, ht⟩ := hrun.entries id payload keys due hlive
  exact ⟨hback.2, t, hback.decode, hid, hid ▸ ht.time⟩

end Sharing

/-! ### A session that moves -/

namespace Sample

def chained : Sharing := .start twoDeep none none .zero (.ofSeconds 1800) [] .identity start

/-- One copy takes the session to another id; the other is merged before, and sent again after. -/
def moved : List Deed :=
  [.create 0 ⟨"x"⟩, .save 0, .load 1 ⟨"x"⟩ true, .edit 1 (.set "k" (.int 1)), .save 1,
    .rotate 0 ⟨"y"⟩, .save 0, .edit 1 (.set "k" (.int 2)), .save 1]

lemma valid_moved : ∀ d ∈ moved, ∀ value ∈ d.value?,
    value.Valid ∧ value.depth ≤ Portable.maxDepth := by
  intro d hd value hvalue
  have hvalues : moved.filterMap Deed.value? = [.int 1, .int 2] := rfl
  have hmem : value ∈ moved.filterMap Deed.value? := List.mem_filterMap.2 ⟨d, hd, hvalue⟩
  simp only [hvalues, List.mem_cons, List.not_mem_nil, or_false] at hmem
  rcases hmem with rfl | rfl
  · exact ⟨by simp [Json.Valid], by decide⟩
  · exact ⟨by simp [Json.Valid], by decide⟩

end Sample

namespace Sharing

open Sample

theorem entries_hold_own_moved :
    (∀ d ∈ moved, ∀ value ∈ d.value?, value.Valid ∧ value.depth ≤ Portable.maxDepth) ∧
      (moved.filterMap Deed.newId?).Nodup ∧ ∀ id ∈ [Ident.mk "x", ⟨"y"⟩], ∃ payload keys due t,
        (chained.run moved).repo.store.find? id = some (.live payload keys due) ∧
          twoDeep.decode payload = .ok t ∧ t.id = id ∧ t.created = Sample.start := by
  have hnodup : (moved.filterMap Deed.newId?).Nodup := by decide
  refine ⟨valid_moved, hnodup, fun id hid => ?_⟩
  have hlive : ∀ id ∈ [Ident.mk "x", ⟨"y"⟩],
      ((chained.run moved).repo.store.find? id).any Entry.isLive = true := by decide +kernel
  have hborn : ∀ id ∈ [Ident.mk "x", ⟨"y"⟩],
      chained.births (fun _ => none) moved id = some Sample.start := by decide +kernel
  have hsome := hlive id hid
  cases hentry : (chained.run moved).repo.store.find? id with
  | none =>
    rw [hentry] at hsome
    cases hsome
  | some e =>
    rw [hentry] at hsome
    cases e with
    | tombstone since => cases hsome
    | live payload keys due =>
      obtain ⟨-, t, hdec, hown, htime⟩ := (entries_hold_own builtIn_twoDeep none none .zero
        (.ofSeconds 1800) [] .identity Sample.start valid_moved).1 id payload keys due hentry
      have hcreated := (htime hnodup).symm.trans (hborn id hid)
      exact ⟨payload, keys, due, t, rfl, hdec, hown, Option.some.inj hcreated⟩

end Sharing

end Sessions
