import Sessions.Lifetime
import Sessions.Proofs.Codec.Legibility
import Sessions.Proofs.Sharing.Entries

/-!
# A fixed lifetime is strict

A repository with a lifetime goes by the creation time that the loaded record has. Whichever way a
record comes to the store, and whatever copy of it is saved, that is the time at which the session
was created: entries keep it even if nobody can read them (`Sharing.Traced`). So no look-up gives a
session out beyond its lifetime, and one that meets such a session removes it for good
(`LimitedSharing.Strict`).
-/

namespace Sessions

namespace Session

variable {s base t : Session} {new : Option Json} {T : Ident → Time → Prop}

/-- A record of which nothing is asked but that its values can be written, and that its id and
creation time belong together. -/
structure Traced (T : Ident → Time → Prop) (s : Session) : Prop where
  wellFormed : s.WellFormed
  principal : s.kind = .deltaCapable → s.principal ≠ some ""
  values : ∀ name value, s.attributes.value? name = some value → value.Valid
  time : T s.id s.created

lemma Traced.mono {T' : Ident → Time → Prop} (h : s.Traced T)
    (hT : ∀ id time, T id time → T' id time) : s.Traced T' :=
  ⟨h.wellFormed, h.principal, h.values, hT s.id s.created h.time⟩

lemma Traced.edited (h : s.Traced T) (hedit : Edited new s t)
    (hnew : ∀ value ∈ new, value.Valid) : t.Traced T where
  wellFormed := hedit.wellFormed h.wellFormed
  principal hkind := hedit.principal (h.principal (hedit.kind ▸ hkind))
  values name value hvalue := by
    rcases hedit.values name value hvalue with hold | hbrought
    · exact h.values name value hold
    · exact hnew value hbrought
  time := by
    rw [hedit.id, hedit.created]
    exact h.time

lemma Traced.withRule (h : s.Traced T) (rule : ChangeRule) : (s.withRule rule).Traced T :=
  ⟨h.wellFormed.withRule rule, h.principal, h.values, h.time⟩

lemma Traced.withPhase (h : s.Traced T) (phase : Phase) :
    ({ s with phase := phase } : Session).Traced T :=
  ⟨h.wellFormed.withPhase phase, h.principal, h.values, h.time⟩

lemma Traced.commit (h : s.Traced T) : s.commit.Traced T :=
  ⟨h.wellFormed.commit, h.principal, h.values, h.time⟩

lemma Traced.rotate (h : s.Traced T) {id : Ident} (hid : isBlank id.text = false)
    (htime : T id s.created) : (s.rotate id).Traced T :=
  ⟨h.wellFormed.rotate hid, h.principal, h.values, htime⟩

lemma created_touch (t : Session) (rule : ChangeRule) (now : Time) :
    ((t.withRule rule).touch now).created = t.created :=
  (edited_apply (t.withRule rule) .touch now).created

lemma Traced.valid_echoed (h : s.Traced T) {name : String} {value : Json}
    (hdepth : ∀ old, s.attributes.value? name = some old → old.depth ≤ Json.maxDepth)
    (hvalue : s.echoed.attributes.value? name = some value) : value.Valid := by
  rw [echoed, Attributes.value?_echoed] at hvalue
  obtain ⟨old, hold, rfl⟩ := Option.map_eq_some_iff.1 hvalue
  exact ((h.values name old hold).echo (hdepth old hold)).1

lemma Traced.patched (hbase : base.Traced T) (h : s.Traced T) (hprincipal : s.principal ≠ some "")
    (hchanged : ∀ name ∈ s.attributes.changedNames, ∀ value,
      s.attributes.value? name = some value → value.Legible) :
    (base.patched s.echoed).Traced T where
  wellFormed := hbase.wellFormed.patched h.wellFormed.echoed
  principal _ := hprincipal
  values name value hvalue := by
    rw [value?_patched] at hvalue
    split at hvalue
    next hname =>
      refine h.valid_echoed (fun old hold => ?_) hvalue
      exact (h.values name old hold).legible_iff.1 (hchanged name hname old hold)
    next => exact hbase.values name value hvalue
  time := hbase.time

end Session

variable {c : Codec} {T : Ident → Time → Prop} {now : Time}

lemma Codec.Carries.traced {s t : Session} {payload : Bytes} (hc : c.BuiltIn)
    (h : c.Carries s payload) (hs : s.Traced T) (hdec : c.decode payload = .ok t) :
    t.id = s.id ∧ t.Traced T := by
  obtain ⟨hfresh, hprincipal⟩ := hc.fresh_read (Codec.decode_eq_ok.1 hdec)
  obtain ⟨header, principal, -, -, hiff⟩ := h.decode_iff hs.wellFormed hs.values
  obtain ⟨hdepth, rfl⟩ := (hiff t).1 hdec
  refine ⟨rfl, hfresh.wellFormed, hprincipal, fun name value hvalue => ?_, hs.time⟩
  have hechoed : s.echoed.attributes.value? name = some value := by
    rw [← (Session.agrees_reloaded s.echoed).values, ← hvalue]
  exact hs.valid_echoed
    (fun old hold => Nat.le_trans (hdepth name old hold) (Codec.room_le header)) hechoed

/-- Each live entry of a store that can be read at all holds a record with the id that it is kept
under, whose creation time belongs to that id. -/
def Store.Traced (c : Codec) (T : Ident → Time → Prop) (st : Store) : Prop :=
  ∀ id payload keys due, st.find? id = some (.live payload keys due) →
    ∀ t, c.decode payload = .ok t → t.id = id ∧ t.Traced T

lemma Store.Traced.standing {st : Store} (h : st.Traced c T) {id : Ident} {payload : Bytes}
    {due : Option (Time × Action)} (hst : st.standing id now = some (payload, due)) {t : Session}
    (hdec : c.decode payload = .ok t) : t.id = id ∧ t.Traced T := by
  obtain ⟨keys, hfind⟩ := Store.find?_of_standing hst
  exact h id payload keys due hfind t hdec

/-- Where a payload that a save puts comes from, and what it is dated by. -/
inductive Repository.Source (c : Codec) (r : Repository) (s : Session) (now : Time)
    (payload : Bytes) (due : Option (Time × Action)) : Prop
  /-- It carries the copy, and is dated as it is. -/
  | own (hcarries : c.Carries s payload) (hdue : r.store.payloadDeadline payload now = .ok due)
  /-- It is what stood there with the changes of the copy, and is dated as that record. -/
  | merged {stored delta keys old} {base : Session} (hkind : s.kind = .deltaCapable)
      (hlive : r.store.find? s.id = some (.live stored keys old))
      (hbase : c.decode stored = .ok base) (hid : base.id = s.id)
      (hchanged : ∀ name ∈ s.attributes.changedNames, ∀ value,
        s.attributes.value? name = some value → value.Legible)
      (hmerge : c.merge base delta = (base.patched s.echoed, .ok true))
      (hwritten : (c.encodeFull (base.patched s.echoed)).2 = .ok payload)
      (hdue : r.store.deadline (r.store.hook.bind (·.ofSession (base.patched s.echoed) now)) now =
        .ok due)

lemma Codec.Carries.of_commit {s : Session} {payload : Bytes} (h : c.Carries s.commit payload) :
    c.Carries s payload := by
  cases h with
  | binary h hread => exact .binary h hread
  | portable hkind h hread => exact .portable hkind h hread

/-- **Every payload that a save puts has one of the two sources**, whether it was written whole,
merged, or sent again. -/
theorem Repository.Puts.source {r : Repository} {s : Session} {payload : Bytes}
    {due : Option (Time × Action)} (hc : c.BuiltIn) (hcodec : r.codec = c)
    (hstore : r.store.codec = c) (hs : s.Traced T) (h : Puts r s now payload due) :
    Source c r s now payload due := by
  cases h with
  | whole henc hread hfull hdue =>
    rw [hcodec] at henc
    rcases hc.carries_or_delta henc with hcarries | ⟨-, hdelta, -⟩
    · exact .own hcarries hdue
    · obtain rfl := Except.ok.inj ((Binary.header_delta hdelta).symm.trans hread)
      cases hfull
  | @merged delta header stored old henc hread hdelta hold hmerge =>
    rw [hcodec] at henc
    rcases hc.carries_or_delta henc with hcarries | ⟨hkind, hwritten, hleft⟩
    · obtain ⟨found, hfound, hheads⟩ := hcarries.header
      obtain rfl := Except.ok.inj (hfound.symm.trans hread)
      rcases hheads with rfl | ⟨-, rfl⟩ <;> cases hdelta
    · obtain ⟨base, merged, hbase, hmerged, hdue, hresult⟩ := Store.exists_of_mergeDelta hmerge
      rw [hstore] at hbase hmerged hresult
      obtain ⟨keys, hlive⟩ := Store.find?_of_standing hold
      obtain ⟨hid, hchanged, rfl⟩ :=
        (Binary.merge_delta_iff hs.wellFormed (hs.principal hkind) hwritten).1
          ((hleft base).symm.trans hmerged)
      exact .merged hkind (live_vacate hlive) hbase hid hchanged hmerged hresult hdue
  | resent _ _ hfull hdue =>
    rw [hcodec] at hfull
    exact .own (hc.carries hfull).of_commit hdue

/-- **No save brings another creation time under an id.** -/
theorem Repository.Puts.traced {r : Repository} {s t : Session} {payload : Bytes}
    {due : Option (Time × Action)} (hc : c.BuiltIn) (hcodec : r.codec = c)
    (hstore : r.store.codec = c) (hin : r.store.Traced c T) (hs : s.Traced T)
    (h : Puts r s now payload due) (hdec : c.decode payload = .ok t) :
    t.id = s.id ∧ t.Traced T := by
  cases h.source hc hcodec hstore hs with
  | own hcarries _ => exact hcarries.traced hc hs hdec
  | merged hkind hlive hbase hid hchanged _ hwritten _ =>
    obtain ⟨-, htraced⟩ := hin _ _ _ _ hlive _ hbase
    have hmerged := htraced.patched hs (hs.principal hkind) hchanged
    obtain ⟨hsame, ht⟩ := (hc.carries (Prod.ext rfl hwritten)).traced hc hmerged hdec
    exact ⟨hsame.trans hid, ht⟩

namespace Sharing

variable {w : Sharing} {d : Deed}

/-- All that is held, and all that is stored as far as it can be read, has the creation time that
belongs to its id. -/
structure Traced (c : Codec) (T : Ident → Time → Prop) (w : Sharing) : Prop where
  codec : w.repo.codec = c
  store : w.repo.store.codec = c
  copies : w.Held (Session.Traced T)
  entries : w.repo.store.Traced c T

lemma traced_start (c : Codec) (hook : Option Hook) (expiry : Option Expiry)
    (retention maxIdle : Duration) (names : List String) (rule : ChangeRule) (now : Time) :
    Traced c T (start c hook expiry retention maxIdle names rule now) :=
  ⟨rfl, rfl, fun _ _ h => (nomatch h), fun _ _ _ _ h => nomatch h⟩

lemma Traced.mono {T' : Ident → Time → Prop} (h : Traced c T w)
    (hT : ∀ id time, T id time → T' id time) : Traced c T' w where
  codec := h.codec
  store := h.store
  copies i s hs := (h.copies i s hs).mono hT
  entries id payload keys due hlive t hdec := by
    obtain ⟨hid, ht⟩ := h.entries id payload keys due hlive t hdec
    exact ⟨hid, ht.mono hT⟩

lemma Traced.held (hc : c.BuiltIn) (h : Traced c T w) (hvalue : ∀ value ∈ d.value?, value.Valid)
    (hdates : Dates T w d) : (w.act d).Held (Session.Traced T) := by
  have hkeeps : w.Keeps (Session.Traced T) d := by
    cases d with
    | create i id =>
      intro hid
      refine ⟨((Session.wellFormed_create hid w.now _).withMaxIdle _).withRule _, fun _ => ?_,
        fun name value hv => ?_, hdates⟩
      · simp [Repository.newSession, Session.withRule, Session.withMaxIdle, Session.create]
      · cases hv
    | load i id lookup =>
      refine ⟨fun payload due t hst hdec => ?_, fun s hs => ?_⟩
      · rw [h.codec] at hdec
        exact (h.entries.standing hst hdec).2.withRule _
      · refine hs.edited (Session.edited_apply s .touch w.now) fun value hvalue => ?_
        cases hvalue
    | edit i e => exact fun s hs => hs.edited (Session.edited_apply s e w.now) hvalue
    | rotate i id => exact fun hid s hheld hs => hs.rotate hid (hdates s hheld)
    | save i => exact fun s _ hs => ⟨hs.commit, fun _ => hs.withPhase _⟩
    | invalidate i => exact fun s hs => hs.withPhase _
    | clone _ _ | delete _ | tidy | tick _ => trivial
  exact held_act (h.codec ▸ hc.lawful) hkeeps h.copies

/-- **No deed changes a creation time.** -/
theorem Traced.act (hc : c.BuiltIn) (h : Traced c T w) (hvalue : ∀ value ∈ d.value?, value.Valid)
    (hdates : Dates T w d) : Traced c T (w.act d) := by
  have hsetup := w.setUpAs_act d
  refine ⟨hsetup.codec.trans h.codec, hsetup.storeCodec.trans h.store, h.held hc hvalue hdates, ?_⟩
  intro id payload keys due hlive t hdec
  rcases w.live_or_puts (h.codec ▸ hc.lawful) d hlive with hold | ⟨i, s, -, hs, hid, -, hputs⟩
  · exact h.entries id payload keys due hold t hdec
  · obtain ⟨hsame, ht⟩ := hputs.traced hc h.codec h.store h.entries (h.copies i s hs) hdec
    exact ⟨hsame.trans hid, ht⟩

/-- **Nor does any run**, if no id is given twice. -/
lemma traced_run (hc : c.BuiltIn) {fresh : Prop} {deeds : List Deed} {born : Ident → Option Time}
    (h : Traced c (fun id time => fresh → born id = some time) w)
    (hvalues : ∀ d ∈ deeds, ∀ value ∈ d.value?, value.Valid)
    (hfresh : fresh → Unborn born deeds) :
    Traced c (fun id time => fresh → w.births born deeds id = some time) (w.run deeds) :=
  births_induction (Traced c) Traced.mono (fun h i s hs => (h.copies i s hs).time)
    (fun h hvalue hdates => h.act hc hvalue hdates) hvalues h hfresh

end Sharing

/-! ## Look-ups under a lifetime -/

namespace LimitedRepository

variable {r : LimitedRepository} {id : Ident}

inductive Finds (r : LimitedRepository) (id : Ident) (now : Time) :
    LimitedRepository × Except Fault (Option Session) → Prop
  /-- The answer of the repository within is passed on. -/
  | passed {inner found} (hfind : r.inner.find id now = (inner, found))
      (hwithin : ∀ s, found = .ok (some s) → r.isOutlived s now = false) :
      Finds r id now ({ r with inner := inner }, found)
  /-- The session has outlived its lifetime, and is removed. -/
  | outlived {inner s} (hfind : r.inner.find id now = (inner, .ok (some s)))
      (hover : r.isOutlived s now = true) :
      Finds r id now ({ r with inner := inner.delete id }, .ok none)

/-- **Every way in which a look-up ends.** -/
theorem find_cases (r : LimitedRepository) (id : Ident) (now : Time) :
    Finds r id now (r.find id now) := by
  unfold find
  split
  next inner s hfind =>
    have hsame : isOutlived { r with inner := inner } s now = r.isOutlived s now := rfl
    simp only [hsame]
    split
    next hover => exact .outlived hfind hover
    next hwithin =>
      refine .passed hfind fun u hu => ?_
      obtain rfl := Option.some.inj (Except.ok.inj hu)
      simpa using hwithin
  next inner found hnone hfind =>
    refine .passed hfind fun s hs => ?_
    subst hs
    exact absurd rfl (hnone s)

lemma isOutlived_congr {s t : Session} (h : s.created = t.created) :
    r.isOutlived s now = r.isOutlived t now := by
  rw [isOutlived, h, isOutlived]

lemma isOutlived_eq_true {s : Session} :
    r.isOutlived s now = true ↔
      ∃ deadline, s.created.add? r.lifetime = some deadline ∧ deadline < now := by
  unfold isOutlived
  cases s.created.add? r.lifetime <;> simp

lemma find_of_outlived {payload : Bytes} {due : Option (Time × Action)} {t : Session}
    (hst : r.inner.store.standing id now = some (payload, due))
    (hdec : r.inner.codec.decode payload = .ok t) (hover : r.isOutlived t now = true) :
    ∃ inner : Repository, r.find id now = ({ r with inner := inner.delete id }, .ok none) := by
  obtain ⟨st, hfind⟩ := Repository.find_of_decoded hst hdec
  cases hidle : t.isExpired now with
  | true =>
    rw [hidle, if_pos rfl] at hfind
    exact ⟨{ r.inner with store := st }, by rw [find, hfind]⟩
  | false =>
    rw [hidle, if_neg (by simp)] at hfind
    have hcases := find_cases r id now
    generalize r.find id now = outcome at hcases
    cases hcases with
    | passed hpassed hwithin =>
      obtain ⟨-, rfl⟩ := Prod.mk.inj (hfind.symm.trans hpassed)
      have hlive := hwithin _ rfl
      rw [isOutlived_congr (t.created_touch r.inner.rule now), hover] at hlive
      cases hlive
    | outlived _ _ => exact ⟨_, rfl⟩

lemma find_of_absent (h : r.inner.store.find? id = none) :
    r.find id now =
      ({ r with inner := { r.inner with store := (r.inner.store.get id now).1 } }, .ok none) := by
  have hget : (r.inner.store.get id now).2 = none := by
    rw [Store.get_snd, Store.standing, h]
    rfl
  have hload : r.inner.load id now =
      ({ r.inner with store := (r.inner.store.get id now).1 }, .ok none) := by
    unfold Repository.load
    split
    next st hnone => rw [hnone]
    next st payload hsome =>
      rw [hsome] at hget
      cases hget
  rw [find, Repository.find, hload]
  rfl

end LimitedRepository

/-! ## Runs under a lifetime -/

/-- A repository with a lifetime, and what is shared of it. -/
structure LimitedSharing where
  /-- The repository within, its clock, and the copies. -/
  shared : Sharing
  lifetime : Duration

namespace LimitedSharing

variable {w : LimitedSharing} {born : Ident → Option Time} {deeds : List Deed}

def repo (w : LimitedSharing) : LimitedRepository := ⟨w.shared.repo, w.lifetime⟩

def start (c : Codec) (hook : Option Hook) (expiry : Option Expiry)
    (retention maxIdle lifetime : Duration) (indexable : List String) (rule : ChangeRule)
    (now : Time) : LimitedSharing :=
  ⟨.start c hook expiry retention maxIdle indexable rule now, lifetime⟩

/-- One deed. New sessions, look-ups, saves and removals are asked of the repository with the
lifetime; all else is done to copies, or to the repository within. -/
def act (w : LimitedSharing) : Deed → LimitedSharing
  | .create i id =>
    if isBlank id.text then w
    else { w with shared := w.shared.hold i (w.repo.newSession id w.shared.now) }
  | .load i id true =>
    let (r, found) := w.repo.find id w.shared.now
    ⟨w.shared.afterLoad i (r.inner, found), r.lifetime⟩
  | .save i =>
    match w.shared.copies i with
    | some s =>
      let (r, s', outcome) := w.repo.save s w.shared.now
      ⟨w.shared.afterSave i s (r.inner, s', outcome), r.lifetime⟩
    | none => w
  | .delete id =>
    let r := w.repo.delete id
    ⟨{ w.shared with repo := r.inner }, r.lifetime⟩
  | d => { w with shared := w.shared.act d }

def run (w : LimitedSharing) (deeds : List Deed) : LimitedSharing := deeds.foldl act w

@[simp] lemma run_nil (w : LimitedSharing) : w.run [] = w := rfl

@[simp] lemma run_cons (w : LimitedSharing) (d : Deed) (deeds : List Deed) :
    w.run (d :: deeds) = (w.act d).run deeds := rfl

/-- Every deed does what it does without the lifetime, but that a look-up may remove what it meets
instead of giving it out. -/
lemma act_eq_or (w : LimitedSharing) (d : Deed) :
    w.act d = { w with shared := w.shared.act d } ∨ ∃ i id, d = .load i id true ∧
      w.act d = { w with
        shared := { w.shared with repo := (w.shared.repo.load id w.shared.now).1.delete id } } := by
  cases d with
  | create i id =>
    left
    simp only [act, Sharing.act]
    split <;> rfl
  | load i id lookup =>
    cases lookup with
    | false => exact .inl rfl
    | true =>
      have hcases := LimitedRepository.find_cases w.repo id w.shared.now
      simp only [act]
      generalize w.repo.find id w.shared.now = outcome at hcases
      cases hcases with
      | passed hfind _ =>
        have hwithin : w.shared.repo.find id w.shared.now = _ := hfind
        exact .inl (by simp only [Sharing.act, hwithin, if_true]; rfl)
      | outlived hfind _ =>
        obtain ⟨rfl, -⟩ := Prod.mk.inj hfind
        exact .inr ⟨i, id, rfl, rfl⟩
  | save i =>
    left
    simp only [act, Sharing.act]
    cases w.shared.copies i <;> rfl
  | clone _ _ | edit _ _ | rotate _ _ | invalidate _ | delete _ | tidy | tick _ => exact .inl rfl

def births (w : LimitedSharing) (born : Ident → Option Time) : List Deed → Ident → Option Time
  | [] => born
  | d :: deeds => (w.act d).births (w.shared.bear born d) deeds

lemma births_append (w : LimitedSharing) (born : Ident → Option Time) (early rest : List Deed) :
    w.births born (early ++ rest) = (w.run early).births (w.births born early) rest := by
  induction early generalizing w born with
  | nil => rfl
  | cons d early ih => exact ih (w.act d) (w.shared.bear born d)

lemma births_of_notMem {id : Ident} (h : id ∉ deeds.filterMap Deed.newId?) :
    w.births born deeds id = born id := by
  induction deeds generalizing w born with
  | nil => rfl
  | cons d deeds ih =>
    have hne : d.newId? ≠ some id := fun heq =>
      h (List.mem_filterMap.2 ⟨d, List.mem_cons_self, heq⟩)
    have hrest : id ∉ deeds.filterMap Deed.newId? := by
      intro hmem
      obtain ⟨e, he, heq⟩ := List.mem_filterMap.1 hmem
      exact h (List.mem_filterMap.2 ⟨e, List.mem_cons_of_mem d he, heq⟩)
    rw [births, ih hrest, Sharing.bear_of_ne hne]

lemma lifetime_run (w : LimitedSharing) (deeds : List Deed) :
    (w.run deeds).lifetime = w.lifetime := by
  induction deeds generalizing w with
  | nil => rfl
  | cons d deeds ih =>
    rw [run_cons, ih]
    rcases w.act_eq_or d with hact | ⟨_, _, _, hact⟩ <;> rw [hact]

/-- **No deed under a lifetime changes a creation time.** -/
theorem traced_act (hc : c.BuiltIn) (h : w.shared.Traced c T) {d : Deed}
    (hvalue : ∀ value ∈ d.value?, value.Valid) (hdates : Sharing.Dates T w.shared d) :
    (w.act d).shared.Traced c T := by
  rcases w.act_eq_or d with hact | ⟨i, id, -, hact⟩
  · rw [hact]
    exact h.act hc hvalue hdates
  · have hsetup := Repository.setUpAs_load w.shared.repo id w.shared.now
    rw [hact]
    exact ⟨hsetup.codec.trans h.codec, hsetup.storeCodec.trans h.store, h.copies,
      fun other payload keys due hlive =>
        h.entries other payload keys due (Repository.live_load (Repository.live_delete hlive))⟩

/-- **Nor does any run**, if no id is given twice. -/
theorem traced_run (hc : c.BuiltIn) (h : w.shared.Traced c fun id time => born id = some time)
    (hvalues : ∀ d ∈ deeds, ∀ value ∈ d.value?, value.Valid)
    (hunborn : Sharing.Unborn born deeds) :
    (w.run deeds).shared.Traced c fun id time => w.births born deeds id = some time := by
  induction deeds generalizing w born with
  | nil => exact h
  | cons d deeds ih =>
    rw [run_cons]
    have hmono := h.mono fun id time => hunborn.bear_eq (w := w.shared)
    have hdates := Sharing.dates_bear (fun i s hs (_ : True) => (h.copies i s hs).time) d
    have hact := traced_act hc hmono (hvalues d List.mem_cons_self)
      (hdates.mono fun _ _ htime => htime trivial)
    exact ih hact (fun e he => hvalues e (List.mem_cons_of_mem d he)) hunborn.tail

/-- How a repository with a lifetime treats its sessions, when `T` tells for each id at what time
the session that it was given to was created. -/
structure Strict (T : Ident → Option Time) (lifetime : Duration) (w : LimitedSharing) : Prop where
  /-- Every copy has the creation time of its session. -/
  copies : ∀ i s, w.shared.copies i = some s → T s.id = some s.created
  /-- So has every entry, as far as it can be read. -/
  entries : ∀ id payload keys due, w.repo.inner.store.find? id = some (.live payload keys due) →
    ∀ t, w.repo.inner.codec.decode payload = .ok t → t.id = id ∧ T id = some t.created
  /-- A session that is given out is within its lifetime. -/
  within : ∀ id now s, (w.repo.find id now).2 = .ok (some s) →
    s.id = id ∧ T id = some s.created ∧
      ∀ deadline, s.created.add? lifetime = some deadline → now ≤ deadline
  /-- A look-up that meets a session beyond its lifetime removes it, so the next one finds nothing
  and only asks the store. -/
  removes : ∀ id now payload due t created deadline,
    w.repo.inner.store.standing id now = some (payload, due) →
    w.repo.inner.codec.decode payload = .ok t → T id = some created →
    created.add? lifetime = some deadline → deadline < now →
      ∃ r, w.repo.find id now = (r, .ok none) ∧ r.inner.store.find? id = none ∧
        ∀ next, r.find id next =
          ({ r with inner := { r.inner with store := (r.inner.store.get id next).1 } }, .ok none)

lemma strict_of_traced {T : Ident → Option Time}
    (h : w.shared.Traced c fun id time => T id = some time) : Strict T w.lifetime w where
  copies i s hs := (h.copies i s hs).time
  entries id payload keys due hlive t hdec := by
    obtain ⟨hid, ht⟩ := h.entries id payload keys due hlive t (h.codec ▸ hdec)
    exact ⟨hid, hid ▸ ht.time⟩
  within id now s hs := by
    have hcases := LimitedRepository.find_cases w.repo id now
    generalize w.repo.find id now = outcome at hcases hs
    cases hcases with
    | outlived _ _ => cases Except.ok.inj hs
    | passed hfind hwithin =>
      have hfound : (w.shared.repo.find id now).2 = .ok (some s) :=
        (congrArg Prod.snd hfind).trans hs
      obtain ⟨payload, due, t, hst, hdec, -, rfl⟩ := Sharing.find_eq_some hfound
      obtain ⟨hid, ht⟩ := h.entries.standing hst (h.codec ▸ hdec)
      have hcreated := t.created_touch w.shared.repo.rule now
      have hown : ((t.withRule w.shared.repo.rule).touch now).id = id :=
        (Session.edited_apply (t.withRule w.shared.repo.rule) .touch now).id.trans hid
      refine ⟨hown, hcreated ▸ hid ▸ ht.time, fun deadline hdeadline => ?_⟩
      by_contra hlate
      have hlive := hwithin _ hs
      have hover : w.repo.isOutlived t now = true :=
        LimitedRepository.isOutlived_eq_true.2 ⟨deadline, hcreated ▸ hdeadline, Int.not_le.1 hlate⟩
      rw [LimitedRepository.isOutlived_congr hcreated, hover] at hlive
      cases hlive
  removes id now payload due t created deadline hst hdec htime hdeadline hlate := by
    obtain ⟨hid, ht⟩ := h.entries.standing hst (h.codec ▸ hdec)
    obtain rfl : t.created = created := Option.some.inj ((hid ▸ ht.time).symm.trans htime)
    have hover : w.repo.isOutlived t now = true :=
      LimitedRepository.isOutlived_eq_true.2 ⟨deadline, hdeadline, hlate⟩
    obtain ⟨inner, hfind⟩ := LimitedRepository.find_of_outlived hst hdec hover
    have hnone : (inner.delete id).store.find? id = none := by
      rw [Repository.delete, Store.find?_remove, if_pos rfl]
    exact ⟨_, hfind, hnone, fun next => LimitedRepository.find_of_absent hnone⟩

lemma strict_prefix (hc : c.BuiltIn) (h : w.shared.Traced c fun _ _ => False) {early : List Deed}
    (hvalues : ∀ d ∈ deeds, ∀ value ∈ d.value?, value.Valid)
    (hnodup : (deeds.filterMap Deed.newId?).Nodup) (hearly : early <+: deeds) :
    Strict (w.births (fun _ => none) deeds) w.lifetime (w.run early) := by
  obtain ⟨rest, rfl⟩ := hearly
  rw [List.filterMap_append, List.nodup_append] at hnodup
  obtain ⟨hfirst, -, hdisjoint⟩ := hnodup
  have htraced := traced_run hc (h.mono fun id time hfalse => hfalse.elim)
    (fun d hd => hvalues d (List.mem_append_left rest hd)) ⟨hfirst, fun _ _ => rfl⟩
  rw [← w.lifetime_run early]
  refine strict_of_traced (htraced.mono fun id time htime => ?_)
  -- the id was given by one of the deeds so far, so none of the others gives it
  have hgiven : id ∈ early.filterMap Deed.newId? := by
    by_contra hnot
    rw [births_of_notMem hnot] at htime
    cases htime
  rw [births_append, births_of_notMem fun hmem => hdisjoint id hgiven id hmem rfl]
  exact htime

/-- **A fixed lifetime is strict.** At every moment of every run, over any composition of the
codecs, all that is held, stored or found has the creation time of its session; no look-up gives a
session out later than its lifetime after that, and one that meets such a session removes it. Ids
are not given twice, and the clock may be set to any time. -/
theorem strict_run (hc : c.BuiltIn) (hook : Option Hook) (expiry : Option Expiry)
    (retention maxIdle lifetime : Duration) (names : List String) (rule : ChangeRule) (now : Time)
    {deeds early : List Deed} (hvalues : ∀ d ∈ deeds, ∀ value ∈ d.value?, value.Valid)
    (hnodup : (deeds.filterMap Deed.newId?).Nodup) (hearly : early <+: deeds) :
    Strict ((start c hook expiry retention maxIdle lifetime names rule now).births (fun _ => none)
        deeds) lifetime
      ((start c hook expiry retention maxIdle lifetime names rule now).run early) :=
  strict_prefix hc (Sharing.traced_start c hook expiry retention maxIdle names rule now) hvalues
    hnodup hearly

end LimitedSharing

/-! ### A session that is used all the time -/

namespace Sample

/-- An empty repository over a chain, whose sessions last ten minutes. -/
def tenMinutes : LimitedSharing :=
  .start twoDeep none none .zero (.ofSeconds 300) (.ofSeconds 600) [] .identity start

/-- Two holders save their copies in turn, and one moves the session to another id. -/
def inUse : List Deed :=
  [.create 0 ⟨"x"⟩, .save 0, .tick (seconds 250 (by decide)), .load 1 ⟨"x"⟩ true, .save 1,
    .tick (seconds 500 (by decide)), .load 0 ⟨"x"⟩ true, .rotate 0 ⟨"y"⟩, .save 0]

end Sample

namespace LimitedSharing

open Sample

theorem strict_run_inUse :
    (∀ d ∈ inUse, ∀ value ∈ d.value?, value.Valid) ∧ (inUse.filterMap Deed.newId?).Nodup ∧
      (∃ s, ((tenMinutes.run inUse).repo.find ⟨"y"⟩ (seconds 600 (by decide))).2 = .ok (some s) ∧
        s.created = Sample.start) ∧
      ∃ r, (tenMinutes.run inUse).repo.find ⟨"y"⟩ (seconds 601 (by decide)) = (r, .ok none) ∧
        r.inner.store.find? ⟨"y"⟩ = none := by
  have hvalues : ∀ d ∈ inUse, ∀ value ∈ d.value?, value.Valid := by
    intro d hd value hvalue
    have hnone : inUse.filterMap Deed.value? = [] := rfl
    rw [List.filterMap_eq_nil_iff.1 hnone d hd] at hvalue
    cases hvalue
  have hnodup : (inUse.filterMap Deed.newId?).Nodup := by decide
  have hstrict := strict_run builtIn_twoDeep none none .zero (.ofSeconds 300) (.ofSeconds 600) []
    .identity Sample.start hvalues hnodup (List.prefix_refl inUse)
  have hborn : tenMinutes.births (fun _ => none) inUse ⟨"y"⟩ = some Sample.start := by
    decide +kernel
  refine ⟨hvalues, hnodup, ?_, ?_⟩
  · have hfound : ((tenMinutes.run inUse).repo.find ⟨"y"⟩ (seconds 600 (by decide))).2.map
        Option.isSome = .ok true := by decide +kernel
    cases hfind : ((tenMinutes.run inUse).repo.find ⟨"y"⟩ (seconds 600 (by decide))).2 with
    | error e =>
      rw [hfind] at hfound
      cases hfound
    | ok found =>
      cases found with
      | none =>
        rw [hfind] at hfound
        cases hfound
      | some s =>
        obtain ⟨-, hcreated, -⟩ := hstrict.within _ _ s hfind
        exact ⟨s, rfl, Option.some.inj (hcreated.symm.trans hborn)⟩
  · have hstands : (((tenMinutes.run inUse).repo.inner.store.standing ⟨"y"⟩
        (seconds 601 (by decide))).bind fun x => (twoDeep.decode x.1).toOption).isSome = true := by
      decide +kernel
    obtain ⟨t, ht⟩ := Option.isSome_iff_exists.1 hstands
    obtain ⟨⟨payload, due⟩, hst, hread⟩ := Option.bind_eq_some_iff.1 ht
    have hdec : twoDeep.decode payload = .ok t := by
      simp only at hread
      cases hdecode : twoDeep.decode payload with
      | error e =>
        rw [hdecode] at hread
        cases hread
      | ok u =>
        rw [hdecode] at hread
        obtain rfl := Option.some.inj hread
        rfl
    obtain ⟨r, hfind, hnone, -⟩ := hstrict.removes ⟨"y"⟩ (seconds 601 (by decide)) payload due t
      Sample.start (seconds 600 (by decide)) hst hdec hborn (by decide +kernel) (by decide)
    exact ⟨r, hfind, hnone⟩

end LimitedSharing

end Sessions
