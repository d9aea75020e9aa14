import Sessions.Proofs.Expiry.Deadline
import Sessions.Proofs.Sharing.Lifetime
import Sessions.Proofs.Sharing.Removal

/-!
# A lifetime that the store keeps

A store whose hook has a fixed lifetime gives a deadline to what it is to hold, and leaves the
session's own interval to the repository where that ends first. Between the two, nothing that was
written is given out when the lifetime is over and a second has passed since the write.

That second is had again with every write. A copy that is saved after the end of the lifetime is
written like any other, so a session lives on as long as it is saved often enough.
-/

namespace Sessions

/-! ## What a repository gives out -/

namespace Repository

variable {r : Repository} {now : Time} {u : Session}

/-- A session is given out: a look-up finds it, or it is among those under an index key, as are the
sessions of a principal and those with an attribute's value. -/
inductive Gives (r : Repository) (now : Time) (u : Session) : Prop
  | found {id} (h : (r.find id now).2 = .ok (some u))
  | listed {key sessions} (h : (r.findByKey key now).2 = .ok sessions) (hmem : u ∈ sessions)

lemma exists_of_loadAll_cons {id : Ident} {ids : List Ident} {sessions : List Session}
    (h : (r.loadAll now (id :: ids)).2 = .ok sessions) : ∃ found others,
      (r.load id now).2 = .ok found ∧ ((r.load id now).1.loadAll now ids).2 = .ok others ∧
        sessions = found.toList ++ others := by
  rw [loadAll] at h
  generalize r.load id now = loaded at h
  obtain ⟨r', outcome⟩ := loaded
  cases outcome with
  | error e => cases h
  | ok found =>
    simp only at h
    cases hothers : (r'.loadAll now ids).2 with
    | error e =>
      rw [hothers] at h
      cases h
    | ok others =>
      rw [hothers] at h
      exact ⟨found, others, rfl, rfl, (Except.ok.inj h).symm⟩

lemma exists_of_mem_loadAll {ids : List Ident} {sessions : List Session}
    (h : (r.loadAll now ids).2 = .ok sessions) (hmem : u ∈ sessions) :
    ∃ id payload due t, r.store.standing id now = some (payload, due) ∧
      r.codec.decode payload = .ok t ∧ t.isExpired now = false ∧ u = t.withRule r.rule := by
  induction ids generalizing r sessions with
  | nil =>
    obtain rfl := Except.ok.inj h
    cases hmem
  | cons id ids ih =>
    obtain ⟨found, others, hfound, hothers, rfl⟩ := exists_of_loadAll_cons h
    have hsetup := setUpAs_load r id now
    rcases List.mem_append.1 hmem with hfirst | hrest
    · obtain rfl := Option.mem_toList.1 hfirst
      exact ⟨id, Sharing.load_eq_some hfound⟩
    · obtain ⟨other, payload, due, t, hst, hdec, hlive, rfl⟩ := ih hothers hrest
      have hbefore := (fades_load r id now).standing now _ hst
      exact ⟨other, payload, due, t, hbefore, hsetup.codec ▸ hdec, hlive, by rw [hsetup.rule]⟩

/-- **What is given out was read from what stands**, and is not idle. -/
theorem Gives.exists_standing (h : r.Gives now u) : ∃ id payload due t,
    r.store.standing id now = some (payload, due) ∧ r.codec.decode payload = .ok t ∧
      t.isExpired now = false ∧ u.id = t.id ∧ u.created = t.created := by
  cases h with
  | found h =>
    obtain ⟨payload, due, t, hst, hdec, hlive, rfl⟩ := Sharing.find_eq_some h
    exact ⟨_, payload, due, t, hst, hdec, hlive,
      (Session.edited_apply (t.withRule r.rule) .touch now).id, t.created_touch r.rule now⟩
  | listed h hmem =>
    obtain ⟨id, payload, due, t, hst, hdec, hlive, rfl⟩ := exists_of_mem_loadAll h hmem
    exact ⟨id, payload, due, t, (Store.settled_tidy now r.store).shrunk id now _ hst, hdec, hlive,
      rfl, rfl⟩

end Repository

/-! ## What dates an entry -/

lemma Store.exists_of_payloadDeadline {st : Store} {policy : Policy} {c : Codec} {payload : Bytes}
    {now : Time} {due : Option (Time × Action)} (hhook : st.hook = some ⟨policy, some c⟩)
    (h : st.payloadDeadline payload now = .ok due) : ∃ t, c.decode payload = .ok t ∧
      st.deadline ((policy.evaluate t now).map .ofDecision) now = .ok due := by
  obtain ⟨header, -, h⟩ := bind_eq_ok.1 h
  split at h
  · cases h
  · simp only [hhook] at h
    obtain ⟨opinion, hopinion, h⟩ := bind_eq_ok.1 h
    obtain ⟨t, hdec, hopinion⟩ := bind_eq_ok.1 hopinion
    obtain rfl := Except.ok.inj hopinion
    exact ⟨t, hdec, h⟩

section

variable {c : Codec} {T : Ident → Time → Prop} {r : Repository} {s t : Session} {now : Time}
  {payload : Bytes} {due : Option (Time × Action)} {policy : Policy}

lemma Codec.Carries.same (h : c.Carries s payload) (hs : s.Traced T)
    (hdec : c.decode payload = .ok t) :
    t.kind = s.kind ∧ t.created = s.created ∧ t.accessed = s.accessed ∧
      t.maxIdle = .ofSeconds s.maxIdle.wholeSeconds := by
  obtain ⟨header, principal, -, -, hiff⟩ := h.decode_iff hs.wellFormed hs.values
  obtain ⟨-, rfl⟩ := (hiff t).1 hdec
  exact ⟨rfl, rfl, rfl, rfl⟩

/-- **What a save puts is dated as the record that it is read as**, where the policy goes by the
times of a record. That record has the interval of the copy, in whole seconds, and was last accessed
no earlier. -/
theorem Repository.Puts.dated (hc : c.BuiltIn) (hcodec : r.codec = c) (hstore : r.store.codec = c)
    (hhook : r.store.hook = some ⟨policy, some c⟩) (hcustoms : policy.customs = [])
    (hin : r.store.Traced c T) (hs : s.Traced T) (h : Puts r s now payload due)
    (hdec : c.decode payload = .ok t) :
    r.store.deadline ((policy.evaluate t now).map .ofDecision) now = .ok due ∧
      s.accessed ≤ t.accessed ∧ t.maxIdle = .ofSeconds s.maxIdle.wholeSeconds := by
  cases h.source hc hcodec hstore hs with
  | own hcarries hdue =>
    obtain ⟨-, -, haccessed, hmaxIdle⟩ := hcarries.same hs hdec
    obtain ⟨u, hread, hdated⟩ := Store.exists_of_payloadDeadline hhook hdue
    obtain rfl := Except.ok.inj (hdec.symm.trans hread)
    exact ⟨hdated, haccessed ▸ Time.le_refl _, hmaxIdle⟩
  | @merged _ _ _ _ base hkind hlive hbase _ hchanged _ hwritten hdue =>
    -- the hook was shown the merged record, which is not quite what its payload is read as
    obtain ⟨-, htraced⟩ := hin _ _ _ _ hlive _ hbase
    have hmerged := htraced.patched hs (hs.principal hkind) hchanged
    obtain ⟨-, hcreated, haccessed, hmaxIdle⟩ :=
      (hc.carries (Prod.ext rfl hwritten)).same hmerged hdec
    have hwhole : t.maxIdle = (base.patched s.echoed).maxIdle := by
      rw [hmaxIdle, Session.patched, Duration.wholeSeconds_ofSeconds]
    have hsame : policy.evaluate t now = policy.evaluate (base.patched s.echoed) now := by
      refine Policy.evaluate_congr hcreated haccessed hwhole policy fun q hq => ?_
      rw [hcustoms] at hq
      cases hq
    rw [hhook] at hdue
    refine ⟨hsame ▸ hdue, ?_, hwhole⟩
    rw [haccessed]
    exact Time.le_max_left _ _

end

namespace Sharing

variable {w : Sharing} {id : Ident} {d : Deed} {deeds : List Deed}

lemma Through.of_append {P : Sharing → Deed → Prop} {early rest : List Deed}
    (h : Through P w (early ++ d :: rest)) : P (w.run early) d := by
  induction early generalizing w with
  | nil => exact h.1
  | cons e early ih => exact ih h.2

/-- **A live entry was there before a run, or was put by one of its saves**, of a copy with its id,
which landed. -/
theorem exists_write (hlaw : w.repo.codec.Lawful) {payload : Bytes} {keys : List IndexKey}
    {due : Option (Time × Action)}
    (hlive : (w.run deeds).repo.store.find? id = some (.live payload keys due)) :
    w.repo.store.find? id = some (.live payload keys due) ∨
      ∃ early i s rest, deeds = early ++ .save i :: rest ∧ (w.run early).copies i = some s ∧
        s.id = id ∧ (w.run early).repo.Lands s (w.run early).now ∧
        Repository.Puts (w.run early).repo s (w.run early).now payload due := by
  induction deeds generalizing w with
  | nil => exact .inl hlive
  | cons d deeds ih =>
    rcases ih ((w.setUpAs_act d).codec ▸ hlaw) hlive with hnext | ⟨early, i, s, rest, rfl, hs⟩
    · rcases w.live_or_puts hlaw d hnext with hold | ⟨i, s, rfl, hs⟩
      · exact .inl hold
      · exact .inr ⟨[], i, s, deeds, rfl, hs⟩
    · exact .inr ⟨d :: early, i, s, rest, rfl, hs⟩

lemma live_of_unwritten (hlaw : w.repo.codec.Lawful)
    (hdeeds : Through (fun w d => ¬Revives id w d) w deeds) {payload : Bytes}
    {keys : List IndexKey} {due : Option (Time × Action)}
    (hlive : (w.run deeds).repo.store.find? id = some (.live payload keys due)) :
    w.repo.store.find? id = some (.live payload keys due) := by
  rcases exists_write hlaw hlive with hold | ⟨early, i, s, rest, rfl, hs, hid, hlands, -⟩
  · exact hold
  · exact absurd ⟨s, hs, hid, hlands⟩ hdeeds.of_append

lemma Traced.run_any {c : Codec} (hc : c.BuiltIn) (h : Traced c (fun _ _ => True) w)
    (hvalues : ∀ d ∈ deeds, ∀ value ∈ d.value?, value.Valid) :
    Traced c (fun _ _ => True) (w.run deeds) :=
  run_induction (fun w d hw hd => hw.act hc hd.2 (dates_any w d)) h
    ((through_true w deeds).and_forall hvalues)

end Sharing

/-! ### Visits to a short-lived session -/

namespace Sample

def tenths (n : Nat) (h : n < 1000) : Time :=
  ⟨start.nanos + n * 100000000, by
    have hstart : start.nanos = 1700000000000000000 := rfl
    omega⟩

def tenSeconds : FixedPolicy := ⟨.ofSeconds 10, none, .destroy⟩

/-- An empty repository whose store keeps sessions that long. -/
def fleeting (maxIdle : Duration) : Sharing :=
  .start .binary (some ⟨.fixed tenSeconds, some .binary⟩) none .zero maxIdle [] .identity start

def soonVisited : List Deed :=
  [.create 0 ⟨"x"⟩, .save 0, .tick (tenths 20 (by decide)), .load 1 ⟨"x"⟩ true]

/-- The repository then. Sessions may be idle for six seconds. -/
def atVisit : Sharing := (fleeting (.ofSeconds 6)).run soonVisited

/-- The copy of the visitor, whose interval ends before the lifetime of the session. -/
def soonVisitor : Session := (atVisit.copies 1).getD record

def lookedUp : List Deed := [.tick (tenths 45 (by decide)), .load 2 ⟨"x"⟩ true]

/-- A session is visited and saved half a second before the end of its lifetime. -/
def lateVisited : List Deed :=
  [.create 0 ⟨"x"⟩, .save 0, .tick (tenths 95 (by decide)), .load 1 ⟨"x"⟩ true, .save 1]

def visitedOn : List Deed :=
  lateVisited ++ [.tick (tenths 104 (by decide)), .load 1 ⟨"x"⟩ true, .save 1]

lemma create_tenSeconds : FixedPolicy.create (.ofSeconds 10) .destroy = .ok tenSeconds := by
  decide +kernel

lemma exists_of_traits {α : Type} {found : Except Fault (Option Session)} {f : Session → α} {a : α}
    (h : found.map (·.map f) = .ok (some a)) : ∃ u, found = .ok (some u) ∧ f u = a := by
  cases found with
  | error e => cases h
  | ok x =>
    cases x with
    | none => cases Except.ok.inj h
    | some u => exact ⟨u, rfl, Option.some.inj (Except.ok.inj h)⟩

lemma valid_of_none {deeds : List Deed} (h : deeds.filterMap Deed.value? = []) :
    ∀ d ∈ deeds, ∀ value ∈ d.value?, value.Valid := by
  intro d hd value hvalue
  rw [List.filterMap_eq_nil_iff.1 h d hd] at hvalue
  cases hvalue

end Sample

/-! ## Fixed lifetimes -/

section

variable {c : Codec} {T : Ident → Time → Prop} {lifetime : Duration} {action : Action}
  {p : FixedPolicy} {idle : Option IdlePolicy} {later : Time}

lemma Repository.Puts.lt_of_standing {r : Repository} {s t : Session} {now : Time} {payload : Bytes}
    {due : Option (Time × Action)} (hp : FixedPolicy.create lifetime action = .ok p)
    (hc : c.BuiltIn) (hcodec : r.codec = c) (hstore : r.store.codec = c)
    (hhook : r.store.hook = some ⟨.fixed { p with idle := idle }, some c⟩)
    (hin : r.store.Traced c T) (hs : s.Traced T) (h : Puts r s now payload due) {st : Store}
    {id : Ident} (hst : st.standing id later = some (payload, due))
    (hdec : c.decode payload = .ok t) (hlive : t.isExpired later = false) :
    later.nanos < t.created.nanos + lifetime.nanos ∨ later.nanos < now.nanos + 1000000000 := by
  obtain ⟨rfl, hpos, hle⟩ := FixedPolicy.create_eq_ok hp
  obtain ⟨hdated, -, -⟩ := h.dated hc hcodec hstore hhook rfl hin hs hdec
  have hlapses : t.Lapses lifetime now due :=
    FixedPolicy.lapses (p := ⟨lifetime, idle, action⟩) (Int.le_of_lt hpos) hle hdated
  exact hlapses.lt (Store.lt_of_standing hst) hlive

namespace Sharing

open Sample

variable {w : Sharing} {expiry : Option Expiry} {retention maxIdle : Duration}
  {names : List String} {rule : ChangeRule} {start : Time} {u : Session}

/-- From any state in which all is traced, what is given out of a session that a save has written
is within its fixed lifetime, or within a second of that save. -/
lemma Traced.lt_of_gives (hc : c.BuiltIn) (hp : FixedPolicy.create lifetime action = .ok p)
    (hhook : w.repo.store.hook = some ⟨.fixed { p with idle := idle }, some c⟩)
    (h : Traced c T w) {i : Nat} {s : Session} (hcopy : w.copies i = some s)
    (hlands : w.repo.Lands s w.now) {after : List Deed}
    (hvalues : ∀ d ∈ after, ∀ value ∈ d.value?, value.Valid)
    (hafter : Through (fun w d => ¬Revives s.id w d) (w.act (.save i)) after)
    (hgives : ((w.act (.save i)).run after).repo.Gives later u) (hid : u.id = s.id) :
    (later.nanos < u.created.nanos + lifetime.nanos ∨
        later.nanos < w.now.nanos + 1000000000) ∧ T s.id u.created := by
  have hlaw : w.repo.codec.Lawful := h.codec ▸ hc.lawful
  have hsaved : Traced c (fun _ _ => True) (w.act (.save i)) :=
    (h.mono fun _ _ _ => trivial).act hc (fun _ hnone => nomatch hnone) (dates_any w _)
  have hend := hsaved.run_any hc hvalues
  obtain ⟨held, payload, due, t, hst, hdec, hlive, hsame, hcreated⟩ := hgives.exists_standing
  rw [hend.codec] at hdec
  obtain ⟨keys, hfind⟩ := Store.find?_of_standing hst
  obtain rfl : held = s.id := by
    rw [← (hend.entries.standing hst hdec).1, ← hsame, hid]
  have hwritten := live_of_unwritten ((w.setUpAs_act _).codec ▸ hlaw) hafter hfind
  obtain ⟨-, -, put, putDue, mid, -, hputs, hsave⟩ := hlands.exists_puts hlaw
  rw [repo_act_save hcopy, hsave, Store.find?_insert, if_pos rfl] at hwritten
  obtain ⟨rfl, -, rfl⟩ := Entry.live.inj (Option.some.inj hwritten)
  have hs := h.copies i s hcopy
  obtain ⟨hown, ht⟩ := hputs.traced hc h.codec h.store h.entries hs hdec
  rw [hcreated]
  exact ⟨hputs.lt_of_standing hp hc h.codec h.store hhook h.entries hs hst hdec hlive,
    hown ▸ ht.time⟩

/-- **Once written, a session is given out within its fixed lifetime, or within a second of the
write**, as long as it is not written again. So it is where its own interval ends first, or the
delegate's, and whatever the default is. If no id was given twice, its creation time is that of the
copy. -/
theorem gives_within_lifetime (hc : c.BuiltIn) (hp : FixedPolicy.create lifetime action = .ok p)
    (idle : Option IdlePolicy) {before after : List Deed}
    (hw : (Sharing.start c (some ⟨.fixed { p with idle := idle }, some c⟩) expiry retention maxIdle
      names rule start).run before = w)
    (hvalues : ∀ d ∈ before ++ after, ∀ value ∈ d.value?, value.Valid)
    {i : Nat} {s : Session} (hcopy : w.copies i = some s) (hlands : w.repo.Lands s w.now)
    (hafter : Through (fun w d => ¬Revives s.id w d) (w.act (.save i)) after)
    (hgives : ((w.act (.save i)).run after).repo.Gives later u) (hid : u.id = s.id) :
    (later.nanos < u.created.nanos + lifetime.nanos ∨
        later.nanos < w.now.nanos + 1000000000) ∧
      ((before.filterMap Deed.newId?).Nodup → u.created = s.created) := by
  obtain ⟨hbefore, hrest⟩ := List.forall_mem_append.1 hvalues
  have htraced := traced_run hc (traced_start c (some ⟨.fixed { p with idle := idle }, some c⟩)
    expiry retention maxIdle names rule start) hbefore
    fun hnodup : (before.filterMap Deed.newId?).Nodup => ⟨hnodup, fun _ _ => rfl⟩
  have hhook := (setUpAs_run (Sharing.start c (some ⟨.fixed { p with idle := idle }, some c⟩)
    expiry retention maxIdle names rule start) before).hook
  rw [hw] at htraced hhook
  obtain ⟨hbound, hborn⟩ :=
    htraced.lt_of_gives hc hp hhook hcopy hlands hrest hafter hgives hid
  refine ⟨hbound, fun hnodup => ?_⟩
  have hcreated := (htraced.copies i s hcopy).time hnodup
  exact Option.some.inj ((hborn hnodup).symm.trans hcreated)

theorem gives_within_lifetime_visit :
    atVisit.copies 1 = some soonVisitor ∧ atVisit.repo.Lands soonVisitor atVisit.now ∧
      (atVisit.act (.save 1)).repo.store.deadlineOf ⟨"x"⟩ = none ∧
      Through (fun w d => ¬Revives soonVisitor.id w d) (atVisit.act (.save 1)) lookedUp ∧
      ∃ u, ((atVisit.act (.save 1)).run lookedUp).repo.Gives (tenths 79 (by decide)) u ∧
        ((tenths 79 (by decide)).nanos < u.created.nanos + 10000000000 ∨
          (tenths 79 (by decide)).nanos < atVisit.now.nanos + 1000000000) ∧
        u.created = soonVisitor.created := by
  have hcopy : atVisit.copies 1 = some soonVisitor := by
    have hsome : (atVisit.copies 1).isSome = true := by decide +kernel
    obtain ⟨s, hs⟩ := Option.isSome_iff_exists.1 hsome
    rw [soonVisitor, hs, Option.getD_some]
  have hlands : atVisit.repo.Lands soonVisitor atVisit.now := by decide +kernel
  have hendless : (atVisit.act (.save 1)).repo.store.deadlineOf ⟨"x"⟩ = none := by decide +kernel
  have hafter : Through (fun w d => ¬Revives soonVisitor.id w d) (atVisit.act (.save 1))
      lookedUp := by decide +kernel
  have hfound : (((atVisit.act (.save 1)).run lookedUp).repo.find ⟨"x"⟩
      (tenths 79 (by decide))).2.map (·.map (·.id)) = .ok (some soonVisitor.id) := by
    decide +kernel
  have hvalues : ∀ d ∈ soonVisited ++ lookedUp, ∀ value ∈ d.value?, value.Valid :=
    valid_of_none rfl
  obtain ⟨u, hu, hid⟩ := exists_of_traits hfound
  obtain ⟨hbound, hcreated⟩ := gives_within_lifetime .binary create_tenSeconds none rfl hvalues
    hcopy hlands hafter (.found hu) hid
  exact ⟨hcopy, hlands, hendless, hafter, u, .found hu, hbound, hcreated (by decide)⟩

/-- **What outlives its fixed lifetime was written less than a second before.** Whenever a session
is given out in a run, its lifetime is not over, or there was a save in the run that has written it,
and not a second has passed since. If no id was given twice, its lifetime is counted from the
creation of the session with that id. -/
theorem outlives_by_writes (hc : c.BuiltIn) (hp : FixedPolicy.create lifetime action = .ok p)
    (idle : Option IdlePolicy) {deeds : List Deed}
    (hw : Sharing.start c (some ⟨.fixed { p with idle := idle }, some c⟩) expiry retention maxIdle
      names rule start = w)
    (hvalues : ∀ d ∈ deeds, ∀ value ∈ d.value?, value.Valid)
    (hgives : (w.run deeds).repo.Gives later u) :
    (later.nanos < u.created.nanos + lifetime.nanos ∨
        ∃ early i s rest, deeds = early ++ .save i :: rest ∧ (w.run early).copies i = some s ∧
          s.id = u.id ∧ (w.run early).repo.Lands s (w.run early).now ∧
          later.nanos < (w.run early).now.nanos + 1000000000) ∧
      ((deeds.filterMap Deed.newId?).Nodup →
        w.births (fun _ => none) deeds u.id = some u.created) := by
  have hstart : ∀ T, Traced c T w :=
    fun T => hw ▸ traced_start c _ expiry retention maxIdle names rule start
  have hhook : w.repo.store.hook = some ⟨.fixed { p with idle := idle }, some c⟩ := by
    rw [← hw]
    rfl
  have hempty : ∀ id, w.repo.store.find? id = none := by
    rw [← hw]
    exact fun id => rfl
  have hend := traced_run hc (hstart _) hvalues
    fun hnodup : (deeds.filterMap Deed.newId?).Nodup => ⟨hnodup, fun _ _ => rfl⟩
  obtain ⟨held, payload, due, t, hst, hdec, hlive, hsame, hcreated⟩ := hgives.exists_standing
  rw [hend.codec] at hdec
  obtain ⟨keys, hfind⟩ := Store.find?_of_standing hst
  obtain ⟨hown, ht⟩ := hend.entries.standing hst hdec
  rw [hcreated, hsame]
  refine ⟨?_, ht.time⟩
  have hlaw : w.repo.codec.Lawful := (hstart fun _ _ => True).codec ▸ hc.lawful
  rcases exists_write hlaw hfind with hold | ⟨early, i, s, rest, rfl, hs, hid, hlands, hputs⟩
  · rw [hempty] at hold
    cases hold
  · have htraced : Traced c (fun _ _ => True) (w.run early) :=
      (hstart _).run_any hc fun d hd => hvalues d (List.mem_append_left _ hd)
    have hthen := (w.setUpAs_run early).hook.trans hhook
    have hbound := hputs.lt_of_standing hp hc htraced.codec htraced.store hthen htraced.entries
      (htraced.copies i s hs) hst hdec hlive
    exact hbound.imp_right fun hlate =>
      ⟨early, i, s, rest, rfl, hs, hid.trans hown.symm, hlands, hlate⟩

theorem outlives_by_writes_late :
    ∃ u, ((fleeting (.ofSeconds (-1))).run lateVisited).repo.Gives (tenths 102 (by decide)) u ∧
      u.created = Sample.start ∧
      ∃ early i s rest, lateVisited = early ++ .save i :: rest ∧
        ((fleeting (.ofSeconds (-1))).run early).copies i = some s ∧ s.id = u.id ∧
        (tenths 102 (by decide)).nanos <
          ((fleeting (.ofSeconds (-1))).run early).now.nanos + 1000000000 := by
  have hfound : (((fleeting (.ofSeconds (-1))).run lateVisited).repo.find ⟨"x"⟩
      (tenths 102 (by decide))).2.map (·.map (·.created)) = .ok (some Sample.start) := by
    decide +kernel
  obtain ⟨u, hu, hcreated⟩ := exists_of_traits hfound
  obtain ⟨hwithin | ⟨early, i, s, rest, hdeeds, hs, hid, -, hlate⟩, -⟩ :=
    outlives_by_writes .binary create_tenSeconds none rfl (valid_of_none rfl)
      (Repository.Gives.found hu)
  · rw [hcreated] at hwithin
    exact absurd hwithin (by decide)
  · exact ⟨u, .found hu, hcreated, early, i, s, rest, hdeeds, hs, hid, hlate⟩

/-- What those who visit sessions do, while the clock does not go back. -/
def Visits (w : Sharing) : Deed → Prop
  | .tick now => w.now ≤ now
  | .create .. | .edit .. | .save _ => True
  | .load _ _ lookup => lookup = true
  | .clone .. | .rotate .. | .invalidate _ | .delete _ | .tidy => False

instance (w : Sharing) : ∀ d, Decidable (Visits w d)
  | .tick now => inferInstanceAs (Decidable (w.now ≤ now))
  | .create .. | .edit .. | .save _ => .isTrue trivial
  | .load _ _ lookup => inferInstanceAs (Decidable (lookup = true))
  | .clone .. | .rotate .. | .invalidate _ | .delete _ | .tidy => .isFalse not_false

/-- A session that never gets idle is visited and saved half a second before the end of its lifetime
and again after it. It is still found when the lifetime has been over for more than a second. -/
theorem lifetime_can_be_outlived :
    ¬∀ (c : Codec) (_ : c.BuiltIn) (lifetime : Duration) (action : Action) (p : FixedPolicy)
      (_ : FixedPolicy.create lifetime action = .ok p) (expiry : Option Expiry)
      (retention maxIdle : Duration) (names : List String) (rule : ChangeRule) (start : Time)
      (deeds : List Deed) (w : Sharing) (id : Ident) (later : Time) (u : Session),
      Sharing.start c (some ⟨.fixed p, some c⟩) expiry retention maxIdle names rule start = w →
        (∀ d ∈ deeds, ∀ value ∈ d.value?, value.Valid) → Through Visits w deeds →
        (w.run deeds).now ≤ later → ((w.run deeds).repo.find id later).2 = .ok (some u) →
        u.maxIdle.isNegative = true →
        later.nanos ≤ u.created.nanos + lifetime.nanos + 1000000000 := by
  intro h
  have hvisits : Through Visits (fleeting (.ofSeconds (-1))) visitedOn := by decide +kernel
  have hnow : ((fleeting (.ofSeconds (-1))).run visitedOn).now ≤ tenths 113 (by decide) := by
    decide +kernel
  have hfound : (((fleeting (.ofSeconds (-1))).run visitedOn).repo.find ⟨"x"⟩
      (tenths 113 (by decide))).2.map (·.map fun u => (u.created, u.maxIdle.isNegative)) =
        .ok (some (Sample.start, true)) := by decide +kernel
  obtain ⟨u, hu, htraits⟩ := exists_of_traits hfound
  obtain ⟨hcreated, hnegative⟩ := Prod.mk.inj htraits
  have hbound := h .binary .binary (.ofSeconds 10) .destroy tenSeconds create_tenSeconds none .zero
    (.ofSeconds (-1)) [] .identity Sample.start visitedOn _ ⟨"x"⟩ (tenths 113 (by decide)) u rfl
    (valid_of_none rfl) hvisits hnow hu hnegative
  rw [hcreated] at hbound
  exact absurd hbound (by decide)

end Sharing

end

end Sessions
