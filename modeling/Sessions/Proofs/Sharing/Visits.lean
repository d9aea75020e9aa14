import Sessions.Proofs.Codec.Restoring
import Sessions.Proofs.Sharing.Lapse

/-!
# Sessions that are visited

A store whose hook has an idle timeout keeps what is written until what is left of the timeout has
passed, counted in whole seconds from the write. So a session that is never idle by its own interval
is kept alive by visits: each of them finds it that comes soon enough after the last save that has
written it.

Whole seconds are fewer than the timeout where it has a part below a second, or where some time has
passed between the last access and the save. And a save that has nothing to write is none that
counts.
-/

namespace Sessions

/-! ## Visits in time -/

namespace Sharing

variable {w : Sharing} {id : Ident} {d : Deed} {payload : Bytes}
  {due : Option (Time × Action)} {t : Session}

/-- Until when the entry under an id is kept, after a deed: a save that writes it sets that anew, by
the last access of the copy and the time of the save. -/
def keptAfter (keeps : Time → Time → Int) (id : Ident) (w : Sharing) (bound : Int) : Deed → Int
  | .save i =>
    match w.copies i with
    | some s => if s.id = id ∧ w.repo.Lands s w.now then keeps s.accessed w.now else bound
    | none => bound
  | _ => bound

/-- What may happen while a session with an id is visited. The clock does not go back, nobody
deletes the session or invalidates a copy of it, no copy is saved that was moved away from the id,
and those that are saved under it have an interval of minus one second or less. Whoever looks the
session up comes before the given moment. -/
def Attends (id : Ident) (bound : Int) (w : Sharing) : Deed → Prop
  | .tick now => w.now ≤ now
  | .load _ other lookup => lookup = true → other = id → w.now.nanos < bound
  | .save i => ∀ s ∈ w.copies i, s.previous ≠ some id ∧
      (s.id = id → s.maxIdle.nanos ≤ -1000000000)
  | .invalidate i => ∀ s ∈ w.copies i, s.id ≠ id
  | .delete other => other ≠ id
  | .create .. | .clone .. | .edit .. | .rotate .. | .tidy => True

instance (id : Ident) (bound : Int) (w : Sharing) : ∀ d, Decidable (Attends id bound w d)
  | .tick now => inferInstanceAs (Decidable (w.now ≤ now))
  | .load _ other lookup =>
    inferInstanceAs (Decidable (lookup = true → other = id → w.now.nanos < bound))
  | .save i => inferInstanceAs (Decidable (∀ s ∈ w.copies i, s.previous ≠ some id ∧
      (s.id = id → s.maxIdle.nanos ≤ -1000000000)))
  | .invalidate i => inferInstanceAs (Decidable (∀ s ∈ w.copies i, s.id ≠ id))
  | .delete other => inferInstanceAs (Decidable (other ≠ id))
  | .create .. | .clone .. | .edit .. | .rotate .. | .tidy => .isTrue trivial

/-- Each visit of a run comes before the moment that the last save has set which has written the
session, and nothing else happens to it. -/
def Attended (keeps : Time → Time → Int) (id : Ident) (w : Sharing) (bound : Int) :
    List Deed → Prop
  | [] => True
  | d :: deeds =>
    Attends id bound w d ∧ Attended keeps id (w.act d) (w.keptAfter keeps id bound d) deeds

instance decidableAttended (keeps : Time → Time → Int) (id : Ident) :
    ∀ (w : Sharing) (bound : Int) (deeds : List Deed), Decidable (Attended keeps id w bound deeds)
  | _, _, [] => .isTrue trivial
  | w, bound, d :: deeds => @instDecidableAnd _ _ _
      (decidableAttended keeps id (w.act d) (w.keptAfter keeps id bound d) deeds)

variable {bound : Int}

lemma Attends.now_le (h : Attends id bound w d) : w.now ≤ (w.act d).now := by
  rcases w.now_act d with hsame | ⟨now, rfl, hnow⟩
  · exact hsame ▸ Time.le_refl w.now
  · exact hnow ▸ h

/-- **Such a deed leaves what stands under the id**, unless it writes it anew. -/
lemma Attends.standing (h : Attends id bound w d) (hnot : ¬Revives id w d)
    (hlaw : w.repo.codec.Lawful) (hst : w.repo.store.standing id w.now = some (payload, due))
    (hdec : w.repo.codec.decode payload = .ok t) (hlive : t.isExpired w.now = false) :
    (w.act d).repo.store.standing id w.now = some (payload, due) := by
  cases w.acts d with
  | still hrepo _ =>
    rw [hrepo]
    exact hst
  | loads _ hrepo _ =>
    rw [hrepo]
    exact Repository.standing_load hst hdec hlive _
  | @removes other heq hrepo _ =>
    have hne : other ≠ id := by
      rcases heq with rfl | ⟨i, s, rfl, hs, rfl⟩
      · exact h
      · exact h s hs
    rw [hrepo, Repository.standing_delete, if_neg hne, hst]
  | tidies _ hrepo _ =>
    rw [hrepo]
    exact ((Store.settled_tidy w.now w.repo.store).kept id w.now (Time.le_refl w.now)).trans hst
  | @saves i s heq hs hact =>
    subst heq
    obtain ⟨hprevious, hinterval⟩ := h s hs
    rw [hact, repo_afterSave]
    refine Repository.standing_save hlaw hst hprevious fun hid => ⟨?_, fun hlands => ?_⟩
    · exact Session.isExpired_of_negative (by have := hinterval hid; omega) w.now
    · exact hnot ⟨s, hs, hid, hlands⟩

lemma keptAfter_cases (keeps : Time → Time → Int) (id : Ident) (w : Sharing) (bound : Int)
    (d : Deed) :
    (¬Revives id w d ∧ w.keptAfter keeps id bound d = bound) ∨
      ∃ i s, d = .save i ∧ w.copies i = some s ∧ s.id = id ∧ w.repo.Lands s w.now ∧
        w.keptAfter keeps id bound d = keeps s.accessed w.now := by
  cases d with
  | save i =>
    cases hs : w.copies i with
    | none =>
      refine .inl ⟨?_, by rw [keptAfter, hs]⟩
      rintro ⟨s, hheld, -⟩
      rw [hs] at hheld
      cases hheld
    | some s =>
      by_cases hlands : s.id = id ∧ w.repo.Lands s w.now
      · refine .inr ⟨i, s, rfl, hs, hlands.1, hlands.2, ?_⟩
        rw [keptAfter, hs]
        exact if_pos hlands
      · refine .inl ⟨?_, ?_⟩
        · rintro ⟨u, hheld, hwritten⟩
          obtain rfl := Option.some.inj (hs.symm.trans hheld)
          exact hlands hwritten
        · rw [keptAfter, hs]
          exact if_neg hlands
  | create _ _ | load _ _ _ | clone _ _ | edit _ _ | rotate _ _ | invalidate _ | delete _ | tidy
  | tick _ => exact .inl ⟨not_false, rfl⟩

end Sharing

/-! ## What is written can be read -/

section

variable {c : Codec} {T : Ident → Time → Prop} {policy : Policy}

/-- Each live entry of a store that can be read at all holds a record of the kind that a codec
prefers. -/
def Store.OfKind (c : Codec) (st : Store) : Prop :=
  ∀ id payload keys due, st.find? id = some (.live payload keys due) →
    ∀ t, c.decode payload = .ok t → t.kind = c.recordKind

namespace Repository.Puts

variable {r : Repository} {s t : Session} {now : Time} {payload : Bytes}
  {due : Option (Time × Action)}

lemma ofKind (hc : c.BuiltIn) (hcodec : r.codec = c) (hstore : r.store.codec = c)
    (hin : r.store.Traced c T) (hkinds : r.store.OfKind c) (hs : s.Traced T)
    (hkind : s.kind = c.recordKind) (h : Puts r s now payload due)
    (hdec : c.decode payload = .ok t) : t.kind = c.recordKind := by
  cases h.source hc hcodec hstore hs with
  | own hcarries _ => exact (hcarries.same hs hdec).1.trans hkind
  | merged hdelta hlive hbase _ hchanged _ hwritten _ =>
    obtain ⟨-, htraced⟩ := hin _ _ _ _ hlive _ hbase
    have hmerged := htraced.patched hs (hs.principal hdelta) hchanged
    have hsame := ((hc.carries (Prod.ext rfl hwritten)).same hmerged hdec).1
    have hstored := hkinds _ _ _ _ hlive _ hbase
    exact hsame.trans hstored

/-- **What a save puts can be read**, where the hook has the codec: the hook has read a payload that
was written whole, and one that was merged has the values of records that have been read. -/
theorem exists_decoded (hc : c.BuiltIn) (hcodec : r.codec = c) (hstore : r.store.codec = c)
    (hhook : r.store.hook = some ⟨policy, some c⟩) (hkinds : r.store.OfKind c) (hs : s.Traced T)
    (hkind : s.kind = c.recordKind) (h : Puts r s now payload due) :
    ∃ t, c.decode payload = .ok t := by
  cases h.source hc hcodec hstore hs with
  | own _ hdue =>
    obtain ⟨t, hdec, -⟩ := Store.exists_of_payloadDeadline hhook hdue
    exact ⟨t, hdec⟩
  | merged hdelta hlive hbase _ _ hmerge hwritten _ =>
    have hstored := hkinds _ _ _ _ hlive _ hbase
    rw [← hkind, hdelta] at hstored
    obtain ⟨t, hback, -⟩ := hc.restores hbase hstored hmerge hwritten
    exact ⟨t, hback.decode⟩

end Repository.Puts

namespace Sharing

variable {w : Sharing} {id : Ident} {bound : Int} {d : Deed}

/-- All that is held and stored has the kind that the codec prefers, and one creation time or
another. -/
structure Kindred (c : Codec) (w : Sharing) : Prop where
  traced : Traced c (fun _ _ => True) w
  copies : w.Held fun s => s.kind = c.recordKind
  entries : w.repo.store.OfKind c

lemma Kindred.held (hc : c.BuiltIn) (h : Kindred c w) (d : Deed) :
    (w.act d).Held fun s => s.kind = c.recordKind := by
  have hkeeps : w.Keeps (fun s => s.kind = c.recordKind) d := by
    cases d with
    | create i id =>
      intro _
      change w.repo.kind = c.recordKind
      rw [Repository.kind, h.traced.codec, Codec.recordKind]
    | load i id lookup =>
      refine ⟨fun payload due t hst hdec => ?_, fun s hs => ?_⟩
      · obtain ⟨keys, hfind⟩ := Store.find?_of_standing hst
        rw [h.traced.codec] at hdec
        exact h.entries id payload keys due hfind t hdec
      · exact (Session.edited_apply s .touch w.now).kind.trans hs
    | edit i e => exact fun s hs => (Session.edited_apply s e w.now).kind.trans hs
    | rotate i id => exact fun _ s _ hs => hs
    | save i => exact fun s _ hs => ⟨hs, fun _ => hs⟩
    | invalidate i => exact fun s hs => hs
    | clone _ _ | delete _ | tidy | tick _ => trivial
  exact held_act (h.traced.codec ▸ hc.lawful) hkeeps h.copies

lemma Kindred.act (hc : c.BuiltIn) (h : Kindred c w)
    (hvalue : ∀ value ∈ d.value?, value.Valid) : Kindred c (w.act d) := by
  refine ⟨h.traced.act hc hvalue (dates_any w d), h.held hc d, ?_⟩
  intro id payload keys due hlive t hdec
  rcases w.live_or_puts (h.traced.codec ▸ hc.lawful) d hlive with
    hold | ⟨i, s, -, hs, -, -, hputs⟩
  · exact h.entries id payload keys due hold t hdec
  · exact hputs.ofKind hc h.traced.codec h.traced.store h.traced.entries h.entries
      (h.traced.copies i s hs) (h.copies i s hs) hdec

lemma Kindred.run (hc : c.BuiltIn) (h : Kindred c w) {deeds : List Deed}
    (hvalues : ∀ d ∈ deeds, ∀ value ∈ d.value?, value.Valid) : Kindred c (w.run deeds) :=
  run_induction (fun _ _ hw hd => hw.act hc hd.2) h ((through_true w deeds).and_forall hvalues)

lemma kindred_start (c : Codec) (hook : Option Hook) (expiry : Option Expiry)
    (retention maxIdle : Duration) (names : List String) (rule : ChangeRule) (now : Time) :
    Kindred c (start c hook expiry retention maxIdle names rule now) :=
  ⟨traced_start c hook expiry retention maxIdle names rule now, fun _ _ h => (nomatch h),
    fun _ _ _ _ h => nomatch h⟩

/-! ## Idle timeouts -/

variable {timeout : Duration} {action : Action} {p : IdlePolicy} {expiry : Option Expiry}
  {retention maxIdle : Duration} {names : List String} {rule : ChangeRule} {start later : Time}

/-- **What a save has written stands until its timeout has passed**, and can be read. -/
lemma Kindred.exists_standing (hc : c.BuiltIn) (h : Kindred c w)
    (hp : IdlePolicy.create (some timeout) action = .ok p)
    (hhook : w.repo.store.hook = some ⟨.idle p, some c⟩) {i : Nat} {s : Session}
    (hcopy : w.copies i = some s) (hlands : w.repo.Lands s w.now) :
    ∃ payload due t, (w.act (.save i)).repo.store.standing s.id w.now = some (payload, due) ∧
      (∀ time, due.map Prod.fst = some time →
        IdlePolicy.keptUntil timeout s.accessed w.now ≤ time.nanos) ∧
      c.decode payload = .ok t ∧ t.id = s.id ∧ t.maxIdle = .ofSeconds s.maxIdle.wholeSeconds := by
  obtain ⟨rfl, hpos, hle⟩ := IdlePolicy.create_eq_ok hp
  have htraced := h.traced
  have hs := htraced.copies i s hcopy
  obtain ⟨-, -, payload, due, mid, -, hputs, hsave⟩ :=
    hlands.exists_puts (htraced.codec ▸ hc.lawful)
  obtain ⟨t, hdec⟩ := hputs.exists_decoded hc htraced.codec htraced.store hhook h.entries hs
    (h.copies i s hcopy)
  obtain ⟨hid, -⟩ := hputs.traced hc htraced.codec htraced.store htraced.entries hs hdec
  obtain ⟨hdated, haccessed, hmaxIdle⟩ :=
    hputs.dated hc htraced.codec htraced.store hhook rfl htraced.entries hs hdec
  obtain ⟨time, found, rfl, htime⟩ := IdlePolicy.due_eq hpos hle hdated
  have hkept : ∀ other, (some (time, found)).map Prod.fst = some other →
      IdlePolicy.keptUntil timeout s.accessed w.now ≤ other.nanos := by
    intro other heq
    obtain rfl := Option.some.inj heq
    calc
      IdlePolicy.keptUntil timeout s.accessed w.now
          ≤ IdlePolicy.keptUntil timeout t.accessed w.now :=
        IdlePolicy.keptUntil_mono timeout haccessed w.now
      _ = time.nanos := htime.symm
  refine ⟨payload, _, t, ?_, hkept, hdec, hid, hmaxIdle⟩
  have hahead : ∀ other, (some (time, found)).map Prod.fst = some other → w.now < other := by
    intro other heq
    calc
      w.now.nanos < IdlePolicy.keptUntil timeout s.accessed w.now :=
        IdlePolicy.lt_keptUntil timeout s.accessed w.now
      _ ≤ other.nanos := hkept other heq
  rw [repo_act_save hcopy, hsave, Store.standing_insert, if_pos rfl,
    Entry.standing_of_lt payload _ hahead]

/-- What holds of a session that is visited: what was written of it stands until the given moment,
and can be read. -/
structure Lasting (c : Codec) (p : IdlePolicy) (id : Ident) (w : Sharing) (bound : Int) : Prop where
  kindred : Kindred c w
  hook : w.repo.store.hook = some ⟨.idle p, some c⟩
  stands : w.now.nanos < bound → ∃ payload due t,
    w.repo.store.standing id w.now = some (payload, due) ∧
      (∀ time, due.map Prod.fst = some time → bound ≤ time.nanos) ∧
      c.decode payload = .ok t ∧ t.id = id ∧ t.maxIdle.nanos < 0

lemma Lasting.exists_find (h : Lasting c p id w bound) (hnow : w.now.nanos < bound) :
    ∃ u, (w.repo.find id w.now).2 = .ok (some u) ∧ u.id = id := by
  obtain ⟨payload, due, t, hst, -, hdec, hid, hinterval⟩ := h.stands hnow
  refine ⟨(t.withRule w.repo.rule).touch w.now, ?_, ?_⟩
  · rw [Repository.find_of_standing hst, h.kindred.traced.codec, hdec, Except.map,
      Session.isExpired_of_negative hinterval]
    rfl
  · exact (Session.edited_apply (t.withRule w.repo.rule) .touch w.now).id.trans hid

/-- **A session that is visited lasts**, until a moment that each save sets anew that writes it. -/
lemma Lasting.act (hc : c.BuiltIn) (hp : IdlePolicy.create (some timeout) action = .ok p)
    (h : Lasting c p id w bound) (hd : Attends id bound w d)
    (hvalue : ∀ value ∈ d.value?, value.Valid) :
    Lasting c p id (w.act d)
      (w.keptAfter (IdlePolicy.keptUntil timeout) id bound d) := by
  refine ⟨h.kindred.act hc hvalue, (w.setUpAs_act d).hook.trans h.hook, fun hnext => ?_⟩
  rcases w.keptAfter_cases (IdlePolicy.keptUntil timeout) id bound d with
    ⟨hnot, heq⟩ | ⟨i, s, rfl, hs, rfl, hlands, heq⟩
  · rw [heq] at hnext ⊢
    have hforward := hd.now_le
    have hnow : w.now.nanos < bound := by
      rw [Time.le_iff] at hforward
      omega
    obtain ⟨payload, due, t, hst, hdue, hdec, hid, hinterval⟩ := h.stands hnow
    have hcodec := h.kindred.traced.codec
    have hkept := hd.standing hnot (hcodec ▸ hc.lawful) hst (hcodec ▸ hdec)
      (Session.isExpired_of_negative hinterval w.now)
    exact ⟨payload, due, t, Store.standing_until hkept fun time htime =>
      Int.lt_of_lt_of_le hnext (hdue time htime), hdue, hdec, hid, hinterval⟩
  · rw [heq]
    obtain ⟨payload, due, t, hst, hdue, hdec, hid, hmaxIdle⟩ :=
      h.kindred.exists_standing hc hp h.hook hs hlands
    have hnow : (w.act (.save i)).now = w.now := by
      rcases w.now_act (.save i) with hsame | ⟨_, hne, -⟩
      · exact hsame
      · cases hne
    refine ⟨payload, due, t, hnow ▸ hst, hdue, hdec, hid, ?_⟩
    rw [hmaxIdle, Duration.nanos_ofSeconds_wholeSeconds]
    exact s.maxIdle.subsecond_bounds.2 ((hd s hs).2 rfl)

lemma Lasting.find_of_attended (hc : c.BuiltIn)
    (hp : IdlePolicy.create (some timeout) action = .ok p) {early rest : List Deed} {i : Nat}
    (h : Lasting c p id w bound) (hvalues : ∀ d ∈ early, ∀ value ∈ d.value?, value.Valid)
    (hattended : Attended (IdlePolicy.keptUntil timeout) id w bound
      (early ++ .load i id true :: rest)) :
    ∃ u, ((w.run early).repo.find id (w.run early).now).2 = .ok (some u) ∧ u.id = id := by
  induction early generalizing w bound with
  | nil => exact h.exists_find (hattended.1 rfl rfl)
  | cons d early ih =>
    exact ih (h.act hc hp hattended.1 (hvalues d List.mem_cons_self))
      (fun e he => hvalues e (List.mem_cons_of_mem d he)) hattended.2

/-- **Visits that come in time keep a session alive**: every one of them finds it. A visit comes in
time if less has passed since the last save that has written the session than what was then left of
the timeout, in whole seconds, or than one second. -/
theorem find_of_visits (hc : c.BuiltIn) (hp : IdlePolicy.create (some timeout) action = .ok p)
    {deeds : List Deed}
    (hw : Sharing.start c (some ⟨.idle p, some c⟩) expiry retention maxIdle names rule start = w)
    (hvalues : ∀ d ∈ deeds, ∀ value ∈ d.value?, value.Valid)
    (hattended : Attended (IdlePolicy.keptUntil timeout) id w start.nanos deeds) :
    ∀ early i rest, deeds = early ++ .load i id true :: rest →
      ∃ u, ((w.run early).repo.find id (w.run early).now).2 = .ok (some u) ∧ u.id = id := by
  rintro early i rest rfl
  have hlasting : Lasting c p id w start.nanos := by
    subst hw
    exact ⟨kindred_start c _ expiry retention maxIdle names rule start, rfl,
      fun hnow => absurd hnow (Int.lt_irrefl _)⟩
  exact hlasting.find_of_attended hc hp (fun d hd => hvalues d (List.mem_append_left _ hd))
    hattended

end Sharing

end

/-! ### A session between two visits -/

namespace Sample

def oneAndHalf : Duration := ⟨1500000000, by decide⟩

def twoAndHalf : Duration := ⟨2500000000, by decide⟩

/-- An empty repository whose store keeps sessions for a time after their last access. Their own
intervals never end. -/
def visitable (timeout : Duration) : Sharing :=
  .start .binary (some ⟨.idle ⟨some timeout, .destroy⟩, some .binary⟩) none .zero (.ofSeconds (-1))
    [] .identity start

def twoVisits : List Deed :=
  [.create 0 ⟨"x"⟩, .save 0, .tick (tenths 19 (by decide)), .load 1 ⟨"x"⟩ true, .save 1,
    .tick (tenths 38 (by decide)), .load 1 ⟨"x"⟩ true]

def oneVisit : List Deed :=
  [.create 0 ⟨"x"⟩, .save 0, .tick (tenths 14 (by decide)), .load 1 ⟨"x"⟩ true]

end Sample

namespace Sharing

open Sample

theorem find_of_visits_twice :
    IdlePolicy.create (some twoAndHalf) .destroy = .ok ⟨some twoAndHalf, .destroy⟩ ∧
      Attended (IdlePolicy.keptUntil twoAndHalf) ⟨"x"⟩ (visitable twoAndHalf)
        Sample.start.nanos twoVisits ∧
      ∃ u, (((visitable twoAndHalf).run (twoVisits.take 6)).repo.find ⟨"x"⟩
        ((visitable twoAndHalf).run (twoVisits.take 6)).now).2 = .ok (some u) ∧ u.id = ⟨"x"⟩ := by
  have hp : IdlePolicy.create (some twoAndHalf) .destroy = .ok ⟨some twoAndHalf, .destroy⟩ := by
    decide +kernel
  have hattended : Attended (IdlePolicy.keptUntil twoAndHalf) ⟨"x"⟩ (visitable twoAndHalf)
      Sample.start.nanos twoVisits := by decide +kernel
  exact ⟨hp, hattended, find_of_visits .binary hp rfl (valid_of_none rfl) hattended
    (twoVisits.take 6) 1 [] rfl⟩

/-- The part of a timeout below a second is cut off, so a session is gone that is visited within its
timeout, and more than a millisecond before its end. -/
theorem visit_can_be_late :
    ¬∀ (c : Codec) (_ : c.BuiltIn) (timeout : Duration) (action : Action) (p : IdlePolicy)
      (_ : IdlePolicy.create (some timeout) action = .ok p) (_ : 1000000000 ≤ timeout.nanos)
      (expiry : Option Expiry) (retention maxIdle : Duration) (names : List String)
      (rule : ChangeRule) (start : Time) (deeds : List Deed) (w : Sharing) (id : Ident),
      Sharing.start c (some ⟨.idle p, some c⟩) expiry retention maxIdle names rule start = w →
        (∀ d ∈ deeds, ∀ value ∈ d.value?, value.Valid) →
        Attended (fun _ now => now.nanos + timeout.nanos - 1000000) id w start.nanos deeds →
        ∀ early i rest, deeds = early ++ .load i id true :: rest →
          ∃ u, ((w.run early).repo.find id (w.run early).now).2 = .ok (some u) := by
  intro h
  have hattended : Attended (fun _ now => now.nanos + oneAndHalf.nanos - 1000000) ⟨"x"⟩
      (visitable oneAndHalf) Sample.start.nanos oneVisit := by decide +kernel
  have hgone : (((visitable oneAndHalf).run (oneVisit.take 3)).repo.find ⟨"x"⟩
      ((visitable oneAndHalf).run (oneVisit.take 3)).now).2.map Option.isSome = .ok false := by
    decide +kernel
  obtain ⟨u, hu⟩ := h .binary .binary oneAndHalf .destroy ⟨some oneAndHalf, .destroy⟩
    (by decide +kernel) (by decide) none .zero (.ofSeconds (-1)) [] .identity Sample.start oneVisit
    (visitable oneAndHalf) ⟨"x"⟩ rfl (valid_of_none rfl) hattended (oneVisit.take 3) 1 [] rfl
  rw [hu] at hgone
  cases hgone

end Sharing

end Sessions
