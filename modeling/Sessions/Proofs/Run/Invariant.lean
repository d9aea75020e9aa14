import Sessions.Proofs.Repository.Written
import Sessions.Proofs.Run.Basic

/-!
# What every run keeps

The invariant of runs ties the three sides together. A record's notes are complete compared with
the state it was last saved in, and an entry of the store agrees with that state: so a delta, which
carries what is noted, brings the entry up to date, and a save that finds nothing noted may be
skipped.
-/

namespace Sessions

open Store (Settled)

variable {c : Codec} {limit : Nat} {w w' : World} {i : Nat} {s s' t v : Session} {id : Ident}

structure RecordInv (c : Codec) (limit : Nat) (w : World) (i : Nat) (s : Session) : Prop where
  sound : s.Sound limit
  kind : s.kind = c.recordKind
  rule : s.attributes.rule.Notices
  clean : s.attributes.LogClean
  owned : w.owner s.id = some i
  previous : ∀ p, s.previous = some p → w.owner p = some i ∧ p ≠ s.id
  fresh : s.phase = .new → w.saved i = none ∧ s.previous = none
  tracks : s.phase = .persisted → ∃ v, w.saved i = some v ∧ v.Tracks s

/-- What the store holds under an id that a save wrote last: until its deadline, a payload that
agrees with the record as its holder last saved it. -/
structure WrittenInv (c : Codec) (w : World) (id : Ident) (i : Nat) (deadline : Option Time) :
    Prop where
  owned : w.owner id = some i
  entry : ∃ v t payload keys due, w.saved i = some v ∧ v.id = id ∧ c.decode payload = .ok t ∧
    v.Agrees t ∧ due.map Prod.fst = deadline ∧
    ∀ later, w.now ≤ later →
      w.repo.store.standing id later = (Entry.live payload keys due).standing later

structure StoreInv (c : Codec) (w : World) (id : Ident) : Prop where
  written : ∀ i deadline, w.latest id = some (.wrote i deadline) → WrittenInv c w id i deadline
  absent : (∀ i deadline, w.latest id ≠ some (.wrote i deadline)) →
    ∀ later, w.now ≤ later → w.repo.store.standing id later = none

/-- **The invariant of runs.** -/
structure Inv (c : Codec) (limit : Nat) (w : World) : Prop where
  codec : w.repo.codec = c
  storeCodec : w.repo.store.codec = c
  rule : w.repo.rule.Notices
  records : ∀ i s, w.records i = some s → RecordInv c limit w i s
  unheld : ∀ i, w.records i = none → w.saved i = none
  store : ∀ id, StoreInv c w id

/-! ## Frames -/

lemma RecordInv.frame (h : RecordInv c limit w i s)
    (howner : ∀ id, w.owner id = some i → w'.owner id = some i)
    (hsaved : w'.saved i = w.saved i) : RecordInv c limit w' i s where
  sound := h.sound
  kind := h.kind
  rule := h.rule
  clean := h.clean
  owned := howner s.id h.owned
  previous p hp := ⟨howner p (h.previous p hp).1, (h.previous p hp).2⟩
  fresh hnew := by rw [hsaved]; exact h.fresh hnew
  tracks hphase := by rw [hsaved]; exact h.tracks hphase

lemma WrittenInv.frame {deadline : Option Time} (h : WrittenInv c w id i deadline)
    (hnow : w.now ≤ w'.now) (howner : w.owner id = some i → w'.owner id = some i)
    (hsaved : w'.saved i = w.saved i)
    (hst : ∀ later, w'.now ≤ later →
      w'.repo.store.standing id later = w.repo.store.standing id later) :
    WrittenInv c w' id i deadline where
  owned := howner h.owned
  entry := by
    obtain ⟨v, t, payload, keys, due, hv, hid, hdec, hagrees, hdue, hentry⟩ := h.entry
    exact ⟨v, t, payload, keys, due, hsaved ▸ hv, hid, hdec, hagrees, hdue, fun later hle => by
      rw [hst later hle, hentry later (Time.le_trans hnow hle)]⟩

/-- What is known of the store under an id stays so when neither its latest event nor what stands
under it changes. -/
lemma StoreInv.frame (h : StoreInv c w id) (hnow : w.now ≤ w'.now)
    (hlatest : w'.latest id = w.latest id)
    (howner : ∀ i, w.owner id = some i → w'.owner id = some i)
    (hsaved : ∀ i deadline, w.latest id = some (.wrote i deadline) → w'.saved i = w.saved i)
    (hst : ∀ later, w'.now ≤ later →
      w'.repo.store.standing id later = w.repo.store.standing id later) : StoreInv c w' id where
  written i deadline hwrote := by
    rw [hlatest] at hwrote
    exact (h.written i deadline hwrote).frame hnow (howner i) (hsaved i deadline hwrote) hst
  absent hnone later hle := by
    rw [hlatest] at hnone
    rw [hst later hle, h.absent hnone later (Time.le_trans hnow hle)]

lemma StoreInv.of_removed (hlatest : w.latest id = some .removed)
    (hst : ∀ later, w.now ≤ later → w.repo.store.standing id later = none) : StoreInv c w id where
  written i deadline hwrote := by rw [hlatest] at hwrote; cases hwrote
  absent _ := hst

lemma latestOf_cons (e : Ident × Event) (log : List (Ident × Event)) (id : Ident) :
    latestOf (e :: log) id = if e.1 = id then some e.2 else latestOf log id := by
  unfold latestOf
  by_cases h : e.1 = id <;> simp [h]

lemma latestOf_leaving (s : Session) (log : List (Ident × Event)) (id : Ident) :
    latestOf (World.leaving s ++ log) id =
      if s.previous = some id then some .removed else latestOf log id := by
  unfold World.leaving
  cases hp : s.previous with
  | none => rfl
  | some previous =>
    refine (latestOf_cons (previous, .removed) log id).trans ?_
    simp

lemma Inv.update (h : Inv c limit w) (hrecords : w'.records = Function.update w.records i (some s))
    (howner : w'.owner = w.owner) (hsaved : ∀ j, j ≠ i → w'.saved j = w.saved j)
    (hrecord : RecordInv c limit w' i s) (hcodec : w'.repo.codec = c)
    (hstoreCodec : w'.repo.store.codec = c) (hrule : w'.repo.rule.Notices)
    (hstore : ∀ id, StoreInv c w' id) : Inv c limit w' := by
  refine ⟨hcodec, hstoreCodec, hrule, fun j t ht => ?_, fun j hj => ?_, hstore⟩
  · rw [hrecords] at ht
    by_cases hji : j = i
    · subst hji
      rw [Function.update_self] at ht
      obtain rfl := Option.some.inj ht
      exact hrecord
    · rw [Function.update_of_ne hji] at ht
      exact (h.records j t ht).frame (fun _ h => by rw [howner]; exact h) (hsaved j hji)
  · rw [hrecords] at hj
    by_cases hji : j = i
    · subst hji
      rw [Function.update_self] at hj
      cases hj
    · rw [Function.update_of_ne hji] at hj
      exact (hsaved j hji).trans (h.unheld j hj)

/-! ## Steps that leave the store alone -/

lemma inv_start (hook : Option Hook) (expiry : Option Expiry) (retention maxIdle : Duration)
    (indexable : List String) {rule : ChangeRule} (hrule : rule = .identity ∨ rule = .always)
    (now : Time) :
    Inv c limit (.start (.create c hook expiry retention now) c maxIdle indexable rule now) where
  codec := rfl
  storeCodec := rfl
  rule := by
    rcases hrule with rfl | rfl
    · exact notices_identity
    · exact notices_always
  records i s hs := by cases hs
  unheld i _ := rfl
  store id := ⟨fun i deadline hwrote => (by cases hwrote), fun _ later _ => rfl⟩

lemma inv_hold (h : Inv c limit w) (hrecord : RecordInv c limit w i s) :
    Inv c limit (w.hold i s) :=
  h.update rfl rfl (fun _ _ => rfl) (hrecord.frame (fun _ h => h) rfl) h.codec h.storeCodec h.rule
    fun id => (h.store id).frame (Time.le_refl _) rfl (fun _ h => h) (fun _ _ _ => rfl)
      fun _ _ => rfl

lemma inv_own (h : Inv c limit w) (hfresh : w.owner id = none) (i : Nat) :
    Inv c limit (w.own i id) := by
  have howner : ∀ j other, w.owner other = some j → (w.own i id).owner other = some j := by
    intro j other hother
    have hne : other ≠ id := by
      rintro rfl
      rw [hfresh] at hother
      cases hother
    exact (Function.update_of_ne hne _ _).trans hother
  exact ⟨h.codec, h.storeCodec, h.rule,
    fun j t ht => (h.records j t ht).frame (howner j) rfl, h.unheld,
    fun other => (h.store other).frame (Time.le_refl _) rfl (fun j => howner j other)
      (fun _ _ _ => rfl) fun _ _ => rfl⟩

lemma inv_tick (h : Inv c limit w) {later : Time} (hle : w.now ≤ later) :
    Inv c limit { w with now := later } where
  codec := h.codec
  storeCodec := h.storeCodec
  rule := h.rule
  records i s hs := (h.records i s hs).frame (fun _ h => h) rfl
  unheld := h.unheld
  store id := (h.store id).frame hle rfl (fun _ h => h) (fun _ _ _ => rfl) fun _ _ => rfl

lemma sound_newSession (r : Repository) {id : Ident} (hid : isBlank id.text = false) (now : Time) :
    (r.newSession id now).Sound limit where
  id := hid
  created := now.floorMillis_floorMillis
  accessed := now.floorMillis_floorMillis
  order := Time.le_refl _
  interval := Session.min_le_longest _
  principal := by simp [Repository.newSession, Session.withRule, Session.withMaxIdle,
    Session.create]
  values name value hv := by cases hv

lemma inv_create (h : Inv c limit w) (hheld : w.records i = none)
    (hid : isBlank id.text = false) (hfresh : w.owner id = none) :
    Inv c limit ((w.hold i (w.repo.newSession id w.now)).own i id) := by
  have hsaved := h.unheld i hheld
  have hkind : (w.repo.newSession id w.now).kind = c.recordKind := by
    rw [← h.codec]
    rfl
  -- the id is made first here, so that the new record owns it when it is handed over
  refine inv_hold (inv_own h hfresh i) ⟨sound_newSession w.repo hid w.now, hkind, h.rule,
    fun _ => rfl, Function.update_self .., ?_, fun _ => ⟨hsaved, rfl⟩, ?_⟩
  · intro p hp
    cases hp
  · intro hphase
    cases hphase

lemma inv_edit (h : Inv c limit w) (hs : w.records i = some s) {e : Edit} (he : e.Fits limit) :
    Inv c limit (w.hold i (e.apply w.now s)) := by
  have hrecord := h.records i s hs
  have hedit := Session.edited_apply s e w.now
  have hsound := hedit.sound (fun _ => he.value) hrecord.sound
  refine inv_hold h ⟨hsound, by rw [hedit.kind, hrecord.kind],
    by rw [hedit.attributes.rule]; exact hrecord.rule, hedit.attributes.clean hrecord.clean,
    by rw [hedit.id]; exact hrecord.owned, ?_, ?_, ?_⟩
  · rw [hedit.previous, hedit.id]
    exact hrecord.previous
  · rw [hedit.phase, hedit.previous]
    exact hrecord.fresh
  · rw [hedit.phase]
    intro hphase
    obtain ⟨v, hv, htracks⟩ := hrecord.tracks hphase
    exact ⟨v, hv, htracks.edited hrecord.rule hedit⟩

lemma inv_rotate (h : Inv c limit w) (hs : w.records i = some s)
    (hid : isBlank id.text = false) (hfresh : w.owner id = none) :
    Inv c limit ((w.hold i (s.rotate id)).own i id) := by
  have hrecord := h.records i s hs
  have hown := (inv_own h hfresh i).records i s hs
  have hne : ∀ p, w.owner p = some i → p ≠ id := by
    rintro p hp rfl
    rw [hfresh] at hp
    cases hp
  refine inv_hold (inv_own h hfresh i) ⟨?_, hrecord.kind, hrecord.rule, hrecord.clean,
    Function.update_self .., ?_, ?_, ?_⟩
  · exact { hrecord.sound with id := hid }
  · intro p hp
    change (if s.previous.isNone ∧ s.phase ≠ .new then some s.id else s.previous) = some p at hp
    split at hp
    · obtain rfl := Option.some.inj hp
      exact ⟨hown.owned, hne _ hrecord.owned⟩
    · exact ⟨(hown.previous p hp).1, hne p (hrecord.previous p hp).1⟩
  · intro hphase
    change s.phase = .new at hphase
    obtain ⟨hsaved, hprevious⟩ := hrecord.fresh hphase
    exact ⟨hsaved, by simp [Session.rotate, hprevious, hphase]⟩
  · intro hphase
    change s.phase = .persisted at hphase
    obtain ⟨v, hv, htracks⟩ := hrecord.tracks hphase
    exact ⟨v, hv, htracks.rotate hphase id⟩

/-! ## Steps that keep house or remove an entry -/

lemma inv_settled (h : Inv c limit w) {st : Store} (hst : Settled w.now w.repo.store st) :
    Inv c limit { w with repo := { w.repo with store := st } } where
  codec := h.codec
  storeCodec := by
    have hcodec := (Prod.mk.inj hst.settings).1
    exact hcodec.trans h.storeCodec
  rule := h.rule
  records j t ht := (h.records j t ht).frame (fun _ h => h) rfl
  unheld := h.unheld
  store id := (h.store id).frame (Time.le_refl _) rfl (fun _ h => h) (fun _ _ _ => rfl)
    fun later hle => hst.kept id later hle

lemma inv_delete (h : Inv c limit w) (id : Ident) :
    Inv c limit { w with repo := w.repo.delete id, log := (id, .removed) :: w.log } where
  codec := h.codec
  storeCodec := h.storeCodec
  rule := h.rule
  records j t ht := (h.records j t ht).frame (fun _ h => h) rfl
  unheld := h.unheld
  store other := by
    have hstanding := fun later => Repository.standing_delete w.repo id other later
    have hlatest := latestOf_cons (id, .removed) w.log other
    by_cases hid : id = other
    · rw [if_pos hid] at hlatest
      exact .of_removed hlatest fun later _ => by rw [hstanding, if_pos hid]
    · rw [if_neg hid] at hlatest
      exact (h.store other).frame (Time.le_refl _) hlatest (fun _ h => h) (fun _ _ _ => rfl)
        fun later _ => by rw [hstanding, if_neg hid]

lemma inv_find (h : Inv c limit w) (id : Ident) : Inv c limit (w.afterFind id) := by
  have hget := Store.get_snd w.repo.store id w.now
  have hfind : w.repo.find id w.now =
      ((w.repo.load id w.now).1, (w.repo.load id w.now).2.map (·.map (·.touch w.now))) := rfl
  have hcases := Repository.load_cases w.repo id w.now
  unfold World.afterFind World.findsIdle
  rw [hget, hfind]
  generalize w.repo.load id w.now = outcome at hcases
  cases hcases with
  | absent hnone hst =>
    rw [hnone]
    exact inv_settled h hst
  | unreadable hsome _ hst =>
    rw [hsome]
    exact inv_settled h hst
  | idle hsome _ _ hst =>
    rw [hsome]
    exact inv_delete (inv_settled h hst) id
  | found hsome _ _ hst =>
    rw [hsome]
    exact inv_settled h hst

/-! ## Saves -/

/-- A record that owns the home of an entry has it under its own or under its previous id. -/
lemma eq_home (hrecord : RecordInv c limit w i s) (hopen : s.phase.isEnded = false)
    {deadline : Option Time} (hwritten : WrittenInv c w id i deadline) :
    id = s.previous.getD s.id ∧ ∃ v, w.saved i = some v ∧ v.Tracks s := by
  obtain ⟨v, t, payload, keys, due, hv, hid, -⟩ := hwritten.entry
  have hphase : s.phase = .persisted := by
    cases hp : s.phase with
    | persisted => rfl
    | new =>
      rw [(hrecord.fresh hp).1] at hv
      cases hv
    | expired => rw [hp] at hopen; cases hopen
    | deleted => rw [hp] at hopen; cases hopen
  obtain ⟨u, hu, htracks⟩ := hrecord.tracks hphase
  rw [hv] at hu
  obtain rfl := Option.some.inj hu
  exact ⟨by rw [htracks.home, hid], v, hv, htracks⟩

/-- A delta brings whatever stands under the record's id up to date. -/
lemma entry_patched (h : Inv c limit w) (hs : w.records i = some s)
    (hopen : s.phase.isEnded = false) {payload : Bytes} {due : Option (Time × Action)}
    (hst : (w.repo.vacate s).store.standing s.id w.now = some (payload, due)) :
    ∃ base, c.decode payload = .ok base ∧ base.id = s.id ∧ s.Agrees (base.patched s) := by
  have hrecord := h.records i s hs
  rw [Repository.standing_vacate] at hst
  split at hst
  · cases hst
  -- it was written by the record's holder
  have hwritten : ∃ j deadline, w.latest s.id = some (.wrote j deadline) := by
    by_contra hcon
    have habsent := (h.store s.id).absent (fun j deadline hj => hcon ⟨j, deadline, hj⟩) w.now
      (Time.le_refl _)
    rw [habsent] at hst
    cases hst
  obtain ⟨j, deadline, hj⟩ := hwritten
  have hentry := (h.store s.id).written j deadline hj
  obtain rfl : j = i := Option.some.inj (hentry.owned.symm.trans hrecord.owned)
  obtain ⟨hhome, v, hv, htracks⟩ := eq_home hrecord hopen hentry
  obtain ⟨u, t, stored, keys, old, hu, hid, hdec, hagrees, -, hstands⟩ := hentry.entry
  obtain rfl := Option.some.inj (hv.symm.trans hu)
  rw [hstands w.now (Time.le_refl _), Entry.standing_live] at hst
  split at hst
  · cases hst
  obtain ⟨rfl, -⟩ := Prod.mk.inj (Option.some.inj hst)
  exact ⟨t, hdec, hagrees.id.trans hid, Session.agrees_patched hagrees hid.symm htracks.created
    htracks.kind hrecord.sound.order htracks.values⟩

lemma write_agrees (hc : c.Faithful c.recordKind limit) (h : Inv c limit w)
    (hs : w.records i = some s) (hopen : s.phase.isEnded = false) {r : Repository}
    (hwrite : Repository.Writes (w.repo.vacate s) s w.now (r, s', .ok ())) :
    s' = s.commit ∧ ∃ payload keys due mid t,
      r = { w.repo.vacate s with store := mid.insert s.id (.live payload keys due) } ∧
        Settled w.now (w.repo.vacate s).store mid ∧ c.decode payload = .ok t ∧ s.Agrees t := by
  have hrecord := h.records i s hs
  have hcodec : (w.repo.vacate s).codec = c :=
    (Repository.setUpAs_vacate w.repo s).codec.trans h.codec
  have hstore : (w.repo.vacate s).store.codec = c :=
    (Repository.setUpAs_vacate w.repo s).storeCodec.trans h.storeCodec
  have hentry : ∀ payload due,
      (w.repo.vacate s).store.standing s.id w.now = some (payload, due) →
        ∃ base, c.decode payload = .ok base ∧ base.id = s.id ∧ s.Agrees (base.patched s) :=
    fun _ _ => entry_patched h hs hopen
  rw [← hrecord.kind] at hc
  obtain ⟨hcommit, payload, keys, due, mid, t, hr, hmid, hdec, hagrees⟩ :=
    hwrite.stored (hcodec ▸ hc) (hstore.trans hcodec.symm) hrecord.sound fun payload due hst => by
      obtain ⟨base, hbase, hid, hagrees⟩ := hentry payload due hst
      exact ⟨base, hcodec ▸ hbase, hid, hagrees.kind, hagrees.sound hrecord.sound⟩
  rw [hcodec] at hdec
  refine ⟨hcommit, payload, keys, due, mid, t, hr, hmid, hdec, ?_⟩
  rcases hagrees with hagrees | ⟨stored, old, base, hst, hbase, hagrees⟩
  · exact hagrees
  · rw [hcodec] at hbase
    obtain ⟨other, hother, -, hpatched⟩ := hentry stored old hst
    obtain rfl := Except.ok.inj (hother.symm.trans hbase)
    exact hpatched.trans hagrees

lemma recordInv_commit (hrecord : RecordInv c limit w i s) (howner : w'.owner = w.owner)
    (hsaved : w'.saved i = some s.commit) : RecordInv c limit w' i s.commit where
  sound := hrecord.sound.commit
  kind := hrecord.kind
  rule := hrecord.rule
  clean _ := rfl
  owned := by rw [howner]; exact hrecord.owned
  previous p hp := by cases hp
  fresh hnew := by
    cases hp : s.phase <;> simp [Session.commit, hp] at hnew
  tracks _ := ⟨s.commit, hsaved, Session.tracks_self rfl⟩

lemma inv_written (hc : c.Faithful c.recordKind limit) (h : Inv c limit w)
    (hs : w.records i = some s) (hopen : s.phase.isEnded = false)
    (hdue : s.hasDelta = true ∨ s.needsFullWrite = true) {r : Repository}
    (hwrite : Repository.Writes (w.repo.vacate s) s w.now (r, s', .ok ())) :
    Inv c limit (w.afterSave i s r s') := by
  have hrecord := h.records i s hs
  obtain ⟨rfl, payload, keys, due, mid, t, rfl, hmid, hdec, hagrees⟩ :=
    write_agrees hc h hs hopen hwrite
  have hphase : s.commit.phase ≠ .expired := Repository.commit_phase_ne_expired hopen
  have hcodec : (w.repo.vacate s).codec = c :=
    (Repository.setUpAs_vacate w.repo s).codec.trans h.codec
  have hstore : mid.codec = c :=
    (congrArg Prod.fst (hmid.settings.trans (Repository.setUpAs_vacate w.repo s).store)).trans
      h.storeCodec
  have hrule : (w.repo.vacate s).rule.Notices := (Repository.setUpAs_vacate w.repo s).rule ▸ h.rule
  have hstanding : ∀ id later, w.now ≤ later →
      (mid.insert s.id (.live payload keys due)).standing id later =
        if s.id = id then (Entry.live payload keys due).standing later
        else if s.previous = some id then none else w.repo.store.standing id later := by
    intro id later hle
    rw [Store.standing_insert, hmid.kept id later hle, Repository.standing_vacate]
  unfold World.afterSave
  simp only [hphase, if_false, hdue, if_true, Store.deadlineOf_insert]
  refine h.update rfl rfl (fun j hji => Function.update_of_ne hji ..)
    (recordInv_commit hrecord rfl (Function.update_self ..)) hcodec hstore hrule fun id => ?_
  have hlatest : latestOf ((s.id, .wrote i (due.map Prod.fst)) :: (World.leaving s ++ w.log)) id =
      if s.id = id then some (.wrote i (due.map Prod.fst))
      else if s.previous = some id then some .removed else w.latest id := by
    rw [latestOf_cons, latestOf_leaving]
    rfl
  -- the record's own id, the id that it leaves, and all others
  by_cases hown : s.id = id
  · subst hown
    refine ⟨fun j deadline hj => ?_, fun hnone => ?_⟩
    · obtain ⟨rfl, rfl⟩ := Event.wrote.inj
        (Option.some.inj ((hlatest.trans (if_pos rfl)).symm.trans hj))
      refine ⟨hrecord.owned, s.commit, t, payload, keys, due, Function.update_self .., rfl, hdec,
        Session.agrees_commit.2 hagrees, rfl, fun later hle => ?_⟩
      exact (hstanding s.id later hle).trans (if_pos rfl)
    · exact absurd (hlatest.trans (if_pos rfl)) (hnone i _)
  · by_cases hprevious : s.previous = some id
    · refine .of_removed ?_ fun later hle => ?_
      · exact hlatest.trans (by rw [if_neg hown, if_pos hprevious])
      · exact (hstanding id later hle).trans (by rw [if_neg hown, if_pos hprevious])
    · refine (h.store id).frame (Time.le_refl _) ?_ (fun _ h => h) (fun j deadline hj => ?_)
        fun later hle => ?_
      · exact hlatest.trans (by rw [if_neg hown, if_neg hprevious])
      · -- the holder's entries stand under the two ids dealt with above
        refine Function.update_of_ne (fun hji => ?_) ..
        subst hji
        have hhome := (eq_home hrecord hopen ((h.store id).written j deadline hj)).1
        cases hp : s.previous with
        | none => exact hown (by simpa [hp] using hhome.symm)
        | some p => exact hprevious (by simpa [hp] using hhome.symm)
      · exact (hstanding id later hle).trans (by rw [if_neg hown, if_neg hprevious])

lemma inv_skipped (h : Inv c limit w) (hs : w.records i = some s)
    (hopen : s.phase.isEnded = false) (hdelta : s.hasDelta = false)
    (hfull : s.needsFullWrite = false) : Inv c limit (w.afterSave i s w.repo s) := by
  have hrecord := h.records i s hs
  have hphase : s.phase ≠ .expired := by
    intro hp
    rw [hp] at hopen
    cases hopen
  obtain ⟨hnew, hprevious⟩ := Bool.or_eq_false_iff.1 hfull
  have hnone : s.previous = none := by simpa using hprevious
  have hskip : ¬(s.hasDelta = true ∨ s.needsFullWrite = true) := by simp [hdelta, hfull]
  unfold World.afterSave
  rw [if_neg hphase, if_neg hskip]
  refine h.update rfl rfl (fun j hji => Function.update_of_ne hji ..) ⟨hrecord.sound, hrecord.kind,
    hrecord.rule, hrecord.clean, hrecord.owned, hrecord.previous, fun hp => ?_,
    fun _ => ⟨s, Function.update_self .., Session.tracks_self hnone⟩⟩ h.codec h.storeCodec h.rule
    fun id => ⟨fun j deadline hj => ?_, (h.store id).absent⟩
  · simp [hp] at hnew
  · have hwritten := (h.store id).written j deadline hj
    by_cases hji : j = i
    · subst hji
      -- the entry agrees with the record as it was saved before, and that with the record
      obtain ⟨v, t, payload, keys, due, hv, hid, hdec, hagrees, hdue, hst⟩ := hwritten.entry
      obtain ⟨hhome, u, hu, htracks⟩ := eq_home hrecord hopen hwritten
      rw [hv] at hu
      obtain rfl := Option.some.inj hu
      refine ⟨hwritten.owned, s, t, payload, keys, due, Function.update_self .., ?_, hdec,
        htracks.agrees hrecord.clean hdelta hnone hagrees, hdue, hst⟩
      simpa [hnone] using hhome.symm
    · exact hwritten.frame (Time.le_refl _) (fun h => h) (Function.update_of_ne hji ..)
        fun _ _ => rfl

lemma inv_save (hc : c.Faithful c.recordKind limit) (h : Inv c limit w)
    (hs : w.records i = some s) {r : Repository}
    (hsave : w.repo.save s w.now = (r, s', .ok ())) : Inv c limit (w.afterSave i s r s') := by
  have hcases := Repository.save_cases w.repo s w.now
  rw [hsave] at hcases
  cases hcases with
  | expired hopen hnew hidle =>
    have hrecord := h.records i s hs
    exact inv_hold (inv_delete h s.id) ⟨⟨hrecord.sound.id, hrecord.sound.created,
      hrecord.sound.accessed, hrecord.sound.order, hrecord.sound.interval,
      hrecord.sound.principal, hrecord.sound.values⟩, hrecord.kind, hrecord.rule, hrecord.clean,
      hrecord.owned, hrecord.previous, fun hp => (by cases hp), fun hp => (by cases hp)⟩
  | skipped hopen hlive hdelta hfull => exact inv_skipped h hs hopen hdelta hfull
  | written hopen hlive hdue hwrite => exact inv_written hc h hs hopen hdue hwrite

lemma inv_unsaved (hc : c.Faithful c.recordKind limit) (h : Inv c limit w)
    (hs : w.records i = some s) {r : Repository} {e : Fault}
    (hsave : w.repo.save s w.now = (r, s', .error e))
    (hnone : w.repo.NoPayload s) :
    Inv c limit (w.afterFailure i s r s') := by
  have hrecord := h.records i s hs
  have hcases := Repository.save_cases w.repo s w.now
  rw [hsave] at hcases
  cases hcases with
  | ended hend =>
    unfold World.afterFailure
    rw [if_pos hend]
    exact inv_hold h hrecord
  | written hopen hlive hdue hwrite =>
    have hcodec := (Repository.setUpAs_vacate w.repo s).codec
    obtain ⟨e', he'⟩ := hnone.resolve_left (by simp [hopen])
    rw [← hcodec] at he'
    unfold World.afterFailure
    rw [if_neg (by simp [hopen])]
    cases hwrite with
    | unencoded henc =>
      rw [hcodec, h.codec] at henc
      obtain rfl := hc.lawful.encode_error henc
      unfold Repository.vacate World.leaving
      cases hp : s'.previous with
      | none => exact inv_hold h hrecord
      | some previous =>
        exact inv_hold (inv_delete h previous) (hrecord.frame (fun _ h => h) rfl)
    | refused henc _ => rw [henc] at he'; cases he'
    | unsent henc _ _ => rw [henc] at he'; cases he'
    | unresent henc _ _ => rw [henc] at he'; cases he'

/-- **Every step keeps the invariant.** -/
theorem inv_step (hc : c.Faithful c.recordKind limit) (h : Inv c limit w)
    (hstep : Step limit w w') : Inv c limit w' := by
  cases hstep with
  | create hheld hid hfresh => exact inv_create h hheld hid hfresh
  | edit hs e he => exact inv_edit h hs he
  | rotate hs hid hfresh => exact inv_rotate h hs hid hfresh
  | save hs hsave => exact inv_save hc h hs hsave
  | unsaved hs hsave hnone => exact inv_unsaved hc h hs hsave hnone
  | find id => exact inv_find h id
  | delete id => exact inv_delete h id
  | tick hle => exact inv_tick h hle

/-- **Every run keeps the invariant.** -/
theorem Reachable.inv (hc : c.Faithful c.recordKind limit) (h : Reachable c limit w) :
    Inv c limit w := by
  induction h with
  | start hook expiry retention maxIdle indexable hrule now =>
    exact inv_start hook expiry retention maxIdle indexable hrule now
  | step _ hstep ih => exact inv_step hc ih hstep

end Sessions
