import Sessions.Proofs.Repository.FailedSave
import Sessions.Proofs.Run.Invariant

/-!
# Saving again

A save that fails before it has a payload leaves the record with all its notes, and a later save
makes up for it, whatever was done to the record in between. A save that fails after that leaves
the record committed: writing is the commit point, and the notes are gone.
-/

namespace Sessions

variable {limit : Nat} {s s' t t' : Session}

/-- A record that its holder goes on changing. -/
inductive Session.Reworked (limit : Nat) (s : Session) : Session → Prop
  | refl : Reworked limit s s
  | edit {t : Session} (h : Reworked limit s t) (e : Edit) (he : e.Fits limit) (now : Time) :
      Reworked limit s (e.apply now t)
  | rotate {t : Session} (h : Reworked limit s t) {id : Ident} (hid : isBlank id.text = false) :
      Reworked limit s (t.rotate id)

namespace Session

lemma Edited.due {new : Option Json} (h : Edited new s t)
    (hdue : s.hasDelta = true ∨ s.needsFullWrite = true) :
    t.hasDelta = true ∨ t.needsFullWrite = true := by
  rcases hdue with hdelta | hfull
  · left
    rcases Bool.or_eq_true_iff.1 hdelta with hdirty | hlog
    · cases hclean : t.dirty with
      | true => simp [hasDelta, hclean]
      | false =>
        rw [(h.noted hclean).1] at hdirty
        cases hdirty
    · simp [hasDelta, h.attributes.dirty hlog]
  · right
    rw [needsFullWrite, h.phase, h.previous]
    exact hfull

lemma Reworked.keeps (h : s.Reworked limit t) (hs : s.Sound limit) :
    t.Sound limit ∧ t.kind = s.kind ∧ t.phase = s.phase ∧
      (s.hasDelta = true ∨ s.needsFullWrite = true →
        t.hasDelta = true ∨ t.needsFullWrite = true) ∧
      ∀ name ∈ s.attributes.changedNames, name ∈ t.attributes.changedNames := by
  induction h with
  | refl => exact ⟨hs, rfl, rfl, fun h => h, fun _ h => h⟩
  | @edit t _ e he now ih =>
    obtain ⟨hsound, hkind, hphase, hdue, hnames⟩ := ih
    have hedit := edited_apply t e now
    exact ⟨hedit.sound (fun _ => he.value) hsound, hedit.kind.trans hkind, hedit.phase.trans hphase,
      fun h => hedit.due (hdue h),
      fun name hname => hedit.attributes.kept name (hnames name hname)⟩
  | rotate _ hid ih =>
    obtain ⟨hsound, hkind, hphase, -, hnames⟩ := ih
    exact ⟨{ hsound with id := hid }, hkind, hphase, fun _ => .inl rfl, hnames⟩

end Session

namespace Repository

variable {r r' q q' : Repository} {now : Time} {e : Fault}

/-- **What a failed save does to the record.** If no payload was produced, the record is as it was,
and the next save that succeeds, however the record was changed since, is not skipped and brings
all that was noted into what is found from then on. If a payload was produced, the record is
committed. -/
theorem changes_of_failed_save (hlaw : r.codec.Lawful) (h : r.save s now = (r', s', .error e)) :
    (¬r.NoPayload s → s' = s.commit) ∧ (r.NoPayload s → s' = s ∧
      ∀ (limit : Nat) (t : Session) (q q' : Repository) (t' : Session) (later : Time),
        r.codec.Faithful s.kind limit → s.Sound limit → s'.Reworked limit t →
        q.codec = r.codec → q.Stores limit t later q' t' →
          (t.hasDelta = true ∨ t.needsFullWrite = true) ∧
          (∀ name ∈ s.attributes.changedNames, name ∈ t.attributes.changedNames) ∧
          ∃ v, t.Carries v ∧ q'.Finds t.id v later) := by
  obtain ⟨hnone, hpayload⟩ := session_of_failed_save hlaw h
  refine ⟨hpayload, fun hno => ⟨(hnone hno).1, ?_⟩⟩
  obtain ⟨rfl, hdue⟩ := hnone hno
  intro limit t q q' t' later hc hs hreworked hcodec hstores
  obtain ⟨hsound, hkind, hphase, hkept, hnames⟩ := hreworked.keeps hs
  have hopen : s'.phase.isEnded = false := by
    rw [← hphase]
    exact hstores.isEnded
  have hdue := hkept (hdue hopen)
  rw [← hkind, ← hcodec] at hc
  exact ⟨hdue, hnames, hstores.finds hc hsound hdue⟩

end Repository

namespace Sample

def filled (n : Nat) : String := String.ofList (List.replicate n 'a')

lemma length_filled (n : Nat) : (filled n).length = n := by
  rw [filled, String.length_ofList, List.length_replicate]

def texted (text : String) : Session := Edit.apply start record (.set "k" (.str text))

def mended (text : String) : Session := Edit.apply start (texted text) (.set "k" (.int 1))

lemma sound_record {limit : Nat} : record.Sound limit where
  id := by decide
  created := start.floorMillis_floorMillis
  accessed := start.floorMillis_floorMillis
  order := Time.le_refl _
  interval := by decide
  principal := by simp [record, Session.create]
  values name value hv := by cases hv

lemma sound_texted {limit : Nat} (text : String) : (texted text).Sound limit := by
  have hfits : (Edit.set "k" (.str text)).Fits limit := ⟨by simp [Json.Readable], Nat.zero_le _⟩
  exact (Session.edited_apply record _ start).sound (fun _ => hfits.value) sound_record

lemma full_texted {text : String} (h : 2 ^ 31 ≤ text.length) :
    Binary.full (texted text) = .error (.tooLarge "attribute value") := by
  have hbytes : 2 ^ 31 ≤ (Json.str text).bytes.length :=
    Nat.le_trans h (Json.length_le_bytes_str text)
  have hvalue : Wire.putBytes "attribute value" (Json.str text).bytes =
      .error (.tooLarge "attribute value") := by
    rw [Wire.putBytes, Wire.putLength, if_neg (by omega)]
    rfl
  have hentry : Binary.putEntry "k" (.str text) = .error (.tooLarge "attribute value") := by
    rw [Binary.putEntry, hvalue]
    rfl
  have hblob : Binary.blob (texted text).attributes = .error (.tooLarge "attribute value") := by
    have hentries : (texted text).attributes.entries = [("k", .str text)] := rfl
    rw [Binary.blob, hentries, Binary.putEntries, hentry]
    rfl
  rw [Binary.full, hblob]
  rfl

lemma encode_texted {text : String} (h : 2 ^ 31 ≤ text.length) :
    (repository none).codec.encode (texted text) =
      (texted text, .error (.tooLarge "attribute value")) := by
  have hneeds : (texted text).needsFullWrite = true := rfl
  have hwrite : (repository none).codec.write = Binary.write := rfl
  rw [Codec.encode, hwrite, Binary.write, if_neg (by simp [hneeds]), full_texted h]
  rfl

lemma save_texted {text : String} (h : 2 ^ 31 ≤ text.length) :
    (repository none).save (texted text) start =
      (repository none, texted text, .error (.tooLarge "attribute value")) := by
  have hphase : (texted text).phase = .new := rfl
  have hdelta : (texted text).hasDelta = true := rfl
  have hprevious : (texted text).previous = none := rfl
  simp [Repository.save, Repository.write, hphase, Phase.isEnded, hdelta, hprevious,
    encode_texted h]

def retried (text : String) : Repository × Session × Except Fault Unit :=
  (repository none).save (mended text) start

lemma stores_retried : (repository none).Stores (Codec.depthLimit .binary)
    (mended (filled (2 ^ 31))) start (retried (filled (2 ^ 31))).1
    (retried (filled (2 ^ 31))).2.1 where
  codec := rfl
  entry payload due hst := by
    have hnone : (repository none).store.standing (mended (filled (2 ^ 31))).id start = none := rfl
    rw [hnone] at hst
    cases hst
  save := by
    have hok : (retried (filled (2 ^ 31))).2.2 = .ok () := by decide +kernel
    rw [← hok]
    rfl
  live := by decide +kernel

end Sample

namespace Repository

open Sample

theorem changes_of_failed_save_mended :
    (repository none).codec.Lawful ∧
      (repository none).save (texted (filled (2 ^ 31))) start =
        (repository none, texted (filled (2 ^ 31)), .error (.tooLarge "attribute value")) ∧
      (repository none).NoPayload (texted (filled (2 ^ 31))) ∧
      (repository none).Stores (Codec.depthLimit .binary) (mended (filled (2 ^ 31))) start
        (retried (filled (2 ^ 31))).1 (retried (filled (2 ^ 31))).2.1 ∧
      ∃ v, (mended (filled (2 ^ 31))).Carries v ∧
        (retried (filled (2 ^ 31))).1.Finds ⟨"x"⟩ v start := by
  have hlong := Nat.le_of_eq (length_filled (2 ^ 31)).symm
  have hlaw : (repository none).codec.Lawful := Codec.lawful_binary
  have hsave := save_texted hlong
  have hnone : (repository none).NoPayload (texted (filled (2 ^ 31))) :=
    .inr ⟨_, by rw [encode_texted hlong]⟩
  have hfits : (Edit.set "k" (.int 1)).Fits (Codec.depthLimit .binary) :=
    ⟨by simp [Json.Readable], Nat.zero_le _⟩
  obtain ⟨-, hretry⟩ := changes_of_failed_save hlaw hsave
  obtain ⟨-, -, hfound⟩ := (hretry hnone).2 _ _ _ _ _ _ Codec.BuiltIn.binary.faithful
    (sound_texted _) (.edit .refl _ hfits start) rfl stores_retried
  exact ⟨hlaw, hsave, hnone, stores_retried, hfound⟩

end Repository

namespace Sample

/-- A stored record with a value that is too deep to be read back. -/
def burdened : Session := withValue saved (nested 128)

def refused : Repository × Session × Except Fault Unit := (stored none).save burdened start

/-- The text gives way to a value that is too deep to be read back. -/
def botched (text : String) : Session := Edit.apply start (texted text) (.set "k" (nested 128))

end Sample

namespace Repository

open Sample

/-- A save that fails in the store leaves the record without its notes: the next save is skipped,
and what had changed is not found. Nor is all found that a later save has stored: a value that is
nested too deep makes every look-up fail. -/
theorem failed_save_can_lose_changes :
    (refused.2.2 ≠ .ok () ∧ burdened.hasDelta = true ∧
        burdened.attributes.changedNames = ["k"] ∧ refused.2.1.hasDelta = false ∧
        refused.2.1.attributes.changedNames = [] ∧
        (refused.1.save refused.2.1 start).2.2 = .ok () ∧
        ∃ t, ((refused.1.save refused.2.1 start).1.find ⟨"x"⟩ start).2 = .ok (some t) ∧
          t.attributes.value? "k" = none) ∧
      ((repository none).save (texted (filled (2 ^ 31))) start).2.2 ≠ .ok () ∧
        ((repository none).save (botched (filled (2 ^ 31))) start).2.2 = .ok () ∧
        ∀ found, (((repository none).save (botched (filled (2 ^ 31))) start).1.find ⟨"x"⟩
          start).2 ≠ .ok found := by
  have hrefused : refused.2.2 ≠ .ok () ∧ burdened.hasDelta = true ∧
      burdened.attributes.changedNames = ["k"] ∧ refused.2.1.hasDelta = false ∧
      refused.2.1.attributes.changedNames = [] ∧
      (refused.1.save refused.2.1 start).2.2 = .ok () ∧
      (((refused.1.save refused.2.1 start).1.find ⟨"x"⟩ start).2.toOption.join).map
        (·.attributes.value? "k") = some none := by decide +kernel
  obtain ⟨hfails, hdelta, hnames, hclean, hnone, hskipped, hfound⟩ := hrefused
  have hunread : (((repository none).save (botched (filled (2 ^ 31))) start).1.find ⟨"x"⟩
      start).2.toOption.isSome = false := by decide +kernel
  have hlong := Nat.le_of_eq (length_filled (2 ^ 31)).symm
  refine ⟨⟨hfails, hdelta, hnames, hclean, hnone, hskipped, ?_⟩, ?_, by decide +kernel,
    fun found h => ?_⟩
  · obtain ⟨t, ht, hvalue⟩ := Option.map_eq_some_iff.1 hfound
    refine ⟨t, ?_, hvalue⟩
    cases hfind : ((refused.1.save refused.2.1 start).1.find ⟨"x"⟩ start).2 with
    | error e => rw [hfind] at ht; cases ht
    | ok found =>
      rw [hfind] at ht
      exact congrArg Except.ok ht
  · rw [save_texted hlong]
    simp
  · rw [h] at hunread
    cases hunread

end Repository

end Sessions
