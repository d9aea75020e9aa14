import Sessions.Proofs.Codec.FaultyDelta

/-!
# Payloads that are cut short

No reader of a field looks at more of the input than it takes (`Frugal`). So a field that can still
be read off a payload that has been cut is the field that was written, byte for byte, and the cut
lies behind it (`Measures`). What follows the last field of a payload is nothing; hence a payload of
which anything is missing is never read, as no record and as no delta.
-/

namespace Sessions

/-! ## Readers that look no further than what they take -/

/-- Whatever stands behind the input, the same field is taken off it. -/
def Frugal {α : Type} (take : Bytes → Except Fault (α × Bytes)) : Prop :=
  ∀ ⦃input value rest⦄, take input = .ok (value, rest) →
    ∀ more, take (input ++ more) = .ok (value, rest ++ more)

/-- Whenever a field is taken off a cut of the written bytes and of more, these bytes are taken. -/
def Measures {α : Type} (take : Bytes → Except Fault (α × Bytes)) (written : Bytes) : Prop :=
  ∀ ⦃input value rest⦄, take input = .ok (value, rest) →
    ∀ ⦃cut more⦄, input ++ cut = written ++ more → rest ++ cut = more

section

variable {α β : Type} {take : Bytes → Except Fault (α × Bytes)}
  {next : α → Bytes → Except Fault (β × Bytes)} {first : Bytes}

lemma Frugal.bind (h : Frugal take) (hnext : ∀ a, Frugal (next a)) :
    Frugal fun input => take input >>= fun taken => next taken.1 taken.2 := by
  intro input value rest hread more
  obtain ⟨⟨a, tl⟩, htake, hrest⟩ := bind_eq_ok.1 hread
  exact bind_eq_ok.2 ⟨(a, tl ++ more), h htake more, hnext a hrest more⟩

lemma Frugal.map (h : Frugal take) (f : α → β) :
    Frugal fun input => take input >>= fun taken => .ok (f taken.1, taken.2) := by
  intro input value rest hread more
  obtain ⟨⟨a, tl⟩, htake, hread⟩ := bind_eq_ok.1 hread
  cases hread
  exact bind_eq_ok.2 ⟨(a, tl ++ more), h htake more, rfl⟩

/-- A frugal reader takes the written bytes if it does so with everything behind them. -/
lemma Frugal.measures (h : Frugal take)
    (hback : ∀ more, ∃ a, take (first ++ more) = .ok (a, more)) : Measures take first := by
  intro input value rest hread cut more heq
  obtain ⟨a, hwhole⟩ := hback more
  have hcut := h hread cut
  rw [heq, hwhole] at hcut
  exact (Prod.mk.inj (Except.ok.inj hcut)).2.symm

lemma Measures.of_rest {take' : Bytes → Except Fault (β × Bytes)} (h : Measures take first)
    (hrest : ∀ ⦃input value rest⦄, take' input = .ok (value, rest) →
      ∃ a, take input = .ok (a, rest)) : Measures take' first := by
  intro input value rest hread cut more heq
  obtain ⟨a, htake⟩ := hrest hread
  exact h htake heq

end

/-! ## Wire fields -/

namespace Wire

variable (field : String)

lemma frugal_split (count : Nat) (e : Bytes → Fault) : Frugal fun input =>
    if input.length < count then .error (e input)
    else .ok (input.take count, input.drop count) := by
  intro input front rest hread more
  obtain ⟨hlength, rfl⟩ := cut_eq_ok_iff.1 hread
  exact cut_eq_ok_iff.2 ⟨hlength, List.append_assoc front rest more⟩

lemma frugal_takeFixed (width : Nat) : Frugal (takeFixed width field) :=
  frugal_split width fun _ => .shortField field

lemma frugal_takeCounted (count : Nat) : Frugal (takeCounted count field) :=
  frugal_split count fun input => .shortBytes field count input.length

lemma frugal_takeByte : Frugal (takeByte field) := by
  intro input value rest hread more
  cases input with
  | nil => cases hread
  | cons b tl =>
    cases hread
    rfl

lemma frugal_takeInt32 : Frugal (takeInt32 field) :=
  (frugal_takeFixed field 4).map fun bytes => Int32.ofNat (toNat bytes)

lemma frugal_takeInt64 : Frugal (takeInt64 field) :=
  (frugal_takeFixed field 8).map fun bytes => Int64.ofNat (toNat bytes)

lemma frugal_takeLength : Frugal (takeLength field) := by
  intro input value rest hread more
  obtain ⟨⟨length, tl⟩, htake, hread⟩ := bind_eq_ok.1 hread
  refine bind_eq_ok.2 ⟨(length, tl ++ more), frugal_takeInt32 field htake more, ?_⟩
  dsimp only at hread ⊢
  split at hread
  · cases hread
  next hpos =>
    cases hread
    rw [if_neg hpos]

lemma frugal_takeBytes : Frugal (takeBytes field) :=
  (frugal_takeLength field).bind fun count => frugal_takeCounted field count

variable {field} {name : String} {written : Bytes}

lemma measures_takeInt64 (x : Int64) : Measures (takeInt64 field) (putInt64 x) :=
  (frugal_takeInt64 field).measures fun more => ⟨x, takeInt64_putInt64 field x more⟩

lemma measures_takeBytes {bytes : Bytes} (h : putBytes name bytes = .ok written) :
    Measures (takeBytes field) written :=
  (frugal_takeBytes field).measures fun more => ⟨bytes, takeBytes_append h more⟩

lemma measures_takeText {text : String} (h : putText name text = .ok written) :
    Measures (takeText field) written :=
  (measures_takeBytes h).of_rest fun _ _ _ hread => by
    obtain ⟨⟨bytes, tl⟩, htake, hread⟩ := bind_eq_ok.1 hread
    obtain ⟨text, -, hread⟩ := bind_eq_ok.1 hread
    cases hread
    exact ⟨bytes, htake⟩

end Wire

lemma Header.eq_of_read_cut {input cut : Bytes} {header found : Header}
    (hwhole : read (input ++ cut) = .ok header) (h : read input = .ok found) :
    found = header ∧ (input ++ cut).drop size = input.drop size ++ cut := by
  obtain ⟨⟨tag, next⟩, htag, h⟩ := bind_eq_ok.1 h
  obtain ⟨⟨marker, rest⟩, hmarker, h⟩ := bind_eq_ok.1 h
  have hfound : read (input ++ cut) = .ok found :=
    bind_eq_ok.2 ⟨_, Wire.frugal_takeInt32 _ htag cut,
      bind_eq_ok.2 ⟨_, Wire.frugal_takeByte _ hmarker cut, h⟩⟩
  refine ⟨Except.ok.inj (hfound.symm.trans hwhole), ?_⟩
  -- Four bytes are dropped for the tag, and the marker is one more.
  refine List.drop_append_of_le_length (Nat.lt_of_not_le fun hle => ?_)
  obtain ⟨⟨bytes, tl⟩, hfixed, htag⟩ := bind_eq_ok.1 htag
  cases htag
  rw [Wire.takeFixed] at hfixed
  split at hfixed
  · cases hfixed
  · cases hfixed
    rw [List.drop_eq_nil_of_le hle] at hmarker
    cases hmarker

namespace Binary

variable {written : Bytes}

/-! ## Fields of the binary codec -/

lemma measures_takeId {id : Ident} (h : Wire.putText "session id" id.text = .ok written) :
    Measures takeId written :=
  (Wire.measures_takeText h).of_rest fun _ _ _ hread => by
    obtain ⟨⟨text, tl⟩, htake, hread⟩ := bind_eq_ok.1 hread
    dsimp only at hread
    split at hread
    · cases hread
      exact ⟨text, htake⟩
    · cases hread

lemma measures_takeTime (field : String) (millis : Int64) :
    Measures (takeTime field) (Wire.putInt64 millis) :=
  (Wire.measures_takeInt64 millis).of_rest fun _ _ _ hread => by
    obtain ⟨⟨x, tl⟩, htake, hread⟩ := bind_eq_ok.1 hread
    dsimp only at hread
    split at hread
    · cases hread
      exact ⟨x, htake⟩
    · cases hread

lemma measures_takeInterval (seconds : Int64) :
    Measures takeInterval (Wire.putInt64 seconds) :=
  (Wire.measures_takeInt64 seconds).of_rest fun _ _ _ hread => by
    obtain ⟨⟨x, tl⟩, htake, hread⟩ := bind_eq_ok.1 hread
    cases hread
    exact ⟨x, htake⟩

lemma measures_takePrincipal {principal : Option String}
    (h : putPrincipal principal = .ok written) : Measures takePrincipal written := by
  intro input value rest hread cut more heq
  obtain ⟨length, hlength, h⟩ := bind_eq_ok.1 h
  cases h
  obtain ⟨⟨count, tl⟩, hcount, hread⟩ := bind_eq_ok.1 hread
  have hwhole := Wire.frugal_takeLength _ hcount cut
  rw [heq, List.append_assoc, Wire.takeLength_append hlength] at hwhole
  obtain ⟨rfl, hrest⟩ := Prod.mk.inj (Except.ok.inj hwhole)
  dsimp only at hread
  split at hread
  next hzero =>
    cases hread
    rw [← hrest, List.length_eq_zero_iff.1 hzero, List.nil_append]
  next =>
    obtain ⟨⟨bytes, tl'⟩, hbytes, hread⟩ := bind_eq_ok.1 hread
    obtain ⟨name, -, hread⟩ := bind_eq_ok.1 hread
    cases hread
    have hcounted := Wire.frugal_takeCounted _ _ hbytes cut
    rw [← hrest, Wire.takeCounted_append rfl] at hcounted
    exact (Prod.mk.inj (Except.ok.inj hcounted)).2.symm

lemma measures_takeValue {value : Json}
    (h : Wire.putBytes "attribute value" value.bytes = .ok written) : Measures takeValue written :=
  (Wire.measures_takeBytes h).of_rest fun _ _ _ hread => by
    obtain ⟨⟨bytes, tl⟩, htake, hread⟩ := bind_eq_ok.1 hread
    dsimp only at hread
    split at hread
    · cases hread
      exact ⟨bytes, htake⟩
    · cases hread

/-- The marker of a change is taken with its name, so that it is the marker that was written. -/
lemma measures_readChange {name : String} {value : Option Json}
    (h : putChange name value = .ok written) : Measures readChange written := by
  intro input change rest hread cut more heq
  obtain ⟨nameBytes, hname, h⟩ := bind_eq_ok.1 h
  obtain ⟨⟨name', next⟩, hname', hread⟩ := bind_eq_ok.1 hread
  obtain ⟨⟨marker, tl⟩, hmarker, hread⟩ := bind_eq_ok.1 hread
  have hwhole := Wire.frugal_takeByte _ hmarker cut
  cases value with
  | some value =>
    obtain ⟨valueBytes, hvalue, h⟩ := bind_eq_ok.1 h
    cases h
    rw [List.append_assoc, List.cons_append] at heq
    rw [Wire.measures_takeText hname hname' heq, Wire.takeByte_cons] at hwhole
    obtain ⟨rfl, hrest⟩ := Prod.mk.inj (Except.ok.inj hwhole)
    dsimp only at hread
    rw [if_pos rfl] at hread
    obtain ⟨⟨value', tl'⟩, hvalue', hread⟩ := bind_eq_ok.1 hread
    cases hread
    exact measures_takeValue hvalue hvalue' hrest.symm
  | none =>
    cases h
    rw [List.append_assoc, List.singleton_append] at heq
    rw [Wire.measures_takeText hname hname' heq, Wire.takeByte_cons] at hwhole
    obtain ⟨rfl, hrest⟩ := Prod.mk.inj (Except.ok.inj hwhole)
    dsimp only at hread
    rw [if_neg (by decide), if_pos rfl] at hread
    cases hread
    exact hrest.symm

lemma Brings.append_eq {input rest : Bytes} {changes : List (String × Option Json)}
    (h : Brings input changes rest) {others : List (String × Option Json)}
    (hput : putChanges others = .ok written) (hlength : changes.length = others.length)
    {cut more : Bytes} (heq : input ++ cut = written ++ more) : rest ++ cut = more := by
  induction h generalizing others written with
  | nil =>
    cases others with
    | nil =>
      cases hput
      exact heq
    | cons => cases hlength
  | cons hread _ ih =>
    cases others with
    | nil => cases hlength
    | cons other others =>
      obtain ⟨name, value⟩ := other
      rw [putChanges] at hput
      obtain ⟨first, hfirst, hput⟩ := bind_eq_ok.1 hput
      obtain ⟨second, hsecond, hput⟩ := bind_eq_ok.1 hput
      cases hput
      rw [List.append_assoc] at heq
      exact ih hsecond (Nat.succ.inj hlength) (measures_readChange hfirst hread heq)

/-! ## Full payloads -/

variable {s t : Session} {payload input cut : Bytes}

lemma cut_eq_nil_of_takeRecord {kind : Kind} (h : full s = .ok payload)
    (hread : takeRecord kind input = .ok t) (heq : payload.drop Header.size = input ++ cut) :
    cut = [] := by
  obtain ⟨id, hid, h⟩ := bind_eq_ok.1 h
  obtain ⟨principal, hprincipal, h⟩ := bind_eq_ok.1 h
  obtain ⟨blob, -, h⟩ := bind_eq_ok.1 h
  obtain ⟨attributes, hattributes, h⟩ := bind_eq_ok.1 h
  cases h
  simp only [List.append_assoc, Header.drop_write] at heq
  obtain ⟨⟨_, r₁⟩, hread₁, hread⟩ := bind_eq_ok.1 hread
  obtain ⟨⟨_, r₂⟩, hread₂, hread⟩ := bind_eq_ok.1 hread
  obtain ⟨⟨_, r₃⟩, hread₃, hread⟩ := bind_eq_ok.1 hread
  obtain ⟨⟨_, r₄⟩, hread₄, hread⟩ := bind_eq_ok.1 hread
  obtain ⟨⟨_, r₅⟩, hread₅, hread⟩ := bind_eq_ok.1 hread
  obtain ⟨⟨_, r₆⟩, hread₆, -⟩ := bind_eq_ok.1 hread
  have h₁ := measures_takeId hid hread₁ heq.symm
  have h₂ := measures_takeTime _ _ hread₂ h₁
  have h₃ := measures_takeTime _ _ hread₃ h₂
  have h₄ := measures_takeInterval _ hread₄ h₃
  have h₅ := measures_takePrincipal hprincipal hread₅ h₄
  rw [← List.append_nil attributes] at h₅
  exact (List.append_eq_nil_iff.1 (Wire.measures_takeBytes hattributes hread₆ h₅)).2

/-- **No record is read off a full payload that has been cut.** -/
theorem read_cut_full (h : full s = .ok (input ++ cut)) (hcut : cut ≠ []) :
    ∃ e, read input = .error e := by
  rw [read]
  cases hheader : Header.read input with
  | error e => exact ⟨e, rfl⟩
  | ok found =>
    obtain ⟨rfl, hdrop⟩ := Header.eq_of_read_cut (header_full h) hheader
    have haccepts : accepts ⟨tag, .full s.kind⟩ = true := by simp [accepts]
    rw [ok_bind, if_pos haccepts]
    dsimp only
    cases hread : takeRecord s.kind (input.drop Header.size) with
    | error e => exact ⟨e, rfl⟩
    | ok t => exact absurd (cut_eq_nil_of_takeRecord h hread hdrop) hcut

lemma merge_cut_full (h : full s = .ok (input ++ cut)) (base : Session) :
    (merge base input).2 ≠ .ok true := by
  have hending := ending_merge base input
  generalize merge base input = result at hending
  cases hending with
  | declined => exact fun htrue => by cases htrue
  | stopped => exact fun htrue => by cases htrue
  | merged hpreamble =>
    obtain ⟨header, hheader, -⟩ := bind_eq_ok.1 hpreamble
    obtain ⟨rfl, -⟩ := Header.eq_of_read_cut (header_full h) hheader
    rw [readPreamble_of_other hheader (by simp)] at hpreamble
    cases hpreamble

/-! ## Deltas -/

lemma read_cut_delta (h : delta s = .ok (input ++ cut)) : ∃ e, read input = .error e := by
  rw [read]
  cases hheader : Header.read input with
  | error e => exact ⟨e, rfl⟩
  | ok found =>
    obtain ⟨rfl, -⟩ := Header.eq_of_read_cut (header_delta h) hheader
    exact ⟨.baselessDelta, rfl⟩

lemma cut_eq_nil_of_brings {base : Ident} {preamble : Preamble} {next first rest : Bytes}
    {count : Nat} {changes : List (String × Option Json)} (h : delta s = .ok payload)
    (hpreamble : takePreamble base input = .ok (preamble, next))
    (hcount : Wire.takeLength "change count" next = .ok (count, first))
    (hbrings : Brings first changes rest) (hall : changes.length = count)
    (heq : payload.drop Header.size = input ++ cut) : cut = [] := by
  obtain ⟨id, hid, h⟩ := bind_eq_ok.1 h
  obtain ⟨principal, hprincipal, h⟩ := bind_eq_ok.1 h
  obtain ⟨length, hlength, h⟩ := bind_eq_ok.1 h
  obtain ⟨written, hwritten, h⟩ := bind_eq_ok.1 h
  cases h
  simp only [List.append_assoc, Header.drop_write] at heq
  obtain ⟨⟨_, r₁⟩, hread₁, hpreamble⟩ := bind_eq_ok.1 hpreamble
  dsimp only at hpreamble
  split at hpreamble
  · cases hpreamble
  · obtain ⟨⟨_, r₂⟩, hread₂, hpreamble⟩ := bind_eq_ok.1 hpreamble
    obtain ⟨⟨_, r₃⟩, hread₃, hpreamble⟩ := bind_eq_ok.1 hpreamble
    obtain ⟨⟨_, r₄⟩, hread₄, hpreamble⟩ := bind_eq_ok.1 hpreamble
    obtain ⟨_, -, hpreamble⟩ := bind_eq_ok.1 hpreamble
    cases hpreamble
    have h₁ := measures_takeId hid hread₁ heq.symm
    have h₂ := measures_takeTime _ _ hread₂ h₁
    have h₃ := measures_takeInterval _ hread₃ h₂
    have h₄ := measures_takePrincipal hprincipal hread₄ h₃
    have hwhole := Wire.frugal_takeLength _ hcount cut
    rw [h₄, Wire.takeLength_append hlength] at hwhole
    obtain ⟨rfl, hfirst⟩ := Prod.mk.inj (Except.ok.inj hwhole)
    rw [← List.append_nil written] at hfirst
    exact (List.append_eq_nil_iff.1 (hbrings.append_eq hwritten hall hfirst.symm)).2

lemma readPreamble_cut_delta (h : delta s = .ok (input ++ cut)) {base : Ident}
    {found : Option (Preamble × Bytes)} (hread : readPreamble base input = .ok found) :
    ∃ taken, found = some taken ∧ takePreamble base (input.drop Header.size) = .ok taken ∧
      (input ++ cut).drop Header.size = input.drop Header.size ++ cut := by
  obtain ⟨header, hheader, -⟩ := bind_eq_ok.1 hread
  obtain ⟨rfl, hdrop⟩ := Header.eq_of_read_cut (header_delta h) hheader
  rw [readPreamble_of_delta hheader] at hread
  cases htake : takePreamble base (input.drop Header.size) with
  | error e =>
    rw [htake] at hread
    cases hread
  | ok taken =>
    rw [htake] at hread
    cases hread
    exact ⟨taken, rfl, rfl, hdrop⟩

/-- **A delta that has been cut is not merged**, into whatever record. -/
theorem merge_cut_delta (h : delta s = .ok (input ++ cut)) (hcut : cut ≠ []) (base : Session) :
    ∃ e, (merge base input).2 = .error e := by
  have hending := ending_merge base input
  generalize merge base input = result at hending
  cases hending with
  | declined hpreamble =>
    obtain ⟨taken, hsome, -⟩ := readPreamble_cut_delta h hpreamble
    cases hsome
  | @stopped e => exact ⟨e, rfl⟩
  | merged hpreamble hcount hbrings hall =>
    obtain ⟨taken, hsome, htake, hdrop⟩ := readPreamble_cut_delta h hpreamble
    cases hsome
    exact absurd (cut_eq_nil_of_brings h htake hcount hbrings hall hdrop) hcut

/-! ## Cut payloads -/

/-- **A payload of which anything is missing is never read.** Whatever the binary codec has written,
each proper beginning of it fails to decode; the beginning of a delta fails to merge into any
record, and the beginning of a full payload is not merged as a delta. The faults are those of
serialization. -/
theorem decode_merge_cut {s s' : Session} {payload part : Bytes}
    (h : Codec.binary.encode s = (s', .ok payload) ∨
      Codec.binary.encodeFull s = (s', .ok payload))
    (hpart : part <+: payload) (hne : part ≠ payload) :
    ∃ header, Header.read payload = .ok header ∧
      (∃ e, Codec.binary.read part = .error e ∧ Codec.binary.decode part = .error e ∧
        e.category = .serialization) ∧
      ∀ base, (Codec.binary.merge base part).2 ≠ .ok true ∧
        (header.isDelta = true → ∃ e, (Codec.binary.merge base part).2 = .error e ∧
          e.category = .serialization) := by
  have hwritten : full s = .ok payload ∨ delta s = .ok payload := by
    rcases h with h | h
    · have hpreferred := (encode_eq_ok.1 h).1
      rw [preferred] at hpreferred
      split at hpreferred
      · exact .inr hpreferred
      · exact .inl hpreferred
    · exact .inl (encodeFull_eq_ok.1 h).1
  obtain ⟨cut, rfl⟩ := hpart
  have hcut : cut ≠ [] := by
    rintro rfl
    exact hne (List.append_nil part).symm
  have hdecode : ∀ e, read part = .error e → Codec.binary.decode part = .error e := by
    intro e he
    change (read part >>= _) = _
    rw [he]
    rfl
  rcases hwritten with hfull | hdelta
  · obtain ⟨e, he⟩ := read_cut_full hfull hcut
    refine ⟨_, header_full hfull, ⟨e, he, hdecode e he, contained_read part e he⟩, fun base => ?_⟩
    exact ⟨merge_cut_full hfull base, (fun hdelta => by cases hdelta)⟩
  · obtain ⟨e, he⟩ := read_cut_delta hdelta
    refine ⟨_, header_delta hdelta, ⟨e, he, hdecode e he, contained_read part e he⟩, fun base => ?_⟩
    obtain ⟨f, hf⟩ := merge_cut_delta hdelta hcut base
    refine ⟨fun htrue => ?_, fun _ => ⟨f, hf, contained_merge base part f hf⟩⟩
    cases hf.symm.trans htrue

end Binary

namespace Sample

/-- A record that is stored, with one attribute written and one removed since. -/
def changedTwice : Session :=
  (Edit.remove "step").apply evening ((Edit.set "a" (.int 1)).apply evening pioneer.commit)

def halfway : Bytes :=
  Header.write ⟨Binary.tag, .delta⟩ ++ Wire.ofNat 4 1 ++ Utf8.encode "y" ++ Wire.putInt64 (-1500)
    ++ Wire.putInt64 90 ++ Wire.ofNat 4 0 ++ Wire.ofNat 4 2 ++ Wire.ofNat 4 1 ++ Utf8.encode "a"
    ++ [Binary.setMarker] ++ Wire.ofNat 4 1 ++ Utf8.encode "1"

def secondHalf : Bytes := Wire.ofNat 4 4 ++ Utf8.encode "step" ++ [Binary.removedMarker]

end Sample

namespace Binary

open Sample

/-- A delta that is cut between its two changes is no delta with one change. -/
theorem decode_merge_halfway :
    Codec.binary.encode changedTwice = (changedTwice.commit, .ok (halfway ++ secondHalf)) ∧
      (Codec.binary.merge pioneer (halfway ++ secondHalf)).2 = .ok true ∧
      (∃ e, Codec.binary.decode halfway = .error e ∧ e.category = .serialization) ∧
      ∃ e, (Codec.binary.merge pioneer halfway).2 = .error e ∧ e.category = .serialization := by
  have hwritten : Codec.binary.encode changedTwice =
      (changedTwice.commit, .ok (halfway ++ secondHalf)) :=
    encode_eq_ok.2 ⟨by decide +kernel, rfl⟩
  obtain ⟨header, hheader, ⟨e, -, hdecode⟩, hmerge⟩ :=
    decode_merge_cut (.inl hwritten) (List.prefix_append halfway secondHalf) (by decide +kernel)
  have hdelta : header.isDelta = true := by
    have hfound : Header.read (halfway ++ secondHalf) = .ok ⟨tag, .delta⟩ := rfl
    obtain rfl := Except.ok.inj (hheader.symm.trans hfound)
    rfl
  exact ⟨hwritten, by decide +kernel, ⟨e, hdecode⟩, (hmerge pioneer).2 hdelta⟩

end Binary

end Sessions
