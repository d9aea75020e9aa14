import Mathlib.Tactic.Lemma
import Sessions.Proofs.Basic
import Sessions.Proofs.Codec.Lawful

/-!
# What a chain comes to

A chain writes as its first member that does not decline would write alone, provided that members
leave nothing behind when they decline but bytes at the end of the sink. A chain inside a chain is
one longer chain, so it does not matter how codecs are grouped before they are composed.
-/

namespace Sessions

def Writing.declined (w : Writing) : Bool :=
  match w.outcome with
  | .ok false => true
  | _ => false

lemma Writing.declined_iff {w : Writing} : w.declined = true ↔ w.outcome = .ok false := by
  obtain ⟨s, sink, outcome⟩ := w
  rcases outcome with e | (_ | _) <;> simp [declined]

lemma Writing.declined_eq_false {w : Writing} (h : w.outcome ≠ .ok false) :
    w.declined = false := by
  rw [Bool.eq_false_iff]
  exact fun hdeclined => h (declined_iff.1 hdeclined)

namespace Codec

variable {write : Codec → Session → Bytes → Writing} {members : List Codec} {c : Codec}
  {s : Session} {sink : Bytes}

lemma compose_of_two (h : 2 ≤ members.length) : compose members = some (chain members) := by
  match members, h with
  | _ :: _ :: _, _ => rfl

/-! ## The first member that does not decline -/

lemma writeFirst_cons_declined (h : (write c s sink).declined = true) (rest : List Codec) :
    writeFirst write (c :: rest) s sink =
      writeFirst write rest (write c s sink).session
        ((write c s sink).sink.take sink.length) := by
  rw [writeFirst, Writing.declined_iff.1 h]

lemma writeFirst_cons_taken (h : (write c s sink).declined = false) (rest : List Codec) :
    writeFirst write (c :: rest) s sink = write c s sink := by
  rw [writeFirst]
  split
  next hout => rw [Writing.declined_iff.2 hout] at h; cases h
  next => rfl

/-- What the first member that does not decline writes, when each is asked alone. If there is none,
the record is declined, and it and the sink are as they were. -/
def firstAlone (write : Codec → Session → Bytes → Writing) (members : List Codec) (s : Session)
    (sink : Bytes) : Writing :=
  match members.find? fun m => !(write m s sink).declined with
  | some m => write m s sink
  | none => ⟨s, sink, .ok false⟩

/-- A writing that leaves the record as it was and only appends to the sink, if it declines. -/
def Retreats (s : Session) (sink : Bytes) (w : Writing) : Prop :=
  w.declined = true → w.session = s ∧ sink <+: w.sink

/-- A codec that leaves nothing behind when it declines but bytes at the end of the sink. -/
structure Tidy (c : Codec) : Prop where
  write : ∀ s sink, Retreats s sink (c.write s sink)
  writeFull : ∀ s sink, Retreats s sink (c.writeFull s sink)

/-- Cutting off what was appended leaves every member the record and the sink of the call. -/
lemma writeFirst_eq_firstAlone (h : ∀ m ∈ members, Retreats s sink (write m s sink)) :
    writeFirst write members s sink = firstAlone write members s sink := by
  induction members with
  | nil => rfl
  | cons m rest ih =>
    cases hm : (write m s sink).declined with
    | true =>
      obtain ⟨hs, hsink⟩ := h m List.mem_cons_self hm
      have hcut : (write m s sink).sink.take sink.length = sink :=
        (List.prefix_iff_eq_take.1 hsink).symm
      rw [writeFirst_cons_declined hm, hs, hcut, ih fun n hn => h n (List.mem_cons_of_mem m hn)]
      simp only [firstAlone, List.find?_cons, hm, Bool.not_true]
    | false =>
      rw [writeFirst_cons_taken hm]
      simp only [firstAlone, List.find?_cons, hm, Bool.not_false]

lemma readFirst_cases (members : List Codec) (payload : Bytes) :
    readFirst members payload = .ok none ∨
      ∃ m ∈ members, readFirst members payload = m.read payload := by
  induction members with
  | nil => exact .inl rfl
  | cons m rest ih =>
    rw [readFirst]
    split
    · rcases ih with hnone | ⟨n, hn, heq⟩
      · exact .inl hnone
      · exact .inr ⟨n, List.mem_cons_of_mem m hn, heq⟩
    · exact .inr ⟨m, List.mem_cons_self, rfl⟩

/-- **A composition reads a payload as one of the two codecs reads it**, unless no member claims
the payload. -/
theorem BuiltIn.read_cases (hc : BuiltIn c) (payload : Bytes) :
    c.read payload = .ok none ∨ c.read payload = Binary.read payload ∨
      c.read payload = Portable.read payload := by
  induction hc with
  | binary => exact .inr (.inl rfl)
  | portable => exact .inr (.inr rfl)
  | @composed members c hmem hc ih =>
    rcases compose_eq_some hc with rfl | rfl
    · exact ih _ (List.mem_singleton_self _)
    · change readFirst members payload = _ ∨ readFirst members payload = _ ∨
        readFirst members payload = _
      rcases readFirst_cases members payload with hnone | ⟨m, hm, heq⟩
      · exact .inl hnone
      · rw [heq]
        exact ih m hm

/-! ### Codecs that leave nothing behind -/

lemma outcome_append_ne (s : Session) (sink : Bytes) (x : Except Fault Bytes) :
    (Binary.append s sink x).outcome ≠ .ok false := by
  cases x <;> simp [Binary.append]

lemma outcome_write_ne (s : Session) (sink : Bytes) :
    (Binary.write s sink).outcome ≠ .ok false := by
  unfold Binary.write
  split <;> exact outcome_append_ne s sink _

lemma retreats_of_ne {w : Writing} (h : w.outcome ≠ .ok false) : Retreats s sink w :=
  fun hdeclined => absurd (Writing.declined_iff.1 hdeclined) h

lemma tidy_binary : Tidy .binary where
  write s sink := retreats_of_ne (outcome_write_ne s sink)
  writeFull s sink := retreats_of_ne (outcome_append_ne s sink _)

lemma retreats_portable (s : Session) (sink : Bytes) :
    Retreats s sink (Portable.writeFull s sink) := by
  unfold Portable.writeFull
  split
  · intro h
    cases h
  · exact fun _ => ⟨rfl, List.prefix_refl sink⟩

lemma tidy_portable : Tidy .portable := ⟨retreats_portable, retreats_portable⟩

lemma retreats_firstAlone (s : Session) (sink : Bytes) :
    Retreats s sink (firstAlone write members s sink) := by
  unfold firstAlone
  split
  next m hm =>
    intro h
    have htaken := List.find?_some hm
    simp [h] at htaken
  next => exact fun _ => ⟨rfl, List.prefix_refl sink⟩

lemma tidy_chain (htidy : ∀ m ∈ members, Tidy m) : Tidy (chain members) where
  write s sink := by
    have heq : (chain members).write s sink = firstAlone (·.write) members s sink :=
      writeFirst_eq_firstAlone fun m hm => (htidy m hm).write s sink
    rw [heq]
    exact retreats_firstAlone s sink
  writeFull s sink := by
    have heq : (chain members).writeFull s sink = firstAlone (·.writeFull) members s sink :=
      writeFirst_eq_firstAlone fun m hm => (htidy m hm).writeFull s sink
    rw [heq]
    exact retreats_firstAlone s sink

/-- No codec of this library leaves anything behind when it declines a record. -/
theorem BuiltIn.tidy (h : BuiltIn c) : Tidy c := by
  induction h with
  | binary => exact tidy_binary
  | portable => exact tidy_portable
  | composed hmem hc ih =>
    rcases compose_eq_some hc with rfl | rfl
    · exact ih _ (List.mem_singleton_self _)
    · exact tidy_chain ih

/-- **A chain writes exactly like its first member that does not decline** would write alone, and
declines without a trace if all members do. -/
theorem writes_as_first (htidy : ∀ m ∈ members, Tidy m) (htwo : 2 ≤ members.length) :
    ∃ c, compose members = some c ∧ ∀ s sink,
      c.write s sink = firstAlone (·.write) members s sink ∧
        c.writeFull s sink = firstAlone (·.writeFull) members s sink :=
  ⟨chain members, compose_of_two htwo, fun s sink =>
    ⟨writeFirst_eq_firstAlone fun m hm => (htidy m hm).write s sink,
      writeFirst_eq_firstAlone fun m hm => (htidy m hm).writeFull s sink⟩⟩

/-- A codec that appends four bytes and declines, whatever it is to write. -/
def scribbler : Codec where
  tag := 7003
  kinds := [.deltaCapable, .plain]
  accepts _ := false
  writeFull s sink := ⟨s, sink ++ [1, 2, 3, 4], .ok false⟩
  write s sink := ⟨s, sink ++ [1, 2, 3, 4], .ok false⟩
  read _ := .ok none
  merge s _ := (s, .ok false)

lemma tidy_scribbler : Tidy scribbler where
  write _ sink _ := ⟨rfl, List.prefix_append sink _⟩
  writeFull _ sink _ := ⟨rfl, List.prefix_append sink _⟩

/-- Two members decline, the first of them after it has written: nothing of that is left. -/
theorem writes_as_first_scribbled :
    (∀ m ∈ [scribbler, portable, binary], Tidy m) ∧ 2 ≤ [scribbler, portable, binary].length ∧
      ∃ c, compose [scribbler, portable, binary] = some c ∧
        c.write (Session.create ⟨"x"⟩ default .deltaCapable) [9] =
          Binary.write (Session.create ⟨"x"⟩ default .deltaCapable) [9] := by
  have htidy : ∀ m ∈ [scribbler, portable, binary], Tidy m := by
    simp [tidy_scribbler, tidy_portable, tidy_binary]
  obtain ⟨c, hc, hwrites⟩ := writes_as_first htidy (by decide)
  exact ⟨htidy, by decide, c, hc, (hwrites (Session.create ⟨"x"⟩ default .deltaCapable) [9]).1⟩

/-! ## A chain inside a chain -/

lemma length_sink_writeFirst (h : (writeFirst write members s sink).declined = true) :
    (writeFirst write members s sink).sink.length ≤ sink.length := by
  induction members generalizing s sink with
  | nil => exact Nat.le_refl _
  | cons m rest ih =>
    cases hm : (write m s sink).declined with
    | true =>
      rw [writeFirst_cons_declined hm] at h ⊢
      exact Nat.le_trans (ih h) (List.length_take_le _ _)
    | false =>
      rw [writeFirst_cons_taken hm, hm] at h
      cases h

lemma writeFirst_append (front back : List Codec) (s : Session) (sink : Bytes) :
    writeFirst write (front ++ back) s sink =
      if (writeFirst write front s sink).declined then
        writeFirst write back (writeFirst write front s sink).session
          (writeFirst write front s sink).sink
      else writeFirst write front s sink := by
  induction front generalizing s sink with
  | nil => rfl
  | cons m rest ih =>
    cases hm : (write m s sink).declined with
    | true => rw [List.cons_append, writeFirst_cons_declined hm, writeFirst_cons_declined hm, ih]
    | false => simp [List.cons_append, writeFirst_cons_taken hm, hm]

/-- Cutting the sink once more after an inner chain has declined changes nothing. -/
lemma writeFirst_nested (hwrite : write c = writeFirst write members) (front back : List Codec) :
    writeFirst write (front ++ c :: back) = writeFirst write (front ++ (members ++ back)) := by
  have hspliced : writeFirst write (c :: back) = writeFirst write (members ++ back) := by
    funext s sink
    rw [writeFirst_append]
    cases hc : (write c s sink).declined with
    | true =>
      rw [writeFirst_cons_declined hc]
      rw [hwrite] at hc ⊢
      rw [List.take_of_length_le (length_sink_writeFirst hc), if_pos hc]
    | false =>
      rw [writeFirst_cons_taken hc]
      rw [hwrite] at hc ⊢
      rw [if_neg (by simp [hc])]
  funext s sink
  rw [writeFirst_append, writeFirst_append, hspliced]

lemma readFirst_append (front back : List Codec) (payload : Bytes) :
    readFirst (front ++ back) payload =
      match readFirst front payload with
      | .ok none => readFirst back payload
      | found => found := by
  induction front with
  | nil => rfl
  | cons m rest ih =>
    simp only [List.cons_append, readFirst]
    cases hm : m.read payload with
    | error e => rfl
    | ok found =>
      cases found with
      | none => exact ih
      | some t => rfl

lemma mergeFirst_append (front back : List Codec) (s : Session) (payload : Bytes) :
    mergeFirst (front ++ back) s payload =
      match mergeFirst front s payload with
      | (s, .ok false) => mergeFirst back s payload
      | merged => merged := by
  induction front generalizing s with
  | nil => rfl
  | cons m rest ih =>
    simp only [List.cons_append, mergeFirst]
    obtain ⟨t, outcome⟩ := m.merge s payload
    rcases outcome with e | (_ | _)
    · rfl
    · exact ih t
    · rfl

/-- A kind at the end of those so far, unless it is among them. -/
def addKind (kinds : List Kind) (kind : Kind) : List Kind :=
  if kinds.contains kind then kinds else kinds ++ [kind]

lemma unionKinds_eq (members : List Codec) :
    unionKinds members = (members.flatMap (·.kinds)).foldl addKind [] := rfl

lemma mem_addKind {kinds : List Kind} {k kind : Kind} :
    kind ∈ addKind kinds k ↔ kind ∈ kinds ∨ kind = k := by
  unfold addKind
  split
  next hk =>
    have hmem : k ∈ kinds := by simpa using hk
    exact ⟨.inl, fun h => h.elim id fun heq => heq ▸ hmem⟩
  next => simp

lemma mem_foldl_addKind {kinds acc : List Kind} {kind : Kind} :
    kind ∈ kinds.foldl addKind acc ↔ kind ∈ acc ∨ kind ∈ kinds := by
  induction kinds generalizing acc with
  | nil => simp
  | cons k rest ih => rw [List.foldl_cons, ih, mem_addKind, List.mem_cons, or_assoc]

lemma foldl_addKind_foldl (acc gathered kinds : List Kind) :
    (kinds.foldl addKind gathered).foldl addKind acc =
      kinds.foldl addKind (gathered.foldl addKind acc) := by
  induction kinds generalizing gathered with
  | nil => rfl
  | cons k rest ih =>
    rw [List.foldl_cons, List.foldl_cons, ih]
    congr 1
    by_cases hk : k ∈ gathered
    · have hacc : k ∈ gathered.foldl addKind acc := mem_foldl_addKind.2 (.inr hk)
      simp [addKind, hk, hacc]
    · simp [addKind, hk]

lemma unionKinds_nested (front back : List Codec) :
    unionKinds (front ++ chain members :: back) = unionKinds (front ++ (members ++ back)) := by
  have hinner : (chain members).kinds = (members.flatMap (·.kinds)).foldl addKind [] := rfl
  simp only [unionKinds_eq, List.flatMap_append, List.flatMap_cons, List.foldl_append, hinner,
    foldl_addKind_foldl, List.foldl_nil]

lemma readFirst_nested (front back : List Codec) :
    readFirst (front ++ chain members :: back) = readFirst (front ++ (members ++ back)) := by
  funext payload
  rw [readFirst_append, readFirst_append, readFirst_append]
  rfl

lemma mergeFirst_nested (front back : List Codec) :
    mergeFirst (front ++ chain members :: back) = mergeFirst (front ++ (members ++ back)) := by
  have hspliced : mergeFirst (chain members :: back) = mergeFirst (members ++ back) := by
    funext s payload
    rw [mergeFirst_append]
    rfl
  funext s payload
  rw [mergeFirst_append, mergeFirst_append, hspliced]

lemma chain_congr {others : List Codec}
    (htag : members.head?.map (·.tag) = others.head?.map (·.tag))
    (hkinds : unionKinds members = unionKinds others)
    (haccepts : ∀ header, members.any (·.accepts header) = others.any (·.accepts header))
    (hfull : writeFirst (·.writeFull) members = writeFirst (·.writeFull) others)
    (hwrite : writeFirst (·.write) members = writeFirst (·.write) others)
    (hread : readFirst members = readFirst others)
    (hmerge : mergeFirst members = mergeFirst others) : chain members = chain others := by
  unfold chain
  simp only [htag, hkinds, haccepts, hfull, hwrite, hread, hmerge]

/-- **A chain inside a chain is one longer chain.** -/
theorem chain_nested (front back : List Codec) (hne : members ≠ []) :
    chain (front ++ chain members :: back) = chain (front ++ (members ++ back)) := by
  have htag : (front ++ chain members :: back).head?.map (·.tag) =
      (front ++ (members ++ back)).head?.map (·.tag) := by
    obtain ⟨m, rest, rfl⟩ := List.exists_cons_of_ne_nil hne
    cases front <;> rfl
  have haccepts : ∀ header, (front ++ chain members :: back).any (·.accepts header) =
      (front ++ (members ++ back)).any (·.accepts header) := by
    intro header
    simp [chain]
  exact chain_congr htag (unionKinds_nested front back) haccepts (writeFirst_nested rfl front back)
    (writeFirst_nested rfl front back) (readFirst_nested front back) (mergeFirst_nested front back)

/-! ## Compositions of compositions -/

/-- Codecs, grouped in any way. -/
inductive Grouping where
  | single (c : Codec)
  | group (parts : List Grouping)

namespace Grouping

/-- The codec of a grouping, each group composed by itself; none if there are no codecs in it. -/
def codec? : Grouping → Option Codec
  | single c => some c
  | group parts => compose (parts.filterMap codec?)

def leaves : Grouping → List Codec
  | single c => [c]
  | group parts => parts.flatMap leaves

end Grouping

lemma compose_eq_none_iff : compose members = none ↔ members = [] := by
  match members with
  | [] => simp [compose]
  | [_] => simp [compose]
  | _ :: _ :: _ => simp [compose]

lemma chain_filterMap_compose (front : List Codec) (groups : List (List Codec)) :
    chain (front ++ groups.filterMap compose) = chain (front ++ groups.flatten) := by
  induction groups generalizing front with
  | nil => rfl
  | cons g rest ih =>
    match g with
    | [] => exact ih front
    | [c] =>
      rw [List.filterMap_cons_some (rfl : compose [c] = some c), List.flatten_cons]
      simpa using ih (front ++ [c])
    | c :: d :: more =>
      have hinner := ih (front ++ [chain (c :: d :: more)])
      simp only [List.append_assoc, List.singleton_append] at hinner
      rw [List.flatten_cons, ← chain_nested front rest.flatten (List.cons_ne_nil c _), ← hinner]
      rfl

lemma compose_filterMap_compose (groups : List (List Codec)) :
    compose (groups.filterMap compose) = compose groups.flatten := by
  induction groups with
  | nil => rfl
  | cons g rest ih =>
    cases hg : compose g with
    | none =>
      rw [List.filterMap_cons_none hg, ih, compose_eq_none_iff.1 hg]
      rfl
    | some c =>
      have hne : g ≠ [] := fun h => by rw [compose_eq_none_iff.2 h] at hg; cases hg
      have hchain := chain_filterMap_compose [] (g :: rest)
      rw [List.filterMap_cons_some hg] at hchain ⊢
      by_cases hrest : rest.filterMap compose = []
      · -- the one group that has codecs is taken as it is
        have hflat : rest.flatten = [] := by
          rw [← compose_eq_none_iff, ← ih, hrest]
          rfl
        rw [List.flatten_cons, hflat, List.append_nil, hg, hrest]
        rfl
      · have hflat : rest.flatten ≠ [] := by
          rwa [ne_eq, ← compose_eq_none_iff, ← ih, compose_eq_none_iff]
        have hleft : 2 ≤ (c :: rest.filterMap compose).length := by
          have hpos := List.length_pos_iff.2 hrest
          rw [List.length_cons]
          omega
        have hright : 2 ≤ (g :: rest).flatten.length := by
          have hposg := List.length_pos_iff.2 hne
          have hpos := List.length_pos_iff.2 hflat
          rw [List.flatten_cons, List.length_append]
          omega
        rw [compose_of_two hleft, compose_of_two hright]
        exact congrArg some hchain

/-- **How codecs are grouped before they are composed does not matter**: the composition of the
groups is the very codec that all their codecs make in one list, in everything that it does. -/
theorem codec_of_grouping : ∀ t : Grouping, t.codec? = compose t.leaves
  | .single c => by rw [Grouping.codec?, Grouping.leaves, compose]
  | .group parts => by
    have hparts : parts.map Grouping.codec? = (parts.map Grouping.leaves).map compose := by
      rw [List.map_map]
      exact List.map_congr_left fun p _ => codec_of_grouping p
    have hcodecs : parts.filterMap Grouping.codec? =
        (parts.map Grouping.leaves).filterMap compose := by
      calc parts.filterMap Grouping.codec?
          = (parts.map Grouping.codec?).filterMap id := by rw [List.filterMap_map]; rfl
        _ = ((parts.map Grouping.leaves).map compose).filterMap id := by rw [hparts]
        _ = (parts.map Grouping.leaves).filterMap compose := by rw [List.filterMap_map]; rfl
    rw [Grouping.codec?, Grouping.leaves, hcodecs, compose_filterMap_compose]
    rfl

end Codec

end Sessions
