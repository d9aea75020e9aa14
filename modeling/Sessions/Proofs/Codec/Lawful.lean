import Mathlib.Tactic.Lemma
import Sessions.Codec.Chain

/-!
# The contract of writing

Writing is the commit point: a codec that has written a record gives it back committed, and one
that has declined it or failed gives it back as it was. The codecs of this library and all chains
of them keep that contract.
-/

namespace Sessions

namespace Codec

/-- A writing of `s` that commits the record exactly when it produces a payload. -/
def Commits (s : Session) (w : Writing) : Prop :=
  w.outcome = .ok true ∧ w.session = s.commit ∨ w.outcome ≠ .ok true ∧ w.session = s

structure Lawful (c : Codec) : Prop where
  write : ∀ s sink, Commits s (c.write s sink)
  writeFull : ∀ s sink, Commits s (c.writeFull s sink)

lemma payloadOf_cases {s : Session} {w : Writing} (h : Commits s w) :
    (∃ payload, payloadOf w = (s.commit, .ok payload)) ∨ ∃ e, payloadOf w = (s, .error e) := by
  obtain ⟨session, sink, outcome⟩ := w
  rcases h with ⟨hout, hs⟩ | ⟨hout, hs⟩
  · simp only at hout hs
    subst hout hs
    exact .inl ⟨sink, rfl⟩
  · simp only at hout hs
    subst hs
    match outcome, hout with
    | .ok false, _ => exact .inr ⟨_, rfl⟩
    | .error e, _ => exact .inr ⟨e, rfl⟩

variable {c : Codec} {s s' : Session} {payload : Bytes} {e : Fault}

lemma Lawful.encode_ok (hc : c.Lawful) (h : c.encode s = (s', .ok payload)) : s' = s.commit := by
  rcases payloadOf_cases (hc.write s []) with ⟨p, hp⟩ | ⟨e, hp⟩ <;> rw [encode, hp] at h <;> cases h
  rfl

lemma Lawful.encode_error (hc : c.Lawful) (h : c.encode s = (s', .error e)) : s' = s := by
  rcases payloadOf_cases (hc.write s []) with ⟨p, hp⟩ | ⟨e, hp⟩ <;> rw [encode, hp] at h <;> cases h
  rfl

lemma Lawful.encodeFull_ok (hc : c.Lawful) (h : c.encodeFull s = (s', .ok payload)) :
    s' = s.commit := by
  rcases payloadOf_cases (hc.writeFull s []) with ⟨p, hp⟩ | ⟨e, hp⟩ <;>
    rw [encodeFull, hp] at h <;> cases h
  rfl

lemma Lawful.encodeFull_error (hc : c.Lawful) (h : c.encodeFull s = (s', .error e)) : s' = s := by
  rcases payloadOf_cases (hc.writeFull s []) with ⟨p, hp⟩ | ⟨e, hp⟩ <;>
    rw [encodeFull, hp] at h <;> cases h
  rfl

/-! ### The codecs of this library -/

/-- The codecs of this library: the binary one, the portable one, and every composition. -/
inductive BuiltIn : Codec → Prop
  | binary : BuiltIn .binary
  | portable : BuiltIn .portable
  | composed {members : List Codec} {c : Codec} (hmem : ∀ m ∈ members, BuiltIn m)
      (hc : compose members = some c) : BuiltIn c

lemma commits_append (s : Session) (sink : Bytes) (x : Except Fault Bytes) :
    Commits s (Binary.append s sink x) := by
  cases x with
  | ok payload => exact .inl ⟨rfl, rfl⟩
  | error e => exact .inr ⟨by simp [Binary.append], rfl⟩

lemma lawful_binary : Lawful .binary where
  write s sink := by
    change Commits s (Binary.write s sink)
    unfold Binary.write
    split <;> exact commits_append s sink _
  writeFull s sink := commits_append s sink _

lemma commits_portable (s : Session) (sink : Bytes) : Commits s (Portable.writeFull s sink) := by
  unfold Portable.writeFull
  split
  · exact .inl ⟨rfl, rfl⟩
  · exact .inr ⟨by simp, rfl⟩

lemma lawful_portable : Lawful .portable where
  write := commits_portable
  writeFull := commits_portable

lemma commits_writeFirst {write : Codec → Session → Bytes → Writing} {members : List Codec}
    (h : ∀ c ∈ members, ∀ s sink, Commits s (write c s sink)) (s : Session) (sink : Bytes) :
    Commits s (writeFirst write members s sink) := by
  induction members generalizing sink with
  | nil => exact .inr ⟨by simp [writeFirst], rfl⟩
  | cons c rest ih =>
    have hc := h c List.mem_cons_self s sink
    simp only [writeFirst]
    split
    next hdeclined =>
      have hs : (write c s sink).session = s := by
        rcases hc with ⟨hout, -⟩ | ⟨-, hs⟩
        · rw [hdeclined] at hout; cases hout
        · exact hs
      rw [hs]
      exact ih (fun m hm => h m (List.mem_cons_of_mem c hm)) _
    next => exact hc

lemma lawful_chain {members : List Codec} (h : ∀ m ∈ members, Lawful m) :
    Lawful (chain members) where
  write := commits_writeFirst fun m hm => (h m hm).write
  writeFull := commits_writeFirst fun m hm => (h m hm).writeFull

lemma compose_eq_some {members : List Codec} (hc : compose members = some c) :
    members = [c] ∨ c = chain members := by
  match members, hc with
  | [m], hc => exact .inl (by simpa [compose] using hc)
  | m :: n :: rest, hc => exact .inr (by simpa [compose] using hc.symm)

/-- **Every codec of this library keeps the contract of writing.** -/
theorem BuiltIn.lawful (h : BuiltIn c) : Lawful c := by
  induction h with
  | binary => exact lawful_binary
  | portable => exact lawful_portable
  | composed hmem hc ih =>
    rcases compose_eq_some hc with rfl | rfl
    · exact ih _ (List.mem_singleton_self _)
    · exact lawful_chain ih

end Codec

/-! ### Committing -/

lemma Attributes.commit_commit (a : Attributes) : a.commit.commit = a.commit := rfl

lemma Session.commit_commit (s : Session) : s.commit.commit = s.commit := by
  cases hp : s.phase <;> simp [Session.commit, Attributes.commit_commit, hp]

end Sessions
