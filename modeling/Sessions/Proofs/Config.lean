import Sessions.Lifetime
import Sessions.Proofs.Expiry.Deadline

/-!
# What settings can be used

The bounds of a configuration are checked once by `Config.validate` and again by whatever is built
from it: the two policies, the repository and the one with a fixed lifetime. All these agree.
`Config.Usable` says in numbers of seconds what they check, and from usable settings everything can
be built, down to the payloads of the sessions that the repository makes.
-/

namespace Sessions

lemma LimitedRepository.create_eq_ok {inner : Repository} {lifetime : Duration}
    (hpos : 0 < lifetime.nanos) (hle : lifetime ≤ .longest) :
    create inner lifetime = .ok ⟨inner, lifetime⟩ :=
  if_neg fun h => h.elim (Int.not_le.2 hpos) (Int.not_lt.2 hle)

/-! ## What is checked -/

def PolicyChoice.InRange : PolicyChoice → Prop
  | .idle timeout => ∀ n ∈ timeout, 0 ≤ n.toInt ∧ n.toInt ≤ 2147483647
  | .fixed timeout idleTimeout => (1 ≤ timeout.toInt ∧ timeout.toInt ≤ 2147483647) ∧
      ∀ n ∈ idleTimeout, 0 ≤ n.toInt ∧ n.toInt ≤ 2147483647

/-- Settings from which everything can be built. -/
structure Config.Usable (c : Config) : Prop where
  regionName : isBlank c.regionName = false
  poolName : isBlank c.poolName = false
  maxIdle : c.maxIdleSeconds.toInt ≤ 2147483647
  indexable : ∀ name ∈ c.indexable, isBlank name = false
  policy : c.policy.InRange

lemma IdlePolicy.exists_create_iff (timeout : Option Int64) (action : Action) :
    (∃ p, create (timeout.map .ofSeconds) action = .ok p) ↔
      ∀ n ∈ timeout, 0 ≤ n.toInt ∧ n.toInt ≤ 2147483647 := by
  cases timeout with
  | none => simp [create]
  | some n =>
    simp only [Option.map_some, create_eq_ok_iff, exists_eq_left, Duration.nanos_ofSeconds,
      Duration.ofSeconds_le_longest, Option.mem_def, Option.some.injEq, forall_eq']
    omega

lemma FixedPolicy.exists_create_iff (timeout : Int64) (action : Action) :
    (∃ p, create (.ofSeconds timeout) action = .ok p) ↔
      1 ≤ timeout.toInt ∧ timeout.toInt ≤ 2147483647 := by
  simp only [create_eq_ok_iff, exists_eq_left, Duration.nanos_ofSeconds,
    Duration.ofSeconds_le_longest]
  omega

namespace Config

variable {c : Config}

lemma exists_buildPolicy_iff : (∃ p, c.buildPolicy = .ok p) ↔ c.policy.InRange := by
  unfold buildPolicy
  cases c.policy with
  | idle timeout =>
    rw [PolicyChoice.InRange, ← IdlePolicy.exists_create_iff timeout c.action]
    simp [exists_bind_eq_ok]
  | fixed timeout idle =>
    rw [PolicyChoice.InRange, ← FixedPolicy.exists_create_iff timeout c.action]
    cases idle with
    | none => simp [exists_bind_eq_ok]
    | some n =>
      rw [← IdlePolicy.exists_create_iff (some n) c.action]
      simp [exists_bind_eq_ok]

lemma maxIdle_le_longest : c.maxIdle ≤ .longest ↔ c.maxIdleSeconds.toInt ≤ 2147483647 :=
  Duration.ofSeconds_le_longest

lemma usable_of_validate (h : c.validate = .ok ()) : c.Usable := by
  unfold validate at h
  split at h
  · cases h
  next hregion =>
    split at h
    · cases h
    next hpool =>
      split at h
      · cases h
      next hinterval =>
        split at h
        · cases h
        next hnames =>
          have hpolicy : ∃ p, c.buildPolicy = .ok p := by
            cases hbuild : c.buildPolicy with
            | ok p => exact ⟨p, rfl⟩
            | error e =>
              rw [hbuild] at h
              cases h
          exact ⟨by simpa using hregion, by simpa using hpool,
            maxIdle_le_longest.1 (Int.not_lt.1 hinterval),
            fun name hname => by simpa using List.find?_eq_none.1 hnames name hname,
            exists_buildPolicy_iff.1 hpolicy⟩

lemma Usable.validate (h : c.Usable) : c.validate = .ok () := by
  obtain ⟨p, hp⟩ := exists_buildPolicy_iff.2 h.policy
  have hinterval : ¬Duration.longest < c.maxIdle := Int.not_lt.2 (maxIdle_le_longest.2 h.maxIdle)
  have hnames : c.indexable.find? isBlank = none :=
    List.find?_eq_none.2 fun name hname => by simp [h.indexable name hname]
  rw [Config.validate, h.regionName, h.poolName, if_neg hinterval, hnames, hp]
  rfl

/-- **What is valid**, in numbers. -/
lemma validate_eq_ok_iff : c.validate = .ok () ↔ c.Usable :=
  ⟨usable_of_validate, Usable.validate⟩

end Config

/-! ## What is built -/

def CodecChoice.toCodec : CodecChoice → Codec
  | .binary => .binary
  | .portable => .portable
  | .both => .chain [.portable, .binary]

lemma Config.buildCodec_eq (c : Config) : c.buildCodec = .ok c.codec.toCodec := by
  unfold buildCodec
  cases c.codec <;> rfl

def Config.repository (c : Config) (store : Store) : Repository where
  store := store
  codec := c.codec.toCodec
  maxIdle := c.maxIdle
  indexable := c.indexable
  rule := .identity

lemma Config.Usable.ofConfig {c : Config} (h : c.Usable) (store : Store) :
    Repository.ofConfig store c = .ok (c.repository store) := by
  rw [Repository.ofConfig, h.validate, ok_bind, c.buildCodec_eq, ok_bind]
  rfl

/-! ## New sessions -/

namespace Ident

lemma length_hexDigits (count n : Nat) : (hexDigits count n).length = count := by
  induction count generalizing n with
  | zero => rfl
  | succ count ih => rw [hexDigits, List.length_append, ih, List.length_singleton]

lemma length_encode_ofBits (bits : Nat) : (Utf8.encode (ofBits bits).text).length ≤ 144 := by
  have hbytes := length_bytesOf_le (ofBits bits).text.toList
  rw [bytesOf_toList] at hbytes
  have hchars : (ofBits bits).text.toList.length = 36 := by
    simp [ofBits, length_hexDigits]
  rwa [hchars] at hbytes

end Ident

/-- A codec takes a record: it claims the kind, and it writes the record, whole or as it prefers. -/
structure Codec.Takes (c : Codec) (s : Session) : Prop where
  kind : c.writes s.kind = true
  encode : ∃ payload, c.encode s = (s.commit, .ok payload)
  encodeFull : ∃ payload, c.encodeFull s = (s.commit, .ok payload)

/-- A record that was just made: it has nothing but an id that is not too long. -/
structure Session.Bare (s : Session) : Prop where
  id : (Utf8.encode s.id.text).length < 2 ^ 31
  phase : s.phase = .new
  principal : s.principal = none
  held : s.attributes.held = ∅

section

variable {s : Session} {c : Codec}

lemma Binary.exists_full (hs : s.Bare) : ∃ payload, full s = .ok payload := by
  have hid : Wire.putText "session id" s.id.text = .ok
      (Wire.ofNat 4 (Utf8.encode s.id.text).length ++ Utf8.encode s.id.text) := by
    rw [Wire.putText, Wire.putBytes, Wire.putLength, if_pos hs.id, ok_bind]
  have hprincipal : putPrincipal s.principal = .ok (Wire.ofNat 4 0) := by
    rw [hs.principal]
    rfl
  have hblob : blob s.attributes = .ok (Wire.ofNat 4 0) := by
    rw [blob, Attributes.size, Attributes.entries, hs.held]
    rfl
  have hattributes : Wire.putBytes "attributes" (Wire.ofNat 4 0) =
      .ok (Wire.ofNat 4 4 ++ Wire.ofNat 4 0) := rfl
  rw [full, hid, hprincipal, hblob, ok_bind, ok_bind, ok_bind, hattributes, ok_bind]
  exact ⟨_, rfl⟩

namespace Codec

lemma takes_binary (hs : s.Bare) : Codec.binary.Takes s := by
  obtain ⟨payload, hpayload⟩ := Binary.exists_full hs
  have hpreferred : Binary.preferred s = .ok payload := by
    rw [Binary.preferred, if_neg, hpayload]
    simp [Session.needsFullWrite, hs.phase]
  refine ⟨?_, ⟨payload, Binary.encode_eq_ok.2 ⟨hpreferred, rfl⟩⟩,
    payload, Binary.encodeFull_eq_ok.2 ⟨hpayload, rfl⟩⟩
  cases s.kind <;> rfl

lemma takes_portable (hkind : s.kind = .plain) : Codec.portable.Takes s := by
  have hwrite : payloadOf (Portable.writeFull s []) = (s.commit, .ok (Portable.payload s)) := by
    rw [Portable.writeFull, if_pos hkind]
    rfl
  exact ⟨by rw [hkind]; rfl, ⟨_, hwrite⟩, _, hwrite⟩

lemma BuiltIn.writes_plain (hc : BuiltIn c) : c.writes .plain = true := by
  induction hc with
  | binary => rfl
  | portable => rfl
  | @composed members c hmem hc ih =>
    match members, hc with
    | [m], hc =>
      obtain rfl : m = c := Option.some.inj hc
      exact ih m (List.mem_singleton_self m)
    | m :: n :: rest, hc =>
      obtain rfl : chain (m :: n :: rest) = c := Option.some.inj hc
      exact writes_chain.2 ⟨m, List.mem_cons_self, ih m List.mem_cons_self⟩

/-- **A codec of this library takes the new records of its own repository**, which are delta-capable
whenever it writes such records. -/
lemma BuiltIn.takes (hc : BuiltIn c) (hs : s.Bare) (hkind : s.kind = c.recordKind) : c.Takes s := by
  have hacts := hc.acts
  unfold recordKind at hkind
  split at hacts
  next hwrites =>
    rw [if_pos hwrites] at hkind
    have hbinary := takes_binary hs
    refine ⟨hkind ▸ hwrites, ?_, ?_⟩
    · rw [encode, hacts.write s [] hkind]
      exact hbinary.encode
    · rw [encodeFull, hacts.writeFull s [] hkind]
      exact hbinary.encodeFull
  next hwrites =>
    rw [if_neg hwrites] at hkind
    have hportable := takes_portable hkind
    refine ⟨hkind ▸ hc.writes_plain, ?_, ?_⟩
    · rw [encode, hacts.write]
      exact hportable.encode
    · rw [encodeFull, hacts.writeFull]
      exact hportable.encodeFull

end Codec

end

lemma Repository.bare_newSession (r : Repository) {id : Ident}
    (hid : (Utf8.encode id.text).length < 2 ^ 31) (now : Time) : (r.newSession id now).Bare :=
  ⟨hid, rfl, rfl, rfl⟩

namespace Config

variable {c : Config}

lemma builtIn_toCodec (choice : CodecChoice) : choice.toCodec.BuiltIn := by
  cases choice with
  | binary => exact .binary
  | portable => exact .portable
  | both =>
    have hmem : ∀ m ∈ [Codec.portable, Codec.binary], m.BuiltIn := by
      simp [Codec.BuiltIn.portable, Codec.BuiltIn.binary]
    exact .composed hmem rfl

lemma Usable.lifetime (h : c.Usable) {lifetime : Duration}
    (hlifetime : c.lifetime = some lifetime) :
    0 < lifetime.nanos ∧ lifetime ≤ .longest := by
  have hpolicy := h.policy
  unfold Config.lifetime at hlifetime
  split at hlifetime
  next timeout idle hfixed =>
    obtain rfl := Option.some.inj hlifetime
    rw [hfixed] at hpolicy
    obtain ⟨⟨hpos, hle⟩, -⟩ := hpolicy
    exact ⟨by rw [Duration.nanos_ofSeconds]; omega, Duration.ofSeconds_le_longest.2 hle⟩
  next => cases hlifetime

/-- **Valid settings always build.** The settings are valid exactly if they are usable. Then the
codec, the policy and the repository can be built, and the repository with the fixed lifetime if
there is one; every session that the repository makes is taken by its codec and has the interval of
the settings. Otherwise no repository is built, and the fault is the one that validation finds. -/
theorem builds_of_validate (c : Config) (store : Store) :
    (c.validate = .ok () ↔ c.Usable) ∧
    (c.validate = .ok () → ∃ codec policy r, c.buildCodec = .ok codec ∧
      c.buildPolicy = .ok policy ∧ Repository.ofConfig store c = .ok r ∧ r.codec = codec ∧
      (∀ lifetime, c.lifetime = some lifetime →
        ∀ inner, ∃ limited, LimitedRepository.create inner lifetime = .ok limited) ∧
      ∀ bits now, codec.Takes (r.newSession (.ofBits bits) now) ∧
        (r.newSession (.ofBits bits) now).maxIdle = c.maxIdle) ∧
    ∀ e, c.validate = .error e → Repository.ofConfig store c = .error e := by
  refine ⟨validate_eq_ok_iff, fun hvalid => ?_, fun e hinvalid => ?_⟩
  · have husable := validate_eq_ok_iff.1 hvalid
    obtain ⟨policy, hpolicy⟩ := exists_buildPolicy_iff.2 husable.policy
    refine ⟨_, policy, _, c.buildCodec_eq, hpolicy, husable.ofConfig store, rfl,
      fun lifetime hlifetime inner => ?_, fun bits now => ⟨?_, ?_⟩⟩
    · obtain ⟨hpos, hle⟩ := husable.lifetime hlifetime
      exact ⟨_, LimitedRepository.create_eq_ok hpos hle⟩
    · have hshort := Ident.length_encode_ofBits bits
      exact (builtIn_toCodec c.codec).takes
        ((c.repository store).bare_newSession (by omega) now) rfl
    · exact Duration.min_longest (maxIdle_le_longest.2 husable.maxIdle)
  · rw [Repository.ofConfig, hinvalid]
    rfl

end Config

namespace Sample

def bounded : Config :=
  { Config.usual with
    indexable := ["k"]
    maxIdleSeconds := 2147483647
    codec := .both
    policy := .fixed 2147483647 (some 0) }

def emptyStore : Store := .create .binary none none .zero .epoch

end Sample

namespace Config

open Sample

/-- A chain of codecs, a lifetime as long as it may be, and a delegate with no patience. -/
theorem builds_of_validate_bounded :
    bounded.validate = .ok () ∧ bounded.Usable ∧
    ∃ codec policy r, bounded.buildCodec = .ok codec ∧ bounded.buildPolicy = .ok policy ∧
      Repository.ofConfig emptyStore bounded = .ok r ∧
      (∃ limited, LimitedRepository.create r .longest = .ok limited) ∧
      codec.Takes (r.newSession (.ofBits 0) .epoch) ∧
      (r.newSession (.ofBits 0) .epoch).maxIdle = .longest := by
  have hvalid : bounded.validate = .ok () := by decide +kernel
  obtain ⟨husable, hbuilds, -⟩ := builds_of_validate bounded emptyStore
  obtain ⟨codec, policy, r, hcodec, hpolicy, hr, -, hlifetime, hsessions⟩ := hbuilds hvalid
  have hlongest : bounded.lifetime = some .longest := by decide +kernel
  obtain ⟨htakes, hmaxIdle⟩ := hsessions 0 .epoch
  have hinterval : bounded.maxIdle = .longest := by decide +kernel
  exact ⟨hvalid, husable.1 hvalid, codec, policy, r, hcodec, hpolicy, hr, hlifetime _ hlongest r,
    htakes, hmaxIdle.trans hinterval⟩

/-- A second too much, and nothing is built. -/
example : Repository.ofConfig emptyStore { bounded with maxIdleSeconds := 2147483648 } =
    .error (.maxIdleOutOfRange 2147483648) := rfl

end Config

end Sessions
