import Mathlib.Data.List.Induction
import Sessions.Codec.Frame
import Sessions.Proofs.Basic

/-!
# Wire fields in sequence

Whole records and changes are fields one after the other. The format of a field is canonical: the
bytes that are read as a value are the ones that writing the value gives, and nothing that follows
them matters. This goes through for lists of fields of any kinds, so readers invert writers in
sequence. Of other bytes comes a fault of serialization (`Contained`).
-/

namespace Sessions

/-! ## Outcomes that stay in serialization -/

/-- The outcome is a result, or a fault of serialization. -/
def Contained {α : Type} (x : Except Fault α) : Prop :=
  ∀ e, x = .error e → e.category = .serialization

namespace Contained

variable {α β : Type} {x : Except Fault α}

lemma ok (a : α) : Contained (.ok a) := fun _ he => by cases he

lemma error {e : Fault} (h : e.category = .serialization) :
    Contained (.error e : Except Fault α) := by
  intro e' he
  rwa [← Except.error.inj he]

lemma bind {f : α → Except Fault β} (hx : Contained x) (hf : ∀ a, Contained (f a)) :
    Contained (x >>= f) := by
  cases x with
  | ok a => exact hf a
  | error e => exact .error (hx e rfl)

lemma map (hx : Contained x) (f : α → β) : Contained (x.map f) := by
  cases x with
  | ok a => exact .ok (f a)
  | error e => exact .error (hx e rfl)

end Contained

namespace Wire

/-! ## Bytes and numbers -/

lemma length_ofNat (width n : Nat) : (ofNat width n).length = width := by
  induction width generalizing n with
  | zero => rfl
  | succ width ih => simp [ofNat, ih]

lemma toNat_append_singleton (bytes : Bytes) (b : UInt8) :
    toNat (bytes ++ [b]) = 256 * toNat bytes + b.toNat := by
  simp [toNat]

lemma toNat_ofNat (width n : Nat) : toNat (ofNat width n) = n % 256 ^ width := by
  induction width generalizing n with
  | zero => simp [ofNat, toNat, Nat.mod_one]
  | succ width ih =>
    rw [ofNat, toNat_append_singleton, ih, Nat.pow_succ']
    have hb : (UInt8.ofNat (n % 256)).toNat = n % 256 := by simp
    rw [hb, Nat.mod_mul, Nat.add_comm]

lemma toNat_lt (bytes : Bytes) : toNat bytes < 256 ^ bytes.length := by
  induction bytes using List.reverseRecOn with
  | nil => exact Nat.one_pos
  | append_singleton front b ih =>
    have hb := b.toNat_lt
    rw [toNat_append_singleton, List.length_append, List.length_singleton, Nat.pow_succ]
    omega

lemma ofNat_toNat (bytes : Bytes) : ofNat bytes.length (toNat bytes) = bytes := by
  induction bytes using List.reverseRecOn with
  | nil => rfl
  | append_singleton front b ih =>
    have hb := b.toNat_lt
    have hdiv : (256 * toNat front + b.toNat) / 256 = toNat front := by omega
    have hmod : (256 * toNat front + b.toNat) % 256 = b.toNat := by omega
    rw [toNat_append_singleton, List.length_append, List.length_singleton, ofNat, hdiv, hmod, ih,
      UInt8.ofNat_toNat]

/-! ## Fields in front

Taking a field off bytes that start with it gives its value and what follows it. -/

lemma takeFixed_append {front rest : Bytes} {width : Nat} {field : String}
    (h : front.length = width) : takeFixed width field (front ++ rest) = .ok (front, rest) := by
  subst h; simp [takeFixed]

lemma takeCounted_append {front rest : Bytes} {count : Nat} {field : String}
    (h : front.length = count) : takeCounted count field (front ++ rest) = .ok (front, rest) := by
  subst h; simp [takeCounted]

@[simp] lemma takeByte_cons (field : String) (b : UInt8) (rest : Bytes) :
    takeByte field (b :: rest) = .ok (b, rest) := rfl

lemma takeInt32_ofNat_append (field : String) (n : Nat) (rest : Bytes) :
    takeInt32 field (ofNat 4 n ++ rest) = .ok (Int32.ofNat n, rest) := by
  have hn : Int32.ofNat (n % 256 ^ 4) = Int32.ofNat n := by
    apply Int32.toBitVec_inj.1
    apply BitVec.eq_of_toNat_eq
    simp
  simp only [takeInt32, takeFixed_append (length_ofNat 4 n), toNat_ofNat, bind, Except.bind, hn]

@[simp] lemma takeInt32_putInt32 (field : String) (x : Int32) (rest : Bytes) :
    takeInt32 field (putInt32 x ++ rest) = .ok (x, rest) := by
  rw [putInt32, takeInt32_ofNat_append]
  have hx : Int32.ofNat x.toUInt32.toNat = x := by
    apply Int32.toBitVec_inj.1
    apply BitVec.eq_of_toNat_eq
    simp
  rw [hx]

@[simp] lemma takeInt64_putInt64 (field : String) (x : Int64) (rest : Bytes) :
    takeInt64 field (putInt64 x ++ rest) = .ok (x, rest) := by
  have hx : Int64.ofNat (x.toUInt64.toNat % 256 ^ 8) = x := by
    apply Int64.toBitVec_inj.1
    apply BitVec.eq_of_toNat_eq
    simp
  simp only [takeInt64, putInt64, takeFixed_append (length_ofNat 8 _), toNat_ofNat, bind,
    Except.bind, hx]

lemma takeLength_append {name field : String} {n : Nat} {length : Bytes}
    (h : putLength name n = .ok length) (rest : Bytes) :
    takeLength field (length ++ rest) = .ok (n, rest) := by
  unfold putLength at h
  split at h
  next hn =>
    cases h
    have hlow : (Int32.ofNat n).toInt = n := Int32.toInt_ofNat_of_lt (by omega)
    simp only [takeLength, takeInt32_ofNat_append, bind, Except.bind, hlow]
    rw [if_neg (by omega), Int.toNat_natCast]
  next => cases h

lemma takeBytes_append {name field : String} {bytes written : Bytes}
    (h : putBytes name bytes = .ok written) (rest : Bytes) :
    takeBytes field (written ++ rest) = .ok (bytes, rest) := by
  unfold putBytes at h
  cases hl : putLength name bytes.length with
  | error e => simp [hl, bind, Except.bind] at h
  | ok length =>
    simp only [hl, bind, Except.bind, Except.ok.injEq] at h
    subst h
    simp only [takeBytes, List.append_assoc, takeLength_append hl, bind, Except.bind,
      takeCounted_append]

lemma takeText_append {name field text : String} {written : Bytes}
    (h : putText name text = .ok written) (rest : Bytes) :
    takeText field (written ++ rest) = .ok (text, rest) := by
  simp only [takeText, takeBytes_append h, bind, Except.bind, asText, Utf8.decode_encode]

/-! ## What readers take

In each case the way back is that a reader inverts its writer, whatever follows the field. -/

section Readers

variable {field : String} {input rest : Bytes}

lemma cut_eq_ok_iff {width : Nat} {e : Fault} {front : Bytes} :
    (if input.length < width then .error e else .ok (input.take width, input.drop width)) =
        (.ok (front, rest) : Except Fault (Bytes × Bytes)) ↔
      front.length = width ∧ input = front ++ rest := by
  constructor
  · intro h
    split at h
    next => cases h
    next hlong =>
      cases h
      exact ⟨List.length_take_of_le (Nat.not_lt.1 hlong), (List.take_append_drop _ _).symm⟩
  · rintro ⟨rfl, rfl⟩
    simp

lemma eq_ofNat_of_takeFixed {width : Nat} {front : Bytes}
    (h : takeFixed width field input = .ok (front, rest)) :
    toNat front < 256 ^ width ∧ input = ofNat width (toNat front) ++ rest := by
  obtain ⟨rfl, rfl⟩ := cut_eq_ok_iff.1 h
  exact ⟨toNat_lt front, by rw [ofNat_toNat]⟩

lemma takeByte_eq_ok_iff {b : UInt8} :
    takeByte field input = .ok (b, rest) ↔ input = b :: rest := by
  cases input with
  | nil => simp [takeByte]
  | cons c tail => simp [takeByte]

lemma takeInt32_eq_ok_iff {x : Int32} :
    takeInt32 field input = .ok (x, rest) ↔ input = putInt32 x ++ rest := by
  constructor
  · intro h
    obtain ⟨⟨front, tail⟩, hfixed, hx⟩ := bind_eq_ok.1 h
    obtain ⟨hlt, rfl⟩ := eq_ofNat_of_takeFixed hfixed
    cases hx
    have hnat : (Int32.ofNat (toNat front)).toUInt32.toNat = toNat front := by simpa using hlt
    rw [putInt32, hnat]
  · rintro rfl
    exact takeInt32_putInt32 field x rest

lemma takeInt64_eq_ok_iff {x : Int64} :
    takeInt64 field input = .ok (x, rest) ↔ input = putInt64 x ++ rest := by
  constructor
  · intro h
    obtain ⟨⟨front, tail⟩, hfixed, hx⟩ := bind_eq_ok.1 h
    obtain ⟨hlt, rfl⟩ := eq_ofNat_of_takeFixed hfixed
    cases hx
    have hnat : (Int64.ofNat (toNat front)).toUInt64.toNat = toNat front := by simpa using hlt
    rw [putInt64, hnat]
  · rintro rfl
    exact takeInt64_putInt64 field x rest

lemma putInt32_of_nonneg {x : Int32} (h : 0 ≤ x.toInt) : putInt32 x = ofNat 4 x.toInt.toNat := by
  have hx : x.toUInt32.toNat = x.toInt.toNat := by
    have hbits : x.toInt = (x.toUInt32.toNat : Int).bmod (2 ^ 32) := by
      rw [← Int32.toInt_toBitVec, BitVec.toInt_eq_toNat_bmod]
      rfl
    have hlt := x.toUInt32.toNat_lt
    rw [Int.bmod_def] at hbits
    omega
  rw [putInt32, hx]

lemma takeLength_eq_ok_iff {n : Nat} :
    takeLength field input = .ok (n, rest) ↔ n < 2 ^ 31 ∧ input = ofNat 4 n ++ rest := by
  constructor
  · intro h
    obtain ⟨⟨x, tail⟩, hint, hx⟩ := bind_eq_ok.1 h
    obtain rfl := takeInt32_eq_ok_iff.1 hint
    dsimp only at hx
    split at hx
    next => cases hx
    next hsign =>
      cases hx
      have hlt := x.toInt_lt
      exact ⟨by omega, by rw [putInt32_of_nonneg (Int.not_lt.1 hsign)]⟩
  · rintro ⟨hlt, rfl⟩
    have hput : putLength field n = .ok (ofNat 4 n) := if_pos hlt
    exact takeLength_append hput rest

lemma putBytes_eq_ok_iff {name : String} {bytes written : Bytes} :
    putBytes name bytes = .ok written ↔
      bytes.length < 2 ^ 31 ∧ written = ofNat 4 bytes.length ++ bytes := by
  constructor
  · intro h
    obtain ⟨length, hlength, hwritten⟩ := bind_eq_ok.1 h
    unfold putLength at hlength
    split at hlength
    next hlt => cases hlength; cases hwritten; exact ⟨hlt, rfl⟩
    next => cases hlength
  · rintro ⟨hlt, rfl⟩
    exact bind_eq_ok.2 ⟨_, if_pos hlt, rfl⟩

lemma takeBytes_eq_ok_iff {bytes : Bytes} :
    takeBytes field input = .ok (bytes, rest) ↔
      bytes.length < 2 ^ 31 ∧ input = ofNat 4 bytes.length ++ bytes ++ rest := by
  constructor
  · intro h
    obtain ⟨⟨count, tail⟩, hlength, hcounted⟩ := bind_eq_ok.1 h
    obtain ⟨hlt, rfl⟩ := takeLength_eq_ok_iff.1 hlength
    obtain ⟨rfl, rfl⟩ := cut_eq_ok_iff.1 hcounted
    exact ⟨hlt, (List.append_assoc _ _ _).symm⟩
  · rintro ⟨hlt, rfl⟩
    have hput : putBytes field bytes = .ok (ofNat 4 bytes.length ++ bytes) :=
      putBytes_eq_ok_iff.2 ⟨hlt, rfl⟩
    exact takeBytes_append hput rest

lemma asText_eq_ok_iff {bytes : Bytes} {text : String} :
    asText field bytes = .ok text ↔ bytes = Utf8.encode text := by
  constructor
  · intro h
    unfold asText at h
    split at h
    next hdecode => cases h; exact Utf8.eq_encode_of_decode hdecode
    next => cases h
  · rintro rfl
    rw [asText, Utf8.decode_encode]

lemma takeText_eq_ok_iff {text : String} :
    takeText field input = .ok (text, rest) ↔
      takeBytes field input = .ok (Utf8.encode text, rest) := by
  constructor
  · intro h
    obtain ⟨⟨bytes, tail⟩, hbytes, htext⟩ := bind_eq_ok.1 h
    obtain ⟨text', hasText, hpair⟩ := bind_eq_ok.1 htext
    cases hpair
    rwa [← asText_eq_ok_iff.1 hasText]
  · intro h
    exact bind_eq_ok.2 ⟨_, h, bind_eq_ok.2 ⟨text, asText_eq_ok_iff.2 rfl, rfl⟩⟩

end Readers

/-! ## What writers and readers fail with -/

section Faults

lemma eq_tooLarge_of_putLength {name : String} {n : Nat} {e : Fault}
    (h : putLength name n = .error e) : e = .tooLarge name := by
  unfold putLength at h
  split at h
  · cases h
  · exact (Except.error.inj h).symm

lemma eq_tooLarge_of_putBytes {name : String} {bytes : Bytes} {e : Fault}
    (h : putBytes name bytes = .error e) : e = .tooLarge name := by
  rcases bind_eq_error.1 h with hlength | ⟨length, -, hok⟩
  · exact eq_tooLarge_of_putLength hlength
  · cases hok

variable (field : String) (input : Bytes)

lemma contained_takeFixed (width : Nat) : Contained (takeFixed width field input) := by
  unfold takeFixed
  split
  · exact .error rfl
  · exact .ok _

lemma contained_takeCounted (count : Nat) : Contained (takeCounted count field input) := by
  unfold takeCounted
  split
  · exact .error rfl
  · exact .ok _

lemma contained_takeByte : Contained (takeByte field input) := by
  cases input with
  | nil => exact .error rfl
  | cons b rest => exact .ok _

lemma contained_takeInt32 : Contained (takeInt32 field input) :=
  (contained_takeFixed field input 4).bind fun _ => .ok _

lemma contained_takeInt64 : Contained (takeInt64 field input) :=
  (contained_takeFixed field input 8).bind fun _ => .ok _

lemma contained_takeLength : Contained (takeLength field input) := by
  refine (contained_takeInt32 field input).bind fun ⟨length, rest⟩ => ?_
  dsimp only
  split
  · exact .error rfl
  · exact .ok _

lemma contained_takeBytes : Contained (takeBytes field input) :=
  (contained_takeLength field input).bind fun ⟨count, rest⟩ =>
    contained_takeCounted field rest count

lemma contained_asText : Contained (asText field input) := by
  unfold asText
  split
  · exact .ok _
  · exact .error rfl

lemma contained_takeText : Contained (takeText field input) :=
  (contained_takeBytes field input).bind fun ⟨bytes, _⟩ =>
    (contained_asText field bytes).bind fun _ => .ok _

end Faults

/-! ## Fields of any kind -/

inductive Value where
  | byte (b : UInt8)
  | int32 (x : Int32)
  | int64 (x : Int64)
  | bytes (bs : Bytes)
  | text (t : String)
deriving DecidableEq

inductive Shape where
  | byte
  | int32
  | int64
  | bytes
  | text
deriving DecidableEq

namespace Value

def shape : Value → Shape
  | byte _ => .byte
  | int32 _ => .int32
  | int64 _ => .int64
  | bytes _ => .bytes
  | text _ => .text

/-- The content that stands behind a length, where there is one. -/
def counted : Value → Bytes
  | byte _ | int32 _ | int64 _ => []
  | bytes bs => bs
  | text t => Utf8.encode t

/-- The length of the content can be written as 32 signed bits. -/
def Fits (value : Value) : Prop := value.counted.length < 2 ^ 31

instance (value : Value) : Decidable value.Fits :=
  inferInstanceAs (Decidable (_ < _))

def put (field : String) : Value → Except Fault Bytes
  | byte b => .ok [b]
  | int32 x => .ok (putInt32 x)
  | int64 x => .ok (putInt64 x)
  | bytes bs => putBytes field bs
  | text t => putText field t

lemma exists_put_iff (value : Value) (field : String) :
    (∃ written, value.put field = .ok written) ↔ value.Fits := by
  cases value with
  | byte b => exact ⟨fun _ => Nat.two_pow_pos 31, fun _ => ⟨_, rfl⟩⟩
  | int32 x => exact ⟨fun _ => Nat.two_pow_pos 31, fun _ => ⟨_, rfl⟩⟩
  | int64 x => exact ⟨fun _ => Nat.two_pow_pos 31, fun _ => ⟨_, rfl⟩⟩
  | bytes bs =>
    exact ⟨fun ⟨_, h⟩ => (putBytes_eq_ok_iff.1 h).1, fun h => ⟨_, putBytes_eq_ok_iff.2 ⟨h, rfl⟩⟩⟩
  | text t =>
    exact ⟨fun ⟨_, h⟩ => (putBytes_eq_ok_iff.1 h).1, fun h => ⟨_, putBytes_eq_ok_iff.2 ⟨h, rfl⟩⟩⟩

end Value

def Shape.take (field : String) (input : Bytes) : Shape → Except Fault (Value × Bytes)
  | byte => do
    let (b, rest) ← takeByte field input
    .ok (.byte b, rest)
  | int32 => do
    let (x, rest) ← takeInt32 field input
    .ok (.int32 x, rest)
  | int64 => do
    let (x, rest) ← takeInt64 field input
    .ok (.int64 x, rest)
  | bytes => do
    let (bs, rest) ← takeBytes field input
    .ok (.bytes bs, rest)
  | text => do
    let (t, rest) ← takeText field input
    .ok (.text t, rest)

/-- A field that was written is read back as what it holds, whatever follows it. -/
lemma Shape.take_append {field name : String} {value : Value} {written : Bytes}
    (h : value.put name = .ok written) (rest : Bytes) :
    value.shape.take field (written ++ rest) = .ok (value, rest) := by
  cases value with
  | byte b => cases h; rfl
  | int32 x => cases h; exact bind_eq_ok.2 ⟨_, takeInt32_putInt32 field x rest, rfl⟩
  | int64 x => cases h; exact bind_eq_ok.2 ⟨_, takeInt64_putInt64 field x rest, rfl⟩
  | bytes bs => exact bind_eq_ok.2 ⟨_, takeBytes_append h rest, rfl⟩
  | text t => exact bind_eq_ok.2 ⟨_, takeText_append h rest, rfl⟩

lemma Shape.exists_put_of_take {shape : Shape} {field : String} {input rest : Bytes}
    {value : Value} (h : shape.take field input = .ok (value, rest)) (name : String) :
    value.shape = shape ∧ ∃ written, value.put name = .ok written ∧ input = written ++ rest := by
  cases shape with
  | byte =>
    obtain ⟨⟨b, tail⟩, hb, hpair⟩ := bind_eq_ok.1 h
    cases hpair
    exact ⟨rfl, _, rfl, takeByte_eq_ok_iff.1 hb⟩
  | int32 =>
    obtain ⟨⟨x, tail⟩, hx, hpair⟩ := bind_eq_ok.1 h
    cases hpair
    exact ⟨rfl, _, rfl, takeInt32_eq_ok_iff.1 hx⟩
  | int64 =>
    obtain ⟨⟨x, tail⟩, hx, hpair⟩ := bind_eq_ok.1 h
    cases hpair
    exact ⟨rfl, _, rfl, takeInt64_eq_ok_iff.1 hx⟩
  | bytes =>
    obtain ⟨⟨bs, tail⟩, hbytes, hpair⟩ := bind_eq_ok.1 h
    cases hpair
    obtain ⟨hlt, rfl⟩ := takeBytes_eq_ok_iff.1 hbytes
    exact ⟨rfl, _, putBytes_eq_ok_iff.2 ⟨hlt, rfl⟩, rfl⟩
  | text =>
    obtain ⟨⟨t, tail⟩, htext, hpair⟩ := bind_eq_ok.1 h
    cases hpair
    obtain ⟨hlt, rfl⟩ := takeBytes_eq_ok_iff.1 (takeText_eq_ok_iff.1 htext)
    exact ⟨rfl, _, putBytes_eq_ok_iff.2 ⟨hlt, rfl⟩, rfl⟩

/-! ## Fields in sequence -/

def putAll : List (String × Value) → Except Fault Bytes
  | [] => .ok []
  | (field, value) :: fields => do
    let front ← value.put field
    let back ← putAll fields
    .ok (front ++ back)

def takeAll : List (String × Shape) → Bytes → Except Fault (List Value × Bytes)
  | [], input => .ok ([], input)
  | (field, shape) :: wanted, input => do
    let (value, rest) ← shape.take field input
    let (values, rest) ← takeAll wanted rest
    .ok (value :: values, rest)

/-- The fields asked for are of the kinds of the fields written. The names may differ, since they
are in messages only. -/
def Matches (wanted : List (String × Shape)) (fields : List (String × Value)) : Prop :=
  wanted.map Prod.snd = fields.map fun f => f.2.shape

lemma exists_putAll_iff (fields : List (String × Value)) :
    (∃ written, putAll fields = .ok written) ↔ ∀ f ∈ fields, f.2.Fits := by
  induction fields with
  | nil => exact ⟨fun _ f hf => absurd hf List.not_mem_nil, fun _ => ⟨[], rfl⟩⟩
  | cons f fields ih =>
    obtain ⟨field, value⟩ := f
    rw [List.forall_mem_cons, ← ih, ← value.exists_put_iff field]
    constructor
    · rintro ⟨written, h⟩
      obtain ⟨front, hfront, h⟩ := bind_eq_ok.1 h
      obtain ⟨back, hback, -⟩ := bind_eq_ok.1 h
      exact ⟨⟨front, hfront⟩, ⟨back, hback⟩⟩
    · rintro ⟨⟨front, hfront⟩, ⟨back, hback⟩⟩
      exact ⟨front ++ back, bind_eq_ok.2 ⟨front, hfront, bind_eq_ok.2 ⟨back, hback, rfl⟩⟩⟩

lemma takeAll_append {fields : List (String × Value)} {wanted : List (String × Shape)}
    {written : Bytes} (h : putAll fields = .ok written) (hmatches : Matches wanted fields)
    (suffix : Bytes) :
    takeAll wanted (written ++ suffix) = .ok (fields.map Prod.snd, suffix) := by
  -- on what was written; what is asked for follows it, and the next field is part of the suffix
  induction fields generalizing wanted written with
  | nil =>
    obtain rfl := List.map_eq_nil_iff.1 hmatches
    cases h
    rfl
  | cons f fields ih =>
    obtain ⟨⟨field, shape⟩, rest, rfl, rfl, hrest⟩ := List.map_eq_cons_iff.1 hmatches
    obtain ⟨front, hfront, h⟩ := bind_eq_ok.1 h
    obtain ⟨back, hback, h⟩ := bind_eq_ok.1 h
    cases h
    rw [List.append_assoc, takeAll, Shape.take_append hfront, ok_bind]
    dsimp only
    rw [ih hback hrest, ok_bind, List.map_cons]

lemma exists_putAll_of_takeAll {fields : List (String × Value)} {wanted : List (String × Shape)}
    {input rest : Bytes} (h : takeAll wanted input = .ok (fields.map Prod.snd, rest)) :
    Matches wanted fields ∧ ∃ written, putAll fields = .ok written ∧ input = written ++ rest := by
  induction wanted generalizing fields input with
  | nil =>
    rw [takeAll, Except.ok.injEq, Prod.mk.injEq] at h
    obtain rfl := List.map_eq_nil_iff.1 h.1.symm
    exact ⟨rfl, [], rfl, h.2⟩
  | cons w wanted ih =>
    obtain ⟨field, shape⟩ := w
    obtain ⟨⟨value, next⟩, hvalue, h⟩ := bind_eq_ok.1 h
    obtain ⟨⟨values, last⟩, hvalues, h⟩ := bind_eq_ok.1 h
    rw [Except.ok.injEq, Prod.mk.injEq] at h
    obtain ⟨hfields, rfl⟩ := h
    obtain ⟨⟨name, value⟩, others, rfl, rfl, rfl⟩ := List.map_eq_cons_iff.1 hfields.symm
    obtain ⟨hshape, front, hfront, rfl⟩ := Shape.exists_put_of_take hvalue name
    obtain ⟨hmatches, back, hback, rfl⟩ := ih hvalues
    refine ⟨congrArg₂ List.cons hshape.symm hmatches, front ++ back, ?_, ?_⟩
    · exact bind_eq_ok.2 ⟨front, hfront, bind_eq_ok.2 ⟨back, hback, rfl⟩⟩
    · exact (List.append_assoc front back _).symm

/-- **The format of fields is canonical.** Input is read as values exactly when it starts with
what writing them gives and fields of their kinds are asked for. -/
theorem takeAll_eq_ok_iff {fields : List (String × Value)} {wanted : List (String × Shape)}
    {input rest : Bytes} :
    takeAll wanted input = .ok (fields.map Prod.snd, rest) ↔
      Matches wanted fields ∧ ∃ written, putAll fields = .ok written ∧ input = written ++ rest := by
  refine ⟨exists_putAll_of_takeAll, ?_⟩
  rintro ⟨hmatches, written, hwritten, rfl⟩
  exact takeAll_append hwritten hmatches rest

/-! ## Counted readers -/

/-- A reader of counted fields takes the four bytes of a length and as many bytes as that, which
are the content of what it gives, or fails with a fault of serialization. -/
def Counts {α : Type} (content : α → Bytes) (take : Bytes → Except Fault (α × Bytes)) : Prop :=
  ∀ input,
    (∃ value rest, take input = .ok (value, rest) ∧ (content value).length < 2 ^ 31 ∧
      input = ofNat 4 (content value).length ++ content value ++ rest) ∨
    ∃ e, take input = .error e ∧ e.category = .serialization

lemma counts_of_ok {α : Type} {content : α → Bytes} {take : Bytes → Except Fault (α × Bytes)}
    (hcontained : ∀ input, Contained (take input))
    (hok : ∀ input value rest, take input = .ok (value, rest) →
      (content value).length < 2 ^ 31 ∧
        input = ofNat 4 (content value).length ++ content value ++ rest) :
    Counts content take := by
  intro input
  cases h : take input with
  | ok taken => exact .inl ⟨taken.1, taken.2, rfl, hok input taken.1 taken.2 h⟩
  | error e => exact .inr ⟨e, rfl, hcontained input e h⟩

lemma counts_takeBytes (field : String) : Counts id (takeBytes field) :=
  counts_of_ok (contained_takeBytes field) fun _ _ _ => takeBytes_eq_ok_iff.1

lemma counts_takeText (field : String) : Counts Utf8.encode (takeText field) :=
  counts_of_ok (contained_takeText field) fun _ _ _ h =>
    takeBytes_eq_ok_iff.1 (takeText_eq_ok_iff.1 h)

/-- **Readers invert writers in sequence.** Fields whose content is not too long for a length can
be written one after the other, and reading fields of the same kinds gives their values and leaves
what follows, whatever it is. On any input a reader of counted fields takes a length and as many
bytes as it says, or fails with a fault of serialization. -/
theorem readers_invert_writers :
    (∀ fields : List (String × Value), (∀ f ∈ fields, f.2.Fits) →
      ∃ written, putAll fields = .ok written ∧ ∀ wanted suffix, Matches wanted fields →
        takeAll wanted (written ++ suffix) = .ok (fields.map Prod.snd, suffix)) ∧
    ∀ field, Counts id (takeBytes field) ∧ Counts Utf8.encode (takeText field) := by
  refine ⟨fun fields hfits => ?_, fun field => ⟨counts_takeBytes field, counts_takeText field⟩⟩
  obtain ⟨written, hwritten⟩ := (exists_putAll_iff fields).2 hfits
  refine ⟨written, hwritten, fun wanted suffix hmatches => ?_⟩
  exact takeAll_eq_ok_iff.2 ⟨hmatches, written, hwritten, rfl⟩

namespace Sample

def fields : List (String × Value) :=
  [("marker", .byte 255), ("tag", .int32 (-2)), ("seconds", .int64 Int64.minValue),
    ("blob", .bytes []), ("value", .bytes [0, 255]), ("name", .text "né")]

def written : Bytes :=
  [255, 255, 255, 255, 254, 128, 0, 0, 0, 0, 0, 0, 0, 0, 0, 0, 0, 0, 0, 0, 2, 0, 255, 0, 0, 0, 3,
    110, 195, 169]

end Sample

/-- What follows looks like a field, and one that is cut off. -/
theorem readers_invert_writers_sample :
    (∀ f ∈ Sample.fields, f.2.Fits) ∧
    takeAll (Sample.fields.map fun f => (f.1, f.2.shape)) (Sample.written ++ [0, 0, 0, 1]) =
      .ok (Sample.fields.map Prod.snd, [0, 0, 0, 1]) := by
  have hfits : ∀ f ∈ Sample.fields, f.2.Fits := by decide +kernel
  obtain ⟨written, hwritten, htake⟩ := readers_invert_writers.1 Sample.fields hfits
  have hbytes : putAll Sample.fields = .ok Sample.written := by decide +kernel
  cases hwritten.symm.trans hbytes
  exact ⟨hfits, htake _ _ rfl⟩

end Wire

/-! ## Headers -/

namespace Frame

lemma ofMarker_marker (f : Frame) : ofMarker f.marker = .ok f := by
  rcases f with (_ | _) | _ <;> rfl

end Frame

namespace Header

lemma length_write (h : Header) : h.write.length = size := by
  simp [write, Wire.putInt32, Wire.length_ofNat, size]

lemma read_write (h : Header) (body : Bytes) : read (h.write ++ body) = .ok h := by
  simp [read, write, bind, Except.bind, Frame.ofMarker_marker]

lemma drop_write (h : Header) (body : Bytes) : (h.write ++ body).drop size = body := by
  rw [← h.length_write, List.drop_left]

end Header

end Sessions
