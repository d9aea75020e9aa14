import Sessions.Power
import Sessions.Text.Hex

/-!
# SHA-256

The digest of a byte string by the Secure Hash Standard, FIPS 180-4: padding to whole blocks of
64 bytes, a schedule of 64 words for each block, 64 rounds on a state of eight words. The digest
is given as lower-case hexadecimal text.
-/

namespace Sessions.Sha256

/-- The eight chaining words. -/
structure State where
  a : UInt32
  b : UInt32
  c : UInt32
  d : UInt32
  e : UInt32
  f : UInt32
  g : UInt32
  h : UInt32

/-- First 32 bits of the fractional parts of the square roots of the first eight primes. -/
def State.initial : State where
  a := 0x6a09e667
  b := 0xbb67ae85
  c := 0x3c6ef372
  d := 0xa54ff53a
  e := 0x510e527f
  f := 0x9b05688c
  g := 0x1f83d9ab
  h := 0x5be0cd19

/-- First 32 bits of the fractional parts of the cube roots of the first 64 primes. -/
def roundConstants : List UInt32 :=
  [0x428a2f98, 0x71374491, 0xb5c0fbcf, 0xe9b5dba5, 0x3956c25b, 0x59f111f1, 0x923f82a4, 0xab1c5ed5,
    0xd807aa98, 0x12835b01, 0x243185be, 0x550c7dc3, 0x72be5d74, 0x80deb1fe, 0x9bdc06a7, 0xc19bf174,
    0xe49b69c1, 0xefbe4786, 0x0fc19dc6, 0x240ca1cc, 0x2de92c6f, 0x4a7484aa, 0x5cb0a9dc, 0x76f988da,
    0x983e5152, 0xa831c66d, 0xb00327c8, 0xbf597fc7, 0xc6e00bf3, 0xd5a79147, 0x06ca6351, 0x14292967,
    0x27b70a85, 0x2e1b2138, 0x4d2c6dfc, 0x53380d13, 0x650a7354, 0x766a0abb, 0x81c2c92e, 0x92722c85,
    0xa2bfe8a1, 0xa81a664b, 0xc24b8b70, 0xc76c51a3, 0xd192e819, 0xd6990624, 0xf40e3585, 0x106aa070,
    0x19a4c116, 0x1e376c08, 0x2748774c, 0x34b0bcb5, 0x391c0cb3, 0x4ed8aa4a, 0x5b9cca4f, 0x682e6ff3,
    0x748f82ee, 0x78a5636f, 0x84c87814, 0x8cc70208, 0x90befffa, 0xa4506ceb, 0xbef9a3f7, 0xc67178f2]

def rotateRight (x : UInt32) (n : UInt32) : UInt32 := (x >>> n) ||| (x <<< (32 - n))

def smallSigma0 (x : UInt32) : UInt32 := rotateRight x 7 ^^^ rotateRight x 18 ^^^ (x >>> 3)

def smallSigma1 (x : UInt32) : UInt32 := rotateRight x 17 ^^^ rotateRight x 19 ^^^ (x >>> 10)

def bigSigma0 (x : UInt32) : UInt32 := rotateRight x 2 ^^^ rotateRight x 13 ^^^ rotateRight x 22

def bigSigma1 (x : UInt32) : UInt32 := rotateRight x 6 ^^^ rotateRight x 11 ^^^ rotateRight x 25

def choose (x y z : UInt32) : UInt32 := (x &&& y) ^^^ (~~~x &&& z)

def majority (x y z : UInt32) : UInt32 := (x &&& y) ^^^ (x &&& z) ^^^ (y &&& z)

/-- The message, a single bit, zeros, and the length in bits as eight bytes: a whole number of
blocks. -/
def pad (message : List UInt8) : List UInt8 :=
  let bits := 8 * message.length
  let zeros := (119 - message.length % 64) % 64
  message ++ 0x80 :: List.replicate zeros 0
    ++ (List.range 8).map fun i => UInt8.ofNat (bits / 256 ^ (7 - i))

/-- Groups of four bytes, most significant first. -/
def words : List UInt8 → List UInt32
  | a :: b :: c :: d :: rest =>
    ((a.toUInt32 <<< 24) ||| (b.toUInt32 <<< 16) ||| (c.toUInt32 <<< 8) ||| d.toUInt32)
      :: words rest
  | _ => []

/-- Appends one word to a schedule that is kept last word first. -/
def extend (schedule : List UInt32) : List UInt32 :=
  (smallSigma1 (schedule.getD 1 0) + schedule.getD 6 0 + smallSigma0 (schedule.getD 14 0)
    + schedule.getD 15 0) :: schedule

/-- The 64 words of a block's schedule; the first sixteen are the block itself. -/
def schedule (block : List UInt32) : List UInt32 :=
  ((List.range 48).foldl (fun s _ => extend s) block.reverse).reverse

def round (s : State) (kw : UInt32 × UInt32) : State :=
  let t1 := s.h + bigSigma1 s.e + choose s.e s.f s.g + kw.1 + kw.2
  let t2 := bigSigma0 s.a + majority s.a s.b s.c
  { a := t1 + t2, b := s.a, c := s.b, d := s.c, e := s.d + t1, f := s.e, g := s.f, h := s.g }

def compress (s : State) (block : List UInt32) : State :=
  let t := (roundConstants.zip (schedule block)).foldl round s
  { a := s.a + t.a, b := s.b + t.b, c := s.c + t.c, d := s.d + t.d
    e := s.e + t.e, f := s.f + t.f, g := s.g + t.g, h := s.h + t.h }

/-- Blocks of sixteen words; `count` is at least their number. -/
def compressAll : Nat → State → List UInt32 → State
  | 0, s, _ => s
  | _, s, [] => s
  | count + 1, s, ws => compressAll count (compress s (ws.take 16)) (ws.drop 16)

def ofWord (w : UInt32) : List UInt8 :=
  [(w >>> 24).toUInt8, (w >>> 16).toUInt8, (w >>> 8).toUInt8, w.toUInt8]

def State.bytes (s : State) : List UInt8 :=
  [s.a, s.b, s.c, s.d, s.e, s.f, s.g, s.h].flatMap ofWord

/-- The 32 bytes of the digest. -/
def digest (message : List UInt8) : List UInt8 :=
  let ws := words (pad message)
  (compressAll ws.length State.initial ws).bytes

/-- The digest as 64 hexadecimal digits. -/
def hexDigest (message : List UInt8) : String := Hex.encode (digest message)

end Sessions.Sha256
