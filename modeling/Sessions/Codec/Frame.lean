import Sessions.Wire

/-!
# Frames

Every payload starts with five bytes: the type tag of the codec that wrote it and a marker that
says whether the rest is a whole record of some kind or a delta.
-/

namespace Sessions

/-- What follows the header of a payload. -/
inductive Frame where
  /-- A whole record of the given kind. -/
  | full (kind : Kind)
  /-- Changes to a record that is stored elsewhere. -/
  | delta
  deriving DecidableEq

namespace Frame

/-- The byte that stands for a frame. -/
def marker : Frame → UInt8
  | full .plain => 0
  | full .deltaCapable => 1
  | delta => 2

/-- The frame that a byte stands for. -/
def ofMarker (b : UInt8) : Except Fault Frame :=
  if b = 0 then .ok (.full .plain)
  else if b = 1 then .ok (.full .deltaCapable)
  else if b = 2 then .ok .delta
  else .error (.unknownFrame b)

end Frame

/-- The first bytes of a payload. -/
structure Header where
  tag : Int32
  frame : Frame
  deriving DecidableEq

namespace Header

/-- Bytes of a header. -/
def size : Nat := 5

def write (h : Header) : Bytes := Wire.putInt32 h.tag ++ [h.frame.marker]

/-- The header at the front of a payload. -/
def read (payload : Bytes) : Except Fault Header := do
  let (tag, rest) ← Wire.takeInt32 "type tag" payload
  let (marker, _) ← Wire.takeByte "frame marker" rest
  let frame ← Frame.ofMarker marker
  .ok ⟨tag, frame⟩

def isDelta (h : Header) : Bool := h.frame = .delta

end Header

end Sessions
