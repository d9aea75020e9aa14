import Sessions.Codec.Binary
import Sessions.Codec.Portable

/-!
# Chains of codecs

A chain asks its members in order, and the first that claims a record or a payload wins. What a
member has put into the sink before it declined is cut off again; a fault ends the search.
-/

namespace Sessions.Codec

/-- Writes with the first member that does not decline. -/
def writeFirst (write : Codec → Session → Bytes → Writing) :
    List Codec → Session → Bytes → Writing
  | [], s, sink => ⟨s, sink, .ok false⟩
  | c :: rest, s, sink =>
    let w := write c s sink
    match w.outcome with
    | .ok false => writeFirst write rest w.session (w.sink.take sink.length)
    | _ => w

/-- Reads with the first member that claims the payload. -/
def readFirst : List Codec → Bytes → Except Fault (Option Session)
  | [], _ => .ok none
  | c :: rest, payload =>
    match c.read payload with
    | .ok none => readFirst rest payload
    | found => found

/-- Merges with the first member that understands the delta. -/
def mergeFirst : List Codec → Session → Bytes → Session × Except Fault Bool
  | [], s, _ => (s, .ok false)
  | c :: rest, s, payload =>
    match c.merge s payload with
    | (s, .ok false) => mergeFirst rest s payload
    | merged => merged

/-- The kinds of all members, each at its first place. -/
def unionKinds (members : List Codec) : List Kind :=
  (members.flatMap (·.kinds)).foldl (fun ks k => if ks.contains k then ks else ks ++ [k]) []

/-- The codecs of a list as one, with the tag of the first. -/
def chain (members : List Codec) : Codec where
  tag := (members.head?.map (·.tag)).getD 0
  kinds := unionKinds members
  accepts := fun header => members.any (·.accepts header)
  writeFull := writeFirst (·.writeFull) members
  write := writeFirst (·.write) members
  read := readFirst members
  merge := mergeFirst members

/-- No codec for an empty list, the codec itself for a list of one, and else a chain. -/
def compose : List Codec → Option Codec
  | [] => none
  | [c] => some c
  | cs => some (chain cs)

end Sessions.Codec
