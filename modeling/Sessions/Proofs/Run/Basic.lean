import Mathlib.Logic.Function.Basic
import Sessions.Proofs.Changes
import Sessions.Proofs.Codec.BuiltIn
import Sessions.Proofs.Repository.Steps

/-!
# Runs of a repository

A repository over a store in memory, with one clock and with callers that hold records. Each
session is changed and saved through one record only, which its holder owns; what a look-up hands
out is looked at and dropped. Beside what the program has, a run remembers how each record was
last saved, which holder an id was made for, and what has happened to each id in the store.
-/

namespace Sessions

inductive Event where
  /-- A save wrote the record of a holder under it, with a deadline for the entry. -/
  | wrote (holder : Nat) (deadline : Option Time)
  /-- It was deleted, left by a save under a new id, or found idle. -/
  | removed

/-- What a log, latest event first, says last of an id. -/
def latestOf (log : List (Ident × Event)) (id : Ident) : Option Event :=
  (log.find? fun e => e.1 = id).map Prod.snd

/-- A repository, its clock and the records of its callers. -/
structure World where
  repo : Repository
  now : Time
  /-- The record of each holder. -/
  records : Nat → Option Session
  /-- The record of each holder as it was last saved. -/
  saved : Nat → Option Session
  /-- The holder that an id was made for. -/
  owner : Ident → Option Nat
  /-- What has happened to ids in the store, latest first. -/
  log : List (Ident × Event)

namespace World

def start (store : Store) (codec : Codec) (maxIdle : Duration) (indexable : List String)
    (rule : ChangeRule) (now : Time) : World where
  repo := ⟨store, codec, maxIdle, indexable, rule⟩
  now := now
  records _ := none
  saved _ := none
  owner _ := none
  log := []

def latest (w : World) (id : Ident) : Option Event := latestOf w.log id

def hold (w : World) (i : Nat) (s : Session) : World :=
  { w with records := Function.update w.records i (some s) }

def own (w : World) (i : Nat) (id : Ident) : World :=
  { w with owner := Function.update w.owner id (some i) }

def leaving (s : Session) : List (Ident × Event) :=
  match s.previous with
  | some previous => [(previous, .removed)]
  | none => []

/-- After a save of the holder's record `s` has succeeded: it was found idle and removed, or
written, or there was nothing to write. -/
def afterSave (w : World) (i : Nat) (s : Session) (r : Repository) (s' : Session) : World :=
  let w' := { w.hold i s' with repo := r }
  if s'.phase = .expired then { w' with log := (s.id, .removed) :: w.log }
  else
    let w' := { w' with saved := Function.update w.saved i (some s') }
    if s.hasDelta ∨ s.needsFullWrite then
      { w' with log := (s.id, .wrote i (r.store.deadlineOf s.id)) :: leaving s ++ w.log }
    else w'

/-- After a save of the holder's record `s` has failed without producing a payload. -/
def afterFailure (w : World) (i : Nat) (s : Session) (r : Repository) (s' : Session) : World :=
  { w.hold i s' with
    repo := r
    log := (if s.phase.isEnded then [] else leaving s) ++ w.log }

/-- Whether a look-up meets a stored session and does not give it out. -/
def findsIdle (w : World) (id : Ident) : Bool :=
  match (w.repo.store.get id w.now).2, (w.repo.find id w.now).2 with
  | some _, .ok none => true
  | _, _ => false

def afterFind (w : World) (id : Ident) : World :=
  { w with
    repo := (w.repo.find id w.now).1
    log := (if w.findsIdle id then [(id, .removed)] else []) ++ w.log }

end World

/-- One step of a run. New ids are made for one record each. A save succeeds or fails without
producing a payload; the clock never goes back. -/
inductive Step (limit : Nat) (w : World) : World → Prop
  | create {i id} (hheld : w.records i = none) (hid : isBlank id.text = false)
      (hfresh : w.owner id = none) :
      Step limit w ((w.hold i (w.repo.newSession id w.now)).own i id)
  | edit {i s} (hs : w.records i = some s) (e : Edit) (he : e.Fits limit) :
      Step limit w (w.hold i (e.apply w.now s))
  | rotate {i s id} (hs : w.records i = some s) (hid : isBlank id.text = false)
      (hfresh : w.owner id = none) : Step limit w ((w.hold i (s.rotate id)).own i id)
  | save {i s r s'} (hs : w.records i = some s)
      (hsave : w.repo.save s w.now = (r, s', .ok ())) : Step limit w (w.afterSave i s r s')
  | unsaved {i s r s' e} (hs : w.records i = some s)
      (hsave : w.repo.save s w.now = (r, s', .error e))
      (hnone : w.repo.NoPayload s) :
      Step limit w (w.afterFailure i s r s')
  | find (id : Ident) : Step limit w (w.afterFind id)
  | delete (id : Ident) :
      Step limit w { w with repo := w.repo.delete id, log := (id, .removed) :: w.log }
  | tick {later} (hle : w.now ≤ later) : Step limit w { w with now := later }

/-- The states of all runs of a repository that shares its codec with its store and compares
handles or counts every write. -/
inductive Reachable (c : Codec) (limit : Nat) : World → Prop
  | start (hook : Option Hook) (expiry : Option Expiry) (retention maxIdle : Duration)
      (indexable : List String) {rule : ChangeRule} (hrule : rule = .identity ∨ rule = .always)
      (now : Time) :
      Reachable c limit
        (.start (.create c hook expiry retention now) c maxIdle indexable rule now)
  | step {w w' : World} (h : Reachable c limit w) (hstep : Step limit w w') : Reachable c limit w'

end Sessions
