import UbDkms.Lib.Agents
import UbDkms.Lib.Reach
import Mathlib.Tactic

/-!
# Reusable channels

`ubcore_connect_adapter.c` on one node: the table of reusable tpids. An import looks its
key up and reuses the entry it finds, or makes a new one; the peer's create, is-ref and
destroy requests look up the same entries. An entry counts the imports that use it,
remembers that the peer refers to it, and is freed by the call that takes it from
`READY` to `ERROR`, or by the one that made it and failed.

Calls are agents, and each import that succeeded is one until it is disconnected. A
section under one lock is one step, with its outcome as a flag.
-/

namespace UbDkms.Ubcore

open Lib

inductive ReuseState where
  | reset
  | ready
  | error
deriving DecidableEq

inductive Tpid where
  | none
  | live
  | deleted
  | left
deriving DecidableEq

/-- `struct ubcore_tpid_reuse`. -/
structure ReuseEntry where
  key : Nat := 0
  useCnt : Int := 0
  isRef : Bool := false
  reuseState : ReuseState := .reset
  /-- `tp_handle.value` is not zero. -/
  tpHandle : Bool := false
  tpHandleValid : Bool := false
  refCnt : Nat := 1
  tpid : Tpid := .none
  freed : Bool := false
  reported : Bool := false

/-- What follows a `kref_put`. -/
inductive AfterPut where
  | done
  | use
  | user
deriving DecidableEq

inductive Closing where
  | importErr
  | createErr
  | disconnect
  | destroy
deriving DecidableEq

inductive ReusePc where
  /-- `ubcore_import_jfr_compat`: the lookup, with the key to try if the first is not there. -/
  | find (key : Nat) (fallback : Option Nat)
  | alloc (key : Nat)
  | add (e : Nat)
  | fill (e : Nat)
  | exchange (e : Nat)
  | importNew (e : Nat)
  | reuse (e : Nat)
  | isref (e : Nat)
  | put (e : Nat) (after : AfterPut)
  | importEx (e : Nat)
  | dec (e : Nat)
  | user (e : Nat)
  | freeNew (e : Nat)
  /-- `handle_create_req_with_tpid_reuse`. -/
  | createFind (key : Nat) (fallback : Option Nat)
  | createAlloc (key : Nat)
  | createAdd (e : Nat)
  | createFill (e : Nat)
  | createModify (e : Nat)
  | target (e : Nat)
  /-- `handle_destroy_req_with_tpid_reuse`. -/
  | destroyFind (key : Nat) (fallback : Option Nat)
  | destroy (e : Nat)
  /-- `handle_isref_req`. -/
  | isrefFind (key : Nat) (fallback : Option Nat)
  | isrefWait (e : Nat)
  | isrefSend (e : Nat)
  | rmv (e : Nat) (why : Closing)
  | setErr (e : Nat)
  | modify (e : Nat) (why : Closing)
  | putFree (e : Nat)
  | free (e : Nat)
  | dropBase (e : Nat)
  | wait (e : Nat)
deriving DecidableEq

structure ReuseNode where
  entries : Nat → ReuseEntry := fun _ => {}
  next : Nat := 0
  table : Nat → Option Nat := fun _ => none
  calls : List ReusePc := []
  fault : Bool := false

inductive ReuseAct where
  | importJfr (key : Nat) (fallback : Option Nat)
  | createReq (key : Nat) (fallback : Option Nat)
  | destroyReq (key : Nat) (fallback : Option Nat)
  | isrefReq (key : Nat) (fallback : Option Nat)
  | step (n : Nat) (ok : Bool)
  | disconnect (n : Nat) (ok : Bool)

namespace ReusePc

def entry : ReusePc → Option Nat
  | .find .. => none
  | .alloc .. => none
  | .createFind .. => none
  | .createAlloc .. => none
  | .destroyFind .. => none
  | .isrefFind .. => none
  | .add e => some e
  | .fill e => some e
  | .exchange e => some e
  | .importNew e => some e
  | .reuse e => some e
  | .isref e => some e
  | .put e _ => some e
  | .importEx e => some e
  | .dec e => some e
  | .user e => some e
  | .freeNew e => some e
  | .createAdd e => some e
  | .createFill e => some e
  | .createModify e => some e
  | .target e => some e
  | .destroy e => some e
  | .isrefWait e => some e
  | .isrefSend e => some e
  | .rmv e _ => some e
  | .setErr e => some e
  | .modify e _ => some e
  | .putFree e => some e
  | .free e => some e
  | .dropBase e => some e
  | .wait e => some e

/-- The next step of the call uses the tpid of the entry. -/
def usesTpid (x : ReuseEntry) : ReusePc → Bool
  | .exchange _ => true
  | .importNew _ => true
  | .importEx _ => true
  | .createModify _ => true
  | .target _ => decide (x.reuseState = .reset) && x.tpHandle
  | .modify .. => true
  | .free _ => decide (x.useCnt ≤ 0) && x.tpHandleValid
  | _ => false

end ReusePc

namespace ReuseNode

def setEntry (s : ReuseNode) (e : Nat) (x : ReuseEntry) : ReuseNode :=
  { s with entries := Function.update s.entries e x }

/-- `ubcore_create_tpid_reuse`. -/
def newEntry (s : ReuseNode) (key : Nat) : ReuseNode :=
  { s with entries := Function.update s.entries s.next { key }, next := s.next + 1 }

/-- `ubcore_find_get_tpid_reuse` with the second key, and what follows if the entry is found. -/
def lookup (s : ReuseNode) (key : Nat) (fallback : Option Nat) (again : Nat → ReusePc) (found : Nat → ReusePc)
    (missing : List ReusePc) : ReuseNode × List ReusePc :=
  match s.table key with
  | some e => (s.setEntry e { s.entries e with refCnt := (s.entries e).refCnt + 1 }, [found e])
  | none =>
    match fallback with
    | some key => (s, [again key])
    | none => (s, missing)

/-- `ubcore_find_add_tpid_reuse`; an entry that is there already makes the new one useless. -/
def findAdd (s : ReuseNode) (e : Nat) (found added : Nat → ReusePc) : ReuseNode × List ReusePc :=
  let x := s.entries e
  match s.table x.key with
  | some y => (s.setEntry y { s.entries y with refCnt := (s.entries y).refCnt + 1 }, [found y, .freeNew e])
  | none =>
    ({ s.setEntry e { x with refCnt := x.refCnt + 1 } with table := Function.update s.table x.key (some e) },
      [added e])

def run (s : ReuseNode) (pc : ReusePc) (ok : Bool) : ReuseNode × List ReusePc :=
  match pc with
  | .find key fallback =>
    s.lookup key fallback (fun k => .find k none) .reuse [.alloc key]
  | .alloc key => if ok then (s.newEntry key, [.add s.next]) else (s, [])
  | .add e => s.findAdd e .reuse .fill
  | .fill e =>
    let x := s.entries e
    if ok then (s.setEntry e { x with tpid := .live, tpHandle := true, tpHandleValid := true }, [.exchange e])
    else (s, [.rmv e .importErr])
  | .exchange e => (s, if ok then [.importNew e] else [.rmv e .importErr])
  | .importNew e =>
    let x := s.entries e
    if ok then
      (s.setEntry e { x with useCnt := x.useCnt + 1, reuseState := .ready, reported := false },
        [.put e .user])
    else (s, [.rmv e .importErr])
  | .reuse e =>
    let x := s.entries e
    match x.reuseState with
    | .ready =>
      (s.setEntry e { x with useCnt := x.useCnt + 1, reported := false },
        if x.useCnt = 0 ∧ x.isRef = true then [.isref e] else [.put e .use])
    -- the wait for the entry ends some time
    | .reset => (s, if ok then [.reuse e] else [.put e .done])
    | .error => (s, [.put e .done])
  | .isref e =>
    let x := s.entries e
    if ok then (s, [.put e .use])
    else (s.setEntry e { x with useCnt := x.useCnt - 1, reported := true }, [.put e .done])
  | .put e after =>
    let x := s.entries e
    (s.setEntry e { x with refCnt := x.refCnt - 1 },
      match after with
      | .done => []
      | .use => [.importEx e]
      | .user => [.user e])
  | .importEx e => (s, if ok then [.user e] else [.dec e])
  | .dec e =>
    let x := s.entries e
    (s.setEntry e { x with useCnt := x.useCnt - 1, reported := true }, [])
  | .user e => (s, [.user e])
  | .freeNew e =>
    let x := s.entries e
    if x.refCnt = 1 then (s.setEntry e { x with refCnt := 0, freed := true }, []) else (s, [.freeNew e])
  | .createFind key fallback =>
    s.lookup key fallback (fun k => .createFind k none) .target [.createAlloc key]
  | .createAlloc key => if ok then (s.newEntry key, [.createAdd s.next]) else (s, [])
  | .createAdd e => s.findAdd e .target .createFill
  | .createFill e =>
    let x := s.entries e
    if ok then (s.setEntry e { x with tpid := .live }, [.createModify e]) else (s, [.rmv e .createErr])
  | .createModify e =>
    let x := s.entries e
    if ok then
      (s.setEntry e { x with tpHandle := true, tpHandleValid := true, isRef := true, reuseState := .ready },
        [.put e .done])
    else
      (s.setEntry e { x with tpHandle := true, tpHandleValid := true, reuseState := .error },
        [.rmv e .createErr])
  | .target e =>
    let x := s.entries e
    match x.reuseState with
    | .ready => (s.setEntry e { x with isRef := true }, [.put e .done])
    | .reset =>
      if x.tpHandle then
        if ok then (s.setEntry e { x with isRef := true }, [.put e .done])
        else (s.setEntry e { x with reuseState := .error }, [.put e .done])
      else (s, if ok then [.target e] else [.put e .done])
    | .error => (s, [.put e .done])
  | .destroyFind key fallback =>
    s.lookup key fallback (fun k => .destroyFind k none) .destroy []
  | .destroy e =>
    let x := s.entries e
    if x.isRef = false then (s, [.put e .done])
    else if 0 < x.useCnt ∨ x.reuseState ≠ .ready then (s.setEntry e { x with isRef := false }, [.put e .done])
    else (s.setEntry e { x with isRef := false, reuseState := .error }, [.rmv e .destroy])
  | .isrefFind key fallback =>
    s.lookup key fallback (fun k => .isrefFind k none) .isrefWait []
  | .isrefWait e =>
    let x := s.entries e
    if 0 < x.useCnt then (s.setEntry e { x with isRef := true }, [.isrefSend e])
    else if x.reuseState = .error then (s.setEntry e { x with isRef := false }, [.isrefSend e])
    else (s, if ok then [.isrefWait e] else [.isrefSend e])
  | .isrefSend e =>
    let x := s.entries e
    if ok then (s, [.put e .done]) else (s.setEntry e { x with isRef := false }, [.put e .done])
  | .rmv e why =>
    let x := s.entries e
    ({ s with table := if s.table x.key = some e then Function.update s.table x.key none else s.table },
      match why with
      | .importErr => [.setErr e]
      | .createErr => [.putFree e]
      | why => [.modify e why])
  | .setErr e =>
    let x := s.entries e
    (s.setEntry e { x with reuseState := .error, reported := true }, [.putFree e])
  | .modify e why =>
    let x := s.entries e
    match why with
    | .destroy => (s, if ok then [.putFree e] else [.put e .done])
    | _ => if ok then (s, [.free e]) else (s.setEntry e { x with reported := true }, [])
  | .putFree e =>
    let x := s.entries e
    (s.setEntry e { x with refCnt := x.refCnt - 1 }, [.free e])
  | .free e =>
    let x := s.entries e
    if 0 < x.useCnt then (s, [])
    else if x.tpHandleValid then
      (s.setEntry e { x with tpid := if ok then .deleted else .left, tpHandleValid := false }, [.dropBase e])
    else (s, [.dropBase e])
  | .dropBase e =>
    let x := s.entries e
    (s.setEntry e { x with refCnt := x.refCnt - 1 }, [.wait e])
  | .wait e =>
    let x := s.entries e
    if x.refCnt = 0 then (s.setEntry e { x with freed := true }, []) else (s, [.wait e])

/-- The section of `ubcore_disconnect_tpid_with_tpid_reuse`. -/
def disconnect (s : ReuseNode) (e : Nat) (ok : Bool) : ReuseNode × List ReusePc :=
  let x := s.entries e
  if x.reuseState = .error then (s, [])
  else if 0 < x.useCnt - 1 then (s.setEntry e { x with useCnt := x.useCnt - 1, reported := false }, [])
  else if ok = false then (s, [.user e])
  else if x.isRef then (s.setEntry e { x with useCnt := x.useCnt - 1, reported := false }, [])
  else
    (s.setEntry e { x with useCnt := x.useCnt - 1, reuseState := .error, reported := false },
      [.rmv e .disconnect])

def check (s : ReuseNode) (pc : ReusePc) : ReuseNode :=
  match pc.entry with
  | none => s
  | some e =>
    if (s.entries e).freed = true ∨ pc.usesTpid (s.entries e) = true ∧ (s.entries e).tpid ≠ .live
    then { s with fault := true } else s

def act (s : ReuseNode) : ReuseAct → ReuseNode
  | .importJfr key fallback => { s with calls := s.calls ++ [.find key fallback] }
  | .createReq key fallback => { s with calls := s.calls ++ [.createFind key fallback] }
  | .destroyReq key fallback => { s with calls := s.calls ++ [.destroyFind key fallback] }
  | .isrefReq key fallback => { s with calls := s.calls ++ [.isrefFind key fallback] }
  | .step n ok =>
    match s.calls[n]? with
    | none => s
    | some pc =>
      let r := (s.check pc).run pc ok
      { r.1 with calls := s.calls.eraseIdx n ++ r.2 }
  | .disconnect n ok =>
    match s.calls[n]? with
    | some (.user e) =>
      let r := (s.check (.user e)).disconnect e ok
      { r.1 with calls := s.calls.eraseIdx n ++ r.2 }
    | _ => s

end ReuseNode

end UbDkms.Ubcore
