import UbDkms.Lib.Agents
import UbDkms.Lib.Reach
import Mathlib.Tactic

/-!
# Completion events of uburma

`uburma_event.c`, `uburma_cmd.c`: completion events are queued on the event queue (JFCE)
and on the list of their JFC; waiters take them off both lists under the queue's lock and
deliver them to user space afterwards; deleting a JFC drops its queued events and returns
how many were reported. Every section under the spinlock is a step, and so is each of the
unlocked checks between them. An event is named by the number of its allocation.
-/

namespace UbDkms.Uburma

open Lib

/-- `struct uburma_jfe_event`; `counter` is that of its JFC. -/
structure JfeEvent where
  id : Nat
  jfc : Nat
  deriving DecidableEq, Repr

/-- Where a call of `uburma_jfce_wait` is: `timed` for `uburma_wait_event_timeout`. -/
inductive JfceWait where
  | waiting (timed : Bool)
  | took (timed : Bool) (evs : List JfeEvent)
  | out (evs : List JfeEvent)
  deriving DecidableEq, Repr

def JfceWait.evs : JfceWait → List JfeEvent
  | .waiting _ => []
  | .took _ l => l
  | .out l => l

inductive DelPc where
  | sample (todo : List Nat)
  | remove
  | release (todo : List Nat)
  deriving DecidableEq, Repr

/-- A call that deletes JFCs: one, or a batch. `acc` is the sum of the counters that a
batch has read, `ok` says that the driver deleted all of them. -/
structure JfcDel where
  jfcs : List Nat
  batch : Bool
  pc : DelPc
  acc : Nat := 0
  ok : Bool := true
  deriving DecidableEq, Repr

/-- A deletion that succeeded, and `comp_events_reported` as it returned it. -/
structure JfcDeleted where
  jfcs : List Nat
  reported : Nat
  deriving DecidableEq, Repr

/-- `UBURMA_RELEASE_EVENT_BATCH`. -/
def releaseEventBatch : Nat := 1000

/-- The event queue, its JFCs, and the calls in progress. `closed` are the JFCs the driver
deleted; `freed` and `delivered` record what happened to events. -/
structure Jfce where
  eventList : List JfeEvent := []
  compEventList : Nat → List JfeEvent := fun _ => []
  compEventsReported : Nat → Nat := fun _ => 0
  deleting : Bool := false
  closed : Nat → Bool := fun _ => false
  next : Nat := 0
  waits : List JfceWait := []
  dels : List JfcDel := []
  freed : List JfeEvent := []
  delivered : List JfeEvent := []
  deleted : List JfcDeleted := []

namespace Jfce

/-- `list_del` of the `obj_node` of some events. -/
def unlink (s : Jfce) (evs : List JfeEvent) : Nat → List JfeEvent :=
  fun j => (s.compEventList j).filter (· ∉ evs)

/-- `uburma_write_event_with_free_fn`, as `uburma_jfce_handler` calls it. -/
def writeEvent (s : Jfce) (j : Nat) (allocOk : Bool) : Jfce :=
  if s.deleting then s
  else if !allocOk then s
  else
    let e : JfeEvent := ⟨s.next, j⟩
    { s with
      eventList := s.eventList ++ [e]
      compEventList := Function.update s.compEventList j (s.compEventList j ++ [e])
      next := s.next + 1 }

/-- `uburma_read_jfe_event`. -/
def readJfeEvent (s : Jfce) (n : Nat) (timed : Bool) (eventCnt : Nat) : Jfce :=
  let evs := s.eventList.take eventCnt
  { s with
    eventList := s.eventList.drop eventCnt
    compEventList := s.unlink evs
    compEventsReported := fun j => (s.compEventsReported j + evs.countP (·.jfc = j)) % 2 ^ 32
    waits := s.waits.set n (.took timed evs) }

/-- What follows the read. A waiter with a timeout looks at `deleting` first and returns
`-EIO`; without an event it waits on, unless `ends` says that the time is over or a signal
came. The other waiter goes on with what it has. -/
def afterRead (s : Jfce) (n : Nat) (timed : Bool) (evs : List JfeEvent) (ends : Bool) : Jfce :=
  if timed then
    if s.deleting then { s with waits := s.waits.eraseIdx n }
    else if evs = [] then
      if ends then { s with waits := s.waits.eraseIdx n }
      else { s with waits := s.waits.set n (.waiting true) }
    else { s with waits := s.waits.set n (.out evs) }
  else { s with waits := s.waits.set n (.out evs) }

/-- The end of `uburma_jfce_wait`: the events are freed and copied out; `ok` is the result
of `uburma_event_tlv_append`. -/
def deliver (s : Jfce) (n : Nat) (evs : List JfeEvent) (ok : Bool) : Jfce :=
  { s with
    waits := s.waits.eraseIdx n
    freed := s.freed ++ evs
    delivered := if ok then s.delivered ++ evs else s.delivered }

/-- A locked section of `uburma_uninit_jfe`. -/
def uninitJfe (s : Jfce) : Jfce :=
  let evs := s.eventList.take releaseEventBatch
  { s with
    eventList := s.eventList.drop releaseEventBatch
    compEventList := s.unlink evs
    freed := s.freed ++ evs }

/-- A locked section of `uburma_release_comp_event`. -/
def releaseCompEvent (s : Jfce) (j : Nat) : Jfce :=
  let evs := (s.compEventList j).take releaseEventBatch
  { s with
    eventList := s.eventList.filter (· ∉ evs)
    compEventList := s.unlink evs
    freed := s.freed ++ evs }

/-- A step of a deletion; `gone` is how many of the JFCs the driver deleted before it
failed, if it did. -/
def delStep (s : Jfce) (n : Nat) (d : JfcDel) (gone : Option Nat) : Jfce :=
  match d.pc with
  | .sample [] => { s with dels := s.dels.set n { d with pc := .remove } }
  | .sample (j :: todo) =>
    { s with
      dels := s.dels.set n
        { d with pc := .sample todo, acc := (d.acc + s.compEventsReported j) % 2 ^ 32 } }
  | .remove =>
    match gone with
    | none =>
      { s with
        closed := fun j => decide (j ∈ d.jfcs) || s.closed j
        dels := s.dels.set n { d with pc := .release d.jfcs } }
    | some k =>
      -- a single deletion drops the queued events also when it fails
      { s with
        closed := fun j => decide (d.batch = true ∧ j ∈ d.jfcs.take k) || s.closed j
        dels := s.dels.set n
          { d with pc := .release (if d.batch then d.jfcs.take k else d.jfcs), ok := false } }
  | .release (j :: todo) =>
    if s.compEventList j = [] then
      { s with dels := s.dels.set n { d with pc := .release todo } }
    else s.releaseCompEvent j
  | .release [] =>
    let reported :=
      if d.batch then d.acc else (d.jfcs.map s.compEventsReported).sum % 2 ^ 32
    { s with
      dels := s.dels.eraseIdx n
      deleted := if d.ok then s.deleted ++ [⟨d.jfcs, reported⟩] else s.deleted }

end Jfce

inductive EventAct where
  | write (j : Nat) (allocOk : Bool)
  | wait (timed : Bool)
  | read (n eventCnt : Nat)
  | afterRead (n : Nat) (ends : Bool)
  | leave (n : Nat)
  | deliver (n : Nat) (ok : Bool)
  | unplug
  | uninit
  | delete (j : Nat)
  | deleteBatch (js : List Nat)
  | del (n : Nat) (gone : Option Nat)

def Jfce.act (s : Jfce) : EventAct → Jfce
  | .write j allocOk => if s.closed j then s else s.writeEvent j allocOk
  | .wait timed => { s with waits := s.waits ++ [.waiting timed] }
  | .read n eventCnt =>
    match s.waits[n]? with
    | some (.waiting timed) => s.readJfeEvent n timed eventCnt
    | _ => s
  | .afterRead n ends =>
    match s.waits[n]? with
    | some (.took timed evs) => s.afterRead n timed evs ends
    | _ => s
  | .leave n =>
    match s.waits[n]? with
    | some (.waiting _) => { s with waits := s.waits.eraseIdx n }
    | _ => s
  | .deliver n ok =>
    match s.waits[n]? with
    | some (.out evs) => s.deliver n evs ok
    | _ => s
  | .unplug => { s with deleting := true }
  | .uninit => if s.deleting then s.uninitJfe else s
  | .delete j => { s with dels := s.dels ++ [⟨[j], false, .remove, 0, true⟩] }
  | .deleteBatch js => { s with dels := s.dels ++ [⟨js, true, .sample js, 0, true⟩] }
  | .del n gone =>
    match s.dels[n]? with
    | some d => s.delStep n d gone
    | none => s

end UbDkms.Uburma
