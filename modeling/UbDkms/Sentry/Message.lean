import UbDkms.Lib.Reach
import Mathlib.Data.List.Perm.Basic
import Mathlib.Data.List.Nodup
import Mathlib.Tactic

/-!
# The message helper

`smh_message.c`: senders put handles into a fifo, one reader thread takes them out for
user space and sleeps while there are none, user space acknowledges what it has got,
and the senders collect the acknowledgements. A handle wanders from the fifo to the
list of messages to acknowledge, from there to the list of acknowledged ones, and is
freed on the way out of any of them.

A section under one lock is one step. A message is expired or not each time it is
looked at. The wait queue has room for the reader alone.
-/

namespace UbDkms.Sentry

open Lib List

/-- `struct smh_msg_handler`, with the fields of its message that decide anything. -/
structure Handle where
  msgid : Nat
  ack : Bool
  res : Nat

/-- A call of a sender or of user space, with the handle it has in hand. -/
inductive Call where
  | idle
  | sendIn (h : Nat)
  | sendCheck
  | sendWake
  | ackHold (h msgid res : Nat)
  | getHold (h msgid : Nat)

def Call.handle : Call → List Nat
  | .sendIn h => [h]
  | .ackHold h _ _ => [h]
  | .getHold h _ => [h]
  | _ => []

/-- Where the reader is in `smh_message_get`. -/
inductive ReaderPc where
  | idle
  | out
  | add
  | set
  | sched
  | got (h : Nat)
  | recover (h : Nat)
  | done (h : Nat)
deriving DecidableEq

def ReaderPc.handle : ReaderPc → List Nat
  | .got h => [h]
  | .recover h => [h]
  | .done h => [h]
  | _ => []

structure Smh where
  heap : Nat → Handle := fun _ => ⟨0, false, 0⟩
  next : Nat := 0
  msgbufSend : List Nat := []
  msgbufAck : List Nat := []
  msgbufGet : List Nat := []
  freed : List Nat := []
  calls : Nat → Call := fun _ => .idle
  reader : ReaderPc := .idle
  queued : Bool := false
  interruptible : Bool := false
  signal : Bool := false
  /-- The acknowledgements that found their message, and what `smh_message_get_ack` reported. -/
  acks : List (Nat × Nat) := []
  got : List (Nat × Nat) := []

/-- The walk of `FIND_AND_REMOVE_TIMEOUT_FROM_LIST`: what stays, what expired, what was found. -/
def findAndRemove (heap : Nat → Handle) (expired : Nat → Bool) (msgid : Nat) :
    List Nat → List Nat × List Nat × Option Nat
  | [] => ([], [], none)
  | h :: l =>
    if expired h then
      let r := findAndRemove heap expired msgid l
      (r.1, h :: r.2.1, r.2.2)
    else if (heap h).msgid = msgid then (l, [], some h)
    else
      let r := findAndRemove heap expired msgid l
      (h :: r.1, r.2.1, r.2.2)

inductive SmhAct where
  | send (j msgid : Nat) (ack allocated : Bool)
  | ack (j msgid res : Nat) (expired : Nat → Bool)
  | getAck (j msgid : Nat) (expired : Nat → Bool)
  | step (j : Nat)
  | get
  | readerStep (bad : Bool)
  | signal

namespace Smh

def setCall (s : Smh) (j : Nat) (c : Call) : Smh := { s with calls := Function.update s.calls j c }

/-- `smh_message_send` up to the fifo. -/
def send (s : Smh) (j msgid : Nat) (ack allocated : Bool) : Smh :=
  if msgid = 0 then s
  else if allocated = false then s
  else
    { s with
      heap := Function.update s.heap s.next ⟨msgid, ack, 0⟩
      next := s.next + 1
      calls := Function.update s.calls j (.sendIn s.next) }

/-- `smh_message_ack` up to the search's end. -/
def smhMessageAck (s : Smh) (j msgid res : Nat) (expired : Nat → Bool) : Smh :=
  let r := findAndRemove s.heap expired msgid s.msgbufAck
  let s := { s with msgbufAck := r.1, freed := r.2.1 ++ s.freed }
  match r.2.2 with
  | none => s
  | some h => { s.setCall j (.ackHold h msgid res) with acks := (msgid, res) :: s.acks }

/-- `smh_message_get_ack` up to the search's end. -/
def smhMessageGetAck (s : Smh) (j msgid : Nat) (expired : Nat → Bool) : Smh :=
  let r := findAndRemove s.heap expired msgid s.msgbufGet
  let s := { s with msgbufGet := r.1, freed := r.2.1 ++ s.freed }
  match r.2.2 with
  | none => s
  | some h => s.setCall j (.getHold h msgid)

/-- `wake_up` takes a sleeping reader out of the queue. -/
def wakeUp (s : Smh) : Smh :=
  if s.queued = true ∧ s.interruptible = true then { s with queued := false, interruptible := false } else s

def stepCall (cap : Nat) (s : Smh) (j : Nat) : Smh :=
  match s.calls j with
  | .idle => s
  | .sendIn h =>
    if s.msgbufSend.length < cap then { s.setCall j .sendCheck with msgbufSend := s.msgbufSend ++ [h] }
    else { s.setCall j .idle with freed := h :: s.freed }
  | .sendCheck => s.setCall j (if s.queued then .sendWake else .idle)
  | .sendWake => s.wakeUp.setCall j .idle
  | .ackHold h _ res =>
    { s.setCall j .idle with
      heap := Function.update s.heap h { s.heap h with res }
      msgbufGet := s.msgbufGet ++ [h] }
  | .getHold h msgid =>
    { s.setCall j .idle with freed := h :: s.freed, got := (msgid, (s.heap h).res) :: s.got }

def stepReader (cap : Nat) (s : Smh) (bad : Bool) : Smh :=
  match s.reader with
  | .idle => s
  | .out =>
    match s.msgbufSend with
    | [] => { s with reader := .add }
    | h :: l =>
      if bad then { s with msgbufSend := l, freed := h :: s.freed }
      else { s with msgbufSend := l, reader := .got h }
  | .add => { s with reader := .set, queued := true }
  | .set => { s with reader := .sched, interruptible := true }
  | .sched =>
    -- `schedule` returns once the reader was woken up, or has a signal
    if s.interruptible = true ∧ s.signal = false then s
    else
      { s with
        queued := false, interruptible := false, signal := false
        reader := if s.signal then .idle else .out }
  | .got h => { s with reader := if bad then .recover h else .done h }
  | .recover h =>
    if s.msgbufSend.length < cap then { s with reader := .idle, msgbufSend := s.msgbufSend ++ [h] }
    else { s with reader := .idle, freed := h :: s.freed }
  | .done h =>
    if (s.heap h).ack then
      if s.msgbufAck.any fun x => decide ((s.heap x).msgid = (s.heap h).msgid)
      then { s with reader := .idle, freed := h :: s.freed }
      else { s with reader := .idle, msgbufAck := s.msgbufAck ++ [h] }
    else { s with reader := .idle, freed := h :: s.freed }

def act (cap : Nat) (s : Smh) : SmhAct → Smh
  | .send j msgid ack allocated =>
    match s.calls j with
    | .idle => s.send j msgid ack allocated
    | _ => s
  | .ack j msgid res expired =>
    match s.calls j with
    | .idle => s.smhMessageAck j msgid res expired
    | _ => s
  | .getAck j msgid expired =>
    match s.calls j with
    | .idle => s.smhMessageGetAck j msgid expired
    | _ => s
  | .step j => s.stepCall cap j
  | .get =>
    -- another process would be refused while the queue is active
    if s.reader = .idle ∧ s.queued = false then { s with reader := .out } else s
  | .readerStep bad => s.stepReader cap bad
  | .signal => { s with signal := true }

def Asleep (s : Smh) : Prop := s.reader = .sched ∧ s.interruptible = true ∧ s.signal = false

def Waking (s : Smh) : Prop := ∃ j, s.calls j = .sendWake ∨ s.calls j = .sendCheck ∧ s.queued = true

end Smh

/-! ## Where a handle is -/

inductive Place where
  | fifo
  | ackList
  | getList
  | freed
  | reader
  | call (j : Nat)
deriving DecidableEq

def Smh.box (s : Smh) : Place → List Nat
  | .fifo => s.msgbufSend
  | .ackList => s.msgbufAck
  | .getList => s.msgbufGet
  | .freed => s.freed
  | .reader => s.reader.handle
  | .call j => (s.calls j).handle

/-- Every allocated handle is at one place, once; `loc` says where. -/
structure Placed (s : Smh) (loc : Nat → Option Place) : Prop where
  nodup : ∀ p, (s.box p).Nodup
  mem : ∀ p h, h ∈ s.box p ↔ loc h = some p
  fresh : ∀ h, loc h = none ↔ s.next ≤ h

section Placed

variable {s s' : Smh} {loc : Nat → Option Place} {p q : Place} {h : Nat}

theorem Placed.move (hp : Placed s loc) (s' : Smh) (hs : List Nat) (hne : p ≠ q)
    (hfrom : (s.box p).Perm (hs ++ s'.box p)) (hto : (s'.box q).Perm (hs ++ s.box q))
    (hother : ∀ r, r ≠ p → r ≠ q → s'.box r = s.box r) (hn : s'.next = s.next) : ∃ loc', Placed s' loc' := by
  have hat : ∀ x, x ∈ hs → loc x = some p := fun x hx =>
    (hp.mem p x).mp (hfrom.mem_iff.mpr (mem_append_left _ hx))
  have hnd := (hfrom.nodup_iff.mp (hp.nodup p))
  obtain ⟨hnd1, hnd2, hdisj⟩ := nodup_append'.mp hnd
  refine ⟨fun x => if x ∈ hs then some q else loc x, fun r => ?_, fun r x => ?_, fun x => ?_⟩
  · by_cases hrp : r = p
    · exact hrp ▸ hnd2
    by_cases hrq : r = q
    · subst hrq
      refine hto.nodup_iff.mpr (nodup_append'.mpr ⟨hnd1, hp.nodup r, fun x hx hx' => ?_⟩)
      have := (hat x hx).symm.trans ((hp.mem r x).mp hx')
      exact hne (Option.some.inj this)
    · rw [hother r hrp hrq]
      exact hp.nodup r
  · by_cases hx : x ∈ hs
    · simp only [if_pos hx, Option.some.injEq]
      constructor
      · intro hr
        by_contra hne'
        by_cases hrp : r = p
        · exact hdisj hx (hrp ▸ hr)
        rw [hother r hrp (fun h => hne' h.symm)] at hr
        have := (hat x hx).symm.trans ((hp.mem r x).mp hr)
        exact hrp (Option.some.inj this).symm
      · intro hr
        exact hr ▸ hto.mem_iff.mpr (mem_append_left _ hx)
    simp only [if_neg hx]
    rw [← hp.mem]
    by_cases hrp : r = p
    · subst hrp
      rw [hfrom.mem_iff, mem_append]
      exact ⟨.inr, fun h => h.resolve_left hx⟩
    by_cases hrq : r = q
    · subst hrq
      rw [hto.mem_iff, mem_append]
      exact ⟨fun h => h.resolve_left hx, .inr⟩
    · rw [hother r hrp hrq]
  · by_cases hx : x ∈ hs
    · simp only [if_pos hx, reduceCtorEq, false_iff]
      rw [hn, ← hp.fresh, hat x hx]
      exact Option.some_ne_none p
    · simp only [if_neg hx]
      rw [hn, hp.fresh]

theorem Placed.keep (hp : Placed s loc) (hbox : ∀ r, s'.box r = s.box r) (hn : s'.next = s.next) :
    Placed s' loc where
  nodup r := by
    rw [hbox]
    exact hp.nodup r
  mem r x := by
    rw [hbox]
    exact hp.mem r x
  fresh x := by
    rw [hn]
    exact hp.fresh x

theorem Placed.unique (hp : Placed s loc) (h1 : h ∈ s.box p) (h2 : h ∈ s.box q) : p = q :=
  Option.some.inj (((hp.mem p h).mp h1).symm.trans ((hp.mem q h).mp h2))

theorem findAndRemove_perm (heap : Nat → Handle) (expired : Nat → Bool) (msgid : Nat) (l : List Nat) :
    l.Perm ((findAndRemove heap expired msgid l).2.1 ++
      ((findAndRemove heap expired msgid l).2.2.toList ++ (findAndRemove heap expired msgid l).1)) := by
  induction l with
  | nil => exact .nil
  | cons h l ih =>
    unfold findAndRemove
    split
    · exact .cons h ih
    split
    · exact .refl _
    refine (List.Perm.cons h ih).trans ?_
    dsimp only
    rw [← append_assoc, ← append_assoc]
    exact perm_middle.symm

theorem findAndRemove_msgid {heap : Nat → Handle} {expired : Nat → Bool} {msgid : Nat} (l : List Nat)
    (hf : (findAndRemove heap expired msgid l).2.2 = some h) : (heap h).msgid = msgid := by
  induction l with
  | nil => cases hf
  | cons x l ih =>
    unfold findAndRemove at hf
    split at hf
    · exact ih hf
    split at hf
    · next hx =>
      cases hf
      exact hx
    · exact ih hf

end Placed

end UbDkms.Sentry
