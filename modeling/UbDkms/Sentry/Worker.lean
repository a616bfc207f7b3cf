import UbDkms.Lib.Reach
import Mathlib.Tactic

/-!
# Workers for remote events

`sentry_remote_server.c`: `create_kworker_to_process_msg` drops a message whose
random id is that of the work pending for its node, and else marks the node and
queues a work item; the worker clears the mark when it has finished. A node
remembers one random id and one mark, both under `sentry_msg_info_mutex`.
-/

namespace UbDkms.Sentry

open Lib
open Function (update update_self update_of_ne)

/-- An entry of `node_msg_info`. -/
structure NodeMsgInfo where
  randomId : Nat := 0
  workPending : Bool := false

structure Event where
  nodeIdx : Nat
  randomId : Nat
  deriving DecidableEq

/-- A call of `create_kworker_to_process_msg` and the work item it makes. -/
inductive Job where
  | none
  | alloc (e : Event)
  | queue (e : Event)
  | undo (e : Event)
  | pending (e : Event)
  | executing (e : Event)
  deriving DecidableEq

structure Server where
  nodeMsgInfo : Nat → NodeMsgInfo := fun _ => {}
  jobs : Nat → Job := fun _ => .none

inductive ServerAct where
  | message (j : Nat) (e : Event) (timeout : Bool)
  | alloc (j : Nat) (ok : Bool)
  | queueWork (j : Nat) (ok : Bool)
  | undo (j : Nat)
  | start (j : Nat)
  | finish (j : Nat)

namespace Server

variable (s : Server)

def setJob (j : Nat) (x : Job) : Server := { s with jobs := update s.jobs j x }

def setInfo (n : Nat) (x : NodeMsgInfo) : Server :=
  { s with nodeMsgInfo := update s.nodeMsgInfo n x }

/-- `work_pending = false`. -/
def clearPending (n : Nat) : Server := s.setInfo n { s.nodeMsgInfo n with workPending := false }

/-- The first section of `create_kworker_to_process_msg` under the mutex. -/
def message (j : Nat) (e : Event) (timeout : Bool) : Server :=
  let info := s.nodeMsgInfo e.nodeIdx
  if info.randomId = e.randomId ∧ info.workPending = true then s
  else
    let s := s.setInfo e.nodeIdx ⟨e.randomId, true⟩
    if timeout then s.clearPending e.nodeIdx else s.setJob j (.alloc e)

def next (s : Server) : ServerAct → Server
  | .message j e timeout => if s.jobs j = .none then s.message j e timeout else s
  | .alloc j ok =>
    match s.jobs j with
    | .alloc e => s.setJob j (if ok then .queue e else .none)
    | _ => s
  | .queueWork j ok =>
    match s.jobs j with
    | .queue e => s.setJob j (if ok then .pending e else .undo e)
    | _ => s
  | .undo j =>
    match s.jobs j with
    | .undo e => (s.clearPending e.nodeIdx).setJob j .none
    | _ => s
  | .start j =>
    match s.jobs j with
    | .pending e => s.setJob j (.executing e)
    | _ => s
  | .finish j =>
    match s.jobs j with
    | .executing e => (s.clearPending e.nodeIdx).setJob j .none
    | _ => s

end Server

def Job.event : Job → Option Event
  | .none => Option.none
  | .alloc e | .queue e | .undo e | .pending e | .executing e => some e

def Job.work : Job → Option Event
  | .pending e | .executing e => some e
  | _ => Option.none

theorem Job.event_of_work {x : Job} {e : Event} (h : x.work = some e) : x.event = some e := by
  cases x <;> first | exact h | cases h

/-! ## One job for a node -/

/-- A marked node has the one job whose random id it remembers. -/
structure ServerOk (s : Server) : Prop where
  one : ∀ j k e f, (s.jobs j).event = some e → (s.jobs k).event = some f → e.nodeIdx = f.nodeIdx → j = k
  marked : ∀ j e, (s.jobs j).event = some e → (s.nodeMsgInfo e.nodeIdx).workPending = true
  busy : ∀ n, (s.nodeMsgInfo n).workPending = true → ∃ j e, (s.jobs j).event = some e ∧ e.nodeIdx = n

/-- Allocations succeed, and while a node is marked no message of it has another random id. -/
def ServerKept (s : Server) : ServerAct → Prop
  | .message _ e _ => (s.nodeMsgInfo e.nodeIdx).workPending = true →
      (s.nodeMsgInfo e.nodeIdx).randomId = e.randomId
  | .alloc _ ok => ok = true
  | _ => True

section Steps

variable {s : Server} {j : Nat} {e : Event} {x : Job}

theorem event_setJob_other {k : Nat} (h : k ≠ j) : (s.setJob j x).jobs k = s.jobs k :=
  update_of_ne h _ _

theorem event_setJob_self : (s.setJob j x).jobs j = x := update_self _ _ _

theorem ServerOk.step (h : ServerOk s) (hx : x.event = (s.jobs j).event) : ServerOk (s.setJob j x) := by
  have hev : ∀ k, ((s.setJob j x).jobs k).event = (s.jobs k).event := by
    intro k
    by_cases hk : k = j
    · rw [hk, event_setJob_self, hx]
    · rw [event_setJob_other hk]
  refine ⟨fun k l e f hk hl => ?_, fun k e hk => ?_, fun n hn => ?_⟩
  · rw [hev] at hk hl
    exact h.one k l e f hk hl
  · rw [hev] at hk
    exact h.marked k e hk
  · obtain ⟨k, e, hk, he⟩ := h.busy n hn
    exact ⟨k, e, (hev k).trans hk, he⟩

theorem ServerOk.endJob (h : ServerOk s) (hj : (s.jobs j).event = some e) :
    ServerOk ((s.clearPending e.nodeIdx).setJob j .none) := by
  have hother : ∀ k f, (((s.clearPending e.nodeIdx).setJob j .none).jobs k).event = some f →
      k ≠ j ∧ (s.jobs k).event = some f := by
    intro k f hk
    by_cases hkj : k = j
    · rw [hkj, event_setJob_self] at hk
      cases hk
    · rw [event_setJob_other hkj] at hk
      exact ⟨hkj, hk⟩
  refine ⟨fun k l f g hk hl => ?_, fun k f hk => ?_, fun n hn => ?_⟩
  · exact h.one k l f g (hother k f hk).2 (hother l g hl).2
  · obtain ⟨hkj, hk⟩ := hother k f hk
    have hne : f.nodeIdx ≠ e.nodeIdx := fun heq => hkj (h.one k j f e hk hj heq)
    change (update s.nodeMsgInfo e.nodeIdx _ f.nodeIdx).workPending = true
    rw [update_of_ne hne]
    exact h.marked k f hk
  · have hne : n ≠ e.nodeIdx := by
      rintro rfl
      change (update s.nodeMsgInfo e.nodeIdx _ e.nodeIdx).workPending = true at hn
      rw [update_self] at hn
      cases hn
    change (update s.nodeMsgInfo e.nodeIdx _ n).workPending = true at hn
    rw [update_of_ne hne] at hn
    obtain ⟨k, f, hk, hf⟩ := h.busy n hn
    have hkj : k ≠ j := by
      rintro rfl
      rw [hj] at hk
      cases hk
      exact hne hf.symm
    exact ⟨k, f, by rw [event_setJob_other hkj]; exact hk, hf⟩

theorem ServerOk.message {timeout : Bool} (h : ServerOk s) (hj : s.jobs j = .none)
    (hkept : ServerKept s (.message j e timeout)) : ServerOk (s.message j e timeout) := by
  dsimp only [Server.message]
  split
  · exact h
  next hdup =>
  -- the node was not marked, so it has no job
  have hfree : (s.nodeMsgInfo e.nodeIdx).workPending = false := by
    by_contra hp
    have hp : (s.nodeMsgInfo e.nodeIdx).workPending := by simpa using hp
    exact hdup ⟨hkept hp, hp⟩
  have hnone : ∀ k f, (s.jobs k).event = some f → f.nodeIdx ≠ e.nodeIdx := by
    intro k f hk heq
    have := h.marked k f hk
    rw [heq, hfree] at this
    cases this
  split
  · refine ⟨h.one, fun k f hk => ?_, fun n hn => h.busy n ?_⟩
    · change (update (update s.nodeMsgInfo e.nodeIdx _) e.nodeIdx _ f.nodeIdx).workPending = true
      rw [update_of_ne (hnone k f hk), update_of_ne (hnone k f hk)]
      exact h.marked k f hk
    change (update (update s.nodeMsgInfo e.nodeIdx _) e.nodeIdx _ n).workPending = true at hn
    by_cases hne : n = e.nodeIdx
    · rw [hne, update_self] at hn
      cases hn
    · rw [update_of_ne hne, update_of_ne hne] at hn
      exact hn
  have hold : ∀ k f, (((s.setInfo e.nodeIdx ⟨e.randomId, true⟩).setJob j (.alloc e)).jobs k).event = some f →
      k = j ∧ f = e ∨ k ≠ j ∧ (s.jobs k).event = some f := by
    intro k f hk
    by_cases hkj : k = j
    · rw [hkj, event_setJob_self] at hk
      cases hk
      exact .inl ⟨hkj, rfl⟩
    · rw [event_setJob_other hkj] at hk
      exact .inr ⟨hkj, hk⟩
  refine ⟨fun k l f g hk hl heq => ?_, fun k f hk => ?_, fun n hn => ?_⟩
  · rcases hold k f hk with ⟨hkj, hf⟩ | ⟨-, hk'⟩ <;> rcases hold l g hl with ⟨hlj, hg⟩ | ⟨-, hl'⟩
    · rw [hkj, hlj]
    · rw [hf] at heq
      exact absurd heq.symm (hnone l g hl')
    · rw [hg] at heq
      exact absurd heq (hnone k f hk')
    · exact h.one k l f g hk' hl' heq
  · change (update s.nodeMsgInfo e.nodeIdx _ f.nodeIdx).workPending = true
    rcases hold k f hk with ⟨-, rfl⟩ | ⟨-, hk⟩
    · rw [update_self]
    · rw [update_of_ne (hnone k f hk)]
      exact h.marked k f hk
  · change (update s.nodeMsgInfo e.nodeIdx _ n).workPending = true at hn
    by_cases hne : n = e.nodeIdx
    · exact ⟨j, e, by rw [event_setJob_self]; rfl, hne.symm⟩
    rw [update_of_ne hne] at hn
    obtain ⟨k, f, hk, hf⟩ := h.busy n hn
    have hkj : k ≠ j := by
      rintro rfl
      rw [hj] at hk
      cases hk
    exact ⟨k, f, by rw [event_setJob_other hkj]; exact hk, hf⟩

theorem ServerOk.next {a : ServerAct} (h : ServerOk s) (ha : ServerKept s a) : ServerOk (s.next a) := by
  unfold Server.next
  cases a with
  | message j e timeout =>
    dsimp only
    split
    · next hj => exact h.message hj ha
    · exact h
  | alloc j ok =>
    obtain rfl : ok = true := ha
    dsimp only
    split
    · next e hj => exact h.step (by rw [hj]; rfl)
    · exact h
  | queueWork j ok =>
    dsimp only
    split
    · next e hj =>
      refine h.step ?_
      rw [hj]
      cases ok <;> rfl
    · exact h
  | undo j | finish j =>
    dsimp only
    split
    · next e hj => exact h.endJob (by rw [hj]; rfl)
    · exact h
  | start j =>
    dsimp only
    split
    · next e hj => exact h.step (by rw [hj]; rfl)
    · exact h

end Steps

/-- In a run in which allocations succeed and no newer event of a node comes while one is in work,
an event has at most one work item, and a node is marked only while it has a job. -/
theorem worker_once {s : Server} (hs : Reach ServerKept Server.next {} s) :
    (∀ j k e, (s.jobs j).work = some e → (s.jobs k).work = some e → j = k) ∧
    ∀ n, (s.nodeMsgInfo n).workPending = true → ∃ j e, (s.jobs j).event = some e ∧ e.nodeIdx = n := by
  have h : ServerOk s := hs.invariant
    ⟨fun _ _ _ _ hk => (by cases hk), fun _ _ hk => (by cases hk), fun _ hn => (by cases hn)⟩
    fun _ _ h ha => h.next ha
  exact ⟨fun j k e hj hk => h.one j k e e (Job.event_of_work hj) (Job.event_of_work hk) rfl, h.busy⟩

def retransmitted : Server :=
  [.message 0 ⟨0, 7⟩ false, .alloc 0 true, .queueWork 0 true, .message 1 ⟨0, 7⟩ false].foldl Server.next {}

theorem worker_once_retransmitted : (retransmitted.jobs 0).work = some ⟨0, 7⟩ ∧
    (retransmitted.jobs 1).work = none ∧ (retransmitted.nodeMsgInfo 0).workPending = true := by
  have h := worker_once (s := retransmitted)
    (Reach.init.along ⟨nofun, rfl, trivial, fun _ => rfl, trivial⟩)
  have h0 : (retransmitted.jobs 0).work = some ⟨0, 7⟩ := rfl
  refine ⟨h0, ?_, rfl⟩
  cases h1 : (retransmitted.jobs 1).work with
  | none => rfl
  | some e =>
    have he : e = ⟨0, 7⟩ := by
      cases h1
    rw [he] at h1
    cases h.1 0 1 ⟨0, 7⟩ h0 h1

def stuck : Server := [.message 0 ⟨0, 7⟩ false, .alloc 0 false].foldl Server.next {}

/-- A newer event comes while an older one is in work, and the older worker clears the mark before
the newer event is retransmitted. -/
def overtaken : Server :=
  [.message 0 ⟨0, 7⟩ false, .alloc 0 true, .queueWork 0 true, .start 0,
   .message 1 ⟨0, 8⟩ false, .alloc 1 true, .queueWork 1 true, .finish 0,
   .message 2 ⟨0, 8⟩ false, .alloc 2 true, .queueWork 2 true].foldl Server.next {}

/-- The mark of the first is left with no job, and the newer event of the second has two items. -/
theorem worker_stuck_or_twice :
    (Reach (fun _ _ => True) Server.next {} stuck ∧ (stuck.nodeMsgInfo 0).workPending = true ∧
      ∀ j, stuck.jobs j = .none) ∧
    Reach (fun _ _ => True) Server.next {} overtaken ∧ (overtaken.jobs 1).work = some ⟨0, 8⟩ ∧
      (overtaken.jobs 2).work = some ⟨0, 8⟩ := by
  refine ⟨⟨.foldl _, rfl, fun j => ?_⟩, .foldl _, rfl, rfl⟩
  have hjobs : stuck.jobs = update (update (fun _ => .none) 0 (.alloc ⟨0, 7⟩)) 0 .none := rfl
  by_cases hj : j = 0
  · rw [hj]
    rfl
  · rw [hjobs, update_of_ne hj, update_of_ne hj]

end UbDkms.Sentry
