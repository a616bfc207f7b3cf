import UbDkms.Lib.Agents
import UbDkms.Lib.Reach
import Mathlib.Tactic

/-!
# Retransmission records

`ubmad_datapath.c`, `ub_mad.c`: a reliable message has an `ini_rtbuffer` and an
`msn_node` in the lists of its peer record (`tjetty`) and an `rt_work`, which the
node points to. The sender, the retry work and the handlers of acknowledgements and
responses free them; the record itself is counted by `kref`, and `ubmad_remove_tjetty`
drops the reference of the list. Each section under a lock, each allocation, free,
reference operation, post and queueing is one step.

A thread that touches or frees an object that is not there raises `fault`.
-/

namespace UbDkms.Ubcore

open Lib

inductive RtPc where
  -- `ubmad_do_post_send_reliable_data`
  | createBuffer | createNode | allocWork | publish | post | queue
  -- its error path
  | clearWork | freeWork | destroyNode | releaseBuffer
  -- its path when the work cannot be queued
  | dropBuffer | dropWork | dropNode
  -- `ubmad_process_conn_ack` and `ubmad_process_conn_resp`
  | find (resp : Bool) | unlinked (work : Bool) | cancel | cancelSync | freeTaken | releaseTaken
  | putEnd
  -- `ubmad_rt_work_handler`
  | look | repostGet | repost | repostPut (sent : Bool) | requeue
  | detach | releaseGet | release | releasePut | freeOwn
  deriving DecidableEq

/-- A thread at work on message `msg`; `tjetty` is the record it holds or last held a
reference to. -/
structure RtThread where
  msg : Nat
  tjetty : Nat
  pc : RtPc
  deriving DecidableEq

/-- A message, `(msn, msg_type)`: which of its objects are allocated, whether its node is in
the list of `gen` (its `tjetty`) and points to the work. -/
structure RtMsg where
  gen : Nat := 0
  used : Bool := false
  buf : Bool := false
  node : Bool := false
  listed : Bool := false
  nodeWork : Bool := false
  work : Bool := false
  rtCnt : Nat := 1
  queued : Bool := false
  posted : Bool := false
  acked : Bool := false
  gaveUp : Bool := false
  deriving DecidableEq

/-- The peer's records: `cur` is the one in `tjetty_hlist`. -/
structure RtSys where
  cur : Option Nat := none
  fresh : Nat := 0
  kref : Nat → Nat := fun _ => 0
  tjLive : Nat → Bool := fun _ => false
  msgs : Nat → RtMsg := fun _ => {}
  threads : List RtThread := []
  fault : Bool := false

inductive RtAct where
  | importJetty
  | removeTjetty
  | send (m : Nat)
  | recv (m : Nat) (resp : Bool)
  | run (m : Nat)
  | step (t : RtThread) (ok : Bool)

def RtPc.handler : RtPc → Bool
  | .look | .repostGet | .repost | .repostPut _ | .requeue | .detach => true
  | .releaseGet | .release | .releasePut | .freeOwn => true
  | _ => false

inductive RtNext where
  | go (pc : RtPc)
  | stop
  /-- `ubmad_get_tjetty`, then `found` with a reference or `missing` without. -/
  | get (found missing : RtPc)
  | put (pc : Option RtPc)

/-- A step: the message after it, whether every object touched was there, and what follows. -/
structure RtEffect where
  msg : RtMsg
  live : Bool
  next : RtNext

/-- What a thread sees apart from its message: whether its `tjetty` is the message's (`home`),
whether its own and the message's `tjetty` are allocated, whether the retry work of the message
runs, whether someone waits for that, `ubcore_max_retry_cnt`, and the outcome of what may fail. -/
structure RtEnv where
  home : Bool
  tj : Bool
  own : Bool
  handling : Bool
  syncing : Bool
  maxRetry : Nat
  ok : Bool

def RtPc.act (e : RtEnv) (x : RtMsg) : RtPc → RtEffect
  | .createBuffer =>
    if e.ok then ⟨{ x with buf := true }, e.tj, .go .createNode⟩ else ⟨x, e.tj, .go .putEnd⟩
  | .createNode =>
    if e.ok then ⟨{ x with node := true, listed := true }, e.tj, .go .allocWork⟩
    else ⟨x, e.tj, .go .releaseBuffer⟩
  | .allocWork =>
    if e.ok then ⟨{ x with work := true }, true, .go .publish⟩ else ⟨x, true, .go .destroyNode⟩
  | .publish => ⟨{ x with nodeWork := true }, e.tj && x.node && x.work, .go .post⟩
  | .post =>
    if e.ok then ⟨{ x with posted := true }, true, .go .queue⟩ else ⟨x, true, .go .clearWork⟩
  | .queue =>
    if x.listed && x.nodeWork then
      if e.ok then ⟨{ x with queued := true }, e.tj && x.node && x.work, .go .putEnd⟩
      else ⟨{ x with nodeWork := false, listed := false }, e.tj && x.node && x.work, .go .dropBuffer⟩
    else ⟨x, e.tj, .go .putEnd⟩
  | .clearWork => ⟨{ x with nodeWork := false }, e.tj && x.node, .go .freeWork⟩
  | .freeWork => ⟨{ x with work := false }, x.work, .go .destroyNode⟩
  | .destroyNode =>
    ⟨{ x with node := false, listed := false, nodeWork := false }, e.tj && x.node, .go .releaseBuffer⟩
  | .releaseBuffer => ⟨{ x with buf := x.buf && !e.home }, e.tj, .go .putEnd⟩
  | .dropBuffer => ⟨{ x with buf := x.buf && !e.home }, e.tj, .go .dropWork⟩
  | .dropWork => ⟨{ x with work := false }, x.work, .go .dropNode⟩
  | .dropNode => ⟨{ x with node := false }, x.node, .go .putEnd⟩
  | .find resp =>
    if x.listed && e.home then
      -- a response frees the node under the lock, an acknowledgement after it
      if resp then
        ⟨{ x with nodeWork := false, listed := false, acked := true, node := false }, e.tj && x.node,
          .go (if x.nodeWork then .cancel else .putEnd)⟩
      else
        ⟨{ x with nodeWork := false, listed := false, acked := true }, e.tj && x.node,
          .go (.unlinked x.nodeWork)⟩
    else ⟨x, e.tj, .go .putEnd⟩
  | .unlinked work => ⟨{ x with node := false }, x.node, .go (if work then .cancel else .putEnd)⟩
  | .cancel => ⟨{ x with queued := false }, x.work, .go .cancelSync⟩
  | .cancelSync => ⟨x, x.work, .go (if e.handling then .cancelSync else .freeTaken)⟩
  | .freeTaken => ⟨{ x with work := false }, x.work, .go .releaseTaken⟩
  | .releaseTaken => ⟨{ x with buf := x.buf && !e.home }, e.tj, .go .putEnd⟩
  | .putEnd => ⟨x, true, .put none⟩
  | .look =>
    if x.listed then ⟨x, e.own && x.node && x.work, .go .repostGet⟩ else ⟨x, e.own && x.work, .stop⟩
  | .repostGet => ⟨{ x with rtCnt := x.rtCnt + 1 }, x.work, .get .repost .detach⟩
  | .repost => ⟨x, e.tj && x.work, .go (.repostPut (e.ok && x.buf && e.home))⟩
  | .repostPut sent =>
    ⟨x, x.work, .put (some (if sent && x.rtCnt ≤ e.maxRetry then .requeue else .detach))⟩
  | .requeue =>
    if e.ok && !e.syncing then ⟨{ x with queued := true }, x.work, .stop⟩ else ⟨x, x.work, .go .detach⟩
  | .detach =>
    if x.listed && x.nodeWork then
      ⟨{ x with nodeWork := false, gaveUp := true }, e.own && x.node && x.work, .go .releaseGet⟩
    else ⟨x, e.own && x.work, .stop⟩
  | .releaseGet => ⟨x, x.work, .get .release .freeOwn⟩
  | .release => ⟨{ x with buf := x.buf && !e.home }, e.tj && x.work, .go .releasePut⟩
  | .releasePut => ⟨x, x.work, .put (some .freeOwn)⟩
  | .freeOwn => ⟨{ x with work := false }, x.work, .stop⟩

section Steps

variable (s : RtSys) (t : RtThread)

def setAt {α : Type} (f : Nat → α) (i : Nat) (v : α) (k : Nat) : α := if k = i then v else f k

/-- Message `m` becomes `x`, `news` are new threads, and the objects touched were there if
`live`. -/
def RtSys.set (m : Nat) (x : RtMsg) (news : List RtThread) (live : Bool) : RtSys :=
  { s with msgs := setAt s.msgs m x, threads := news ++ s.threads, fault := s.fault || !live }

/-- `ubmad_release_tjetty` for one message: buffers and nodes in its lists are freed, the works
are not. -/
def RtMsg.release (g : Nat) (x : RtMsg) : RtMsg :=
  if x.gen = g then
    { x with buf := false, node := x.node && !x.listed, listed := false, nodeWork := false }
  else x

def RtSys.ref (g : Nat) : RtSys := { s with kref := setAt s.kref g (s.kref g + 1) }

/-- `ubmad_put_tjetty`. -/
def RtSys.put (g : Nat) : RtSys :=
  if s.kref g = 1 then
    { s with kref := setAt s.kref g 0, tjLive := setAt s.tjLive g false,
             msgs := fun m => (s.msgs m).release g, fault := s.fault || !s.tjLive g }
  else { s with kref := setAt s.kref g (s.kref g - 1), fault := s.fault || !s.tjLive g }

def RtSys.env (maxRetry : Nat) (ok : Bool) : RtEnv where
  home := (s.msgs t.msg).gen = t.tjetty
  tj := s.tjLive t.tjetty
  own := s.tjLive (s.msgs t.msg).gen
  handling := s.threads.any fun u => u.msg = t.msg && u.pc.handler
  syncing := s.threads.any fun u => u.msg = t.msg && u.pc = .cancelSync
  maxRetry := maxRetry
  ok := ok

/-- A step of thread `t`, which is not among `s.threads`. -/
def RtSys.exec (maxRetry : Nat) (ok : Bool) : RtSys :=
  let e := t.pc.act (s.env t maxRetry ok) (s.msgs t.msg)
  match e.next with
  | .go pc => s.set t.msg e.msg [⟨t.msg, t.tjetty, pc⟩] e.live
  | .stop => s.set t.msg e.msg [] e.live
  | .get found missing =>
    match s.cur with
    | none => s.set t.msg e.msg [⟨t.msg, t.tjetty, missing⟩] e.live
    | some g => (s.ref g).set t.msg e.msg [⟨t.msg, g, found⟩] e.live
  | .put none => (s.set t.msg e.msg [] e.live).put t.tjetty
  | .put (some pc) => (s.set t.msg e.msg [⟨t.msg, t.tjetty, pc⟩] e.live).put t.tjetty

def RtSys.next (maxRetry : Nat) : RtAct → RtSys
  | .importJetty =>
    if s.cur = none then
      { s with cur := some s.fresh, fresh := s.fresh + 1, kref := setAt s.kref s.fresh 1,
               tjLive := setAt s.tjLive s.fresh true }
    else s
  | .removeTjetty =>
    match s.cur with
    | none => s
    | some g => { s with cur := none }.put g
  | .send m =>
    match s.cur with
    | none => s
    | some g =>
      if (s.msgs m).used then s
      else (s.ref g).set m { gen := g, used := true } [⟨m, g, .createBuffer⟩] true
  | .recv m resp =>
    match s.cur with
    | none => s
    | some g =>
      if (s.msgs m).posted then (s.ref g).set m (s.msgs m) [⟨m, g, .find resp⟩] true else s
  | .run m =>
    if (s.msgs m).queued && !s.threads.any fun u => u.msg = m && u.pc.handler then
      s.set m { s.msgs m with queued := false } [⟨m, 0, .look⟩] true
    else s
  | .step t ok =>
    if t ∈ s.threads then { s with threads := s.threads.erase t }.exec t maxRetry ok else s

end Steps

end UbDkms.Ubcore
