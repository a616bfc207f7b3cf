import UbDkms.Lib.Reach

/-!
# Message queue of the HiSilicon bus driver

`vendor/hisilicon/msg.c`: `hi_message_sync` takes a message number (`msn`), submits a
request and polls the completion ring for the response with that number; on a timeout it
leaves a record. Interrupt, timer and timeout pollers mark entries of the ring handled,
and `hi_msg_cq_update` releases the numbers of handled responses. Positions in the ring
do not wrap here; entry and state are found at the position modulo the depth. `live`
lists the requests submitted and not yet released.
-/

namespace UbDkms.Ubus.HiMsg

inductive Task where
  | msg
  | enum
  | priv
  deriving DecidableEq, Repr

/-- Where a call of `hi_message_sync` is. -/
inductive Phase where
  | idle
  | read (find : Nat)
  | got
  | waiting
  | found (idx : Nat)
  | done
  | timedOut
  | noMem
  | failed
  deriving DecidableEq, Repr

/-- A call; `answer` is the payload of the hardware's response and `result` the one it
returned with `0`. -/
structure Req where
  task : Task := .msg
  phase : Phase := .idle
  msn : Nat := 0
  answer : Option Nat := none
  result : Option Nat := none
  deriving DecidableEq, Repr

def Req.submitted (r : Req) : Bool :=
  match r.phase with
  | .waiting | .found _ | .done | .timedOut | .noMem => true
  | _ => false

def Req.active (r : Req) : Bool :=
  match r.phase with
  | .waiting | .found _ => true
  | _ => false

/-- `struct hi_msg_cqe`, with the request a response belongs to. -/
structure Cqe where
  task : Task := .msg
  /-- The type is `MSG_RSP`. -/
  rsp : Bool := false
  msn : Nat := 0
  payload : Nat := 0
  req : Nat := 0
  deriving DecidableEq, Repr

def Cqe.isRsp (c : Cqe) : Bool := c.task != .msg || c.rsp

/-- `struct timeout_msg_info`, with the request it was left for. -/
structure Rec where
  task : Task
  msn : Nat
  age : Nat := 0
  req : Nat
  deriving DecidableEq, Repr

/-- `struct hi_message_device`. -/
structure Hmd where
  bits : Task → Nat → Bool := fun _ _ => false
  next : Task → Nat := fun _ => 0
  cnt : Int := 0
  cqe : Nat → Cqe := fun _ => {}
  /-- The state of an entry is `CQ_SW_HANDLED`. -/
  handled : Nat → Bool := fun _ => false
  age : Nat → Nat := fun _ => 0
  ci : Nat := 0
  /-- The register `CQ_PI`, and `cq->pi`. -/
  pi : Nat := 0
  swPi : Nat := 0
  records : List Rec := []
  req : Nat → Req := fun _ => {}
  live : List Nat := []

/-- `find_next_zero_bit`. -/
def findNextZeroBit (b : Nat → Bool) (size start : Nat) : Nat :=
  ((List.range' start (size - start)).find? fun i => !b i).getD size

/-- The bit `hi_msn_get` finds from `find` on. -/
def msnFind (b : Nat → Bool) (find : Nat) : Option Nat :=
  if b find then
    let f := findNextZeroBit b 65535 find
    if f = 65535 then
      let f := findNextZeroBit b find 0
      if f = find then none else some f
    else some f
  else some find

namespace Hmd

def setReq (s : Hmd) (id : Nat) (r : Req) : Hmd := { s with req := Function.update s.req id r }

/-- `hi_msn_put`. -/
def msnPut (s : Hmd) (t : Task) (m : Nat) : Hmd :=
  { s with bits := fun t' b => if m ≠ 0 ∧ t' = t ∧ b = m - 1 then false else s.bits t' b }

def release (s : Hmd) (t : Task) (m id : Nat) : Hmd :=
  { s.msnPut t m with cnt := s.cnt - 1, live := s.live.erase id }

/-- `cqe_state_set`. -/
def cqeStateSet (s : Hmd) (idx : Nat) (handled : Bool) : Hmd :=
  { s with handled := Function.update s.handled idx handled, age := Function.update s.age idx 0 }

/-- The call reads `msn[type]`, before it takes the lock. -/
def start (s : Hmd) (id : Nat) (t : Task) : Hmd :=
  match (s.req id).phase with
  | .idle => s.setReq id { task := t, phase := .read (s.next t) }
  | _ => s

/-- `hi_msn_get`. -/
def msnGet (s : Hmd) (id : Nat) : Hmd :=
  let r := s.req id
  match r.phase with
  | .read find => match msnFind (s.bits r.task) find with
    | none => s.setReq id { r with phase := .failed }
    | some i =>
      { s with
        bits := fun t b => if t = r.task ∧ b = i then true else s.bits t b
        next := Function.update s.next r.task ((i + 1) % 65535) }.setReq id
        { r with phase := .got, msn := i + 1 }
  | _ => s

/-- `hi_msg_sq_submit` and, when it fails, the end of the call; `room` says that the
hardware has taken enough of the submission queue. -/
def sqSubmit (s : Hmd) (id : Nat) (room : Bool) : Hmd :=
  let r := s.req id
  match r.phase with
  | .got =>
    if room ∧ s.cnt < 1023 then
      { s.setReq id { r with phase := .waiting } with cnt := s.cnt + 1, live := s.live ++ [id] }
    else (s.setReq id { r with phase := .failed }).msnPut r.task r.msn
  | _ => s

/-- A completion is the response `hi_msg_cq_poll` looks for. -/
def Matches (s : Hmd) (t : Task) (m i : Nat) : Bool :=
  let c := s.cqe ((s.ci + i) % 1024)
  c.msn == m && c.task == t && c.isRsp

/-- `hi_msg_cq_poll` of a call. -/
def cqPoll (s : Hmd) (id : Nat) : Hmd :=
  let r := s.req id
  match r.phase with
  | .waiting =>
    let s := { s with swPi := s.pi }
    match (List.range (s.pi - s.ci)).find? (s.Matches r.task r.msn) with
    | none => s
    | some i => s.setReq id { r with phase := .found ((s.ci + i) % 1024) }
  | _ => s

/-- The end of `hi_msg_sync_wait` after the time, and of the call. -/
def waitTimeout (s : Hmd) (id : Nat) (noMem : Bool) : Hmd :=
  let r := s.req id
  match r.phase with
  | .waiting =>
    if noMem then (s.setReq id { r with phase := .noMem }).msnPut r.task r.msn
    else
      { s.setReq id { r with phase := .timedOut } with
        records := s.records ++ [{ task := r.task, msn := r.msn, req := id }] }
  | _ => s

/-- The end of `hi_message_sync` with a completion; `ok` is the verdict of
`hi_message_cqe_check`. -/
def finish (s : Hmd) (id : Nat) (ok : Bool) : Hmd :=
  let r := s.req id
  match r.phase with
  | .found idx =>
    (s.setReq id { r with
      phase := .done
      result := if ok then some (s.cqe idx).payload else none }).cqeStateSet idx true
  | _ => s

/-- The loop of `hi_msg_cq_update`, `n` entries left. -/
def cqUpdateLoop : Nat → Hmd → Hmd
  | 0, s => s
  | n + 1, s =>
    let idx := s.ci % 1024
    let c := s.cqe idx
    if s.handled idx then
      let s' := { s.cqeStateSet idx false with ci := s.ci + 1 }
      cqUpdateLoop n (if c.isRsp then s'.release c.task c.msn c.req else s')
    else s

/-- `hi_msg_cq_update`. -/
def cqUpdate (s : Hmd) : Hmd := cqUpdateLoop (s.swPi - s.ci) s

/-- The loop of `hi_msg_cq_poller` from position `p` on. -/
def cqPollerLoop : Nat → Nat → Nat → Hmd → Hmd
  | 0, _, _, s => s
  | n + 1, p, handledCnt, s =>
    let idx := p % 1024
    if s.handled idx || (s.cqe idx).isRsp then cqPollerLoop n (p + 1) handledCnt s
    else
      let s := s.cqeStateSet idx true
      if handledCnt + 1 = 64 then s else cqPollerLoop n (p + 1) (handledCnt + 1) s

/-- `hi_msg_cq_poller`. -/
def cqPoller (s : Hmd) : Hmd := cqPollerLoop (s.pi - s.ci) s.ci 0 { s with swPi := s.pi }

/-- The loop of `hi_timeout_msg_ageing`; the records passed are in `records` again. -/
def ageingLoop : List Rec → Hmd → Hmd
  | [], s => s
  | r :: l, s =>
    if 2 ≤ r.age then ageingLoop l (s.release r.task r.msn r.req)
    else ageingLoop l { s with records := s.records ++ [{ r with age := r.age + 1 }] }

/-- `hi_timeout_msg_ageing`. -/
def timeoutMsgAgeing (s : Hmd) : Hmd := ageingLoop s.records { s with records := [] }

/-- `hi_cqe_ageing`. -/
def cqeAgeing (s : Hmd) (idx : Nat) : Hmd × Bool :=
  if s.handled idx then (s, false)
  else if s.age idx < 2 then ({ s with age := Function.update s.age idx (s.age idx + 1) }, false)
  else (s, true)

/-- The record `hi_is_timeout_msg` finds for an entry. -/
def timeoutMsg (s : Hmd) (idx : Nat) : Option Rec :=
  let c := s.cqe idx
  s.records.find? fun r => c.msn == r.msn && c.task == r.task && c.isRsp

/-- `hi_cqe_ageing(..) || hi_is_timeout_msg(..)`, and the state set when it holds. -/
def timeoutEntry (s : Hmd) (idx : Nat) : Hmd × Bool :=
  match s.cqeAgeing idx with
  | (s, true) => (s.cqeStateSet idx true, true)
  | (s, false) => match s.timeoutMsg idx with
    | none => (s, false)
    | some r => ({ s with records := s.records.erase r }.cqeStateSet idx true, true)

/-- The loop of `hi_msg_timeout_poller` from position `p` on. -/
def timeoutPollerLoop : Nat → Nat → Nat → Hmd → Hmd
  | 0, _, _, s => s
  | n + 1, p, handledCnt, s =>
    match s.timeoutEntry (p % 1024) with
    | (s, false) => timeoutPollerLoop n (p + 1) handledCnt s
    | (s, true) => if handledCnt + 1 = 64 then s else timeoutPollerLoop n (p + 1) (handledCnt + 1) s

/-- `hi_msg_timeout_poller`. -/
def timeoutPoller (s : Hmd) : Hmd :=
  timeoutPollerLoop (s.pi - s.ci) s.ci 0 { s with swPi := s.pi }.timeoutMsgAgeing

def hwPush (s : Hmd) (c : Cqe) : Hmd :=
  { s with cqe := Function.update s.cqe (s.pi % 1024) c, pi := s.pi + 1 }

def hwAnswer (s : Hmd) (id payload : Nat) : Hmd :=
  let r := s.req id
  (s.setReq id { r with answer := some payload }).hwPush
    { task := r.task, rsp := true, msn := r.msn, payload, req := id }

end Hmd

inductive Act where
  | start (id : Nat) (t : Task)
  | msnGet (id : Nat)
  | sqSubmit (id : Nat) (room : Bool)
  | cqPoll (id : Nat)
  | waitTimeout (id : Nat) (noMem : Bool)
  | finish (id : Nat) (ok : Bool)
  | cqUpdate
  | cqPoller
  | timeoutPoller
  | hwAnswer (id payload : Nat)
  | hwRequest (msn payload : Nat)
  deriving DecidableEq, Repr

def act (s : Hmd) : Act → Hmd
  | .start id t => s.start id t
  | .msnGet id => s.msnGet id
  | .sqSubmit id room => s.sqSubmit id room
  | .cqPoll id => s.cqPoll id
  | .waitTimeout id noMem => s.waitTimeout id noMem
  | .finish id ok => s.finish id ok
  | .cqUpdate => s.cqUpdate
  | .cqPoller => s.cqPoller
  | .timeoutPoller => s.timeoutPoller
  | .hwAnswer id payload => s.hwAnswer id payload
  | .hwRequest msn payload => s.hwPush { msn, payload }

/-- The hardware answers what was submitted once and into a free entry, and a call that
found its completion handles it before the entry ages. -/
def Env (s : Hmd) : Act → Prop
  | .hwAnswer id _ => (s.req id).submitted = true ∧ (s.req id).answer = none ∧ s.pi < s.ci + 1023
  | .hwRequest _ _ => s.pi < s.ci + 1023
  | .timeoutPoller => ∀ id idx, (s.req id).phase = .found idx → s.handled idx = true ∨ s.age idx < 2
  | _ => True

end UbDkms.Ubus.HiMsg
