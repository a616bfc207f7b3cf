import UbDkms.Lib.Reach

/-!
# The command queue of several producers

`ummu_mcmdq_issue_cmdlist` of `queue.c`: a CPU reserves slots with a `cmpxchg` of
`prod` and `cons`, writes its commands, marks them in the valid map, and, as an
owner, publishes all that was gathered since. A step is one atomic operation, one
register access or one write of an entry.

Positions are counted without wrapping. The code sees the index and the wrap bit of
a position, so that it compares positions modulo twice the number of slots.
-/

namespace UbDkms.Ummu

open Lib

/-- A command of a caller, or the `CMD_SYNC` behind them. -/
inductive Cmd where
  | cmd (word : Nat)
  | sync
  deriving DecidableEq

/-! ## Words -/

section Words

variable (N : Nat)

/-- `Q_IDX`. -/
def qIdx (p : Nat) : Nat := p % N

/-- `Q_WRP`. -/
def qWrp (p : Nat) : Bool := p / N % 2 = 1

def sameWord (p q : Nat) : Bool := p % (2 * N) = q % (2 * N)

def ummuQueueHasSpace (prod cons n : Nat) : Bool :=
  n ≤ if qWrp N prod = qWrp N cons then N - (qIdx N prod - qIdx N cons) else qIdx N cons - qIdx N prod

def ummuQueueFull (prod cons : Nat) : Bool :=
  qIdx N prod = qIdx N cons && qWrp N prod != qWrp N cons

def ummuQueueConsumed (cons prod : Nat) : Bool :=
  (qWrp N cons == qWrp N prod && decide (qIdx N prod < qIdx N cons)) ||
  (qWrp N cons != qWrp N prod && decide (qIdx N cons ≤ qIdx N prod))

/-- `BITS_PER_LONG`. -/
def bitsPerLong : Nat := 64

/-- `limit` of `ummu_mcmdq_poll_set_valid_map`, at `llq.prod = p`. -/
def mapLimit (p eprod : Nat) : Nat :=
  if qIdx N p / bitsPerLong = qIdx N eprod / bitsPerLong ∧
      qIdx N p % bitsPerLong < qIdx N eprod % bitsPerLong then
    qIdx N eprod % bitsPerLong
  else bitsPerLong

/-- How far one round of `ummu_mcmdq_poll_set_valid_map` goes. -/
def mapRound (p eprod : Nat) : Nat := mapLimit N p eprod - qIdx N p % bitsPerLong

end Words

/-! ## Calls -/

inductive McPc where
  | idle
  | load
  | reserve (prod cons : Nat) (owned : Bool)
  | exclRead
  | exclWrite (cons : Nat)
  | exclUnlock
  | spin
  | write (i : Nat)
  | lock
  | mark (p : Nat)
  | waitOwner
  | clear
  | poll (p prod : Nat)
  | publish (prod : Nat)
  | tell (prod : Nat)
  | syncLoad
  | consumed (cons : Nat)
  | msi
  | tryUnlock (cons : Nat)
  | writeCons (cons : Nat)
  | unlock
  deriving DecidableEq

/-- A CPU and its call of `ummu_mcmdq_issue_cmdlist`. -/
structure McCpu where
  cmds : List Nat := []
  sync : Bool := false
  sprod : Nat := 0
  owner : Bool := false
  pc : McPc := .idle

/-- `lock`: the number of its holders, or `INT_MIN` and the increments of those who wait. -/
inductive McLock where
  | shared (n : Nat)
  | exclusive
  deriving DecidableEq

/-- `struct ummu_mcmdq` and the registers of the hardware; `issued` are the calls in the order
of their `cmpxchg` and `consumed` is what the hardware read. -/
structure Mcmdq where
  prod : Nat := 0
  cons : Nat := 0
  owned : Bool := false
  lock : McLock := .shared 0
  validMap : Nat → Bool := fun _ => false
  entries : Nat → Option Cmd := fun _ => none
  ownerProd : Nat := 0
  prodReg : Nat := 0
  consReg : Nat := 0
  cpus : Nat → McCpu := fun _ => {}
  issued : List (List Cmd) := []
  consumed : List (Option Cmd) := []

namespace McCpu

variable (c : McCpu)

/-- The commands of the call, with its `CMD_SYNC`. -/
def all : List Cmd := c.cmds.map .cmd ++ if c.sync then [.sync] else []

def eprod : Nat := c.sprod + c.all.length

/-- The place of the `CMD_SYNC`. -/
def syncProd : Nat := c.sprod + c.cmds.length

def syncPc (msi : Bool) : McPc := if c.sync then (if msi then .msi else .syncLoad) else .idle

def markPc (N : Nat) (msi : Bool) (p : Nat) : McPc :=
  if sameWord N p c.eprod then (if c.owner then .waitOwner else c.syncPc msi) else .mark p

def writePc (N : Nat) (msi : Bool) (i : Nat) : McPc :=
  if i < c.all.length then .write i else if c.sync then .lock else c.markPc N msi c.sprod

def pollPc (N p prod : Nat) : McPc := if sameWord N p prod then .publish prod else .poll p prod

end McCpu

namespace Mcmdq

variable (s : Mcmdq)

def goto (i : Nat) (pc : McPc) : Mcmdq :=
  { s with cpus := Function.update s.cpus i { s.cpus i with pc } }

def inRound (N p eprod x : Nat) : Bool :=
  decide (qIdx N p ≤ x) && decide (x < qIdx N p + mapRound N p eprod)

/-- One step of CPU `i`; `late` says that a poll has timed out, and `msi` is `UMMU_OPT_MSIPOLL`. -/
def step (N : Nat) (msi : Bool) (i : Nat) (late : Bool) : Mcmdq :=
  let c := s.cpus i
  match c.pc with
  | .idle => s
  | .load => s.goto i (.reserve s.prod s.cons s.owned)
  | .reserve prod cons owned =>
    if ummuQueueHasSpace N prod cons c.all.length then
      if sameWord N prod s.prod && sameWord N cons s.cons && owned == s.owned then
        let c := { c with sprod := s.prod, owner := !owned }
        { s with
          prod := s.prod + c.all.length, owned := true, issued := s.issued ++ [c.all]
          cpus := Function.update s.cpus i { c with pc := c.writePc N msi 0 } }
      else s.goto i (.reserve s.prod s.cons s.owned)
    -- `ummu_mcmdq_poll_until_not_full`
    else if s.lock = .shared 0 then { s.goto i .exclRead with lock := .exclusive }
    else s.goto i .spin
  | .exclRead => s.goto i (.exclWrite s.consReg)
  | .exclWrite cons => { s.goto i .exclUnlock with cons }
  | .exclUnlock => { s.goto i .load with lock := .shared 0 }
  | .spin =>
    if ummuQueueFull N s.prod s.cons && !late then s else s.goto i (.reserve s.prod s.cons s.owned)
  | .write j =>
    { s.goto i (c.writePc N msi (j + 1)) with
      entries := Function.update s.entries (qIdx N (c.sprod + j)) c.all[j]? }
  | .lock =>
    match s.lock with
    | .shared n => { s.goto i (c.markPc N msi c.sprod) with lock := .shared (n + 1) }
    | .exclusive => s
  | .mark p =>
    { s.goto i (c.markPc N msi (p + mapRound N p c.eprod)) with
      validMap := fun x => xor (s.validMap x) (inRound N p c.eprod x) }
  | .waitOwner => if sameWord N s.ownerProd c.sprod then s.goto i .clear else s
  | .clear => { s.goto i (McCpu.pollPc N c.sprod s.prod) with owned := false }
  | .poll p prod =>
    if (List.range (mapRound N p prod)).all fun b => s.validMap (qIdx N p + b) == !qWrp N p then
      s.goto i (McCpu.pollPc N (p + mapRound N p prod) prod)
    else s
  | .publish prod => { s.goto i (.tell prod) with prodReg := prod }
  | .tell prod => { s.goto i (c.syncPc msi) with ownerProd := prod }
  | .syncLoad => s.goto i (.consumed s.cons)
  | .consumed cons =>
    if ummuQueueConsumed N cons c.syncProd then s.goto i (.tryUnlock cons)
    else if late then s.goto i (.tryUnlock s.consReg) else s.goto i (.consumed s.consReg)
  | .msi =>
    if s.entries (qIdx N c.syncProd) = none then s.goto i (.tryUnlock (c.syncProd + 1))
    else if late then s.goto i (.tryUnlock s.consReg) else s
  | .tryUnlock cons => if s.lock = .shared 1 then s.goto i (.writeCons cons) else s.goto i .unlock
  | .writeCons cons => { s.goto i .unlock with cons }
  | .unlock =>
    match s.lock with
    | .shared n => { s.goto i .idle with lock := .shared (n - 1) }
    | .exclusive => s

/-- The hardware reads an entry; for a `CMD_SYNC` it may write back to it. -/
def consume (N : Nat) (msi : Bool) : Mcmdq :=
  if sameWord N s.consReg s.prodReg then s
  else
    let x := qIdx N s.consReg
    { s with
      consReg := s.consReg + 1, consumed := s.consumed ++ [s.entries x]
      entries := if msi && s.entries x = some .sync then Function.update s.entries x none else s.entries }

end Mcmdq

inductive McAct where
  | call (i : Nat) (cmds : List Nat) (sync : Bool)
  | step (i : Nat) (late : Bool)
  | consume

def Mcmdq.next (N : Nat) (msi : Bool) (s : Mcmdq) : McAct → Mcmdq
  | .call i cmds sync =>
    if (s.cpus i).pc = .idle then
      { s with cpus := Function.update s.cpus i { cmds, sync, pc := .load } }
    else s
  | .step i late => s.step N msi i late
  | .consume => s.consume N msi

end UbDkms.Ummu
