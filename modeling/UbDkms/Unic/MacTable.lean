import UbDkms.Unic.IpTable

/-!
# MAC addresses of a UNIC device

`unic_mac.c` and `unic_comm_addr.c`: requests change the state of nodes under the lock;
a sync round takes the nodes to delete out of the list and copies those to add, sends
the commands without the lock and merges the outcome. A deactivation deletes what the
hardware has in the same way. The model is the list of one type with its part of the
hardware table; the other list shares the table-change flag only, which `setBit` sets.
`wanted` are the addresses whose last request was an addition; a change of the device
address deletes the old one and adds the new one.
-/

namespace UbDkms.Unic

open Lib

abbrev Mac := BitVec 48

/-- `struct unic_comm_addr_node` without the address. -/
structure MacNode where
  state : AddrState
  isPfc : Bool
  deriving DecidableEq, Repr

abbrev MacList := List (Mac × MacNode)

/-- `enum unic_mac_addr_type`. -/
inductive MacType where
  | uc
  | mc
  deriving DecidableEq, Repr

inductive CmdErr where
  | eexist
  | enospc
  | other
  deriving DecidableEq, Repr

/-- The round in progress: `act_info->mutex` and `act_info->deactivate` allow one. -/
inductive MacRound where
  | idle
  /-- `unic_comm_sync_addr_table` before it takes the lock. -/
  | sync
  /-- `unic_unsync_mac_list`: nodes to delete, nodes kept for an error, nodes to add. -/
  | unsync (todo kept add : MacList)
  /-- `unic_sync_mac_list`: nodes kept, nodes added or refused, nodes to add. -/
  | adding (kept tried todo : MacList)
  /-- `unic_deactivate_sync_mac_table` before it takes the lock. -/
  | deactivate
  /-- `unic_deactivate_unsync_mac_list`. -/
  | deleting (tried todo : MacList)
  deriving DecidableEq, Repr

structure MacTable where
  macList : MacList := []
  /-- The hardware table: the `is_pfc` flag of each entry. -/
  hw : Mac → Option Bool := fun _ => none
  /-- `hw.mac.mac_addr`, once it is configured. -/
  macAddr : Option Mac := none
  tblChange : Bool := false
  deactivated : Bool := false
  round : MacRound := .idle
  wanted : Mac → Bool := fun _ => false

namespace MacNode

/-- `unic_comm_update_addr_state` of a node. -/
def commUpdate (n : MacNode) (state : AddrState) : Option MacNode :=
  (commUpdateAddrState n.state state).map ({ n with state := · })

/-- `unic_comm_update_addr_list` on what the search finds. -/
def request (state : AddrState) : Option MacNode → Option MacNode
  | some n => n.commUpdate state
  | none => if state = .toDel then none else some ⟨state, false⟩

/-- `unic_comm_sync_from_addr_del_list`: a node that was not deleted. -/
def fromDel (n : MacNode) : Option MacNode → Option MacNode
  | some m => some { m with state := .active }
  | none => some n

/-- `unic_comm_sync_from_addr_add_list`. -/
def fromAdd (n : MacNode) : Option MacNode → Option MacNode
  | some m => m.commUpdate n.state
  | none => if n.state = .active then some { n with state := .toDel } else none

/-- `unic_deactivate_update_mac_state`. -/
def deactivateUpdate (m : MacNode) : AddrState → Option MacNode
  | .toAdd =>
    if m.state = .toDel then none
    else if m.state = .active then some { m with state := .toAdd }
    else some m
  | .toDel => some { m with state := .active }
  | .active => some m

/-- `unic_deactivate_sync_from_del_list`. -/
def fromDeact (n : MacNode) : Option MacNode → Option MacNode
  | some m => m.deactivateUpdate n.state
  | none => some n

end MacNode

namespace MacTable

variable (ty : MacType)

/-- `unic_update_mac_list`. -/
def updateMacList (t : MacTable) (state : AddrState) (x : Mac) : MacTable :=
  let l := alter (MacNode.request state) x t.macList
  match t.macList.lookup x with
  | some _ => { t with macList := l, tblChange := true }
  | none => if state = .toDel then t else { t with macList := l, tblChange := true }

/-- `unic_del_mac_addr_common`: the command succeeds only for an entry of the table. -/
def delMacAddr (t : MacTable) (x : Mac) (ok : Bool) : Option MacTable :=
  if ok ∧ (t.hw x).isSome then some { t with hw := Function.update t.hw x none } else none

/-- `unic_add_mac_addr_common`: the command succeeds only for a new entry. -/
def addMacAddr (t : MacTable) (x : Mac) (isPfc ok : Bool) : Option MacTable :=
  if ok ∧ (t.hw x).isNone then some { t with hw := Function.update t.hw x (some isPfc) } else none

/-- What `unic_cfg_mac_address` does with the node of the old address. -/
def oldNode : Option MacNode → Option MacNode
  | some n => if n.state = .toAdd then none else some ⟨.toDel, false⟩
  | none => none

/-- The rest of `unic_cfg_mac_address`: the new address goes to the head of the list. -/
def cfgFinish (t : MacTable) (x : Mac) : MacTable :=
  let l := (x, ⟨.toAdd, true⟩) :: onKey (fun _ => none) x t.macList
  let l := match t.macAddr with
    | some old => alter oldNode old l
    | none => l
  { t with macList := l, tblChange := true, macAddr := some x }

/-- `unic_cfg_mac_address`, nothing when the command fails. -/
def cfgMacAddress (t : MacTable) (x : Mac) (ok : Bool) : Option MacTable :=
  match t.macList.lookup x with
  | some n =>
    if n.state ≠ .toAdd then (t.delMacAddr x ok).map (·.cfgFinish x) else some (t.cfgFinish x)
  | none => some (t.cfgFinish x)

/-- The loop of `unic_sync_mac_list` ends at this error. -/
def breaks (e : CmdErr) : Bool :=
  (ty == .uc && e != .eexist) || (ty == .mc && e != .enospc)

/-- One step of the round in progress: a section under the lock or a command, which
fails with `e` when `ok` is false or the hardware refuses it. -/
def step (t : MacTable) (ok : Bool) (e : CmdErr) : MacTable :=
  match t.round with
  | .idle => t
  | .sync =>
    { t with
      macList := t.macList.filter fun n => n.2.state != .toDel
      round := .unsync (t.macList.filter fun n => n.2.state == .toDel) []
        (t.macList.filter fun n => n.2.state == .toAdd) }
  | .unsync [] kept add => { t with round := .adding kept [] add }
  | .unsync (n :: todo) kept add =>
    match t.delMacAddr n.1 ok with
    | some t => { t with round := .unsync todo kept add }
    | none => { t with tblChange := true, round := .unsync todo (kept ++ [n]) add }
  | .adding kept tried [] =>
    -- `deactivated` is reset by the activation, and is not set in a sync round
    { t with
      macList := tried.foldl (fun l n => alter n.2.fromAdd n.1 l)
        (kept.foldl (fun l n => alter n.2.fromDel n.1 l) t.macList)
      deactivated := false
      round := .idle }
  | .adding kept tried (n :: todo) =>
    match t.addMacAddr n.1 n.2.isPfc ok with
    | some t => { t with round := .adding kept (tried ++ [(n.1, { n.2 with state := .active })]) todo }
    | none =>
      { t with
        tblChange := true
        round := if breaks ty e then .adding kept (tried ++ n :: todo) []
          else .adding kept (tried ++ [n]) todo }
  | .deactivate =>
    { t with
      macList := t.macList.filter fun n => n.2.state != .toDel
      round := .deleting [] (t.macList.filter fun n => n.2.state != .toAdd) }
  | .deleting tried (n :: todo) =>
    match t.delMacAddr n.1 ok with
    | some t =>
      let tried := match n.2.state with
        | .active => tried ++ [(n.1, { n.2 with state := .toAdd })]
        | .toDel => tried
        | .toAdd => tried ++ [n]
      { t with round := .deleting tried todo }
    | none => { t with round := .deleting (tried ++ n :: todo) [] }
  | .deleting tried [] =>
    { t with
      macList := tried.foldl (fun l n => alter n.2.fromDeact n.1 l) t.macList
      tblChange := true
      round := .idle }

inductive Act where
  | add (x : Mac)
  | del (x : Mac)
  | cfg (x : Mac) (ok : Bool)
  | setBit
  | syncStart
  | deactivateStart
  | activateStart
  /-- `unic_activate_event_process` of a device that is down. -/
  | activateSkip
  | step (ok : Bool) (e : CmdErr)

/-- `unic_sync_mac_table`: with the mutex taken, unless deactivated or unchanged. -/
def syncStart (t : MacTable) : MacTable :=
  match t.round with
  | .idle => if t.deactivated || !t.tblChange then t else { t with tblChange := false, round := .sync }
  | _ => t

/-- `unic_deactivate_event_process` sets `deactivate` before it deactivates the table. -/
def deactivateStart (t : MacTable) : MacTable :=
  match t.round with
  | .idle => if t.deactivated then t else { t with deactivated := true, round := .deactivate }
  | _ => t

/-- `unic_activate_mac_table`. -/
def activateStart (t : MacTable) : MacTable :=
  match t.round with
  | .idle => if t.deactivated then { t with tblChange := false, round := .sync } else t
  | _ => t

def activateSkip (t : MacTable) : MacTable :=
  match t.round with
  | .idle => { t with deactivated := false }
  | _ => t

def cfgWanted (t : MacTable) (x : Mac) : Mac → Bool :=
  match t.macAddr with
  | some old => Function.update (Function.update t.wanted old false) x true
  | none => Function.update t.wanted x true

def act (t : MacTable) : Act → MacTable
  | .add x => { t.updateMacList .toAdd x with wanted := Function.update t.wanted x true }
  | .del x =>
    if t.macAddr = some x then t
    else { t.updateMacList .toDel x with wanted := Function.update t.wanted x false }
  | .cfg x ok =>
    if t.macAddr = some x then t
    else match t.cfgMacAddress x ok with
      | none => t
      | some t' => { t' with wanted := t.cfgWanted x }
  | .setBit => { t with tblChange := true }
  | .syncStart => t.syncStart
  | .deactivateStart => t.deactivateStart
  | .activateStart => t.activateStart
  | .activateSkip => t.activateSkip
  | .step ok e => t.step ty ok e

def init : MacTable := {}

/-- A round in which every command the hardware can execute succeeds, `n` steps of it. -/
def syncRound (t : MacTable) : Nat → MacTable
  | 0 => t.syncStart
  | n + 1 => (t.syncRound n).step ty true .other

def tmpDelList (t : MacTable) : MacList :=
  match t.round with
  | .unsync todo kept _ => todo ++ kept
  | .adding kept _ _ => kept
  | .deleting tried todo => tried ++ todo
  | _ => []

def Dying (t : MacTable) (x : Mac) : Prop :=
  ∃ n : MacNode, n.state = .toDel ∧ ((x, n) ∈ t.macList ∨ (x, n) ∈ t.tmpDelList)

def Open (t : MacTable) : Prop :=
  match t.round with
  | .idle => False
  | .sync => False
  | .deactivate => False
  | _ => True

/-- A former device address is not requested while its deletion is pending, and the
device address is not changed while a round is open. -/
def Apart (t : MacTable) : Act → Prop
  | .add x => t.hw x = some true → ¬ t.Dying x
  | .cfg _ _ => ¬ t.Open
  | _ => True

structure Settled (t : MacTable) : Prop where
  nodup : (keys t.macList).Nodup
  active : ∀ n ∈ t.macList, n.2.state = .active
  hw : ∀ x, (t.hw x).isSome = t.wanted x
  pfc : ∀ x p, t.hw x = some p ↔ (x, ⟨.active, p⟩) ∈ t.macList
  macAddr : ∀ x, t.macAddr = some x → t.hw x = some true

end MacTable

end UbDkms.Unic
