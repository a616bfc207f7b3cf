import UbDkms.Lib.Keyed
import UbDkms.Lib.Reach

/-!
# IP addresses of a UNIC device

`unic_ip.c`: the manager plans the addresses, the network stack has some of them, and
`ip_list` tracks both. Notifications that arrive while the manager's list is queried
are kept in `tmp_ip_list` and merged at the end of the query. `planned` and `stack` are
the lists of the manager and of the stack; the feedback of the stack is delivered as
an address is added or deleted there.
-/

namespace UbDkms.Unic

open Lib

/-- `enum UNIC_COMM_ADDR_STATE`. -/
inductive AddrState where
  | toAdd
  | toDel
  | active
  deriving DecidableEq, Repr

/-- `unic_comm_update_addr_state`: the new state of a node, nothing when it is freed. -/
def commUpdateAddrState (node : AddrState) : AddrState → Option AddrState
  | .toAdd => if node = .toDel then some .active else some node
  | .toDel => if node = .toAdd then none else some .toDel
  | .active => if node = .toAdd then some .active else some node

/-- An address with its mask: what `unic_comm_addr_equal` compares. -/
structure IpKey where
  addr : BitVec 128
  mask : BitVec 16
  deriving DecidableEq, Repr

abbrev IpList := List (IpKey × AddrState)

/-- `unic_query_ip_addr` in progress: the variables of its loop and its `tmp_list`. -/
structure IpQuery where
  ipIndex : Nat := 0
  cnt : Nat := 0
  list : IpList := []
  finished : Bool := false

/-- `struct unic_addr_tbl` and the bits of `vport->state`, the manager and the stack. -/
structure IpTable where
  ipList : IpList := []
  tmpIpList : IpList := []
  tblChange : Bool := false
  querying : Option IpQuery := none
  planned : IpKey → Bool
  stack : IpKey → Bool := fun _ => false

/-- `enum unic_ctrlq_ip_event`, with what is neither. -/
inductive IpCmd where
  | add
  | del
  | invalid
  deriving DecidableEq, Repr

/-- `unic_update_addr_state`. -/
def updateAddrState (node : AddrState) : AddrState → Option AddrState
  | .toAdd => if node = .toAdd then some .active else some node
  | .toDel => if node = .toDel then none else if node = .active then some .toAdd else some node
  | .active => some node

namespace IpTable

def enoent : Int := -2
def einval : Int := -22

/-- Some node is not `UNIC_COMM_ADDR_ACTIVE`. -/
def unsettled (l : IpList) : Bool := l.any fun n => n.2 != .active

/-- `unic_update_stack_ip_addr`. -/
def updateStackIpAddr (t : IpTable) (state : AddrState) (x : IpKey) : IpTable × Int :=
  match t.ipList.lookup x with
  | some _ =>
    let l := onKey (updateAddrState · state) x t.ipList
    ({ t with ipList := l, tblChange := unsettled l }, 0)
  | none =>
    if state = .toDel then ({ t with tblChange := unsettled t.ipList }, enoent)
    else ({ t with ipList := t.ipList ++ [(x, .toDel)], tblChange := true }, 0)

/-- `unic_update_addr_list`. -/
def updateAddrList (l : IpList) (state : AddrState) (x : IpKey) : IpList × Int :=
  match l.lookup x with
  | some _ => (onKey (commUpdateAddrState · state) x l, 0)
  | none => if state = .toDel then (l, enoent) else (l ++ [(x, state)], 0)

/-- `unic_update_tmp_ip_list`. -/
def updateTmpIpList (l : IpList) (cmd : IpCmd) (x : IpKey) : IpList × Int :=
  let put (state : AddrState) : IpList × Int :=
    match l.lookup x with
    | some _ => (onKey (fun _ => some state) x l, 0)
    | none => (l ++ [(x, state)], 0)
  match cmd with
  | .add => put .toAdd
  | .del => put .toDel
  | .invalid => (l, einval)

/-- `unic_handle_notify_ip_event`. -/
def handleNotifyIpEvent (t : IpTable) (cmd : IpCmd) (x : IpKey) : IpTable × Int :=
  match t.querying with
  | some _ =>
    let r := updateTmpIpList t.tmpIpList cmd x
    ({ t with tmpIpList := r.1 }, r.2)
  | none =>
    let update (state : AddrState) : IpTable × Int :=
      let r := updateAddrList t.ipList state x
      if r.2 = enoent then ({ t with ipList := r.1 }, 0)
      else ({ t with ipList := r.1, tblChange := t.tblChange || r.2 == 0 }, r.2)
    match cmd with
    | .add => update .toAdd
    | .del => update .toDel
    | .invalid => (t, einval)

/-- `unic_update_ctrlq_ip_list` of one address of a response, on `ip_list` and `tmp_list`. -/
def updateCtrlqIpList (l : IpList × IpList) (x : IpKey) : IpList × IpList :=
  let ipList := match l.1.lookup x with
    | some _ => onKey (fun s => if s ≠ .toAdd then some .active else some s) x l.1
    | none => l.1 ++ [(x, .toAdd)]
  (ipList, l.2 ++ [(x, .toAdd)])

/-- One round of the loop of `unic_query_ip_addr`: the manager answers with `ips` and
`ipIndex`, or the request fails. -/
def ctrlqQueryIp (t : IpTable) (resp : Option (List IpKey × Nat)) : IpTable :=
  match t.querying with
  | none => t
  | some q =>
    if q.finished then t
    else match resp with
      | none => { t with querying := some { q with finished := true } }
      | some (ips, ipIndex) =>
        let l := ips.foldl updateCtrlqIpList (t.ipList, q.list)
        let q :=
          if ips.length ≠ 4 then { q with list := l.2, ipIndex, finished := true }
          else
            { list := l.2
              ipIndex := ipIndex + 1
              cnt := q.cnt + 1
              finished := !decide (ipIndex + 1 < 128 ∧ q.cnt + 1 < 128 / 4 + 1) }
        { t with ipList := l.1, querying := some q }

/-- What the first walk of `unic_update_ip_list` does with a node. -/
def dropUnplanned (list : IpList) (x : IpKey) (s : AddrState) : Option AddrState :=
  match list.lookup x with
  | some _ => some s
  | none => match s with
    | .active => some .toDel
    | .toAdd => none
    | .toDel => some .toDel

/-- What the second walk does with a node of `tmp_ip_list`. -/
def mergeTmp (l : IpList) (n : IpKey × AddrState) : IpList :=
  match l.lookup n.1 with
  | some _ => onKey (commUpdateAddrState · n.2) n.1 l
  | none => if n.2 = .toAdd then l ++ [n] else l

/-- `unic_update_ip_list`. -/
def updateIpList (t : IpTable) (list : IpList) : IpTable :=
  let l := t.tmpIpList.foldl mergeTmp (sweep (dropUnplanned list) t.ipList)
  { t with ipList := l, tblChange := t.tblChange || unsettled l }

/-- The end of `unic_query_ip_addr`. -/
def queryEnd (t : IpTable) : IpTable :=
  match t.querying with
  | none => t
  | some q =>
    if q.finished then { t.updateIpList q.list with querying := none, tmpIpList := [] } else t

inductive Act where
  | notify (cmd : IpCmd) (x : IpKey)
  | queryStart
  | queryIp (resp : Option (List IpKey × Nat))
  | queryEnd
  | stackAdd (x : IpKey)
  | stackDel (x : IpKey)

def plan (planned : IpKey → Bool) (cmd : IpCmd) (x : IpKey) : IpKey → Bool :=
  match cmd with
  | .add => Function.update planned x true
  | .del => Function.update planned x false
  | .invalid => planned

def act (t : IpTable) : Act → IpTable
  | .notify cmd x => { (t.handleNotifyIpEvent cmd x).1 with planned := plan t.planned cmd x }
  | .queryStart => match t.querying with
    | none => { t with querying := some {} }
    | some _ => t
  | .queryIp resp => t.ctrlqQueryIp resp
  | .queryEnd => t.queryEnd
  | .stackAdd x =>
    if t.stack x then t
    else { (t.updateStackIpAddr .toAdd x).1 with stack := Function.update t.stack x true }
  | .stackDel x =>
    if t.stack x then { (t.updateStackIpAddr .toDel x).1 with stack := Function.update t.stack x false }
    else t

/-- The device queries the list of the manager when it is probed. -/
def init (planned : IpKey → Bool) : IpTable := { planned, querying := some {} }

/-- A query that ends has seen the whole list of the manager: an address that was not
notified meanwhile was in a response iff it is planned. -/
def Full (t : IpTable) : Act → Prop
  | .queryEnd => ∀ q, t.querying = some q → q.finished → ∀ x, x ∉ keys t.tmpIpList →
    (x ∈ keys q.list ↔ t.planned x)
  | _ => True

end IpTable

end UbDkms.Unic
