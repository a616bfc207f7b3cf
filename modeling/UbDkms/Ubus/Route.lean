import UbDkms.Errno
import UbDkms.Lib.Reach
import Mathlib.Data.Int.Basic

/-!
# Software routes of an entity

`route.c`: every port has a bitmap of the network addresses (`cna`) it leads to, and
every entity a list of `cna_node`s in ascending order, each with the number of the
entity's ports that lead there. Routes spread over the topology breadth first,
through a `kfifo` of 16 places.

Whether an allocation succeeds is an argument of each operation: one answer for the
scratch list of a search, one for each node of an entity's own list. The loop over
the `kfifo` runs for a number of rounds that is an argument too.
-/

namespace UbDkms.Ubus

open Lib

/-- `struct cna_node`; `distance` and `count` are `u16`. -/
structure CnaNode where
  cna : Nat
  distance : Nat
  count : Nat
  needUpdate : Bool
  deriving DecidableEq

def toU16 (z : Int) : Nat := (z % 65536).toNat

def toShort (z : Int) : Int := (z + 32768) % 65536 - 32768

def ubCreateCnaNode (cna : Nat) (distance : Int) : CnaNode := ⟨cna, toU16 distance, 1, true⟩

/-- `ub_add_cna_node` on the list from its tail. -/
def addFromTail (cna : Nat) (distance : Int) (ok : Bool) : List CnaNode → Option (List CnaNode)
  | [] => if ok then some [ubCreateCnaNode cna distance] else none
  | prev :: rest =>
    if cna < prev.cna then (addFromTail cna distance ok rest).map (prev :: ·)
    else if prev.cna = cna then some ({ prev with count := (prev.count + 1) % 65536 } :: rest)
    else if ok then some (ubCreateCnaNode cna distance :: prev :: rest) else none

def ubAddCnaNode (cna : Nat) (distance : Int) (ok : Bool) (l : List CnaNode) : Option (List CnaNode) :=
  (addFromTail cna distance ok l.reverse).map List.reverse

def ubFindCnaNode (cna : Nat) : List CnaNode → Option CnaNode
  | [] => none
  | x :: l => if x.cna < cna then ubFindCnaNode cna l else if cna < x.cna then none else some x

/-- The node `ub_find_cna_node` returns is changed in place. -/
def changeCnaNode (cna : Nat) (f : CnaNode → CnaNode) : List CnaNode → List CnaNode
  | [] => []
  | x :: l =>
    if x.cna < cna then x :: changeCnaNode cna f l else if cna < x.cna then x :: l else f x :: l

/-- The routing data of an entity: `cna_list`, the `cna_maps` of its ports, and
`UB_ENTITY_ROUTE_UPDATED`. -/
structure RouteEnt where
  cnaList : List CnaNode := []
  cnaMaps : Nat → Nat → Bool := fun _ _ => false
  routeUpdated : Bool := false

def setMap (maps : Nat → Nat → Bool) (p c : Nat) (v : Bool) (p' c' : Nat) : Bool :=
  if p' = p ∧ c' = c then v else maps p' c'

def CnaNode.more (x : CnaNode) : CnaNode := { x with needUpdate := true, count := (x.count + 1) % 65536 }

def CnaNode.less (x : CnaNode) : CnaNode := { x with needUpdate := true, count := (x.count + 65535) % 65536 }

namespace RouteEnt

variable (u : RouteEnt)

/-- `ub_route_add_entry`: the bit is set before the node is there. -/
def addEntry (p cna : Nat) (distance : Int) (ok : Bool) : Ret × RouteEnt :=
  if u.cnaMaps p cna then (some .eexist, u)
  else
    let u := { u with cnaMaps := setMap u.cnaMaps p cna true }
    match ubAddCnaNode cna distance ok u.cnaList with
    | none => (some .enomem, u)
    | some l => (none, { u with cnaList := l })

/-- `ub_route_del_entry`. -/
def delEntry (p cna : Nat) : RouteEnt :=
  let u := { u with cnaMaps := setMap u.cnaMaps p cna false }
  match ubFindCnaNode cna u.cnaList with
  | none => u
  | some _ => { u with cnaList := changeCnaNode cna CnaNode.less u.cnaList }

def delLoop (p : Nat) : List CnaNode → RouteEnt → Bool → RouteEnt × Bool
  | [], u, updated => (u, updated)
  | c :: l, u, updated =>
    if u.cnaMaps p c.cna then delLoop p l (u.delEntry p c.cna) true else delLoop p l u updated

/-- `ub_route_del_entries`. -/
def delEntries (p : Nat) (l : List CnaNode) : RouteEnt × Bool :=
  let r := delLoop p l u false
  (if r.2 then { r.1 with routeUpdated := true } else r.1, r.2)

/-- `ub_route_mod_entries` of port `p`; `hasCna` is `ub_entity_has_cna`. The last component is
what is left of the answers to allocations. -/
def modEntries (hasCna : Nat → Bool) (p : Nat) (off : Int) :
    List CnaNode → List Bool → RouteEnt → Bool → RouteEnt × Bool × List Bool
  | [], oks, u, updated => (if updated then { u with routeUpdated := true } else u, updated, oks)
  | c :: l, oks, u, updated =>
    if u.cnaMaps p c.cna || hasCna c.cna then modEntries hasCna p off l oks u updated
    else
      let newDistance := toShort (c.distance + off)
      match ubFindCnaNode c.cna u.cnaList with
      | none =>
        match u.addEntry p c.cna newDistance (oks.headD true) with
        | (none, u) => modEntries hasCna p off l oks.tail u true
        -- what was updated before is not flagged
        | (some _, u) => (u, false, oks.tail)
      | some x =>
        if (x.distance : Int) < newDistance then modEntries hasCna p off l oks u updated
        else
          modEntries hasCna p off l oks
            { u with cnaMaps := setMap u.cnaMaps p c.cna true,
                     cnaList := changeCnaNode c.cna CnaNode.more u.cnaList } true

/-- The walk of `ub_route_clear_port` over the set bits, with the list from `cna_node` on. -/
def clearWalk : List Nat → List CnaNode → List CnaNode × Bool
  | [], rest => (rest, false)
  | c :: cs, rest =>
    let before := rest.takeWhile (·.cna < c)
    match rest.dropWhile (·.cna < c) with
    | [] => let r := clearWalk cs []; (before ++ r.1, r.2)
    | x :: more =>
      if x.cna = c then let r := clearWalk cs (x.less :: more); (before ++ r.1, true)
      else let r := clearWalk cs (x :: more); (before ++ r.1, r.2)

/-- `ub_route_clear_port`; `maxCna` is `UB_MAX_CNA_NUM`. -/
def clearPort (maxCna p : Nat) : RouteEnt :=
  let r := clearWalk ((List.range maxCna).filter (u.cnaMaps p ·)) u.cnaList
  { cnaList := r.1
    cnaMaps := fun p' c => if p' = p ∧ c < maxCna then false else u.cnaMaps p' c
    routeUpdated := u.routeUpdated || r.2 }

/-- `UB_ROUTE_TABLE_ENTRY_BITS`. -/
def ubRouteTableEntryBits : Nat := 128

/-- `ub_route_clear` of an entity with `n` ports. -/
def clear (n : Nat) : RouteEnt :=
  { u with
    cnaMaps := fun p c => if p < n ∧ c < ubRouteTableEntryBits then false else u.cnaMaps p c
    cnaList := [] }

/-- `ub_route_sync_dev`: what happens to a node. -/
def syncNode (x : CnaNode) : Option CnaNode :=
  if x.needUpdate = false then some x
  else if x.count = 0 then none else some { x with needUpdate := false }

def syncDev : RouteEnt :=
  if u.routeUpdated then { u with cnaList := u.cnaList.filterMap syncNode, routeUpdated := false } else u

/-- `ub_entity_copy_cna_list`. -/
def copyCnaList (updateOnly : Bool) : List CnaNode :=
  (u.cnaList.filter fun x => !updateOnly || x.needUpdate).map fun x => ubCreateCnaNode x.cna x.distance

end RouteEnt

/-- The entities, their ports and how these are connected (`r_uent`, `r_index`).
`PORT_TOTAL_NUM_MAX` bounds the ports of an entity. -/
structure Topology where
  portNums : Nat → Nat
  cna : Nat → Nat
  portCna : Nat → Nat → Nat
  peer : Nat → Nat → Option (Nat × Nat)
  supportForward : Nat → Bool
  portNums_le : ∀ e, portNums e ≤ 256
  peer_lt : ∀ {e p r q}, peer e p = some (r, q) → q < portNums r

abbrev Routes := Nat → RouteEnt

/-- A place of the `kfifo`: a port and the offset of its distance. -/
structure BfsNode where
  uent : Nat
  port : Nat
  off : Int

/-- `UB_ROUTE_KFIFO_DEPTH`. -/
def ubRouteKfifoDepth : Nat := 16

def kfifoPut (q : List BfsNode) (b : BfsNode) : List BfsNode :=
  if q.length < ubRouteKfifoDepth then q ++ [b] else q

section Operations

variable (T : Topology)

/-- `ub_entity_has_cna`. -/
def Topology.hasCna (e cna : Nat) : Bool :=
  T.cna e = cna || (List.range (T.portNums e)).any fun p => T.portCna e p = cna

/-- The ports at the other ends of the ports of `e`, apart from port `except`, at entities with
more than one port (`ub_check_path`). -/
def Topology.across (e : Nat) (except : Option Nat) : List (Nat × Nat) :=
  (List.range (T.portNums e)).filterMap fun p =>
    if some p = except then none
    else match T.peer e p with
      | none => none
      | some (r, q) => if T.portNums r ≤ 1 then none else some (r, q)

def putAll (off : Int) (ends : List (Nat × Nat)) (q : List BfsNode) : List BfsNode :=
  ends.foldl (fun q x => kfifoPut q ⟨x.1, x.2, off⟩) q

/-- `ub_route_mod_neighbor` of port `p` of `e` and port `q` of `r`; `listOk` says that the
scratch list could be allocated. -/
def ubRouteModNeighbor (e p r q : Nat) (listOk : Bool) (oks : List Bool) (s : Routes) : Routes :=
  if listOk = false then s
  else
    let l := if T.supportForward e then (s e).copyCnaList false else []
    match (ubAddCnaNode (T.cna e) 0 true l).bind (ubAddCnaNode (T.portCna e p) 0 true) with
    | none => s
    | some l => Function.update s r (RouteEnt.modEntries (T.hasCna r) q 1 l oks (s r) false).1

def modBfsLoop (l : List CnaNode) : Nat → List BfsNode → List Bool → Routes → Routes
  | 0, _, _, s => s
  | _ + 1, [], _, s => s
  | k + 1, b :: q, oks, s =>
    let r := RouteEnt.modEntries (T.hasCna b.uent) b.port b.off l oks (s b.uent) false
    let q := if r.2.1 && T.supportForward b.uent then
        putAll (toShort (b.off + 1)) (T.across b.uent (some b.port)) q else q
    modBfsLoop l k q r.2.2 (Function.update s b.uent r.1)

/-- `ub_route_mod_bfs`, for `rounds` rounds. -/
def ubRouteModBfs (e : Nat) (listOk : Bool) (oks : List Bool) (rounds : Nat) (s : Routes) : Routes :=
  if listOk = false then s
  else modBfsLoop T ((s e).copyCnaList true) rounds (putAll 1 (T.across e none) []) oks s

def delBfsLoop (l : List CnaNode) : Nat → List BfsNode → Routes → Routes
  | 0, _, s => s
  | _ + 1, [], s => s
  | k + 1, b :: q, s =>
    let r := (s b.uent).delEntries b.port l
    let q := if r.2 && T.supportForward b.uent then putAll 0 (T.across b.uent (some b.port)) q else q
    delBfsLoop l k q (Function.update s b.uent r.1)

/-- `ub_route_del_bfs`, for `rounds` rounds. -/
def ubRouteDelBfs (e : Nat) (listOk : Bool) (rounds : Nat) (s : Routes) : Routes :=
  if listOk = false then s
  else delBfsLoop T ((s e).copyCnaList true) rounds (putAll 0 (T.across e none) []) s

inductive RouteAct where
  | addEntry (e p cna : Nat) (distance : Int) (ok : Bool)
  | modNeighbor (e p r q : Nat) (listOk : Bool) (oks : List Bool)
  | modBfs (e : Nat) (listOk : Bool) (oks : List Bool) (rounds : Nat)
  | delBfs (e : Nat) (listOk : Bool) (rounds : Nat)
  | clearPort (e p : Nat)
  | clear (e : Nat)
  | syncDev (e : Nat)

def Topology.next (maxCna : Nat) (s : Routes) : RouteAct → Routes
  | .addEntry e p cna distance ok =>
    if p < T.portNums e then Function.update s e ((s e).addEntry p cna distance ok).2 else s
  | .modNeighbor e p r q listOk oks =>
    if p < T.portNums e ∧ q < T.portNums r then ubRouteModNeighbor T e p r q listOk oks s else s
  | .modBfs e listOk oks rounds => ubRouteModBfs T e listOk oks rounds s
  | .delBfs e listOk rounds => ubRouteDelBfs T e listOk rounds s
  | .clearPort e p => if p < T.portNums e then Function.update s e ((s e).clearPort maxCna p) else s
  | .clear e => Function.update s e ((s e).clear (T.portNums e))
  | .syncDev e => Function.update s e (s e).syncDev

end Operations

end UbDkms.Ubus
