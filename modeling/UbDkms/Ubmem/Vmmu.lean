import UbDkms.Lib.Reach
import Mathlib.Tactic

/-!
# Map requests of the UBMEM vMMU

`ubmem_vmmu_main.c`: `map_pages` collects the pieces of a range in a context, which is
found by thread and end address in a hash table of the domain; `iotlb_sync_map` takes the
context out and sends its requests to the host one by one. A context is named by the
number of its allocation. Of each thread the model keeps what its caller knows: where the
range began and which pieces were given since.
-/

namespace UbDkms.Ubmem

inductive Opcode where
  | map
  | unmap
  deriving DecidableEq, Repr

/-- `areas[i]` of a request; also a piece given to `map_pages`. -/
structure Area where
  gpa : Nat
  size : Nat
  deriving DecidableEq, Repr

/-- `struct ubm_request`; `areas_num` is the length of `areas`. -/
structure UbmRequest where
  opcode : Opcode := .map
  tid : Nat
  uba : Nat
  size : Nat := 0
  areas : List Area := []
  deriving DecidableEq, Repr

/-- `struct ubmem_vmmu_map_ctx`: the requests of `info_head` before the last, and that of
`last_map_info`. A context has a request from its creation on. -/
structure MapCtx where
  pid : Nat
  tid : Nat
  ubaStart : Nat
  ubaEnd : Nat := 0
  infos : List UbmRequest := []
  last : UbmRequest
  deriving DecidableEq, Repr

/-- `UBMEM_VMMU_PAGE_SIZE_4K`. -/
def pageSize4K : Nat := 4096

/-- `UBMEM_VMMU_ONCE_MAX_MAP_AREA_NUM`. -/
def onceMaxMapAreaNum : Nat := 262144

/-- The device and the token id of the domain: `area_num` is the room of the ring. -/
structure VmmuCfg where
  areaNum : Nat
  tid : Nat
  pidHash : Nat → Nat

namespace VmmuCfg

/-- `max_req_area_num`, as `ubmem_vmmu_init_device_resource` sets it. -/
def maxReqAreaNum (g : VmmuCfg) : Nat :=
  if onceMaxMapAreaNum < g.areaNum then onceMaxMapAreaNum else g.areaNum

/-- `max_req_size`. -/
def maxReqSize (g : VmmuCfg) : Nat := g.maxReqAreaNum * pageSize4K

end VmmuCfg

namespace MapCtx

/-- The requests in the order of `info_head`. -/
def reqs (c : MapCtx) : List UbmRequest := c.infos ++ [c.last]

/-- `ubmem_vmmu_create_map_info` when the allocation succeeds. -/
def createMapInfo (c : MapCtx) (uba : Nat) : MapCtx :=
  { c with infos := c.reqs, last := { tid := c.tid, uba } }

def addArea (c : MapCtx) (gpa size : Nat) : MapCtx :=
  { c with
    last := { c.last with size := c.last.size + size, areas := c.last.areas ++ [⟨gpa, size⟩] } }

/-- A context after `ubmem_vmmu_get_map_ctx` has made it. -/
def new (tid pid uba : Nat) : MapCtx :=
  { pid, tid, ubaStart := uba, last := { tid, uba } }

variable (g : VmmuCfg)

/-- `cur_map_size`: what of `need` fits in the last request. -/
def curMapSize (c : MapCtx) (need : Nat) : Nat :=
  if g.maxReqSize - c.last.size > need then need else g.maxReqSize - c.last.size

/-- The loop of `ubmem_vmmu_add_map_info`, with the context it leaves and `map_size`;
`n` allocations succeed before one fails. -/
def addMapInfo : Nat → MapCtx → Nat → Nat → Nat → Nat → MapCtx × Nat
  | n, c, uba, paddr, need, mapSize =>
    let cur := c.curMapSize g need
    if cur ≠ 0 then
      let c := c.addArea paddr cur
      if need - cur = 0 then (c, mapSize + cur)
      else
        match n with
        | 0 => (c, mapSize + cur)
        | n + 1 =>
          addMapInfo n (c.createMapInfo ((uba + cur) % 2 ^ 64)) ((uba + cur) % 2 ^ 64)
            ((paddr + cur) % 2 ^ 64) (need - cur) (mapSize + cur)
    else
      match n with
      | 0 => (c, mapSize)
      | n + 1 => addMapInfo n (c.createMapInfo uba) uba paddr need mapSize

end MapCtx

inductive VmPc where
  | idle
  | ready
  | alloc (p : Area)
  | link (p : Area) (c : MapCtx)
  | add (p : Area) (id : Nat)
  | unlink (id : Nat)
  /-- In `iotlb_sync_map`: the requests left, those sent and `ret`. -/
  | sending (rest sent : List UbmRequest) (ret : Int)
  deriving DecidableEq

/-- A thread, and the range it maps: its start and the pieces accepted so far. -/
structure VmThread where
  pc : VmPc := .idle
  start : Nat := 0
  pieces : List Area := []

namespace VmThread

def size (t : VmThread) : Nat := (t.pieces.map Area.size).sum

def stop (t : VmThread) : Nat := (t.start + t.size) % 2 ^ 64

end VmThread

/-- A returned `iotlb_sync_map`. -/
structure SyncMap where
  start : Nat
  pieces : List Area
  ret : Int
  reqs : List UbmRequest

/-- The contexts of a domain, its threads and the requests the host received. -/
structure Vmmu where
  bucket : Nat → List Nat := fun _ => []
  ctx : Nat → MapCtx
  next : Nat := 0
  thread : Nat → VmThread := fun _ => {}
  sent : List UbmRequest := []
  done : List SyncMap := []

namespace Vmmu

variable (g : VmmuCfg)

def setThread (s : Vmmu) (pid : Nat) (t : VmThread) : Vmmu :=
  { s with thread := Function.update s.thread pid t }

/-- The list search of `ubmem_vmmu_get_map_ctx`. -/
def getMapCtx (s : Vmmu) (pid uba : Nat) : Option Nat :=
  (s.bucket (g.pidHash pid)).find? fun id => (s.ctx id).pid = pid ∧ (s.ctx id).ubaEnd = uba

/-- The list search of `ubmem_vmmu_iotlb_sync_map`. -/
def syncCtx (s : Vmmu) (pid iova iovaEnd : Nat) : Option Nat :=
  (s.bucket (g.pidHash pid)).find? fun id =>
    (s.ctx id).pid = pid ∧ (s.ctx id).ubaStart = iova ∧ (s.ctx id).ubaEnd = iovaEnd

def listDel (s : Vmmu) (pid id : Nat) : Vmmu :=
  { s with
    bucket := Function.update s.bucket (g.pidHash pid)
      ((s.bucket (g.pidHash pid)).filter (· ≠ id)) }

/-- `ubmem_vmmu_map_pages` begins with the next piece: the first locked search. -/
def mapPages (s : Vmmu) (pid : Nat) (p : Area) : Vmmu :=
  let t := s.thread pid
  match s.getMapCtx g pid t.stop with
  | none => s.setThread pid { t with pc := .alloc p }
  | some id => s.setThread pid { t with pc := .add p id }

/-- `kzalloc` of the context and of its first request. On failure the caller abandons
the range. -/
def allocCtx (s : Vmmu) (pid : Nat) (p : Area) (ok : Bool) : Vmmu :=
  let t := s.thread pid
  if ok then s.setThread pid { t with pc := .link p (.new g.tid pid t.stop) }
  else s.setThread pid {}

def linkCtx (s : Vmmu) (pid : Nat) (p : Area) (c : MapCtx) : Vmmu :=
  let t := s.thread pid
  { s with
    bucket := Function.update s.bucket (g.pidHash pid) (s.bucket (g.pidHash pid) ++ [s.next])
    ctx := Function.update s.ctx s.next c
    next := s.next + 1 }.setThread pid { t with pc := .add p s.next }

/-- `ubmem_vmmu_add_map_info` and the check of its result. -/
def addPiece (s : Vmmu) (pid : Nat) (p : Area) (id n : Nat) : Vmmu :=
  let t := s.thread pid
  let r := (s.ctx id).addMapInfo g n t.stop p.gpa p.size 0
  if r.2 ≠ p.size then
    { s with ctx := Function.update s.ctx id r.1 }.setThread pid { t with pc := .unlink id }
  else
    { s with
      ctx := Function.update s.ctx id { r.1 with ubaEnd := (t.stop + r.2) % 2 ^ 64 }
    }.setThread pid { t with pc := .ready, pieces := t.pieces ++ [p] }

/-- `ubmem_vmmu_iotlb_sync_map` up to the end of its locked section. When no context
matches, the `ret` it returns was never set. -/
def iotlbSyncMap (s : Vmmu) (pid : Nat) (unset : Int) : Vmmu :=
  let t := s.thread pid
  match s.syncCtx g pid t.start t.stop with
  | none => s.setThread pid { t with pc := .sending [] [] unset }
  | some id =>
    (s.listDel g pid id).setThread pid { t with pc := .sending (s.ctx id).reqs [] 0 }

/-- `ubmem_vmmu_handle_req_vm` for the next request, and the return after the last:
`taken` says that a slot was found and the request written to the ring, `res` is the
host's answer. -/
def send (s : Vmmu) (pid : Nat) (rest sent : List UbmRequest) (ret : Int) (taken : Bool)
    (res : Int) : Vmmu :=
  let t := s.thread pid
  match rest with
  | [] => { s with done := s.done ++ [SyncMap.mk t.start t.pieces ret sent] }.setThread pid {}
  | r :: rest =>
    if ret ≠ 0 then s.setThread pid { t with pc := .sending rest sent ret }
    else if taken then
      { s with sent := s.sent ++ [r] }.setThread pid
        { t with pc := .sending rest (sent ++ [r]) res }
    else s.setThread pid { t with pc := .sending rest sent (-110) }

end Vmmu

inductive VmAct where
  | begin (pid start : Nat)
  | mapPages (pid : Nat) (p : Area)
  | alloc (pid : Nat) (ok : Bool)
  | link (pid : Nat)
  | add (pid n : Nat)
  | unlink (pid : Nat)
  | sync (pid : Nat) (unset : Int)
  | send (pid : Nat) (taken : Bool) (res : Int)

def Vmmu.act (g : VmmuCfg) (s : Vmmu) : VmAct → Vmmu
  | .begin pid start =>
    match (s.thread pid).pc with
    | .idle => s.setThread pid { pc := .ready, start }
    | _ => s
  | .mapPages pid p =>
    match (s.thread pid).pc with
    | .ready => s.mapPages g pid p
    | _ => s
  | .alloc pid ok =>
    match (s.thread pid).pc with
    | .alloc p => s.allocCtx g pid p ok
    | _ => s
  | .link pid =>
    match (s.thread pid).pc with
    | .link p c => s.linkCtx g pid p c
    | _ => s
  | .add pid n =>
    match (s.thread pid).pc with
    | .add p id => s.addPiece g pid p id n
    | _ => s
  | .unlink pid =>
    match (s.thread pid).pc with
    | .unlink id => (s.listDel g pid id).setThread pid {}
    | _ => s
  | .sync pid unset =>
    match (s.thread pid).pc with
    | .ready => s.iotlbSyncMap g pid unset
    | _ => s
  | .send pid taken res =>
    match (s.thread pid).pc with
    | .sending rest sent ret => s.send pid rest sent ret taken res
    | _ => s

/-- What the callers keep to: addresses are 64 bit values, pieces a multiple of 4K. -/
def VmAct.Ok (_ : Vmmu) : VmAct → Prop
  | .begin _ start => start < 2 ^ 64
  | .mapPages _ p => pageSize4K ∣ p.size
  | _ => True

end UbDkms.Ubmem
