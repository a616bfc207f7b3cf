import UbDkms.Lib.Reach
import UbDkms.Lib.Ring

/-!
# Receive queue of a UNIC device

`unic_rx.c`: the driver posts page fragments in a ring, `unic_rx_construct_skb` makes
a packet of the buffers a completion names, `unic_clear_rq` drops them and
`unic_refill_rx_buffers` posts new ones. A page fragment is named by the number of the
allocation that took it from the pool; `returned` lists what was put back, `stack` the
packets the network stack has.
-/

namespace UbDkms.Unic

/-- `struct unic_rqe_info`. -/
structure RqeInfo where
  page : Nat := 0
  pageOffset : Nat := 0
  deriving DecidableEq, Repr

/-- A fragment of a packet: `size` bytes of a page from `offset` on. -/
structure Frag where
  page : Nat
  offset : Nat
  size : Nat
  deriving DecidableEq, Repr

/-- `struct sk_buff` with `linear` bytes copied from a page. -/
structure Skb where
  linear : List (BitVec 8) := []
  len : Nat := 0
  dataLen : Nat := 0
  frags : List Frag := []
  deriving DecidableEq, Repr

/-- A packet: the head and its `frag_list`, the newest first. -/
structure Packet where
  head : Skb := {}
  fragList : List Skb := []
  deriving DecidableEq, Repr

/-- The fields of `union unic_cqe` the driver reads. -/
structure Cqe where
  packetLen : Nat
  startRqeIdx : Nat
  doi : Bool := false
  l2Err : Bool := false
  trunc : Bool := false
  deriving DecidableEq, Repr

structure RqCfg where
  depthShift : Nat
  buffLen : Nat
  maxSkbFrags : Nat
  /-- `rqe_depth` is a `u16`. -/
  depth_le : depthShift ≤ 15
  /-- `UNIC_RX_HEAD_SIZE`. -/
  buff_ge : 256 ≤ buffLen
  frags_pos : 0 < maxSkbFrags

def RqCfg.depth (g : RqCfg) : Nat := 2 ^ g.depthShift

/-- `struct unic_rq`; `next` is the number of the next allocation. -/
structure Rq where
  pi : Nat
  ci : Nat := 0
  pendingBuf : Nat := 0
  info : Nat → RqeInfo
  mem : Nat → Nat → BitVec 8 := fun _ _ => 0
  returned : List Nat := []
  stack : List Packet := []
  next : Nat

/-- What the calls made for one packet return: `napi_alloc_skb` of the head and of the
skb for frag `i`, and the length to pull. -/
structure RxEnv where
  headFails : Bool := false
  fragFails : Nat → Bool := fun _ => false
  pullLen : Nat := 256
  /-- `eth_get_headlen` is asked for at most `UNIC_RX_HEAD_SIZE` bytes. -/
  pull_le : pullLen ≤ 256 := by decide

namespace Skb

/-- `skb_add_rx_frag`, as `unic_fill_skb_frags` calls it. -/
def fillFrag (s : Skb) (i : RqeInfo) (size : Nat) : Skb :=
  { s with
    frags := s.frags ++ [⟨i.page, i.pageOffset, size⟩]
    len := s.len + size
    dataLen := s.dataLen + size }

def pages (s : Skb) : List Nat := s.frags.map (·.page)

end Skb

namespace Packet

def frags (k : Packet) : List Frag := k.head.frags ++ k.fragList.reverse.flatMap (·.frags)

def pages (k : Packet) : List Nat := k.frags.map (·.page)

/-- Add a fragment to the skb in work: the head, or the last of the frag list, whose
size is then added to the head by hand. -/
def addFrag (k : Packet) (i : RqeInfo) (size : Nat) : Packet :=
  match k.fragList with
  | [] => { k with head := k.head.fillFrag i size }
  | s :: l =>
    { head := { k.head with len := k.head.len + size, dataLen := k.head.dataLen + size }
      fragList := s.fillFrag i size :: l }

end Packet

namespace Rq

variable (g : RqCfg)

/-- `rqe_info[idx & rqe_mask]`. -/
def slot (rq : Rq) (idx : Nat) : RqeInfo := rq.info (idx % g.depth)

/-- `DIV_ROUND_UP(pkt_len, buff_len)`. -/
def rqeNum (pktLen : Nat) : Nat := (pktLen + g.buffLen - 1) / g.buffLen

/-- The loop of `unic_add_skb_frags` from frag `i` on, `n` of them left. -/
def addFragsLoop (rq : Rq) (env : RxEnv) : Nat → Nat → Nat → Nat → Packet → Packet × Bool
  | 0, _, _, _, k => (k, true)
  | n + 1, i, fragIndex, pktLen, k =>
    if g.maxSkbFrags ≤ fragIndex ∧ env.fragFails i then (k, false)
    else
      let k := if g.maxSkbFrags ≤ fragIndex then { k with fragList := {} :: k.fragList } else k
      let fragIndex := if g.maxSkbFrags ≤ fragIndex then 0 else fragIndex
      let pktLen := pktLen - g.buffLen
      let fragSize := if n ≠ 0 then g.buffLen else pktLen
      addFragsLoop rq env n (i + 1) (fragIndex + 1) pktLen (k.addFrag (rq.slot g (rq.ci + i)) fragSize)

def pullOffset (rq : Rq) (pullLen : Nat) : Rq :=
  let i := rq.slot g rq.ci
  let info := { i with pageOffset := i.pageOffset + pullLen }
  { rq with info := Function.update rq.info (rq.ci % g.depth) info }

/-- `unic_add_skb_frags`. -/
def addSkbFrags (rq : Rq) (env : RxEnv) (pktLen : Nat) (head : Skb) : Packet × Bool :=
  let num := rqeNum g pktLen
  let fragSize := if num = 1 then pktLen else g.buffLen
  let k : Packet := { head := head.fillFrag (rq.slot g rq.ci) (fragSize - env.pullLen) }
  rq.addFragsLoop g env (num - 1) 1 1 pktLen k

def headBytes (rq : Rq) (n : Nat) : List (BitVec 8) :=
  let i := rq.slot g rq.ci
  (List.range n).map fun x => rq.mem i.page (i.pageOffset + x)

/-- `unic_create_skb`: the queue and the packet, or nothing for an error. -/
def createSkb (rq : Rq) (env : RxEnv) (pktLen : Nat) : Rq × Option Packet :=
  if env.headFails then (rq, none)
  else if pktLen ≤ 256 then
    ({ rq with returned := rq.returned ++ [(rq.slot g rq.ci).page] },
      some { head := { linear := rq.headBytes g pktLen, len := pktLen } })
  else
    let head : Skb := { linear := rq.headBytes g env.pullLen, len := env.pullLen }
    let rq := rq.pullOffset g env.pullLen
    match rq.addSkbFrags g env pktLen head with
    | (k, false) => ({ rq with returned := rq.returned ++ k.pages }, none)
    | (k, true) => (rq, some k)

/-- `unic_page_pool_put_frags`. -/
def putFrags (rq : Rq) : Nat → Rq
  | 0 => rq
  | n + 1 =>
    { rq with
      returned := rq.returned ++ [(rq.slot g rq.ci).page]
      ci := (rq.ci + 1) % 65536 }.putFrags n

/-- `unic_fix_rq_ci`. -/
def fixRqCi (rq : Rq) (cqe : Cqe) : Rq :=
  if rq.ci = cqe.startRqeIdx then rq
  else
    let start := if cqe.startRqeIdx < rq.ci then cqe.startRqeIdx + 65536 else cqe.startRqeIdx
    let num := start - rq.ci
    let rq := rq.putFrags g num
    { rq with pendingBuf := (rq.pendingBuf + num) % 65536, ci := cqe.startRqeIdx }

/-- `unic_handle_cqe` accepts the packet. -/
def handleCqe (cqe : Cqe) : Bool := !(cqe.packetLen == 0 || cqe.l2Err || cqe.trunc)

/-- `unic_rx_construct_skb`: the queue and the packet for the stack. -/
def rxConstructSkb (rq : Rq) (env : RxEnv) (cqe : Cqe) : Rq × Option Packet :=
  if cqe.doi then (rq, none)
  else
    let rq := rq.fixRqCi g cqe
    let num := rqeNum g cqe.packetLen
    let rq := { rq with pendingBuf := (rq.pendingBuf + num) % 65536 }
    match rq.createSkb g env cqe.packetLen with
    | (rq, none) => (rq.putFrags g num, none)
    | (rq, some k) =>
      if handleCqe cqe then ({ rq with ci := (rq.ci + num) % 65536 }, some k)
      else ({ rq with returned := rq.returned ++ k.pages }.putFrags g num, none)

/-- `unic_rx_construct_skb` in `unic_poll_rx`: the packet goes to the stack. -/
def rx (rq : Rq) (env : RxEnv) (cqe : Cqe) : Rq :=
  match rq.rxConstructSkb g env cqe with
  | (rq, none) => rq
  | (rq, some k) => { rq with stack := rq.stack ++ [k] }

/-- `unic_clear_rq_buffers`. -/
def clearRqBuffers (rq : Rq) (cqe : Cqe) : Rq :=
  if cqe.doi then rq
  else
    let rq := rq.fixRqCi g cqe
    let num := rqeNum g cqe.packetLen
    let rq := rq.putFrags g num
    { rq with pendingBuf := (rq.pendingBuf + num) % 65536 }

/-- The loop of `unic_refill_rx_buffers` over the pending slots from index `i` on;
`ok` allocations succeed. -/
def refillLoop (rq : Rq) : Nat → Nat → Nat → Rq × Nat
  | 0, i, _ => (rq, i)
  | _ + 1, i, 0 => (rq, i)
  | n + 1, i, ok + 1 =>
    { rq with
      info := Function.update rq.info (i % g.depth) { page := rq.next, pageOffset := 0 }
      next := rq.next + 1
      pi := (rq.pi + 1) % 65536 }.refillLoop n (i + 1) ok

/-- `unic_refill_rx_buffers`. -/
def refillRxBuffers (rq : Rq) (ok : Nat) : Rq :=
  let rqCi := if rq.ci < rq.pendingBuf then rq.ci + 65536 else rq.ci
  let r := rq.refillLoop g rq.pendingBuf (rqCi - rq.pendingBuf) ok
  if rqCi - rq.pendingBuf < r.2 then { r.1 with pendingBuf := rqCi - r.2 } else r.1

def freeSkb (rq : Rq) (n : Nat) : Rq :=
  match rq.stack[n]? with
  | none => rq
  | some k => { rq with stack := rq.stack.eraseIdx n, returned := rq.returned ++ k.pages }

/-- A queue after `unic_rq_fill_rx_buffers`. -/
def init (mem : Nat → Nat → BitVec 8) : Rq where
  pi := g.depth
  info i := { page := i }
  mem := mem
  next := g.depth

end Rq

inductive RxAct where
  | rx (env : RxEnv) (cqe : Cqe)
  | clear (cqe : Cqe)
  | refill (ok : Nat)
  | free (n : Nat)

def Rq.act (g : RqCfg) (rq : Rq) : RxAct → Rq
  | .rx env cqe => rq.rx g env cqe
  | .clear cqe => rq.clearRqBuffers g cqe
  | .refill ok => rq.refillRxBuffers g ok
  | .free n => rq.freeSkb n

end UbDkms.Unic
