import UbDkms.Lib.Reach
import UbDkms.Lib.Ring

/-!
# Transmit queue of a UNIC device

`unic_tx.c`: `unic_start_xmit` copies the linear bytes of a packet into pages of the
queue and posts an entry of some blocks (`sqebb`) that points to them; `unic_poll_tx`
frees the packets the hardware has completed. A block has four sections, and the first
two of an entry are its control section. `outs` lists the entries posted and not yet
reclaimed; `accepted`, `completed`, `freed` and `dropped` list packets.
-/

namespace UbDkms.Unic

/-- The linear part of a packet. -/
structure TxSkb where
  id : Nat
  len : Nat
  data : Nat → BitVec 8

/-- The configuration of a queue; `pageNum` is `tx_buff->num`. -/
structure SqCfg where
  depthShift : Nat
  pageNum : Nat
  pageSize : Nat
  ubl : Bool
  /-- `sqebb_depth` is a `u16`. -/
  depth_le : depthShift ≤ 15
  num_lt : pageNum < 65536
  page_pos : 0 < pageSize

def SqCfg.depth (g : SqCfg) : Nat := 2 ^ g.depthShift

/-- `unic_sqebb_cnt(sge_num + UNIC_SQE_CTRL_SECTION_NUM)`. -/
def sqebbCnt (sgeNum : Nat) : Nat := (sgeNum + 2 + 3) / 4

/-- An entry that was posted from block `start` on. -/
structure TxEntry where
  start : Nat
  skb : TxSkb
  sgeNum : Nat

def TxEntry.cnt (e : TxEntry) : Nat := sqebbCnt e.sgeNum

structure TxCqe where
  rawCi : Nat
  fd : Bool := false
  deriving DecidableEq, Repr

def TxEntry.cqe (e : TxEntry) : TxCqe := { rawCi := (e.start + e.cnt - 1) % 65536 }

/-- The flush completion: not written, written, in work, or done with. -/
inductive Flush where
  | no
  | written
  | running
  | over
  deriving DecidableEq, Repr

/-- `struct unic_sq` with its `tx_buff` and completion queue. -/
structure Sq where
  pi : Nat := 0
  ci : Nat := 0
  lastPi : Nat := 0
  skbs : Nat → Option TxSkb := fun _ => none
  /-- `sge_num` in the control section of a block. -/
  ctrl : Nat → Nat := fun _ => 0
  /-- Page and length of the section at a place of the array of sections. -/
  sge : Nat → Nat × Nat := fun _ => (0, 0)
  txPi : Nat := 0
  txCi : Nat := 0
  mem : Nat → Nat → BitVec 8 := fun _ _ => 0
  cq : List TxCqe := []
  /-- `sq_ci` of a poll in progress. -/
  poll : Option Nat := none
  flush : Flush := .no
  outs : List TxEntry := []
  accepted : List Nat := []
  completed : List Nat := []
  freed : List Nat := []
  dropped : List Nat := []
  batch : Bool := false

/-- What a call of `unic_start_xmit` meets: failing helpers, the header fields it
rewrites, `netdev_xmit_more` and a queue stopped by its limit. -/
structure TxEnv where
  padErr : Bool := false
  cfg5 : Bool := false
  vlanErr : Bool := false
  csumErr : Bool := false
  edit : (Nat → BitVec 8) → Nat → BitVec 8 := id
  more : Bool := false
  stopped : Bool := false

namespace TxSkb

/-- `skb_put_padto(skb, UNIC_MIN_TX_LEN)`. -/
def padto (skb : TxSkb) : TxSkb :=
  if skb.len < 60 then
    { skb with len := 60, data := fun x => if x < skb.len then skb.data x else 0 }
  else skb

/-- `ubl_rmv_sw_ctype`. -/
def rmvSwCtype (skb : TxSkb) : TxSkb :=
  { skb with len := skb.len - 1, data := fun x => skb.data (x + 1) }

end TxSkb

namespace Sq

variable (g : SqCfg)

/-- Positions from `ci` to `pi`, which wrap at `UNIC_SQEBB_POINT_REVERSE`. -/
def used (pi ci : Nat) : Nat := (if pi < ci then pi + 65536 else pi) - ci

/-- `unic_get_spare_sqebb_num`. -/
def spareSqebb (s : Sq) : Nat := (g.depth + 65536 - used s.pi s.ci) % 65536

/-- `unic_get_spare_page_num`. -/
def sparePage (s : Sq) : Nat := (g.pageNum + 65536 - used s.txPi s.txCi) % 65536

/-- `DIV_ROUND_UP(skb_headlen(skb), PAGE_SIZE)`. -/
def sgeNum (len : Nat) : Nat := (len + g.pageSize - 1) / g.pageSize

/-- `memcpy` of `len` bytes of a packet from `off` on to a page. -/
def copy (mem : Nat → Nat → BitVec 8) (page : Nat) (skb : TxSkb) (off len : Nat) :
    Nat → Nat → BitVec 8 :=
  fun p x => if p = page ∧ x < len then skb.data (off + x) else mem p x

/-- The loop of `unic_handle_sge_section` from section `i` on, `n` of them left. -/
def handleSgeSection (skb : TxSkb) : Nat → Nat → Nat → Nat → Sq → Sq
  | 0, _, _, _, s => s
  | n + 1, i, secNum, sqPi, s =>
    let page := s.txPi % g.pageNum
    let len := if n ≠ 0 then g.pageSize else skb.len - i * g.pageSize
    let s := { s with
      mem := copy s.mem page skb (i * g.pageSize) len
      sge := Function.update s.sge (4 * (sqPi % g.depth) + secNum) (page, len)
      txPi := (s.txPi + 1) % 65536 }
    -- `unic_get_next_sge`
    if 4 ≤ secNum + 1 then handleSgeSection skb n (i + 1) 0 ((sqPi + 1) % 65536) s
    else handleSgeSection skb n (i + 1) (secNum + 1) sqPi s

/-- The end of `unic_handle_sqe`. After a flush completion the hardware reports no entry
any more, so it stands for this one too. -/
def post (s : Sq) (skb : TxSkb) : Sq :=
  let n := sgeNum g skb.len
  let s := { s with ctrl := Function.update s.ctrl (s.pi % g.depth) n }
  let s := handleSgeSection g skb n 0 2 s.pi s
  { s with
    skbs := Function.update s.skbs (s.pi % g.depth) (some skb)
    pi := (s.pi + sqebbCnt n) % 65536
    outs := s.outs ++ [{ start := s.pi, skb, sgeNum := n }]
    accepted := s.accepted ++ [skb.id]
    completed := if s.flush = .no then s.completed else s.completed ++ [skb.id] }

/-- `unic_handle_sqe`. -/
def handleSqe (s : Sq) (skb : TxSkb) (env : TxEnv) : Sq × Bool :=
  if env.vlanErr then (s, false)
  else if env.csumErr then ({ s with ctrl := Function.update s.ctrl (s.pi % g.depth) 0 }, false)
  else (s.post g { skb with data := env.edit skb.data }, true)

/-- `unic_tx_compensate_doorbell`. -/
def compensateDoorbell (s : Sq) : Sq := { s with lastPi := s.pi }

/-- `unic_tx_doorbell`. -/
def txDoorbell (s : Sq) (doorbell : Bool) : Sq := if doorbell then { s with lastPi := s.pi } else s

/-- `xmit_drop_pkt`. -/
def drop (s : Sq) (skb : TxSkb) : Sq := { s with dropped := s.dropped ++ [skb.id] }.compensateDoorbell

/-- `unic_maybe_stop_tx` finds enough blocks and pages. -/
def hasSpace (s : Sq) (n : Nat) : Bool := decide (sqebbCnt n ≤ s.spareSqebb g ∧ n ≤ s.sparePage g)

/-- `unic_handle_sqe` and the doorbell. -/
def send (s : Sq) (skb : TxSkb) (env : TxEnv) : Sq :=
  match s.handleSqe g skb env with
  | (s, false) => s.drop skb
  | (s, true) => s.txDoorbell (!env.more || env.stopped)

/-- `unic_start_xmit` of a packet that is long enough. -/
def xmit (s : Sq) (skb : TxSkb) (env : TxEnv) : Sq :=
  let n := sgeNum g skb.len
  if 18 < n then s.drop skb
  else if s.hasSpace g n then
    -- `unic_apply_ub_pkt`
    if g.ubl then
      if env.cfg5 then s.drop skb else s.send g skb.rmvSwCtype env
    else s.send g skb env
  else s.compensateDoorbell

/-- `unic_start_xmit`. -/
def startXmit (s : Sq) (skb : TxSkb) (env : TxEnv) : Sq :=
  if g.ubl then s.xmit g skb env
  else if skb.len < 60 ∧ env.padErr then s.drop skb
  else s.xmit g skb.padto env

/-- The blocks `unic_reclaim_single_sqe_space` clears, `cnt` of them from `ci` on. -/
def cleared (ci cnt b : Nat) : Bool :=
  if g.depth - 1 < ci + cnt - 1 then decide (ci ≤ b ∨ b < ci + cnt - 1 - (g.depth - 1))
  else decide (ci ≤ b ∧ b < ci + cnt)

/-- `unic_reclaim_single_sqe_space` at position `c`. -/
def reclaimSingleSqeSpace (s : Sq) (c : Nat) : Sq :=
  let n := s.ctrl (c % g.depth)
  { s with
    ctrl := fun b => if cleared g (c % g.depth) (sqebbCnt n) b then 0 else s.ctrl b
    sge := fun a => if cleared g (c % g.depth) (sqebbCnt n) (a / 4) then (0, 0) else s.sge a
    txCi := (s.txCi + n) % 65536
    poll := some ((c + sqebbCnt n) % 65536)
    outs := s.outs.tail }

/-- `napi_consume_skb` of the packet at position `c`. -/
def consumeSkb (s : Sq) (c : Nat) : Sq :=
  { s with freed := s.freed ++ (s.skbs (c % g.depth)).toList.map (·.id) }

/-- A poll ends and publishes `sq_ci`. -/
def pollEnd (s : Sq) (c : Nat) : Sq := { s with ci := c, poll := none }

/-- `unic_check_hw_ci_valid`. -/
def checkHwCiValid (s : Sq) (hwCi c : Nat) : Bool :=
  (c + sqebbCnt (s.ctrl (c % g.depth)) - 1) % 65536 == hwCi

/-- `unic_check_sq_ci_valid`. -/
def checkSqCiValid (s : Sq) (c : Nat) : Bool := decide (used s.pi c ≠ 0 ∧ used s.pi c ≤ g.depth)

/-- A round of the loop of `unic_flush_unused_sqe`. -/
def flushUnusedSqe (s : Sq) (c : Nat) : Sq :=
  if c = s.pi then { s.pollEnd c with flush := .over }
  else (s.consumeSkb g c).reclaimSingleSqeSpace g c

/-- A round of the loop of `unic_reclaim_sq_space` for a completion. -/
def reclaimSqSpace (s : Sq) (c : Nat) (cqe : TxCqe) (cq : List TxCqe) : Sq :=
  if cqe.fd then { s with cq, flush := .running }
  else if !s.checkHwCiValid g cqe.rawCi c || !s.checkSqCiValid g c then s.pollEnd c
  else if (s.skbs (c % g.depth)).isNone then s.pollEnd c
  else
    let s := s.consumeSkb g c
    { s with skbs := Function.update s.skbs (c % g.depth) none, cq }.reclaimSingleSqeSpace g c

/-- `unic_poll_tx`, a round at a time: it starts, handles a completion or ends. -/
def pollTx (s : Sq) : Sq :=
  match s.poll with
  | none => { s with poll := some s.ci }
  | some c =>
    if s.flush = .running then s.flushUnusedSqe g c
    else match s.cq with
      | [] => s.pollEnd c
      | cqe :: cq => s.reclaimSqSpace g c cqe cq

def complete (s : Sq) : Sq :=
  match s.outs[s.cq.length]? with
  | none => s
  | some e => { s with cq := s.cq ++ [e.cqe], completed := s.completed ++ [e.skb.id] }

def hwFlush (s : Sq) : Sq :=
  { s with cq := s.cq ++ [{ rawCi := 0, fd := true }], flush := .written, completed := s.accepted }

end Sq

inductive TxAct where
  | xmit (skb : TxSkb) (env : TxEnv)
  | poll
  | complete
  | flush

def Sq.act (g : SqCfg) (s : Sq) : TxAct → Sq
  | .xmit skb env => { s.startXmit g skb env with batch := env.more }
  | .poll => s.pollTx g
  | .complete => s.complete
  | .flush => s.hwFlush

def Sq.Ends (s : Sq) : TxAct → Prop
  | .complete => s.flush = .no
  | .flush => s.flush = .no
  | _ => True

end UbDkms.Unic
