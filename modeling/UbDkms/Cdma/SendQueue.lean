import UbDkms.Errno
import Mathlib.Data.List.Basic
import Mathlib.Tactic

/-!
# The CDMA send queue

`cdma_jfs.c`, the kernel's queue: `cdma_post_one_wr` builds the WQE of a request in a zeroed
buffer of four blocks of 64 bytes and copies the blocks it needs into the ring;
`cdma_post_sq_wr` does so for a list and then tells the device, by the doorbell or by writing
the one block through the direct window. `cdma_update_jetty_idx` and `cdma_update_flush_cr`
(`cdma_jfc.c`) move `ci` when a completion is polled.

A WQE is the list of its words of 32 bits; the rest of the buffer is zero. The parts of a WQE
follow each other without gaps, so that the list is the memory from the start of the buffer.
-/

namespace UbDkms.Cdma

/-- `struct cdma_sge_info` of a local buffer. -/
structure SgeInfo where
  addr : Nat
  len : Nat
  tid : Nat
deriving DecidableEq

/-- The remote element, with what is read of its segment. -/
structure RmtSge where
  addr : Nat
  tid : Nat
  tokenValueValid : Bool
  tokenValue : Nat
deriving DecidableEq

/-- What `struct cdma_rw_wr` has for a notification. -/
structure Notify where
  data : Nat
  addr : Nat
  tokenid : Nat
  tokenvalue : Nat
deriving DecidableEq

/-- `enum cdma_wr_opcode` with the part of the union that belongs to it; of the remote list the
first element is used. -/
inductive WrOp where
  | write (src : List SgeInfo) (dst : RmtSge) (targetHint : Nat)
  | writeNotify (src : List SgeInfo) (dst : RmtSge) (targetHint : Nat) (notify : Notify)
  | read (dst : List SgeInfo) (src : RmtSge)
  | cas (src : SgeInfo) (dst : RmtSge) (swap cmp : Nat)
  | fadd (src : SgeInfo) (dst : RmtSge) (operand : Nat)
  | other
deriving DecidableEq

/-- `struct cdma_jfs_wr`; the low six bits of `flag` have the order of those in the WQE. -/
structure JfsWr where
  op : WrOp
  flag : Nat
  tpn : Nat
  rmtEid : Nat
deriving DecidableEq

abbrev opcWrite : Nat := 0x3
abbrev opcWriteWithNotify : Nat := 0x5
abbrev opcRead : Nat := 0x6
abbrev opcCas : Nat := 0x7
abbrev opcFaa : Nat := 0xb

/-- `cdma_get_jfs_opcode`. -/
def cdmaGetJfsOpcode : WrOp → Option Nat
  | .write .. => some opcWrite
  | .writeNotify .. => some opcWriteWithNotify
  | .read .. => some opcRead
  | .cas .. => some opcCas
  | .fadd .. => some opcFaa
  | .other => none

/-- `CDMA_JFS_MAX_SGE_NOTIFY`. -/
abbrev maxSgeNotify : Nat := 11

/-- `cdma_k_sge_num_exceed`. -/
def sgeNumExceed (maxSgeNum : Nat) : WrOp → Bool
  | .cas .. => maxSgeNum == 0
  | .fadd .. => maxSgeNum == 0
  | .read dst _ => decide (maxSgeNum < dst.length)
  | .writeNotify src .. => decide (maxSgeNotify < src.length) || decide (maxSgeNum < src.length)
  | .write src .. => decide (maxSgeNum < src.length)
  | .other => false

/-- `struct cdma_normal_sge`. -/
def sgeWords (x : SgeInfo) : List Nat :=
  [x.len, x.tid % 2 ^ 32, x.addr % 2 ^ 32, x.addr / 2 ^ 32 % 2 ^ 32]

def fillSge : List SgeInfo → List Nat × Nat
  | [] => ([], 0)
  | x :: xs =>
    if x.len = 0 then fillSge xs else (sgeWords x ++ (fillSge xs).1, (fillSge xs).2 + 1)

/-- `struct cdma_sqe_ctl`, as `cdma_set_sqe` and the functions it calls fill it. -/
def sqeCtl (wr : JfsWr) (owner : Bool) (opcode targetHint : Nat) (rmt : RmtSge) (sgeNum : Nat) :
    List Nat :=
  [wr.flag % 2 ^ 6 * 2 ^ 16 + rmt.tokenValueValid.toNat * 2 ^ 28 + owner.toNat * 2 ^ 31,
    targetHint % 2 ^ 8 + opcode * 2 ^ 8, wr.tpn % 2 ^ 24 + sgeNum % 2 ^ 8 * 2 ^ 24,
    rmt.tid % 2 ^ 20, wr.rmtEid % 2 ^ 32, 0, 0, 0, rmt.tokenValue % 2 ^ 32, 0,
    rmt.addr % 2 ^ 32, rmt.addr / 2 ^ 32 % 2 ^ 32]

def notifyWords (n : Notify) : List Nat :=
  [n.tokenid % 2 ^ 20, n.tokenvalue % 2 ^ 32, n.addr % 2 ^ 32, n.addr / 2 ^ 32 % 2 ^ 32,
    n.data % 2 ^ 32, n.data / 2 ^ 32 % 2 ^ 32, 0, 0]

def operandWords (n v : Nat) : List Nat := (List.range n).map fun i => v / 2 ^ (32 * i) % 2 ^ 32

/-- `cdma_check_atomic_len`. -/
def checkAtomicLen (isCas : Bool) (len : Nat) : Bool :=
  decide (len = 4) || decide (len = 8) || decide (len = 16) && isCas

/-- The buffer with the WQE; `sgeNum` is the field `sge_num`, of eight bits. -/
structure Wqe where
  opcode : Nat
  words : List Nat
  sgeNum : Nat
deriving DecidableEq

/-- `cdma_set_sqe` with `cdma_fill_normal_sge`. -/
def setSqe (wr : JfsWr) (owner : Bool) (opcode : Nat) : Option Wqe :=
  match wr.op with
  | .write src dst hint =>
    let r := fillSge src
    some ⟨opcode, sqeCtl wr owner opcode hint dst r.2 ++ r.1, r.2 % 2 ^ 8⟩
  | .writeNotify src dst hint n =>
    let r := fillSge src
    some ⟨opcode, sqeCtl wr owner opcode hint dst r.2 ++ (notifyWords n ++ r.1), r.2 % 2 ^ 8⟩
  | .read dst src =>
    let r := fillSge dst
    some ⟨opcode, sqeCtl wr owner opcode 0 src r.2 ++ r.1, r.2 % 2 ^ 8⟩
  | .cas src dst swap cmp =>
    if checkAtomicLen true src.len then
      some ⟨opcode, sqeCtl wr owner opcode 0 dst 1 ++ (sgeWords src ++
        (operandWords (src.len / 4) swap ++ operandWords (src.len / 4) cmp)), 1⟩
    else none
  | .fadd src dst operand =>
    if checkAtomicLen false src.len then
      some ⟨opcode, sqeCtl wr owner opcode 0 dst 1 ++ (sgeWords src ++
        operandWords (src.len / 4) operand), 1⟩
    else none
  | .other => none

/-- `cdma_get_ctl_len`, in bytes. -/
def getCtlLen (opcode : Nat) : Nat := if opcode = opcWriteWithNotify then 80 else 48

/-- `cdma_get_normal_sge_num`. -/
def getNormalSgeNum (opcode sgeNum : Nat) : Nat :=
  if opcode = opcCas ∨ opcode = opcFaa then 2 else sgeNum

/-- `cdma_sq_cal_wqebb_num`; the arithmetic is that of `u32`. -/
def sqCalWqebbNum (ctlLen sgeNum : Nat) : Nat :=
  (ctlLen + (sgeNum + 2 ^ 32 - 1) * 16) % 2 ^ 32 / 64 + 1

/-- `cdma_cal_wqebb_num`. -/
def calWqebbNum (m : Wqe) : Nat :=
  sqCalWqebbNum (getCtlLen m.opcode) (getNormalSgeNum m.opcode m.sgeNum)

/-- How the device is told: the doorbell with `pi`, or the sixteen words of a block, in the first
of which `sqe_bb_idx` is `pi`. -/
inductive Told where
  | doorbell (pi : Nat)
  | direct (block : List Nat)
deriving DecidableEq

/-- `struct cdma_jetty_queue`. The ring has blocks of 16 words, and `currBlk` is the block of
`kva_curr`. -/
structure SendQueue where
  shift : Nat
  maxSgeNum : Nat
  /-- `CDMA_CAP_FEATURE_DIRECT_WQE`. -/
  directWqe : Bool
  pi : Nat := 0
  ci : Nat := 0
  currBlk : Nat := 0
  ring : Nat → Nat → Nat := fun _ _ => 0
  fault : Bool := false

namespace SendQueue

/-- `buf.entry_cnt`. -/
def entryCnt (sq : SendQueue) : Nat := 2 ^ sq.shift

def owner (sq : SendQueue) (pi : Nat) : Bool := decide (pi / sq.entryCnt % 2 = 0)

def inUse (sq : SendQueue) : Nat := (sq.pi + 2 ^ 32 - sq.ci) % 2 ^ 32

/-- `to_check_sq_overflow`. -/
def toCheckSqOverflow (sq : SendQueue) (cnt : Nat) : Bool :=
  decide (sq.entryCnt < (sq.inUse + cnt) % 2 ^ 32)

/-- The two copies of `cdma_copy_to_sq`. -/
def copyToSq (sq : SendQueue) (cnt : Nat) (m : List Nat) : SendQueue :=
  let remain := sq.entryCnt - sq.pi % sq.entryCnt
  let tailCnt := if cnt < remain then cnt else remain
  let headCnt := cnt - tailCnt
  { sq with
    ring := fun b w =>
      if b < headCnt then m.getD (16 * (tailCnt + b) + w) 0
      else if sq.currBlk ≤ b ∧ b < sq.currBlk + tailCnt then m.getD (16 * (b - sq.currBlk) + w) 0
      else sq.ring b w
    fault := sq.fault || decide (sq.entryCnt < sq.currBlk + tailCnt) ||
      decide (sq.entryCnt < headCnt) || decide (4 < cnt) || decide (64 < m.length) }

/-- `cdma_k_update_ptr`, in blocks. -/
def updatePtr (sq : SendQueue) (cnt : Nat) : Nat :=
  if sq.currBlk + cnt < sq.entryCnt then sq.currBlk + cnt else sq.currBlk + cnt - sq.entryCnt

/-- `cdma_post_one_wr`: what `dwqe_enable` becomes, and the queue or the error. -/
def postOneWr (sq : SendQueue) (dwqeEnable : Bool) (wr : JfsWr) : Bool × Except Errno SendQueue :=
  match cdmaGetJfsOpcode wr.op with
  | none => (dwqeEnable, .error .einval)
  | some opcode =>
    if sgeNumExceed sq.maxSgeNum wr.op then (dwqeEnable, .error .einval)
    else
      match setSqe wr (sq.owner sq.pi) opcode with
      | none => (dwqeEnable, .error .einval)
      | some m =>
        let cnt := calWqebbNum m
        let dwqeEnable := dwqeEnable || cnt == 1 && sq.directWqe
        if sq.toCheckSqOverflow cnt then (dwqeEnable, .error .enomem)
        else
          (dwqeEnable, .ok { sq.copyToSq cnt m.words with
            currBlk := sq.updatePtr cnt
            pi := (sq.pi + cnt) % 2 ^ 32 })

/-- What the loop of `cdma_post_sq_wr` leaves. -/
structure PostLoop where
  sq : SendQueue
  posted : List JfsWr
  dwqeEnable : Bool
  dwqeAddr : Nat
  badWr : Option (JfsWr × Errno)

/-- The loop of `cdma_post_sq_wr`. -/
def postList (sq : SendQueue) (dwqeEnable : Bool) (dwqeAddr : Nat) : List JfsWr → PostLoop
  | [] => ⟨sq, [], dwqeEnable, dwqeAddr, none⟩
  | wr :: wrs =>
    match sq.postOneWr dwqeEnable wr with
    | (en, .error e) => ⟨sq, [], en, dwqeAddr, some (wr, e)⟩
    | (en, .ok sq') =>
      let r := sq'.postList en sq.currBlk wrs
      { r with posted := wr :: r.posted }

/-- `ctrl->sqe_bb_idx = sq->pi`, sixteen bits of the first word of the block. -/
def setBbIdx (sq : SendQueue) (addr : Nat) : SendQueue :=
  { sq with ring := fun b w =>
      if b = addr ∧ w = 0 then sq.ring b 0 / 2 ^ 16 * 2 ^ 16 + sq.pi % 2 ^ 16 else sq.ring b w }

/-- `cdma_write_dsqe`. -/
def writeDsqe (sq : SendQueue) (addr : Nat) : SendQueue × Told :=
  (sq.setBbIdx addr, .direct ((List.range 16).map ((sq.setBbIdx addr).ring addr)))

structure PostResult where
  sq : SendQueue
  posted : List JfsWr
  badWr : Option (JfsWr × Errno)
  told : Option Told

/-- `cdma_post_sq_wr`; `normal` tells that `cdev->status` is `CDMA_STATUS_NORMAL`. -/
def postSqWr (sq : SendQueue) (normal : Bool) (wrs : List JfsWr) : PostResult :=
  let r := sq.postList false 0 wrs
  if r.posted = [] ∨ normal = false then ⟨r.sq, r.posted, r.badWr, none⟩
  else if r.posted.length = 1 ∧ r.dwqeEnable = true ∧ r.sq.inUse = 1 then
    let d := r.sq.writeDsqe r.dwqeAddr
    ⟨d.1, r.posted, r.badWr, some d.2⟩
  else ⟨r.sq, r.posted, r.badWr, some (.doorbell r.sq.pi)⟩

/-- What is read of `struct cdma_jfc_cqe`; `known` tells that `cdma_get_cr_status` knows the
status. -/
structure Cqe where
  entryIdx : Nat
  fd : Bool
  known : Bool

/-- `cdma_update_jetty_idx`, then `cdma_update_flush_cr`. -/
def parseCqe (sq : SendQueue) (cqe : Cqe) : SendQueue :=
  if cqe.fd then sq
  else
    let ci := (sq.ci + (cqe.entryIdx + 2 ^ 32 - sq.ci) % 2 ^ 32 % sq.entryCnt) % 2 ^ 32
    { sq with ci := if cqe.known then (ci + 1) % 2 ^ 32 else ci }

end SendQueue

namespace JfsWr

def wqe (wr : JfsWr) (owner : Bool) : Option Wqe := (cdmaGetJfsOpcode wr.op).bind (setSqe wr owner)

def blocks (wr : JfsWr) : Nat := ((wr.wqe false).map calWqebbNum).getD 0

end JfsWr

/-- The queue with the requests whose completion was not polled; the first of them has the block
with the number `first`, counted from the creation of the queue. -/
structure Sq where
  sq : SendQueue
  first : Nat := 0
  pending : List JfsWr := []

def used (wrs : List JfsWr) : Nat := (wrs.map JfsWr.blocks).sum

inductive SqAct where
  | post (normal : Bool) (wrs : List JfsWr)
  /-- A completion is polled; if it is not the one that ends a flush, it is that of the pending
  request `k`, and it tells that those before are complete too. -/
  | poll (k : Nat) (cqe : SendQueue.Cqe)

def Sq.act (s : Sq) : SqAct → Sq
  | .post normal wrs =>
    let r := s.sq.postSqWr normal wrs
    { s with sq := r.sq, pending := s.pending ++ r.posted }
  | .poll k cqe =>
    if cqe.fd then { s with sq := s.sq.parseCqe cqe }
    else
      { sq := s.sq.parseCqe cqe
        first := s.first + used (s.pending.take (k + 1))
        pending := s.pending.drop (k + 1) }

/-- What hardware is assumed to do: `entry_idx` is a block of the request that is completed. -/
def Sq.Reports (s : Sq) : SqAct → Prop
  | .post .. => True
  | .poll k cqe => cqe.fd = true ∨ k < s.pending.length ∧
      ∃ b, s.first + used (s.pending.take k) ≤ b ∧ b < s.first + used (s.pending.take (k + 1)) ∧
        cqe.entryIdx % s.sq.entryCnt = b % s.sq.entryCnt

end UbDkms.Cdma
