import Mathlib.Logic.Function.Basic
import Mathlib.Data.List.Range
import Mathlib.Tactic

/-!
# The send queue of a jetty

`udma_jfs.c`, the kernel's queue: `udma_post_one_wr` builds the WQE of a work request in a
scratch buffer of four blocks, counts its blocks and copies them into the ring;
`udma_flush_sq` copies four blocks out again and reads from them how long the request was
and how many blocks it took.

The scratch buffer has 64 words of 32 bits. The bit-fields of `struct udma_sqe_ctl` are the
words 0 to 3; what follows of the control section (ids, tokens, addresses, immediate data)
is given with the request.
-/

namespace UbDkms.Udma

/-- `enum ubcore_opcode`; `other` is what `udma_get_jfs_opcode` does not know. -/
inductive UbcoreOpc where
  | send
  | sendImm
  | sendInvalidate
  | write
  | writeImm
  | writeAtomic
  | read
  | cas
  | fadd
  | nop
  | other
deriving DecidableEq

/-- `struct ubcore_sge`. -/
structure LocalSge where
  addr : Nat
  len : Nat
  len_lt : len < 2 ^ 32

/-- `struct ubcore_jfs_wr`. -/
structure JfsWr where
  opcode : UbcoreOpc
  inlineFlag : Bool
  userCtx : Nat
  /-- `send.src` or `rw.src`; the first element is the `src` of an atomic. -/
  src : List LocalSge
  dst : List LocalSge
  /-- The bit-fields of word 0 below `inline_en`, and those above up to `owner`. -/
  low : Nat
  high : Nat
  targetHint : Nat
  tpn : Nat
  rmtObjId : Nat
  rest : Nat → Nat
  data : Nat → Nat

abbrev opcSend : Nat := 0x0
abbrev opcSendWithImm : Nat := 0x1
abbrev opcSendWithInvalid : Nat := 0x2
abbrev opcWrite : Nat := 0x3
abbrev opcWriteWithImm : Nat := 0x4
abbrev opcRead : Nat := 0x6
abbrev opcCas : Nat := 0x7
abbrev opcFaa : Nat := 0xb
abbrev opcNop : Nat := 0x11
abbrev opcWriteWithAtomicstoreAdd : Nat := 0x19

/-- `udma_get_jfs_opcode`. -/
def udmaGetJfsOpcode (atomicAddEn : Bool) : UbcoreOpc → Option Nat
  | .send => some opcSend
  | .sendImm => some opcSendWithImm
  | .sendInvalidate => some opcSendWithInvalid
  | .write => some opcWrite
  | .writeImm => some opcWriteWithImm
  | .writeAtomic => if atomicAddEn then some opcWriteWithAtomicstoreAdd else none
  | .read => some opcRead
  | .cas => some opcCas
  | .fadd => some opcFaa
  | .nop => some opcNop
  | .other => none

/-- `get_ctl_len`, in bytes. -/
def getCtlLen (opcode : Nat) : Nat :=
  if opcode = opcWriteWithImm then 64 else if opcode = opcWriteWithAtomicstoreAdd then 56 else 48

/-- `sq_cal_wqebb_num`; the arithmetic is that of `u32`. -/
def sqCalWqebbNum (ctlLen sgeNum : Nat) : Nat :=
  (ctlLen + (sgeNum + 2 ^ 32 - 1) * 16) % 2 ^ 32 / 64 + 1

/-- The scratch buffer; `fault` tells that something was written outside of it. -/
structure Scratch where
  word : Nat → Nat := fun _ => 0
  fault : Bool := false

namespace Scratch

def put (m : Scratch) (i v : Nat) : Scratch :=
  { word := Function.update m.word i v, fault := m.fault || decide (64 ≤ i) }

def copy (m : Scratch) (off len : Nat) (data : Nat → Nat) : Scratch :=
  { word := fun w => if off < 4 * w + 4 ∧ 4 * w < off + len then data w else m.word w
    fault := m.fault || decide (256 < off + len) }

def putSge (m : Scratch) (pos : Nat) (x : LocalSge) : Scratch :=
  ((m.put pos x.len).put (pos + 2) (x.addr % 2 ^ 32)).put (pos + 3) (x.addr / 2 ^ 32 % 2 ^ 32)

def fillSges (m : Scratch) (pos num : Nat) : List LocalSge → Scratch × Nat
  | [] => (m, num)
  | x :: xs => if x.len = 0 then m.fillSges pos num xs else (m.putSge pos x).fillSges (pos + 4) (num + 1) xs

/-- The loop that copies the payload; the sum is one of `u32`. -/
def fillInline (m : Scratch) (data : Nat → Nat) (off max total : Nat) : List LocalSge → Option (Scratch × Nat)
  | [] => some (m, total)
  | x :: xs =>
    if max < (total + x.len) % 2 ^ 32 then none
    else (m.copy (off + total) x.len data).fillInline data off max ((total + x.len) % 2 ^ 32) xs

end Scratch

namespace JfsWr

def setCtl (wr : JfsWr) (owner : Bool) (opcode : Nat) (inlineEn : Bool) (inlineMsgLen sgeNum writeLen : Nat)
    (m : Scratch) : Scratch :=
  { m with word := fun w =>
      if w = 0 then wr.low % 2 ^ 22 + inlineEn.toNat * 2 ^ 22 + wr.high % 2 ^ 8 * 2 ^ 23 + owner.toNat * 2 ^ 31
      else if w = 1 then wr.targetHint % 2 ^ 8 + opcode * 2 ^ 8 + inlineMsgLen % 2 ^ 10 * 2 ^ 22
      else if w = 2 then wr.tpn % 2 ^ 24 + sgeNum % 2 ^ 8 * 2 ^ 24
      else if w = 3 then wr.rmtObjId % 2 ^ 20 + writeLen % 2 ^ 10 * 2 ^ 20
      else if w < getCtlLen opcode / 4 then wr.rest w
      else m.word w }

/-- `udma_k_fill_send_sqe` and `udma_k_fill_write_sqe` with `udma_fill_sw_sge`. -/
def fillSwSge (wr : JfsWr) (owner : Bool) (opcode maxInlineSize : Nat) : Option Scratch :=
  if wr.inlineFlag then
    (({} : Scratch).fillInline wr.data (getCtlLen opcode) maxInlineSize 0 wr.src).map fun r =>
      wr.setCtl owner opcode true r.2 0 0 r.1
  else if wr.opcode ≠ .writeAtomic then
    let r := ({} : Scratch).fillSges (getCtlLen opcode / 4) 0 wr.src
    some (wr.setCtl owner opcode false 0 r.2 0 r.1)
  else
    -- the length goes where the number of elements is otherwise
    match wr.src with
    | [] => none
    | x :: _ =>
      if 2 ^ 18 - 1 < x.len then none
      else some (wr.setCtl owner opcode false 0 (x.len % 2 ^ 8) (x.len / 2 ^ 8 % 2 ^ 10)
        ((({} : Scratch).put 14 (x.addr % 2 ^ 32)).put 15 (x.addr / 2 ^ 32 % 2 ^ 32)))

/-- `udma_k_fill_read_sqe`. -/
def fillReadSqe (wr : JfsWr) (owner : Bool) : Scratch :=
  let r := ({} : Scratch).fillSges 12 0 wr.dst
  wr.setCtl owner opcRead wr.inlineFlag 0 r.2 0 r.1

/-- `udma_k_fill_cas_sqe` and `udma_k_fill_faa_sqe`: one element, and the operands after the first block. -/
def fillAtomicSqe (wr : JfsWr) (owner : Bool) (opcode operands : Nat) : Option Scratch :=
  match wr.src with
  | [] => none
  | x :: _ =>
    -- `udma_k_check_atomic_len`
    if x.len = 4 ∨ x.len = 8 ∨ x.len = 16 ∧ wr.opcode = .cas then
      some (wr.setCtl owner opcode wr.inlineFlag 0 1 0
        ((({} : Scratch).putSge 12 x).copy 64 (operands * x.len) wr.data))
    else none

/-- `udma_k_set_sqe` with `udma_fill_normal_sge`. -/
def setSqe (wr : JfsWr) (owner : Bool) (opcode maxInlineSize : Nat) : Option Scratch :=
  match wr.opcode with
  | .nop =>
    let wr := { wr with high := 0, targetHint := 0, tpn := 0, rmtObjId := 0, rest := fun _ => 0 }
    some (wr.setCtl owner opcode false 0 0 0 {})
  | .send => wr.fillSwSge owner opcode maxInlineSize
  | .sendImm => wr.fillSwSge owner opcode maxInlineSize
  | .sendInvalidate => wr.fillSwSge owner opcode maxInlineSize
  | .write => wr.fillSwSge owner opcode maxInlineSize
  | .writeImm => wr.fillSwSge owner opcode (if 192 < maxInlineSize then 192 else maxInlineSize)
  | .writeAtomic => wr.fillSwSge owner opcode (if 8 < maxInlineSize then 8 else maxInlineSize)
  | .read => some (wr.fillReadSqe owner)
  | .cas => wr.fillAtomicSqe owner opcode 2
  | .fadd => wr.fillAtomicSqe owner opcode 1
  | .other => none

/-- `udma_k_check_sge_num`: too many elements. -/
def checkSgeNum (wr : JfsWr) (maxSgeNum : Nat) : Bool :=
  match wr.opcode with
  | .cas => maxSgeNum == 0
  | .fadd => maxSgeNum == 0
  | .read => decide (6 < wr.dst.length) || decide (maxSgeNum < wr.dst.length)
  | .writeImm => decide (12 < wr.src.length) || decide (maxSgeNum < wr.src.length)
  | .writeAtomic =>
    decide (wr.src.length ≠ 1) || decide (maxSgeNum < wr.src.length) || decide (wr.dst.length ≠ 2)
  | _ => decide (maxSgeNum < wr.src.length)

end JfsWr

def inlineEn (m : Nat → Nat) : Nat := m 0 / 2 ^ 22 % 2

def sqeOpcode (m : Nat → Nat) : Nat := m 1 / 2 ^ 8 % 2 ^ 8

def inlineMsgLen (m : Nat → Nat) : Nat := m 1 / 2 ^ 22 % 2 ^ 10

def sgeNum (m : Nat → Nat) : Nat := m 2 / 2 ^ 24 % 2 ^ 8

/-- `get_wqebb_num`. -/
def getWqebbNum (m : Nat → Nat) : Nat :=
  if sqeOpcode m ≤ opcWriteWithImm ∧ inlineEn m = 1 then
    (getCtlLen (sqeOpcode m) + inlineMsgLen m - 1) / 64 + 1
  else if sqeOpcode m = opcCas ∨ sqeOpcode m = opcFaa then 2
  else if sqeOpcode m = opcWriteWithAtomicstoreAdd then 1
  else if sqeOpcode m = opcNop then 1
  else sqCalWqebbNum (getCtlLen (sqeOpcode m)) (sgeNum m)

/-- The loop over the elements: the sum of their lengths, and whether one was outside the buffer. -/
def readSges (m : Nat → Nat) (pos : Nat) : Nat → Nat × Bool
  | 0 => (0, false)
  | n + 1 => (m pos + (readSges m (pos + 4) n).1, decide (64 ≤ pos) || (readSges m (pos + 4) n).2)

/-- `fill_cr_by_sqe_ctl`: `completion_len`, and whether something outside the buffer was read. -/
def fillCrBySqeCtl (m : Nat → Nat) : Nat × Bool :=
  if inlineEn m = 1 then (inlineMsgLen m, false)
  else
    let r := readSges m (getCtlLen (sqeOpcode m) / 4) (sgeNum m)
    (if 2 ^ 32 - 1 < r.1 then 2 ^ 32 - 1 else r.1, r.2)

inductive PostErr where
  | einval
  | enomem
deriving DecidableEq

structure Cr where
  userCtx : Nat
  completionLen : Nat
deriving DecidableEq

/-- `struct udma_jetty_queue`. The ring has blocks of 16 words, and `currBlk` is the block of `kva_curr`. -/
structure SendQueue where
  shift : Nat
  maxInlineSize : Nat
  maxSgeNum : Nat
  atomicAddEn : Bool
  pi : Nat
  ci : Nat
  currBlk : Nat
  ring : Nat → Nat → Nat
  wrid : Nat → Nat
  fault : Bool

def incIdx (i cnt : Nat) : Nat := (i + cnt) % 2 ^ 32

namespace SendQueue

def entryCnt (sq : SendQueue) : Nat := 2 ^ sq.shift

/-- `udma_copy_to_sq`. -/
def copyToSq (sq : SendQueue) (cnt : Nat) (m : Nat → Nat) : SendQueue :=
  let remain := sq.entryCnt - sq.pi % sq.entryCnt
  let fieldH := if cnt < remain then cnt else remain
  let fieldL := cnt - fieldH
  { sq with
    ring := fun b w =>
      if b < fieldL then m (16 * (fieldH + b) + w)
      else if sq.currBlk ≤ b ∧ b < sq.currBlk + fieldH then m (16 * (b - sq.currBlk) + w)
      else sq.ring b w
    fault := sq.fault || decide (sq.entryCnt < sq.currBlk + fieldH) || decide (sq.entryCnt < fieldL) ||
      decide (4 < cnt) }

/-- `udma_k_inc_ptr_wrap`, in blocks. -/
def incPtrWrap (sq : SendQueue) (cnt : Nat) : Nat :=
  if sq.currBlk + cnt < sq.entryCnt then sq.currBlk + cnt else sq.currBlk + cnt - sq.entryCnt

def setWrid (sq : SendQueue) (ctx : Nat) : Nat → Nat → Nat
  | 0 => sq.wrid
  | i + 1 => Function.update (sq.setWrid ctx i) ((sq.pi + i) % 2 ^ 32 % sq.entryCnt) ctx

/-- `to_check_sq_overflow`; the arithmetic is that of `u32`. -/
def toCheckSqOverflow (sq : SendQueue) (cnt : Nat) : Bool :=
  decide (sq.entryCnt < ((sq.pi + 2 ^ 32 - sq.ci) % 2 ^ 32 + cnt) % 2 ^ 32)

/-- `udma_post_one_wr`, with `db_status` zero. -/
def postOneWr (sq : SendQueue) (wr : JfsWr) : Except PostErr SendQueue :=
  match udmaGetJfsOpcode sq.atomicAddEn wr.opcode with
  | none => .error .einval
  | some opcode =>
    if wr.checkSgeNum sq.maxSgeNum then .error .einval
    else
      match wr.setSqe (decide (sq.pi / sq.entryCnt % 2 = 0)) opcode sq.maxInlineSize with
      | none => .error .einval
      | some m =>
        let cnt := getWqebbNum m.word
        if sq.toCheckSqOverflow cnt then .error .enomem
        else
          let sq' := sq.copyToSq cnt m.word
          .ok { sq' with
            currBlk := sq.incPtrWrap cnt
            wrid := sq.setWrid wr.userCtx cnt
            pi := incIdx sq.pi cnt
            fault := sq'.fault || m.fault }

/-- `udma_copy_from_sq`: four blocks. -/
def copyFromSq (sq : SendQueue) (i : Nat) : Nat :=
  let remain := sq.entryCnt - sq.ci % sq.entryCnt
  let fieldH := if 4 < remain then 4 else remain
  if i / 16 < fieldH then sq.ring (sq.ci % sq.entryCnt + i / 16) (i % 16)
  else sq.ring (i / 16 - fieldH) (i % 16)

/-- `udma_flush_sq`. -/
def flushSq (sq : SendQueue) : SendQueue × Cr :=
  let m := sq.copyFromSq
  let r := fillCrBySqeCtl m
  ({ sq with ci := incIdx sq.ci (getWqebbNum m), fault := sq.fault || r.2 },
    { userCtx := sq.wrid (sq.ci % sq.entryCnt), completionLen := r.1 })

/-- `udma_flush_jfs`, with `flush_flag` set: at most `cr_cnt` requests. -/
def flushJfs (sq : SendQueue) : Nat → SendQueue × List Cr
  | 0 => (sq, [])
  | n + 1 =>
    if sq.ci = sq.pi then (sq, [])
    else
      let r := sq.flushSq
      let rs := r.1.flushJfs n
      (rs.1, r.2 :: rs.2)

/-- Requests are posted until one is refused: the queue, the accepted requests, and the refused one. -/
def postAll (sq : SendQueue) : List JfsWr → SendQueue × List JfsWr × Option (JfsWr × PostErr)
  | [] => (sq, [], none)
  | wr :: wrs =>
    match sq.postOneWr wr with
    | .error e => (sq, [], some (wr, e))
    | .ok sq' =>
      let r := sq'.postAll wrs
      (r.1, wr :: r.2.1, r.2.2)

end SendQueue

end UbDkms.Udma
