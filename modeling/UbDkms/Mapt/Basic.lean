import Mathlib.Algebra.Group.Nat.Defs
import UbDkms.Errno

/-!
# The UMMU permission table: data

`perm_table.h`. A MAPT block holds four level blocks of 512 nodes; a level
block is named by its block index and the offset of its first node
(`next_lv_index`, `next_lv_offset`). Blocks live in an xarray, the level blocks
in use in a bitmap, and every granted segment in the segment manager.

`St` is the table context together with what one request carries around: the
predecessor node `ummu_table_op` keeps on its stack, the PLB invalidations
gathered so far, and the outcomes of the allocations still to come (`faults`;
an exhausted list means that every further allocation succeeds).

The enumerations of `ummu_core.h` are their names only. A node's `permission` is `none` for
the zero code a cleared node carries.
-/

namespace UbDkms.Mapt

/-- `enum ummu_mapt_perm`. -/
inductive MaptPerm where
  | r | w | rw | atomicR | atomicW | atomicRw
  deriving DecidableEq, Repr

/-- `enum ummu_ebit_state`. -/
inductive EBit where
  | off | on
  deriving DecidableEq, Repr

/-- `enum ummu_grant_op_type`. -/
inductive GrantOp where
  | grant | addToken | removeToken | ungrant | opEnd
  deriving DecidableEq, Repr

def maptMaxLvlIndex : Nat := 3
def maptMaxEntryIndex : Nat := 512
def maptPerLvlBlockCnt : Nat := 4
def ummuBlktblMaxEntries : Nat := 512
def maptMaxLvlIdBitSize : Nat := 4 * ummuBlktblMaxEntries
def maxAddressBits : Nat := 48
def maptVpageShift : Nat := 12
def invalidAddr : Nat := 0xFFF
def ummuMaxTokenNum : Nat := 2
def ummuGatherMaxCnt : Nat := 12

/-- The low bit of a level's index field (`g_mapt_range_bits[level][1]`). -/
def gMaptRangeBits : Nat → Nat
  | 0 => 39
  | 1 => 30
  | 2 => 21
  | _ => 12

def span (level : Nat) : Nat := 2 ^ gMaptRangeBits level

/-- `GET_LEVEL_RANGE_MASK`. -/
def getLevelRangeMask (level : Nat) : Nat := span level - 1

/-- `GET_LEVEL_BLOCK_INDEX`. -/
def getLevelBlockIndex (addr level : Nat) : Nat := addr / span level % 512

/-- `IS_RTE_IN_USE`. -/
def isRteInUse (addr : Nat) : Bool := addr % 4096 != invalidAddr

/-- `struct ummu_mapt_table_node`. -/
structure TableNode where
  valid : Bool := false
  type : Bool := false
  nextBlock : Bool := false
  eBit : EBit := .off
  permission : Option MaptPerm := none
  fBit : Bool := false
  nextLvOffset : Nat := 0
  nextLvIndex : Nat := 0
  base : Nat := 0
  limit : Nat := 0
  tokenCheck : Bool := false
  nonce : Nat := 0
  tokenVal0 : UInt32 := 0
  tokenVal1 : UInt32 := 0
  deriving DecidableEq, Repr

def TableNode.zero : TableNode := {}

/-- `struct ummu_mapt_block` of 64K, that is of four level blocks (the source also takes 16K and
32K); `nodes` is the memory at `block_addr`. -/
structure MaptBlock where
  nodes : Nat → TableNode
  blockId : Nat
  levelCnt : Nat
  levelEntryCnt : Nat → Nat

/-- `struct ummu_seg_info`; `grantSize` is the granted size less one. -/
structure SegInfo where
  startAddr : Nat
  grantSize : Nat
  permission : MaptPerm
  eBit : EBit
  tokenCheck : Bool
  tokenCount : Nat
  tokenVal0 : UInt32
  tokenVal1 : UInt32
  deriving DecidableEq, Repr

def SegInfo.last (s : SegInfo) : Nat := s.startAddr + s.grantSize

/-- `struct ummu_mapt_table_ctx`. The maple tree of the segment manager is the
list of its entries in address order. -/
structure TableCtx where
  expan : Bool
  blockCnt : Nat
  levelBlockBitmap : Nat → Bool
  grantedAddrMng : List SegInfo
  xa : Nat → Option MaptBlock

inductive Plbi where
  | osVa (va size : Nat)
  | osN (lvlIdx lvlOffset : Nat)
  deriving DecidableEq, Repr

/-- A pointer to a node: the predecessor on `ummu_table_op`'s stack, or a node
of a block. -/
inductive NodePtr where
  | stack
  | cell (blk idx : Nat)
  deriving DecidableEq, Repr

structure St where
  ctx : TableCtx
  root : TableNode
  lvl : Nat
  headFlag : Bool
  gather : List Plbi
  faults : List Bool

/-- The parts of `struct ummu_data_info` the table functions read. -/
structure DataInfo where
  dataBase : Nat
  dataSize : Nat
  dataLimit : Nat
  perm : MaptPerm
  eBit : EBit
  tokenCheck : Bool
  tokenval : UInt32
  bytoken : Bool
  deriving DecidableEq, Repr

/-! ## Reading and writing nodes -/

def TableCtx.node (c : TableCtx) (blk idx : Nat) : TableNode :=
  match c.xa blk with
  | some b => b.nodes idx
  | none => .zero

def TableCtx.modBlock (c : TableCtx) (blk : Nat) (f : MaptBlock → MaptBlock) : TableCtx :=
  { c with xa := fun k => if k = blk then (c.xa k).map f else c.xa k }

def MaptBlock.setNode (b : MaptBlock) (idx : Nat) (nd : TableNode) : MaptBlock :=
  { b with nodes := fun k => if k = idx then nd else b.nodes k }

def TableCtx.setNode (c : TableCtx) (blk idx : Nat) (nd : TableNode) : TableCtx :=
  c.modBlock blk (·.setNode idx nd)

def St.node (st : St) : NodePtr → TableNode
  | .stack => st.root
  | .cell blk idx => st.ctx.node blk idx

def St.setNode (st : St) (p : NodePtr) (nd : TableNode) : St :=
  match p with
  | .stack => { st with root := nd }
  | .cell blk idx => { st with ctx := st.ctx.setNode blk idx nd }

def St.alloc (st : St) : Bool × St :=
  match st.faults with
  | [] => (true, st)
  | b :: fs => (b, { st with faults := fs })

end UbDkms.Mapt
