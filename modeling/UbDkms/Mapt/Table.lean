import UbDkms.Lib.Loop
import UbDkms.Mapt.SegMng

/-!
# The permission table: level blocks, fill, clear, token update

`perm_table.c`. The three walks over the levels (`..ByLevel`) recurse through
the head and tail nodes of a level. Their first argument counts the levels
left, so that the C argument is `level = 3 - n` and `n = 0` is the level
overflow. A head-node function takes the walk of the next level as an argument.

`fb` is `mapt_info->free_bit`. The domain pointer of `mapt_info` is set for every
kernel context, so the guard of `ummu_free_level_block` on it is not modelled.
-/

namespace UbDkms.Mapt

open Lib

/-! ## Nodes -/

def ummuTableFillNode (nd : TableNode) (base limit : Nat) (d : DataInfo) (newNode : Bool) :
    TableNode :=
  { nd with
    permission := some d.perm
    base := base % 2 ^ 39
    limit := limit % 2 ^ 39
    tokenCheck := d.tokenCheck
    eBit := d.eBit
    tokenVal0 := if d.tokenCheck then d.tokenval else nd.tokenVal0
    tokenVal1 := if d.tokenCheck then d.tokenval else nd.tokenVal1
    nonce := if d.tokenCheck then 1 else nd.nonce
    fBit := false
    type := newNode || nd.type
    valid := newNode || nd.valid }

def ummuAddToken (nd : TableNode) (d : DataInfo) : Ret × TableNode :=
  if nd.valid = true ∧ nd.nonce = 1 then
    (none, { nd with tokenVal1 := d.tokenval, nonce := ummuMaxTokenNum })
  else (some .einval, nd)

def ummuRemoveToken (nd : TableNode) (d : DataInfo) : Ret × TableNode :=
  if nd.tokenVal0 = d.tokenval then (none, { nd with tokenVal0 := nd.tokenVal1, nonce := 1 })
  else if nd.tokenVal1 = d.tokenval then (none, { nd with tokenVal1 := nd.tokenVal0, nonce := 1 })
  else (some .einval, nd)

def ummuUpdateToken (op : GrantOp) (nd : TableNode) (d : DataInfo) : Ret × TableNode :=
  match op with
  | .addToken => ummuAddToken nd d
  | .removeToken => ummuRemoveToken nd d
  | _ => (some .einval, nd)

/-! ## Level blocks -/

def stepU16 (up : Bool) (n : Nat) : Nat := (if up then n + 1 else n + (2 ^ 16 - 1)) % 2 ^ 16

def ummuModifyEntryCnt (b : MaptBlock) (lvOffset : Nat) (up : Bool) : MaptBlock :=
  { b with levelEntryCnt := fun j =>
      if j = lvOffset / maptMaxEntryIndex then stepU16 up (b.levelEntryCnt j)
      else b.levelEntryCnt j }

/-- `find_first_zero_bit` from bit `i` on, `k` bits. -/
def findFirstZeroBit (bm : Nat → Bool) : Nat → Nat → Nat
  | i, 0 => i
  | i, k + 1 => if bm i then findFirstZeroBit bm (i + 1) k else i

def setBit (bm : Nat → Bool) (i : Nat) (v : Bool) : Nat → Bool := fun k => if k = i then v else bm k

def TableCtx.addBlock (c : TableCtx) (k : Nat) : TableCtx :=
  { c with
    xa := fun k' => if k' = k then
        some { nodes := fun _ => .zero, blockId := k, levelCnt := 0, levelEntryCnt := fun _ => 0 }
      else c.xa k'
    blockCnt := stepU16 true c.blockCnt }

def TableCtx.dropBlock (c : TableCtx) (k : Nat) : TableCtx :=
  { c with
    xa := fun k' => if k' = k then none else c.xa k'
    blockCnt := stepU16 false c.blockCnt }

/-- Mark a level block of MAPT block `k` used (`up`) or free. -/
def TableCtx.markLevel (c : TableCtx) (k lvlId : Nat) (up : Bool) : TableCtx :=
  { c.modBlock k (fun b => { b with levelCnt := stepU16 up b.levelCnt })
    with levelBlockBitmap := setBit c.levelBlockBitmap lvlId up }

/-- The three allocations are the descriptor, the block memory and the xarray
slot; a failure of the last two releases what the earlier ones gave. -/
def ummuAllocNewMaptBlock (st : St) (blkIdx : Nat) : Ret × St :=
  if (blkIdx ≠ 0 ∧ st.ctx.expan = false) ∨ ummuBlktblMaxEntries ≤ blkIdx then (some .erange, st)
  else
    match st.alloc with
    | (false, st) => (some .enomem, st)
    | (true, st) =>
      match st.alloc with
      | (false, st) => (some .enomem, st)
      | (true, st) =>
        match st.alloc with
        | (false, st) => (some .efault, st)
        | (true, st) => (none, { st with ctx := st.ctx.addBlock blkIdx })

/-- Name level block `lvlId` in the predecessor and mark it used. `far` is
whether it lies in another MAPT block than the predecessor. -/
def ummuLinkLevelBlock (st : St) (pre : NodePtr) (lvlId : Nat) (far : Bool) : St :=
  let blkIdx := lvlId / maptPerLvlBlockCnt
  let st := st.setNode pre { st.node pre with
    nextBlock := far
    nextLvIndex := blkIdx % 2 ^ 16
    nextLvOffset := maptMaxEntryIndex * (lvlId % maptPerLvlBlockCnt) % 2 ^ 30 }
  { st with ctx := st.ctx.markLevel blkIdx lvlId true }

/-- `preBlk` is the index of the predecessor's MAPT block, `none` for the
null pointer the initialisation passes. -/
def ummuAllocLevelBlock (st : St) (pre : NodePtr) (preBlk : Option Nat) : Ret × St :=
  let lvlId := findFirstZeroBit st.ctx.levelBlockBitmap 0 maptMaxLvlIdBitSize
  if maptMaxLvlIdBitSize ≤ lvlId then (some .erange, st)
  else
    let st := st.setNode pre { st.node pre with nextBlock := false }
    let blkIdx := lvlId / maptPerLvlBlockCnt
    match st.ctx.xa blkIdx with
    | none =>
      match ummuAllocNewMaptBlock st blkIdx with
      | (some e, st) => (some e, st)
      | (none, st) => (none, ummuLinkLevelBlock st pre lvlId true)
    | some _ => (none, ummuLinkLevelBlock st pre lvlId (decide (preBlk ≠ some blkIdx)))

def ummuFreeLevelBlock (c : TableCtx) (prev : TableNode) : TableCtx :=
  match c.xa prev.nextLvIndex with
  | none => c
  | some b =>
    let lvlId := b.blockId * maptPerLvlBlockCnt + prev.nextLvOffset / maptMaxEntryIndex
    let c := if lvlId ≠ 0 then c.markLevel prev.nextLvIndex lvlId false else c
    if (c.xa prev.nextLvIndex).any (·.levelCnt = 0) ∧ 1 < c.blockCnt then c.dropBlock b.blockId
    else c

/-! ## PLB invalidations -/

def updateUmmuGather (st : St) (x : Plbi) : St :=
  if ummuGatherMaxCnt ≤ st.gather.length then st else { st with gather := st.gather ++ [x] }

def ummuTableTypeSwitchPlbi (st : St) (d : DataInfo) (nodeBase nodeLimit level : Nat) : St :=
  let fullAddr := if st.lvl < maptMaxLvlIndex ∧ st.headFlag = false then d.dataLimit else d.dataBase
  updateUmmuGather st (.osVa (fullAddr / span level * span level + nodeBase) (nodeLimit - nodeBase + 1))

/-! ## Fill -/

/-- The walk of one level: predecessor, base and limit inside its range. -/
abbrev Walk := NodePtr → Nat → Nat → St → Ret × St

/-- Put a new node at `cur` and count it in the predecessor's level block. -/
def ummuTableNewNode (d : DataInfo) (pre cur : NodePtr) (nodeBase nodeLimit : Nat) (st : St) : St :=
  let p := st.node pre
  let st := st.setNode cur (ummuTableFillNode (st.node cur) nodeBase nodeLimit d true)
  { st with ctx := st.ctx.modBlock p.nextLvIndex (ummuModifyEntryCnt · p.nextLvOffset true) }

/-- The common tail of the two head-node functions: open a level block under a
node in use, if it has none, and go down. -/
def ummuTableFillDescend (next : Walk) (pre cur : NodePtr) (nodeBase nodeLimit : Nat) (st : St) :
    Ret × St :=
  if (st.node cur).type then
    match ummuAllocLevelBlock st cur (some (st.node pre).nextLvIndex) with
    | (some _, st) => (some .enomem, st)
    | (none, st) =>
      next cur nodeBase nodeLimit (st.setNode cur { st.node cur with type := false })
  else next cur nodeBase nodeLimit st

def ummuTableFillHeadNodeFreeBit (d : DataInfo) (next : Walk) (pre cur : NodePtr)
    (nodeBase nodeLimit : Nat) (st : St) : Ret × St :=
  let nd := st.node cur
  if nd.valid = false then (none, ummuTableNewNode d pre cur nodeBase nodeLimit st)
  else if nd.fBit then
    let st := st.setNode cur (ummuTableFillNode nd nodeBase nodeLimit d false)
    (none, updateUmmuGather st (.osN nd.nextLvIndex nd.nextLvOffset))
  else ummuTableFillDescend next pre cur nodeBase nodeLimit st

def ummuTableFillHeadNode (d : DataInfo) (level : Nat) (next : Walk) (pre cur : NodePtr)
    (nodeBase nodeLimit : Nat) (st : St) : Ret × St :=
  let nd := st.node cur
  if nd.valid then
    if !isRteInUse nd.base && !isRteInUse nd.limit then
      let st := st.setNode cur (ummuTableFillNode nd nodeBase nodeLimit d false)
      (none, ummuTableTypeSwitchPlbi st d 0 invalidAddr level)
    else ummuTableFillDescend next pre cur nodeBase nodeLimit st
  else (none, ummuTableNewNode d pre cur nodeBase nodeLimit st)

/-- Note the level at which head and tail part (`data_info->lvl`). -/
def St.noteLevel (st : St) (level baseIdx limitIdx : Nat) : St :=
  if maptMaxLvlIndex ≤ st.lvl ∧ baseIdx ≠ limitIdx then { st with lvl := level } else st

/-- Note whether the head or the tail is walked (`data_info->head_flag`). -/
def St.noteHead (st : St) (level : Nat) (isHead : Bool) : St :=
  if st.lvl = level then { st with headFlag := isHead } else st

def ummuTableFillNodeByLevel (fb : Bool) (d : DataInfo) : Nat → Walk
  | 0, _, _, _, st => (some .einval, st)
  | n + 1, pre, lvlBase, lvlLimit, st =>
    let level := maptMaxLvlIndex - n
    let blk := (st.node pre).nextLvIndex
    let lvlOffset := (st.node pre).nextLvOffset
    if (st.ctx.xa blk).isNone then (some .einval, st)
    else
      let baseIdx := getLevelBlockIndex lvlBase level
      let limitIdx := getLevelBlockIndex lvlLimit level
      forRange (fun i st =>
          let cur := .cell blk (lvlOffset + i)
          let nodeBase := if i = baseIdx then lvlBase % span level else 0
          let nodeLimit := if i = limitIdx then lvlLimit % span level else getLevelRangeMask level
          if baseIdx < i ∧ i < limitIdx then
            if (st.node cur).valid then (some .einval, st)
            else (none, ummuTableNewNode d pre cur nodeBase nodeLimit st)
          else
            let st := st.noteHead level (decide (i = baseIdx))
            if fb then
              ummuTableFillHeadNodeFreeBit d (ummuTableFillNodeByLevel fb d n) pre cur
                nodeBase nodeLimit st
            else
              ummuTableFillHeadNode d level (ummuTableFillNodeByLevel fb d n) pre cur
                nodeBase nodeLimit st)
        baseIdx (limitIdx + 1 - baseIdx) (st.noteLevel level baseIdx limitIdx)

/-! ## Clear -/

/-- Zero a node and uncount it in the level block `p` names. -/
def ummuTableZeroNode (p : TableNode) (cur : NodePtr) (st : St) : St :=
  let st := st.setNode cur .zero
  { st with ctx := st.ctx.modBlock p.nextLvIndex (ummuModifyEntryCnt · p.nextLvOffset false) }

/-- Free the level block `p` names and unlink it from the predecessor. -/
def ummuTableUnlink (p : TableNode) (pre : NodePtr) (st : St) : St :=
  let st := { st with ctx := ummuFreeLevelBlock st.ctx p }
  st.setNode pre { st.node pre with
    type := true, nextBlock := false, nextLvOffset := 0, nextLvIndex := 0 }

def ummuTableClearNode (pre cur : NodePtr) (st : St) : St :=
  let p := st.node pre
  if (st.ctx.xa p.nextLvIndex).isNone then st
  else if (st.node cur).type then
    let st := ummuTableZeroNode p cur st
    if (st.ctx.xa p.nextLvIndex).any
        (·.levelEntryCnt (p.nextLvOffset / maptMaxEntryIndex) = 0) then ummuTableUnlink p pre st
    else st
  else st

def ummuTableClearHeadNode (d : DataInfo) (level : Nat) (next : Walk) (pre cur : NodePtr)
    (nodeBase nodeLimit : Nat) (st : St) : Ret × St :=
  let nd := st.node cur
  if !isRteInUse nd.base && !isRteInUse nd.limit then
    if nd.type then (some .einval, st)
    else
      match next cur nodeBase nodeLimit st with
      | (ret, st) =>
        if (st.node cur).type then
          (ret, ummuTableTypeSwitchPlbi (ummuTableClearNode pre cur st) d 0 invalidAddr level)
        else (ret, st)
  else if nd.base = nodeBase ∧ nd.limit = nodeLimit then
    if nd.type then (none, ummuTableClearNode pre cur st)
    else (none, st.setNode cur { nd with
      base := invalidAddr, limit := invalidAddr, permission := none })
  else if nd.type then (some .einval, st)
  else
    match next cur nodeBase nodeLimit st with
    | (ret, st) =>
      if (st.node cur).type then (ret, ummuTableTypeSwitchPlbi st d nd.base nd.limit level)
      else (ret, st)

def ummuTableClearHeadNodeFreeBit (d : DataInfo) (level : Nat) (next : Walk) (pre cur : NodePtr)
    (nodeBase nodeLimit : Nat) (st : St) : Ret × St :=
  let nd := st.node cur
  if nd.fBit then
    if nd.type then (some .einval, st)
    else
      match next cur nodeBase nodeLimit st with
      | (ret, st) =>
        if (st.node cur).type then
          (ret, updateUmmuGather (ummuTableClearNode pre cur st) (.osN nd.nextLvIndex nd.nextLvOffset))
        else (ret, st)
  else if nd.base = nodeBase ∧ nd.limit = nodeLimit then
    if nd.type then (none, ummuTableClearNode pre cur st)
    else (none, st.setNode cur { nd with fBit := true })
  else if nd.type then (some .einval, st)
  else
    match next cur nodeBase nodeLimit st with
    | (ret, st) =>
      if (st.node cur).type then (ret, ummuTableTypeSwitchPlbi st d nd.base nd.limit level)
      else (ret, st)

def ummuTableClearNodeByLevel (fb : Bool) (d : DataInfo) : Nat → Walk
  | 0, _, _, _, st => (some .einval, st)
  | n + 1, pre, lvlBase, lvlLimit, st =>
    let level := maptMaxLvlIndex - n
    let blk := (st.node pre).nextLvIndex
    let lvlOffset := (st.node pre).nextLvOffset
    if (st.ctx.xa blk).isNone then (some .einval, st)
    else
      let baseIdx := getLevelBlockIndex lvlBase level
      let limitIdx := getLevelBlockIndex lvlLimit level
      forRange (fun i st =>
          let cur := .cell blk (lvlOffset + i)
          if (st.node cur).valid = false then (some .einval, st)
          else
            let nodeBase := if i = baseIdx then lvlBase % span level else 0
            let nodeLimit := if i = limitIdx then lvlLimit % span level else getLevelRangeMask level
            if baseIdx < i ∧ i < limitIdx then (none, ummuTableClearNode pre cur st)
            else
              let st := st.noteHead level (decide (i = baseIdx))
              if fb then
                ummuTableClearHeadNodeFreeBit d level (ummuTableClearNodeByLevel fb d n) pre cur
                  nodeBase nodeLimit st
              else
                ummuTableClearHeadNode d level (ummuTableClearNodeByLevel fb d n) pre cur
                  nodeBase nodeLimit st)
        baseIdx (limitIdx + 1 - baseIdx) (st.noteLevel level baseIdx limitIdx)

/-! ## Token update -/

def St.updateToken (st : St) (op : GrantOp) (d : DataInfo) (cur : NodePtr) : Ret × St :=
  match ummuUpdateToken op (st.node cur) d with
  | (ret, nd) => (ret, st.setNode cur nd)

def ummuTableUpdateNodeTokenFreeBit (op : GrantOp) (d : DataInfo) (next : Walk) (cur : NodePtr)
    (nodeBase nodeLimit : Nat) (st : St) : Ret × St :=
  let nd := st.node cur
  if nd.fBit then
    if nd.type then (some .einval, st) else next cur nodeBase nodeLimit st
  else if nd.base = nodeBase ∧ nd.limit = nodeLimit then st.updateToken op d cur
  else if nd.type then (some .einval, st)
  else next cur nodeBase nodeLimit st

def ummuTableUpdateNodeToken (op : GrantOp) (d : DataInfo) (next : Walk) (cur : NodePtr)
    (nodeBase nodeLimit : Nat) (st : St) : Ret × St :=
  let nd := st.node cur
  if nd.base = nodeBase ∧ nd.limit = nodeLimit then st.updateToken op d cur
  else if nd.type then (some .einval, st)
  else next cur nodeBase nodeLimit st

def ummuTableUpdateTokenByLevel (fb : Bool) (op : GrantOp) (d : DataInfo) : Nat → Walk
  | 0, _, _, _, st => (some .einval, st)
  | n + 1, pre, lvlBase, lvlLimit, st =>
    let level := maptMaxLvlIndex - n
    let blk := (st.node pre).nextLvIndex
    let lvlOffset := (st.node pre).nextLvOffset
    if (st.ctx.xa blk).isNone then (some .einval, st)
    else
      let baseIdx := getLevelBlockIndex lvlBase level
      let limitIdx := getLevelBlockIndex lvlLimit level
      forRange (fun i st =>
          let cur := .cell blk (lvlOffset + i)
          if (st.node cur).valid = false then (some .einval, st)
          else
            let nodeBase := if i = baseIdx then lvlBase % span level else 0
            let nodeLimit := if i = limitIdx then lvlLimit % span level else getLevelRangeMask level
            if baseIdx < i ∧ i < limitIdx then st.updateToken op d cur
            else if fb then
              ummuTableUpdateNodeTokenFreeBit op d (ummuTableUpdateTokenByLevel fb op d n) cur
                nodeBase nodeLimit st
            else
              ummuTableUpdateNodeToken op d (ummuTableUpdateTokenByLevel fb op d n) cur
                nodeBase nodeLimit st)
        baseIdx (limitIdx + 1 - baseIdx) st

/-! ## One operation on the table -/

def ummuTableOp (fb : Bool) (op : GrantOp) (d : DataInfo) (st : St) : Ret × St :=
  let st := { st with root := .zero }
  match op with
  | .grant =>
    match ummuTableFillNodeByLevel fb d 4 .stack d.dataBase d.dataLimit st with
    | (none, st) => (none, st)
    | (some e, st) =>
      (some e, (ummuTableClearNodeByLevel fb d 4 .stack d.dataBase d.dataLimit st).2)
  | .addToken | .removeToken =>
    ummuTableUpdateTokenByLevel fb op d 4 .stack d.dataBase d.dataLimit st
  | .ungrant => ummuTableClearNodeByLevel fb d 4 .stack d.dataBase d.dataLimit st
  | .opEnd => (some .einval, st)

end UbDkms.Mapt
