import UbDkms.Mapt.Basic

/-!
# The segment manager

`seg_tree.c`, `seg_mng.c`. The maple tree is its entries in address order:
`masFind` is the first entry that ends at or after an index, `mtreeInsertRange`
refuses an overlap, `mtreeErase` drops the entry over an index. Sizes are the
granted size less one throughout, in 64-bit arithmetic.
-/

namespace UbDkms.Mapt

/-- `enum range_compare_ret`. -/
inductive RangeCompare where
  | isMatch | overlap | notExist
  deriving DecidableEq, Repr

def masFind (t : List SegInfo) (index : Nat) : Option SegInfo :=
  t.find? fun s => decide (index ≤ s.last)

/-- `ok` is whether the nodes the insertion needs can be allocated. -/
def mtreeInsertRange (t : List SegInfo) (s : SegInfo) (ok : Bool) : Ret × List SegInfo :=
  if t.any fun x => decide (x.startAddr ≤ s.last ∧ s.startAddr ≤ x.last) then (some .eexist, t)
  else if ok then
    (none, t.takeWhile (fun x => decide (x.startAddr < s.startAddr)) ++
      s :: t.dropWhile fun x => decide (x.startAddr < s.startAddr))
  else (some .enomem, t)

def mtreeErase (t : List SegInfo) (index : Nat) : Option SegInfo × List SegInfo :=
  match t.find? fun s => decide (s.startAddr ≤ index ∧ index ≤ s.last) with
  | some s => (some s, t.erase s)
  | none => (none, t)

def ummuCompare (left size : Nat) (seg : SegInfo) : RangeCompare :=
  if seg.startAddr = left ∧ seg.grantSize = size then .isMatch
  else if (left + size) % 2 ^ 64 < seg.startAddr then .notExist
  else .overlap

def ummuFindSeg (left size : Nat) (t : List SegInfo) : Option SegInfo × RangeCompare :=
  match masFind t left with
  | none => (none, .notExist)
  | some s => (some s, ummuCompare left size s)

def DataInfo.lessOne (d : DataInfo) : Nat := (d.dataSize + 2 ^ 64 - 1) % 2 ^ 64

def ummuTableParamCheck (e : SegInfo) (d : DataInfo) : GrantOp :=
  if (e.tokenCheck && d.tokenCheck) && decide (e.permission = d.perm) &&
      decide (e.eBit = d.eBit) && decide (e.tokenCount = 1) then .addToken
  else .opEnd

def ummuUngrantParamCheck (e : SegInfo) (d : DataInfo) : GrantOp :=
  if d.bytoken = false then .ungrant
  else if e.tokenCheck = false then .opEnd
  else if e.tokenVal0 = d.tokenval ∨ e.tokenVal1 = d.tokenval then
    if e.tokenCount = 1 then .ungrant
    else if e.tokenCount = ummuMaxTokenNum then .removeToken
    else .opEnd
  else .opEnd

def ummuRemoveTokenval (tokenval : UInt32) (e : SegInfo) : SegInfo :=
  if e.tokenVal0 = tokenval then { e with tokenVal0 := e.tokenVal1, tokenCount := 1 }
  else if e.tokenVal1 = tokenval then { e with tokenVal1 := e.tokenVal0, tokenCount := 1 }
  else { e with tokenCount := 1 }

/-- Table mode of `ummu_grant_check`. -/
def ummuGrantCheck (t : List SegInfo) (d : DataInfo) : GrantOp :=
  match ummuFindSeg d.dataBase d.lessOne t with
  | (some e, .isMatch) => ummuTableParamCheck e d
  | (_, .notExist) => .grant
  | _ => .opEnd

/-- Table mode of `ummu_ungrant_check`. -/
def ummuUngrantCheck (t : List SegInfo) (d : DataInfo) : GrantOp :=
  match ummuFindSeg d.dataBase d.lessOne t with
  | (some e, .isMatch) => ummuUngrantParamCheck e d
  | _ => .opEnd

/-- The record `ummu_insert_new_addr` builds. -/
def DataInfo.toSeg (d : DataInfo) : SegInfo where
  startAddr := d.dataBase
  grantSize := d.lessOne
  permission := d.perm
  eBit := d.eBit
  tokenCheck := d.tokenCheck
  tokenCount := if d.tokenCheck then 1 else 0
  tokenVal0 := if d.tokenCheck then d.tokenval else 0
  tokenVal1 := if d.tokenCheck then d.tokenval else 0

/-- `kzallocOk` and `insertOk` are the outcomes of its two allocations; a
failed insertion is reported as `-EINVAL` by `ummu_insert_seg`. -/
def ummuInsertNewAddr (t : List SegInfo) (d : DataInfo) (kzallocOk insertOk : Bool) :
    Ret × List SegInfo :=
  if kzallocOk = false then (some .enomem, t)
  else
    match mtreeInsertRange t d.toSeg insertOk with
    | (none, t') => (none, t')
    | (some _, t') => (some .einval, t')

def ummuDeleteAddr (t : List SegInfo) (d : DataInfo) : Ret × List SegInfo :=
  match ummuFindSeg d.dataBase d.lessOne t with
  | (_, .notExist) => (some .enxio, t)
  | (_, .overlap) => (some .erange, t)
  | (_, .isMatch) =>
    match mtreeErase t d.dataBase with
    | (none, t') => (some .einval, t')
    | (some _, t') => (none, t')

def tokenUpdated (op : GrantOp) (tokenval : UInt32) (e : SegInfo) : SegInfo :=
  if op = .removeToken then ummuRemoveTokenval tokenval e
  else { e with tokenVal1 := tokenval, tokenCount := ummuMaxTokenNum }

def ummuTokenUpdate (t : List SegInfo) (d : DataInfo) (op : GrantOp) : Ret × List SegInfo :=
  match ummuFindSeg d.dataBase d.lessOne t with
  | (some e, .isMatch) => (none, t.map fun x => if x = e then tokenUpdated op d.tokenval e else x)
  | _ => (some .einval, t)

end UbDkms.Mapt
