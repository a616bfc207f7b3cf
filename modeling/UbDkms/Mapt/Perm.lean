import UbDkms.Mapt.Table

/-!
# Grant and ungrant requests

`ummu_perm_grant` and `ummu_perm_ungrant` on a domain's permission-table
information, in table mode and in entry mode, and the initialisation of a
kernel context. A request carries what the C caller passes, the values the
environment supplies (the random token, the uninitialised `head_flag`) and the
outcomes of the allocations it makes: `faults` for the level blocks, `kzallocOk`
and `insertOk` for the segment record. An argument outside its enumeration is
`none`.
-/

namespace UbDkms.Mapt

/-- `enum ummu_mapt_mode`. -/
inductive MaptMode where
  | table | entry | modeEnd
  deriving DecidableEq, Repr

/-- `struct ummu_mapt_entry_node`. -/
structure EntryNode where
  valid : Bool := false
  eBit : EBit := .off
  permission : Option MaptPerm := none
  base : Nat := 0
  limit : Nat := 0
  tokenCheck : Bool := false
  nonce : Nat := 0
  tokenVal0 : UInt32 := 0
  tokenVal1 : UInt32 := 0
  deriving DecidableEq, Repr

/-- `struct ummu_mapt_info`, with the input address size of its device. -/
structure MaptInfo where
  mode : MaptMode
  valid : Bool
  positivePlbi : Bool
  freeBit : Bool
  ias : Nat
  entryBlock : EntryNode
  tableCtx : TableCtx

structure TokenInfo where
  input : Nat
  tokenVal : UInt32
  deriving DecidableEq, Repr

structure GrantReq where
  va : Nat
  size : Nat
  perm : Option MaptPerm
  /-- `none` when the gather's cookie is null. -/
  segAttr : Option (Option TokenInfo × Option EBit)
  rand : UInt32
  headFlag : Bool
  faults : List Bool
  kzallocOk : Bool
  insertOk : Bool

structure UngrantReq where
  va : Nat
  size : Nat
  token : Option UInt32
  headFlag : Bool

/-- What a request leaves: its return code, the table, the PLB range to flush
(when it got that far) and the gathered PLB invalidations. -/
structure PermOut where
  ret : Ret
  info : MaptInfo
  plb : Option (Nat × Nat)
  gather : List Plbi

/-! ## Entry mode -/

def ummuEntryParamCheck (nd : EntryNode) (d : DataInfo) : GrantOp :=
  if nd.valid = false then .grant
  else if nd.base = d.dataBase ∧ nd.limit = d.dataLimit ∧ (nd.tokenCheck && d.tokenCheck) = true ∧
      nd.permission = some d.perm ∧ nd.eBit = d.eBit ∧ nd.nonce = 1 then .addToken
  else .opEnd

def ummuEntryUngrantParamCheck (nd : EntryNode) (d : DataInfo) : GrantOp :=
  if nd.valid = false then .opEnd
  else if nd.base ≠ d.dataBase ∨ nd.limit ≠ d.dataLimit then .opEnd
  else if d.bytoken = false then .ungrant
  else if nd.tokenCheck then
    if nd.tokenVal0 ≠ d.tokenval ∧ nd.tokenVal1 ≠ d.tokenval then .opEnd
    else if nd.nonce = 1 then .ungrant
    else if nd.nonce = ummuMaxTokenNum then .removeToken
    else .opEnd
  else .opEnd

def ummuEntryFillNode (nd : EntryNode) (d : DataInfo) : EntryNode :=
  { nd with
    permission := some d.perm
    base := d.dataBase % 2 ^ 48
    limit := d.dataLimit % 2 ^ 48
    tokenCheck := d.tokenCheck
    eBit := d.eBit
    tokenVal0 := if d.tokenCheck then d.tokenval else nd.tokenVal0
    tokenVal1 := if d.tokenCheck then d.tokenval else nd.tokenVal1
    nonce := if d.tokenCheck then 1 else nd.nonce
    valid := true }

/-- `ummu_entry_op`; the token update is the one of a table node, on the fields
the two layouts share. -/
def ummuEntryOp (op : GrantOp) (d : DataInfo) (nd : EntryNode) : Ret × EntryNode :=
  match op with
  | .grant => (none, ummuEntryFillNode nd d)
  | .addToken =>
    if nd.valid = true ∧ nd.nonce = 1 then
      (none, { nd with tokenVal1 := d.tokenval, nonce := ummuMaxTokenNum })
    else (some .einval, nd)
  | .removeToken =>
    if nd.tokenVal0 = d.tokenval then (none, { nd with tokenVal0 := nd.tokenVal1, nonce := 1 })
    else if nd.tokenVal1 = d.tokenval then (none, { nd with tokenVal1 := nd.tokenVal0, nonce := 1 })
    else (some .einval, nd)
  | .ungrant => (none, {})
  | .opEnd => (some .einval, nd)

/-! ## Requests -/

def ummuPermTableModeIsValid (mode : MaptMode) : Bool := decide (mode ≠ .modeEnd)

/-- `ummu_check_data`; the accepted permission and e-bit. -/
def ummuCheckData (mode : MaptMode) (data size : Nat) (perm : Option MaptPerm)
    (eBit : Option EBit) (token : Option TokenInfo) : Option (MaptPerm × EBit) :=
  if size = 0 then none
  else if data / 2 ^ maxAddressBits ≠ 0 ∨ (size - 1) / 2 ^ maxAddressBits ≠ 0 ∨
      (data + size - 1) % 2 ^ 64 / 2 ^ maxAddressBits ≠ 0 then none
  else
    match perm, eBit with
    | some p, some e =>
      if token.any (fun t => decide (t.input ≠ 0 ∧ t.input ≠ 1)) then none
      else if mode = .table ∧ data % 2 ^ maptVpageShift ≠ 0 then none
      else some (p, e)
    | _, _ => none

/-- `ummu_perm_data_preproc`; an input of 1 asks for a random token. -/
def ummuPermDataPreproc (data size : Nat) (perm : MaptPerm) (eBit : EBit)
    (token : Option TokenInfo) (rand : UInt32) : DataInfo where
  dataBase := data
  dataSize := size
  dataLimit := (data + size - 1) % 2 ^ 64
  perm := perm
  eBit := eBit
  tokenCheck := token.isSome
  tokenval := match token with
    | some t => if t.input = 0 then t.tokenVal else rand
    | none => 0
  bytoken := false

def MaptInfo.start (i : MaptInfo) (headFlag : Bool) (faults : List Bool) : St where
  ctx := i.tableCtx
  root := .zero
  lvl := maptMaxLvlIndex
  headFlag := headFlag
  gather := []
  faults := faults

/-- `ummu_update_info` in table mode. -/
def ummuUpdateInfo (op : GrantOp) (c : TableCtx) (d : DataInfo) (kzallocOk insertOk : Bool) :
    Ret × TableCtx :=
  match op with
  | .grant =>
    let r := ummuInsertNewAddr c.grantedAddrMng d kzallocOk insertOk
    (r.1, { c with grantedAddrMng := r.2 })
  | .addToken | .removeToken =>
    let r := ummuTokenUpdate c.grantedAddrMng d op
    (r.1, { c with grantedAddrMng := r.2 })
  | .ungrant =>
    let r := ummuDeleteAddr c.grantedAddrMng d
    (r.1, { c with grantedAddrMng := r.2 })
  | .opEnd => (some .einval, c)

/-- `ummu_grant_imp` or `ummu_ungrant_imp`, then `ummu_update_info`. -/
def MaptInfo.doOp (i : MaptInfo) (op : GrantOp) (d : DataInfo) (headFlag : Bool)
    (faults : List Bool) (kzallocOk insertOk : Bool) : Ret × MaptInfo × List Plbi :=
  if i.mode = .entry then
    match ummuEntryOp op d i.entryBlock with
    | (ret, nd) => (ret, { i with entryBlock := nd }, [])
  else
    match ummuTableOp i.freeBit op d (i.start headFlag faults) with
    | (some e, st) => (some e, { i with tableCtx := st.ctx }, st.gather)
    | (none, st) =>
      match ummuUpdateInfo op st.ctx d kzallocOk insertOk with
      | (ret, c) => (ret, { i with tableCtx := c }, st.gather)

/-- The checks of `ummu_perm_grant`: what it goes on to do, when it does. -/
def grantPlan (i : MaptInfo) (q : GrantReq) : Option (GrantOp × DataInfo) :=
  match q.segAttr with
  | none => none
  | some (token, eBit) =>
    let data := q.va % 2 ^ i.ias
    if i.valid = false ∨ ummuPermTableModeIsValid i.mode = false then none
    else
      match ummuCheckData i.mode data q.size q.perm eBit token with
      | none => none
      | some (perm, eBit) =>
        let d := ummuPermDataPreproc data q.size perm eBit token q.rand
        let op := if i.mode = .entry then ummuEntryParamCheck i.entryBlock d
          else ummuGrantCheck i.tableCtx.grantedAddrMng d
        if op = .opEnd then none else some (op, d)

def ummuPermGrant (i : MaptInfo) (q : GrantReq) : PermOut :=
  match grantPlan i q with
  | none => ⟨some .einval, i, none, []⟩
  | some (op, d) =>
    match i.doOp op d q.headFlag q.faults q.kzallocOk q.insertOk with
    | (ret, i', gather) =>
      let size := if i.positivePlbi = true ∨ (op = .grant ∧ ret = none) then 0 else q.size
      ⟨ret, i', some (d.dataBase, size), gather⟩

/-- The permission and e-bit of `data_info` are not set by an ungrant; nothing
reads them. -/
def ungrantInfo (data size : Nat) (token : Option UInt32) : DataInfo where
  dataBase := data
  dataSize := size
  dataLimit := (data + size + (2 ^ 64 - 1)) % 2 ^ 64
  perm := .r
  eBit := .off
  tokenCheck := false
  tokenval := token.getD 0
  bytoken := token.isSome

/-- The checks of `ummu_perm_ungrant`. -/
def ungrantPlan (i : MaptInfo) (q : UngrantReq) : Option (GrantOp × DataInfo) :=
  let data := q.va % 2 ^ i.ias
  if i.valid = false ∨ ummuPermTableModeIsValid i.mode = false then none
  else if i.mode = .table ∧ data % 2 ^ maptVpageShift ≠ 0 then none
  else
    let d := ungrantInfo data q.size q.token
    let op := if i.mode = .entry then ummuEntryUngrantParamCheck i.entryBlock d
      else ummuUngrantCheck i.tableCtx.grantedAddrMng d
    if op = .opEnd then none else some (op, d)

def ummuPermUngrant (i : MaptInfo) (q : UngrantReq) : PermOut :=
  match ungrantPlan i q with
  | none => ⟨some .einval, i, none, []⟩
  | some (op, d) =>
    match i.doOp op d q.headFlag [] true true with
    | (ret, i', gather) => ⟨ret, i', some (d.dataBase, q.size), gather⟩

/-! ## Initialisation -/

/-- The context `ummu_init_ksva_mapt_for_table` allocates before its root level
block. -/
def emptyCtx (expan : Bool) : TableCtx where
  expan := expan
  blockCnt := 0
  levelBlockBitmap := fun _ => false
  grantedAddrMng := []
  xa := fun _ => none

/-- `ummu_init_ksva_mapt_for_table`, its earlier allocations granted; `pre` is
the uninitialised predecessor node. -/
def ummuInitKsvaMaptForTable (expan : Bool) (pre : TableNode) (faults : List Bool) :
    Ret × TableCtx :=
  match ummuAllocLevelBlock ⟨emptyCtx expan, pre, maptMaxLvlIndex, false, [], faults⟩ .stack none with
  | (ret, st) => (ret, st.ctx)

end UbDkms.Mapt
