import UbDkms.Lib.Keyed
import UbDkms.Lib.Reach

/-!
# Tables of EIDs

`logic_ummu.c` and `cfg_table.c`. `logic_ummu_add_eid` adds an EID to the key table of every UMMU
device under the logic UMMU, and takes it back from the devices it has done if one fails;
`logic_ummu_del_eid` removes it from every device, and `remove_all_eid` all of them. A key table maps an EID to the tag of its
guid; the tag is an index to the table of target entity configurations (TECT), which all devices
share. One record of the EID, under its guid, stands for all devices: it holds a slot and counts
the devices.

Both calls do their work in one section under `eid_list_lock`, which is one step here. The test
of `is_eid_added` is in a section of its own before it.
-/

namespace UbDkms.Ummu.Eid

open Lib
open Function (update)

inductive Err where
  | enodev | eexist | enomem | eopnotsupp | einval | ebusy | erange
deriving DecidableEq

/-- `struct hash_tbl_cfg`, without the depth of the CAM table, and the format of the TECT. The
depth of a bank is the number of hash values. -/
structure Cfg where
  hash : Nat → Nat
  bankNum : Nat
  bankDepth : Nat
  hash_lt : ∀ e, hash e < bankDepth
  /-- `tect_fmt == TECT_BASE_CFG_FMT_LINEAR` -/
  linear : Bool
  /-- `IS_ENABLED(CONFIG_UB_UMMU_BYPASSEID) && hw_bypass` -/
  hwBypass : Bool

/-- The inner loop of `ummu_kvtable_crc32_calc`. -/
def crcByte : Nat → BitVec 32 → BitVec 32
  | 0, crc => crc
  | j + 1, crc =>
    crcByte j (if crc &&& 0x80000000 ≠ 0 then (crc <<< 1) ^^^ 0x4C11DB7 else crc <<< 1)

/-- `ummu_kvtable_crc32_calc` over the `length` bytes of `eid`, from its highest byte on. -/
def ummuKvtableCrc32Calc (eid : Nat) : Nat → BitVec 32 → BitVec 32
  | 0, crc => crc
  | i + 1, crc =>
    ummuKvtableCrc32Calc eid i (crcByte 8 (crc ^^^ (BitVec.ofNat 32 (eid >>> (8 * i) % 256) <<< 24)))

/-- The configuration `ummu_device_init_kvtbl` writes to every device: 8 banks, CRC32, 8 bits. -/
def kvCfg (linear hwBypass : Bool) : Cfg where
  hash eid := (ummuKvtableCrc32Calc eid 16 0xFFFFFFFF).toNat % 256
  bankNum := 8
  bankDepth := 0x100
  hash_lt _ := Nat.mod_lt _ (by decide)
  linear := linear
  hwBypass := hwBypass

structure Entry where
  eid : Nat
  tag : Nat
deriving DecidableEq

/-- A UMMU device: the slots of its key table, those of the CAM table after those of the banks. -/
structure Dev where
  camDepth : Nat
  kv : Nat → Option Entry := fun _ => none

/-- The entry of an EID in `os_meta::eids`. -/
structure EidInfo where
  kvIndex : Nat
  refCnt : Nat
deriving DecidableEq

/-- `struct os_meta`, with `eids` by EID. -/
structure OsMeta where
  tag : Nat
  ref : Nat := 1
  valid : Bool := false
  eids : List (Nat × EidInfo) := []
deriving DecidableEq

/-- `ummu_global_info`: the records of `per_os_meta` by guid, which TECT entries are valid and
which second level tables of the TECT exist. -/
structure Global where
  metas : Nat → Option OsMeta
  tecte : Nat → Bool := fun _ => false
  l2 : Nat → Bool := fun _ => false

/-- What the allocations of one `ummu_add_eid` give: a tag or an error for a new `os_meta`,
whether there is memory for the record of the EID and for a second level table. -/
structure Alloc where
  tag : Except Err Nat
  info : Bool
  l2 : Bool

namespace Dev

/-- The slots `ummu_device_calc_kv_index` tries, in order. -/
def slots (c : Cfg) (camDepth e : Nat) : List Nat :=
  (List.range c.bankNum).map (fun id => c.hash e * c.bankNum + id) ++
    (List.range camDepth).map (fun id => id + c.bankNum * c.bankDepth)

/-- `ummu_device_calc_kv_index` -/
def calcKvIndex (c : Cfg) (d : Dev) (e : Nat) : Option Nat :=
  (slots c d.camDepth e).find? fun i => (d.kv i).isNone

/-- `ummu_device_create_kvtable`, and the hardware executing its command. -/
def createKvtable (d : Dev) (tag e i : Nat) : Dev :=
  { d with kv := update d.kv i (some ⟨e, tag⟩) }

/-- `ummu_device_delete_kvtbl`, and the hardware executing its command. -/
def deleteKvtbl (d : Dev) (i : Nat) : Dev :=
  { d with kv := update d.kv i none }

end Dev

namespace OsMeta

/-- `os_meta_add_eid`; `none` is `-ENOMEM`. -/
def addEid (m : OsMeta) (e i : Nat) (mem : Bool) : Option OsMeta :=
  match m.eids.lookup e with
  | some _ => some { m with eids := onKey (fun x => some { x with refCnt := x.refCnt + 1 }) e m.eids }
  | none =>
    if mem then some { m with eids := m.eids ++ [(e, ⟨i, 1⟩)], ref := m.ref + 1 }
    else none

/-- `os_meta_del_eid`; `none` when the last reference frees the `os_meta`. -/
def delEid (m : OsMeta) (e : Nat) : Option OsMeta :=
  match m.eids.lookup e with
  | none => some m
  | some x =>
    if x.refCnt - 1 ≤ 0 then
      if m.ref - 1 = 0 then none
      else some { m with eids := onKey (fun _ => none) e m.eids, ref := m.ref - 1 }
    else some { m with eids := onKey (fun x => some { x with refCnt := x.refCnt - 1 }) e m.eids }

end OsMeta

namespace Global

/-- The TECT entry of `tag` has its place, allocated already. -/
def Placed (c : Cfg) (s : Global) (tag : Nat) : Prop := c.linear = true ∨ s.l2 (tag / 2 ^ 8) = true

instance (c : Cfg) (s : Global) (tag : Nat) : Decidable (s.Placed c tag) :=
  inferInstanceAs (Decidable (_ ∨ _))

/-- `ummu_device_write_tecte` with a valid entry or with `ummu_clear_tecte`; nothing is written
if the second level table cannot be allocated. `check_tecte_can_set` refuses a valid entry only
over another valid one. -/
def writeTecte (c : Cfg) (s : Global) (tag : Nat) (valid mem : Bool) : Global :=
  if s.Placed c tag then { s with tecte := update s.tecte tag valid }
  else if mem then
    { s with
      tecte := update s.tecte tag valid
      l2 := update s.l2 (tag / 2 ^ 8) true }
  else s

/-- `ummu_get_os_meta_by_guid`, then `ummu_alloc_os_meta` if there is none. -/
def getOsMeta (s : Global) (g : Nat) (tag : Except Err Nat) : Except Err (Global × OsMeta) :=
  match s.metas g with
  | some m => .ok (s, m)
  | none =>
    match tag with
    | .error r => .error r
    | .ok tag => .ok ({ s with metas := update s.metas g (some { tag := tag }) }, { tag := tag })

end Global

/-- An `os_meta` whose record of the EID is in place, written to the TECT if it is the first. -/
def markValid (c : Cfg) (s : Global) (m : OsMeta) (mem : Bool) : Global × OsMeta :=
  if m.valid then (s, m) else (s.writeTecte c m.tag true mem, { m with valid := true })

/-- The last EID of an `os_meta` is about to leave: `kref_read(&meta->ref) == 2`. -/
def markInvalid (c : Cfg) (s : Global) (m : OsMeta) (mem : Bool) : Global × OsMeta :=
  if m.ref = 2 then (s.writeTecte c m.tag false mem, { m with valid := false }) else (s, m)

/-- `ummu_add_eid`; `bypass` is the type `EID_BYPASS`, guid 0 is `guid_null`. -/
def ummuAddEid (c : Cfg) (al : Alloc) (s : Global) (d : Dev) (g e : Nat) (bypass : Bool) :
    Option Err × Global × Dev :=
  if bypass && (g == 0 || !c.hwBypass) then (some .eopnotsupp, s, d)
  else
    match s.getOsMeta g al.tag with
    | .error r => (some r, s, d)
    | .ok (s, m) =>
      match d.calcKvIndex c e with
      | none => (some .erange, s, d)
      | some i =>
        match m.addEid e i al.info with
        | none => (some .enomem, s, d)
        | some m =>
          let sm := markValid c s m al.l2
          (none, { sm.1 with metas := update sm.1.metas g (some sm.2) },
            d.createKvtable m.tag e i)

/-- `ummu_del_eid` -/
def ummuDelEid (c : Cfg) (mem : Bool) (s : Global) (d : Dev) (g e : Nat) : Global × Dev :=
  match s.metas g with
  | none => (s, d)
  | some m =>
    match m.eids.lookup e with
    | none => (s, d)
    | some x =>
      let sm := markInvalid c s m mem
      ({ sm.1 with metas := update sm.1.metas g (sm.2.delEid e) }, d.deleteKvtbl x.kvIndex)

/-- `del_eid` on each device of a list. -/
def delAll (c : Cfg) (mem : Bool) (g e : Nat) : Global → List Dev → Global × List Dev
  | s, [] => (s, [])
  | s, d :: ds =>
    let r := ummuDelEid c mem s d g e
    let rs := delAll c mem g e r.1 ds
    (rs.1, r.2 :: rs.2)

/-- `add_eid` on each device of a list, `done` those before; `al k` is for the device `k`. An
error deletes the EID from the devices before. -/
def addAll (c : Cfg) (al : Nat → Alloc) (g e : Nat) (bypass : Bool) :
    Global → List Dev → List Dev → Option Err × Global × List Dev
  | s, done, [] => (none, s, done)
  | s, done, d :: ds =>
    let r := ummuAddEid c (al done.length) s d g e bypass
    match r.1 with
    | none => addAll c al g e bypass r.2.1 (done ++ [r.2.2]) ds
    | some err =>
      let rs := delAll c (al done.length).l2 g e r.2.1 done
      (some err, rs.1, rs.2 ++ r.2.2 :: ds)

/-- A `logic_ummu_add_eid` that has passed the test of `is_eid_added`. -/
structure Add where
  guid : Nat
  eid : Nat
  bypass : Bool
deriving DecidableEq

/-- The logic UMMU: its devices, `cached_eid_list` with the guid of each EID, and the additions
between their two sections. -/
structure Logic where
  devs : List Dev
  info : Global
  cached : List (Nat × Nat) := []
  adds : List Add := []

/-- The state `ummu_init_global_meta` leaves: the record of the local host, under the null guid,
has no EID. -/
def Logic.init (depths : List Nat) : Logic where
  devs := depths.map fun n => { camDepth := n }
  info := { metas := update (fun _ => none) 0 (some { tag := 0 }) }

/-- The section of `logic_ummu_add_eid` under the lock. -/
def Logic.addEid (c : Cfg) (s : Logic) (p : Add) (al : Nat → Alloc) : Option Err × Logic :=
  let r := addAll c al p.guid p.eid p.bypass s.info [] s.devs
  (r.1, { s with
    devs := r.2.2
    info := r.2.1
    cached := if r.1 = none then s.cached ++ [(p.eid, p.guid)] else s.cached })

/-- The section of `logic_ummu_del_eid`; the first entry of the EID leaves the cached list. -/
def Logic.delEid (c : Cfg) (s : Logic) (g e : Nat) (mem : Bool) : Logic :=
  let r := delAll c mem g e s.info s.devs
  { s with devs := r.2, info := r.1, cached := onKey (fun _ => none) e s.cached }

/-- `remove_all_eid`: each cached EID leaves every device, and the list. -/
def Logic.removeAll (c : Cfg) (s : Logic) (mem : Bool) : Logic :=
  let r := s.cached.foldl (fun r p => delAll c mem p.2 p.1 r.1 r.2) (s.info, s.devs)
  { s with devs := r.2, info := r.1, cached := [] }

inductive EidAct where
  /-- `logic_ummu_add_eid` up to its lock; without devices there is no agent device. -/
  | begin (p : Add) (mem : Bool)
  | add (n : Nat) (al : Nat → Alloc)
  | del (g e : Nat) (mem : Bool)
  | removeAll (mem : Bool)

def Logic.act (c : Cfg) (s : Logic) : EidAct → Logic
  | .begin p mem =>
    if s.devs = [] ∨ p.eid ∈ keys s.cached ∨ mem = false then s
    else { s with adds := s.adds ++ [p] }
  | .add n al =>
    match s.adds[n]? with
    | none => s
    | some p => { (s.addEid c p al).2 with adds := s.adds.eraseIdx n }
  | .del g e mem => if s.devs = [] then s else s.delEid c g e mem
  | .removeAll mem => if s.devs = [] then s else s.removeAll c mem

end UbDkms.Ummu.Eid
