import UbDkms.Lib.Bytes

/-!
# Configuration writes of a guest

`vfio_ub_config.c`: a write of a guest to the configuration space of its entity is
cut at slices, dwords, words and bytes; each piece goes, bit by bit as the permission
tables say, to the virtual copy or by read-modify-write to the hardware.
-/

namespace UbDkms.Vfio

open Lib

/-- The `uent_type` values the driver tells apart. -/
inductive UentType where
  | icontroller | controller | other
  deriving DecidableEq, Repr

/-- The fields of `struct ub_entity` the checks read. -/
structure Uent where
  type : UentType
  busController : Bool
  entityIdx : Nat
  deriving DecidableEq, Repr

/-- What `is_ub_entity_support_used` asks of an entity before it becomes a vfio device. -/
def Uent.Supported (u : Uent) : Prop := u.type ≠ .other ∧ u.busController = false

/-- `writefn` of a slice; `cfg1Basic` is `vfio_ub_cfg1_basic_write`. -/
inductive WriteFn where
  | default | cfg1Basic
  deriving DecidableEq, Repr

/-- `struct perm_bits`: one byte for each byte of the slice. -/
structure PermBits where
  virt : Nat → BitVec 8
  write : Nat → BitVec 8
  entnro : Nat → BitVec 8
  ent0eo : Nat → BitVec 8
  exist : Nat → BitVec 8
  writefn : Option WriteFn := some .default
  /-- `NO_ENTITY0_EO` or `ENTITY0_EO`. -/
  ent0eo_byte : ∀ off, ent0eo off = 0 ∨ ent0eo off = 0xff

/-- `1 << 10` bytes, as `UB_CFG_POS_TO_CAP` cuts the space. -/
def sliceSz : Nat := 1024

def posToCap (pos : Nat) : Nat := pos / 1024

/-- `UB_CFG_CAP_TO_POS`, in 32 bits. -/
def capToPos (cap : Nat) : Nat := cap * 1024 % 4294967296

/-- A vfio device: its entity, the permission tables, the used size of the slices it
has, where the route table starts and where `UB_ENTITY_RS_ACCESS_EN` and, in the
virtual copy, `UB_ELR_BIT` are. -/
structure Vdev where
  uent : Uent
  capPerms : Nat → PermBits
  portBasicPerms : PermBits
  usedSize : Nat → Option Nat
  routeTableSliceStart : Nat
  accessEn : Nat
  elr : Nat × Nat
  elrBit : BitVec 8
  supported : uent.Supported
  /-- `vfio_ub_init_slice_config_info` refuses other sizes. -/
  used_le : ∀ cap used, usedSize cap = some used → used ≤ sliceSz

/-- The hardware byte at each position and the virtual byte of each slice and offset. -/
structure Cfg where
  hw : Nat → BitVec 8
  buf : Nat → Nat → BitVec 8

section Judge

variable (u : Uent)

def judgeType (exist : BitVec 8) : Bool :=
  (exist &&& 0x01 == 0 && (u.type == .icontroller && !u.busController)) ||
    (exist &&& 0x02 == 0 && (u.type == .controller && !u.busController))

def judgeRegRead (ent0eo exist : BitVec 8) : Bool :=
  judgeType u exist && ((ent0eo == 0xff && u.entityIdx == 0) || ent0eo == 0)

def judgeRegWrite (ent0eo exist entnro : BitVec 8) : Bool :=
  judgeType u exist && ((u.entityIdx != 0 && ent0eo == 0 && entnro == 0) || u.entityIdx == 0)

end Judge

namespace PermBits

variable (p : PermBits) (u : Uent)

def readable (off : Nat) : Bool := judgeRegRead u (p.ent0eo off) (p.exist off)

def writable (off : Nat) : Bool := judgeRegWrite u (p.ent0eo off) (p.exist off) (p.entnro off)

end PermBits

def cfgWriteByte (hw : Nat → BitVec 8) (pos : Nat) (b : BitVec 8) : Nat → BitVec 8 :=
  Function.update hw pos b

/-- The bytes of a word stored from `pos` on, those that `sel` selects: the loop of
`vfio_ub_set_split_cfg_val`, and with all selected a whole write. -/
def storeBytes (sel : Nat → Bool) (val : BitVec 32) (pos : Nat) : Nat → (Nat → BitVec 8) → Nat → BitVec 8
  | 0, hw => hw
  | n + 1, hw =>
    let hw := storeBytes sel val pos n hw
    if sel n then cfgWriteByte hw (pos + n) (byteOf val n) else hw

namespace Vdev

variable (d : Vdev)

def findCapPerm (cap : Nat) : PermBits := if cap ≤ 511 then d.capPerms cap else d.portBasicPerms

/-- `vfio_ub_user_config_read` of `count` bytes: whole, or byte by byte with zeros for
the bytes this entity may not read. -/
def userConfigRead (hw : Nat → BitVec 8) (pos count : Nat) : BitVec 32 :=
  let cap := posToCap pos
  let perm := d.findCapPerm cap
  let off := pos - capToPos cap
  let ent0eo := pack (fun i => perm.ent0eo (off + i)) count
  let exist := pack (fun i => perm.exist (off + i)) count
  if exist = 0 ∧ ent0eo = 0 then pack (fun i => hw (pos + i)) count
  else pack (fun i => if judgeRegRead d.uent (byteOf ent0eo i) (byteOf exist i) then hw (pos + i)
    else 0) count

/-- `vfio_ub_user_config_write`. -/
def userConfigWrite (hw : Nat → BitVec 8) (pos : Nat) (val : BitVec 32) (count : Nat) :
    Nat → BitVec 8 :=
  let cap := posToCap pos
  let perm := d.findCapPerm cap
  let off := pos - capToPos cap
  let ent0eo := pack (fun i => perm.ent0eo (off + i)) count
  let exist := pack (fun i => perm.exist (off + i)) count
  let entnro := pack (fun i => perm.entnro (off + i)) count
  if exist = 0 ∧ ent0eo = 0 ∧ entnro = 0 then storeBytes (fun _ => true) val pos count hw
  else storeBytes (fun i => judgeRegWrite d.uent (byteOf ent0eo i) (byteOf exist i) (byteOf entnro i))
    val pos count hw

/-- `vfio_ub_get_virt_write_mask`. -/
def getVirtWriteMask (pos count : Nat) : BitVec 32 :=
  let cap := posToCap pos
  let perm := d.findCapPerm cap
  let off := pos - capToPos cap
  pack (fun i => if perm.writable d.uent (off + i) then 0xff else 0) count

/-- Bytes of a word copied over `count` bytes of a buffer from `off` on. -/
def copyBytes (val : BitVec 32) (off count : Nat) (buf : Nat → BitVec 8) : Nat → BitVec 8 :=
  fun k => if off ≤ k ∧ k < off + count then byteOf val (k - off) else buf k

/-- `vfio_ub_default_config_write` of a slice the device has. -/
def defaultConfigWrite (c : Cfg) (pos count : Nat) (val : BitVec 32) : Cfg :=
  let cap := posToCap pos
  let off := pos - capToPos cap
  let perm := d.findCapPerm cap
  let write := pack (fun i => perm.write (off + i)) count
  if write = 0 then c
  else
    let virt := pack (fun i => perm.virt (off + i)) count
    let buf := if write &&& virt = 0 then c.buf else
      let mask := d.getVirtWriteMask pos count
      let virtVal := pack (fun i => c.buf cap (off + i)) count
      let virtVal := virtVal &&& ~~~(write &&& virt &&& mask)
      let virtVal := virtVal ||| (val &&& (write &&& virt &&& mask))
      Function.update c.buf cap (copyBytes virtVal off count (c.buf cap))
    let hw := if write &&& ~~~virt = 0 then c.hw else
      let physVal := d.userConfigRead c.hw pos count
      let physVal := physVal &&& ~~~(write &&& ~~~virt)
      let physVal := physVal ||| (val &&& (write &&& ~~~virt))
      d.userConfigWrite c.hw pos physVal count
    { hw := hw, buf := buf }

/-- What fails for a piece: the copy from the guest, `ub_entity_enable_return`,
`ub_reset_entity`. -/
structure Faults where
  copy : Bool := false
  enable : Bool := false
  reset : Bool := false

/-- `writefn` of a slice: the space after it and success. What `ub_entity_enable_return` and
`ub_reset_entity` write to configuration registers of their own is left out; the reset clears its
bit of the virtual copy. -/
def writefn (fn : WriteFn) (c : Cfg) (pos count : Nat) (val : BitVec 32) (f : Faults) : Cfg × Bool :=
  let c := d.defaultConfigWrite c pos count val
  match fn with
  | .default => (c, true)
  | .cfg1Basic =>
    if pos = d.accessEn ∧ f.enable then (c, false)
    else
      let elr := c.buf d.elr.1 d.elr.2
      let slice := Function.update (c.buf d.elr.1) d.elr.2 (elr &&& ~~~d.elrBit)
      if elr &&& d.elrBit = 0 then (c, true)
      else ({ c with buf := Function.update c.buf d.elr.1 slice }, !f.reset)

def pieceSize (pos count left : Nat) : Nat :=
  let count := min count left
  if 4 ≤ count ∧ pos % 4 = 0 then 4 else if 2 ≤ count ∧ pos % 2 = 0 then 2 else 1

/-- `size_t` subtraction. -/
def subSize (a b : Nat) : Nat := (a + 18446744073709551616 - b) % 18446744073709551616

/-- `vfio_ub_config_do_rw` for a write of `data`: the space after it and the bytes it
took, or nothing for an error. -/
def configDoRw (c : Cfg) (data : Nat → BitVec 8) (pos count : Nat) (f : Faults) :
    Cfg × Option Nat :=
  if d.routeTableSliceStart ≤ pos ∨ d.routeTableSliceStart < pos + count ∨ sliceSz < count then
    (c, none)
  else
    let cap := posToCap pos
    let unused := min count (subSize (capToPos cap + sliceSz) pos)
    match d.usedSize cap with
    | none => (c, some unused)
    | some used =>
      if pos < capToPos cap + used then
        let n := pieceSize pos count (capToPos cap + used - pos)
        match (d.findCapPerm cap).writefn with
        | none => (c, some n)
        | some fn =>
          if f.copy then (c, none)
          else
            let r := d.writefn fn c pos n (pack data n) f
            (r.1, if r.2 then some n else none)
      else (c, some unused)

/-- The loop of `vfio_ub_config_rw`; `fuel` bounds its rounds by the bytes left. -/
def configRwLoop (f : Nat → Faults) : Nat → Cfg → (Nat → BitVec 8) → Nat → Nat → Cfg × Bool
  | 0, c, _, _, _ => (c, true)
  | fuel + 1, c, data, pos, count =>
    if count = 0 then (c, true)
    else
      match d.configDoRw c data pos count (f pos) with
      | (c, none) => (c, false)
      | (c, some n) =>
        configRwLoop f fuel c (fun i => data (n + i)) (pos + n) (count - n)

/-- `VFIO_UB_OFFSET_MASK`. -/
def offsetMask (ppos : Nat) : Nat := ppos % 1099511627776

/-- `vfio_ub_config_rw` for a write: the space after it and whether it succeeded. -/
def configRw (c : Cfg) (data : Nat → BitVec 8) (ppos count : Nat) (f : Nat → Faults) : Cfg × Bool :=
  d.configRwLoop f count c data (offsetMask ppos) count

end Vdev

section Bytes

variable {u : Uent} {p : PermBits}

/-- A vfio device may access every register that exists for both kinds of entities. -/
theorem judgeType_zero (h : u.Supported) : judgeType u 0 := by
  obtain ⟨h1, h2⟩ := h
  unfold judgeType
  rw [h2]
  cases ht : u.type with
  | icontroller | controller => rfl
  | other => exact absurd ht h1

theorem PermBits.readable_of_writable {off : Nat} (h : p.writable u off) :
    p.readable u off := by
  unfold PermBits.writable judgeRegWrite at h
  unfold PermBits.readable judgeRegRead
  obtain ⟨h1, h2⟩ := Bool.and_eq_true .. ▸ h
  rw [h1, Bool.true_and]
  rcases p.ent0eo_byte off with h0 | h0 <;> rw [h0] at h2 ⊢
  · simp
  · simpa using h2

theorem storeBytes_apply (sel : Nat → Bool) (val : BitVec 32) (pos n : Nat) (hw : Nat → BitVec 8)
    (k : Nat) : storeBytes sel val pos n hw k =
      if pos ≤ k ∧ k < pos + n ∧ sel (k - pos) = true then byteOf val (k - pos) else hw k := by
  induction n with
  | zero => rw [if_neg (by omega)]; rfl
  | succ n ih =>
    unfold storeBytes
    by_cases hk : k = pos + n
    · subst hk
      rw [Nat.add_sub_cancel_left] at ih ⊢
      rw [if_neg (by omega)] at ih
      by_cases hs : sel n = true
      · rw [if_pos hs, if_pos ⟨by omega, by omega, hs⟩]
        exact Function.update_self ..
      · rw [if_neg hs, if_neg (fun h => hs h.2.2), ih]
    have hsame : (if sel n = true then cfgWriteByte (storeBytes sel val pos n hw) (pos + n) (byteOf val n)
        else storeBytes sel val pos n hw) k = storeBytes sel val pos n hw k := by
      split
      · exact Function.update_of_ne hk ..
      · rfl
    refine hsame.trans (ih.trans (if_congr ?_ rfl rfl))
    constructor <;> exact fun h => ⟨h.1, by omega, h.2.2⟩

end Bytes

namespace Vdev

variable {d : Vdev} {c : Cfg} {pos count : Nat}

theorem byteOf_userConfigRead (d : Vdev) (pos : Nat) (hw : Nat → BitVec 8) (hn : count ≤ 4) {i : Nat}
    (hi : i < count) :
    byteOf (d.userConfigRead hw pos count) i =
      if (d.findCapPerm (posToCap pos)).readable d.uent (pos - capToPos (posToCap pos) + i) then
        hw (pos + i) else 0 := by
  dsimp only [userConfigRead]
  have h4 : i < 4 := by omega
  split
  · next h =>
    obtain ⟨h1, h2⟩ := h
    have e1 := (pack_eq_zero _ hn).mp h1 i hi
    have e2 := (pack_eq_zero _ hn).mp h2 i hi
    rw [byteOf_pack _ h4, if_pos hi, if_pos]
    unfold PermBits.readable judgeRegRead
    rw [e1, e2, judgeType_zero d.supported]
    simp
  · rw [byteOf_pack _ h4, if_pos hi, byteOf_pack _ h4, byteOf_pack _ h4, if_pos hi, if_pos hi]
    rfl

theorem userConfigWrite_apply (hw : Nat → BitVec 8) (val : BitVec 32) (hn : count ≤ 4) (k : Nat) :
    d.userConfigWrite hw pos val count k =
      if pos ≤ k ∧ k < pos + count ∧ (d.findCapPerm (posToCap pos)).writable d.uent
        (pos - capToPos (posToCap pos) + (k - pos)) = true then byteOf val (k - pos) else hw k := by
  unfold userConfigWrite
  split
  · next h =>
    obtain ⟨h1, h2, h3⟩ := h
    rw [storeBytes_apply]
    refine if_congr (and_congr_right fun ha => and_congr_right fun hb => ?_) rfl rfl
    have hi : k - pos < count := by omega
    have e1 := (pack_eq_zero _ hn).mp h1 _ hi
    have e2 := (pack_eq_zero _ hn).mp h2 _ hi
    have e3 := (pack_eq_zero _ hn).mp h3 _ hi
    refine iff_of_true rfl ?_
    unfold PermBits.writable judgeRegWrite
    rw [e1, e2, e3, judgeType_zero d.supported]
    cases h0 : d.uent.entityIdx == 0 <;> simp_all
  rw [storeBytes_apply]
  refine if_congr (and_congr_right fun ha => and_congr_right fun hb => ?_) rfl rfl
  have hi : k - pos < count := by omega
  have h4 : k - pos < 4 := by omega
  rw [byteOf_pack _ h4, byteOf_pack _ h4, byteOf_pack _ h4, if_pos hi, if_pos hi, if_pos hi]
  rfl

end Vdev

end UbDkms.Vfio
