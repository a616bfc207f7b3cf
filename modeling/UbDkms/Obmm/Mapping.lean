import UbDkms.Lib.Agents
import UbDkms.Lib.Reach
import UbDkms.Obmm.Ownership

/-!
# Mappings of a region

`obmm_shm_dev.c`: the VMAs of one region in any number of address spaces, as
`obmm_shm_fops_mmap`, VMA splits, `obmm_vma_close` and `obmm_shm_update_range` with
its rollback change them and the counters. Addresses and offsets are in pages.
-/

namespace UbDkms.Obmm

open Lib

/-- A VMA of an address space; `owned` are those of this region, `osync` those of
its `O_SYNC` files, `saved` is `vm_private_data`. -/
structure Vma where
  start : Nat
  stop : Nat
  pgoff : Nat := 0
  flags : VmFlags := {}
  osync : Bool := false
  owned : Bool := true
  saved : VmFlags := {}
  deriving DecidableEq, Repr

namespace Vma

def npages (v : Vma) : Nat := v.stop - v.start

def Covers (v : Vma) (p : Nat) : Prop := v.pgoff ≤ p ∧ p < v.pgoff + v.npages

instance (v : Vma) (p : Nat) : Decidable (v.Covers p) := by unfold Covers; infer_instance

def counted (v : Vma) (p : Nat) : Bool := v.owned && !v.osync && decide (v.Covers p)

def writer (v : Vma) : Bool := accessIsWriter (vmFlagsToAccess v.flags)

def reader (v : Vma) : Bool := accessIsReader (vmFlagsToAccess v.flags)

end Vma

structure Mapping where
  reg : Reg
  spaces : List (List Vma) := []

namespace Mapping

def number (s : Mapping) (f : Vma → Bool) : Nat := total (fun v => (f v).toNat) s.spaces.flatten

def live (s : Mapping) : Nat := s.number (·.owned)

def writers (s : Mapping) (p : Nat) : Nat := s.number fun v => v.counted p && v.writer

def readers (s : Mapping) (p : Nat) : Nat := s.number fun v => v.counted p && v.reader

def coverers (s : Mapping) (p : Nat) : Nat := s.number (·.counted p)

end Mapping

/-- A 32-bit `atomic_t`. -/
def atomicInc (n : Nat) : Nat := (n + 1) % 4294967296

def atomicDec (n : Nat) : Nat := (n + 4294967295) % 4294967296

/-- `struct file`: the `O_SYNC` flag and `f_mode`. -/
structure ShmFile where
  osync : Bool := false
  read : Bool := true
  write : Bool := true

def validatePerm (file : ShmFile) (f : VmFlags) : Bool :=
  !((f.read && !file.read) || (f.write && !file.write) || (f.exec && !file.read))

/-- The arguments of an `mmap` (`pmd` is `OBMM_MMAP_FLAG_HUGETLB_PMD` in the offset)
and what the calls it makes return. -/
structure MmapArgs where
  file : ShmFile := {}
  start : Nat
  stop : Nat
  pgoff : Nat := 0
  pmd : Bool := false
  flags : VmFlags := {}
  mayshare : Bool := true
  allowed : Bool := true
  initFails : Bool := false
  mapFails : Bool := false

def MmapArgs.granu (a : MmapArgs) : MmapGranu := if a.pmd then .pmd else .page

def MmapArgs.vma (a : MmapArgs) : Vma :=
  { start := a.start, stop := a.stop, pgoff := a.pgoff, flags := a.flags, osync := a.file.osync }

namespace Reg

/-- `init_ownership_info`: the region, or nothing for an error. -/
def initOwnershipInfo (reg : Reg) (fails : Bool) : Option Reg :=
  match reg.ownership with
  | some _ => some reg
  | none =>
    if reg.granu = .none then none
    else if fails then none
    else some { reg with
      ownership := some (List.replicate (reg.ownershipSizeToNentries reg.memPages) {}) }

/-- `obmm_shm_fops_mmap` under `state_mutex`, with the mode already set. -/
def mmapLocked (reg : Reg) (a : MmapArgs) : Reg × Int :=
  if reg.mode = .normal then
    match reg.initOwnershipInfo a.initFails with
    | none => (reg, -12)
    | some reg =>
      if a.mapFails then (reg, -14)
      else
        let access := vmFlagsToAccess a.flags
        let reg := (reg.updateVmaPermCount a.pgoff (a.stop - a.start) .noAccess access).1
        ({ reg.soil a.pgoff (a.stop - a.start) access with mmapCount := atomicInc reg.mmapCount }, 0)
  else if a.mapFails then (reg, -14)
  else ({ reg with mmapCount := atomicInc reg.mmapCount }, 0)

/-- The checks of `obmm_shm_fops_mmap` that come before the granularity is taken. -/
def mmapCheck (reg : Reg) (a : MmapArgs) : Int :=
  if !a.mayshare then -22
  else if !a.allowed then -1
  else if !validatePerm a.file a.flags then -1
  else if a.pmd && !(a.start % 2 ^ reg.pmdShift == 0 && a.stop % 2 ^ reg.pmdShift == 0) then -22
  else if a.pmd && !(a.pgoff % 2 ^ reg.pmdShift == 0) then -22
  else 0

/-- `obmm_shm_fops_mmap`. -/
def fopsMmap (reg : Reg) (a : MmapArgs) : Reg × Int :=
  if reg.mmapCheck a ≠ 0 then (reg, reg.mmapCheck a)
  else if reg.granu ≠ .none ∧ reg.granu ≠ a.granu then (reg, -1)
  else if reg.memPages ≤ a.pgoff ∨ reg.memPages - a.pgoff < a.stop - a.start then (reg, -22)
  else if (a.file.osync ∧ reg.mode = .normal) ∨ (¬ a.file.osync ∧ reg.mode = .osync) then (reg, -1)
  else
    let mode := if reg.mode = .init then (if a.file.osync then .osync else .normal) else reg.mode
    let r := { reg with granu := a.granu, mode := mode }.mmapLocked a
    if r.2 = 0 then r
    -- `reset_cur_osync`, `err_reset_mmap_granu`
    else ({ r.1 with mode := reg.mode, granu := reg.granu }, r.2)

/-- `obmm_vma_close`. -/
def vmaClose (reg : Reg) (v : Vma) (flushFails : Bool) : Reg :=
  let before := reg.pageState
  let (reg, ops) := reg.updateVmaPermCount v.pgoff v.npages (vmFlagsToAccess v.flags) .noAccess
  let reg := if ops ≠ .none ∧ reg.mode = .normal then
    (reg.flushRange before v.pgoff v.npages ops flushFails).1 else reg
  let count := atomicDec reg.mmapCount
  { reg with mmapCount := count, mode := if count = 0 then .init else reg.mode }

/-- `split_vma`: `obmm_vma_may_split` and `obmm_vma_open` of the new VMA. -/
def splitVma (reg : Reg) (v : Vma) (addr : Nat) (fails : Bool) : Option (Reg × Vma × Vma) :=
  if v.owned && !reg.isAligned addr then none
  else if fails then none
  else some (if v.owned then { reg with mmapCount := atomicInc reg.mmapCount } else reg,
    { v with stop := addr },
    { v with start := addr, pgoff := v.pgoff + (addr - v.start) })

end Reg

/-- The cacheability bits of `OBMM_SHM_MEM_*`. -/
inductive MemCache where
  | resv | normal | normalNc | device
  deriving DecidableEq, Repr

/-- `struct obmm_cmd_update_range`; `other` are bits of `mem_state` outside its masks,
`ops` is `none` for `OBMM_SHM_CACHE_INFER`. -/
structure UpdateRange where
  start : Nat
  stop : Nat
  other : Bool := false
  cache : MemCache := .normal
  access : Access
  ops : Option CacheOps := none

def validateState (u : UpdateRange) : Bool :=
  !u.other && !(u.cache == .resv) &&
    !(u.access == .readexec && (u.cache == .device || u.cache == .normalNc)) &&
    !(u.cache == .normalNc && u.access != .noAccess)

def validateOwnershipPerm (file : ShmFile) (u : UpdateRange) : Bool :=
  validatePerm file (match u.access with
    | .readonly => { read := true }
    | .readwrite => { read := true, write := true }
    | .readexec => { read := true, exec := true }
    | .noAccess => {})

def validateUpdateInfo (reg : Reg) (file : ShmFile) (u : UpdateRange) : Bool :=
  !file.osync && reg.ownership.isSome && decide (u.start < u.stop) &&
    reg.isAligned u.start && reg.isAligned u.stop

/-- Which calls made for the VMA at a place of the address space fail, and which pages are stored
to between its flush and the change of its page tables. -/
structure Faults where
  splitStart : Nat → Bool := fun _ => false
  splitStop : Nat → Bool := fun _ => false
  flush : Nat → Bool := fun _ => false
  walk : Nat → Bool := fun _ => false
  stores : Nat → Nat → Bool := fun _ _ => false

/-- One VMA after its turn in the loop: what became of it, in order of addresses, the
VMA modified, if any, and the error. -/
structure Turn where
  reg : Reg
  low : List Vma := []
  vma : Vma
  high : List Vma := []
  modified : Bool := false
  ret : Int := 0

namespace Reg

/-- `vm_flags_clear` and `vm_flags_set` with `OBMM_UPDATE_VM_FLAGS_MASK`. -/
def setFlags (v : Vma) (f : VmFlags) : Vma :=
  { v with flags := { v.flags with read := f.read, write := f.write } }

def flushOp (reg : Reg) (u : UpdateRange) (ops : CacheOps) : CacheOps :=
  match u.ops with
  | some op => op
  | none => if ops ≠ .none ∧ reg.mode = .normal then ops else .none

/-- A VMA inside the range: counters, flags, flush and page tables. -/
def modifyVma (reg : Reg) (u : UpdateRange) (v : Vma) (flushFails walkFails : Bool) (stores : Nat → Bool) :
    Reg × Vma × Int :=
  let v := { v with saved := v.flags }
  let before := reg.pageState
  let (reg, ops) := reg.updateVmaPermCount v.pgoff v.npages (vmFlagsToAccess v.flags) u.access
  let v := setFlags v (accessToVmFlags u.access)
  let op := reg.flushOp u ops
  let (reg, ok) := if op ≠ .none then reg.flushRange before v.pgoff v.npages op flushFails
    else (reg, true)
  if !ok then (reg, v, -5)
  else
    -- the old page tables are still in place
    let reg := (reg.store stores v.pgoff v.npages (vmFlagsToAccess v.saved)).soil v.pgoff v.npages u.access
    if walkFails then (reg, v, -12) else (reg, v, 0)

/-- The body of the loop of `obmm_shm_update_range` from the split at the end on. -/
def updateFrom (reg : Reg) (u : UpdateRange) (f : Faults) (k : Nat) (low : List Vma) (v : Vma) :
    Turn :=
  if u.stop < v.stop then
    match reg.splitVma v u.stop (f.splitStop k) with
    | none => { reg := reg, low := low, vma := v, ret := -22 }
    | some (reg, v, high) =>
      let (reg, v, ret) := reg.modifyVma u v (f.flush k) (f.walk k) (f.stores k)
      { reg := reg, low := low, vma := v, high := [high], modified := true, ret := ret }
  else
    let (reg, v, ret) := reg.modifyVma u v (f.flush k) (f.walk k) (f.stores k)
    { reg := reg, low := low, vma := v, modified := true, ret := ret }

/-- The body of the loop of `obmm_shm_update_range`. -/
def updateVma (reg : Reg) (u : UpdateRange) (f : Faults) (k cursor : Nat) (v : Vma) : Turn :=
  if cursor < v.start then { reg := reg, vma := v, ret := -14 }
  else if !v.owned then { reg := reg, vma := v, ret := -14 }
  else if v.start < cursor then
    match reg.splitVma v cursor (f.splitStart k) with
    | none => { reg := reg, vma := v, ret := -22 }
    | some (reg, low, v) => reg.updateFrom u f k [low] v
  else reg.updateFrom u f k [] v

end Reg

structure Walk where
  reg : Reg
  vmas : List Vma
  cursor : Nat
  modifiedEnd : Nat
  ret : Int := 0

namespace Reg

/-- `for_each_vma_range`: VMAs that end before the cursor are not met; the loop ends with
the range or with a VMA that starts after it. -/
def updateVmas (u : UpdateRange) (f : Faults) : Nat → Reg → Nat → Nat → List Vma → Walk
  | _, reg, cursor, modifiedEnd, [] =>
    { reg := reg, vmas := [], cursor := cursor, modifiedEnd := modifiedEnd }
  | k, reg, cursor, modifiedEnd, v :: l =>
    if u.stop ≤ cursor then
      { reg := reg, vmas := v :: l, cursor := cursor, modifiedEnd := modifiedEnd }
    else if v.stop ≤ cursor then
      let w := updateVmas u f (k + 1) reg cursor modifiedEnd l
      { w with vmas := v :: w.vmas }
    else if u.stop ≤ v.start then
      { reg := reg, vmas := v :: l, cursor := cursor, modifiedEnd := modifiedEnd }
    else
      let t := reg.updateVma u f k cursor v
      let modifiedEnd := if t.modified then t.vma.stop else modifiedEnd
      if t.ret ≠ 0 then
        { reg := t.reg, vmas := t.low ++ t.vma :: (t.high ++ l), cursor := cursor,
          modifiedEnd := modifiedEnd, ret := t.ret }
      else
        let w := updateVmas u f (k + 1) t.reg t.vma.stop modifiedEnd l
        { w with vmas := t.low ++ t.vma :: (t.high ++ w.vmas) }

def restoreVma (reg : Reg) (u : UpdateRange) (v : Vma) : Reg × Vma :=
  let access := vmFlagsToAccess v.saved
  let reg := (reg.updateVmaPermCount v.pgoff v.npages u.access access).1
  (reg.soil v.pgoff v.npages access, setFlags v v.saved)

/-- The rollback loop: `find_vma` gives the first VMA that ends after the cursor. -/
def rollback (u : UpdateRange) (modifiedEnd : Nat) : Reg → Nat → List Vma → Reg × List Vma
  | reg, _, [] => (reg, [])
  | reg, cursor, v :: l =>
    if modifiedEnd ≤ cursor then (reg, v :: l)
    else if v.stop ≤ cursor then
      let r := rollback u modifiedEnd reg cursor l
      (r.1, v :: r.2)
    else if cursor < v.start then (reg, v :: l)
    else
      let (reg, v) := reg.restoreVma u v
      let r := rollback u modifiedEnd reg v.stop l
      (r.1, v :: r.2)

/-- The checks of `obmm_shm_update_range` before it takes the locks. -/
def updateCheck (reg : Reg) (file : ShmFile) (u : UpdateRange) : Int :=
  if !validateUpdateInfo reg file u then -22
  else if !validateOwnershipPerm file u then -1
  else if !validateState u then -22
  else 0

def walkRet (u : UpdateRange) (w : Walk) : Int :=
  if w.ret ≠ 0 then w.ret else if w.cursor < u.stop then -14 else 0

/-- `obmm_shm_update_range` on an address space. -/
def updateRange (reg : Reg) (file : ShmFile) (u : UpdateRange) (f : Faults) (vmas : List Vma) :
    Reg × List Vma × Int :=
  if reg.updateCheck file u ≠ 0 then (reg, vmas, reg.updateCheck file u)
  else
    let w := updateVmas u f 0 reg u.start u.start vmas
    if walkRet u w = 0 then (w.reg, w.vmas, 0)
    else
      let r := rollback u w.modifiedEnd w.reg u.start w.vmas
      (r.1, r.2, walkRet u w)

end Reg

def insertVma (v : Vma) (l : List Vma) : List Vma :=
  l.takeWhile (·.start < v.start) ++ v :: l.dropWhile (·.start < v.start)

def free (v : Vma) (l : List Vma) : Bool :=
  decide (v.start < v.stop) && l.all fun o => decide (o.stop ≤ v.start ∨ v.stop ≤ o.start)

/-- What happens to the address spaces: a process starts, maps the region or something
else, a VMA is split or unmapped, the ownership of a range is updated. -/
inductive MapAct where
  | spawn
  | mmap (n : Nat) (a : MmapArgs)
  | other (n start stop : Nat)
  | split (n i addr : Nat) (fails : Bool)
  | unmap (n i : Nat) (flushFails : Bool)
  | update (n : Nat) (file : ShmFile) (u : UpdateRange) (f : Faults)

namespace Mapping

def mmap (s : Mapping) (n : Nat) (a : MmapArgs) : Mapping :=
  match s.spaces[n]? with
  | none => s
  | some l =>
    if free a.vma l then
      let r := s.reg.fopsMmap a
      if r.2 = 0 then { reg := r.1, spaces := s.spaces.set n (insertVma a.vma l) }
      else { s with reg := r.1 }
    else s

def other (s : Mapping) (n start stop : Nat) : Mapping :=
  match s.spaces[n]? with
  | none => s
  | some l =>
    let v : Vma := { start := start, stop := stop, owned := false }
    if free v l then { s with spaces := s.spaces.set n (insertVma v l) } else s

def split (s : Mapping) (n i addr : Nat) (fails : Bool) : Mapping :=
  match s.spaces[n]? with
  | none => s
  | some l =>
    match l[i]? with
    | none => s
    | some v =>
      if v.start < addr ∧ addr < v.stop then
        match s.reg.splitVma v addr fails with
        | none => s
        | some (reg, low, high) =>
          { reg := reg, spaces := s.spaces.set n (l.take i ++ low :: high :: l.drop (i + 1)) }
      else s

def unmap (s : Mapping) (n i : Nat) (flushFails : Bool) : Mapping :=
  match s.spaces[n]? with
  | none => s
  | some l =>
    match l[i]? with
    | none => s
    | some v =>
      { reg := if v.owned then s.reg.vmaClose v flushFails else s.reg
        spaces := s.spaces.set n (l.eraseIdx i) }

def update (s : Mapping) (n : Nat) (file : ShmFile) (u : UpdateRange) (f : Faults) : Mapping :=
  match s.spaces[n]? with
  | none => s
  | some l =>
    let r := s.reg.updateRange file u f l
    { reg := r.1, spaces := s.spaces.set n r.2.1 }

def begin (s : Mapping) : Mapping := { s with reg := { s.reg with flushed := [] } }

def act (s : Mapping) : MapAct → Mapping
  | .spawn => { s.begin with spaces := s.spaces ++ [[]] }
  | .mmap n a => s.begin.mmap n a
  | .other n start stop => s.begin.other n start stop
  | .split n i addr fails => s.begin.split n i addr fails
  | .unmap n i flushFails => s.begin.unmap n i flushFails
  | .update n file u f => s.begin.update n file u f

def init (memPages pmdShift : Nat) : Mapping where
  reg := { memPages := memPages, pmdShift := pmdShift }

end Mapping

end UbDkms.Obmm
