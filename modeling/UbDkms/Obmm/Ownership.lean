import Mathlib.Data.List.Basic
import Mathlib.Data.List.GetD
import Mathlib.Tactic

/-!
# Ownership counters of a region

`obmm_ownership.c`: per entry of the ownership table, how many mappings write and
how many have any access, and the cache operation that a change of a mapping asks
for. The operations of all entries of a range are merged into one, which is then
done over the whole range.
-/

namespace UbDkms.Obmm

open List

/-- The access bits of `OBMM_SHM_MEM_*`. -/
inductive Access where
  | readonly | readexec | readwrite | noAccess
  deriving DecidableEq, Repr

/-- `VM_READ`, `VM_WRITE` and `VM_EXEC`. -/
structure VmFlags where
  read : Bool := false
  write : Bool := false
  exec : Bool := false
  deriving DecidableEq, Repr

def vmFlagsToAccess (f : VmFlags) : Access :=
  if f.write then .readwrite
  else if f.read then (if f.exec then .readexec else .readonly)
  else .noAccess

def accessIsReader (a : Access) : Bool := a != .noAccess

def accessIsWriter (a : Access) : Bool := a == .readwrite

/-- The `VM_READ` and `VM_WRITE` bits of `access_to_vm_flags`. -/
def accessToVmFlags : Access → VmFlags
  | .readwrite => { read := true, write := true }
  | .readexec => { read := true }
  | .readonly => { read := true }
  | .noAccess => {}

/-- `OBMM_SHM_CACHE_*`. -/
inductive CacheOps where
  | none | inval | wbInval | wbOnly
  deriving DecidableEq, Repr

def CacheOps.writesBack : CacheOps → Bool
  | .wbInval | .wbOnly => true
  | _ => false

def CacheOps.invalidates : CacheOps → Bool
  | .wbInval | .inval => true
  | _ => false

def mergeCacheOps (ops1 ops2 : CacheOps) : CacheOps :=
  if ops1 = .none then ops2
  else if ops2 = .none then ops1
  else if ops1 = .wbInval ∨ ops2 = .wbInval then .wbInval
  else if (ops1 = .wbOnly ∧ ops2 = .inval) ∨ (ops1 = .inval ∧ ops2 = .wbOnly) then .wbInval
  else ops1

@[simp] theorem mergeCacheOps_writesBack (a b : CacheOps) :
    (mergeCacheOps a b).writesBack = (a.writesBack || b.writesBack) := by
  cases a <;> cases b <;> decide

@[simp] theorem mergeCacheOps_invalidates (a b : CacheOps) :
    (mergeCacheOps a b).invalidates = (a.invalidates || b.invalidates) := by
  cases a <;> cases b <;> decide

structure PageState where
  rCount : Nat := 0
  wCount : Nat := 0
  deriving DecidableEq, Repr

def count16 (n : Nat) (leaves joins : Bool) : Nat :=
  let n := if leaves then (n + 65535) % 65536 else n
  if joins then (n + 1) % 65536 else n

theorem count16_eq (n : Nat) (leaves joins : Bool) (hn : n ≤ 65535) (hl : leaves.toNat ≤ n)
    (hj : n + joins.toNat ≤ 65535 + leaves.toNat) :
    count16 n leaves joins + leaves.toNat = n + joins.toNat := by
  unfold count16
  cases leaves <;> cases joins <;> simp at hl hj ⊢ <;> omega

def PageState.change (old new : Access) (page : PageState) : PageState where
  rCount := count16 page.rCount (accessIsReader old) (accessIsReader new)
  wCount := count16 page.wCount (accessIsWriter old) (accessIsWriter new)

def cacheOp (old new : PageState) : CacheOps :=
  if 0 < old.wCount ∧ new.wCount = 0 then (if 0 < new.rCount then .wbOnly else .wbInval)
  else if 0 < old.rCount ∧ new.rCount = 0 ∧ new.wCount = 0 then .inval
  else .none

def updatePageOwnership (page : PageState) (old new : Access) : PageState × CacheOps :=
  (page.change old new, cacheOp page (page.change old new))

theorem cacheOp_writesBack (old new : PageState) :
    (cacheOp old new).writesBack ↔ 0 < old.wCount ∧ new.wCount = 0 := by
  unfold cacheOp
  split
  · next h => split <;> simp [CacheOps.writesBack, h]
  · next h => split <;> simp [CacheOps.writesBack] <;> omega

theorem cacheOp_invalidates (old new : PageState) :
    (cacheOp old new).invalidates ↔
      (0 < old.wCount ∨ 0 < old.rCount) ∧ new.wCount = 0 ∧ new.rCount = 0 := by
  unfold cacheOp
  split
  · next h => split <;> simp [CacheOps.invalidates] <;> omega
  · next h => split <;> simp [CacheOps.invalidates] <;> omega

/-- The loop of `update_vma_perm_count` from entry `i` on. -/
def updatePages (old new : Access) : Nat → Nat → List PageState → CacheOps →
    List PageState × CacheOps
  | _, 0, pages, ops => (pages, ops)
  | i, n + 1, pages, ops =>
    let r := updatePageOwnership (pages.getD i {}) old new
    updatePages old new (i + 1) n (pages.set i r.1) (mergeCacheOps ops r.2)

section Loop

variable (old new : Access)

theorem updatePages_length (i n : Nat) (pages : List PageState) (ops : CacheOps) :
    (updatePages old new i n pages ops).1.length = pages.length := by
  induction n generalizing i pages ops with
  | zero => rfl
  | succ n ih => exact (ih _ _ _).trans length_set

theorem getD_set {pages : List PageState} {i : Nat} (hi : i < pages.length) (x : PageState)
    (e : Nat) : (pages.set i x).getD e {} = if e = i then x else pages.getD e {} := by
  rw [getD_eq_getElem?_getD, List.getElem?_set]
  split
  · next h => subst h; simp
  · next h => rw [if_neg (Ne.symm h), getD_eq_getElem?_getD]

theorem updatePages_getD (i n : Nat) (pages : List PageState) (ops : CacheOps)
    (h : i + n ≤ pages.length) (e : Nat) :
    (updatePages old new i n pages ops).1.getD e {} =
      if i ≤ e ∧ e < i + n then (pages.getD e {}).change old new else pages.getD e {} := by
  induction n generalizing i pages ops with
  | zero => rw [if_neg (by omega)]; rfl
  | succ n ih =>
    refine (ih _ _ _ (by rw [length_set]; omega)).trans ?_
    rw [getD_set (by omega)]
    by_cases he : e = i
    · subst he
      rw [if_neg (by omega), if_pos rfl, if_pos (by omega)]
      rfl
    rw [if_neg he]
    by_cases hr : i ≤ e ∧ e < i + (n + 1)
    · rw [if_pos hr, if_pos (by omega)]
    · rw [if_neg hr, if_neg (by omega)]

theorem updatePages_ops {f : CacheOps → Bool}
    (hf : ∀ a b, f (mergeCacheOps a b) = (f a || f b)) (i n : Nat) (pages : List PageState)
    (ops : CacheOps) (h : i + n ≤ pages.length) :
    f (updatePages old new i n pages ops).2 ↔ f ops ∨ ∃ e, i ≤ e ∧ e < i + n ∧
      f (cacheOp (pages.getD e {}) ((pages.getD e {}).change old new)) := by
  induction n generalizing i pages ops with
  | zero => exact ⟨.inl, fun h => h.elim id fun ⟨e, he⟩ => absurd he (by omega)⟩
  | succ n ih =>
    refine (ih _ _ _ (by rw [length_set]; omega)).trans ?_
    rw [hf, Bool.or_eq_true, or_assoc]
    refine or_congr_right ⟨?_, ?_⟩
    · rintro (hi | ⟨e, he, hlt, hop⟩)
      · exact ⟨i, le_rfl, by omega, hi⟩
      · rw [getD_set (by omega), if_neg (by omega)] at hop
        exact ⟨e, by omega, by omega, hop⟩
    · rintro ⟨e, he, hlt, hop⟩
      by_cases hei : e = i
      · exact .inl (hei ▸ hop)
      · refine .inr ⟨e, by omega, by omega, ?_⟩
        rwa [getD_set (by omega), if_neg hei]

end Loop

/-- `enum obmm_mmap_granu`. -/
inductive MmapGranu where
  | none | page | pmd
  deriving DecidableEq, Repr

/-- `enum obmm_mmap_mode`. -/
inductive MmapMode where
  | init | normal | osync
  deriving DecidableEq, Repr

/-- A cache operation done over a range of pages for a change of the counters from
`before` to `after`; `dirty` are the pages that then have a writer or may hold
unwritten data of one. -/
structure Flush where
  pgoff : Nat
  npages : Nat
  op : CacheOps
  before : Nat → PageState
  after : Nat → PageState
  dirty : Nat → Bool

def Flush.Covers (f : Flush) (p : Nat) : Prop := f.pgoff ≤ p ∧ p < f.pgoff + f.npages

/-- The fields of `struct obmm_region` the mappings use; `dirty` and `flushed` record
what the caches may hold and which operations the last call did. -/
structure Reg where
  memPages : Nat
  /-- `PMD_SHIFT - PAGE_SHIFT`. -/
  pmdShift : Nat
  granu : MmapGranu := .none
  mode : MmapMode := .init
  mmapCount : Nat := 0
  ownership : Option (List PageState) := none
  dirty : Nat → Bool := fun _ => false
  flushed : List Flush := []

def unitOf (pmdShift : Nat) (granu : MmapGranu) : Nat :=
  if granu = .pmd then 2 ^ pmdShift else 1

namespace Reg

def unit (reg : Reg) : Nat := unitOf reg.pmdShift reg.granu

theorem unit_pos (reg : Reg) : 0 < reg.unit := by
  unfold unit unitOf
  split
  · exact Nat.two_pow_pos _
  · exact Nat.one_pos

def ownershipPgoffToIndex (reg : Reg) (pgoff : Nat) : Nat := pgoff / reg.unit

def ownershipSizeToNentries (reg : Reg) (npages : Nat) : Nat := npages / reg.unit

def isAligned (reg : Reg) (page : Nat) : Bool := page % reg.unit == 0

def pageState (reg : Reg) (p : Nat) : PageState :=
  match reg.ownership with
  | none => {}
  | some t => t.getD (reg.ownershipPgoffToIndex p) {}

def updateVmaPermCount (reg : Reg) (pgoff npages : Nat) (old new : Access) : Reg × CacheOps :=
  match reg.ownership with
  | none => (reg, .none)
  | some t =>
    let r := updatePages old new (reg.ownershipPgoffToIndex pgoff)
      (reg.ownershipSizeToNentries npages) t .none
    ({ reg with ownership := some r.1 }, r.2)

def soil (reg : Reg) (pgoff npages : Nat) (access : Access) : Reg :=
  { reg with dirty := fun p =>
      reg.dirty p || (accessIsWriter access && decide (pgoff ≤ p ∧ p < pgoff + npages)) }

/-- Stores to some pages of a mapping with the given access. -/
def store (reg : Reg) (stores : Nat → Bool) (pgoff npages : Nat) (access : Access) : Reg :=
  { reg with dirty := fun p =>
      reg.dirty p || (accessIsWriter access && stores p && decide (pgoff ≤ p ∧ p < pgoff + npages)) }

/-- `obmm_region_flush_range`, whose maintenance fails or not: the region and success.
`before` are the counters before the change that asked for it. -/
def flushRange (reg : Reg) (before : Nat → PageState) (pgoff npages : Nat) (op : CacheOps)
    (fail : Bool) : Reg × Bool :=
  if reg.memPages ≤ pgoff ∨ reg.memPages - pgoff < npages then (reg, false)
  else if op = .none then (reg, true)
  else if fail then (reg, false)
  else ({ reg with
    flushed := reg.flushed ++ [⟨pgoff, npages, op, before, reg.pageState,
      fun p => reg.dirty p || decide (0 < (reg.pageState p).wCount)⟩]
    dirty := fun p => if pgoff ≤ p ∧ p < pgoff + npages then
      decide (0 < (reg.pageState p).wCount) else reg.dirty p }, true)

/-- The ownership table, if there is one, has the entries of the region's granularity. -/
def Sized (reg : Reg) : Prop :=
  ∀ t, reg.ownership = some t → t.length = reg.ownershipSizeToNentries reg.memPages

/-- A range of pages that consists of whole entries of the table. -/
structure Whole (reg : Reg) (pgoff npages : Nat) : Prop where
  off : reg.unit ∣ pgoff
  len : reg.unit ∣ npages
  bound : pgoff + npages ≤ reg.memPages

section Range

variable {reg : Reg} {pgoff npages : Nat}

theorem Whole.index (h : reg.Whole pgoff npages) (p : Nat) :
    (reg.ownershipPgoffToIndex pgoff ≤ reg.ownershipPgoffToIndex p ∧
      reg.ownershipPgoffToIndex p <
        reg.ownershipPgoffToIndex pgoff + reg.ownershipSizeToNentries npages) ↔
      pgoff ≤ p ∧ p < pgoff + npages := by
  obtain ⟨⟨a, rfl⟩, ⟨b, rfl⟩, -⟩ := h
  have hu := reg.unit_pos
  unfold ownershipPgoffToIndex ownershipSizeToNentries
  rw [Nat.mul_div_cancel_left _ hu, Nat.mul_div_cancel_left _ hu, Nat.le_div_iff_mul_le hu,
    Nat.div_lt_iff_lt_mul hu, ← Nat.mul_add, Nat.mul_comm a, Nat.mul_comm (a + b)]

theorem Whole.fits (h : reg.Whole pgoff npages) :
    reg.ownershipPgoffToIndex pgoff + reg.ownershipSizeToNentries npages ≤
      reg.ownershipSizeToNentries reg.memPages := by
  obtain ⟨⟨a, rfl⟩, ⟨b, rfl⟩, hb⟩ := h
  have hu := reg.unit_pos
  unfold ownershipPgoffToIndex ownershipSizeToNentries
  rw [Nat.mul_div_cancel_left _ hu, Nat.mul_div_cancel_left _ hu, Nat.le_div_iff_mul_le hu,
    Nat.mul_comm, Nat.mul_add]
  exact hb

theorem updateVmaPermCount_pageState (hs : reg.Sized) (h : reg.Whole pgoff npages)
    (ho : reg.ownership.isSome) (old new : Access) (p : Nat) :
    (reg.updateVmaPermCount pgoff npages old new).1.pageState p =
      if pgoff ≤ p ∧ p < pgoff + npages then (reg.pageState p).change old new
      else reg.pageState p := by
  obtain ⟨t, ht⟩ := Option.isSome_iff_exists.mp ho
  have hlen := hs t ht
  unfold updateVmaPermCount pageState
  rw [ht]
  refine (updatePages_getD old new _ _ t .none (hlen ▸ h.fits) _).trans ?_
  exact if_congr (h.index p) rfl rfl

theorem updateVmaPermCount_ops {f : CacheOps → Bool}
    (hf : ∀ a b, f (mergeCacheOps a b) = (f a || f b)) (hnone : f .none = false)
    (hs : reg.Sized) (h : reg.Whole pgoff npages) (ho : reg.ownership.isSome) (old new : Access) :
    f (reg.updateVmaPermCount pgoff npages old new).2 ↔
      ∃ p, pgoff ≤ p ∧ p < pgoff + npages ∧
        f (cacheOp (reg.pageState p) ((reg.pageState p).change old new)) := by
  obtain ⟨t, ht⟩ := Option.isSome_iff_exists.mp ho
  have hlen := hs t ht
  unfold updateVmaPermCount pageState
  rw [ht]
  refine (updatePages_ops old new hf _ _ t .none (hlen ▸ h.fits)).trans ?_
  rw [hnone]
  constructor
  · rintro (h0 | ⟨e, he, hlt, hop⟩)
    · cases h0
    · have hmul : reg.ownershipPgoffToIndex (e * reg.unit) = e := Nat.mul_div_cancel _ reg.unit_pos
      refine ⟨e * reg.unit, ?_⟩
      rw [← and_assoc, ← h.index, hmul]
      exact ⟨⟨he, hlt⟩, hop⟩
  · rintro ⟨p, hp, hlt, hop⟩
    have hi := (h.index p).mpr ⟨hp, hlt⟩
    exact .inr ⟨_, hi.1, hi.2, hop⟩

end Range

section Fields

variable (reg : Reg) (pgoff npages : Nat) (old new : Access)

theorem updateVmaPermCount_eq : ∃ o, (reg.updateVmaPermCount pgoff npages old new).1 =
    { reg with ownership := o } ∧ o.map List.length = reg.ownership.map List.length := by
  unfold updateVmaPermCount
  split
  · exact ⟨reg.ownership, rfl, rfl⟩
  · next t ht =>
    exact ⟨_, rfl, by rw [ht]; exact congrArg some (updatePages_length ..)⟩

theorem flushRange_eq (before : Nat → PageState) (op : CacheOps) (fail : Bool) : ∃ d fl,
    (reg.flushRange before pgoff npages op fail).1 = { reg with dirty := d, flushed := fl } := by
  unfold flushRange
  split
  · exact ⟨_, _, rfl⟩
  split
  · exact ⟨_, _, rfl⟩
  split <;> exact ⟨_, _, rfl⟩

end Fields

end Reg

end UbDkms.Obmm
