import UbDkms.Errno
import UbDkms.Lib.Reach
import UbDkms.Lib.SearchTree
import Mathlib.Tactic

/-!
# Segments registered with ubdevshm

`ubdevshm_main.c`: a process has one container, a tree of areas ordered by their start;
an area has a context for each provider its segment is registered with. The calls are
those of one process, one after another; a context of the process is named by its
provider.
-/

namespace UbDkms.Ubdevshm

open Lib

/-- `struct va_area`: a range whose end does not overflow. -/
structure VaArea where
  va : Nat
  size : Nat
  fits : va + size < 2 ^ 64
  deriving DecidableEq, Repr

/-- `struct shm_area`; `ctx_list` names the providers of the contexts. -/
structure ShmArea extends VaArea where
  ctxList : List Nat
  /-- `ubdevshm_register_segment` refuses an empty segment. -/
  pos : 0 < size
  deriving DecidableEq, Repr

inductive FindMode where
  | equal
  | overlap
  | contain
  deriving DecidableEq, Repr

/-- `shm_area_less`. -/
def shmAreaLess (a b : ShmArea) : Bool := a.va < b.va

def VaArea.last (a : VaArea) : Nat := (a.va + a.size + (2 ^ 64 - 1)) % 2 ^ 64

/-- `shm_area_find_overlap`. -/
def shmAreaFindOverlap (a : VaArea) (b : ShmArea) : Ordering :=
  let endArea := min a.last b.last
  let startArea := max a.va b.va
  if endArea ≥ startArea then .eq
  else if a.va < b.va then .lt else .gt

/-- `shm_area_cmp`. -/
def shmAreaCmp (a : VaArea) (b : ShmArea) : Ordering :=
  if a.va ≠ b.va then if a.va < b.va then .lt else .gt
  else if a.size ≠ b.size then if a.size < b.size then .lt else .gt
  else .eq

/-- `shm_area_find_containing`. -/
def shmAreaFindContaining (a : VaArea) (b : ShmArea) : Ordering :=
  if a.va ≥ b.va ∧ a.va + a.size ≤ b.va + b.size then .eq
  else if a.va < b.va then .lt else .gt

def FindMode.cmp : FindMode → VaArea → ShmArea → Ordering
  | .equal => shmAreaCmp
  | .overlap => shmAreaFindOverlap
  | .contain => shmAreaFindContaining

/-- `shm_area_find`. -/
def shmAreaFind (t : SearchTree ShmArea) (a : VaArea) (mode : FindMode) : Option ShmArea :=
  t.find (mode.cmp a)

/-- What the calls of a registration return: the role of the tag is that of the process,
the handle has a provider, and which allocations fail; and how the tree is balanced. -/
structure ShmEnv where
  roleOk : Bool := true
  providerOk : Bool := true
  cntrFails : Bool := false
  ctxFails : Bool := false
  areaFails : Bool := false
  bal : SearchTree.Rebalance ShmArea

/-- `shm_area_insert`, with the context that is linked to the new area. -/
def shmAreaInsert (t : SearchTree ShmArea) (a : VaArea) (pos : 0 < a.size) (provider : Nat)
    (env : ShmEnv) : Ret × SearchTree ShmArea :=
  match shmAreaFind t a .equal with
  | some _ => (some .eexist, t)
  | none =>
    if env.areaFails then (some .enomem, t)
    else (none, env.bal.run (t.insert shmAreaLess ⟨a, [provider], pos⟩))

/-- `list_add_tail` of a context. -/
def ShmArea.link (provider : Nat) (a : ShmArea) : ShmArea :=
  { a with ctxList := a.ctxList ++ [provider] }

/-- `create_and_link_access_ctx`. -/
def createAndLinkAccessCtx (t : SearchTree ShmArea) (a : VaArea) (pos : 0 < a.size) (provider : Nat)
    (env : ShmEnv) : Ret × SearchTree ShmArea :=
  if env.ctxFails then (some .enomem, t)
  else
    match shmAreaFind t a .equal with
    | none => shmAreaInsert t a pos provider env
    | some _ => (none, t.modify (shmAreaCmp a) (ShmArea.link provider))

/-- `find_get_access_ctx` with `role_provider_equal`: an area is found and has a context
of the provider. -/
def findAccessCtx (t : SearchTree ShmArea) (a : VaArea) (mode : FindMode) (provider : Nat) : Bool :=
  match shmAreaFind t a mode with
  | none => false
  | some sa => provider ∈ sa.ctxList

/-- `ubdevshm_register_segment`: the container of the process, if it has one. -/
def registerSegment (cntr : Option (SearchTree ShmArea)) (provider : Nat) (a : VaArea) (env : ShmEnv) :
    Ret × Option (SearchTree ShmArea) :=
  if h : a.size = 0 then (some .einval, cntr)
  else if !env.roleOk then (some .einval, cntr)
  else if !env.providerOk then (some .einval, cntr)
  else
    match cntr with
    | none =>
      -- the container is made for this call and destroyed again if it fails
      if env.cntrFails then (some .enomem, none)
      else
        match createAndLinkAccessCtx .nil a (Nat.pos_of_ne_zero h) provider env with
        | (none, t) => (none, some t)
        | (some e, _) => (some e, none)
    | some t =>
      if findAccessCtx t a .overlap provider then (some .eexist, some t)
      else
        let r := createAndLinkAccessCtx t a (Nat.pos_of_ne_zero h) provider env
        (r.1, some r.2)

/-- `list_del` of a context. -/
def ShmArea.unlink (provider : Nat) (a : ShmArea) : ShmArea :=
  { a with ctxList := a.ctxList.erase provider }

/-- `destroy_access_ctx` and `shm_area_cleanup`. -/
def destroyAccessCtx (t : SearchTree ShmArea) (a : VaArea) (provider : Nat) (env : ShmEnv) :
    SearchTree ShmArea :=
  match shmAreaFind t a .equal with
  | none => t
  | some sa =>
    if sa.ctxList.erase provider = [] then env.bal.run (t.erase (shmAreaCmp a))
    else t.modify (shmAreaCmp a) (ShmArea.unlink provider)

/-- `shm_container_cleanup`. -/
def shmContainerCleanup : SearchTree ShmArea → Option (SearchTree ShmArea)
  | .nil => none
  | t => some t

/-- `ubdevshm_unregister_segment`. -/
def unregisterSegment (cntr : Option (SearchTree ShmArea)) (provider : Nat) (a : VaArea)
    (env : ShmEnv) : Ret × Option (SearchTree ShmArea) :=
  if !env.providerOk then (some .einval, cntr)
  else
    match cntr with
    | none => (some .einval, none)
    | some t =>
      if findAccessCtx t a .equal provider then
        (none, shmContainerCleanup (destroyAccessCtx t a provider env))
      else (some .enoent, shmContainerCleanup t)

/-- The process: its container, and the segments whose registration succeeded and which
were not unregistered since. -/
structure Registry where
  cntr : Option (SearchTree ShmArea) := none
  held : List (Nat × VaArea) := []

inductive ShmCall where
  | register (provider : Nat) (a : VaArea) (env : ShmEnv)
  | unregister (provider : Nat) (a : VaArea) (env : ShmEnv)

def Registry.call (s : Registry) : ShmCall → Registry
  | .register provider a env =>
    let r := registerSegment s.cntr provider a env
    { cntr := r.2, held := if r.1 = none then s.held ++ [(provider, a)] else s.held }
  | .unregister provider a env =>
    let r := unregisterSegment s.cntr provider a env
    { cntr := r.2, held := if r.1 = none then s.held.erase (provider, a) else s.held }

end UbDkms.Ubdevshm
