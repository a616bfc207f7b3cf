import UbDkms.Lib.Agents
import Mathlib.Tactic

/-!
# The OBMM memory pool

`conti_mem_allocator.c`: segments obtained from `pool_alloc_memseg` move between
the lists of the allocator, the lists of the operations in progress and those of
the callers. A section under `allocator->lock` is one step, as is each call of
`pool_alloc_memseg`, `clear_memseg` and `pool_free_memseg` and the update of the
counters at the end of an operation: they are only ever added to, so the order in
which one operation changes them is not visible.

The counters are `atomic64_t` and kept in bytes; the number of segments of a
size is that size over `granu`.
-/

namespace UbDkms.Obmm

open Lib List Option

/-- `struct memseg_node`, by its place in memory, and the segment it describes. -/
structure MemsegNode where
  ptr : Nat
  addr : Nat
  deriving DecidableEq

/-- `struct conti_mem_allocator`. -/
structure Allocator where
  granu : Nat
  pooledMemSize : Int := 0
  usedMemSize : Int := 0
  readyMemSize : Int := 0
  unclearedMemSize : Int := 0
  ready : List MemsegNode := []
  uncleared : List MemsegNode := []
  clearing : Option MemsegNode := none
  poisoned : List MemsegNode := []

/-- What `conti_alloc_memory` is asked for; `count` is its `size` over `granu`. -/
structure AllocReq where
  count : Nat
  clear : Bool
  allowSlow : Bool

inductive Op where
  /-- `conti_mem_allocator_expand`: `node` is obtained and not yet queued. -/
  | expand (total count : Nat) (node : Option MemsegNode)
  | contract (list : List MemsegNode) (contracted fromUncleared fromReady : Nat)
  /-- `conti_mem_allocator_free_poisoned` after its section under the lock. -/
  | freePoisoned (list : List MemsegNode)
  | free (list : List MemsegNode) (freed : Nat)
  | isolate (fromReady : Bool)
  | allocTaken (req : AllocReq) (head temp : List MemsegNode)
  | allocClearing (req : AllocReq) (head temp todo : List MemsegNode)
  /-- `conti_alloc_memory_slow`: `left` is what its `size` has come down to. -/
  | allocSlow (req : AllocReq) (head : List MemsegNode) (left allocated : Nat)
      (node : Option MemsegNode)

/-- The allocator, the lists of the callers (with the `clear` they asked for), the operations
in progress, the segments obtained and not yet given to `pool_free_memseg`, and those that
had a successful `clear_memseg` since they were obtained. -/
structure Pool where
  a : Allocator
  callers : List (Bool × List MemsegNode) := []
  ops : List Op := []
  live : MemsegNode → Bool := fun _ => false
  cleared : MemsegNode → Bool := fun _ => false

inductive PoolAct where
  | expand (size : Nat)
  | contract (size : Nat)
  | freePoisoned
  | free (k : Nat)
  | alloc (size : Nat) (clear allowSlow : Bool)
  | isolate (addr : Nat)
  | poolAlloc (n : Nat) (node : MemsegNode)
  | clear (n : Nat) (ret : Int)
  | advance (n : Nat)
  | clearTake
  | clearDone (ret : Int)

def mark (f : MemsegNode → Bool) (x : MemsegNode) (b : Bool) (y : MemsegNode) : Bool :=
  if y = x then b else f y

section Steps

variable (p : Pool)

/-- The section under the lock of `conti_mem_allocator_contract`. -/
def Pool.contract (size : Nat) : Pool :=
  let count := size / p.a.granu
  let fromUncleared := p.a.uncleared.take count
  let fromReady := p.a.ready.take (count - fromUncleared.length)
  { p with
    a := { p.a with
      uncleared := p.a.uncleared.drop count
      ready := p.a.ready.drop (count - fromUncleared.length) }
    ops := p.ops ++ [.contract (fromUncleared ++ fromReady)
      (count - (count - fromUncleared.length - fromReady.length)) fromUncleared.length
      fromReady.length] }

/-- The section under the lock of `conti_alloc_memory`. -/
def Pool.alloc (size : Nat) (clear allowSlow : Bool) : Pool :=
  let req : AllocReq := ⟨size / p.a.granu, clear, allowSlow⟩
  if clear then
    let head := p.a.ready.take req.count
    let second := if allowSlow then req.count - head.length else 0
    { p with
      a := { p.a with ready := p.a.ready.drop req.count, uncleared := p.a.uncleared.drop second }
      ops := p.ops ++ [.allocTaken req head (p.a.uncleared.take second)] }
  else
    let head := p.a.uncleared.take req.count
    let second := req.count - head.length
    { p with
      a := { p.a with uncleared := p.a.uncleared.drop req.count, ready := p.a.ready.drop second }
      ops := p.ops ++ [.allocTaken req head (p.a.ready.take second)] }

/-- The section under the lock of `conti_mem_allocator_isolate_memseg`; `addr` is aligned. -/
def Pool.isolate (addr : Nat) : Pool :=
  match p.a.ready.find? (·.addr = addr) with
  | some node =>
    { p with
      a := { p.a with ready := p.a.ready.erase node, poisoned := node :: p.a.poisoned }
      ops := p.ops ++ [.isolate true] }
  | none =>
    match p.a.uncleared.find? (·.addr = addr) with
    | some node =>
      { p with
        a := { p.a with uncleared := p.a.uncleared.erase node, poisoned := node :: p.a.poisoned }
        ops := p.ops ++ [.isolate false] }
    | none => p

def Pool.poolAlloc (n : Nat) (node : MemsegNode) : Pool :=
  let got (o : Op) : Pool :=
    { p with ops := p.ops.set n o, live := mark p.live node true, cleared := mark p.cleared node false }
  if p.live node then p
  else
    match p.ops[n]? with
    | some (.expand total (count + 1) none) => got (.expand total (count + 1) (some node))
    | some (.allocSlow req head (left + 1) allocated none) =>
      got (.allocSlow req head (left + 1) allocated (some node))
    | _ => p

/-- The synchronous clearing takes no notice of the result; the slow path gives the segment
back and stops when it is negative. -/
def Pool.clear (n : Nat) (ret : Int) : Pool :=
  let cleared (x : MemsegNode) := if ret = 0 then mark p.cleared x true else p.cleared
  match p.ops[n]? with
  | some (.allocClearing req head temp (x :: todo)) =>
    { p with ops := p.ops.set n (.allocClearing req head temp todo), cleared := cleared x }
  | some (.allocSlow req head left allocated (some x)) =>
    if req.clear = false then p
    else if ret < 0 then
      { p with ops := p.ops.set n (.allocSlow req head 0 allocated none), live := mark p.live x false }
    else
      { p with
        ops := p.ops.set n (.allocSlow req (head ++ [x]) (left - 1) (allocated + 1) none)
        cleared := cleared x }
  | _ => p

/-- `conti_alloc_memory` returns: `head` is the caller's. -/
def Pool.handOut (n : Nat) (req : AllocReq) (head : List MemsegNode) : Pool :=
  { p with ops := p.ops.eraseIdx n, callers := p.callers ++ [(req.clear, head)] }

/-- The next step of an operation. A loop that may stop for want of memory (or, in an expansion,
because `pool_thread_should_pause` is set) does so when it is advanced. -/
def Pool.advance (n : Nat) : Pool :=
  let g : Int := p.a.granu
  match p.ops[n]? with
  | some (.expand total (count + 1) (some node)) =>
    { p with
      a := { p.a with uncleared := p.a.uncleared ++ [node] }
      ops := p.ops.set n (.expand total count none) }
  | some (.expand total count none) =>
    { p with
      a := { p.a with
        pooledMemSize := p.a.pooledMemSize + (total * g - count * g)
        unclearedMemSize := p.a.unclearedMemSize + (total * g - count * g) }
      ops := p.ops.eraseIdx n }
  | some (.contract (x :: list) contracted u r) =>
    { p with ops := p.ops.set n (.contract list contracted u r), live := mark p.live x false }
  | some (.contract [] contracted u r) =>
    { p with
      a := { p.a with
        pooledMemSize := p.a.pooledMemSize - contracted * g
        unclearedMemSize := p.a.unclearedMemSize - u * g
        readyMemSize := p.a.readyMemSize - r * g }
      ops := p.ops.eraseIdx n }
  | some (.freePoisoned (x :: list)) =>
    { p with ops := p.ops.set n (.freePoisoned list), live := mark p.live x false }
  | some (.freePoisoned []) => { p with ops := p.ops.eraseIdx n }
  | some (.free (x :: list) freed) =>
    { p with ops := p.ops.set n (.free list (freed + 1)), live := mark p.live x false }
  | some (.free [] freed) =>
    { p with
      a := { p.a with
        pooledMemSize := p.a.pooledMemSize - freed * g
        usedMemSize := p.a.usedMemSize - freed * g }
      ops := p.ops.eraseIdx n }
  | some (.isolate fromReady) =>
    { p with
      a := { p.a with
        pooledMemSize := p.a.pooledMemSize - g
        readyMemSize := if fromReady then p.a.readyMemSize - g else p.a.readyMemSize
        unclearedMemSize := if fromReady then p.a.unclearedMemSize else p.a.unclearedMemSize - g }
      ops := p.ops.eraseIdx n }
  | some (.allocTaken req head temp) =>
    let (r, u) := if req.clear then (head.length, temp.length) else (temp.length, head.length)
    { p with
      a := { p.a with
        readyMemSize := p.a.readyMemSize - r * g
        unclearedMemSize := p.a.unclearedMemSize - u * g
        usedMemSize := p.a.usedMemSize + (head.length + temp.length) * g }
      ops := p.ops.set n (.allocClearing req head temp (if req.clear then temp else [])) }
  | some (.allocClearing req head temp []) =>
    let allocated := head.length + temp.length
    if req.allowSlow && decide (allocated < req.count) then
      { p with ops := p.ops.set n (.allocSlow req (temp ++ head) (req.count - allocated) 0 none) }
    else p.handOut n req (temp ++ head)
  | some (.allocSlow req head left allocated (some x)) =>
    if req.clear then p
    else { p with ops := p.ops.set n (.allocSlow req (head ++ [x]) (left - 1) (allocated + 1) none) }
  | some (.allocSlow req head _ allocated none) =>
    { p.handOut n req head with
      a := { p.a with
        pooledMemSize := p.a.pooledMemSize + allocated * g
        usedMemSize := p.a.usedMemSize + allocated * g } }
  | _ => p

/-- `conti_clear_thread` between its two sections under the lock. -/
def Pool.clearTake : Pool :=
  match p.a.clearing, p.a.uncleared with
  | none, node :: rest => { p with a := { p.a with uncleared := rest, clearing := some node } }
  | _, _ => p

def Pool.clearDone (ret : Int) : Pool :=
  match p.a.clearing with
  | none => p
  | some node =>
    if ret ≠ 0 then
      { p with a := { p.a with uncleared := node :: p.a.uncleared, clearing := none } }
    else
      { p with
        a := { p.a with
          ready := node :: p.a.ready
          clearing := none
          unclearedMemSize := p.a.unclearedMemSize - p.a.granu
          readyMemSize := p.a.readyMemSize + p.a.granu }
        cleared := mark p.cleared node true }

def Pool.next : PoolAct → Pool
  | .expand size =>
    if size = 0 ∨ size % p.a.granu ≠ 0 then p
    else { p with ops := p.ops ++ [.expand (size / p.a.granu) (size / p.a.granu) none] }
  | .contract size => if size = 0 ∨ size % p.a.granu ≠ 0 then p else p.contract size
  | .freePoisoned =>
    { p with a := { p.a with poisoned := [] }, ops := p.ops ++ [.freePoisoned p.a.poisoned] }
  | .free k =>
    match p.callers[k]? with
    | some c => { p with callers := p.callers.eraseIdx k, ops := p.ops ++ [.free c.2 0] }
    | none => p
  | .alloc size clear allowSlow => if size % p.a.granu ≠ 0 then p else p.alloc size clear allowSlow
  | .isolate addr => p.isolate (addr - addr % p.a.granu)
  | .poolAlloc n node => p.poolAlloc n node
  | .clear n ret => p.clear n ret
  | .advance n => p.advance n
  | .clearTake => p.clearTake
  | .clearDone ret => p.clearDone ret

/-- `conti_mem_allocator_init`. -/
def poolInit (granu : Nat) : Pool := { a := { granu := granu } }

end Steps

/-! ## Conservation -/

def Op.own : Op → List MemsegNode
  | .expand _ _ node => node.toList
  | .contract list _ _ _ => list
  | .freePoisoned list => list
  | .free list _ => list
  | .isolate _ => []
  | .allocTaken _ head temp => head ++ temp
  | .allocClearing _ head temp _ => head ++ temp
  | .allocSlow _ head _ _ node => head ++ node.toList

inductive Counter where
  | pooled | used | ready | uncleared

def Allocator.size (a : Allocator) : Counter → Int
  | .pooled => a.pooledMemSize
  | .used => a.usedMemSize
  | .ready => a.readyMemSize
  | .uncleared => a.unclearedMemSize

def Pool.counted (p : Pool) : Counter → Int
  | .pooled => p.a.ready.length + (p.a.uncleared.length + p.a.clearing.toList.length) +
      total (fun c => (c.2.length : Int)) p.callers
  | .used => total (fun c => (c.2.length : Int)) p.callers
  | .ready => p.a.ready.length
  | .uncleared => p.a.uncleared.length + p.a.clearing.toList.length

/-- What a counter still has too much because of an operation in progress. -/
def Op.drift (c : Counter) : Op → Int
  | .expand total count _ =>
    match c with
    | .pooled => count - total
    | .uncleared => count - total
    | _ => 0
  | .contract _ contracted u r =>
    match c with
    | .pooled => contracted
    | .uncleared => u
    | .ready => r
    | .used => 0
  | .freePoisoned _ => 0
  | .free list freed =>
    match c with
    | .pooled => list.length + freed
    | .used => list.length + freed
    | _ => 0
  | .isolate fromReady =>
    match c with
    | .pooled => 1
    | .ready => if fromReady then 1 else 0
    | .uncleared => if fromReady then 0 else 1
    | .used => 0
  | .allocTaken req head temp =>
    match c with
    | .pooled => head.length + temp.length
    | .used => 0
    | .ready => if req.clear then head.length else temp.length
    | .uncleared => if req.clear then temp.length else head.length
  | .allocClearing _ head temp _ =>
    match c with
    | .pooled => head.length + temp.length
    | .used => head.length + temp.length
    | _ => 0
  | .allocSlow _ head _ allocated _ =>
    match c with
    | .pooled => head.length - allocated
    | .used => head.length - allocated
    | _ => 0

/-- How often a segment is in a list of the allocator or of a caller. -/
def Pool.stored (p : Pool) (s : MemsegNode) : Nat :=
  p.a.ready.count s + p.a.uncleared.count s + p.a.clearing.toList.count s + p.a.poisoned.count s +
    total (fun c => c.2.count s) p.callers

/-- Every live segment is in one place, and the counters differ from the lists only by the
operations in progress. -/
structure Balanced (p : Pool) : Prop where
  place : ∀ s, p.stored s + total (fun o => o.own.count s) p.ops = (p.live s).toNat
  sizes : ∀ c, p.a.size c = p.a.granu * (p.counted c + total (Op.drift c) p.ops)

open Op Pool

section Conservation

variable {p p' : Pool} {olds news : List Op}

section

variable (h : Balanced p) (hops : Swap p.ops p'.ops olds news) (hg : p'.a.granu = p.a.granu)
  (hplace : ∀ s, p'.stored s + total (fun o => o.own.count s) news + (p.live s).toNat = p.stored s + total (fun o => o.own.count s) olds + (p'.live s).toNat)
include h hops hg hplace

theorem Balanced.change
    (hsize : ∀ c, p'.a.size c = p.a.size c + p.a.granu *
      (p'.counted c - p.counted c + total (drift c) news - total (drift c) olds)) :
    Balanced p' := by
  refine ⟨fun s => ?_, fun c => ?_⟩
  · have h1 := h.place s
    have h2 := hops.total fun o => o.own.count s
    have h3 := hplace s
    omega
  · have h2 := hops.total (drift c)
    rw [hsize, h.sizes c, hg]
    linear_combination -(p.a.granu : Int) * h2

theorem Balanced.move
    (hsize : p'.a.size = p.a.size)
    (hcounted : ∀ c, p'.counted c + total (drift c) news = p.counted c + total (drift c) olds) :
    Balanced p' := by
  refine h.change hops hg hplace fun c => ?_
  have := hcounted c
  rw [hsize, show p'.counted c - p.counted c + total (drift c) news - total (drift c) olds = 0
    by omega, mul_zero, add_zero]

end

variable {n : Nat}

theorem live_of_own {o : Op} {s : MemsegNode} (h : Balanced p) (hn : p.ops[n]? = some o)
    (hs : s ∈ o.own) : p.live s := by
  have h1 := h.place s
  have h2 := (Swap.eraseIdx hn).total fun o => o.own.count s
  have h3 : 0 < o.own.count s := count_pos_iff.mpr hs
  simp only [total_cons, total_nil] at h2
  cases hl : p.live s
  · rw [hl, Bool.toNat_false] at h1
    omega
  · rfl

variable {x : MemsegNode}

theorem mark_free (hx : p.live x) (s : MemsegNode) :
    (p.live s).toNat = (mark p.live x false s).toNat + [x].count s := by
  unfold mark
  split
  · next heq =>
    subst heq
    simp [hx]
  · next hne =>
    simp [Ne.symm hne]

theorem mark_new (hx : p.live x = false) (s : MemsegNode) :
    (mark p.live x true s).toNat = (p.live s).toNat + [x].count s := by
  unfold mark
  split
  · next heq =>
    subst heq
    simp [hx]
  · next hne =>
    simp [Ne.symm hne]

section Segment

variable {n : Nat} {x : MemsegNode} {o o' : Op} (h : Balanced p) (hn : p.ops[n]? = some o)
  (hdrift : ∀ c, Op.drift c o' = Op.drift c o)

include h hn hdrift

theorem Balanced.frees (hown : o.own.Perm (x :: o'.own)) :
    Balanced { p with ops := p.ops.set n o', live := mark p.live x false } := by
  have hfree := mark_free (live_of_own h hn (hown.mem_iff.mpr mem_cons_self))
  refine h.move (Swap.set hn _) rfl (fun s => ?_) rfl fun c => ?_
  · have h1 := hfree s
    have h2 := hown.count_eq s
    simp only [count_cons, count_nil] at h1 h2
    simp only [stored, total_cons, total_nil]
    omega
  · simp only [counted, total_cons, hdrift]

theorem Balanced.gets (hown : o'.own.Perm (x :: o.own)) (hx : p.live x = false)
    (cleared : MemsegNode → Bool) :
    Balanced { p with ops := p.ops.set n o', live := mark p.live x true, cleared := cleared } := by
  refine h.move (Swap.set hn _) rfl (fun s => ?_) rfl fun c => ?_
  · have h1 := mark_new hx s
    have h2 := hown.count_eq s
    simp only [count_cons, count_nil] at h1 h2
    simp only [stored, total_cons, total_nil]
    omega
  · simp only [counted, total_cons, hdrift]

end Segment

theorem count_take_drop (l : List MemsegNode) (k : Nat) (s : MemsegNode) :
    l.count s = (l.take k).count s + (l.drop k).count s := by
  rw [← count_append, take_append_drop]

theorem length_take_drop (l : List MemsegNode) (k : Nat) :
    (l.length : Int) = (l.take k).length + (l.drop k).length := by
  rw [← Nat.cast_add, ← length_append, take_append_drop]

theorem Balanced.contract (h : Balanced p) (size : Nat) : Balanced (p.contract size) := by
  refine h.move (Swap.push _) rfl (fun s => ?_) rfl fun c => ?_
  · have h1 := count_take_drop p.a.uncleared (size / p.a.granu) s
    have h2 := count_take_drop p.a.ready
      (size / p.a.granu - (p.a.uncleared.take (size / p.a.granu)).length) s
    simp only [stored, Pool.contract, own, total_cons, total_nil, count_append]
    omega
  · have h1 := length_take_drop p.a.uncleared (size / p.a.granu)
    have h2 := length_take_drop p.a.ready
      (size / p.a.granu - (p.a.uncleared.take (size / p.a.granu)).length)
    have h3 : (p.a.uncleared.take (size / p.a.granu)).length ≤ size / p.a.granu :=
      length_take_le _ _
    have h4 : (p.a.ready.take (size / p.a.granu - (p.a.uncleared.take (size / p.a.granu)).length)).length ≤
      size / p.a.granu - (p.a.uncleared.take (size / p.a.granu)).length := length_take_le _ _
    cases c <;> simp only [counted, Pool.contract, drift, total_cons, total_nil] <;> omega

theorem Balanced.alloc (h : Balanced p) (size : Nat) (clear allowSlow : Bool) :
    Balanced (p.alloc size clear allowSlow) := by
  dsimp only [Pool.alloc]
  split
  · next hc =>
    subst hc
    generalize (if allowSlow then size / p.a.granu - (p.a.ready.take (size / p.a.granu)).length else 0) =
      second
    refine h.move (Swap.push _) rfl (fun s => ?_) rfl fun c => ?_
    · have h1 := count_take_drop p.a.ready (size / p.a.granu) s
      have h2 := count_take_drop p.a.uncleared second s
      simp only [stored, own, total_cons, total_nil, count_append]
      omega
    · have h1 := length_take_drop p.a.ready (size / p.a.granu)
      have h2 := length_take_drop p.a.uncleared second
      cases c <;> simp only [counted, drift, total_cons, total_nil, if_true] <;> omega
  next hc =>
  generalize size / p.a.granu - (p.a.uncleared.take (size / p.a.granu)).length = second
  refine h.move (Swap.push _) rfl (fun s => ?_) rfl fun c => ?_
  · have h1 := count_take_drop p.a.uncleared (size / p.a.granu) s
    have h2 := count_take_drop p.a.ready second s
    simp only [stored, own, total_cons, total_nil, count_append]
    omega
  · have h1 := length_take_drop p.a.uncleared (size / p.a.granu)
    have h2 := length_take_drop p.a.ready second
    cases c <;> simp only [counted, drift, total_cons, total_nil, hc] <;> simp <;> omega

variable {l : List MemsegNode}

theorem count_erase_cons (hx : x ∈ l) (l' : List MemsegNode) (s : MemsegNode) :
    l.count s + l'.count s = (l.erase x).count s + (x :: l').count s := by
  rw [(perm_cons_erase hx).count_eq, count_cons, count_cons, Nat.add_right_comm, Nat.add_assoc]

theorem length_erase_cons (hx : x ∈ l) :
    (l.length : Int) = (l.erase x).length + 1 := by
  rw [(perm_cons_erase hx).length_eq, length_cons, Nat.cast_add, Nat.cast_one]

theorem Balanced.isolate (h : Balanced p) (addr : Nat) : Balanced (p.isolate addr) := by
  unfold Pool.isolate
  split
  · next node hf =>
    have hmem := mem_of_find?_eq_some hf
    refine h.move (Swap.push _) rfl (fun s => ?_) rfl fun c => ?_
    · have h1 := count_erase_cons hmem p.a.poisoned s
      simp only [stored, own, total_cons, total_nil, count_nil]
      omega
    · have h1 := length_erase_cons hmem
      cases c <;> simp only [counted, drift, total_cons, total_nil, if_true] <;> omega
  split
  · next node hf =>
    have hmem := mem_of_find?_eq_some hf
    refine h.move (Swap.push _) rfl (fun s => ?_) rfl fun c => ?_
    · have h1 := count_erase_cons hmem p.a.poisoned s
      simp only [stored, own, total_cons, total_nil, count_nil]
      omega
    · have h1 := length_erase_cons hmem
      cases c <;> simp only [counted, drift, total_cons, total_nil] <;> simp <;> omega
  · exact h

theorem Balanced.poolAlloc (h : Balanced p) (n : Nat) (node : MemsegNode) :
    Balanced (p.poolAlloc n node) := by
  dsimp only [Pool.poolAlloc]
  split
  · exact h
  next hl =>
  have hnew := Bool.eq_false_iff.mpr hl
  split
  · next total count hn =>
    refine h.gets hn ?_ (.refl _) hnew _
    exact fun _ => rfl
  · next req head left allocated hn =>
    refine h.gets hn ?_ (perm_append_comm.trans (by simp [own])) hnew _
    exact fun _ => rfl
  · exact h

theorem Balanced.keepSlow {left left' allocated : Nat} {req : AllocReq} {head : List MemsegNode}
    (h : Balanced p) (hn : p.ops[n]? = some (.allocSlow req head left allocated (some x)))
    (cleared : MemsegNode → Bool) :
    Balanced { p with
      ops := p.ops.set n (.allocSlow req (head ++ [x]) left' (allocated + 1) none), cleared := cleared } := by
  refine h.move (Swap.set hn _) rfl (fun s => ?_) rfl fun c => ?_
  · simp only [stored, own, total_cons, total_nil, toList_some, toList_none,
      append_nil]
  · cases c <;> simp only [counted, drift, total_cons, total_nil, length_append,
      length_singleton] <;> omega

theorem Balanced.clear (h : Balanced p) (n : Nat) (ret : Int) : Balanced (p.clear n ret) := by
  dsimp only [Pool.clear]
  split
  · next hn =>
    exact h.move (Swap.set hn _) rfl (fun _ => rfl) rfl fun _ => rfl
  · next req head left allocated x hn =>
    split
    · exact h
    split
    · exact h.frees hn (fun _ => rfl) (perm_append_comm.trans (by simp [own]))
    · exact h.keepSlow hn _
  · exact h

theorem handOut_stored {r : AllocReq} (s : MemsegNode) :
    (p.handOut n r l).stored s = p.stored s + l.count s := by
  simp only [stored, handOut, total_append, total_cons, total_nil]
  omega

theorem handOut_counted {r : AllocReq} (c : Counter) :
    (p.handOut n r l).counted c = p.counted c +
      match c with
      | .pooled => l.length
      | .used => l.length
      | _ => 0 := by
  cases c <;> simp only [counted, handOut, total_append, total_cons, total_nil] <;> omega

theorem Balanced.advance (h : Balanced p) (n : Nat) : Balanced (p.advance n) := by
  dsimp only [Pool.advance]
  split
  · next total count node hn =>
    refine h.move (Swap.set hn _) rfl (fun s => ?_) rfl fun c => ?_
    · simp only [stored, own, total_cons, total_nil, toList_some, toList_none,
        count_nil, count_append]
      omega
    · cases c <;> simp only [counted, drift, total_cons, total_nil, length_append,
        length_singleton] <;> omega
  · next total count hn =>
    refine h.change (Swap.eraseIdx hn) rfl (fun _ => rfl) fun c => ?_
    cases c <;> simp only [Allocator.size, counted, drift, total_cons, total_nil] <;> ring
  · next x list contracted u r hn => exact h.frees hn (fun _ => rfl) (.refl _)
  · next contracted u r hn =>
    refine h.change (Swap.eraseIdx hn) rfl (fun _ => rfl) fun c => ?_
    cases c <;> simp only [Allocator.size, counted, drift, total_cons, total_nil] <;> ring
  · next x list hn => exact h.frees hn (fun _ => rfl) (.refl _)
  · next hn =>
    exact h.move (Swap.eraseIdx hn) rfl (fun _ => rfl) rfl fun _ => rfl
  · next x list freed hn =>
    refine h.frees hn (fun c => ?_) (.refl _)
    cases c <;> simp only [drift, length_cons] <;> omega
  · next freed hn =>
    refine h.change (Swap.eraseIdx hn) rfl (fun _ => rfl) fun c => ?_
    cases c <;> simp only [Allocator.size, counted, drift, total_cons, total_nil,
      length_nil] <;> push_cast <;> ring
  · next fromReady hn =>
    refine h.change (Swap.eraseIdx hn) rfl (fun _ => rfl) fun c => ?_
    cases fromReady <;> cases c <;> simp [Allocator.size, counted, drift] <;> ring
  · next req head temp hn =>
    refine h.change (Swap.set hn _) rfl (fun _ => rfl) fun c => ?_
    cases hc : req.clear <;> cases c <;>
      simp [Allocator.size, counted, drift, hc] <;> ring
  · next req head temp hn =>
    split
    · refine h.move (Swap.set hn _) rfl (fun s => ?_) rfl fun c => ?_
      · simp only [stored, own, total_cons, total_nil, count_append, toList_none,
          count_nil]
        omega
      · cases c <;> simp only [counted, drift, total_cons, total_nil, length_append] <;> omega
    refine h.move (Swap.eraseIdx hn) rfl (fun s => ?_) rfl fun c => ?_
    · rw [handOut_stored]
      simp only [handOut, own, total_cons, total_nil, count_append]
      omega
    · rw [handOut_counted]
      cases c <;> simp only [drift, total_cons, total_nil, length_append] <;> omega
  · next req head left allocated x hn =>
    split
    · exact h
    · exact h.keepSlow hn p.cleared
  · next req head left allocated hn =>
    refine h.change (Swap.eraseIdx hn) rfl (fun s => ?_) fun c => ?_
    · have := handOut_stored (p := p) (n := n) (r := req) (l := head) s
      change (p.handOut n req head).stored s + _ + _ = _ + _ + (p.live s).toNat
      rw [this]
      simp only [own, total_cons, total_nil, count_append, toList_none, count_nil]
      omega
    · change _ = _ + _ * ((p.handOut n req head).counted c - _ + _ - _)
      rw [handOut_counted]
      cases c <;> simp only [Allocator.size, drift, total_cons, total_nil] <;> ring
  · exact h

theorem Balanced.clearTake (h : Balanced p) : Balanced p.clearTake := by
  unfold Pool.clearTake
  split
  · next node rest hc hu =>
    refine h.move Swap.refl rfl (fun s => ?_) rfl fun c => ?_
    · simp only [stored, hc, hu, total_nil, toList_some, toList_none,
        count_cons, count_nil]
      omega
    · cases c <;> simp only [counted, hc, hu, toList_some, toList_none,
        length_cons, length_nil] <;> omega
  · exact h

theorem Balanced.clearDone (h : Balanced p) (ret : Int) : Balanced (p.clearDone ret) := by
  unfold Pool.clearDone
  split
  · exact h
  next node hc =>
  split
  · refine h.move Swap.refl rfl (fun s => ?_) rfl fun c => ?_
    · simp only [stored, hc, total_nil, toList_some, toList_none,
        count_cons, count_nil]
      omega
    · cases c <;> simp only [counted, hc, toList_some, toList_none,
        length_cons, length_nil] <;> omega
  refine h.change Swap.refl rfl (fun s => ?_) fun c => ?_
  · simp only [stored, hc, total_nil, toList_some, toList_none,
      count_cons, count_nil]
    omega
  · cases c <;> simp only [Allocator.size, counted, hc, toList_some,
      toList_none, length_cons, length_nil, total_nil] <;> push_cast <;> ring

theorem Balanced.next (h : Balanced p) (a : PoolAct) : Balanced (p.next a) := by
  cases a with
  | expand size =>
    dsimp only [Pool.next]
    split
    · exact h
    · refine h.move (Swap.push _) rfl (fun _ => rfl) rfl fun c => ?_
      cases c <;> simp [counted, drift]
  | contract size =>
    dsimp only [Pool.next]
    split
    · exact h
    · exact h.contract size
  | freePoisoned =>
    unfold Pool.next
    refine h.move (Swap.push _) rfl (fun s => ?_) rfl fun _ => rfl
    simp only [stored, own, total_cons, total_nil, count_nil]
    omega
  | free k =>
    dsimp only [Pool.next]
    split
    · next c hk =>
      have hcallers := Swap.eraseIdx hk
      refine h.move (Swap.push _) rfl (fun s => ?_) rfl fun d => ?_
      · have := hcallers.total fun c => c.2.count s
        simp only [total_cons, total_nil] at this
        simp only [stored, own, total_cons, total_nil]
        omega
      · have := hcallers.total fun c => (c.2.length : Int)
        simp only [total_cons, total_nil] at this
        cases d <;> simp only [counted, drift, total_cons, total_nil] <;> omega
    · exact h
  | alloc size clear allowSlow =>
    dsimp only [Pool.next]
    split
    · exact h
    · exact h.alloc size clear allowSlow
  | isolate addr => exact h.isolate _
  | poolAlloc n node => exact h.poolAlloc n node
  | clear n ret => exact h.clear n ret
  | advance n => exact h.advance n
  | clearTake => exact h.clearTake
  | clearDone ret => exact h.clearDone ret

theorem Balanced.init (granu : Nat) : Balanced (poolInit granu) := by
  refine ⟨fun s => rfl, fun c => ?_⟩
  cases c <;> simp [poolInit, Allocator.size, counted]

theorem next_granu (p : Pool) (a : PoolAct) : (p.next a).a.granu = p.a.granu := by
  cases a <;> simp only [Pool.next, Pool.contract, Pool.alloc, Pool.isolate, Pool.poolAlloc,
    Pool.clear, Pool.advance, handOut, Pool.clearTake, Pool.clearDone] <;>
    (repeat' split) <;> rfl

theorem Balanced.run (granu : Nat) (acts : List PoolAct) :
    Balanced (acts.foldl Pool.next (poolInit granu)) ∧
      (acts.foldl Pool.next (poolInit granu)).a.granu = granu := by
  induction acts using List.reverseRecOn with
  | nil => exact ⟨.init granu, rfl⟩
  | append_singleton acts a ih =>
    rw [foldl_append]
    exact ⟨ih.1.next a, (next_granu _ a).trans ih.2⟩

/-- The pool loses no segment and counts what it has: in every run a segment is obtained and
not freed exactly when it is in one of the lists, and then in one place of one of them; when
no operation is in progress the lists are those of the allocator and of the callers, and the
counters are their sizes. -/
theorem pool_conserved (granu : Nat) (acts : List PoolAct) :
    let p := acts.foldl Pool.next (poolInit granu)
    (∀ s, p.stored s + total (fun o => o.own.count s) p.ops = if p.live s then 1 else 0) ∧
    (p.ops = [] →
      (∀ s, p.stored s = if p.live s then 1 else 0) ∧
      p.a.readyMemSize = granu * p.a.ready.length ∧
      p.a.unclearedMemSize = granu * (p.a.uncleared.length + p.a.clearing.toList.length) ∧
      p.a.usedMemSize = granu * total (fun c => (c.2.length : Int)) p.callers ∧
      p.a.pooledMemSize = p.a.readyMemSize + p.a.unclearedMemSize + p.a.usedMemSize) := by
  intro p
  obtain ⟨hb, hg⟩ := Balanced.run granu acts
  have hlive : ∀ s, (p.live s).toNat = if p.live s then 1 else 0 := fun s => by
    cases p.live s <;> rfl
  refine ⟨fun s => (hb.place s).trans (hlive s), fun hnil => ?_⟩
  have hplace := hb.place
  have hsize : ∀ c, p.a.size c = granu * p.counted c := fun c => by
    have := hb.sizes c
    rwa [hnil, total_nil, add_zero, hg] at this
  have hready : p.a.readyMemSize = granu * p.a.ready.length := hsize .ready
  have huncleared : p.a.unclearedMemSize = granu * (p.a.uncleared.length + p.a.clearing.toList.length) :=
    hsize .uncleared
  have hused : p.a.usedMemSize = granu * total (fun c => (c.2.length : Int)) p.callers := hsize .used
  have hpooled : p.a.pooledMemSize = granu * (p.a.ready.length + (p.a.uncleared.length +
      p.a.clearing.toList.length) + total (fun c => (c.2.length : Int)) p.callers) := hsize .pooled
  refine ⟨fun s => ?_, hready, huncleared, hused, ?_⟩
  · have := hplace s
    rw [hnil, total_nil, Nat.add_zero] at this
    exact this.trans (hlive s)
  · rw [hpooled, hready, huncleared, hused, mul_add, mul_add]

end Conservation

end UbDkms.Obmm
