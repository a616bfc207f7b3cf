import UbDkms.Ubcore.Retransmit

/-!
# Who frees what

The node, the work and the buffer of a message each have one owner: the list, the
node, or one thread. The threads of a message are counted by what they hold, and
each step moves what it takes from one owner to the next.
-/

namespace UbDkms.Ubcore

open Lib List

inductive RtClass where
  | node
  | work
  | cancelling
  | sync
  | handler
  | active
  | sender
  | unqueued
  | late
  | buf
  | any
  deriving DecidableEq

def RtPc.classes : RtPc → List RtClass
  | .createBuffer | .post | .clearWork => [.sender]
  | .createNode | .allocWork | .destroyNode | .releaseBuffer => [.sender, .buf]
  | .publish | .freeWork => [.sender, .buf, .work]
  | .queue => [.sender, .unqueued, .late]
  | .dropBuffer => [.sender, .late, .node, .work, .buf]
  | .dropWork => [.sender, .late, .node, .work]
  | .dropNode => [.sender, .late, .node]
  | .find _ => [.late]
  | .unlinked true => [.late, .node, .work, .cancelling, .buf]
  | .unlinked false => [.late, .node]
  | .cancel => [.late, .work, .cancelling, .buf]
  | .cancelSync => [.late, .work, .cancelling, .sync, .buf]
  | .freeTaken => [.late, .work, .buf]
  | .releaseTaken => [.late, .buf]
  | .putEnd => []
  | .look | .repostGet | .repost | .repostPut _ | .requeue | .detach => [.late, .handler, .active]
  | .releaseGet | .release => [.late, .handler, .work, .buf]
  | .releasePut | .freeOwn => [.late, .handler, .work]

def RtPc.counts (pc : RtPc) (k : RtClass) : Bool := k = .any || k ∈ pc.classes

/-- The threads at work on message `m` that count as `k`. -/
def tally (m : Nat) (l : List RtThread) (k : RtClass) : Nat :=
  total (fun t => if t.msg = m then (t.pc.counts k).toNat else 0) l

/-- Before the post: whether the node is listed and points to the work. -/
def RtPc.early : RtPc → Option (Bool × Bool)
  | .createBuffer | .createNode | .releaseBuffer => some (false, false)
  | .allocWork | .publish | .freeWork | .destroyNode => some (true, false)
  | .post | .clearWork => some (true, true)
  | _ => none

def RtPc.atHome : RtPc → Bool
  | .find _ | .putEnd => false
  | pc => !pc.handler

def RtPc.holds : RtPc → Bool
  | .repost | .repostPut _ | .release | .releasePut => true
  | pc => !pc.handler

def RtThread.refs (g : Nat) (t : RtThread) : Nat := if t.tjetty = g then t.pc.holds.toNat else 0

def away (cur : Option Nat) (g : Nat) : Nat := if cur = some g then 0 else 1

/-- The objects of message `x`, whose threads count `c`; `alive` says that its `tjetty` is
allocated. A flag counts as 0 or 1, so that each line says who can have an object, or how many
threads there can be. -/
structure Owned (cur : Option Nat) (alive : Bool) (x : RtMsg) (c : RtClass → Nat) : Prop where
  node : x.listed.toNat + c .node = x.node.toNat
  work : x.nodeWork.toNat + c .work = x.work.toNat
  ptr : x.nodeWork.toNat ≤ x.listed.toNat
  busy : x.queued.toNat + c .active ≤ x.nodeWork.toNat + c .cancelling
  sync : c .sync + x.queued.toNat ≤ 1
  idle : c .unqueued + c .handler + x.queued.toNat ≤ 1
  pointed : c .unqueued + x.listed.toNat ≤ 1 + x.nodeWork.toNat
  sole : c .sender ≤ 1
  queuedPosted : x.queued.toNat ≤ x.posted.toNat
  ackedPosted : x.acked.toNat ≤ x.posted.toNat
  late : x.posted.toNat = 1 ∨ c .late = 0
  parked : x.nodeWork.toNat ≤ x.queued.toNat + c .active + c .sender
  buffer : x.buf.toNat ≤ x.nodeWork.toNat + c .buf + away cur x.gen
  bufAlive : x.buf.toNat ≤ alive.toNat
  listAlive : x.listed.toNat ≤ alive.toNat
  workAlive : x.work.toNat ≤ alive.toNat
  stay : x.listed.toNat ≤ x.nodeWork.toNat + c .sender + x.gaveUp.toNat
  acked : x.acked.toNat + x.listed.toNat ≤ 1

structure MsgOk (cur : Option Nat) (fresh : Nat) (alive : Bool) (x : RtMsg) (c : RtClass → Nat) :
    Prop where
  owned : Owned cur alive x c
  unused : x.used = false → x = {} ∧ c .any = 0
  gen : x.used = true → x.gen < fresh

structure ThreadOk (cur : Option Nat) (x : RtMsg) (t : RtThread) : Prop where
  early : ∀ l w, t.pc.early = some (l, w) → x.posted = false ∧ x.listed = l ∧ x.nodeWork = w
  home : t.pc.atHome = true → t.tjetty = x.gen
  away : t.pc = .release → t.tjetty = x.gen ∨ cur ≠ some x.gen

structure Nested (c : RtClass → Nat) : Prop where
  cancelling : c .cancelling ≤ c .work
  sync : c .sync ≤ c .cancelling
  active : c .active ≤ c .handler
  handler : c .handler ≤ c .late
  node : c .node ≤ c .late
  cancellingLate : c .cancelling ≤ c .late
  work : c .work ≤ c .late + c .sender
  unqueued : c .unqueued ≤ c .sender

theorem tally_cons (m : Nat) (t : RtThread) (l : List RtThread) (k : RtClass) :
    tally m (t :: l) k = (if t.msg = m then (t.pc.counts k).toNat else 0) + tally m l k :=
  total_cons _ _ _

theorem RtPc.nested (pc : RtPc) : Nested fun k => (pc.counts k).toNat := by
  cases pc with
  | unlinked b | find b | repostPut b => cases b <;> constructor <;> decide
  | _ => constructor <;> decide

theorem Nested.add {c d : RtClass → Nat} (hc : Nested c) (hd : Nested d) :
    Nested fun k => c k + d k := by
  cases hc
  cases hd
  constructor <;> omega

theorem tally_nested (m : Nat) (l : List RtThread) : Nested (tally m l) := by
  induction l with
  | nil => constructor <;> exact le_rfl
  | cons t l ih =>
    by_cases ht : t.msg = m
    · have heq : tally m (t :: l) = fun k => (t.pc.counts k).toNat + tally m l k := by
        funext k
        rw [tally_cons, if_pos ht]
      rw [heq]
      exact t.pc.nested.add ih
    · have heq : tally m (t :: l) = tally m l := by
        funext k
        rw [tally_cons, if_neg ht, zero_add]
      rwa [heq]

def RtNext.targets : RtNext → List (Option RtPc)
  | .go pc => [some pc]
  | .stop => [none]
  | .get found missing => [some found, some missing]
  | .put pc => [pc]

def optCounts (k : RtClass) : Option RtPc → Nat
  | none => 0
  | some pc => (pc.counts k).toNat

section Local

variable {cur : Option Nat} {fresh : Nat} {x x' : RtMsg} {c c₀ c₁ : RtClass → Nat} {e : RtEnv}
  {pc : RtPc} {live : Bool} {next : RtNext} {o : Option RtPc}

/-- What a thread knows of its surroundings; `c` counts the other threads. -/
structure Seen (cur : Option Nat) (e : RtEnv) (x : RtMsg) (c : RtClass → Nat) (pc : RtPc) : Prop where
  nested : Nested c
  early : ∀ l w, pc.early = some (l, w) → x.posted = false ∧ x.listed = l ∧ x.nodeWork = w
  home : pc.atHome = true → e.home = true ∧ e.own = true
  away : pc = .release → e.home = true ∨ cur ≠ some x.gen
  tj : pc.holds = true → e.tj = true
  handling : e.handling = false → c .handler = 0
  syncing : e.syncing = false → c .sync = 0

theorem toNat_one {b : Bool} (h : b) : b.toNat = 1 := by
  rw [h]
  rfl

theorem toNat_zero {b : Bool} (h : ¬b) : b.toNat = 0 := by
  rw [Bool.not_eq_true] at h
  rw [h]
  rfl

theorem of_toNat_pos {b : Bool} (h : 0 < b.toNat) : b := by
  cases b
  · cases h
  · rfl

def Adds (o : Option RtPc) (c c' : RtClass → Nat) : Prop := ∀ k, c' k = optCounts k o + c k

theorem Adds.all {c' : RtClass → Nat} (h : Adds o c c') :
    let add k := c' k = optCounts k o + c k
    add .node ∧ add .work ∧ add .cancelling ∧ add .sync ∧ add .handler ∧ add .active ∧ add .sender ∧
    add .unqueued ∧ add .late ∧ add .buf ∧ add .any := by
  simp only [h _, and_self]

theorem Owned.unpointed {alive : Bool} (h : Owned cur alive x c) (hb : ¬(x.listed && x.nodeWork)) :
    x.nodeWork.toNat = 0 := by
  refine toNat_zero fun hw => hb ?_
  have h3 := h.ptr
  rw [toNat_one hw] at h3
  cases hl : x.listed
  · rw [hl, Bool.toNat_false] at h3
    omega
  · rw [hw]
    rfl

/-- A thread that stays in its classes is counted as before. -/
theorem Owned.keep {alive : Bool} (h : Owned cur alive x c₀) (h₀ : Adds (some pc) c c₀) (h₁ : Adds o c c₁)
    (ho : o.elim [] RtPc.classes = pc.classes) : Owned cur alive x c₁ := by
  have hk : ∀ k ≠ .any, c₁ k = c₀ k := by
    intro k hk
    rw [h₀, h₁]
    cases o <;> simp [optCounts, RtPc.counts, hk, ← ho]
  cases h
  constructor
  all_goals simpa only [hk, ne_eq, reduceCtorEq, not_false_eq_true]

variable (h : Owned cur e.own x c₀) (h₀ : Adds (some pc) c c₀) (hs : Seen cur e x c pc)
  (hact : pc.act e x = ⟨x', live, next⟩) (ho : o ∈ next.targets) (h₁ : Adds o c c₁)

include h h₀ hs hact ho h₁

attribute [local simp] optCounts RtPc.counts RtPc.classes

theorem Owned.act_early (hpc : pc ∈ [.createBuffer, .createNode, .allocWork, .publish, .post, .clearWork,
    .freeWork, .destroyNode, .releaseBuffer]) : Owned cur e.own x' c₁ := by
  cases h
  cases hs.nested
  have a0 := h₀.all
  have a1 := h₁.all
  fin_cases hpc
  all_goals
    obtain ⟨hp, hl, hw⟩ := hs.early _ _ rfl
    have hown := toNat_one (hs.home rfl).2
    replace hp := congrArg Bool.toNat hp
    replace hl := congrArg Bool.toNat hl
    replace hw := congrArg Bool.toNat hw
    simp only [Bool.toNat_true, Bool.toNat_false] at hp hl hw
    simp only [RtPc.act, (hs.home rfl).1, Bool.not_true, Bool.and_false] at hact
  all_goals try split at hact
  all_goals
    obtain ⟨rfl, rfl, rfl⟩ := hact
    obtain rfl := mem_singleton.mp ho
    simp at a0 a1
    simp only [a0] at *
    constructor
  all_goals try simp only [a1, Bool.toNat_true, Bool.toNat_false, true_or]
  all_goals first | assumption | omega

theorem Owned.act_linked (hpc : pc ∈ [.queue, .detach]) : Owned cur e.own x' c₁ := by
  have hu := h.unpointed
  cases h
  cases hs.nested
  have a0 := h₀.all
  have a1 := h₁.all
  have hx := x.work.toNat_le
  simp only [mem_cons, not_mem_nil, or_false] at hpc
  rcases hpc with rfl | rfl
  all_goals
    simp only [RtPc.act] at hact
    split at hact
  case inl.isFalse hboth | inr.isFalse hboth =>
    have hw := hu hboth
    obtain ⟨rfl, rfl, rfl⟩ := hact
    obtain rfl := mem_singleton.mp ho
    simp at a0 a1
    constructor
    all_goals omega
  all_goals
    rename_i hboth
    rw [Bool.and_eq_true] at hboth
    have hl := toNat_one hboth.1
    have hw := toNat_one hboth.2
    try split at hact
  all_goals
    obtain ⟨rfl, rfl, rfl⟩ := hact
    obtain rfl := mem_singleton.mp ho
    simp at a0 a1
    simp only [a0] at *
    constructor
  all_goals try simp only [a1, Bool.toNat_true, Bool.toNat_false]
  all_goals first | assumption | omega

theorem Owned.act_find (resp : Bool) (hpc : pc = .find resp) : Owned cur e.own x' c₁ := by
  cases h
  cases hs.nested
  have a0 := h₀.all
  have a1 := h₁.all
  subst hpc
  simp only [RtPc.act] at hact
  split at hact
  · next hboth =>
    rw [Bool.and_eq_true] at hboth
    have hl := toNat_one hboth.1
    cases hw : x.nodeWork
    all_goals
      have hn := congrArg Bool.toNat hw
      simp only [Bool.toNat_true, Bool.toNat_false] at hn
      simp only [hw] at hact
      split at hact
    all_goals
      obtain ⟨rfl, rfl, rfl⟩ := hact
      obtain rfl := mem_singleton.mp ho
      simp at a0 a1
      simp only [a0] at *
      have hq := x.posted.toNat_le
      have hx := x.work.toNat_le
      have hy := x.node.toNat_le
      constructor
    all_goals try simp only [a1, Bool.toNat_true, Bool.toNat_false]
    all_goals first | assumption | omega
  · obtain ⟨rfl, rfl, rfl⟩ := hact
    obtain rfl := mem_singleton.mp ho
    simp at a0 a1
    constructor
    all_goals omega

theorem Owned.act_take (hpc : pc ∈ [.dropBuffer, .dropWork, .dropNode, .unlinked true, .unlinked false,
    .cancel, .freeTaken, .releaseTaken]) : Owned cur e.own x' c₁ := by
  cases h
  cases hs.nested
  have a0 := h₀.all
  have a1 := h₁.all
  have hx := x.work.toNat_le
  have hy := x.node.toNat_le
  fin_cases hpc
  all_goals
    simp only [RtPc.act, (hs.home rfl).1, Bool.not_true, Bool.and_false] at hact
    obtain ⟨rfl, rfl, rfl⟩ := hact
    obtain rfl := mem_singleton.mp ho
    simp at a0 a1
    simp only [a0] at *
    constructor
  all_goals try simp only [a1, Bool.toNat_false]
  all_goals first | assumption | omega

theorem Owned.act_wait (hpc : pc = .cancelSync) : Owned cur e.own x' c₁ := by
  subst hpc
  cases hh : e.handling
  all_goals
    simp only [RtPc.act, hh] at hact
    obtain ⟨rfl, rfl, rfl⟩ := hact
    obtain rfl := mem_singleton.mp ho
  · have hzero := hs.handling hh
    cases h
    cases hs.nested
    have a0 := h₀.all
    have a1 := h₁.all
    simp at a0 a1
    constructor
    all_goals omega
  · exact h.keep h₀ h₁ rfl

theorem Owned.act_retry (hpc : pc ∈ [.look, .repost, .putEnd]) : Owned cur e.own x' c₁ := by
  simp only [mem_cons, not_mem_nil, or_false] at hpc
  rcases hpc with rfl | rfl | rfl
  all_goals
    simp only [RtPc.act] at hact
    try split at hact
  case inl.isFalse hl =>
    have hl := toNat_zero hl
    obtain ⟨rfl, rfl, rfl⟩ := hact
    obtain rfl := mem_singleton.mp ho
    cases h
    have a0 := h₀.all
    have a1 := h₁.all
    simp at a0 a1
    constructor
    all_goals omega
  all_goals
    obtain ⟨rfl, rfl, rfl⟩ := hact
    obtain rfl := mem_singleton.mp ho
    exact h.keep h₀ h₁ rfl

theorem Owned.act_requeue (hpc : pc = .requeue) : Owned cur e.own x' c₁ := by
  subst hpc
  simp only [RtPc.act] at hact
  split at hact
  · next hq =>
    rw [Bool.and_eq_true, Bool.not_eq_true'] at hq
    have hzero := hs.syncing hq.2
    obtain ⟨rfl, rfl, rfl⟩ := hact
    obtain rfl := mem_singleton.mp ho
    cases h
    have a0 := h₀.all
    have a1 := h₁.all
    simp at a0 a1
    constructor
    all_goals try simp only [Bool.toNat_true]
    all_goals omega
  obtain ⟨rfl, rfl, rfl⟩ := hact
  obtain rfl := mem_singleton.mp ho
  exact h.keep h₀ h₁ rfl

theorem Owned.act_reference (sent : Bool) (hpc : pc ∈ [.repostGet, .repostPut sent, .releasePut]) :
    Owned cur e.own x' c₁ := by
  fin_cases hpc
  all_goals obtain ⟨rfl, rfl, rfl⟩ := hact
  · simp only [RtNext.targets, mem_cons, not_mem_nil, or_false] at ho
    rcases ho with rfl | rfl
    all_goals exact { h.keep h₀ h₁ rfl with }
  · obtain rfl := mem_singleton.mp ho
    apply h.keep h₀ h₁
    dsimp only [Option.elim]
    split <;> rfl
  · obtain rfl := mem_singleton.mp ho
    exact h.keep h₀ h₁ rfl

theorem Owned.act_giveUp (hpc : pc ∈ [.releaseGet, .release, .freeOwn])
    (hmissing : pc = .releaseGet → o = some .freeOwn → cur = none) : Owned cur e.own x' c₁ := by
  have hkeep := h.keep h₀ h₁
  cases h
  have a0 := h₀.all
  have a1 := h₁.all
  have hbuf := x.buf.toNat_le
  have hx := x.work.toNat_le
  fin_cases hpc
  · obtain ⟨rfl, rfl, rfl⟩ := hact
    simp only [RtNext.targets, mem_cons, not_mem_nil, or_false] at ho
    rcases ho with rfl | rfl
    · exact hkeep rfl
    · have haway : away cur x.gen = 1 := by
        rw [hmissing rfl rfl]
        rfl
      simp at a0 a1
      constructor
      all_goals omega
  · simp only [RtPc.act] at hact
    obtain ⟨rfl, rfl, rfl⟩ := hact
    obtain rfl := mem_singleton.mp ho
    simp at a0 a1
    rcases hs.away rfl with hh | hh
    · simp only [hh, Bool.not_true, Bool.and_false]
      constructor
      all_goals try simp only [Bool.toNat_false]
      all_goals omega
    have haway : away cur x.gen = 1 := if_neg hh
    have hle : (x.buf && !e.home).toNat ≤ x.buf.toNat := by
      cases x.buf <;> cases e.home <;> decide
    constructor
    all_goals try dsimp only
    all_goals omega
  · obtain ⟨rfl, rfl, rfl⟩ := hact
    obtain rfl := mem_singleton.mp ho
    simp at a0 a1
    constructor
    all_goals try simp only [Bool.toNat_false]
    all_goals omega

theorem Owned.act (hmissing : pc = .releaseGet → o = some .freeOwn → cur = none) :
    Owned cur e.own x' c₁ := by
  cases pc with
  | createBuffer | createNode | allocWork | publish | post | clearWork | freeWork | destroyNode
    | releaseBuffer => exact h.act_early h₀ hs hact ho h₁ (by decide)
  | queue | detach => exact h.act_linked h₀ hs hact ho h₁ (by decide)
  | dropBuffer | dropWork | dropNode | cancel | freeTaken | releaseTaken =>
    exact h.act_take h₀ hs hact ho h₁ (by decide)
  | find resp => exact h.act_find h₀ hs hact ho h₁ resp rfl
  | unlinked work => cases work <;> exact h.act_take h₀ hs hact ho h₁ (by decide)
  | cancelSync => exact h.act_wait h₀ hs hact ho h₁ rfl
  | look | repost | putEnd => exact h.act_retry h₀ hs hact ho h₁ (by decide)
  | requeue => exact h.act_requeue h₀ hs hact ho h₁ rfl
  | repostGet | releasePut => exact h.act_reference h₀ hs hact ho h₁ true (by decide)
  | repostPut sent => exact h.act_reference h₀ hs hact ho h₁ sent (by simp)
  | releaseGet | release | freeOwn => exact h.act_giveUp h₀ hs hact ho h₁ (by decide) hmissing

omit ho h₁ in
theorem Owned.act_live : live := by
  have hnode : 0 < x.listed.toNat + c₀ .node → x.node := by
    intro hpos
    rw [h.node] at hpos
    exact of_toNat_pos hpos
  have hwork : 0 < x.nodeWork.toNat + c₀ .work → x.work := by
    intro hpos
    rw [h.work] at hpos
    exact of_toNat_pos hpos
  have hbusy : 0 < c₀ .active → x.work := by
    intro hpos
    refine hwork ?_
    have h1 := h.busy
    have h2 : c₀ .cancelling ≤ c₀ .work := by
      rw [h₀, h₀]
      exact Nat.add_le_add pc.nested.cancelling hs.nested.cancelling
    omega
  have hown : x.work → e.own := by
    intro hw
    have h1 := h.workAlive
    rw [hw] at h1
    exact of_toNat_pos h1
  have hlisted : x.listed → x.node := by
    intro hl
    exact hnode (by rw [toNat_one hl]; exact Nat.lt_add_right _ Nat.one_pos)
  have htj := hs.tj
  have hearly := hs.early
  have a0 := h₀.all
  clear h h₀ hs
  cases pc
  all_goals simp only [RtPc.act] at hact
  all_goals try split at hact
  all_goals try split at hact
  all_goals obtain ⟨rfl, rfl, rfl⟩ := hact
  all_goals
    simp at a0
    simp_all [RtPc.holds, RtPc.early, RtPc.handler]

omit h h₀ hs ho h₁ in
theorem act_kept : x'.gen = x.gen ∧ x'.used = x.used := by
  cases pc
  all_goals simp only [RtPc.act] at hact
  all_goals try split at hact
  all_goals try split at hact
  all_goals
    obtain ⟨rfl, rfl, rfl⟩ := hact
    exact ⟨rfl, rfl⟩

end Local

end UbDkms.Ubcore
