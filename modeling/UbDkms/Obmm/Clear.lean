import UbDkms.Lib.Reach
import UbDkms.Obmm.Pool

/-!
# Cleared memory

Which segments had a successful `clear_memseg` since they were obtained. A ready
segment has; a list handed out by `conti_alloc_memory` with `clear` has too unless
a result of `clear_memseg` was passed over: the synchronous clearing drops every
error, the slow path takes a positive value for a success.
-/

namespace UbDkms.Obmm

open Lib List

/-- No failure is passed over while the operation at place `n` clears. -/
def ClearSeen (p : Pool) : PoolAct → Prop
  | .clear n ret =>
    match p.ops[n]? with
    | some (.allocClearing req _ _ _) => req.clear = true → ret = 0
    | some (.allocSlow _ _ _ _ _) => ret ≤ 0
    | _ => True
  | _ => True

/-- The lists of an allocation that asked for cleared memory are cleared, `todo` aside. -/
def Op.Cleared (c : MemsegNode → Bool) : Op → Prop
  | .allocTaken req head _ => req.clear = true → ∀ s ∈ head, c s = true
  | .allocClearing req head temp todo => req.clear = true →
      (∀ s ∈ head, c s = true) ∧ ∀ s ∈ temp, s ∈ todo ∨ c s = true
  | .allocSlow req head _ _ _ => req.clear = true → ∀ s ∈ head, c s = true
  | _ => True

structure Clean (p : Pool) : Prop where
  ready : ∀ s ∈ p.a.ready, p.cleared s = true
  ops : ∀ o ∈ p.ops, o.Cleared p.cleared
  callers : ∀ l, (true, l) ∈ p.callers → ∀ s ∈ l, p.cleared s = true

section Clearing

variable {p p' : Pool} {olds news : List Op} {n : Nat} {c : MemsegNode → Bool}

theorem Op.Cleared.mono {c c' : MemsegNode → Bool} {o : Op} (h : o.Cleared c)
    (hc : ∀ s ∈ o.own, c s → c' s) : o.Cleared c' := by
  cases o with
  | allocTaken req head temp | allocSlow req head left allocated node =>
    exact fun hr s hs => hc s (mem_append_left _ hs) (h hr s hs)
  | allocClearing req head temp todo =>
    refine fun hr => ⟨fun s hs => hc s (mem_append_left _ hs) ((h hr).1 s hs), fun s hs => ?_⟩
    exact ((h hr).2 s hs).imp_right (hc s (mem_append_right _ hs))
  | _ => trivial

theorem cleared_one {o : Op} (h : o.Cleared c) : ∀ x ∈ [o], x.Cleared c := by
  rintro x hx
  rwa [mem_singleton.mp hx]

theorem Clean.change (h : Clean p) (hops : Swap p.ops p'.ops olds news)
    (hkeep : ∀ s, (s ∈ p.a.ready ∨ (∃ l, (true, l) ∈ p.callers ∧ s ∈ l) ∨ ∃ o ∈ p.ops, s ∈ o.own) →
      p.cleared s → p'.cleared s)
    (hready : ∀ s ∈ p'.a.ready, s ∈ p.a.ready ∨ p'.cleared s)
    (hcallers : ∀ l, (true, l) ∈ p'.callers → (true, l) ∈ p.callers ∨ ∀ s ∈ l, p'.cleared s)
    (hnews : ∀ o ∈ news, o.Cleared p'.cleared) : Clean p' := by
  refine ⟨fun s hs => ?_, fun o ho => ?_, fun l hl s hs => ?_⟩
  · rcases hready s hs with hr | hr
    · exact hkeep s (.inl hr) (h.ready s hr)
    · exact hr
  · rcases hops.mem ho with ho | ho
    · exact (h.ops o ho).mono fun s hs => hkeep s (.inr (.inr ⟨o, ho, hs⟩))
    · exact hnews o ho
  · rcases hcallers l hl with hc | hc
    · exact hkeep s (.inr (.inl ⟨l, hc, hs⟩)) (h.callers l hc s hs)
    · exact hc s hs

theorem Clean.move (h : Clean p) (hops : Swap p.ops p'.ops olds news) (hc : p'.cleared = p.cleared)
    (hready : ∀ s ∈ p'.a.ready, s ∈ p.a.ready) (hcallers : p'.callers = p.callers)
    (hnews : ∀ o ∈ news, o.Cleared p.cleared) : Clean p' :=
  h.change hops (fun s _ hs => by rwa [hc]) (fun s hs => .inl (hready s hs))
    (fun l hl => .inl (by rwa [← hcallers])) (by rwa [hc])

theorem mark_true {x s : MemsegNode} (h : c s) :
    mark c x true s := by
  unfold mark
  split
  · rfl
  · exact h

theorem Clean.alloc (h : Clean p) (size : Nat) (clear allowSlow : Bool) :
    Clean (p.alloc size clear allowSlow) := by
  dsimp only [Pool.alloc]
  split
  · refine h.move (Swap.push _) rfl (fun s hs => mem_of_mem_drop hs) rfl (cleared_one fun _ s hs => ?_)
    exact h.ready s (mem_of_mem_take hs)
  next hc =>
  exact h.move (Swap.push _) rfl (fun s hs => mem_of_mem_drop hs) rfl (cleared_one fun hr => absurd hr hc)

theorem Clean.isolate (h : Clean p) (addr : Nat) : Clean (p.isolate addr) := by
  unfold Pool.isolate
  split
  · exact h.move (Swap.push _) rfl (fun s hs => mem_of_mem_erase hs) rfl (cleared_one trivial)
  split
  · exact h.move (Swap.push _) rfl (fun s hs => hs) rfl (cleared_one trivial)
  · exact h

theorem live_of_listed {s : MemsegNode} (h : Balanced p)
    (hs : s ∈ p.a.ready ∨ (∃ l, (true, l) ∈ p.callers ∧ s ∈ l) ∨ ∃ o ∈ p.ops, s ∈ o.own) :
    p.live s := by
  have hplace := h.place s
  have hlive : 0 < p.stored s → p.live s := fun hpos => by
    cases hl : p.live s
    · rw [hl, Bool.toNat_false] at hplace
      omega
    · rfl
  rcases hs with hs | ⟨l, hl, hs⟩ | ⟨o, ho, hs⟩
  · refine hlive ?_
    have := count_pos_iff.mpr hs
    unfold Pool.stored
    omega
  · obtain ⟨k, hk, hget⟩ := mem_iff_getElem.mp hl
    have hrest := (Swap.eraseIdx (List.getElem?_eq_some_iff.mpr ⟨hk, hget⟩)).total fun c => c.2.count s
    simp only [total_cons, total_nil] at hrest
    have := count_pos_iff.mpr hs
    refine hlive ?_
    unfold Pool.stored
    omega
  · obtain ⟨n, hn, hget⟩ := mem_iff_getElem.mp ho
    exact live_of_own h (List.getElem?_eq_some_iff.mpr ⟨hn, hget⟩) hs

section

variable (h : Clean p)
include h

theorem Clean.poolAlloc (hb : Balanced p) (n : Nat) (node : MemsegNode) :
    Clean (p.poolAlloc n node) := by
  dsimp only [Pool.poolAlloc]
  split
  · exact h
  next hl =>
  have hkeep : ∀ s, (s ∈ p.a.ready ∨ (∃ l, (true, l) ∈ p.callers ∧ s ∈ l) ∨ ∃ o ∈ p.ops, s ∈ o.own) →
      p.cleared s = true → mark p.cleared node false s = true := fun s hs hc => by
    have hne : s ≠ node := fun heq => hl (heq ▸ live_of_listed hb hs)
    exact (if_neg hne).trans hc
  split
  · next hn =>
    exact h.change (Swap.set hn _) hkeep (fun s hs => .inl hs) (fun l hl => .inl hl) (cleared_one trivial)
  · next req head left allocated hn =>
    have hmem := mem_of_getElem? hn
    refine h.change (Swap.set hn _) hkeep (fun s hs => .inl hs) (fun l hl => .inl hl)
      (cleared_one fun hr s hs => ?_)
    exact hkeep s (.inr (.inr ⟨_, hmem, mem_append_left _ hs⟩)) (h.ops _ hmem hr s hs)
  · exact h

theorem Clean.clear {ret : Int} (hs : ClearSeen p (.clear n ret)) :
    Clean (p.clear n ret) := by
  have hkeep : ∀ x s, p.cleared s = true →
      (if ret = 0 then mark p.cleared x true else p.cleared) s = true := fun x s hc => by
    split
    · exact mark_true hc
    · exact hc
  unfold Pool.clear
  unfold ClearSeen at hs
  dsimp only at hs ⊢
  split
  · next req head temp x todo hn =>
    rw [hn] at hs
    refine h.change (Swap.set hn _) (fun s _ => hkeep x s) (fun s hs => .inl hs) (fun l hl => .inl hl)
      (cleared_one fun hr => ?_)
    obtain ⟨hhead, htemp⟩ := h.ops _ (mem_of_getElem? hn) hr
    refine ⟨fun s hs => hkeep x s (hhead s hs), fun s hst => ?_⟩
    rcases htemp s hst with hin | hc
    · rcases mem_cons.mp hin with rfl | hin
      · right
        rw [if_pos (hs hr)]
        exact if_pos rfl
      · exact .inl hin
    · exact .inr (hkeep x s hc)
  · next req head left allocated x hn =>
    rw [hn] at hs
    have hold := h.ops _ (mem_of_getElem? hn)
    split
    · exact h
    split
    · exact h.move (Swap.set hn _) rfl (fun s hs => hs) rfl (cleared_one hold)
    next hneg =>
    have hzero : ret = 0 := le_antisymm hs (not_lt.mp hneg)
    refine h.change (Swap.set hn _) (fun s _ => hkeep x s) (fun s hs => .inl hs) (fun l hl => .inl hl)
      (cleared_one fun hr s hs => ?_)
    rcases mem_append.mp hs with hs | hs
    · exact hkeep x s (hold hr s hs)
    obtain rfl := mem_singleton.mp hs
    rw [if_pos hzero]
    exact if_pos rfl
  · exact h

theorem Clean.handOut {o : Op} {req : AllocReq} {head : List MemsegNode} {a : Allocator}
    (hn : p.ops[n]? = some o) (ha : a.ready = p.a.ready)
    (hhead : req.clear → ∀ s ∈ head, p.cleared s) :
    Clean { p.handOut n req head with a := a } := by
  refine h.change (Swap.eraseIdx hn) (fun _ _ hc => hc) (fun s hs => .inl (ha ▸ hs)) (fun l hl => ?_)
    nofun
  rcases mem_append.mp hl with hl | hl
  · exact .inl hl
  have heq := mem_singleton.mp hl
  injection heq with hclear hlist
  subst hlist
  exact .inr (hhead hclear.symm)

theorem Clean.advance (n : Nat) : Clean (p.advance n) := by
  dsimp only [Pool.advance]
  split
  · next hn => exact h.move (Swap.set hn _) rfl (fun _ hs => hs) rfl (cleared_one trivial)
  · next hn => exact h.move (Swap.eraseIdx hn) rfl (fun _ hs => hs) rfl nofun
  · next hn => exact h.move (Swap.set hn _) rfl (fun _ hs => hs) rfl (cleared_one trivial)
  · next hn => exact h.move (Swap.eraseIdx hn) rfl (fun _ hs => hs) rfl nofun
  · next hn => exact h.move (Swap.set hn _) rfl (fun _ hs => hs) rfl (cleared_one trivial)
  · next hn => exact h.move (Swap.eraseIdx hn) rfl (fun _ hs => hs) rfl nofun
  · next hn => exact h.move (Swap.set hn _) rfl (fun _ hs => hs) rfl (cleared_one trivial)
  · next hn => exact h.move (Swap.eraseIdx hn) rfl (fun _ hs => hs) rfl nofun
  · next hn => exact h.move (Swap.eraseIdx hn) rfl (fun _ hs => hs) rfl nofun
  · next req head temp hn =>
    have hold := h.ops _ (mem_of_getElem? hn)
    refine h.move (Swap.set hn _) rfl (fun _ hs => hs) rfl (cleared_one fun hr => ⟨hold hr, fun s hs => .inl ?_⟩)
    rwa [if_pos hr]
  · next req head temp hn =>
    have hold := h.ops _ (mem_of_getElem? hn)
    have hall : req.clear → ∀ s ∈ temp ++ head, p.cleared s := fun hr s hs => by
      rcases mem_append.mp hs with hs | hs
      · exact ((hold hr).2 s hs).resolve_left not_mem_nil
      · exact (hold hr).1 s hs
    split
    · exact h.move (Swap.set hn _) rfl (fun _ hs => hs) rfl (cleared_one hall)
    · exact h.handOut hn rfl hall
  · next req head left allocated x hn =>
    split
    · exact h
    · next hc =>
      exact h.move (Swap.set hn _) rfl (fun _ hs => hs) rfl (cleared_one fun hr => absurd hr hc)
  · next req head left allocated hn => exact h.handOut hn rfl (h.ops _ (mem_of_getElem? hn))
  · exact h

theorem Clean.clearTake : Clean p.clearTake := by
  unfold Pool.clearTake
  split
  · exact ⟨h.ready, h.ops, h.callers⟩
  · exact h

theorem Clean.clearDone (ret : Int) : Clean (p.clearDone ret) := by
  unfold Pool.clearDone
  split
  · exact h
  next node hc =>
  split
  · exact ⟨h.ready, h.ops, h.callers⟩
  refine h.change Swap.refl (fun s _ => mark_true) (fun s hs => ?_) (fun l hl => .inl hl)
    nofun
  rcases mem_cons.mp hs with rfl | hs
  · exact .inr (if_pos rfl)
  · exact .inl hs

theorem Clean.next {a : PoolAct} (hb : Balanced p) (ha : ClearSeen p a) :
    Clean (p.next a) := by
  cases a with
  | expand size =>
    dsimp only [Pool.next]
    split
    · exact h
    · exact h.move (Swap.push _) rfl (fun _ hs => hs) rfl (cleared_one trivial)
  | contract size =>
    dsimp only [Pool.next]
    split
    · exact h
    · exact h.move (Swap.push _) rfl (fun s hs => mem_of_mem_drop hs) rfl (cleared_one trivial)
  | freePoisoned => exact h.move (Swap.push _) rfl (fun _ hs => hs) rfl (cleared_one trivial)
  | free k =>
    dsimp only [Pool.next]
    split
    · exact h.change (Swap.push _) (fun _ _ hc => hc) (fun _ hs => .inl hs)
        (fun l hl => .inl (mem_of_mem_eraseIdx hl)) (cleared_one trivial)
    · exact h
  | alloc size clear allowSlow =>
    dsimp only [Pool.next]
    split
    · exact h
    · exact h.alloc size clear allowSlow
  | isolate addr => exact h.isolate _
  | poolAlloc n node => exact h.poolAlloc hb n node
  | clear n ret => exact h.clear ha
  | advance n => exact h.advance n
  | clearTake => exact h.clearTake
  | clearDone ret => exact h.clearDone ret

end

/-- In a run that passes over no failure of the clearing it asked for, every list handed out
as cleared is. -/
theorem handed_out_cleared {g : Nat} (hs : Reach ClearSeen Pool.next (poolInit g) p) :
    ∀ l, (true, l) ∈ p.callers → ∀ s ∈ l, p.cleared s = true :=
  (hs.invariant (I := fun p => Balanced p ∧ Clean p)
    ⟨.init g, nofun, nofun,
      nofun⟩
    fun _ a h ha => ⟨h.1.next a, h.2.next h.1 ha⟩).2.callers

/-- One segment, obtained by an expansion, is cleared while it is handed out. -/
def slowClear (ret : Int) : List PoolAct :=
  [.expand 4096, .poolAlloc 0 ⟨0, 0⟩, .advance 0, .advance 0, .alloc 4096 true true, .advance 0, .clear 0 ret,
    .advance 0]

theorem handed_out_cleared_slowClear :
    ((slowClear 0).foldl Pool.next (poolInit 4096)).callers = [(true, [⟨0, 0⟩])] ∧
      ∀ l, (true, l) ∈ ((slowClear 0).foldl Pool.next (poolInit 4096)).callers →
        ∀ s ∈ l, ((slowClear 0).foldl Pool.next (poolInit 4096)).cleared s = true := by
  refine ⟨by decide, handed_out_cleared (Reach.init.along ?_)⟩
  exact ⟨trivial, trivial, trivial, trivial, trivial, trivial, fun _ => rfl, trivial, trivial⟩

theorem slowClear_failed :
    Reach (fun _ _ => True) Pool.next (poolInit 4096) ((slowClear (-1)).foldl Pool.next (poolInit 4096)) ∧
      ((slowClear (-1)).foldl Pool.next (poolInit 4096)).callers = [(true, [⟨0, 0⟩])] ∧
      ((slowClear (-1)).foldl Pool.next (poolInit 4096)).cleared ⟨0, 0⟩ = false :=
  ⟨.foldl _, by decide, by decide⟩

end Clearing

end UbDkms.Obmm
