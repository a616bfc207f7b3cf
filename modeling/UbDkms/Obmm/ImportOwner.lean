import UbDkms.Obmm.Import
import Mathlib.Data.List.Pairwise
import Mathlib.Data.List.Nodup
import Mathlib.Data.List.Count

/-!
# What every thread of an import holds

A thread holds nothing, a range of the tree, or a preimport range as a user, with or
without its memory blocks. The tree, the counts and the bits are what the threads hold.
-/

namespace UbDkms.Obmm

open Lib List

inductive Hold where
  | nothing
  | range
  | user (id : Nat)
  | blocks (id : Nat)
  deriving DecidableEq, Repr

namespace ImpRegion

def hold (r : ImpRegion) : Hold :=
  match r.stage with
  | .setupPa => if r.preimport then .nothing else .range
  | .commit id => .user id
  | .putPpr id => .user id
  | .rbPut => .user r.handle
  | .relPut _ => .user r.handle
  | .rbAddr => if r.preimport then .nothing else .range
  | .relAddr _ => if r.preimport then .nothing else .range
  | .relSetupPa _ => .nothing
  | _ => if r.preimport then .blocks r.handle else .range

/-- The stages of a preimport region, and the one never reached. -/
def Ok (r : ImpRegion) : Prop :=
  match r.stage with
  | .commit _ => r.preimport
  | .putPpr _ => r.preimport
  | .rbPut => r.preimport
  | .relPut _ => r.preimport
  | .relSetupPa _ => False
  | _ => True

def occupies (span : Span) (r : ImpRegion) : Nat := if r.hold = .range ∧ r.span = span then 1 else 0

def uses (id : Nat) (r : ImpRegion) : Nat := if r.hold = .user id ∨ r.hold = .blocks id then 1 else 0

def block (blockSize : Nat) (p : Ppr) (id b : Nat) (r : ImpRegion) : Nat :=
  if r.hold = .blocks id ∧ Imports.touches blockSize p r.span b = true then 1 else 0

end ImpRegion

open ImpRegion

namespace Imports

variable {blockSize : Nat} {s : Imports} {i : Nat} {r : ImpRegion}

def bit (p : Ppr) (b : Nat) : Nat := if p.bitmap b then 1 else 0

structure Inv (blockSize : Nat) (s : Imports) : Prop where
  disjoint : s.ranges.Pairwise fun a b => a.span.Disjoint b.span
  direct : ∀ span, s.ranges.count ⟨span, .direct⟩ = total (occupies span) s.regions
  pending : ∀ span, s.ranges.count ⟨span, .preimport none⟩ = s.preCalls.count span
  ready : ∀ span id, s.ranges.count ⟨span, .preimport (some id)⟩ =
    if (s.ppr id).map (·.span) = some span then 1 else 0
  fresh : ∀ id, s.nextPpr ≤ id → s.ppr id = none
  users : ∀ id p, s.ppr id = some p → p.useCount = total (uses id) s.regions
  bits : ∀ id p b, s.ppr id = some p → bit p b = total (block blockSize p id b) s.regions
  held : ∀ r ∈ s.regions, ∀ id, uses id r = 1 → ∃ p, s.ppr id = some p ∧
    (r.hold = .blocks id → p.span.lo ≤ r.span.lo ∧ r.span.hi ≤ p.span.hi)
  ok : ∀ r ∈ s.regions, r.Ok

/-! ## The tree -/

theorem beq_comm_if (a b : PaRange) : (if a == b then 1 else 0) = if b = a then 1 else 0 := by
  by_cases h : a = b
  · simp [h]
  · rw [beq_eq_false_iff_ne.mpr h, if_neg (Ne.symm h)]
    rfl

variable {l : List PaRange} {addr : Nat}

theorem covered_eq (hd : l.Pairwise fun a b => a.span.Disjoint b.span) {a b : PaRange}
    (ha : a ∈ l) (hb : b ∈ l) (hca : a.span.lo ≤ addr ∧ addr ≤ a.span.hi)
    (hcb : b.span.lo ≤ addr ∧ addr ≤ b.span.hi) : a = b := by
  by_contra hne
  have : Std.Symm fun a b : PaRange => a.span.Disjoint b.span := ⟨fun a b h => h.symm⟩
  rcases hd.forall ha hb hne with h | h <;> omega

theorem findRange_eq (hd : l.Pairwise fun a b => a.span.Disjoint b.span) {e : PaRange}
    (he : e ∈ l) (hc : e.span.lo ≤ addr ∧ addr ≤ e.span.hi) : findRange l addr = some e := by
  unfold findRange
  cases hf : l.find? fun r => decide (r.span.lo ≤ addr ∧ addr ≤ r.span.hi) with
  | none => exact absurd (decide_eq_true hc) (List.find?_eq_none.mp hf e he)
  | some e' =>
    have hc' : e'.span.lo ≤ addr ∧ addr ≤ e'.span.hi := by simpa using List.find?_some hf
    rw [covered_eq hd (mem_of_find?_eq_some hf) he hc' hc]

theorem eraseRange_perm {e : PaRange} (hf : findRange l addr = some e) :
    l.Perm (e :: eraseRange l addr) := by
  unfold findRange at hf
  unfold eraseRange
  induction l with
  | nil => cases hf
  | cons a l ih =>
    rw [List.find?_cons] at hf
    rw [eraseP_cons]
    split at hf
    · next ha =>
      cases hf
      rw [ha]
      exact .refl _
    next ha =>
    rw [ha]
    exact ((ih hf).cons a).trans (.swap e a _)

theorem eraseRange_sublist (l : List PaRange) (addr : Nat) : (eraseRange l addr).Sublist l :=
  eraseP_sublist

section

variable (hd : l.Pairwise fun a b => a.span.Disjoint b.span)
include hd

theorem freePaRange_eq {e : PaRange}
    (he : e ∈ l) : (freePaRange l e.span).2 ∧
      (freePaRange l e.span).1.Pairwise (fun a b => a.span.Disjoint b.span) ∧
      ∀ e', (freePaRange l e.span).1.count e' + (if e' = e then 1 else 0) = l.count e' := by
  have hf := findRange_eq hd he ⟨Nat.le_refl _, e.span.le⟩
  unfold freePaRange
  rw [hf]
  refine ⟨beq_self_eq_true _, hd.sublist (eraseRange_sublist _ _), fun e' => ?_⟩
  rw [(eraseRange_perm hf).count_eq, count_cons, beq_comm_if]

theorem occupyPaRange_eq {l' : List PaRange} {e : PaRange} {ok : Bool} (h : occupyPaRange l e ok = some l') :
    l'.Pairwise (fun a b => a.span.Disjoint b.span) ∧
      ∀ e', l'.count e' = l.count e' + if e' = e then 1 else 0 := by
  unfold occupyPaRange at h
  split at h
  · next hc =>
    cases h
    refine ⟨pairwise_cons.mpr ⟨fun a ha => (hc.2 a ha).symm, hd⟩, fun e' => ?_⟩
    rw [count_cons, beq_comm_if]
  · cases h

theorem count_le_one (e : PaRange) :
    l.count e ≤ 1 := by
  refine nodup_iff_count_le_one.mp (hd.imp fun {a b} h hab => ?_) e
  subst hab
  have := a.span.le
  rcases h with h | h <;> omega

end

/-! ## Threads -/

theorem Inv.swap {l olds news : List ImpRegion} (h : Inv blockSize s) (hsw : Swap s.regions l olds news)
    (hr : ∀ span, total (occupies span) olds = total (occupies span) news)
    (hu : ∀ id, total (uses id) olds = total (uses id) news)
    (hb : ∀ p id b, total (block blockSize p id b) olds = total (block blockSize p id b) news)
    (hheld : ∀ r ∈ news, ∀ id, uses id r = 1 → ∃ p, s.ppr id = some p ∧
      (r.hold = .blocks id → p.span.lo ≤ r.span.lo ∧ r.span.hi ≤ p.span.hi))
    (hok : ∀ r ∈ news, r.Ok) : Inv blockSize { s with regions := l } where
  disjoint := h.disjoint
  direct span := by
    have := hsw.total (occupies span)
    rw [hr span] at this
    exact (h.direct span).trans (Nat.add_right_cancel this).symm
  pending := h.pending
  ready := h.ready
  fresh := h.fresh
  users id p hp := by
    have := hsw.total (uses id)
    rw [hu id] at this
    exact (h.users id p hp).trans (Nat.add_right_cancel this).symm
  bits id p b hp := by
    have := hsw.total (block blockSize p id b)
    rw [hb p id b] at this
    exact (h.bits id p b hp).trans (Nat.add_right_cancel this).symm
  held r hr := (hsw.mem hr).elim (h.held r) (hheld r)
  ok r hr := (hsw.mem hr).elim (h.ok r) (hok r)

theorem Inv.goto {stage : ImpStage} (h : Inv blockSize s) (hi : s.regions[i]? = some r)
    (hh : ({ r with stage } : ImpRegion).hold = r.hold) (ho : ({ r with stage } : ImpRegion).Ok) :
    Inv blockSize (s.goto i r stage) := by
  have hm := mem_of_getElem? hi
  refine h.swap (Swap.set hi { r with stage }) (fun span => ?_) (fun id => ?_) (fun p id b => ?_) ?_ ?_
  · simp [total, occupies, hh]
  · simp [total, uses, hh]
  · simp [total, block, hh]
  · intro r' hr'
    rw [mem_singleton.mp hr']
    intro id hu
    unfold uses at hu
    rw [hh] at hu ⊢
    exact h.held r hm id hu
  · intro r' hr'
    rw [mem_singleton.mp hr']
    exact ho

theorem Inv.drop (h : Inv blockSize s) (hi : s.regions[i]? = some r) (hh : r.hold = .nothing) :
    Inv blockSize (s.drop i) :=
  h.swap (Swap.eraseIdx hi) (fun span => by simp [total, occupies, hh]) (fun id => by simp [total, uses, hh])
    (fun p id b => by simp [total, block, hh]) nofun nofun

theorem Inv.move {id : Nat} {p : Ppr} (p' : Ppr) (r' : ImpRegion) (h : Inv blockSize s)
    (hi : s.regions[i]? = some r)
    (hp : s.ppr id = some p) (hspan : p'.span = p.span) (hs : r'.span = r.span)
    (hr : r.hold ≠ .range) (hr' : r'.hold ≠ .range)
    (hu : p'.useCount + uses id r = p.useCount + uses id r')
    (hb : ∀ b, bit p' b + block blockSize p id b r = bit p b + block blockSize p id b r')
    (hne : ∀ k, k ≠ id → r.hold ≠ .user k ∧ r.hold ≠ .blocks k ∧ r'.hold ≠ .user k ∧ r'.hold ≠ .blocks k)
    (hin : r'.hold = .blocks id → p.span.lo ≤ r.span.lo ∧ r.span.hi ≤ p.span.hi) (ho : r'.Ok) :
    Inv blockSize { s.setPpr id (some p') with regions := s.regions.set i r' } := by
  have hsw := Swap.set hi r'
  have hppr : ∀ k, (s.setPpr id (some p')).ppr k = if k = id then some p' else s.ppr k := fun k => by
    show Function.update s.ppr id (some p') k = _
    by_cases hk : k = id
    · rw [hk, Function.update_self, if_pos rfl]
    · rw [Function.update_of_ne hk, if_neg hk]
  have htouch : ∀ k b q, block blockSize p' k b q = block blockSize p k b q := fun k b q => by
    unfold block touches
    rw [hspan]
  refine ⟨h.disjoint, fun span => ?_, h.pending, fun span k => ?_, fun k hk => ?_, fun k q hq => ?_,
    fun k q b hq => ?_, fun q hq k hk => ?_, fun q hq => ?_⟩
  · have := hsw.total (occupies span)
    simp only [total_cons, total_nil, occupies, hr, hr', false_and, if_false, Nat.add_zero] at this
    exact (h.direct span).trans this.symm
  · show s.ranges.count _ = _
    rw [h.ready span k, hppr]
    by_cases hk : k = id
    · rw [if_pos hk, hk, hp]
      simp [hspan]
    · rw [if_neg hk]
  · rw [hppr]
    by_cases hk' : k = id
    · have hno := h.fresh id (hk' ▸ hk)
      rw [hp] at hno
      cases hno
    · rw [if_neg hk']
      exact h.fresh k hk
  · rw [hppr] at hq
    have ht := hsw.total (uses k)
    simp only [total_cons, total_nil, Nat.add_zero] at ht
    show q.useCount = total (uses k) (s.regions.set i r')
    by_cases hk : k = id
    · rw [if_pos hk] at hq
      cases hq
      subst hk
      have := h.users k p hp
      omega
    rw [if_neg hk] at hq
    obtain ⟨h1, h2, h3, h4⟩ := hne k hk
    have hz : uses k r = 0 ∧ uses k r' = 0 := ⟨by simp [uses, h1, h2], by simp [uses, h3, h4]⟩
    have := h.users k q hq
    omega
  · rw [hppr] at hq
    show bit q b = total (block blockSize q k b) (s.regions.set i r')
    by_cases hk : k = id
    · rw [if_pos hk] at hq
      cases hq
      subst hk
      have hfun : block blockSize p' k b = block blockSize p k b := funext (htouch k b)
      rw [hfun]
      have ht := hsw.total (block blockSize p k b)
      simp only [total_cons, total_nil, Nat.add_zero] at ht
      have h1 := h.bits k p b hp
      have h2 := hb b
      omega
    rw [if_neg hk] at hq
    obtain ⟨h1, h2, h3, h4⟩ := hne k hk
    have ht := hsw.total (block blockSize q k b)
    have hz : block blockSize q k b r = 0 ∧ block blockSize q k b r' = 0 :=
      ⟨by simp [block, h2], by simp [block, h4]⟩
    simp only [total_cons, total_nil, Nat.add_zero] at ht
    have := h.bits k q b hq
    omega
  · rw [hppr]
    rcases hsw.mem hq with hq | hq
    · obtain ⟨q', hq', hin'⟩ := h.held q hq k hk
      by_cases hk' : k = id
      · rw [if_pos hk']
        rw [hk', hp] at hq'
        cases hq'
        exact ⟨p', rfl, fun hb => hspan ▸ hin' hb⟩
      · rw [if_neg hk']
        exact ⟨q', hq', hin'⟩
    rw [mem_singleton.mp hq] at hk ⊢
    by_cases hk' : k = id
    · rw [if_pos hk']
      refine ⟨p', rfl, fun hb => ?_⟩
      rw [hspan, hs]
      exact hin (hk' ▸ hb)
    · obtain ⟨h1, h2, h3, h4⟩ := hne k hk'
      simp [uses, h3, h4] at hk
  · rcases hsw.mem hq with hq | hq
    · exact h.ok q hq
    · rw [mem_singleton.mp hq]
      exact ho

end Imports

end UbDkms.Obmm
