import UbDkms.Ubus.Route
import UbDkms.Lib.Count
import Mathlib.Data.List.TakeWhile

/-!
# The books of the software routes

The list of an entity is ascending, counts for each address the ports that lead to
it, has a node for every bit of its ports, and asks for an update of each node that
counts none. Every operation keeps this as long as the nodes of the list can be
allocated and no bit is beyond the 128 that `ub_route_clear` clears.
-/

namespace UbDkms.Ubus

open Lib List

/-- The books of an entity with `n` ports. -/
structure Booked (n : Nat) (u : RouteEnt) : Prop where
  sorted : u.cnaList.Pairwise fun x y => x.cna < y.cna
  count : ∀ x ∈ u.cnaList, x.count = Nat.count (u.cnaMaps · x.cna) n
  cover : ∀ p, p < n → ∀ c, u.cnaMaps p c = true → ∃ x ∈ u.cnaList, x.cna = c
  zero : ∀ x ∈ u.cnaList, x.count = 0 → x.needUpdate = true

/-! ## Lists of nodes -/

theorem CnaNode.less_cna (x : CnaNode) : x.less.cna = x.cna := by
  rw [CnaNode.less]

section Lists

variable {c : Nat} {l : List CnaNode} {f : CnaNode → CnaNode}

theorem map_eq_self_of_ne (h : ∀ x ∈ l, x.cna ≠ c) :
    l.map (fun x => if x.cna = c then f x else x) = l := by
  refine (map_congr_left fun x hx => ?_).trans (map_id l)
  rw [if_neg (h x hx)]
  rfl

theorem changeCnaNode_eq (h : l.Pairwise fun x y => x.cna < y.cna) :
    changeCnaNode c f l = l.map fun x => if x.cna = c then f x else x := by
  induction l with
  | nil => rfl
  | cons x l ih =>
    obtain ⟨hx, hl⟩ := pairwise_cons.mp h
    unfold changeCnaNode
    rw [map_cons]
    split
    · next hlt => rw [if_neg (by omega), ih hl]
    split
    · next hgt =>
      rw [if_neg (by omega), map_eq_self_of_ne fun y hy => by have := hx y hy; omega]
    · rw [if_pos (by omega), map_eq_self_of_ne fun y hy => by have := hx y hy; omega]

theorem ubFindCnaNode_none (h : l.Pairwise fun x y => x.cna < y.cna) (hf : ubFindCnaNode c l = none) :
    ∀ x ∈ l, x.cna ≠ c := by
  induction l with
  | nil => exact nofun
  | cons x l ih =>
    obtain ⟨hx, hl⟩ := pairwise_cons.mp h
    unfold ubFindCnaNode at hf
    intro y hy
    rcases mem_cons.mp hy with rfl | hy
    · intro hc
      rw [if_neg (by omega), if_neg (by omega)] at hf
      cases hf
    split at hf
    · exact ih hl hf y hy
    split at hf
    · have := hx y hy
      omega
    · cases hf

theorem ubFindCnaNode_some {x : CnaNode} (hf : ubFindCnaNode c l = some x) : x ∈ l ∧ x.cna = c := by
  induction l with
  | nil => cases hf
  | cons y l ih =>
    unfold ubFindCnaNode at hf
    split at hf
    · obtain ⟨hx, hc⟩ := ih hf
      exact ⟨mem_cons_of_mem _ hx, hc⟩
    split at hf
    · cases hf
    · cases hf
      exact ⟨mem_cons_self, by omega⟩

theorem addFromTail_old (d : Int) (ok : Bool) (h : l.Pairwise fun x y => y.cna < x.cna)
    (hc : ∃ x ∈ l, x.cna = c) :
    addFromTail c d ok l =
      some (l.map fun x => if x.cna = c then { x with count := (x.count + 1) % 65536 } else x) := by
  induction l with
  | nil =>
    obtain ⟨x, hx, -⟩ := hc
    exact absurd hx not_mem_nil
  | cons x l ih =>
    obtain ⟨hx, hl⟩ := pairwise_cons.mp h
    obtain ⟨y, hy, hyc⟩ := hc
    unfold addFromTail
    rw [map_cons]
    split
    · next hlt =>
      have hin : y ∈ l := by
        rcases mem_cons.mp hy with rfl | hy
        · omega
        · exact hy
      rw [ih hl ⟨y, hin, hyc⟩, if_neg (by omega)]
      rfl
    next hge =>
    have heq : x.cna = c := by
      rcases mem_cons.mp hy with rfl | hy
      · exact hyc
      · have := hx y hy
        omega
    rw [if_pos heq, if_pos heq, map_eq_self_of_ne fun z hz => by have := hx z hz; omega]

theorem addFromTail_new {d : Int} (h : l.Pairwise fun x y => y.cna < x.cna) (hc : ∀ x ∈ l, x.cna ≠ c) :
    ∃ l', addFromTail c d true l = some l' ∧ (l'.Pairwise fun x y => y.cna < x.cna) ∧
      ∀ y, y ∈ l' ↔ y = ubCreateCnaNode c d ∨ y ∈ l := by
  induction l with
  | nil =>
    refine ⟨[ubCreateCnaNode c d], rfl, pairwise_singleton _ _, fun y => ?_⟩
    simp
  | cons x l ih =>
    obtain ⟨hx, hl⟩ := pairwise_cons.mp h
    have hxc := hc x mem_cons_self
    unfold addFromTail
    split
    · next hlt =>
      obtain ⟨l', hl', hs, hm⟩ := ih hl fun y hy => hc y (mem_cons_of_mem _ hy)
      refine ⟨x :: l', by rw [hl']; rfl, pairwise_cons.mpr ⟨fun y hy => ?_, hs⟩, fun y => ?_⟩
      · rcases (hm y).mp hy with rfl | hy
        · exact hlt
        · exact hx y hy
      · rw [mem_cons, hm, mem_cons]
        tauto
    next hge =>
    refine ⟨ubCreateCnaNode c d :: x :: l, rfl, pairwise_cons.mpr ⟨fun y hy => ?_, h⟩, fun y => ?_⟩
    · change y.cna < c
      rcases mem_cons.mp hy with rfl | hy
      · omega
      · have := hx y hy
        omega
    · rw [mem_cons]

/-- The walk of `ub_route_clear_port` takes one off every node of an address it clears. -/
theorem clearWalk_eq {cs : List Nat} (hcs : cs.Pairwise (· < ·))
    (h : l.Pairwise fun x y => x.cna < y.cna) :
    (RouteEnt.clearWalk cs l).1 = l.map fun x => if x.cna ∈ cs then x.less else x := by
  induction cs generalizing l with
  | nil =>
    refine ((map_congr_left fun x _ => ?_).trans (map_id l)).symm
    rw [if_neg not_mem_nil]
    rfl
  | cons c cs ih =>
    obtain ⟨hc, hcs⟩ := pairwise_cons.mp hcs
    -- the nodes before the address are before all later ones too
    have hbefore : (l.takeWhile (·.cna < c)).map (fun x => if x.cna ∈ c :: cs then x.less else x) =
        l.takeWhile (·.cna < c) := by
      refine (map_congr_left fun x hx => ?_).trans (map_id _)
      have hlt : x.cna < c := by simpa using mem_takeWhile_imp hx
      rw [if_neg]
      · rfl
      · intro hmem
        rcases mem_cons.mp hmem with h1 | h1
        · omega
        · have := hc _ h1
          omega
    have hl : l = l.takeWhile (·.cna < c) ++ l.dropWhile (·.cna < c) := takeWhile_append_dropWhile.symm
    have hrest : (l.dropWhile (·.cna < c)).Pairwise fun x y => x.cna < y.cna :=
      h.sublist (dropWhile_sublist _)
    unfold RouteEnt.clearWalk
    conv_rhs => rw [hl, map_append, hbefore]
    cases hd : l.dropWhile (·.cna < c) with
    | nil =>
      dsimp only
      rw [ih hcs List.Pairwise.nil]
      rfl
    | cons x more =>
      rw [hd] at hrest
      obtain ⟨hx, hmore⟩ := pairwise_cons.mp hrest
      have hge : c ≤ x.cna := by
        have := List.head?_dropWhile_not (fun y : CnaNode => decide (y.cna < c)) l
        rw [hd] at this
        simpa using this
      have htail : more.map (fun y => if y.cna ∈ c :: cs then y.less else y) =
          more.map fun y => if y.cna ∈ cs then y.less else y := by
        refine map_congr_left fun y hy => ?_
        have := hx y hy
        have hne : y.cna ≠ c := by omega
        simp only [mem_cons, hne, false_or]
      dsimp only
      rw [map_cons, htail]
      split
      · next heq =>
        have hless : (x.less :: more).Pairwise fun x y => x.cna < y.cna := by
          refine pairwise_cons.mpr ⟨fun y hy => ?_, hmore⟩
          rw [CnaNode.less_cna]
          exact hx y hy
        have hnot : x.less.cna ∉ cs := by
          intro hm
          have := hc _ hm
          rw [CnaNode.less_cna] at this
          omega
        have hin : x.cna ∈ c :: cs := by
          rw [heq]
          exact mem_cons_self
        rw [ih hcs hless, map_cons, if_neg hnot, if_pos hin]
      · next hne =>
        dsimp only
        rw [ih hcs hrest, map_cons]
        congr 2
        simp only [mem_cons, hne, false_or]

end Lists

/-! ## One entity -/

section Entity

variable {n p c : Nat} {u : RouteEnt}

theorem count_le (maps : Nat → Nat → Bool) (c n : Nat) : Nat.count (maps · c) n ≤ n :=
  Nat.count_le fun p => maps p c = true

theorem count_setMap_true (c' : Nat) (hp : p < n) (h : u.cnaMaps p c = false) :
    Nat.count (setMap u.cnaMaps p c true · c') n =
      Nat.count (u.cnaMaps · c') n + if c' = c then 1 else 0 := by
  by_cases hc : c' = c
  · subst hc
    rw [if_pos rfl]
    refine count_switch_on (i := p) h ?_ (fun j hj => ?_) hp
    · exact if_pos ⟨rfl, rfl⟩
    · exact if_neg fun hc => hj hc.1
  · rw [if_neg hc, Nat.add_zero]
    exact count_congr_lt fun i _ => if_neg fun h => hc h.2

theorem count_setMap_false (c' : Nat) (hp : p < n) (h : u.cnaMaps p c) :
    Nat.count (u.cnaMaps · c') n =
      Nat.count (setMap u.cnaMaps p c false · c') n + if c' = c then 1 else 0 := by
  by_cases hc : c' = c
  · subst hc
    rw [if_pos rfl]
    refine count_switch_on (i := p) ?_ h (fun j hj => ?_) hp
    · exact if_pos ⟨rfl, rfl⟩
    · exact (if_neg fun hc => hj hc.1).symm
  · rw [if_neg hc, Nat.add_zero]
    exact count_congr_lt fun i _ => (if_neg fun h => hc h.2).symm

section

variable (h : Booked n u)
include h

theorem Booked.map {g : CnaNode → CnaNode} {u' : RouteEnt}
    (hl : u'.cnaList = u.cnaList.map g) (hg : ∀ x, (g x).cna = x.cna)
    (hcount : ∀ x ∈ u.cnaList, (g x).count = Nat.count (u'.cnaMaps · x.cna) n)
    (hcover : ∀ p, p < n → ∀ c, u'.cnaMaps p c → ∃ x ∈ u.cnaList, x.cna = c)
    (hzero : ∀ x ∈ u.cnaList, (g x).count = 0 → (g x).needUpdate) : Booked n u' := by
  refine ⟨?_, ?_, ?_, ?_⟩
  · rw [hl, pairwise_map]
    exact h.sorted.imp fun {x y} hxy => by rw [hg, hg]; exact hxy
  · intro y hy
    rw [hl] at hy
    obtain ⟨x, hx, rfl⟩ := mem_map.mp hy
    rw [hg]
    exact hcount x hx
  · intro p hp c hc
    obtain ⟨x, hx, hxc⟩ := hcover p hp c hc
    rw [hl]
    exact ⟨g x, mem_map_of_mem hx, (hg x).trans hxc⟩
  · intro y hy
    rw [hl] at hy
    obtain ⟨x, hx, rfl⟩ := mem_map.mp hy
    exact hzero x hx

theorem setMap_cover (hc : ∃ x ∈ u.cnaList, x.cna = c) (v : Bool) :
    ∀ p', p' < n → ∀ c', setMap u.cnaMaps p c v p' c' → ∃ x ∈ u.cnaList, x.cna = c' := by
  intro p' hp' c' hset
  unfold setMap at hset
  split at hset
  · next heq =>
    rw [heq.2]
    exact hc
  · exact h.cover p' hp' c' hset

theorem Booked.on {f : CnaNode → CnaNode} {u' : RouteEnt} (hn : n ≤ 256) (hp : p < n)
    (hbit : u.cnaMaps p c = false) (hc : ∃ x ∈ u.cnaList, x.cna = c)
    (hf : ∀ x, (f x).cna = x.cna ∧ (f x).count = (x.count + 1) % 65536)
    (hl : u'.cnaList = u.cnaList.map fun x => if x.cna = c then f x else x)
    (hmaps : u'.cnaMaps = setMap u.cnaMaps p c true) : Booked n u' := by
  have hnext : ∀ x ∈ u.cnaList, x.cna = c →
      (x.count + 1) % 65536 = Nat.count (setMap u.cnaMaps p c true · x.cna) n := by
    intro x hx hxc
    have h1 := count_setMap_true x.cna hp hbit
    have h2 := count_le (setMap u.cnaMaps p c true) x.cna n
    rw [if_pos hxc] at h1
    rw [h.count x hx, h1]
    omega
  refine h.map hl (fun x => ?_) (fun x hx => ?_) ?_ fun x hx hzero => ?_
  · split
    · exact (hf x).1
    · rfl
  · rw [hmaps]
    split
    · next hxc =>
      rw [(hf x).2]
      exact hnext x hx hxc
    next hxc =>
    rw [h.count x hx, count_setMap_true x.cna hp hbit, if_neg hxc]
    rfl
  · rw [hmaps]
    exact setMap_cover h hc true
  · split at hzero
    · next hxc =>
      rw [(hf x).2, hnext x hx hxc, count_setMap_true x.cna hp hbit, if_pos hxc] at hzero
      omega
    next hxc =>
    rw [if_neg hxc]
    exact h.zero x hx hzero

theorem Booked.addEntry {d : Int} (hn : n ≤ 256) (hp : p < n) :
    Booked n (u.addEntry p c d true).2 ∧ (u.cnaMaps p c = false → (u.addEntry p c d true).1 = none) := by
  unfold RouteEnt.addEntry
  split
  · next hbit => exact ⟨h, fun hc => absurd hbit (by rw [hc]; decide)⟩
  next hbit =>
  have hbit : u.cnaMaps p c = false := by simpa using hbit
  have hrev : u.cnaList.reverse.Pairwise fun x y => y.cna < x.cna := pairwise_reverse.mpr h.sorted
  dsimp only
  by_cases hc : ∃ x ∈ u.cnaList, x.cna = c
  · have hold := addFromTail_old d true hrev
      (by obtain ⟨x, hx, hxc⟩ := hc; exact ⟨x, mem_reverse.mpr hx, hxc⟩)
    rw [ubAddCnaNode, hold, Option.map_some, ← map_reverse, reverse_reverse]
    refine ⟨h.on (f := fun x => { x with count := (x.count + 1) % 65536 }) hn hp hbit hc
      (fun x => ⟨rfl, rfl⟩) rfl rfl, fun _ => rfl⟩
  have hnew : ∀ x ∈ u.cnaList, x.cna ≠ c := fun x hx hxc => hc ⟨x, hx, hxc⟩
  obtain ⟨l', hl', hs, hm⟩ := addFromTail_new (d := d) hrev fun x hx => hnew x (mem_reverse.mp hx)
  rw [ubAddCnaNode, hl']
  refine ⟨⟨pairwise_reverse.mpr hs, ?_, ?_, ?_⟩, fun _ => rfl⟩
  · intro x hx
    change x.count = Nat.count (setMap u.cnaMaps p c true · x.cna) n
    rw [count_setMap_true x.cna hp hbit]
    rcases (hm x).mp (mem_reverse.mp hx) with rfl | hx
    · have hzero : Nat.count (u.cnaMaps · c) n = 0 := by
        refine count_eq_zero.mpr fun i hi => ?_
        by_contra hb
        obtain ⟨x, hx, hxc⟩ := h.cover i hi c (by simpa using hb)
        exact hnew x hx hxc
      change 1 = Nat.count (u.cnaMaps · c) n + if c = c then 1 else 0
      rw [hzero, if_pos rfl]
    · have hx := mem_reverse.mp hx
      rw [if_neg (hnew x hx), h.count x hx]
      rfl
  · intro p' hp' c' hset
    change (if p' = p ∧ c' = c then true else u.cnaMaps p' c') = true at hset
    split at hset
    · next heq => exact ⟨_, mem_reverse.mpr ((hm _).mpr (.inl rfl)), heq.2.symm⟩
    · obtain ⟨x, hx, hxc⟩ := h.cover p' hp' c' hset
      exact ⟨x, mem_reverse.mpr ((hm x).mpr (.inr (mem_reverse.mpr hx))), hxc⟩
  · intro x hx hzero
    rcases (hm x).mp (mem_reverse.mp hx) with rfl | hx
    · rfl
    · exact h.zero x (mem_reverse.mp hx) hzero

theorem Booked.delEntry (hn : n ≤ 256) (hp : p < n) (hbit : u.cnaMaps p c) :
    Booked n (u.delEntry p c) := by
  have hc := h.cover p hp c hbit
  have hless : ∀ x ∈ u.cnaList, x.cna = c →
      (x.count + 65535) % 65536 = Nat.count (setMap u.cnaMaps p c false · x.cna) n := by
    intro x hx hxc
    have h1 := count_setMap_false x.cna hp hbit
    have h2 := count_le u.cnaMaps x.cna n
    rw [if_pos hxc] at h1
    rw [h.count x hx]
    omega
  dsimp only [RouteEnt.delEntry]
  cases hf : ubFindCnaNode c u.cnaList with
  | none =>
    obtain ⟨x, hx, hxc⟩ := hc
    exact absurd hxc (ubFindCnaNode_none h.sorted hf x hx)
  | some x =>
    refine h.map (changeCnaNode_eq h.sorted) (fun x => ?_) (fun x hx => ?_) (setMap_cover h hc false)
      fun x hx hzero => ?_
    · split
      · exact x.less_cna
      · rfl
    · split
      · next hxc => exact hless x hx hxc
      next hxc =>
      rw [h.count x hx, count_setMap_false x.cna hp hbit, if_neg hxc]
      rfl
    · split at hzero
      · next hxc =>
        rw [if_pos hxc]
        rfl
      next hxc =>
      rw [if_neg hxc]
      exact h.zero x hx hzero

theorem Booked.flag (b : Bool) : Booked n { u with routeUpdated := b } :=
  ⟨h.sorted, h.count, h.cover, h.zero⟩

theorem Booked.delEntries (hn : n ≤ 256) (hp : p < n) (l : List CnaNode) :
    Booked n (u.delEntries p l).1 := by
  have hloop : ∀ l u updated, Booked n u → Booked n (RouteEnt.delLoop p l u updated).1 := by
    intro l
    induction l with
    | nil => exact fun u updated h => h
    | cons c l ih =>
      intro u updated h
      unfold RouteEnt.delLoop
      split
      · next hbit => exact ih _ _ (h.delEntry hn hp hbit)
      · exact ih _ _ h
  dsimp only [RouteEnt.delEntries]
  split
  · exact (hloop l u false h).flag true
  · exact hloop l u false h

end

theorem Booked.modEntries (hasCna : Nat → Bool) (off : Int) (l : List CnaNode) (hn : n ≤ 256) (hp : p < n)
    (oks : List Bool) (u : RouteEnt) (updated : Bool) (h : Booked n u) (hoks : ∀ b ∈ oks, b) :
    Booked n (RouteEnt.modEntries hasCna p off l oks u updated).1 ∧
    ∀ b ∈ (RouteEnt.modEntries hasCna p off l oks u updated).2.2, b := by
  induction l generalizing oks u updated with
  | nil =>
    unfold RouteEnt.modEntries
    refine ⟨?_, hoks⟩
    dsimp only
    split
    · exact h.flag true
    · exact h
  | cons c l ih =>
    unfold RouteEnt.modEntries
    split
    · exact ih oks u updated h hoks
    next hskip =>
    have hbit : u.cnaMaps p c.cna = false := by
      simp only [Bool.or_eq_true, not_or, Bool.not_eq_true] at hskip
      exact hskip.1
    have hhead : oks.headD true := by
      cases oks with
      | nil => rfl
      | cons b oks => exact hoks b mem_cons_self
    have htail : ∀ b ∈ oks.tail, b := fun b hb => hoks b (mem_of_mem_tail hb)
    dsimp only
    cases hf : ubFindCnaNode c.cna u.cnaList with
    | none =>
      rw [hhead]
      obtain ⟨hadd, hret⟩ := h.addEntry (c := c.cna) hn hp
      have hret := hret hbit
      generalize u.addEntry p c.cna (toShort (c.distance + off)) true = r at hadd hret
      obtain ⟨ret, u'⟩ := r
      subst hret
      exact ih _ _ _ hadd htail
    | some x =>
      dsimp only
      split
      · exact ih oks u updated h hoks
      refine ih _ _ _ ?_ hoks
      obtain ⟨hx, hxc⟩ := ubFindCnaNode_some hf
      exact h.on (f := CnaNode.more) hn hp hbit ⟨x, hx, hxc⟩ (fun x => ⟨rfl, rfl⟩)
        (changeCnaNode_eq h.sorted) rfl

theorem Booked.clearPort {maxCna : Nat} (h : Booked n u) (hn : n ≤ 256) (hp : p < n) :
    Booked n (u.clearPort maxCna p) := by
  have hsorted : ((List.range maxCna).filter (u.cnaMaps p ·)).Pairwise (· < ·) :=
    pairwise_lt_range.sublist filter_sublist
  have hmem : ∀ c, c ∈ (List.range maxCna).filter (u.cnaMaps p ·) ↔ c < maxCna ∧ u.cnaMaps p c := by
    intro c
    rw [mem_filter, mem_range]
  have hcount : ∀ c, Nat.count (u.cnaMaps · c) n =
      Nat.count ((u.clearPort maxCna p).cnaMaps · c) n +
        if c ∈ (List.range maxCna).filter (u.cnaMaps p ·) then 1 else 0 := by
    intro c
    by_cases hc : c ∈ (List.range maxCna).filter (u.cnaMaps p ·)
    · rw [if_pos hc]
      obtain ⟨hlt, hbit⟩ := (hmem c).mp hc
      refine count_switch_on (i := p) ?_ hbit (fun j hj => ?_) hp
      · exact if_pos ⟨rfl, hlt⟩
      · exact (if_neg fun hc => hj hc.1).symm
    rw [if_neg hc, Nat.add_zero]
    refine count_congr_lt fun i _ => ?_
    change u.cnaMaps i c = if i = p ∧ c < maxCna then false else u.cnaMaps i c
    split
    · next heq =>
      rw [heq.1]
      by_contra hb
      exact hc ((hmem c).mpr ⟨heq.2, by simpa using hb⟩)
    · rfl
  refine h.map (clearWalk_eq hsorted h.sorted) (fun x => ?_) (fun x hx => ?_) ?_ fun x hx hzero => ?_
  · split
    · exact x.less_cna
    · rfl
  · have h1 := hcount x.cna
    have h2 := count_le u.cnaMaps x.cna n
    split
    · next hin =>
      rw [if_pos hin] at h1
      change (x.count + 65535) % 65536 = _
      rw [h.count x hx]
      omega
    next hin =>
    rw [if_neg hin, Nat.add_zero] at h1
    rw [h.count x hx, h1]
  · intro p' hp' c hset
    refine h.cover p' hp' c ?_
    change (if p' = p ∧ c < maxCna then false else u.cnaMaps p' c) = true at hset
    split at hset
    · cases hset
    · exact hset
  · split at hzero
    · next hin =>
      rw [if_pos hin]
      rfl
    next hin =>
    rw [if_neg hin]
    exact h.zero x hx hzero

theorem Booked.clear (h : ∀ p, p < n → ∀ c, u.cnaMaps p c → c < RouteEnt.ubRouteTableEntryBits) :
    Booked n (u.clear n) := by
  refine ⟨List.Pairwise.nil, nofun, ?_, nofun⟩
  intro p hp c hset
  change (if p < n ∧ c < RouteEnt.ubRouteTableEntryBits then false else u.cnaMaps p c) = true at hset
  split at hset
  · cases hset
  · next hne => exact absurd ⟨hp, h p hp c hset⟩ hne

theorem syncNode_some {x y : CnaNode} (h : RouteEnt.syncNode x = some y) :
    y.cna = x.cna ∧ y.count = x.count ∧ (x.needUpdate = false ∧ y = x ∨ x.count ≠ 0) := by
  unfold RouteEnt.syncNode at h
  split at h
  · next hn =>
    cases h
    exact ⟨rfl, rfl, .inl ⟨hn, rfl⟩⟩
  split at h
  · cases h
  next hc =>
  cases h
  exact ⟨rfl, rfl, .inr hc⟩

theorem Booked.syncDev (h : Booked n u) : Booked n u.syncDev := by
  unfold RouteEnt.syncDev
  split
  · refine ⟨?_, ?_, ?_, ?_⟩
    · refine pairwise_filterMap.mpr (h.sorted.imp fun {x y} hxy x' hx y' hy => ?_)
      rw [(syncNode_some hx).1, (syncNode_some hy).1]
      exact hxy
    · intro y hy
      obtain ⟨x, hx, hxy⟩ := mem_filterMap.mp hy
      obtain ⟨hcna, hcount, -⟩ := syncNode_some hxy
      rw [hcna, hcount]
      exact h.count x hx
    · intro p hp c hset
      obtain ⟨x, hx, hxc⟩ := h.cover p hp c hset
      have hpos : x.count ≠ 0 := by
        rw [h.count x hx, hxc]
        exact Nat.pos_iff_ne_zero.mp (count_pos hp hset)
      cases hy : RouteEnt.syncNode x with
      | none =>
        unfold RouteEnt.syncNode at hy
        split at hy <;> cases hy
      | some y => exact ⟨y, mem_filterMap.mpr ⟨x, hx, hy⟩, (syncNode_some hy).1.trans hxc⟩
    · intro y hy hzero
      obtain ⟨x, hx, hxy⟩ := mem_filterMap.mp hy
      obtain ⟨-, hcount, hcase⟩ := syncNode_some hxy
      rcases hcase with ⟨hn, -⟩ | hne
      · have := h.zero x hx (hcount.symm.trans hzero)
        rw [hn] at this
        cases this
      · exact absurd (hcount.symm.trans hzero) hne
  · exact h

end Entity

/-! ## All entities -/

/-- No node of an entity's list fails to be allocated, and `ub_route_clear` finds no bit beyond
those it clears. -/
def RouteKept (T : Topology) (s : Routes) : RouteAct → Prop
  | .addEntry _ _ _ _ ok => ok = true
  | .modNeighbor _ _ _ _ _ oks => ∀ b ∈ oks, b = true
  | .modBfs _ _ oks _ => ∀ b ∈ oks, b = true
  | .clear e => ∀ p, p < T.portNums e → ∀ c, (s e).cnaMaps p c = true → c < RouteEnt.ubRouteTableEntryBits
  | _ => True

section Entities

variable {T : Topology} {s : Routes} {maxCna : Nat}

def AllBooked (T : Topology) (s : Routes) : Prop := ∀ e, Booked (T.portNums e) (s e)

theorem AllBooked.update {e : Nat} {u : RouteEnt} (h : AllBooked T s) (hu : Booked (T.portNums e) u) :
    AllBooked T (Function.update s e u) := by
  intro k
  by_cases hk : k = e
  · subst hk
    rw [Function.update_self]
    exact hu
  · rw [Function.update_of_ne hk]
    exact h k

def AtPorts (T : Topology) (q : List BfsNode) : Prop := ∀ b ∈ q, b.port < T.portNums b.uent

theorem across_lt {e : Nat} {except : Option Nat} : ∀ x ∈ T.across e except, x.2 < T.portNums x.1 := by
  intro x hx
  obtain ⟨p, -, hto⟩ := mem_filterMap.mp hx
  split at hto
  · cases hto
  split at hto
  · cases hto
  next r q hpeer =>
  split at hto
  · cases hto
  · cases hto
    exact T.peer_lt hpeer

theorem AtPorts.putAll {off : Int} {ends : List (Nat × Nat)} {q : List BfsNode} (h : AtPorts T q)
    (hends : ∀ x ∈ ends, x.2 < T.portNums x.1) : AtPorts T (putAll off ends q) := by
  induction ends generalizing q with
  | nil => exact h
  | cons x ends ih =>
    refine ih ?_ fun y hy => hends y (mem_cons_of_mem _ hy)
    change AtPorts T (kfifoPut q ⟨x.1, x.2, off⟩)
    unfold kfifoPut
    split
    · intro b hb
      rcases mem_append.mp hb with hb | hb
      · exact h b hb
      · obtain rfl := mem_singleton.mp hb
        exact hends x mem_cons_self
    · exact h

theorem AllBooked.modBfsLoop {l : List CnaNode} (rounds : Nat) (q : List BfsNode) (oks : List Bool)
    (s : Routes) (h : AllBooked T s) (hq : AtPorts T q) (hoks : ∀ b ∈ oks, b) :
    AllBooked T (modBfsLoop T l rounds q oks s) := by
  induction rounds generalizing q oks s with
  | zero => exact h
  | succ k ih =>
    cases q with
    | nil => exact h
    | cons b q =>
      have hb := hq b mem_cons_self
      have hrest : AtPorts T q := fun x hx => hq x (mem_cons_of_mem _ hx)
      obtain ⟨hbooked, hleft⟩ := Booked.modEntries (T.hasCna b.uent) b.off l
        (T.portNums_le b.uent) hb oks (s b.uent) false (h b.uent) hoks
      refine ih _ _ _ (h.update hbooked) ?_ hleft
      split
      · exact hrest.putAll across_lt
      · exact hrest

theorem AllBooked.delBfsLoop {l : List CnaNode} (rounds : Nat) (q : List BfsNode) (s : Routes)
    (h : AllBooked T s) (hq : AtPorts T q) : AllBooked T (delBfsLoop T l rounds q s) := by
  induction rounds generalizing q s with
  | zero => exact h
  | succ k ih =>
    cases q with
    | nil => exact h
    | cons b q =>
      have hb := hq b mem_cons_self
      have hrest : AtPorts T q := fun x hx => hq x (mem_cons_of_mem _ hx)
      refine ih _ _ (h.update ((h b.uent).delEntries (T.portNums_le b.uent) hb l)) ?_
      split
      · exact hrest.putAll across_lt
      · exact hrest

theorem AllBooked.next {a : RouteAct} (h : AllBooked T s) (ha : RouteKept T s a) :
    AllBooked T (T.next maxCna s a) := by
  have hempty : AtPorts T [] := nofun
  cases a with
  | addEntry e p cna d ok =>
    obtain rfl : ok = true := ha
    dsimp only [Topology.next]
    split
    · next hp => exact h.update ((h e).addEntry (T.portNums_le e) hp).1
    · exact h
  | modNeighbor e p r q listOk oks =>
    dsimp only [Topology.next]
    split
    · next hpq =>
      unfold ubRouteModNeighbor
      split
      · exact h
      dsimp only
      split
      · exact h
      · exact h.update (Booked.modEntries _ _ _ (T.portNums_le r) hpq.2 oks (s r) false (h r) ha).1
    · exact h
  | modBfs e listOk oks rounds =>
    dsimp only [Topology.next, ubRouteModBfs]
    split
    · exact h
    · exact h.modBfsLoop rounds _ oks s (hempty.putAll across_lt) ha
  | delBfs e listOk rounds =>
    dsimp only [Topology.next, ubRouteDelBfs]
    split
    · exact h
    · exact h.delBfsLoop rounds _ s (hempty.putAll across_lt)
  | clearPort e p =>
    dsimp only [Topology.next]
    split
    · next hp => exact h.update ((h e).clearPort (T.portNums_le e) hp)
    · exact h
  | clear e => exact h.update (Booked.clear ha)
  | syncDev e => exact h.update (h e).syncDev

/-- In a run in which the nodes of the lists can be allocated and `ub_route_clear` clears every
bit, the books of every entity are right. -/
theorem routes_booked (hs : Reach (RouteKept T) (T.next maxCna) (fun _ => {}) s) (e : Nat) :
    Booked (T.portNums e) (s e) := by
  have h : AllBooked T s := hs.invariant
    (fun _ => ⟨List.Pairwise.nil, fun x hx => absurd hx not_mem_nil,
      fun _ _ _ hset => absurd hset Bool.false_ne_true, fun x hx => absurd hx not_mem_nil⟩)
    fun _ _ h ha => h.next ha
  exact h e

def twoPorts : Topology where
  portNums _ := 2
  cna _ := 1
  portCna _ _ := 2
  peer _ _ := none
  supportForward _ := true
  portNums_le _ := by decide
  peer_lt h := by cases h

def bothRoutes : Routes :=
  [.addEntry 0 0 5 1 true, .addEntry 0 1 5 1 true].foldl (twoPorts.next 1024) fun _ => {}

theorem routes_booked_both : (bothRoutes 0).cnaList = [⟨5, 1, 2, true⟩] ∧
    Nat.count ((bothRoutes 0).cnaMaps · 5) 2 = 2 := by
  have h := routes_booked (s := bothRoutes) (Reach.init.along ⟨rfl, rfl, trivial⟩) 0
  have hl : (bothRoutes 0).cnaList = [⟨5, 1, 2, true⟩] := by decide
  refine ⟨hl, ?_⟩
  exact (h.count ⟨5, 1, 2, true⟩ (by rw [hl]; exact mem_singleton_self _)).symm

def lostNode : Routes := [.addEntry 0 0 5 1 false].foldl (twoPorts.next 1024) fun _ => {}

/-- The bit is set and has no node. -/
theorem lostNode_unbooked : Reach (fun _ _ => True) (twoPorts.next 1024) (fun _ => {}) lostNode ∧
    (lostNode 0).cnaMaps 0 5 = true ∧ (lostNode 0).cnaList = [] :=
  ⟨.foldl _, by decide, by decide⟩

end Entities

end UbDkms.Ubus
