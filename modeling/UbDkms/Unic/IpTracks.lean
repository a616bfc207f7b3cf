import UbDkms.Unic.IpTable

/-!
# `ip_list` tracks the manager and the stack

The state of a node encodes two bits: whether the driver believes the address planned,
and whether the stack has it. Every operation acts on one of the bits alone; outside a
query the belief is the plan.
-/

namespace UbDkms.Unic

open Lib List AddrState
open Function (update_self update_of_ne)

namespace IpTable

def enc (planned stack : Bool) : Option AddrState :=
  match planned, stack with
  | true, true => some .active
  | true, false => some .toAdd
  | false, true => some .toDel
  | false, false => none

/-- The list has one node for each address that is believed planned or in the stack. -/
structure Enc (l : IpList) (p s : IpKey → Bool) : Prop where
  nodup : (keys l).Nodup
  look : ∀ x, l.lookup x = enc (p x) (s x)

variable {l : IpList} {p s : IpKey → Bool} {x : IpKey}

variable {p' s' : IpKey → Bool}

theorem Enc.on {f : AddrState → Option AddrState} (h : Enc l p s)
    (hx : (enc (p x) (s x)).bind f = enc (p' x) (s' x))
    (hne : ∀ y, y ≠ x → p' y = p y ∧ s' y = s y) : Enc (onKey f x l) p' s' where
  nodup := keys_onKey f x h.nodup
  look y := by
    rw [lookup_onKey f h.nodup, h.look x]
    by_cases hy : y = x
    · rw [if_pos hy, hy, hx]
    · rw [if_neg hy, h.look y, (hne y hy).1, (hne y hy).2]

theorem Enc.push {v : AddrState} (h : Enc l p s) (hx : enc (p x) (s x) = none)
    (hv : enc (p' x) (s' x) = some v) (hne : ∀ y, y ≠ x → p' y = p y ∧ s' y = s y) :
    Enc (l ++ [(x, v)]) p' s' where
  nodup := keys_push h.nodup ((h.look x).trans hx)
  look y := by
    rw [lookup_push, h.look y]
    by_cases hy : y = x
    · rw [if_pos hy, hy, hx, hv]
      rfl
    · rw [if_neg hy, (hne y hy).1, (hne y hy).2, Option.or_none]

theorem Enc.same (h : Enc l p s) (hx : enc (p' x) (s' x) = enc (p x) (s x))
    (hne : ∀ y, y ≠ x → p' y = p y ∧ s' y = s y) : Enc l p' s' where
  nodup := h.nodup
  look y := by
    rw [h.look y]
    by_cases hy : y = x
    · rw [hy, hx]
    · rw [(hne y hy).1, (hne y hy).2]

theorem update_ne {b : Bool} (y : IpKey) (hy : y ≠ x) :
    Function.update p x b y = p y ∧ s y = s y :=
  ⟨update_of_ne hy _ _, rfl⟩

variable {st : AddrState}

theorem Enc.mergeTmp (h : Enc l p s) (hst : st ≠ .active) :
    Enc (mergeTmp l (x, st)) (Function.update p x (st = .toAdd)) s := by
  have hx := h.look x
  dsimp only [IpTable.mergeTmp]
  split
  · next v hv =>
    refine h.on ?_ update_ne
    rw [update_self]
    cases st <;> cases hp : p x <;> cases hs : s x <;> simp_all [enc, commUpdateAddrState]
  next hv =>
  rw [hv] at hx
  split
  · next ha =>
    refine h.push hx.symm ?_ update_ne
    rw [update_self]
    cases hp : p x <;> cases hs : s x <;> simp_all [enc]
  next ha =>
  refine h.same ?_ update_ne
  rw [update_self]
  cases hp : p x <;> cases hs : s x <;> simp_all [enc]

theorem updateAddrList_fst (hst : st ≠ .active) :
    (updateAddrList l st x).1 = IpTable.mergeTmp l (x, st) := by
  dsimp only [updateAddrList, IpTable.mergeTmp]
  split
  · rfl
  cases st with
  | toAdd | toDel => rfl
  | active => exact absurd rfl hst

theorem Enc.updateCtrlqIpList {l₂ : IpList} (h : Enc l p s) :
    Enc (updateCtrlqIpList (l, l₂) x).1 (Function.update p x true) s := by
  have hx := h.look x
  dsimp only [IpTable.updateCtrlqIpList]
  split
  · next v hv =>
    refine h.on ?_ update_ne
    rw [update_self]
    cases hp : p x <;> cases hs : s x <;> simp_all [enc]
  next hv =>
  rw [hv] at hx
  refine h.push hx.symm ?_ update_ne
  rw [update_self]
  cases hp : p x <;> cases hs : s x <;> simp_all [enc]

theorem Enc.response {l₂ : IpList} (ips : List IpKey) (h : Enc l p s) (hq : ∀ x ∈ keys l₂, p x) :
    ∃ p', Enc (ips.foldl IpTable.updateCtrlqIpList (l, l₂)).1 p' s ∧
      ∀ x ∈ keys (ips.foldl IpTable.updateCtrlqIpList (l, l₂)).2, p' x := by
  induction ips generalizing l l₂ p with
  | nil => exact ⟨p, h, hq⟩
  | cons x ips ih =>
    rw [foldl_cons]
    have h1 : Enc (IpTable.updateCtrlqIpList (l, l₂) x).1 (Function.update p x true) s :=
      h.updateCtrlqIpList
    refine ih h1 fun y hy => ?_
    by_cases hyx : y = x
    · rw [hyx, update_self]
    rw [update_of_ne hyx]
    simp only [Lib.keys, map_append, map_cons, map_nil, mem_append,
      mem_singleton] at hy
    exact hq y (hy.resolve_right hyx)

/-- After the first walk the belief is what the responses said. -/
theorem Enc.dropUnplanned {list : IpList} (h : Enc l p s) (hq : ∀ x ∈ keys list, p x) :
    Enc (sweep (dropUnplanned list) l) (fun x => decide (x ∈ keys list)) s where
  nodup := h.nodup.sublist (sweep_sublist _ _)
  look x := by
    rw [lookup_sweep _ h.nodup, h.look x]
    by_cases hx : x ∈ keys list
    · have hp := hq x hx
      obtain ⟨v, hv⟩ := Option.ne_none_iff_exists'.mp fun hn => lookup_eq_none.mp hn hx
      rw [hp]
      cases s x <;> simp [enc, IpTable.dropUnplanned, hv, hx]
    · have hv := lookup_eq_none.mpr hx
      cases p x <;> cases s x <;> simp [enc, IpTable.dropUnplanned, hv, hx]

theorem Enc.merge {tmp : IpList} (h : Enc l p s) (hn : (keys tmp).Nodup) (hst : ∀ n ∈ tmp, n.2 ≠ .active) :
    Enc (tmp.foldl IpTable.mergeTmp l) (fun x => match tmp.lookup x with
      | some st => decide (st = toAdd)
      | none => p x) s := by
  induction tmp generalizing l p with
  | nil => exact h
  | cons n tmp ih =>
    have hn := nodup_cons.mp hn
    rw [foldl_cons]
    have h1 := h.mergeTmp (x := n.1) (hst n mem_cons_self)
    have h2 := ih h1 hn.2 fun m hm => hst m (mem_cons_of_mem _ hm)
    have hp : (fun x => match List.lookup x (n :: tmp) with
        | some st => decide (st = toAdd)
        | none => p x) = fun x => match tmp.lookup x with
        | some st => decide (st = toAdd)
        | none => Function.update p n.1 (decide (n.2 = toAdd)) x := by
      funext x
      rw [lookup_cons]
      by_cases hx : x = n.1
      · rw [hx, lookup_eq_none.mpr hn.1]
        simp
      · rw [beq_eq_false_iff_ne.mpr hx, update_of_ne hx]
    rw [hp]
    exact h2

variable {t : IpTable}

theorem Enc.stackAdd (h : Enc t.ipList p s) (hx : s x = false) :
    Enc (t.updateStackIpAddr .toAdd x).1.ipList p (Function.update s x true) := by
  have hl := h.look x
  have hne : ∀ y, y ≠ x → p y = p y ∧ Function.update s x true y = s y := fun y hy =>
    ⟨rfl, update_of_ne hy _ _⟩
  unfold updateStackIpAddr
  split
  · next v hv =>
    refine h.on ?_ hne
    rw [update_self, hx]
    cases hp : p x <;> simp_all [enc, updateAddrState]
  next hv =>
  rw [hv] at hl
  rw [if_neg (by decide)]
  refine h.push hl.symm ?_ hne
  rw [update_self]
  cases hp : p x <;> simp_all [enc]

theorem Enc.stackDel (h : Enc t.ipList p s) (hx : s x) :
    Enc (t.updateStackIpAddr .toDel x).1.ipList p (Function.update s x false) := by
  have hl := h.look x
  have hne : ∀ y, y ≠ x → p y = p y ∧ Function.update s x false y = s y := fun y hy =>
    ⟨rfl, update_of_ne hy _ _⟩
  unfold updateStackIpAddr
  split
  · next v hv =>
    refine h.on ?_ hne
    rw [update_self, hx]
    cases hp : p x <;> simp_all [enc, updateAddrState]
  next hv =>
  cases hp : p x <;> simp_all [enc]

theorem updateStackIpAddr_frame (t : IpTable) (st : AddrState) (x : IpKey) :
    let t' := (t.updateStackIpAddr st x).1
    (unsettled t'.ipList → t'.tblChange) ∧ t'.tmpIpList = t.tmpIpList ∧ t'.querying = t.querying ∧
      t'.planned = t.planned := by
  unfold updateStackIpAddr
  split
  · exact ⟨id, rfl, rfl, rfl⟩
  split
  · exact ⟨id, rfl, rfl, rfl⟩
  · exact ⟨fun _ => rfl, rfl, rfl, rfl⟩

/-- The kept notifications are the last word of the manager. -/
structure Kept (t : IpTable) : Prop where
  nodup : (keys t.tmpIpList).Nodup
  state : ∀ n ∈ t.tmpIpList, n.2 ≠ .active
  planned : ∀ x st, t.tmpIpList.lookup x = some st → t.planned x = decide (st = .toAdd)

def Tracked (t : IpTable) : Prop :=
  match t.querying with
  | none => Enc t.ipList t.planned t.stack ∧ t.tmpIpList = [] ∧ (unsettled t.ipList → t.tblChange)
  | some q => Kept t ∧ ∃ p, Enc t.ipList p t.stack ∧ ∀ x ∈ keys q.list, p x

theorem Tracked.idle (h : Tracked t) (hq : t.querying = none) :
    Enc t.ipList t.planned t.stack ∧ t.tmpIpList = [] ∧ (unsettled t.ipList → t.tblChange) := by
  unfold Tracked at h
  rwa [hq] at h

theorem Tracked.query {q : IpQuery} (h : Tracked t) (hq : t.querying = some q) :
    Kept t ∧ ∃ p, Enc t.ipList p t.stack ∧ ∀ x ∈ keys q.list, p x := by
  unfold Tracked at h
  rwa [hq] at h

theorem Tracked.ofIdle (hq : t.querying = none)
    (h : Enc t.ipList t.planned t.stack ∧ t.tmpIpList = [] ∧ (unsettled t.ipList → t.tblChange)) :
    Tracked t := by
  unfold Tracked
  rw [hq]
  exact h

theorem Tracked.ofQuery {q : IpQuery} (hq : t.querying = some q)
    (h : Kept t ∧ ∃ p, Enc t.ipList p t.stack ∧ ∀ x ∈ keys q.list, p x) : Tracked t := by
  unfold Tracked
  rw [hq]
  exact h

theorem change_or (a b : Bool) : (a || b) = a ∨ (a || b) := by
  cases a <;> cases b <;> simp

theorem change_of_ne {a : Bool} (he : (updateAddrList l st x).2 ≠ enoent) :
    (a || (updateAddrList l st x).2 == 0) := by
  have h0 : (updateAddrList l st x).2 = 0 := by
    unfold updateAddrList at he ⊢
    split
    · rfl
    next hn =>
    rw [hn] at he
    split
    · next hd => rw [if_pos hd] at he; exact absurd rfl he
    · rfl
  rw [h0]
  simp

theorem Tracked.update (h : Tracked t) (hq : t.querying = none)
    (hst : st ≠ .active) {change : Bool} (hc : change = t.tblChange ∨ change)
    (he : (updateAddrList t.ipList st x).2 = enoent ∨ change) :
    Tracked { t with
      ipList := (updateAddrList t.ipList st x).1
      tblChange := change
      planned := Function.update t.planned x (st = .toAdd) } := by
  obtain ⟨h1, h2, h3⟩ := h.idle hq
  refine .ofIdle hq ⟨?_, h2, fun hu => ?_⟩
  · dsimp only
    rw [updateAddrList_fst hst]
    exact h1.mergeTmp hst
  rcases he with he | he
  · -- nothing was found to delete: the list is as it was
    have hsame : (updateAddrList t.ipList st x).1 = t.ipList := by
      unfold updateAddrList at he ⊢
      split at he
      · cases he
      next hn =>
      split at he
      · next hd => simp [hd]
      · cases he
    rw [hsame] at hu
    rcases hc with hc | hc
    · rw [hc]
      exact h3 hu
    · exact hc
  · exact he

theorem updateTmpIpList_add (l : IpList) (x : IpKey) :
    (updateTmpIpList l .add x).1 = alter (fun _ => some .toAdd) x l := by
  unfold updateTmpIpList alter
  cases l.lookup x <;> rfl

theorem updateTmpIpList_del (l : IpList) (x : IpKey) :
    (updateTmpIpList l .del x).1 = alter (fun _ => some .toDel) x l := by
  unfold updateTmpIpList alter
  cases l.lookup x <;> rfl

theorem Kept.put (h : Kept t) (x : IpKey) (hst : st ≠ .active) :
    Kept { t with
      tmpIpList := alter (fun _ => some st) x t.tmpIpList
      planned := Function.update t.planned x (st = .toAdd) } := by
  have hnodup := keys_alter (fun _ => some st) x h.nodup
  refine ⟨hnodup, fun n hn => ?_, fun y v hv => ?_⟩
  · have hl := lookup_of_mem hnodup hn
    rw [lookup_alter _ h.nodup] at hl
    split at hl
    · cases hl
      exact hst
    · exact h.state n (mem_of_lookup hl)
  · dsimp only at hv ⊢
    rw [lookup_alter _ h.nodup] at hv
    by_cases hy : y = x
    · rw [if_pos hy] at hv
      cases hv
      rw [hy, update_self]
    rw [if_neg hy] at hv
    rw [update_of_ne hy]
    exact h.planned y v hv

section

variable (h : Tracked t)
include h

theorem Tracked.notify (cmd : IpCmd) (x : IpKey) :
    Tracked (t.act (.notify cmd x)) := by
  show Tracked { (t.handleNotifyIpEvent cmd x).1 with planned := plan t.planned cmd x }
  unfold handleNotifyIpEvent
  split
  · next q hq =>
    obtain ⟨hk, p, hp⟩ := h.query hq
    cases cmd with
    | add =>
      refine .ofQuery (q := q) hq ⟨?_, p, hp⟩
      have := hk.put x (show toAdd ≠ .active by decide)
      rwa [← updateTmpIpList_add] at this
    | del =>
      refine .ofQuery (q := q) hq ⟨?_, p, hp⟩
      have := hk.put x (show toDel ≠ .active by decide)
      rwa [← updateTmpIpList_del] at this
    | invalid => exact h
  next hq =>
  cases cmd with
  | add | del =>
    dsimp only [plan]
    split
    · next he => exact h.update hq (by decide) (.inl rfl) (.inl he)
    · next he => exact h.update hq (by decide) (change_or _ _) (.inr (change_of_ne he))
  | invalid => exact h

theorem Tracked.stack {b : Bool}
    (he : ∀ p, Enc t.ipList p t.stack →
      Enc (t.updateStackIpAddr st x).1.ipList p (Function.update t.stack x b)) :
    Tracked { (t.updateStackIpAddr st x).1 with stack := Function.update t.stack x b } := by
  obtain ⟨h1, h2, h3, h4⟩ := updateStackIpAddr_frame t st x
  cases hq : t.querying with
  | none =>
    obtain ⟨g1, g2, -⟩ := h.idle hq
    refine .ofIdle (h3.trans hq) ⟨?_, h2.trans g2, h1⟩
    rw [h4]
    exact he _ g1
  | some q =>
    obtain ⟨hk, p, hp, hl⟩ := h.query hq
    refine .ofQuery (h3.trans hq) ⟨⟨?_, ?_, ?_⟩, p, he p hp, hl⟩
    · exact h2 ▸ hk.nodup
    · exact h2 ▸ hk.state
    · dsimp only
      rw [h2, h4]
      exact hk.planned

theorem Tracked.queryIp (resp : Option (List IpKey × Nat)) :
    Tracked (t.ctrlqQueryIp resp) := by
  unfold ctrlqQueryIp
  split
  · exact h
  next q hq =>
  obtain ⟨hk, p, hp, hl⟩ := h.query hq
  split
  · exact h
  split
  · exact .ofQuery rfl ⟨⟨hk.nodup, hk.state, hk.planned⟩, p, hp, hl⟩
  next ips ipIndex =>
  obtain ⟨p', hp', hl'⟩ := hp.response ips hl
  refine .ofQuery rfl ⟨⟨hk.nodup, hk.state, hk.planned⟩, p', hp', ?_⟩
  split <;> exact hl'

theorem Tracked.queryEnd (hf : Full t .queryEnd) : Tracked t.queryEnd := by
  unfold IpTable.queryEnd
  split
  · exact h
  next q hq =>
  split
  · next hfin =>
    obtain ⟨hk, p, hp, hl⟩ := h.query hq
    have hfull := hf q hq hfin
    have hm := (hp.dropUnplanned hl).merge hk.nodup hk.state
    refine .ofIdle rfl ⟨?_, rfl, fun hu => ?_⟩
    · -- a kept notification is the plan, else the responses are
      have hplan : t.planned = fun x => match t.tmpIpList.lookup x with
          | some st => decide (st = toAdd)
          | none => decide (x ∈ keys q.list) := by
        funext x
        split
        · next st hst => exact hk.planned x st hst
        next hn =>
        have := hfull x (lookup_eq_none.mp hn)
        rw [Bool.eq_iff_iff, decide_eq_true_iff]
        exact this.symm
      show Enc _ t.planned t.stack
      rw [hplan]
      exact hm
    · show (t.tblChange || _) = true
      rw [Bool.or_eq_true]
      exact .inr hu
  · exact h

theorem Tracked.act {a : Act} (ha : Full t a) : Tracked (t.act a) := by
  cases a with
  | notify cmd x => exact h.notify cmd x
  | queryStart =>
    show Tracked (match t.querying with
      | none => { t with querying := some {} }
      | some _ => t)
    split
    · next hq =>
      obtain ⟨g1, g2, -⟩ := h.idle hq
      refine .ofQuery rfl ⟨⟨?_, ?_, ?_⟩, t.planned, g1, nofun⟩
      · show (keys t.tmpIpList).Nodup
        rw [g2]
        exact nodup_nil
      · show ∀ n ∈ t.tmpIpList, _
        rw [g2]
        exact nofun
      · show ∀ x st, t.tmpIpList.lookup x = some st → _
        rw [g2]
        exact nofun
    · exact h
  | queryIp resp => exact h.queryIp resp
  | queryEnd => exact h.queryEnd ha
  | stackAdd x =>
    show Tracked (if t.stack x then t else _)
    split
    · exact h
    · next hx => exact h.stack fun p hp => hp.stackAdd (Bool.eq_false_iff.mpr hx)
  | stackDel x =>
    show Tracked (if t.stack x then _ else t)
    split
    · next hx => exact h.stack fun p hp => hp.stackDel hx
    · exact h

end

theorem Tracked.init (planned : IpKey → Bool) : Tracked (IpTable.init planned) :=
  ⟨⟨nodup_nil, nofun, nofun⟩, fun _ => false, ⟨nodup_nil, fun _ => rfl⟩, nofun⟩

/-- Whenever no query is in progress, an address is in `ip_list`, once, iff the manager
plans it or the stack has it; its state says which, and the table-change flag is set
unless all nodes are active. -/
theorem ipList_tracks {t : IpTable} {planned : IpKey → Bool}
    (hs : Reach Full IpTable.act (IpTable.init planned) t) (hq : t.querying = none) :
    (keys t.ipList).Nodup ∧
    (∀ x, x ∈ keys t.ipList ↔ t.planned x ∨ t.stack x) ∧
    (∀ x st, (x, st) ∈ t.ipList →
      (st = .active ↔ t.planned x ∧ t.stack x) ∧
      (st = .toAdd ↔ t.planned x ∧ ¬ t.stack x) ∧
      (st = .toDel ↔ ¬ t.planned x ∧ t.stack x)) ∧
    ((∃ n ∈ t.ipList, n.2 ≠ .active) → t.tblChange = true) := by
  have h := hs.invariant (Tracked.init planned) fun s a h ha => h.act ha
  obtain ⟨he, -, hc⟩ := h.idle hq
  refine ⟨he.nodup, fun x => ?_, fun x st hst => ?_, fun ⟨n, hn, hna⟩ => hc ?_⟩
  · have hl := he.look x
    rw [← not_iff_not, ← lookup_eq_none, hl]
    cases t.planned x <;> cases t.stack x <;> simp [enc]
  · have hl := (lookup_of_mem he.nodup hst).symm.trans (he.look x)
    cases hp : t.planned x <;> cases hk : t.stack x <;> rw [hp, hk] at hl <;> simp [enc] at hl <;> simp [hl]
  · exact any_eq_true.mpr ⟨n, hn, by simpa using hna⟩

def oneIp : List Act :=
  [.queryIp (some ([⟨1, 24⟩], 0)), .queryEnd, .stackAdd ⟨1, 24⟩]

theorem oneIp_along : Reach.Along Full IpTable.act (IpTable.init (· == ⟨1, 24⟩)) oneIp :=
  ⟨trivial, fun q hq _ x _ => by
    cases hq
    simp [Lib.keys, IpTable.init, updateCtrlqIpList, act, ctrlqQueryIp], trivial, trivial⟩

theorem ipList_tracks_oneIp :
    (⟨1, 24⟩, AddrState.active) ∈ (oneIp.foldl IpTable.act (IpTable.init (· == ⟨1, 24⟩))).ipList ∧
    (keys (oneIp.foldl IpTable.act (IpTable.init (· == ⟨1, 24⟩))).ipList).Nodup :=
  ⟨by decide +kernel, (ipList_tracks (Reach.init.along oneIp_along) rfl).1⟩

end IpTable

end UbDkms.Unic
