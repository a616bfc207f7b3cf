import UbDkms.Unic.MacCells

/-!
# Every address of the MAC table through requests and rounds

Each request and each step of a round moves one address by a step of its own state
machine and leaves the others.
-/

namespace UbDkms.Unic

open Lib List
open Function (update update_self update_of_ne)

namespace MacTable

def isDev (t : MacTable) (x : Mac) : Bool := decide (t.macAddr = some x)

def CellAt (r : MacRound) (d : Bool) (x : Mac) (F : Prop) (L : Option MacNode) (H : Option Bool)
    (W : Bool) : Prop :=
  match r with
  | .idle => Rest F d L H W
  | .sync => Rest True d L H W
  | .deactivate => Rest True d L H W
  | .unsync todo kept add => SyncCell F d L ((todo ++ kept).lookup x) (add.lookup x) H W
  | .adding kept tried todo => SyncCell F d L (kept.lookup x) ((tried ++ todo).lookup x) H W
  | .deleting tried todo => DeactCell d L ((tried ++ todo).lookup x) H W

/-- The lists of a round; a node kept or refused has set the flag. -/
def Lists (r : MacRound) (F : Prop) : Prop :=
  match r with
  | .unsync todo kept add => (keys (todo ++ kept)).Nodup ∧ (keys add).Nodup ∧ (kept ≠ [] → F) ∧
    ∀ n ∈ add, n.2.state = .toAdd
  | .adding kept tried todo => (keys kept).Nodup ∧ (keys (tried ++ todo)).Nodup ∧ (kept ≠ [] → F) ∧
    (∀ n ∈ tried, n.2.state = .toAdd → F) ∧ ∀ n ∈ todo, n.2.state = .toAdd
  | .deleting tried todo => (keys (tried ++ todo)).Nodup
  | _ => True

structure Inv (t : MacTable) : Prop where
  nodup : (keys t.macList).Nodup
  lists : Lists t.round (t.tblChange = true)
  cell : ∀ x, CellAt t.round (t.isDev x) x (t.tblChange = true) (t.macList.lookup x) (t.hw x) (t.wanted x)

variable {t : MacTable} {ty : MacType} {r : MacRound} {d W : Bool} {x : Mac} {F G : Prop}
  {L : Option MacNode} {H : Option Bool}

theorem Lists.mono (h : Lists r F) (hf : F → G) : Lists r G := by
  cases r with
  | idle | sync | deactivate => trivial
  | unsync todo kept add => exact ⟨h.1, h.2.1, fun hk => hf (h.2.2.1 hk), h.2.2.2⟩
  | adding kept tried todo =>
    exact ⟨h.1, h.2.1, fun hk => hf (h.2.2.1 hk), fun n hn hs => hf (h.2.2.2.1 n hn hs), h.2.2.2.2⟩
  | deleting tried todo => exact h

theorem CellAt.mono (h : CellAt r d x F L H W) (hf : F → G) : CellAt r d x G L H W := by
  cases r with
  | idle => exact Rest.mono h hf
  | sync | deactivate | deleting tried todo => exact h
  | unsync todo kept add | adding kept tried todo => exact SyncCell.mono h hf

/-! ## Requests -/

theorem updateMacList_eq (t : MacTable) (st : AddrState) (x : Mac) : t.updateMacList st x = { t with
    macList := alter (MacNode.request st) x t.macList
    tblChange := t.tblChange || (t.macList.lookup x).isSome || st != .toDel } := by
  dsimp only [updateMacList]
  split
  · next n hn => simp only [hn, Option.isSome_some, Bool.or_true, Bool.true_or]
  next hn =>
  split
  · next hst =>
    subst hst
    unfold alter
    simp [hn, MacNode.request]
  · next hst => simp [hst]

theorem Inv.request {st : AddrState} {b : Bool} (h : Inv t)
    (hx : CellAt t.round (t.isDev x) x ((t.updateMacList st x).tblChange)
      (MacNode.request st (t.macList.lookup x)) (t.hw x) b) :
    Inv { t.updateMacList st x with wanted := update t.wanted x b } := by
  rw [updateMacList_eq] at hx ⊢
  have hf : t.tblChange → (t.tblChange || (t.macList.lookup x).isSome || st != .toDel) :=
    fun h => by simp [h]
  refine ⟨keys_alter _ _ h.nodup, h.lists.mono hf, fun y => ?_⟩
  show CellAt t.round (t.isDev y) y _ ((alter (MacNode.request st) x t.macList).lookup y) (t.hw y)
    (update t.wanted x b y)
  rw [lookup_alter _ h.nodup]
  by_cases hy : y = x
  · rw [if_pos hy, hy, update_self]
    exact hx
  · rw [if_neg hy, update_of_ne hy]
    exact (h.cell y).mono hf

theorem stale_dying {D : Option MacNode} (hs : StalePfc (t.macList.lookup x) D (t.hw x))
    (hD : ∀ n, D = some n → (x, n) ∈ t.tmpDelList) : t.hw x = some true ∧ t.Dying x := by
  obtain ⟨h1, n, h2, h3 | h3⟩ := hs
  · exact ⟨h1, n, h2, .inl (mem_of_lookup h3)⟩
  · exact ⟨h1, n, h2, .inr (hD n h3)⟩

theorem Inv.add (h : Inv t) (ha : t.hw x = some true → ¬ t.Dying x) :
    Inv { t.updateMacList .toAdd x with wanted := update t.wanted x true } := by
  have hf : (t.updateMacList .toAdd x).tblChange := by
    rw [updateMacList_eq]
    simp
  have hno : ∀ D : Option MacNode, (∀ n, D = some n → (x, n) ∈ t.tmpDelList) →
      ¬ StalePfc (t.macList.lookup x) D (t.hw x) := fun D hD hs =>
    ha (stale_dying hs hD).1 (stale_dying hs hD).2
  refine h.request ?_
  have hc := h.cell x
  cases hr : t.round with
  | idle => rw [hr] at hc; exact Rest.add hc (hno none nofun) hf
  | sync | deactivate => rw [hr] at hc; exact Rest.add hc (hno none nofun) trivial
  | unsync todo kept add | adding kept tried todo =>
    rw [hr] at hc
    refine SyncCell.add hc (hno _ fun n hn => ?_) hf
    unfold tmpDelList
    rw [hr]
    exact mem_of_lookup hn
  | deleting tried todo =>
    rw [hr] at hc
    refine DeactCell.add hc (hno _ fun n hn => ?_)
    unfold tmpDelList
    rw [hr]
    exact mem_of_lookup hn

theorem Inv.del (h : Inv t) (hx : t.macAddr ≠ some x) :
    Inv { t.updateMacList .toDel x with wanted := update t.wanted x false } := by
  have hd : t.isDev x = false := by simp [isDev, hx]
  have hf : t.macList.lookup x ≠ none → (t.updateMacList .toDel x).tblChange := fun hl => by
    rw [updateMacList_eq]
    simp [Option.isSome_iff_ne_none.mpr hl]
  have hg : t.tblChange → (t.updateMacList .toDel x).tblChange := fun hl => by
    rw [updateMacList_eq]
    simp [hl]
  refine h.request ?_
  have hc := h.cell x
  cases hr : t.round with
  | idle => rw [hr] at hc; exact Rest.del hc hd hf
  | sync | deactivate => rw [hr] at hc; exact Rest.del hc hd fun _ => trivial
  | unsync todo kept add | adding kept tried todo => rw [hr] at hc; exact SyncCell.del hc hd hf hg
  | deleting tried todo => rw [hr] at hc; exact DeactCell.del hc hd

/-! ## The device address -/

theorem CellAt.rest (h : CellAt r d x F L H W) (hr : r = .idle ∨ r = .sync ∨ r = .deactivate) :
    Rest True d L H W := by
  rcases hr with rfl | rfl | rfl
  · exact Rest.mono h fun _ => trivial
  · exact h
  · exact h

theorem CellAt.ofRest (h : Rest F d L H W) (hr : r = .idle ∨ r = .sync ∨ r = .deactivate) :
    CellAt r d x F L H W := by
  rcases hr with rfl | rfl | rfl
  · exact h
  · exact Rest.mono h fun _ => trivial
  · exact Rest.mono h fun _ => trivial

theorem closed (hr : ¬ t.Open) : t.round = .idle ∨ t.round = .sync ∨ t.round = .deactivate := by
  unfold Open at hr
  split at hr
  · next h => exact .inl h
  · next h => exact .inr (.inl h)
  · next h => exact .inr (.inr h)
  · exact absurd trivial hr

theorem cfg_head (hn : (keys t.macList).Nodup) :
    (keys ((x, (⟨.toAdd, true⟩ : MacNode)) :: onKey (fun _ => none) x t.macList)).Nodup ∧
    ∀ y, List.lookup y ((x, (⟨.toAdd, true⟩ : MacNode)) :: onKey (fun _ => none) x t.macList) =
      if y = x then some ⟨.toAdd, true⟩ else t.macList.lookup y := by
  refine ⟨nodup_cons.mpr ⟨?_, keys_onKey _ _ hn⟩, fun y => ?_⟩
  · rw [← lookup_eq_none, lookup_onKey _ hn, if_pos rfl]
    cases t.macList.lookup x <;> rfl
  · rw [lookup_cons]
    by_cases hy : y = x
    · simp [hy]
    · rw [beq_eq_false_iff_ne.mpr hy, if_neg hy, lookup_onKey _ hn, if_neg hy]

theorem Inv.cfgFinish {hw : Mac → Option Bool} (h : Inv t) (hr : ¬ t.Open) (hx : t.macAddr ≠ some x)
    (h0 : hw x = none) (hne : ∀ y, y ≠ x → hw y = t.hw y) :
    Inv { MacTable.cfgFinish { t with hw := hw } x with wanted := t.cfgWanted x } := by
  have hcl := closed hr
  obtain ⟨hn1, hl1⟩ := cfg_head h.nodup
  have hl : Lists t.round (true) := by
    rcases hcl with he | he | he <;> rw [he] <;> trivial
  have hnew : ∀ y, decide (some x = some y) = decide (y = x) := fun y => by
    simp [eq_comm]
  unfold MacTable.cfgFinish cfgWanted
  cases hm : t.macAddr with
  | none =>
    refine ⟨hn1, hl, fun y => .ofRest ?_ hcl⟩
    show Rest _ (decide (some x = some y)) _ (hw y) (update t.wanted x true y)
    rw [hl1, hnew]
    by_cases hy : y = x
    · rw [if_pos hy, hy, h0, update_self, decide_eq_true rfl]
      exact Rest.cfgNew rfl
    rw [if_neg hy, hne y hy, update_of_ne hy, decide_eq_false hy]
    have hc := (h.cell y).rest hcl
    have hd : t.isDev y = false := by simp [isDev, hm]
    rw [hd] at hc
    exact hc.mono fun _ => rfl
  | some old =>
    have hox : old ≠ x := fun he => hx (he ▸ hm)
    refine ⟨keys_alter _ _ hn1, hl, fun y => .ofRest ?_ hcl⟩
    show Rest _ (decide (some x = some y)) ((alter oldNode old _).lookup y) (hw y)
      (update (update t.wanted old false) x true y)
    rw [lookup_alter _ hn1, hl1, hl1, hnew]
    have hc := (h.cell y).rest hcl
    by_cases hy : y = x
    · rw [if_neg (hy ▸ hox.symm), if_pos hy, hy, h0, update_self, decide_eq_true rfl]
      exact Rest.cfgNew rfl
    rw [hne y hy, update_of_ne hy, decide_eq_false hy]
    by_cases hyo : y = old
    · have hd : t.isDev y := by simp [isDev, hm, hyo]
      rw [hd] at hc
      rw [if_pos hyo, if_neg hox, ← hyo, update_self]
      exact hc.cfgOld rfl
    have hd : t.isDev y = false := by simp [isDev, hm, Ne.symm hyo]
    rw [hd] at hc
    rw [if_neg hyo, if_neg hy, update_of_ne hyo]
    exact hc.mono fun _ => rfl

theorem Inv.cfg {t' : MacTable} {ok : Bool} (h : Inv t) (hr : ¬ t.Open) (hx : t.macAddr ≠ some x)
    (he : t.cfgMacAddress x ok = some t') :
    Inv { t' with wanted := t.cfgWanted x } := by
  have hc := (h.cell x).rest (closed hr)
  unfold cfgMacAddress at he
  split at he
  · next n hn =>
    rw [hn] at hc
    split at he
    · -- the entry of the address is deleted first
      obtain ⟨s, hs, rfl⟩ := Option.map_eq_some_iff.mp he
      unfold delMacAddr at hs
      split at hs
      · cases hs
        exact h.cfgFinish hr hx (update_self ..) fun y hy => update_of_ne hy _ _
      · cases hs
    next hst =>
    rw [not_not] at hst
    cases he
    obtain ⟨st, p⟩ := n
    subst hst
    exact h.cfgFinish hr hx hc.toAdd_none fun _ _ => rfl
  · next hn =>
    rw [hn] at hc
    cases he
    exact h.cfgFinish hr hx hc.none_none fun _ _ => rfl

/-! ## The steps of a round -/

theorem Inv.stepSync (h : Inv t) (hr : t.round = .sync) (ok : Bool) (e : CmdErr) : Inv (t.step ty ok e) := by
  unfold MacTable.step
  rw [hr]
  have hadd : ∀ n ∈ t.macList.filter fun n => n.2.state == .toAdd, n.2.state = .toAdd := fun n hn => by
    simpa using (mem_filter.mp hn).2
  refine ⟨keys_filter (fun n => n.state != .toDel) h.nodup, ⟨?_, ?_, fun hk => absurd rfl hk, hadd⟩, fun y => ?_⟩
  · rw [append_nil]
    exact keys_filter (fun n => n.state == .toDel) h.nodup
  · exact keys_filter (fun n => n.state == .toAdd) h.nodup
  have hc := h.cell y
  rw [hr] at hc
  show SyncCell _ _ _ (List.lookup y (_ ++ [])) _ _ _
  rw [append_nil, lookup_filter (fun n => n.state != .toDel) h.nodup,
    lookup_filter (fun n => n.state == .toDel) h.nodup, lookup_filter (fun n => n.state == .toAdd) h.nodup]
  exact Rest.read hc

theorem Inv.stepDeactivate (h : Inv t) (hr : t.round = .deactivate) (ok : Bool) (e : CmdErr) :
    Inv (t.step ty ok e) := by
  unfold MacTable.step
  rw [hr]
  refine ⟨keys_filter (fun n => n.state != .toDel) h.nodup, ?_, fun y => ?_⟩
  · exact keys_filter (fun n => n.state != .toAdd) h.nodup
  have hc := h.cell y
  rw [hr] at hc
  show DeactCell _ _ (List.lookup y ([] ++ _)) _ _
  rw [nil_append, lookup_filter (fun n => n.state != .toDel) h.nodup,
    lookup_filter (fun n => n.state != .toAdd) h.nodup]
  exact Rest.readDeact hc

theorem delMacAddr_cases (t : MacTable) (x : Mac) (ok : Bool) :
    (t.delMacAddr x ok = none) ∨ (t.hw x).isSome ∧
      t.delMacAddr x ok = some { t with hw := update t.hw x none } := by
  unfold delMacAddr
  split
  · next hc => exact .inr ⟨hc.2, rfl⟩
  · exact .inl rfl

theorem addMacAddr_cases (t : MacTable) (x : Mac) (p ok : Bool) :
    (t.addMacAddr x p ok = none) ∨
      t.addMacAddr x p ok = some { t with hw := update t.hw x (some p) } := by
  unfold addMacAddr
  split
  · exact .inr rfl
  · exact .inl rfl

variable {n : Mac × MacNode} {todo kept : MacList}

theorem Inv.stepUnsync {add : MacList} (h : Inv t)
    (hr : t.round = .unsync (n :: todo) kept add) (ok : Bool) (e : CmdErr) : Inv (t.step ty ok e) := by
  obtain ⟨hn, ha, hk, hs⟩ : Lists (.unsync (n :: todo) kept add) (t.tblChange = true) := hr ▸ h.lists
  have hcell : ∀ y, SyncCell (t.tblChange = true) (t.isDev y) (t.macList.lookup y)
      ((n :: todo ++ kept).lookup y) (add.lookup y) (t.hw y) (t.wanted y) := fun y => by
    have := h.cell y
    rw [hr] at this
    exact this
  unfold MacTable.step
  rw [hr]
  dsimp only
  rcases delMacAddr_cases t n.1 ok with he | ⟨-, he⟩
  · -- refused: the node is kept
    rw [he]
    have hp : (n :: todo ++ kept).Perm (todo ++ (kept ++ [n])) := by
      rw [← append_assoc, cons_append]
      exact (perm_append_singleton n _).symm
    refine ⟨h.nodup, ⟨(hp.map _).nodup_iff.mp hn, ha, fun _ => rfl, hs⟩, fun y => ?_⟩
    show SyncCell _ _ _ ((todo ++ (kept ++ [n])).lookup y) _ _ _
    rw [← lookup_perm hp hn]
    exact (hcell y).mono fun _ => rfl
  rw [he]
  have hx : n.1 ∉ keys (todo ++ kept) := (nodup_cons.mp hn).1
  refine ⟨h.nodup, ⟨(nodup_cons.mp hn).2, ha, hk, hs⟩, fun y => ?_⟩
  show SyncCell _ _ _ ((todo ++ kept).lookup y) _ (update t.hw n.1 none y) _
  have hc := hcell y
  rw [cons_append, lookup_cons] at hc
  by_cases hy : y = n.1
  · rw [hy] at hc ⊢
    rw [update_self, lookup_eq_none.mpr hx]
    simp only [BEq.rfl] at hc
    exact hc.deleted
  rw [beq_eq_false_iff_ne.mpr hy] at hc
  rw [update_of_ne hy]
  exact hc

variable {tried : MacList}

section

variable (h : Inv t)
include h

theorem Inv.stepAdding
    (hr : t.round = .adding kept tried (n :: todo)) (ok : Bool) (e : CmdErr) : Inv (t.step ty ok e) := by
  obtain ⟨hn, ha, hk, ht, hs⟩ : Lists (.adding kept tried (n :: todo)) (t.tblChange = true) := hr ▸ h.lists
  have hcell : ∀ y, SyncCell (t.tblChange = true) (t.isDev y) (t.macList.lookup y)
      (kept.lookup y) ((tried ++ n :: todo).lookup y) (t.hw y) (t.wanted y) := fun y => by
    have := h.cell y
    rw [hr] at this
    exact this
  unfold MacTable.step
  rw [hr]
  dsimp only
  rcases addMacAddr_cases t n.1 n.2.isPfc ok with he | he
  · -- refused: the loop goes on or ends, the node stays as it is
    rw [he]
    by_cases hb : breaks ty e = true
    · rw [if_pos hb]
      refine ⟨h.nodup, ⟨hn, ?_, fun _ => rfl, fun _ _ _ => rfl, nofun⟩, fun y => ?_⟩
      · rw [append_nil]
        exact ha
      · show SyncCell _ _ _ _ (((tried ++ n :: todo) ++ []).lookup y) _ _
        rw [append_nil]
        exact (hcell y).mono fun _ => rfl
    rw [if_neg hb]
    refine ⟨h.nodup, ⟨hn, ?_, fun _ => rfl, fun _ _ _ => rfl,
      fun m hm => hs m (mem_cons_of_mem _ hm)⟩, fun y => ?_⟩
    · rw [append_assoc]
      exact ha
    · show SyncCell _ _ _ _ (((tried ++ [n]) ++ todo).lookup y) _ _
      rw [append_assoc]
      exact (hcell y).mono fun _ => rfl
  rw [he]
  obtain ⟨x, st, p⟩ := n
  have hst : st = .toAdd := hs _ mem_cons_self
  subst hst
  have ha' : (keys (tried ++ (x, (⟨.active, p⟩ : MacNode)) :: todo)).Nodup := by
    simpa [Lib.keys] using ha
  refine ⟨h.nodup, ⟨hn, ?_, hk, fun m hm hms => ?_, fun m hm => hs m (mem_cons_of_mem _ hm)⟩, fun y => ?_⟩
  · rw [append_assoc]
    exact ha'
  · rcases mem_append.mp hm with hm | hm
    · exact ht m hm hms
    · rw [mem_singleton.mp hm] at hms
      cases hms
  show SyncCell _ _ _ _ (((tried ++ [(x, (⟨.active, p⟩ : MacNode))]) ++ todo).lookup y)
    (update t.hw x (some p) y) _
  rw [append_assoc, singleton_append, lookup_middle ha']
  have hc := hcell y
  rw [lookup_middle ha] at hc
  by_cases hy : y = x
  · rw [if_pos hy] at hc ⊢
    rw [hy, update_self]
    rw [hy] at hc
    exact hc.addedHw
  rw [if_neg hy] at hc ⊢
  rw [update_of_ne hy]
  exact hc

theorem Inv.stepMerge (hr : t.round = .adding kept tried [])
    (ok : Bool) (e : CmdErr) : Inv (t.step ty ok e) := by
  obtain ⟨hn, ha, hk, ht, -⟩ : Lists (.adding kept tried []) (t.tblChange = true) := hr ▸ h.lists
  rw [append_nil] at ha
  obtain ⟨n1, l1⟩ := lookup_merge MacNode.fromDel h.nodup hn
  obtain ⟨n2, l2⟩ := lookup_merge MacNode.fromAdd n1 ha
  unfold MacTable.step
  rw [hr]
  refine ⟨n2, trivial, fun y => ?_⟩
  rw [l2, l1]
  have hc := h.cell y
  rw [hr] at hc
  have hc : SyncCell _ _ _ _ ((tried ++ []).lookup y) _ _ := hc
  rw [append_nil] at hc
  refine hc.merge (fun hD => hk fun he => ?_) fun n hA hs => ht _ (mem_of_lookup hA) hs
  rw [he] at hD
  exact hD rfl

theorem Inv.stepDeleting
    (hr : t.round = .deleting tried (n :: todo)) (ok : Bool) (e : CmdErr) : Inv (t.step ty ok e) := by
  have hn : (keys (tried ++ n :: todo)).Nodup := by
    have := h.lists
    rw [hr] at this
    exact this
  have hcell : ∀ y, DeactCell (t.isDev y) (t.macList.lookup y) ((tried ++ n :: todo).lookup y)
      (t.hw y) (t.wanted y) := fun y => by
    have := h.cell y
    rw [hr] at this
    exact this
  unfold MacTable.step
  rw [hr]
  dsimp only
  rcases delMacAddr_cases t n.1 ok with he | ⟨hsome, he⟩
  · rw [he]
    refine ⟨h.nodup, ?_, fun y => ?_⟩
    · show (keys ((tried ++ n :: todo) ++ [])).Nodup
      rw [append_nil]
      exact hn
    · show DeactCell _ _ (((tried ++ n :: todo) ++ []).lookup y) _ _
      rw [append_nil]
      exact hcell y
  rw [he]
  obtain ⟨x, st, p⟩ := n
  have hdel := (lookup_middle (y := x) hn ▸ hcell x :)
  rw [if_pos rfl] at hdel
  have hdel := hdel.deletedHw hsome
  have hother : ∀ y, y ≠ x → DeactCell (t.isDev y) (t.macList.lookup y) ((tried ++ todo).lookup y)
      (t.hw y) (t.wanted y) := fun y hy => by
    have := hcell y
    rw [lookup_middle hn, if_neg hy] at this
    exact this
  -- the copy of an active node is kept as one to add, a node to delete is freed
  have hkeep : ∀ v : MacNode, DeactCell (t.isDev x) (t.macList.lookup x) (some v) none (t.wanted x) →
      Inv { t with
        hw := update t.hw x none
        round := .deleting (tried ++ [(x, v)]) todo } := fun v hv => by
    have hn' : (keys (tried ++ (x, v) :: todo)).Nodup := by
      simpa [Lib.keys] using hn
    refine ⟨h.nodup, ?_, fun y => ?_⟩
    · show (keys ((tried ++ [(x, v)]) ++ todo)).Nodup
      rw [append_assoc]
      exact hn'
    show DeactCell _ _ (((tried ++ [(x, v)]) ++ todo).lookup y) (update t.hw x none y) _
    rw [append_assoc, singleton_append, lookup_middle hn']
    by_cases hy : y = x
    · rw [if_pos hy, hy, update_self]
      exact hv
    · rw [if_neg hy, update_of_ne hy]
      exact hother y hy
  cases st with
  | toAdd | active => exact hkeep _ hdel
  | toDel =>
    have hsub : (keys (tried ++ todo)).Sublist (keys (tried ++ (x, (⟨.toDel, p⟩ : MacNode)) :: todo)) :=
      ((List.Sublist.refl tried).append (sublist_cons_self _ _)).map _
    refine ⟨h.nodup, hn.sublist hsub, fun y => ?_⟩
    show DeactCell _ _ ((tried ++ todo).lookup y) (update t.hw x none y) _
    by_cases hy : y = x
    · have hx : x ∉ keys (tried ++ todo) := by
        have hp : (tried ++ (x, (⟨.toDel, p⟩ : MacNode)) :: todo).Perm ((x, ⟨.toDel, p⟩) :: (tried ++ todo)) :=
          perm_middle
        have := hp.map Prod.fst
        exact (nodup_cons.mp (this.nodup_iff.mp hn)).1
      rw [hy, update_self, lookup_eq_none.mpr hx]
      exact hdel
    · rw [update_of_ne hy]
      exact hother y hy

theorem Inv.stepDeactMerge (hr : t.round = .deleting tried [])
    (ok : Bool) (e : CmdErr) : Inv (t.step ty ok e) := by
  have hn : (keys (tried ++ [])).Nodup := by
    have := h.lists
    rw [hr] at this
    exact this
  rw [append_nil] at hn
  obtain ⟨n1, l1⟩ := lookup_merge MacNode.fromDeact h.nodup hn
  unfold MacTable.step
  rw [hr]
  refine ⟨n1, trivial, fun y => ?_⟩
  rw [l1]
  have hc := h.cell y
  rw [hr] at hc
  have hc : DeactCell _ _ ((tried ++ []).lookup y) _ _ := hc
  rw [append_nil] at hc
  exact hc.merge rfl

theorem Inv.step (ty : MacType) (ok : Bool) (e : CmdErr) : Inv (t.step ty ok e) := by
  cases hr : t.round with
  | idle =>
    unfold MacTable.step
    rw [hr]
    exact h
  | sync => exact h.stepSync hr ok e
  | deactivate => exact h.stepDeactivate hr ok e
  | unsync todo kept add =>
    cases todo with
    | nil =>
      obtain ⟨hn, ha, hk, hs⟩ : Lists (.unsync [] kept add) (t.tblChange = true) := hr ▸ h.lists
      have hcell := h.cell
      rw [hr] at hcell
      unfold MacTable.step
      rw [hr]
      exact ⟨h.nodup, ⟨hn, ha, hk, nofun, hs⟩, hcell⟩
    | cons n todo => exact h.stepUnsync hr ok e
  | adding kept tried todo =>
    cases todo with
    | nil => exact h.stepMerge hr ok e
    | cons n todo => exact h.stepAdding hr ok e
  | deleting tried todo =>
    cases todo with
    | nil => exact h.stepDeactMerge hr ok e
    | cons n todo => exact h.stepDeleting hr ok e

theorem Inv.start {r : MacRound} {b c : Bool} (hi : t.round = .idle)
    (hr : r = .sync ∨ r = .deactivate) : Inv { t with tblChange := b, deactivated := c, round := r } := by
  have hcell := h.cell
  rw [hi] at hcell
  rcases hr with rfl | rfl
  · exact ⟨h.nodup, trivial, fun y => Rest.mono (hcell y) fun _ => trivial⟩
  · exact ⟨h.nodup, trivial, fun y => Rest.mono (hcell y) fun _ => trivial⟩

theorem Inv.syncStart : Inv t.syncStart := by
  unfold MacTable.syncStart
  split
  · next hi =>
    split
    · exact h
    · exact h.start hi (.inl rfl)
  · exact h

theorem Inv.act {a : Act} (ha : Apart t a) : Inv (t.act ty a) := by
  cases a with
  | add x => exact h.add ha
  | del x =>
    show Inv (if t.macAddr = some x then t else _)
    split
    · exact h
    · next hx => exact h.del hx
  | cfg x ok =>
    show Inv (if t.macAddr = some x then t else _)
    split
    · exact h
    next hx =>
    split
    · exact h
    · next t' he => exact h.cfg ha hx he
  | setBit => exact ⟨h.nodup, h.lists.mono fun _ => rfl, fun y => (h.cell y).mono fun _ => rfl⟩
  | syncStart => exact h.syncStart
  | deactivateStart =>
    show Inv t.deactivateStart
    unfold MacTable.deactivateStart
    split
    · next hi =>
      split
      · exact h
      · exact h.start hi (.inr rfl)
    · exact h
  | activateStart =>
    show Inv t.activateStart
    unfold MacTable.activateStart
    split
    · next hi =>
      split
      · exact h.start hi (.inl rfl)
      · exact h
    · exact h
  | activateSkip =>
    show Inv t.activateSkip
    unfold MacTable.activateSkip
    split
    · exact ⟨h.nodup, h.lists, h.cell⟩
    · exact h
  | step ok e => exact h.step ty ok e

end

theorem Inv.init : Inv MacTable.init := ⟨nodup_nil, trivial, fun _ => Rest.absent rfl⟩

end MacTable

end UbDkms.Unic
