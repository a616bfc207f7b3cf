import UbDkms.Unic.MacInv

/-!
# The MAC table converges

A sync round without requests, all of whose commands succeed, ends with every node
active, and what is left of `Rest` then says that the hardware table is the list.
-/

namespace UbDkms.Unic

open Lib List

namespace MacTable

variable {t : MacTable} {ty : MacType} {e : CmdErr}

/-- A sync round without requests so far, in which no command failed. -/
def Quiet (t : MacTable) : Prop :=
  match t.round with
  | .idle => ∀ n ∈ t.macList, n.2.state = .active
  | .sync => True
  | .unsync _ kept add => kept = [] ∧ (∀ n ∈ add, n.1 ∈ keys t.macList) ∧
    ∀ n ∈ t.macList, n.2.state = .active ∨ n.2.state = .toAdd ∧ n.1 ∈ keys add
  | .adding kept tried todo => kept = [] ∧ (∀ n ∈ tried, n.2.state = .active) ∧
    (∀ n ∈ tried ++ todo, n.1 ∈ keys t.macList) ∧
    ∀ n ∈ t.macList, n.2.state = .active ∨ n.2.state = .toAdd ∧ n.1 ∈ keys (tried ++ todo)
  | _ => False

def Ends (ty : MacType) (t : MacTable) : Prop :=
  ∃ n, let t' := (fun t => step ty t true .other)^[n] t
    t'.round = .idle ∧ Inv t' ∧ Quiet t' ∧ t'.wanted = t.wanted ∧ t'.macAddr = t.macAddr

theorem step_requests (t : MacTable) (ty : MacType) (ok : Bool) (e : CmdErr) : (t.step ty ok e).wanted =
    t.wanted ∧
    (t.step ty ok e).macAddr = t.macAddr := by
  unfold step
  split
  · exact ⟨rfl, rfl⟩
  · exact ⟨rfl, rfl⟩
  · exact ⟨rfl, rfl⟩
  · next n _ _ _ _ =>
    rcases delMacAddr_cases t n.1 ok with he | ⟨-, he⟩ <;> rw [he] <;> exact ⟨rfl, rfl⟩
  · exact ⟨rfl, rfl⟩
  · next n _ _ =>
    rcases addMacAddr_cases t n.1 n.2.isPfc ok with he | he <;> rw [he] <;> exact ⟨rfl, rfl⟩
  · exact ⟨rfl, rfl⟩
  · next n _ _ =>
    rcases delMacAddr_cases t n.1 ok with he | ⟨-, he⟩ <;> rw [he] <;> exact ⟨rfl, rfl⟩
  · exact ⟨rfl, rfl⟩

theorem Ends.of_step (h : Ends ty (t.step ty true .other)) : Ends ty t := by
  obtain ⟨n, h1, h2, h3, h4, h5⟩ := h
  obtain ⟨hw, hm⟩ := step_requests t ty true .other
  exact ⟨n + 1, h1, h2, h3, h4.trans hw, h5.trans hm⟩

theorem Ends.merge {kept tried : MacList} (h : Inv t) (hq : Quiet t) (hr : t.round = .adding kept tried []) :
    Ends ty t := by
  have hinv := h.step ty true .other
  obtain ⟨rfl, hact, hkey, hlist⟩ : kept = [] ∧ (∀ n ∈ tried, n.2.state = .active) ∧
      (∀ n ∈ tried ++ [], n.1 ∈ keys t.macList) ∧
      ∀ n ∈ t.macList, n.2.state = .active ∨ n.2.state = .toAdd ∧ n.1 ∈ keys (tried ++ []) := by
    unfold Quiet at hq
    rw [hr] at hq
    exact hq
  obtain ⟨-, ha, -⟩ : Lists (.adding [] tried []) (t.tblChange = true) := hr ▸ h.lists
  rw [append_nil] at ha hkey hlist
  obtain ⟨-, l2⟩ := lookup_merge MacNode.fromAdd h.nodup ha
  obtain ⟨hw, hm⟩ := step_requests t ty true .other
  refine ⟨1, ?_, hinv, ?_, hw, hm⟩
  · show (t.step ty true .other).round = .idle
    unfold MacTable.step
    rw [hr]
  show Quiet (t.step ty true .other)
  have hnd := hinv.nodup
  unfold MacTable.step at hnd ⊢
  rw [hr] at hnd ⊢
  intro n hn
  have hl := lookup_of_mem hnd hn
  have hl : mergeAt MacNode.fromAdd (tried.lookup n.1) (t.macList.lookup n.1) = some n.2 :=
    (l2 n.1).symm.trans hl
  cases htr : tried.lookup n.1 with
  | none =>
    rw [htr] at hl
    rcases hlist n (mem_of_lookup hl) with ha | ⟨-, hk⟩
    · exact ha
    · exact absurd hk (lookup_eq_none.mp htr)
  | some v =>
    have hv : v.state = .active := hact _ (mem_of_lookup htr)
    obtain ⟨m, hm⟩ := Option.ne_none_iff_exists'.mp fun hno =>
      lookup_eq_none.mp hno (hkey _ (mem_of_lookup htr))
    rw [htr, hm] at hl
    have hl : m.commUpdate v.state = some n.2 := hl
    rw [hv] at hl
    obtain ⟨st, p⟩ := m
    rcases hlist _ (mem_of_lookup hm) with ha | ⟨ha, -⟩
    · dsimp only at ha
      subst ha
      exact (congrArg MacNode.state (Option.some.inj hl)).symm
    dsimp only at ha
    subst ha
    exact (congrArg MacNode.state (Option.some.inj hl)).symm

theorem Ends.adding {tried todo : MacList} (h : Inv t) (hq : Quiet t) (hr : t.round = .adding [] tried todo) :
    Ends ty t := by
  induction todo generalizing t tried with
  | nil => exact .merge h hq hr
  | cons n todo ih =>
    obtain ⟨-, ha, -, -, hs⟩ : Lists (.adding [] tried (n :: todo)) (t.tblChange = true) := hr ▸ h.lists
    obtain ⟨-, hact, hkey, hlist⟩ : ([] : MacList) = [] ∧ (∀ n ∈ tried, n.2.state = .active) ∧
        (∀ m ∈ tried ++ n :: todo, m.1 ∈ keys t.macList) ∧
        ∀ m ∈ t.macList, m.2.state = .active ∨ m.2.state = .toAdd ∧ m.1 ∈ keys (tried ++ n :: todo) := by
      unfold Quiet at hq
      rw [hr] at hq
      exact hq
    have hinv := h.step ty true .other
    obtain ⟨x, st, p⟩ := n
    have hst : st = .toAdd := hs _ mem_cons_self
    subst hst
    -- the hardware has no entry for the node yet
    have hnone : t.hw x = none := by
      have hc := h.cell x
      rw [hr] at hc
      have hc : SyncCell _ _ _ _ ((tried ++ (x, ⟨.toAdd, p⟩) :: todo).lookup x) _ _ := hc
      rw [lookup_middle ha, if_pos rfl] at hc
      exact hc.add_isNone
    have hkeys : keys (tried ++ [(x, (⟨.active, p⟩ : MacNode))] ++ todo) =
        keys (tried ++ (x, (⟨.toAdd, p⟩ : MacNode)) :: todo) := by
      simp [Lib.keys]
    have he : t.step ty true .other = { t with
        hw := Function.update t.hw x (some p)
        round := .adding [] (tried ++ [(x, ⟨.active, p⟩)]) todo } := by
      unfold MacTable.step
      rw [hr]
      simp [addMacAddr, hnone]
    refine .of_step (ih hinv ?_ (show _ = MacRound.adding [] (tried ++ [(x, ⟨.active, p⟩)]) todo by rw [he]))
    rw [he]
    refine ⟨rfl, fun m hm => ?_, fun m hm => ?_, fun m hm => ?_⟩
    · rcases mem_append.mp hm with hm | hm
      · exact hact m hm
      · rw [mem_singleton.mp hm]
    · have hm : m.1 ∈ keys (tried ++ (x, (⟨.toAdd, p⟩ : MacNode)) :: todo) :=
        hkeys ▸ mem_map.mpr ⟨m, hm, rfl⟩
      obtain ⟨m', hm', hfst⟩ := mem_map.mp hm
      exact hfst ▸ hkey m' hm'
    · rw [hkeys]
      exact hlist m hm

theorem Ends.unsync {todo add : MacList} (h : Inv t) (hq : Quiet t) (hr : t.round = .unsync todo [] add) :
    Ends ty t := by
  induction todo generalizing t with
  | nil =>
    obtain ⟨-, hkey, hlist⟩ : ([] : MacList) = [] ∧ (∀ n ∈ add, n.1 ∈ keys t.macList) ∧
        ∀ n ∈ t.macList, n.2.state = .active ∨ n.2.state = .toAdd ∧ n.1 ∈ keys add := by
      unfold Quiet at hq
      rw [hr] at hq
      exact hq
    have hinv := h.step ty true .other
    have he : t.step ty true .other = { t with round := .adding [] [] add } := by
      unfold MacTable.step
      rw [hr]
    refine .of_step (.adding hinv ?_ (show _ = MacRound.adding [] [] add by rw [he]))
    rw [he]
    exact ⟨rfl, nofun, hkey, hlist⟩
  | cons n todo ih =>
    have hinv := h.step ty true .other
    -- the hardware still has the entry of the node
    have hsome : (t.hw n.1).isSome := by
      have hc := h.cell n.1
      rw [hr] at hc
      have hc : SyncCell _ _ _ ((n :: todo ++ []).lookup n.1) _ _ _ := hc
      rw [cons_append, lookup_cons_self] at hc
      exact hc.del_isSome
    have he : t.step ty true .other = { t with
        hw := Function.update t.hw n.1 none
        round := .unsync todo [] add } := by
      unfold MacTable.step
      rw [hr]
      simp [delMacAddr, hsome]
    refine .of_step (ih hinv ?_ (by rw [he]))
    rw [he]
    unfold Quiet at hq ⊢
    rw [hr] at hq
    exact hq

theorem Ends.sync (ty : MacType) (h : Inv t) (hr : t.round = .sync) : Ends ty t := by
  have hinv := h.step ty true .other
  have he : t.step ty true .other = { t with
      macList := t.macList.filter fun n => n.2.state != .toDel
      round := .unsync (t.macList.filter fun n => n.2.state == .toDel) []
        (t.macList.filter fun n => n.2.state == .toAdd) } := by
    unfold MacTable.step
    rw [hr]
  refine .of_step (.unsync hinv ?_ (show _ = MacRound.unsync (t.macList.filter fun n => n.2.state == .toDel) []
    (t.macList.filter fun n => n.2.state == .toAdd) by rw [he]))
  rw [he]
  refine ⟨rfl, fun n hn => ?_, fun n hn => ?_⟩
  · obtain ⟨h1, h2⟩ := mem_filter.mp hn
    refine mem_map.mpr ⟨n, mem_filter.mpr ⟨h1, ?_⟩, rfl⟩
    rw [beq_iff_eq] at h2
    rw [h2]
    rfl
  · obtain ⟨h1, h2⟩ := mem_filter.mp hn
    cases hst : n.2.state with
    | active => exact .inl rfl
    | toDel => rw [hst] at h2; cases h2
    | toAdd => exact .inr ⟨rfl, mem_map.mpr ⟨n, mem_filter.mpr ⟨h1, by rw [hst]; rfl⟩, rfl⟩⟩

theorem Inv.settled (h : Inv t) (hi : t.round = .idle) (ha : ∀ n ∈ t.macList, n.2.state = .active) :
    Settled t := by
  have hcell : ∀ x, Rest (t.tblChange) (t.isDev x) (t.macList.lookup x) (t.hw x) (t.wanted x) :=
    fun x => by
      have := h.cell x
      rw [hi] at this
      exact this
  -- an address has no node or an active one
  have hcase : ∀ x, (t.macList.lookup x = none ∧ t.hw x = none ∧ t.wanted x = false ∧ t.isDev x = false) ∨
      (t.macList.lookup x = some ⟨.active, t.isDev x⟩ ∧ t.hw x = some (t.isDev x) ∧ t.wanted x = true) :=
    fun x => by
      have hl : ∀ n, t.macList.lookup x = some n → n.state = .active := fun n hn => ha _ (mem_of_lookup hn)
      have hc := hcell x
      generalize t.macList.lookup x = L at hl hc ⊢
      generalize t.hw x = H at hc ⊢
      generalize t.wanted x = W at hc ⊢
      cases hc with
      | absent hd => exact .inl ⟨rfl, rfl, rfl, hd⟩
      | toAdd | toDel => cases hl _ rfl
      | active => exact .inr ⟨rfl, rfl, rfl⟩
  refine ⟨h.nodup, ha, fun x => ?_, fun x p => ?_, fun x hx => ?_⟩
  · rcases hcase x with ⟨-, h2, h3, -⟩ | ⟨-, h2, h3⟩ <;> rw [h2, h3] <;> rfl
  · rw [← lookup_iff h.nodup]
    rcases hcase x with ⟨h1, h2, -, -⟩ | ⟨h1, h2, -⟩
    · rw [h1, h2]
      exact ⟨nofun, nofun⟩
    · rw [h1, h2]
      simp
  · have hd : t.isDev x := decide_eq_true hx
    rcases hcase x with ⟨-, -, -, h4⟩ | ⟨-, h2, -⟩
    · rw [hd] at h4
      cases h4
    · rw [h2, hd]

/-- In every run in which a former device address is not requested again before it was
deleted and the device address is not changed while a round is open: one further sync
round with successful commands puts the requests into the hardware table. -/
theorem table_converges (hs : Reach Apart (MacTable.act ty) MacTable.init t) (hi : t.round = .idle)
    (hd : t.deactivated = false) : ∃ n, (t.syncRound ty n).round = .idle ∧ Settled (t.syncRound ty n) ∧
      (t.syncRound ty n).wanted = t.wanted ∧ (t.syncRound ty n).macAddr = t.macAddr := by
  have h := hs.invariant (I := Inv) Inv.init fun s a h ha => h.act ha
  have hround : ∀ n, t.syncRound ty n = (fun t => step ty t true .other)^[n] t.syncStart := fun n => by
    induction n with
    | zero => rfl
    | succ n ih => rw [Function.iterate_succ_apply', ← ih]; rfl
  cases hc : t.tblChange with
  | false =>
    -- nothing to do: without the flag every node is active
    have hstart : t.syncStart = t := by
      unfold syncStart
      rw [hi]
      simp [hc]
    refine ⟨0, ?_⟩
    show t.syncStart.round = _ ∧ Settled t.syncStart ∧ _
    rw [hstart]
    refine ⟨hi, h.settled hi fun n hn => ?_, ?_, ?_⟩
    · have hcell := h.cell n.1
      rw [hi, hc, lookup_of_mem h.nodup hn] at hcell
      obtain ⟨x, v⟩ := n
      have hcell : Rest (false) (t.isDev x) (some v) (t.hw x) (t.wanted x) := hcell
      generalize t.hw x = H at hcell
      generalize t.wanted x = W at hcell
      cases hcell with
      | toAdd hf | toDel hf => cases hf
      | active => rfl
    · show t.syncStart.wanted = t.wanted
      rw [hstart]
    · show t.syncStart.macAddr = t.macAddr
      rw [hstart]
  | true =>
    have hstart : t.syncStart = { t with tblChange := false, round := .sync } := by
      unfold syncStart
      rw [hi]
      simp [hc, hd]
    obtain ⟨n, h1, h2, h3, h4, h5⟩ := Ends.sync ty h.syncStart (by rw [hstart])
    refine ⟨n, ?_⟩
    rw [hround n]
    refine ⟨h1, h2.settled h1 ?_, h4.trans (by rw [hstart]), h5.trans (by rw [hstart])⟩
    have hq := h3
    unfold Quiet at hq
    rw [h1] at hq
    exact hq

def twoRequests : List Act := [.cfg 1 true, .add 2]

theorem twoRequests_along : Reach.Along Apart (MacTable.act .uc) MacTable.init twoRequests :=
  ⟨id, fun h => absurd h (by decide +kernel), trivial⟩

theorem table_converges_twoRequests : ∃ n,
    Settled ((twoRequests.foldl (MacTable.act .uc) MacTable.init).syncRound .uc n) :=
  have ⟨n, _, h, _⟩ := table_converges (Reach.init.along twoRequests_along) rfl rfl
  ⟨n, h⟩

/-- A device address in the hardware, given up and requested again: the entry keeps the
flag that its node has lost. -/
def readded : List Act :=
  [.cfg 1 true, .syncStart, .step true .other, .step true .other, .step true .other, .step true .other,
    .cfg 2 true, .add 1]

theorem readded_unsettled : ∃ t, Reach (fun _ _ => True) (MacTable.act .uc) MacTable.init t ∧
    t.round = .idle ∧ t.deactivated = false ∧ ∃ n, (t.syncRound .uc n).round = .idle ∧
      (∀ x ∈ (t.syncRound .uc n).macList, x.2.state = .active) ∧ ¬ Settled (t.syncRound .uc n) :=
  ⟨readded.foldl (MacTable.act .uc) MacTable.init, .foldl _, by decide +kernel, by decide +kernel, 5,
    by decide +kernel, by decide +kernel, fun h => by
      have := (h.pfc 1 true).mp (by decide +kernel)
      revert this
      decide +kernel⟩

end MacTable

end UbDkms.Unic
