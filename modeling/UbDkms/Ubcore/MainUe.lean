import UbDkms.Ubcore.Trie
import UbDkms.Lib.Reach
import Mathlib.Data.Set.Card

/-!
# The main UE EID map

`ubcore_main_ue_eid.c`: a trie from EIDs to their main UE EID, a reference count
for each main UE EID, and the events its first and last reference emit. The hash
table of the references is a list of records, one for each main UE EID; the
order in which a flush visits them does not matter to any one of them.
-/

namespace UbDkms.Ubcore

open Lib List

/-- `enum ubcore_main_ue_eid_event_type`. -/
inductive EventType where
  | firstAdd | lastDel
  deriving DecidableEq, Repr

/-- A `struct ubcore_main_ue_eid_ref`: the EID and its `refcnt`. -/
abbrev Refs := List (Eid × Nat)

structure MainUe where
  trie : EidTrie
  refs : Refs
  events : List (Eid × EventType)

/-- The outcomes of the allocations of an insert: of the new reference, of the trie's leaf
and second node, and of the old reference when it is taken back. -/
structure Allocs where
  refOk : Bool := true
  leafOk : Bool := true
  nodeOk : Bool := true
  rollbackOk : Bool := true

/-- `ubcore_eid_is_zero`. -/
def eidIsZero (eid : Eid) : Bool := decide (∀ i, eid i = 0)

/-- `ubcore_find_main_ue_eid_ref`. -/
def findRef (refs : Refs) (m : Eid) : Option Nat := refs.lookup m

def setRef (refs : Refs) (m : Eid) (n : Nat) : Refs := refs.map fun r => if r.1 = m then (m, n) else r

/-- `ubcore_inc_main_ue_eid_ref_locked`: result, `is_first` and the references. -/
def incRef (refs : Refs) (m : Eid) (alloc : Bool) : Ret × Bool × Refs :=
  match findRef refs m with
  | some n => (none, false, setRef refs m ((n + 1) % 2 ^ 32))
  | none => if alloc then (none, true, (m, 1) :: refs) else (some .enomem, false, refs)

/-- `ubcore_dec_main_ue_eid_ref_locked`: result, `is_last` and the references. -/
def decRef (refs : Refs) (m : Eid) : Ret × Bool × Refs :=
  match findRef refs m with
  | none => (some .enoent, false, refs)
  | some n =>
    if n = 0 then (some .enoent, false, refs)
    else if n - 1 ≠ 0 then (none, false, setRef refs m (n - 1))
    else (none, true, refs.filter fun r => r.1 ≠ m)

def notify (m : Eid) (type : EventType) (cond : Bool) : List (Eid × EventType) :=
  if cond then [(m, type)] else []

def dropOld (refs : Refs) : Option Eid → Ret × Bool × Refs
  | none => (none, false, refs)
  | some old => decRef refs old

def takeBack (refs : Refs) (alloc : Bool) : Option Eid → Refs
  | none => refs
  | some old => (incRef refs old alloc).2.2

def notifyOld (last : Bool) : Option Eid → List (Eid × EventType)
  | none => []
  | some old => notify old .lastDel last

/-- `ubcore_insert_main_ue_eid`. -/
def insertMainUeEid (s : MainUe) (eid m : Eid) (al : Allocs) : Ret × MainUe :=
  if eidIsZero eid then (some .einval, s)
  else if eidIsZero m then (some .einval, s)
  else if s.trie.lookup eid = some m then (none, s)
  else
    let old := s.trie.lookup eid
    match dropOld s.refs old with
    | (some e, _, refs) => (some e, { s with refs := refs })
    | (none, oldIsLast, refs) =>
      match incRef refs m al.refOk with
      | (some e, _, refs) => (some e, { s with refs := takeBack refs al.rollbackOk old })
      | (none, newIsFirst, refs) =>
        match s.trie.insert eid m al.leafOk al.nodeOk with
        | (some e, trie) =>
          (some e, { s with trie := trie, refs := takeBack (decRef refs m).2.2 al.rollbackOk old })
        | (none, trie) =>
          (none, ⟨trie, refs, s.events ++ notifyOld oldIsLast old ++ notify m .firstAdd newIsFirst⟩)

/-- `ubcore_delete_main_ue_eid`. -/
def deleteMainUeEid (s : MainUe) (eid : Eid) : Ret × MainUe :=
  if eidIsZero eid then (some .einval, s)
  else
    match s.trie.lookup eid with
    | none => (some .enoent, s)
    | some m =>
      match s.trie.delete eid with
      | (some e, trie) => (some e, { s with trie := trie })
      | (none, trie) =>
        match decRef s.refs m with
        | (some e, _, refs) => (some e, { s with trie := trie, refs := refs })
        | (none, isLast, refs) => (none, ⟨trie, refs, s.events ++ notify m .lastDel isLast⟩)

/-- `ubcore_flush_main_ue_eid`. -/
def flushMainUeEid (s : MainUe) : MainUe :=
  ⟨.null, [], s.events ++ s.refs.flatMap fun r => notify r.1 .lastDel (decide (0 < r.2))⟩

/-! ## Counting the EIDs of a main UE EID -/

section Card

variable {f : Eid → Option Eid} {e m x : Eid}

noncomputable def eidCount (f : Eid → Option Eid) (m : Eid) : Nat := {e | f e = some m}.ncard

instance finiteUInt8 : Finite UInt8 := Finite.of_injective UInt8.toFin fun _ _ h => UInt8.toFin_inj.mp h

theorem eidCount_add (h : f e = none) :
    eidCount (fun k => if k = e then some m else f k) x = eidCount f x + if x = m then 1 else 0 := by
  unfold eidCount
  by_cases hx : x = m
  · subst hx
    rw [if_pos rfl, ← Set.ncard_insert_of_notMem (a := e) (by simp [h]) (Set.toFinite _)]
    congr 1
    ext k
    by_cases hk : k = e <;> simp [hk]
  rw [if_neg hx, Nat.add_zero]
  congr 1
  ext k
  by_cases hk : k = e
  · subst hk; simp [h, Ne.symm hx]
  · simp [hk]

theorem eidCount_remove (h : f e = some m) :
    eidCount (fun k => if k = e then none else f k) x + (if x = m then 1 else 0) = eidCount f x := by
  rw [← eidCount_add (by simp : (fun k => if k = e then none else f k) e = none)]
  congr 1
  funext k
  by_cases hk : k = e
  · subst hk; simp [h]
  · simp [hk]

theorem eidCount_pos_iff : 0 < eidCount f m ↔ ∃ e, f e = some m := by
  unfold eidCount
  rw [Set.ncard_pos (Set.toFinite _)]
  exact Iff.rfl

end Card

/-! ## References -/

structure Counts (refs : Refs) (cnt : Eid → Nat) : Prop where
  keys : (refs.map Prod.fst).Nodup
  find : ∀ m, findRef refs m = if cnt m = 0 then none else some (cnt m)
  lt : ∀ m, cnt m < 2 ^ 32

section Refs

variable {refs : Refs} {cnt cnt' : Eid → Nat} {m k : Eid} {n : Nat} {alloc : Bool}

theorem findRef_setRef : findRef (setRef refs m n) k =
    if k = m then (findRef refs m).map fun _ => n else findRef refs k := by
  unfold findRef setRef
  induction refs with
  | nil => simp
  | cons r refs ih =>
    obtain ⟨a, c⟩ := r
    rw [map_cons, lookup_cons, lookup_cons, lookup_cons]
    by_cases ha : a = m
    · subst ha
      by_cases hk : k = a
      · subst hk; simp
      · simp only [if_true, beq_eq_false_iff_ne.mpr hk, if_neg hk] at ih ⊢
        exact ih
    by_cases hk : k = a
    · subst hk; simp [ha]
    by_cases hm : m = a
    · exact absurd hm.symm ha
    · simp only [if_neg ha, beq_eq_false_iff_ne.mpr hk, beq_eq_false_iff_ne.mpr hm]
      exact ih

theorem findRef_drop : findRef (refs.filter fun r => r.1 ≠ m) k =
    if k = m then none else findRef refs k := by
  unfold findRef
  induction refs with
  | nil => simp
  | cons r refs ih =>
    obtain ⟨a, c⟩ := r
    rw [filter_cons]
    by_cases ha : a = m
    · subst ha
      simp only [ne_eq, not_true_eq_false, decide_false, Bool.false_eq_true, if_false]
      by_cases hk : k = a
      · subst hk
        simpa using ih
      · rw [lookup_cons, beq_eq_false_iff_ne.mpr hk]
        exact ih
    simp only [ne_eq, ha, not_false_eq_true, decide_true, if_true]
    rw [lookup_cons, lookup_cons]
    by_cases hk : k = a
    · subst hk; simp [ha]
    · rw [beq_eq_false_iff_ne.mpr hk]
      exact ih

theorem setRef_keys : (setRef refs m n).map Prod.fst = refs.map Prod.fst := by
  unfold setRef
  rw [map_map]
  refine map_congr_left fun r _ => ?_
  by_cases h : r.1 = m
  · simp [h]
  · simp [h]

theorem Counts.congr (h : Counts refs cnt) (he : ∀ m, cnt' m = cnt m) : Counts refs cnt' := by
  rwa [show cnt' = cnt from funext he]

theorem not_mem_keys (h : findRef refs m = none) : m ∉ refs.map Prod.fst := by
  intro hc
  obtain ⟨r, hr, rfl⟩ := mem_map.mp hc
  exact absurd (lookup_eq_none_iff.mp h r hr) (by simp)

theorem Counts.inc (alloc : Bool) (h : Counts refs cnt) (hlt : cnt m + 1 < 2 ^ 32)
    (ha : cnt m = 0 → alloc) :
    ∃ refs', incRef refs m alloc = (none, decide (cnt m = 0), refs') ∧
      Counts refs' fun x => cnt x + if x = m then 1 else 0 := by
  have hf := h.find m
  have hlt' : ∀ x, cnt x + (if x = m then 1 else 0) < 2 ^ 32 := fun x => by
    split
    · next hx => rwa [hx]
    · exact h.lt x
  unfold incRef
  by_cases h0 : cnt m = 0
  · rw [if_pos h0] at hf
    rw [hf, ha h0, decide_eq_true h0]
    refine ⟨(m, 1) :: refs, rfl, ⟨nodup_cons.mpr ⟨not_mem_keys hf, h.keys⟩, fun x => ?_, hlt'⟩⟩
    unfold findRef
    rw [lookup_cons]
    by_cases hx : x = m
    · subst hx; simp [h0]
    · rw [beq_eq_false_iff_ne.mpr hx, if_neg hx, Nat.add_zero]
      exact h.find x
  rw [if_neg h0] at hf
  rw [hf, decide_eq_false h0]
  refine ⟨setRef refs m ((cnt m + 1) % 2 ^ 32), rfl,
    ⟨by rw [setRef_keys]; exact h.keys, fun x => ?_, hlt'⟩⟩
  rw [findRef_setRef, hf, Nat.mod_eq_of_lt hlt]
  by_cases hx : x = m
  · subst hx; simp
  · simpa [hx] using h.find x

theorem Counts.inc_fail (h : Counts refs cnt) (h0 : cnt m = 0) :
    incRef refs m false = (some .enomem, false, refs) := by
  have hf := h.find m
  rw [if_pos h0] at hf
  unfold incRef
  rw [hf]
  rfl

theorem Counts.dec (cnt' : Eid → Nat) (h : Counts refs cnt) (hpos : cnt m ≠ 0)
    (he : ∀ x, cnt' x + (if x = m then 1 else 0) = cnt x) :
    ∃ refs', decRef refs m = (none, decide (cnt m = 1), refs') ∧ Counts refs' cnt' := by
  have hf := h.find m
  rw [if_neg hpos] at hf
  have hm := he m
  rw [if_pos rfl] at hm
  have hlt' : ∀ x, cnt' x < 2 ^ 32 := fun x => by
    have := he x
    have := h.lt x
    omega
  unfold decRef
  rw [hf]
  dsimp only
  rw [if_neg hpos]
  by_cases h1 : cnt m = 1
  · rw [if_neg (by omega)]
    rw [decide_eq_true h1]
    refine ⟨refs.filter fun r => r.1 ≠ m, rfl, ⟨?_, fun x => ?_, hlt'⟩⟩
    · exact h.keys.sublist (filter_sublist.map _)
    rw [findRef_drop]
    have hx' := he x
    by_cases hx : x = m
    · subst hx
      rw [if_pos rfl, if_pos (by omega)]
    · rw [if_neg hx] at hx' ⊢
      rw [h.find x, show cnt' x = cnt x by omega]
  rw [if_pos (by omega)]
  rw [decide_eq_false h1]
  refine ⟨setRef refs m (cnt m - 1), rfl, ⟨by rw [setRef_keys]; exact h.keys, fun x => ?_, hlt'⟩⟩
  rw [findRef_setRef, hf]
  have hx' := he x
  by_cases hx : x = m
  · subst hx
    rw [if_pos rfl, if_neg (by omega), Option.map_some]
    exact congrArg some (by omega)
  · rw [if_neg hx] at hx' ⊢
    rw [h.find x, show cnt' x = cnt x by omega]

theorem Counts.dropOld {old : Option Eid} (h : Counts refs cnt)
    (he : ∀ x, cnt' x + (if old = some x then 1 else 0) = cnt x) :
    ∃ last refs', dropOld refs old = (none, last, refs') ∧ Counts refs' cnt' ∧
      ∀ o, old = some o → last = decide (cnt' o = 0) := by
  cases old with
  | none => exact ⟨false, refs, rfl, h.congr fun m => by simpa using he m, nofun⟩
  | some o =>
    have ho := he o
    rw [if_pos rfl] at ho
    obtain ⟨refs', heq, hc⟩ := h.dec (m := o) cnt' (by omega) fun x => by
      have hx := he x
      by_cases hxo : x = o
      · rw [if_pos hxo]; rwa [if_pos (by rw [hxo])] at hx
      · rw [if_neg hxo]; rwa [if_neg fun hc => hxo (Option.some.inj hc).symm] at hx
    refine ⟨_, refs', heq, hc, fun x hx => ?_⟩
    obtain rfl := Option.some.inj hx
    exact decide_eq_decide.mpr (by omega)

theorem Counts.takeBack {old : Option Eid} (h : Counts refs cnt') (hlt : ∀ x, cnt x < 2 ^ 32)
    (he : ∀ x, cnt' x + (if old = some x then 1 else 0) = cnt x)
    (ha : ∀ o, old = some o → cnt' o = 0 → alloc) : Counts (takeBack refs alloc old) cnt := by
  cases old with
  | none => exact h.congr fun m => by simpa using (he m).symm
  | some o =>
    have ho := he o
    rw [if_pos rfl] at ho
    have hlto := hlt o
    obtain ⟨refs', heq, hc⟩ := h.inc alloc (by omega) (ha o rfl)
    dsimp only [Ubcore.takeBack]
    rw [heq]
    refine hc.congr fun x => ?_
    rw [← he x]
    by_cases hxo : x = o
    · rw [if_pos hxo, if_pos (by rw [hxo])]
    · rw [if_neg hxo, if_neg fun hc => hxo (Option.some.inj hc).symm]

end Refs

/-! ## Events -/

/-- Events that alternate from a first add on; the flag says whether the last is one. -/
inductive Alternates : List EventType → Bool → Prop where
  | nil : Alternates [] false
  | add {es : List EventType} : Alternates es false → Alternates (es ++ [.firstAdd]) true
  | del {es : List EventType} : Alternates es true → Alternates (es ++ [.lastDel]) false

def eventsOf (events : List (Eid × EventType)) (m : Eid) : List EventType :=
  (events.filter fun e => e.1 = m).map Prod.snd

section Events

variable {evs evs' : List (Eid × EventType)} {m x : Eid} {type : EventType} {b : Bool}

theorem eventsOf_append : eventsOf (evs ++ evs') m = eventsOf evs m ++ eventsOf evs' m := by
  unfold eventsOf
  rw [filter_append, map_append]

theorem eventsOf_notify : eventsOf (notify x type b) m = if b = true ∧ x = m then [type] else [] := by
  unfold eventsOf notify
  cases b
  · simp
  · by_cases h : x = m <;> simp [h]

theorem Alternates.first {es : List EventType} {c : Nat} (h : Alternates es (decide (0 < c))) :
    Alternates (es ++ if c = 0 then [.firstAdd] else []) true := by
  by_cases hc : c = 0
  · subst hc
    exact h.add
  · rw [if_neg hc, append_nil]
    rwa [decide_eq_true (Nat.pos_of_ne_zero hc)] at h

theorem Alternates.last {es : List EventType} {c : Nat} (h : Alternates es (decide (0 < c + 1))) :
    Alternates (es ++ if c = 0 then [.lastDel] else []) (decide (0 < c)) := by
  by_cases hc : c = 0
  · subst hc
    exact h.del
  · rw [if_neg hc, append_nil, decide_eq_true (Nat.pos_of_ne_zero hc)]
    exact h

end Events

/-! ## Calls -/

structure MainUe.Ok (s : MainUe) : Prop where
  wf : s.trie.RootWf
  refs : Counts s.refs (eidCount fun e => s.trie.lookup e)
  events : ∀ m, Alternates (eventsOf s.events m)
    (decide (0 < eidCount (fun e => s.trie.lookup e) m))

def MainUe.Same (s s' : MainUe) : Prop :=
  (∀ e, s'.trie.lookup e = s.trie.lookup e) ∧ (∀ m, findRef s'.refs m = findRef s.refs m) ∧
    s'.events = s.events

inductive MainUeCall where
  | insert (eid m : Eid) (al : Allocs)
  | delete (eid : Eid)
  | flush

def MainUe.serve (s : MainUe) : MainUeCall → Ret × MainUe
  | .insert eid m al => insertMainUeEid s eid m al
  | .delete eid => deleteMainUeEid s eid
  | .flush => (none, flushMainUeEid s)

def MainUe.next (s : MainUe) (a : MainUeCall) : MainUe := (s.serve a).2

/-- An insert that cannot allocate the record of its main UE EID or a node of the trie has dropped
the only reference to the old one, and cannot allocate that record again. -/
def RollbackLost (s : MainUe) (eid m : Eid) (al : Allocs) : Prop :=
  ∃ old, s.trie.lookup eid = some old ∧ old ≠ m ∧ findRef s.refs old = some 1 ∧
    al.rollbackOk = false ∧
    (findRef s.refs m = none ∧ al.refOk = false ∨ al.leafOk = false ∨ al.nodeOk = false)

/-- No rollback is lost, and the count of the new main UE EID does not wrap. -/
def MainUeCall.Kept (s : MainUe) : MainUeCall → Prop
  | .insert eid m al => ¬RollbackLost s eid m al ∧ findRef s.refs m ≠ some (2 ^ 32 - 1)
  | _ => True

def Served (s : MainUe) (r : Ret × MainUe) : Prop := r.2.Ok ∧ ∀ e, r.1 = some e → s.Same r.2

section Calls

variable {s : MainUe} {eid m : Eid} {al : Allocs} {refs : Refs}

theorem MainUe.Same.refl : s.Same s := ⟨fun _ => rfl, fun _ => rfl, rfl⟩

theorem MainUe.Ok.served_err {e : Errno} (h : s.Ok) : Served s (some e, s) :=
  ⟨h, fun _ _ => .refl⟩

theorem MainUe.Ok.served_refs {e : Errno} (h : s.Ok)
    (hr : Counts refs (eidCount fun e => s.trie.lookup e)) : Served s (some e, { s with refs := refs }) := by
  refine ⟨⟨h.wf, hr, h.events⟩, fun _ _ => ⟨fun _ => rfl, fun m => ?_, rfl⟩⟩
  rw [hr.find, h.refs.find]

theorem eidCount_without (eid : Eid) {f : Eid → Option Eid} (x : Eid) :
    eidCount (fun k => if k = eid then none else f k) x + (if f eid = some x then 1 else 0) =
      eidCount f x := by
  cases hf : f eid with
  | none =>
    rw [if_neg nofun, Nat.add_zero]
    congr 1
    funext k
    by_cases hk : k = eid
    · rw [if_pos hk, hk, hf]
    · rw [if_neg hk]
  | some o =>
    rw [← eidCount_remove hf]
    by_cases hx : x = o
    · rw [if_pos hx, if_pos (by rw [hx])]
    · rw [if_neg hx, if_neg fun hc => hx (Option.some.inj hc).symm]

theorem MainUe.Ok.inserted {trie : EidTrie} {last : Bool} (h : s.Ok)
    (hsame : s.trie.lookup eid ≠ some m) (hins : s.trie.insert eid m al.leafOk al.nodeOk = (none, trie))
    (hc : Counts refs fun x =>
      eidCount (fun k => if k = eid then none else s.trie.lookup k) x + if x = m then 1 else 0)
    (hlast : ∀ o, s.trie.lookup eid = some o →
      last = decide (eidCount (fun k => if k = eid then none else s.trie.lookup k) o = 0)) :
    MainUe.Ok ⟨trie, refs, s.events ++ notifyOld last (s.trie.lookup eid) ++ notify m .firstAdd
      (decide (eidCount (fun k => if k = eid then none else s.trie.lookup k) m = 0))⟩ := by
  obtain ⟨hwf, hlook⟩ := h.wf.insert hins
  have hg := fun x => eidCount_without eid (f := fun e => s.trie.lookup e) x
  have hcnt : ∀ x, eidCount (fun e => trie.lookup e) x =
      eidCount (fun k => if k = eid then none else s.trie.lookup k) x + if x = m then 1 else 0 := by
    intro x
    rw [← eidCount_add (if_pos rfl)]
    congr 1
    funext k
    rw [hlook]
    by_cases hk : k = eid
    · rw [if_pos hk, if_pos hk]
    · rw [if_neg hk, if_neg hk, if_neg hk]
  generalize eidCount (fun k => if k = eid then none else s.trie.lookup k) = cnt at *
  refine ⟨hwf, hc.congr hcnt, fun x => ?_⟩
  have hev := h.events x
  rw [← hg x] at hev
  have hold : eventsOf (notifyOld last (s.trie.lookup eid)) x =
      if s.trie.lookup eid = some x ∧ cnt x = 0 then [.lastDel] else [] := by
    cases ho : s.trie.lookup eid with
    | none => rfl
    | some o =>
      dsimp only [notifyOld]
      rw [eventsOf_notify, hlast o ho]
      by_cases hxo : x = o
      · subst hxo; simp
      · rw [if_neg fun hc => hxo hc.2.symm, if_neg fun hc => hxo (Option.some.inj hc.1).symm]
  rw [eventsOf_append, eventsOf_append, eventsOf_notify, hold, hcnt x]
  by_cases hxm : x = m
  · subst hxm
    rw [if_neg hsame, Nat.add_zero] at hev
    rw [if_neg fun hc => hsame hc.1, append_nil, if_pos rfl, decide_eq_true (Nat.succ_pos _)]
    simpa using hev.first
  have hnew : ¬(decide (cnt m = 0) = true ∧ m = x) := fun hc => hxm hc.2.symm
  rw [if_neg hnew, append_nil, if_neg hxm, Nat.add_zero]
  by_cases ho : s.trie.lookup eid = some x
  · rw [if_pos ho] at hev
    simpa [ho] using hev.last
  · rw [if_neg ho, Nat.add_zero] at hev
    rwa [if_neg fun hc => ho hc.1, append_nil]

theorem insertMainUeEid_served (h : s.Ok) (hk : (MainUeCall.insert eid m al).Kept s) :
    Served s (insertMainUeEid s eid m al) := by
  obtain ⟨hlost, hwrap⟩ := hk
  have hlt := h.refs.lt m
  have hwrap : eidCount (fun e => s.trie.lookup e) m + 1 < 2 ^ 32 := by
    rw [h.refs.find m] at hwrap
    by_contra hc
    exact hwrap (by rw [if_neg (by omega)]; exact congrArg some (by omega))
  -- `g` is the map without `eid`
  have hg := fun x => eidCount_without eid (f := fun e => s.trie.lookup e) x
  by_cases hz1 : eidIsZero eid
  · rw [show insertMainUeEid s eid m al = (some .einval, s) from if_pos hz1]
    exact h.served_err
  by_cases hz2 : eidIsZero m
  · rw [show insertMainUeEid s eid m al = (some .einval, s) from (if_neg hz1).trans (if_pos hz2)]
    exact h.served_err
  by_cases hsame : s.trie.lookup eid = some m
  · rw [show insertMainUeEid s eid m al = (none, s) from
      (if_neg hz1).trans ((if_neg hz2).trans (if_pos hsame))]
    exact ⟨h, nofun⟩
  have hlost : ∀ o, s.trie.lookup eid = some o →
      eidCount (fun k => if k = eid then none else s.trie.lookup k) o = 0 →
      (findRef s.refs m = none ∧ al.refOk = false ∨ al.leafOk = false ∨ al.nodeOk = false) →
      al.rollbackOk = true := by
    intro o ho h0 hfail
    by_contra hc
    refine hlost ⟨o, ho, fun hom => hsame (by rw [ho, hom]), ?_, by simpa using hc, hfail⟩
    have hgo := hg o
    rw [if_pos ho, h0] at hgo
    rw [h.refs.find o, ← hgo]
    rfl
  obtain ⟨last, refs1, hdrop, hc1, hlast⟩ := h.refs.dropOld hg
  have hgm : eidCount (fun k => if k = eid then none else s.trie.lookup k) m =
      eidCount (fun e => s.trie.lookup e) m := by
    have := hg m
    rwa [if_neg hsame, Nat.add_zero] at this
  unfold insertMainUeEid
  rw [if_neg hz1, if_neg hz2, if_neg hsame]
  dsimp only
  rw [hdrop]
  dsimp only
  by_cases hfail : eidCount (fun k => if k = eid then none else s.trie.lookup k) m = 0 ∧
      al.refOk = false
  · rw [hfail.2, hc1.inc_fail hfail.1]
    have hnone : findRef s.refs m = none := by rw [h.refs.find, if_pos (hgm ▸ hfail.1)]
    exact h.served_refs (hc1.takeBack h.refs.lt hg fun o ho h0 => hlost o ho h0 (.inl ⟨hnone, hfail.2⟩))
  obtain ⟨refs2, hinc, hc2⟩ := hc1.inc (m := m) al.refOk (by rw [hgm]; exact hwrap)
    fun h0 => by simpa [h0] using hfail
  rw [hinc]
  rcases hins : s.trie.insert eid m al.leafOk al.nodeOk with ⟨_ | e, trie⟩ <;> dsimp only
  · exact ⟨h.inserted hsame hins hc2 hlast, nofun⟩
  · have htrie := Trie.insert_fail (by rw [hins])
    obtain ⟨-, rfl⟩ := Prod.mk.inj (hins.symm.trans htrie)
    obtain ⟨refs3, hdec, hc3⟩ := hc2.dec (m := m) _ (by simp) fun x => rfl
    rw [hdec]
    exact h.served_refs (hc3.takeBack h.refs.lt hg fun o ho h0 =>
      hlost o ho h0 (.inr (Trie.insert_allocs (by rw [hins]; exact nofun))))

theorem deleteMainUeEid_served (h : s.Ok) : Served s (deleteMainUeEid s eid) := by
  unfold deleteMainUeEid
  split
  · exact h.served_err
  cases hm : s.trie.lookup eid with
  | none => exact h.served_err
  | some m =>
    rcases hd : s.trie.delete eid with ⟨_ | e, trie⟩
    · dsimp only
      obtain ⟨hwf, hlook⟩ := h.wf.delete hd
      have hcnt : ∀ x, eidCount (fun e => trie.lookup e) x + (if x = m then 1 else 0) =
          eidCount (fun e => s.trie.lookup e) x := fun x => by
        rw [← eidCount_remove (f := fun e => s.trie.lookup e) hm, funext hlook]
      have hm1 := hcnt m
      rw [if_pos rfl] at hm1
      obtain ⟨refs, hdec, hc⟩ := h.refs.dec _ (by omega) hcnt
      rw [hdec]
      refine ⟨⟨hwf, hc, fun x => ?_⟩, nofun⟩
      have hev := h.events x
      have hx := hcnt x
      rw [eventsOf_append, eventsOf_notify]
      by_cases hxm : x = m
      · subst hxm
        rw [← hm1] at hev ⊢
        simpa using hev.last
      · rw [if_neg hxm, Nat.add_zero] at hx
        rwa [if_neg fun hc => hxm hc.2.symm, append_nil, hx]
    · -- the lookup found the key, so the deletion does not fail
      have hgone := Trie.delete_fail_iff.mp (by rw [Trie.delete_fail (by rw [hd])])
      rw [hm] at hgone
      cases hgone

theorem eventsOf_flush (hk : (refs.map Prod.fst).Nodup) {x : Eid} :
    eventsOf (refs.flatMap fun r => notify r.1 .lastDel (decide (0 < r.2))) x =
      match findRef refs x with
      | none => []
      | some n => if 0 < n then [.lastDel] else [] := by
  unfold findRef
  induction refs with
  | nil => rfl
  | cons r refs ih =>
    obtain ⟨a, n⟩ := r
    rw [map_cons, nodup_cons] at hk
    rw [flatMap_cons, eventsOf_append, eventsOf_notify, ih hk.2, lookup_cons]
    by_cases hx : x = a
    · subst hx
      have hnone : refs.lookup x = none := by
        rw [lookup_eq_none_iff]
        intro r hr
        have : x ≠ r.1 := fun hc => hk.1 (mem_map.mpr ⟨r, hr, hc.symm⟩)
        simpa using this
      rw [hnone, beq_self_eq_true]
      by_cases hn : 0 < n <;> simp [hn]
    · rw [beq_eq_false_iff_ne.mpr hx, if_neg fun hc => hx hc.2.symm]
      rfl

theorem eidCount_null (m : Eid) : eidCount (fun e => (Trie.null : EidTrie).lookup e) m = 0 := by
  by_contra hc
  obtain ⟨e, he⟩ := eidCount_pos_iff.mp (Nat.pos_of_ne_zero hc)
  cases he

theorem counts_null : Counts [] (eidCount fun e => (Trie.null : EidTrie).lookup e) :=
  ⟨.nil, fun m => (if_pos (eidCount_null m)).symm,
    fun m => lt_of_eq_of_lt (eidCount_null m) (Nat.two_pow_pos 32)⟩

theorem flushMainUeEid_ok (h : s.Ok) : (flushMainUeEid s).Ok := by
  refine ⟨.inl rfl, counts_null, fun m => ?_⟩
  · unfold flushMainUeEid
    rw [eidCount_null, eventsOf_append, eventsOf_flush h.refs.keys, h.refs.find m]
    have hev := h.events m
    generalize eidCount (fun e => s.trie.lookup e) m = c at hev ⊢
    by_cases hc : c = 0
    · subst hc
      simpa using hev
    have hpos := Nat.pos_of_ne_zero hc
    rw [decide_eq_true hpos] at hev
    rw [if_neg hc]
    simpa [hpos] using hev.del

theorem MainUe.Ok.served {a : MainUeCall} (h : s.Ok) (ha : a.Kept s) : Served s (s.serve a) := by
  cases a with
  | insert eid m al => exact insertMainUeEid_served h ha
  | delete eid => exact deleteMainUeEid_served h
  | flush => exact ⟨flushMainUeEid_ok h, nofun⟩

end Calls

/-! ## Runs -/

def emptyMainUe : MainUe := ⟨.null, [], []⟩

theorem emptyMainUe_ok : emptyMainUe.Ok := by
  refine ⟨.inl rfl, counts_null, fun m => ?_⟩
  change Alternates [] (decide (0 < eidCount (fun e => (Trie.null : EidTrie).lookup e) m))
  rw [eidCount_null]
  exact .nil

/-- In a run that loses no rollback: a main UE EID has a record iff an EID maps to it, with
the number of those EIDs; a call that fails changes neither; and the events of each main UE
EID alternate and end with a first add iff it is mapped to. -/
theorem refs_mirror_map {s : MainUe} (hs : Reach (fun s a => a.Kept s) MainUe.next emptyMainUe s) :
    (∀ m, findRef s.refs m = if eidCount (fun e => s.trie.lookup e) m = 0 then none
      else some (eidCount (fun e => s.trie.lookup e) m)) ∧
      (∀ a : MainUeCall, a.Kept s → ∀ e, (s.serve a).1 = some e → s.Same (s.serve a).2) ∧
      ∀ m, Alternates (eventsOf s.events m)
        (decide (0 < eidCount (fun e => s.trie.lookup e) m)) := by
  have hok : s.Ok := hs.invariant emptyMainUe_ok fun t a ht ha => (ht.served ha).1
  exact ⟨hok.refs.find, fun a ha e he => (hok.served ha).2 e he, hok.events⟩

def eidOf (n : UInt8) : Eid := fun i => if i = 15 then n else 0

def oneMapped : MainUe := emptyMainUe.next (.insert (eidOf 1) (eidOf 2) {})

theorem oneMapped_reach : Reach (fun s a => MainUeCall.Kept s a) MainUe.next emptyMainUe oneMapped := by
  refine .next .init ⟨?_, nofun⟩
  rintro ⟨old, hold, -⟩
  cases hold

theorem refs_mirror_map_oneMapped :
    findRef oneMapped.refs (eidOf 2) =
        (if eidCount (fun e => oneMapped.trie.lookup e) (eidOf 2) = 0 then none
          else some (eidCount (fun e => oneMapped.trie.lookup e) (eidOf 2))) ∧
      findRef oneMapped.refs (eidOf 2) = some 1 :=
  ⟨(refs_mirror_map oneMapped_reach).1 (eidOf 2), by decide +kernel⟩

/-- Moving EID 1 to main UE EID 3 fails without memory; the map is unchanged, but the record
of main UE EID 2 is gone. -/
theorem oneMapped_record_lost :
    Reach (fun s a => MainUeCall.Kept s a) MainUe.next emptyMainUe oneMapped ∧
      (oneMapped.serve (.insert (eidOf 1) (eidOf 3) { refOk := false, rollbackOk := false })).1 =
        some .enomem ∧
      findRef oneMapped.refs (eidOf 2) = some 1 ∧
      (oneMapped.next (.insert (eidOf 1) (eidOf 3) { refOk := false, rollbackOk := false })).trie.lookup
        (eidOf 1) = some (eidOf 2) ∧
      findRef (oneMapped.next (.insert (eidOf 1) (eidOf 3)
        { refOk := false, rollbackOk := false })).refs (eidOf 2) = none :=
  ⟨oneMapped_reach, by decide +kernel, by decide +kernel, by decide +kernel, by decide +kernel⟩

end UbDkms.Ubcore
