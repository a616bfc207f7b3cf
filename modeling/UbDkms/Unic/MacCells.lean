import UbDkms.Unic.MacTable

/-!
# One address of the MAC table

What the list, the lists of an open round, the hardware and the requests say about one
address, as a state machine of its own: `Rest` when no round is open, `SyncCell` in an
open sync round, `DeactCell` in an open deactivation. `F` says that the table-change
flag is set, `d` that the address is the device address.
-/

namespace UbDkms.Unic

open Lib

/-- No round is open: the node, the entry of the hardware, the last request. -/
inductive Rest (F : Prop) (d : Bool) : Option MacNode → Option Bool → Bool → Prop where
  | absent : d = false → Rest F d none none false
  | toAdd : F → Rest F d (some ⟨.toAdd, d⟩) none true
  | active : Rest F d (some ⟨.active, d⟩) (some d) true
  /-- The flag of a node may have been reset while the entry has it. -/
  | toDel {p q : Bool} : F → d = false → (q = false → p = false) →
    Rest F d (some ⟨.toDel, p⟩) (some q) false

/-- A sync round is open: also the node to delete and the node to add. -/
inductive SyncCell (F : Prop) (d : Bool) :
    Option MacNode → Option MacNode → Option MacNode → Option Bool → Bool → Prop where
  | rest {L : Option MacNode} {H : Option Bool} {W : Bool} : Rest F d L H W → SyncCell F d L none none H W
  | dying {p q : Bool} : d = false → (q = false → p = false) →
    SyncCell F d none (some ⟨.toDel, p⟩) none (some q) false
  | readded : d = false → F →
    SyncCell F d (some ⟨.toAdd, false⟩) (some ⟨.toDel, false⟩) none (some false) true
  | queued : SyncCell F d (some ⟨.toAdd, d⟩) none (some ⟨.toAdd, d⟩) none true
  | unqueued : d = false → F → SyncCell F d none none (some ⟨.toAdd, false⟩) none false
  | added : SyncCell F d (some ⟨.toAdd, d⟩) none (some ⟨.active, d⟩) (some d) true
  | unadded : d = false → F → SyncCell F d none none (some ⟨.active, false⟩) (some false) false

/-- A deactivation is open: also the node to delete. -/
inductive DeactCell (d : Bool) : Option MacNode → Option MacNode → Option Bool → Bool → Prop where
  | absent : d = false → DeactCell d none none none false
  | toAdd : DeactCell d (some ⟨.toAdd, d⟩) none none true
  | dying {p q : Bool} : d = false → (q = false → p = false) →
    DeactCell d none (some ⟨.toDel, p⟩) (some q) false
  | readded : d = false → DeactCell d (some ⟨.toAdd, false⟩) (some ⟨.toDel, false⟩) (some false) true
  | active : DeactCell d (some ⟨.active, d⟩) (some ⟨.active, d⟩) (some d) true
  | leaving : d = false → DeactCell d (some ⟨.toDel, false⟩) (some ⟨.active, false⟩) (some false) false
  | deleted : DeactCell d (some ⟨.active, d⟩) (some ⟨.toAdd, d⟩) none true
  | gone : d = false → DeactCell d (some ⟨.toDel, false⟩) (some ⟨.toAdd, false⟩) none false

variable {F G : Prop} {d W : Bool} {L D A : Option MacNode} {H : Option Bool} {n : MacNode}

theorem Rest.mono (h : Rest F d L H W) (hf : F → G) : Rest G d L H W := by
  cases h with
  | absent hd => exact .absent hd
  | toAdd h => exact .toAdd (hf h)
  | active => exact .active
  | toDel h hd hq => exact .toDel (hf h) hd hq

theorem SyncCell.mono (h : SyncCell F d L D A H W) (hf : F → G) : SyncCell G d L D A H W := by
  cases h with
  | rest h => exact .rest (h.mono hf)
  | dying hd hq => exact .dying hd hq
  | readded hd h => exact .readded hd (hf h)
  | queued => exact .queued
  | unqueued hd h => exact .unqueued hd (hf h)
  | added => exact .added
  | unadded hd h => exact .unadded hd (hf h)

/-! ## Requests -/

def StalePfc (L D : Option MacNode) (H : Option Bool) : Prop :=
  H = some true ∧ ∃ n : MacNode, n.state = .toDel ∧ (L = some n ∨ D = some n)

theorem Rest.add (h : Rest F d L H W) (hs : ¬ StalePfc L D H) (hf : G) :
    Rest G d (MacNode.request .toAdd L) H true := by
  cases h with
  | absent hd => subst hd; exact .toAdd hf
  | toAdd => exact .toAdd hf
  | active => exact .active
  | @toDel p q _ hd hq =>
    cases q with
    | true => exact absurd ⟨rfl, _, rfl, .inl rfl⟩ hs
    | false =>
      subst hd
      rw [hq rfl]
      exact .active

theorem Rest.del (h : Rest F d L H W) (hd : d = false) (hf : L ≠ none → G) :
    Rest G d (MacNode.request .toDel L) H false := by
  subst hd
  cases h with
  | absent | toAdd => exact .absent rfl
  | active => exact .toDel (hf nofun) rfl id
  | toDel _ _ hq => exact .toDel (hf nofun) rfl hq

theorem SyncCell.add (h : SyncCell F d L D A H W) (hs : ¬ StalePfc L D H) (hf : G) :
    SyncCell G d (MacNode.request .toAdd L) D A H true := by
  cases h with
  | rest h => exact .rest (h.add hs hf)
  | @dying p q hd hq =>
    cases q with
    | true => exact absurd ⟨rfl, _, rfl, .inr rfl⟩ hs
    | false =>
      rw [hq rfl]
      exact .readded hd hf
  | readded hd => exact .readded hd hf
  | queued => exact .queued
  | unqueued hd => subst hd; exact .queued
  | added => exact .added
  | unadded hd => subst hd; exact .added

theorem SyncCell.del (h : SyncCell F d L D A H W) (hd : d = false) (hf : L ≠ none → G) (hg : F → G) :
    SyncCell G d (MacNode.request .toDel L) D A H false := by
  subst hd
  cases h with
  | rest h => exact .rest (h.del rfl hf)
  | dying _ hq => exact .dying rfl hq
  | readded => exact .dying rfl id
  | queued => exact .unqueued rfl (hf nofun)
  | unqueued _ h => exact .unqueued rfl (hg h)
  | added => exact .unadded rfl (hf nofun)
  | unadded _ h => exact .unadded rfl (hg h)

theorem DeactCell.add (h : DeactCell d L D H W) (hs : ¬ StalePfc L D H) :
    DeactCell d (MacNode.request .toAdd L) D H true := by
  cases h with
  | absent hd => subst hd; exact .toAdd
  | toAdd => exact .toAdd
  | @dying p q hd hq =>
    cases q with
    | true => exact absurd ⟨rfl, _, rfl, .inr rfl⟩ hs
    | false =>
      rw [hq rfl]
      exact .readded hd
  | readded hd => exact .readded hd
  | active => exact .active
  | leaving hd => subst hd; exact .active
  | deleted => exact .deleted
  | gone hd => subst hd; exact .deleted

theorem DeactCell.del (h : DeactCell d L D H W) (hd : d = false) :
    DeactCell d (MacNode.request .toDel L) D H false := by
  subst hd
  cases h with
  | absent | toAdd => exact .absent rfl
  | dying _ hq => exact .dying rfl hq
  | readded => exact .dying rfl id
  | active | leaving => exact .leaving rfl
  | deleted | gone => exact .gone rfl

/-! ## The steps of a round -/

theorem Rest.read (h : Rest F d L H W) : SyncCell G d (L.filter fun n => n.state != .toDel)
    (L.filter fun n => n.state == .toDel) (L.filter fun n => n.state == .toAdd) H W := by
  cases h with
  | absent hd => exact .rest (.absent hd)
  | toAdd => exact .queued
  | active => exact .rest .active
  | toDel _ hd hq => exact .dying hd hq

theorem Rest.readDeact (h : Rest F d L H W) : DeactCell d (L.filter fun n => n.state != .toDel)
    (L.filter fun n => n.state != .toAdd) H W := by
  cases h with
  | absent hd => exact .absent hd
  | toAdd => exact .toAdd
  | active => exact .active
  | toDel _ hd hq => exact .dying hd hq

theorem SyncCell.deleted (h : SyncCell F d L (some n) A H W) : SyncCell F d L none A none W := by
  cases h with
  | dying hd => exact .rest (.absent hd)
  | readded hd hf => subst hd; exact .rest (.toAdd hf)

theorem SyncCell.del_isSome (h : SyncCell F d L (some n) A H W) : H.isSome := by
  cases h <;> rfl

theorem SyncCell.addedHw {p : Bool} (h : SyncCell F d L D (some ⟨.toAdd, p⟩) H W) :
    SyncCell F d L D (some ⟨.active, p⟩) (some p) W := by
  cases h with
  | queued => exact .added
  | unqueued hd hf => exact .unadded hd hf

theorem SyncCell.add_isNone {p : Bool} (h : SyncCell F d L D (some ⟨.toAdd, p⟩) H W) : H = none := by
  cases h <;> rfl

theorem SyncCell.merge (h : SyncCell F d L D A H W) (hD : D ≠ none → F)
    (hA : ∀ n : MacNode, A = some n → n.state = .toAdd → F) :
    Rest F d (mergeAt MacNode.fromAdd A (mergeAt MacNode.fromDel D L)) H W := by
  cases h with
  | rest h => exact h
  | dying hd hq => exact .toDel (hD nofun) hd hq
  | readded hd hf => subst hd; exact .active
  | queued => exact .toAdd (hA _ rfl rfl)
  | unqueued hd => exact .absent hd
  | added => exact .active
  | unadded hd hf => exact .toDel hf hd id

theorem DeactCell.deletedHw (h : DeactCell d L (some n) H W) (hH : H.isSome) :
    DeactCell d L (match n.state with
      | .active => some { n with state := .toAdd }
      | .toDel => none
      | .toAdd => some n) none W := by
  cases h with
  | dying hd => exact .absent hd
  | readded hd => subst hd; exact .toAdd
  | active => exact .deleted
  | leaving hd => exact .gone hd
  | deleted | gone => cases hH

theorem DeactCell.merge (h : DeactCell d L D H W) (hf : F) :
    Rest F d (mergeAt MacNode.fromDeact D L) H W := by
  cases h with
  | absent hd | gone hd => exact .absent hd
  | toAdd | deleted => exact .toAdd hf
  | dying hd hq => exact .toDel hf hd hq
  | readded hd => subst hd; exact .active
  | active => exact .active
  | leaving hd => exact .toDel hf hd id

/-! ## The device address -/

theorem Rest.cfgNew (hf : G) : Rest G true (some ⟨.toAdd, true⟩) none true := .toAdd hf

theorem Rest.toAdd_none {p : Bool} (h : Rest F d (some ⟨.toAdd, p⟩) H W) : H = none := by
  cases h; rfl

theorem Rest.none_none (h : Rest F d none H W) : H = none := by
  cases h; rfl

theorem Rest.cfgOld (h : Rest F true L H W) (hf : G) : Rest G false (MacTable.oldNode L) H false := by
  cases h with
  | absent hd | toDel _ hd => cases hd
  | toAdd => exact .absent rfl
  | active => exact .toDel hf rfl fun h => by cases h

end UbDkms.Unic
