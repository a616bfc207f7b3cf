import UbDkms.Udma.JettyId

/-!
# Owners of jetty ids

What the histories of allocations, frees, group creations and deletions leave in
the bitmap: an id is not free exactly if it has an owner, and then it has one.
-/

namespace UbDkms.Udma

open Lib List
open Function (update update_self update_of_ne)

def JettyIds.owners (s : JettyIds) (id : Nat) : Nat :=
  s.singles.count id + s.groups.countP fun g => decide (g ≤ id ∧ id < g + 32)

def IdKept (_ : JettyIds) : IdAct → Prop
  | .createGrp idOk xaOk mboxOk => idOk = true → xaOk = true ∧ mboxOk = true
  | _ => True

structure Owned (r : IdRange) (s : JettyIds) : Prop where
  taken : ∀ k, k < r.nBits → s.owners (r.min + k) + (s.free k).toNat = 1
  tight : Tight r s.free
  singles : ∀ id, id ∈ s.singles → r.min ≤ id ∧ id ≤ r.max
  groups : ∀ g, g ∈ s.groups → ∃ i, g = r.min + 32 * i ∧ 32 * i + 32 ≤ r.nBits
  next : r.min ≤ s.nextIdx ∧ s.nextIdx ≤ r.max
  grpNext : r.min ≤ s.grpNext ∧ s.grpNext ≤ r.max
  sound : s.fault = false

section Steps

variable {r : IdRange} {s : JettyIds} {free : Bits}

theorem Owned.init (h : r.Ok) : Owned r (JettyIds.init r) where
  taken k hk := by
    change 0 + (decide (k < r.nBits)).toNat = 1
    rw [decide_eq_true hk]
    rfl
  tight k hk := decide_eq_false (Nat.not_lt.mpr hk)
  singles _ hid := by cases hid
  groups _ hg := by cases hg
  next := ⟨le_rfl, h.le⟩
  grpNext := ⟨le_rfl, h.le⟩
  sound := rfl

theorem Owned.lt_of_free (h : Owned r s) {k : Nat} (hk : s.free k) : k < r.nBits := by
  by_contra hout
  rw [h.tight k (Nat.le_of_not_lt hout)] at hk
  cases hk

theorem Owned.takeOne (hr : r.Ok) (h : Owned r s) {k n : Nat} (hk : s.free k)
    (hn : r.min ≤ n ∧ n ≤ r.max) :
    Owned r { s with
      free := update s.free k false, singles := (r.min + k) :: s.singles, nextIdx := n } where
  taken x hx := by
    have hold := h.taken x hx
    unfold JettyIds.owners at hold ⊢
    dsimp only
    rw [count_cons]
    by_cases hxk : x = k
    · subst hxk
      rw [hk, Bool.toNat_true] at hold
      rw [update_self, Bool.toNat_false, if_pos (beq_self_eq_true _)]
      omega
    · rw [update_of_ne hxk, ← hold, if_neg (by simpa using Ne.symm hxk)]
      omega
  tight x hx := by
    by_cases hxk : x = k
    · rw [hxk]
      exact update_self ..
    · exact (update_of_ne hxk ..).trans (h.tight x hx)
  singles id hid := by
    have hlt := h.lt_of_free hk
    rw [hr.nBits_eq] at hlt
    rcases mem_cons.mp hid with rfl | hid
    · omega
    · exact h.singles id hid
  groups := h.groups
  next := hn
  grpNext := h.grpNext
  sound := h.sound

theorem Owned.giveOne (hr : r.Ok) (h : Owned r s) {id : Nat} (hid : id ∈ s.singles) :
    Owned r { s with free := udmaAdvIdFree r s.free id false, singles := s.singles.erase id } := by
  obtain ⟨h1, h2⟩ := h.singles id hid
  obtain ⟨hc1, hc2⟩ := hr.bitmapCnt_spec
  have hn := hr.nBits_eq
  have hfree : udmaAdvIdFree r s.free id false = update s.free (id - r.min) true := by
    unfold udmaAdvIdFree
    rw [hr.offset_eq h1 h2]
    rw [if_neg (by omega), if_neg Bool.false_ne_true]
  rw [hfree]
  refine { h with
    taken := fun x hx => ?_
    tight := fun x hx => (update_of_ne (by omega) ..).trans (h.tight x hx)
    singles := fun i hi => h.singles i (mem_of_mem_erase hi) }
  have hold := h.taken x hx
  unfold JettyIds.owners at hold ⊢
  dsimp only
  rw [count_erase]
  by_cases hxk : x = id - r.min
  · have hpos := count_pos_iff.mpr hid
    rw [hxk, Nat.add_sub_cancel' h1] at hold ⊢
    rw [update_self, Bool.toNat_true, if_pos (beq_self_eq_true _)]
    omega
  · rw [update_of_ne hxk, ← hold, if_neg (by simp only [beq_iff_eq]; omega)]
    omega

theorem setWord_at {i x : Nat} {v : Bool} (h : x / 32 = i) : setWord free i v x = v := if_pos h

theorem setWord_off {i x : Nat} {v : Bool} (h : x / 32 ≠ i) : setWord free i v x = free x :=
  if_neg h

theorem block_iff {i x : Nat} :
    (decide (r.min + 32 * i ≤ r.min + x ∧ r.min + x < r.min + 32 * i + 32)) ↔ x / 32 = i := by
  rw [decide_eq_true_iff]
  omega

theorem Owned.takeBlock (h : Owned r s) {i n : Nat}
    (hi : ∀ b, b < 32 → s.free (32 * i + b)) (hin : 32 * i + 32 ≤ r.nBits)
    (hn : r.min ≤ n ∧ n ≤ r.max) :
    Owned r { s with
      free := setWord s.free i false, grpNext := n, groups := (r.min + 32 * i) :: s.groups } where
  taken x hx := by
    have hold := h.taken x hx
    unfold JettyIds.owners at hold ⊢
    dsimp only
    rw [countP_cons]
    by_cases hxi : x / 32 = i
    · have hf : s.free x := by
        have := hi (x % 32) (by omega)
        rwa [← hxi, Nat.div_add_mod] at this
      rw [hf, Bool.toNat_true] at hold
      rw [setWord_at hxi, Bool.toNat_false, if_pos (block_iff.mpr hxi)]
      omega
    · rw [setWord_off hxi, if_neg (fun hb => hxi (block_iff.mp hb)), ← hold]
      omega
  tight x hx := (setWord_off (by omega)).trans (h.tight x hx)
  singles := h.singles
  groups g hg := by
    rcases mem_cons.mp hg with rfl | hg
    · exact ⟨i, rfl, hin⟩
    · exact h.groups g hg
  next := h.next
  grpNext := hn
  sound := h.sound

theorem udmaAdvIdFree_block (hr : r.Ok) {i : Nat} (hin : 32 * i + 32 ≤ r.nBits) :
    udmaAdvIdFree r free (r.min + 32 * i) true = setWord free i true := by
  obtain ⟨hc1, hc2⟩ := hr.bitmapCnt_spec
  have hn := hr.nBits_eq
  have hoff : r.offset (r.min + 32 * i) = 32 * i := by
    rw [hr.offset_eq (Nat.le_add_right _ _) (by omega), Nat.add_sub_cancel_left]
  unfold udmaAdvIdFree
  rw [hoff]
  dsimp only
  rw [Nat.mul_div_cancel_left i (by decide), if_neg (by omega), if_pos rfl]

theorem Owned.giveBlock (hr : r.Ok) (h : Owned r s) {g : Nat} (hg : g ∈ s.groups) :
    Owned r { s with free := udmaAdvIdFree r s.free g true, groups := s.groups.erase g } := by
  obtain ⟨i, rfl, hin⟩ := h.groups g hg
  rw [udmaAdvIdFree_block hr hin]
  refine { h with
    taken := fun x hx => ?_
    tight := fun x hx => (setWord_off (by omega)).trans (h.tight x hx)
    groups := fun g hg => h.groups g (mem_of_mem_erase hg) }
  have hold := h.taken x hx
  unfold JettyIds.owners at hold ⊢
  dsimp only
  rw [countP_erase]
  by_cases hxi : x / 32 = i
  · have hpos : 0 < s.groups.countP fun g => decide (g ≤ r.min + x ∧ r.min + x < g + 32) :=
      countP_pos_iff.mpr ⟨_, hg, block_iff.mpr hxi⟩
    rw [setWord_at hxi, Bool.toNat_true, if_pos ⟨hg, block_iff.mpr hxi⟩]
    omega
  · rw [setWord_off hxi, if_neg (fun hb => hxi (block_iff.mp hb.2)), ← hold]
    omega

theorem setWord_back {i : Nat} (hi : ∀ b, b < 32 → free (32 * i + b)) :
    setWord (setWord free i false) i true = free := by
  funext x
  by_cases hx : x / 32 = i
  · rw [setWord_at hx]
    have := hi (x % 32) (by omega)
    rwa [← hx, Nat.div_add_mod, eq_comm] at this
  · rw [setWord_off hx, setWord_off hx]

theorem Owned.allocOne (hr : r.Ok) (h : Owned r s) :
    (allocTwice r s.free false s.nextIdx = .none ∧ ∀ k, s.free k = false) ∨
    ∃ k, s.free k ∧
      allocTwice r s.free false s.nextIdx = .id (r.min + k) (update s.free k false) := by
  unfold allocTwice
  rcases alloc_single hr h.tight h.next.1 h.next.2 with ⟨ha, -⟩ | ⟨k, hk, ha⟩
  · rw [ha]
    rcases alloc_single hr h.tight le_rfl hr.le with ⟨hb, hall⟩ | ⟨k, hk, hb⟩
    · exact .inl ⟨hb, fun k => hall k (by omega)⟩
    · exact .inr ⟨k, hk, hb⟩
  · rw [ha]
    exact .inr ⟨k, hk, rfl⟩

theorem Owned.allocBlock (hr : r.Ok) (h : Owned r s) :
    (allocTwice r s.free true s.grpNext = .none ∧ ∀ i, ∃ b, b < 32 ∧ s.free (32 * i + b) = false) ∨
    ∃ i, (∀ b, b < 32 → s.free (32 * i + b)) ∧ 32 * i + 32 ≤ r.nBits ∧
      allocTwice r s.free true s.grpNext = .id (r.min + 32 * i) (setWord s.free i false) := by
  unfold allocTwice
  rcases alloc_group hr h.tight h.grpNext.1 h.grpNext.2 with ⟨ha, -⟩ | ⟨i, hi, hin, ha⟩
  · rw [ha]
    rcases alloc_group hr h.tight le_rfl hr.le with ⟨hb, hall⟩ | ⟨i, hi, hin, hb⟩
    · exact .inl ⟨hb, fun i => hall i (by omega)⟩
    · exact .inr ⟨i, hi, hin, hb⟩
  · rw [ha]
    exact .inr ⟨i, hi, hin, rfl⟩

theorem nextStart (hr : r.Ok) {id d : Nat} (h1 : r.min ≤ id) (h2 : id ≤ r.max) (hd : d ≤ 32) :
    r.min ≤ (if r.max < (id + d) % 2 ^ 32 then r.min else (id + d) % 2 ^ 32) ∧
    (if r.max < (id + d) % 2 ^ 32 then r.min else (id + d) % 2 ^ 32) ≤ r.max := by
  have := hr.lt
  have := hr.le
  rw [Nat.mod_eq_of_lt (by omega)]
  split <;> omega

theorem Owned.step (hr : r.Ok) (h : Owned r s) {a : IdAct} (ha : IdKept s a) : Owned r (s.next r a) := by
  have hn := hr.nBits_eq
  cases a with
  | alloc =>
    dsimp only [JettyIds.next]
    rcases h.allocOne hr with ⟨he, -⟩ | ⟨k, hk, he⟩
    · rw [he]
      exact h
    rw [he]
    have := h.lt_of_free hk
    exact h.takeOne hr hk (nextStart hr (by omega) (by omega) (by omega))
  | specify id =>
    dsimp only [JettyIds.next]
    split
    · next hin =>
      rw [hr.offset_eq hin.1 hin.2]
      split
      · next hf =>
        have := h.takeOne hr hf h.next
        rwa [Nat.add_sub_cancel' hin.1] at this
      · exact h
    · exact h
  | free id =>
    dsimp only [JettyIds.next]
    split
    · next hid => exact h.giveOne hr hid
    · exact h
  | createGrp idOk xaOk mboxOk =>
    dsimp only [JettyIds.next]
    rcases h.allocBlock hr with ⟨he, -⟩ | ⟨i, hi, hin, he⟩
    · rw [he]
      exact h
    rw [he]
    have hnext := nextStart hr (by omega) (by omega : r.min + 32 * i ≤ r.max) (le_refl 32)
    dsimp only
    split
    · rw [udmaAdvIdFree_block hr hin, setWord_back hi]
      exact { h with grpNext := hnext }
    next hid =>
    obtain ⟨hx, hm⟩ := ha (by simpa using hid)
    rw [if_neg (by simp [hx]), if_neg (by simp [hm])]
    exact h.takeBlock hi hin hnext
  | deleteGrp start mboxOk =>
    dsimp only [JettyIds.next]
    split
    · next hg => exact h.giveBlock hr hg.1
    · exact h

theorem Owned.in_range (hr : r.Ok) (h : Owned r s) {id : Nat} (hid : s.owners id ≠ 0) :
    r.min ≤ id ∧ id ≤ r.max := by
  have hn := hr.nBits_eq
  unfold JettyIds.owners at hid
  by_cases hs : s.singles.count id = 0
  · obtain ⟨g, hg, hin⟩ := countP_pos_iff.mp (Nat.pos_of_ne_zero fun hc => hid (by rw [hs, hc]))
    obtain ⟨i, rfl, hi⟩ := h.groups g hg
    rw [decide_eq_true_iff] at hin
    omega
  · exact h.singles id (count_pos_iff.mp (Nat.pos_of_ne_zero hs))

theorem Owned.owners_eq (hr : r.Ok) (h : Owned r s) {id : Nat} (h1 : r.min ≤ id) (h2 : id ≤ r.max) :
    s.owners id + (s.free (id - r.min)).toNat = 1 := by
  have hn := hr.nBits_eq
  have := h.taken (id - r.min) (by omega)
  rwa [Nat.add_sub_cancel' h1] at this

end Steps

/-- In a run in which no group creation fails after it has its group id, the cleared bits are the ids
that are owned, each by one; and a search fails only if there is nothing to find. -/
theorem jetty_ids_owned {r : IdRange} (hr : r.Ok) {s : JettyIds}
    (hs : Reach IdKept (JettyIds.next r) (JettyIds.init r) s) :
    s.fault = false ∧
    (∀ id, r.min ≤ id → id ≤ r.max → (s.free (id - r.min) = false ↔ s.owners id = 1)) ∧
    (∀ id, s.owners id ≤ 1) ∧ (∀ id, s.owners id ≠ 0 → r.min ≤ id ∧ id ≤ r.max) ∧
    (allocTwice r s.free false s.nextIdx = .none →
      ∀ id, r.min ≤ id → id ≤ r.max → s.owners id = 1) ∧
    (allocTwice r s.free true s.grpNext = .none →
      ∀ i, r.min + 32 * i + 31 ≤ r.max → ∃ b, b < 32 ∧ s.owners (r.min + 32 * i + b) = 1) := by
  have h : Owned r s := hs.invariant (Owned.init hr) fun _ _ h ha => h.step hr ha
  refine ⟨h.sound, fun id h1 h2 => ?_, fun id => ?_, fun id => h.in_range hr, fun hnone id h1 h2 => ?_,
    fun hnone i hi => ?_⟩
  · have := h.owners_eq hr h1 h2
    cases hf : s.free (id - r.min) with
    | false => simpa [hf] using this
    | true =>
      rw [hf, Bool.toNat_true] at this
      exact ⟨nofun, fun hone => by omega⟩
  · by_cases hid : s.owners id = 0
    · omega
    · obtain ⟨h1, h2⟩ := h.in_range hr hid
      exact Nat.le.intro (h.owners_eq hr h1 h2)
  · rcases h.allocOne hr with ⟨-, hall⟩ | ⟨k, -, hk⟩
    · have := h.owners_eq hr h1 h2
      rwa [hall] at this
    · rw [hnone] at hk
      cases hk
  · rcases h.allocBlock hr with ⟨-, hall⟩ | ⟨k, -, -, hk⟩
    · obtain ⟨b, hb, hf⟩ := hall i
      have := h.owners_eq hr (by omega) (by omega : r.min + 32 * i + b ≤ r.max)
      rw [show r.min + 32 * i + b - r.min = 32 * i + b by omega, hf] at this
      exact ⟨b, hb, this⟩
    · rw [hnone] at hk
      cases hk

/-- Seventy ids from 5 on: two whole blocks and six ids of a third. -/
def seventyIds : IdRange := ⟨5, 74⟩

/-- Two jetties in the first block of ids and a group in the second. -/
def twoTaken : JettyIds :=
  [IdAct.alloc, .specify 20, .createGrp true true true].foldl (JettyIds.next seventyIds) (.init seventyIds)

theorem jetty_ids_owned_two : twoTaken.owners 5 = 1 ∧ twoTaken.owners 20 = 1 ∧ twoTaken.groups = [37] ∧
    twoTaken.free 15 = false ∧ twoTaken.free 35 = false ∧ twoTaken.fault = false := by
  have h := jetty_ids_owned ⟨by decide, by decide⟩ (s := twoTaken)
    (Reach.init.along ⟨trivial, trivial, fun _ => ⟨rfl, rfl⟩, trivial⟩)
  exact ⟨by decide, by decide, by decide, (h.2.1 20 (by decide) (by decide)).mpr (by decide),
    (h.2.1 40 (by decide) (by decide)).mpr (by decide), h.1⟩

/-- The store of a new group in the xarray fails, and so does the mailbox of another one. -/
def lostBlocks : JettyIds :=
  [IdAct.createGrp true false true, .createGrp true true false].foldl (JettyIds.next ⟨0, 63⟩)
    (.init ⟨0, 63⟩)

/-- No id has an owner, and no id is free. -/
theorem lost_blocks :
    Reach (fun _ _ => True) (JettyIds.next ⟨0, 63⟩) (JettyIds.init ⟨0, 63⟩) lostBlocks ∧
    (∀ id, lostBlocks.owners id = 0) ∧ ∀ id, id < 64 → lostBlocks.free id = false := by
  exact ⟨.foldl _, fun id => rfl, by decide +kernel⟩

end UbDkms.Udma
