import UbDkms.Ubase.Ctrlq

/-!
# The slots of the control queue

Which slots `ubase_ctrlq_alloc_seq` looks at, and whose slot `ubase_ctrlq_free_seq` clears.
-/

namespace UbDkms.Ubase

open Lib List

/-! ## The search for a free slot -/

/-- The search reaches `depth` sequence numbers in a row: from `csq_next_seq` on without
meeting the end of the sequence space, or from 1 on. -/
def Ctrlq.InRow (q : Ctrlq) : Prop := q.nextSeq + q.depth ≤ maxSeq + 1 ∨ q.nextSeq = maxSeq + 1

section Search

variable {q : Ctrlq}

theorem take_range' {s n k : Nat} (h : k ≤ n) : (range' s n).take k = range' s k := by
  rw [← Nat.add_sub_cancel' h, ← range'_append_1]
  exact take_left' length_range'

theorem candidates_eq (hd : q.depth ≤ maxSeq) (h : q.InRow) : ∃ s,
    (range' q.nextSeq (maxSeq + 1 - q.nextSeq) ++ range' 1 (q.nextSeq - 1)).take q.depth =
      range' s q.depth := by
  rcases h with h | h
  · refine ⟨q.nextSeq, ?_⟩
    rw [take_append_of_le_length (by rw [length_range']; omega), take_range' (by omega)]
  · refine ⟨1, ?_⟩
    rw [h, Nat.sub_self]
    exact take_range' hd

theorem exists_mem_range'_mod {s d i : Nat} (hi : i < d) : ∃ j ∈ range' s d, j % d = i := by
  refine ⟨s + (i + (d - s % d)) % d, mem_range'_1.mpr ⟨Nat.le_add_right _ _, ?_⟩, ?_⟩
  · exact Nat.add_lt_add_left (Nat.mod_lt _ (by omega)) s
  · have hs := Nat.mod_lt s (Nat.zero_lt_of_lt hi)
    rw [Nat.add_mod_mod, ← Nat.mod_add_mod, show s % d + (i + (d - s % d)) = i + d by omega,
      Nat.add_mod_right, Nat.mod_eq_of_lt hi]

/-- The last `a` numbers up to `m` and the first `d - a` from 1 on are `d` in all, but two of them
have the same remainder unless `d` divides `m`. -/
theorem exists_missed {m d a : Nat} (ha : 0 < a) (had : a < d) (hm : m % d ≠ 0) : ∃ i < d,
    (∀ c, m < c + a → c ≤ m → c % d ≠ i) ∧ ∀ c, 1 ≤ c → c ≤ d - a → c % d ≠ i := by
  have hd : 0 < d := by omega
  -- the remainders that the last `a` numbers leave are those of the `d - a` numbers after `m`
  have hlast : ∀ j < d - a, ∀ c, m < c + a → c ≤ m → c % d ≠ (m + 1 + j) % d := fun j hj c h1 h2 hc => by
    have := Nat.le_of_dvd (by omega) ((Nat.modEq_iff_dvd' (by omega)).mp hc)
    omega
  have hfirst : ∀ c, 1 ≤ c → c ≤ d - a → c % d = c := fun c _ _ => Nat.mod_eq_of_lt (by omega)
  have hlt := Nat.mod_lt m hd
  have hdiv := Nat.div_add_mod m d
  by_cases h : m % d + 1 ≤ d - a
  · -- the number after the first ones, or 0
    refine ⟨(d - a + 1) % d, Nat.mod_lt _ hd, fun c h1 h2 => ?_, fun c h1 h2 hc => ?_⟩
    · have heq : (m + 1 + (d - a - m % d)) % d = (d - a + 1) % d := by
        rw [show m + 1 + (d - a - m % d) = d - a + 1 + d * (m / d) by omega, Nat.add_mul_mod_self_left]
      rw [← heq]
      exact hlast _ (by omega) c h1 h2
    · rw [hfirst c h1 h2] at hc
      obtain hd1 | hd1 := Nat.lt_or_eq_of_le (show d - a + 1 ≤ d by omega)
      · rw [Nat.mod_eq_of_lt hd1] at hc
        omega
      · rw [hd1, Nat.mod_self] at hc
        omega
  · refine ⟨(m + 1) % d, Nat.mod_lt _ hd, hlast 0 (by omega), fun c h1 h2 hc => ?_⟩
    rw [hfirst c h1 h2, ← Nat.mod_add_mod] at hc
    obtain hd1 | hd1 := Nat.lt_or_eq_of_le (show m % d + 1 ≤ d by omega)
    · rw [Nat.mod_eq_of_lt hd1] at hc
      omega
    · rw [hd1, Nat.mod_self] at hc
      omega

/-- The candidates that meet the end of the sequence space miss a slot: the depth is even and
does not divide 32767. -/
theorem exists_unseen (hd : q.csqDepth < 16384) (hn : 1 ≤ q.nextSeq ∧ q.nextSeq ≤ maxSeq + 1)
    (h : ¬q.InRow) : ∃ i < q.depth, ∀ seq ∈ (range' q.nextSeq (maxSeq + 1 - q.nextSeq) ++
      range' 1 (q.nextSeq - 1)).take q.depth, seq % q.depth ≠ i := by
  unfold Ctrlq.InRow at h
  have hodd : maxSeq % q.depth ≠ 0 := fun hc => by
    have := (Nat.dvd_mul_right 2 q.csqDepth).trans (Nat.dvd_of_mod_eq_zero hc)
    revert this
    decide
  have hdepth : q.depth < 32768 := by
    unfold Ctrlq.depth
    omega
  unfold maxSeq at h hn hodd ⊢
  obtain ⟨i, hi, h1, h2⟩ := exists_missed (a := 32768 - q.nextSeq) (by omega) (by omega) hodd
  refine ⟨i, hi, fun seq hseq => ?_⟩
  rw [take_append, length_range', take_range' (by omega : q.depth - (32767 + 1 - q.nextSeq) ≤ q.nextSeq - 1),
    mem_append, mem_range'_1] at hseq
  rcases hseq with hseq | hseq
  · have := mem_range'_1.mp (mem_of_mem_take hseq)
    exact h1 seq (by omega) (by omega)
  · exact h2 seq (by omega) (by omega)

/-- What the search finds is a sequence number in use and its slot is free; that it finds one
whenever a slot is free holds exactly where its candidates are in a row. -/
theorem allocSeq_complete (hd : 1 ≤ q.csqDepth ∧ q.csqDepth < 16384)
    (hn : 1 ≤ q.nextSeq ∧ q.nextSeq ≤ maxSeq + 1) :
    (∀ seq, allocSeq q = some seq → 1 ≤ seq ∧ seq ≤ maxSeq ∧ (q.slot (seq % q.depth)).valid = false) ∧
      ((∀ slot : Nat → MsgCtx, (∃ i < q.depth, (slot i).valid = false) →
        ∃ seq, allocSeq { q with slot } = some seq) ↔ q.InRow) := by
  have hdepth : 0 < q.depth ∧ q.depth ≤ maxSeq := by
    unfold Ctrlq.depth maxSeq
    omega
  refine ⟨fun seq h => ?_, fun hall => ?_, fun hrow slot ⟨i, hi, hv⟩ => ?_⟩
  · have hmem := mem_of_mem_take (mem_of_find?_eq_some h)
    rw [mem_append, mem_range'_1, mem_range'_1] at hmem
    exact ⟨by omega, by omega, not_valid_of_allocSeq h⟩
  · by_contra hrow
    obtain ⟨i, hi, hmiss⟩ := exists_unseen hd.2 hn hrow
    obtain ⟨seq, hseq⟩ := hall (fun k => { valid := decide (k ≠ i) }) ⟨i, hi, by simp⟩
    have hfree := not_valid_of_allocSeq hseq
    rw [decide_eq_false_iff_not, not_not] at hfree
    exact hmiss seq (mem_of_find?_eq_some hseq) hfree
  · obtain ⟨s, hs⟩ := candidates_eq hdepth.2 hrow
    obtain ⟨j, hj, rfl⟩ := exists_mem_range'_mod hi (s := s)
    rw [← Option.isSome_iff_exists, allocSeq]
    change (((range' q.nextSeq (maxSeq + 1 - q.nextSeq) ++ range' 1 (q.nextSeq - 1)).take q.depth).find?
      fun i => !(slot (i % q.depth)).valid).isSome
    rw [hs, find?_isSome]
    exact ⟨j, hj, by rw [hv]; rfl⟩

/-- A queue of 16 slots, all taken but one. -/
def oneFree (next free : Nat) : Ctrlq :=
  { ctrlqInit 8 with nextSeq := next, slot := fun i => { valid := decide (i ≠ free) } }

theorem allocSeq_complete_oneFree : ∃ seq, allocSeq (oneFree 5 0) = some seq :=
  (allocSeq_complete (q := oneFree 5 0) (by decide) (by decide)).2.mpr (by unfold Ctrlq.InRow; decide)
    _ ⟨0, by decide, rfl⟩

/-- From 32767 on the candidates are 32767, on slot 15, and 1 to 15: slot 0 is not seen. -/
theorem oneFree_wrap : allocSeq (oneFree maxSeq 0) = none ∧
    ((oneFree maxSeq 0).slot 0).valid = false := by
  decide +kernel

end Search

/-! ## Whose slot is freed -/

/-- No sequence number is given out whose slot is that of a request still being sent. -/
def SlotApart (q : Ctrlq) : CtrlqAct → Prop
  | .alloc _ => ∀ seq, allocSeq q = some seq → q.holders (seq % q.depth) = 0
  | _ => True

/-- The slot of `seq` is free or has the request that was given `seq`. -/
def Ctrlq.Mine (q : Ctrlq) (kind : MsgKind) (seq : Nat) : Prop :=
  (q.slot (seq % q.depth)).valid = true →
    kind ≠ .notify ∧ q.slot (seq % q.depth) = ⟨true, decide (kind = .sync), seq⟩

structure Apart (q : Ctrlq) : Prop where
  alone : ∀ i, q.holders i ≤ 1
  mine : ∀ kind seq, kind ≠ .resp → ⟨kind, .sending seq⟩ ∈ q.senders → q.Mine kind seq

section Free

variable {q q' : Ctrlq} {n : Nat} {olds news : List Sender} {kind : MsgKind} {seq : Nat}

theorem Ctrlq.Mine.congr (h : q.Mine kind seq) (hd : q'.depth = q.depth)
    (hs : (q'.slot (seq % q.depth)).valid → q'.slot (seq % q.depth) = q.slot (seq % q.depth)) :
    q'.Mine kind seq := fun hv => by
  rw [hd] at hv ⊢
  have heq := hs hv
  rw [heq] at hv ⊢
  exact h hv

theorem Apart.shrink (h : Apart q) (hd : q'.depth = q.depth) (hsw : Swap q.senders q'.senders olds news)
    (hnews : ∀ i, news.countP (Sender.holds q.depth i) = 0)
    (hs : ∀ i, (q'.slot i).valid → q'.slot i = q.slot i) : Apart q' := by
  refine ⟨fun i => ?_, fun kind seq hk hm => ?_⟩
  · have hsum := holders_swap hd hsw i
    rw [hnews i] at hsum
    have := h.alone i
    omega
  · refine (h.mine kind seq hk ((hsw.mem hm).resolve_right fun hc => ?_)).congr hd (hs _)
    exact countP_eq_zero.mp (hnews (seq % q.depth)) _ hc ((sending_holds hk _ _).trans (decide_eq_true rfl))

theorem Apart.take (h : Apart q) (hd : q'.depth = q.depth) (hk : kind ≠ .resp)
    (hsw : Swap q.senders q'.senders [⟨kind, .acquired⟩] [⟨kind, .sending seq⟩])
    (halone : q.holders (seq % q.depth) = 0) (hother : ∀ i, i ≠ seq % q.depth → q'.slot i = q.slot i)
    (hown : q'.Mine kind seq) : Apart q' := by
  refine ⟨fun i => ?_, fun kind' seq' hk' hm => ?_⟩
  · rw [holders_take hd hk hsw]
    split
    · next hi => rw [← hi, halone]
    · exact h.alone i
  · rcases hsw.mem hm with hold | hnew
    · refine (h.mine kind' seq' hk' hold).congr hd fun _ => hother _ fun hc => ?_
      have hpos : 0 < q.holders (seq' % q.depth) :=
        countP_pos_iff.mpr ⟨_, hold, (sending_holds hk' _ _).trans (decide_eq_true rfl)⟩
      rw [hc, halone] at hpos
      cases hpos
    · cases mem_singleton.mp hnew
      exact hown

theorem addtoMsgQueue_mine (hfree : (q.slot (seq % q.depth)).valid = false) :
    (addtoMsgQueue q seq kind).Mine kind seq := by
  unfold Ctrlq.Mine
  rw [addtoMsgQueue_depth]
  cases kind with
  | sync | async => exact fun _ => ⟨nofun, if_pos rfl⟩
  | notify | resp => exact fun hv => absurd (hfree.symm.trans hv) (by decide)

theorem Apart.next {a : CtrlqAct} (h : Apart q) (ha : SlotApart q a) : Apart (q.next a) := by
  have hid : ∀ i, (q.slot i).valid → q.slot i = q.slot i := fun _ _ => rfl
  cases a with
  | down kind =>
    dsimp only [Ctrlq.next]
    split
    · exact h
    exact h.shrink rfl (Swap.push _) (fun i => by cases kind <;> rfl) hid
  | sendResp seq => exact h.shrink rfl (Swap.push _) (fun _ => rfl) hid
  | alloc n =>
    dsimp only [Ctrlq.next]
    split
    · next kind hn =>
      unfold Ctrlq.alloc
      cases hseq : allocSeq q with
      | none => exact h.shrink rfl (Swap.eraseIdx hn) (fun _ => rfl) hid
      | some seq =>
        by_cases hk : kind = .resp
        · subst hk
          exact h.shrink rfl (Swap.set hn _) (fun _ => rfl) hid
        · exact h.take addtoMsgQueue_depth hk (Swap.set hn _) (ha seq hseq)
            (fun i hi => addtoMsgQueue_other hi) (addtoMsgQueue_mine (not_valid_of_allocSeq hseq))
    · exact h
  | transmit n =>
    dsimp only [Ctrlq.next]
    split
    · exact h
    · exact { h with }
    · exact h
  | release n failed =>
    dsimp only [Ctrlq.next]
    split
    · next kind seq hn =>
      unfold Ctrlq.release
      split
      · exact h.shrink rfl (Swap.eraseIdx hn) (fun _ => rfl) hid
      · exact h.shrink rfl (Swap.set hn _) (fun i => by cases kind <;> rfl) fun i hv => freeSeq_slot hv
    · exact h
  | up n =>
    dsimp only [Ctrlq.next]
    split
    · next hn => exact h.shrink rfl (Swap.eraseIdx hn) (fun _ => rfl) hid
    · exact h
  | respond seq =>
    dsimp only [Ctrlq.next]
    split
    · dsimp only [Ctrlq.respond]
      split
      · exact { h with }
      split
      · exact { h with }
      · exact h.shrink rfl Swap.refl (fun _ => rfl) fun i hv => freeSeq_slot hv
    · exact h
  | clean expired => exact h.shrink rfl Swap.refl (fun _ => rfl) fun i hv => Ctrlq.clean_slot hv
  | reset => exact h.shrink rfl Swap.refl (fun _ => rfl) fun i hv => Ctrlq.reset_slot hv

/-- In a run where no slot is given out while a request on it is being sent, the slot that a
sender frees is free or its own, and no other sender has it. -/
theorem freed_slot_own {m : Nat} (hs : Reach SlotApart Ctrlq.next (ctrlqInit m) q) (hk : kind ≠ .resp)
    (hn : q.senders[n]? = some ⟨kind, .sending seq⟩) :
    q.Mine kind seq ∧ q.holders (seq % q.depth) = 1 := by
  have h0 : Apart (ctrlqInit m) := ⟨fun _ => Nat.zero_le 1, fun _ _ _ hm => absurd hm not_mem_nil⟩
  have h : Apart q := hs.invariant h0 fun _ _ h ha => h.next ha
  have hmem := mem_of_getElem? hn
  refine ⟨h.mine kind seq hk hmem, Nat.le_antisymm (h.alone _) (countP_pos_iff.mpr ⟨_, hmem, ?_⟩)⟩
  exact (sending_holds hk _ _).trans (decide_eq_true rfl)

def twoSenders : Ctrlq :=
  [.down .notify, .alloc 0, .down .sync, .alloc 1].foldl Ctrlq.next (ctrlqInit 8)

theorem freed_slot_own_twoSenders : (twoSenders.slot 2).valid = true ∧ twoSenders.Mine .sync 2 := by
  have hs : Reach SlotApart Ctrlq.next (ctrlqInit 8) twoSenders := by
    refine Reach.init.along ⟨trivial, fun _ _ => rfl, trivial, fun seq hseq => ?_, trivial⟩
    cases hseq.symm.trans (by decide : _ = some 2)
    decide
  exact ⟨by decide, (freed_slot_own (n := 1) hs (by decide) (by decide)).1⟩

/-- The notify 1 is still being sent when 2 to 16 are done and the sync request 17 is put on its
slot. -/
def notifyFrees : Ctrlq :=
  let passes : List CtrlqAct := [.down .sync, .alloc 1, .release 1 false, .up 1]
  let late : List CtrlqAct := [.down .sync, .alloc 1, .transmit 1]
  (.down .notify :: .alloc 0 :: (replicate 15 passes).flatten ++ late).foldl Ctrlq.next (ctrlqInit 8)

theorem notifyFrees_other : Reach (fun _ _ => True) Ctrlq.next (ctrlqInit 8) notifyFrees ∧
    notifyFrees.senders = [⟨.notify, .sending 1⟩, ⟨.sync, .sending 17⟩] ∧
    notifyFrees.slot 1 = ⟨true, true, 17⟩ ∧ ((notifyFrees.next (.release 0 false)).slot 1).valid = false :=
  ⟨.foldl _, by decide +kernel⟩

end Free

end UbDkms.Ubase
