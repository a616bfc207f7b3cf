import UbDkms.Mapt.Clear

/-!
# Updating the tokens of a segment

`ummu_table_update_token_by_level` visits the nodes that hold a segment and
changes their tokens as the segment's record is changed. The shape of the tree
stays.
-/

namespace UbDkms.Mapt

open Lib

structure Updatable (op : GrantOp) (d : DataInfo) (s : SegInfo) : Prop where
  tokenCheck : s.tokenCheck = true
  op : (op = .addToken ∧ s.tokenCount = 1) ∨
    (op = .removeToken ∧ (s.tokenVal0 = d.tokenval ∨ s.tokenVal1 = d.tokenval))

theorem tokenUpdated_start (op : GrantOp) (v : UInt32) (s : SegInfo) :
    (tokenUpdated op v s).startAddr = s.startAddr ∧ (tokenUpdated op v s).grantSize = s.grantSize ∧
      (tokenUpdated op v s).permission = s.permission ∧ (tokenUpdated op v s).eBit = s.eBit ∧
      (tokenUpdated op v s).tokenCheck = s.tokenCheck := by
  unfold tokenUpdated ummuRemoveTokenval
  split
  · split
    · exact ⟨rfl, rfl, rfl, rfl, rfl⟩
    · split <;> exact ⟨rfl, rfl, rfl, rfl, rfl⟩
  · exact ⟨rfl, rfl, rfl, rfl, rfl⟩

theorem tokenUpdated_last (op : GrantOp) (v : UInt32) (s : SegInfo) :
    (tokenUpdated op v s).last = s.last := by
  rw [SegInfo.last, SegInfo.last, (tokenUpdated_start op v s).1, (tokenUpdated_start op v s).2.1]

theorem Holds.retoken {op : GrantOp} {v : UInt32} {s : SegInfo} {nd : TableNode} {l p nonce : Nat}
    {v0 v1 : UInt32} (h : Holds nd s l p)
    (ht : nonce = (tokenUpdated op v s).tokenCount ∧ v0 = (tokenUpdated op v s).tokenVal0 ∧
      v1 = (tokenUpdated op v s).tokenVal1) :
    Holds { nd with nonce := nonce, tokenVal0 := v0, tokenVal1 := v1 } (tokenUpdated op v s) l p := by
  obtain ⟨hs1, hs2, hs3, hs4, hs5⟩ := tokenUpdated_start op v s
  refine ⟨h.base.trans ?_, h.limit.trans ?_, h.permission.trans ?_, h.eBit.trans hs4.symm,
    h.tokenCheck.trans hs5.symm, h.fBit, fun _ => ht⟩
  · rw [nodeBase, nodeBase, hs1]
  · rw [nodeLimit, nodeLimit, tokenUpdated_last]
  · rw [hs3]

theorem updateToken_spec {op : GrantOp} {d : DataInfo} {s : SegInfo} {nd : TableNode} {l p : Nat}
    (hup : Updatable op d s) (hv : nd.valid) (h : Holds nd s l p) :
    ∃ nd', ummuUpdateToken op nd d = (none, nd') ∧ Holds nd' (tokenUpdated op d.tokenval s) l p ∧
      nd'.valid ∧ nd'.type = nd.type ∧ nd'.nextLvIndex = nd.nextLvIndex ∧
      nd'.nextLvOffset = nd.nextLvOffset := by
  obtain ⟨hnonce, ht0, ht1⟩ := h.token hup.tokenCheck
  rcases hup.op with ⟨rfl, hc⟩ | ⟨rfl, hc⟩
  · exact ⟨_, if_pos ⟨hv, hnonce.trans hc⟩, h.retoken ⟨rfl, ht0, rfl⟩, hv, rfl, rfl, rfl⟩
  by_cases h0 : s.tokenVal0 = d.tokenval
  · refine ⟨_, if_pos (ht0.trans h0), h.retoken ?_, hv, rfl, rfl, rfl⟩
    simp [tokenUpdated, ummuRemoveTokenval, h0, ht1]
  have h1 : s.tokenVal1 = d.tokenval := hc.resolve_left h0
  refine ⟨_, (if_neg (fun hc => h0 (ht0.symm.trans hc))).trans (if_pos (ht1.trans h1)),
    h.retoken ?_, hv, rfl, rfl, rfl⟩
  simp [tokenUpdated, ummuRemoveTokenval, h0, h1, ht0]

section Token

variable (fb : Bool) (S : List SegInfo) (use0 : Nat → Nat → Option SegInfo) (s s' : SegInfo)

/-- The table with the tokens updated up to address `y`. -/
def Updated (G : Ghost) (y : Nat) (st : St) : Prop :=
  ∃ G', Rep fb S st G' ∧ G'.valid = G.valid ∧ G'.loc = G.loc ∧
    G'.use = sweep use0 (HeldBy use0 s) (some s') y

def UpdatesBelow (next : Walk) (l p : Nat) : Prop :=
  ∀ st G, Rep fb S st G → (G.loc (l + 1) p).isSome →
    G.use = sweep use0 (HeldBy use0 s) (some s') (p * span l) →
    Outcome (next (G.at l p) (nodeBase s l p) (nodeLimit s l p) st)
      (Updated fb S use0 s s' G ((p + 1) * span l)) fun _ _ => False

variable {fb S use0 s s'} {st : St} {G : Ghost} {l p q Y ld : Nat} {d : DataInfo} {op : GrantOp}

variable (P : ClearPlan use0 s Y ld) (hup : Updatable op d s) (hs' : s' = tokenUpdated op d.tokenval s)
include P hup hs'

theorem updated_node (h : Rep fb S st G) (hT : use0 l p = some s)
    (hu : G.use = sweep use0 (HeldBy use0 s) (some s') (p * span l)) :
    Outcome (st.updateToken op d (G.at l p)) (Updated fb S use0 s s' G ((p + 1) * span l))
      fun _ _ => False := by
  have hus : G.use l p = some s := by rw [hu, sweep_le (Nat.le_refl _), hT]
  have hv : G.valid l p := h.maps.used (by rw [hus]; rfl)
  have hnode := h.nodeRep (h.maps.placed hv)
  rw [hv] at hnode
  obtain ⟨nd', hcode, hheld, hvd, hty, hix, hof⟩ :=
    updateToken_spec hup (hnode.isValid rfl) (hnode.held s rfl hus)
  rw [St.updateToken, hcode]
  have hset := h.setNode (u := some s') nd' hv ⟨nofun, fun _ => hvd, fun _ => ?_,
    fun t _ ht => by rw [← Option.some.inj ht, hs']; exact hheld, nofun⟩
  · refine ⟨_, hset, ?_, rfl, ?_⟩
    · funext l' p'
      by_cases hlp : l' = l ∧ p' = p
      · rw [hlp.1, hlp.2, setCell_valid, set2_self, hv]
      · rw [setCell_valid, set2_ne hlp]
    · rw [setCell_use, hu, P.plan.sweep_node (P.level hT) hT]
  · have := hnode.links rfl
    cases hc : G.loc (l + 1) p with
    | none => rw [hc] at this; exact hty.trans this
    | some id =>
      rw [hc] at this
      exact ⟨hty.trans this.1, hix.trans this.2.1, hof.trans this.2.2⟩

theorem update_head {next : Walk}
    (hnext : l + 1 ≤ 3 → use0 l p ≠ some s → UpdatesBelow fb S use0 s s' next l p)
    (h : Rep fb S st G) (hv : G.valid l p) (hm : Meets s l p)
    (hpath : ∀ {l'}, l' < l → use0 l' (p * span l / span l') ≠ some s)
    (hY : (p + 1) * span l ≤ Y)
    (hu : G.use = sweep use0 (HeldBy use0 s) (some s') (p * span l)) :
    Outcome (if fb then ummuTableUpdateNodeTokenFreeBit op d next (G.at l p)
          (nodeBase s l p) (nodeLimit s l p) st
        else ummuTableUpdateNodeToken op d next (G.at l p) (nodeBase s l p) (nodeLimit s l p) st)
      (Updated fb S use0 s s' G ((p + 1) * span l)) fun _ _ => False := by
  have hnode := h.nodeRep (h.maps.placed hv)
  rw [hv] at hnode
  have hhere : G.use l p = use0 l p := by rw [hu, sweep_le (Nat.le_refl _)]
  unfold ummuTableUpdateNodeTokenFreeBit ummuTableUpdateNodeToken
  by_cases hT : use0 l p = some s
  · have hheld := hnode.held s rfl (hhere.trans hT)
    have hmatch : ((st.node (G.at l p)).base = nodeBase s l p ∧
        (st.node (G.at l p)).limit = nodeLimit s l p) = True := eq_true ⟨hheld.base, hheld.limit⟩
    have := updated_node P hup hs' h hT hu
    cases fb <;>
      simpa only [hheld.fBit, hmatch, if_true, Bool.false_eq_true, if_false] using this
  obtain ⟨l', p', hl', hp', hus⟩ := P.held_below hm hpath hY
  have hl3 := P.level hus
  have hlt : l < l' := Nat.lt_of_le_of_ne hl' (by
    rintro rfl
    rw [prefix_self] at hp'
    exact hT (hp' ▸ hus))
  have hc : (G.loc (l + 1) p).isSome :=
    child_of_used h hlt hl3 hp' (by rw [hu, sweep_le (range_le hl' hp').1, hus]; rfl)
  obtain ⟨id, hid⟩ := Option.isSome_iff_exists.mp hc
  have hlinks := hnode.links rfl
  rw [hid] at hlinks
  have htype : (st.node (G.at l p)).type = false := hlinks.1
  have hbelow := hnext (by omega) hT st G h hc hu
  cases hu0 : use0 l p with
  | none =>
    have hfreed := hnode.freed rfl (hhere.trans hu0)
    cases fb with
    | false =>
      obtain ⟨hb, hlim⟩ : (st.node (G.at l p)).base = invalidAddr ∧
        (st.node (G.at l p)).limit = invalidAddr := hfreed
      have hmatch : ¬((st.node (G.at l p)).base = nodeBase s l p ∧
          (st.node (G.at l p)).limit = nodeLimit s l p) := fun hc => by
        have := base_in_use P.aligned l p
        rw [← hc.1, hb] at this
        cases this
      simpa only [hmatch, htype, Bool.false_eq_true, if_false] using hbelow
    | true =>
      have hfb : (st.node (G.at l p)).fBit := hfreed
      simpa only [hfb, htype, if_true, Bool.false_eq_true, if_false] using hbelow
  | some t =>
    have hne : t ≠ s := fun he => hT (he ▸ hu0)
    have hheld := hnode.held t rfl (hhere.trans hu0)
    have hmatch := P.no_match hm hu0 hne hheld
    cases fb <;>
      simpa only [hheld.fBit, hmatch, htype, if_true, Bool.false_eq_true, if_false] using hbelow

section Level

variable {n : Nat} (hn : l + n = 3) (h : Rep fb S st G) (hloc : (G.loc l q).isSome) (hm : MeetsBlock s l q)
  (hpath : ∀ {l'}, l' < l → use0 l' (q * bspan l / span l') ≠ some s) (hY : (q + 1) * bspan l ≤ Y)
  (hu : G.use = sweep use0 (HeldBy use0 s) (some s') (q * bspan l))
include hn h hloc hm hpath hY hu

/-- The loop of one level keeps the tokens updated up to the node it visits next. -/
theorem update_level
    (hnext : ∀ p, p / 512 = q → Meets s l p → (p + 1) * span l ≤ Y → l + 1 ≤ 3 → use0 l p ≠ some s →
      UpdatesBelow fb S use0 s s' (ummuTableUpdateTokenByLevel fb op d n) l p) :
    Outcome (ummuTableUpdateTokenByLevel fb op d (n + 1) (G.pre l q) (blockBase s l q)
        (blockLimit s l q) st)
      (Updated fb S use0 s s' G ((q + 1) * bspan l)) fun _ _ => False := by
  obtain ⟨id, hid⟩ := Option.isSome_iff_exists.mp hloc
  obtain ⟨hidx, hoff⟩ := h.pre_links hid
  have hpres := Option.isSome_iff_ne_none.mp (h.present hid)
  have hlev : maptMaxLvlIndex - n = l := by unfold maptMaxLvlIndex; omega
  have hl : l ≤ 3 := by omega
  have hi := loopIdx hm
  rw [ummuTableUpdateTokenByLevel]
  simp only [hidx, hoff, hlev]
  rw [if_neg (by simpa using hpres)]
  generalize getLevelBlockIndex (blockBase s l q) l = b at hi
  generalize getLevelBlockIndex (blockLimit s l q) l = e at hi
  have hble := hi.le
  have helt := hi.lt
  refine (forRange_outcome (I := fun i => Updated fb S use0 s s' G ((512 * q + i) * span l))
    (E := fun _ _ => False) ?_ ?_).mono (fun st' hst => ?_) fun _ _ h => h
  rotate_left 2
  · obtain ⟨G', hr, hva, hlo, hu'⟩ := hst
    rw [show b + (e + 1 - b) = e + 1 by omega, P.plan.sweep_end hl hi] at hu'
    exact ⟨G', hr, hva, hlo, hu'⟩
  · exact ⟨G, h, rfl, rfl, by rw [hu, P.plan.sweep_start hl hi fun l' hl' => hpath hl']⟩
  · rintro i st' hbi hie ⟨G', hr, hva, hlo, hu'⟩
    have hq : (512 * q + i) / 512 = q := by omega
    have hmi := hi.meets hbi (by omega)
    have hpath' : ∀ {l'}, l' < l → use0 l' ((512 * q + i) * span l / span l') ≠ some s :=
      fun {l'} hl' => by rw [prefix_block hl' hl, hq]; exact hpath hl'
    have hend : (512 * q + i + 1) * span l ≤ (q + 1) * bspan l := by
      rw [bspan, ← Nat.mul_assoc]
      exact Nat.mul_le_mul_right _ (by omega)
    have hw := span_pos l
    have hsucc : (512 * q + i + 1) * span l = (512 * q + i) * span l + span l := by ring
    have hloc' : G'.loc l ((512 * q + i) / 512) = some id := by rw [hq, hlo, hid]
    obtain ⟨l', p', hl', hp', hus⟩ := P.held_below hmi hpath' (by omega)
    have hv : G'.valid l (512 * q + i) :=
      valid_of_used hr hl' (P.level hus) hp' (by rw [hu', sweep_le (range_le hl' hp').1, hus]; rfl)
    have hcur := Ghost.cell_at hloc' (by omega)
    have hstep : ∀ {st : St}, Updated fb S use0 s s' G' ((512 * q + i + 1) * span l) st →
        Updated fb S use0 s s' G ((512 * q + (i + 1)) * span l) st := by
      rintro st ⟨G2, hr2, hva2, hlo2, hu2⟩
      exact ⟨G2, hr2, hva2.trans hva, hlo2.trans hlo, hu2⟩
    have hnode := (hr.nodeRep (hr.maps.placed hv)).valid_eq
    rw [hv] at hnode
    simp only [hcur, hi.base hbi (show i ≤ e by omega), hi.limit hbi (show i ≤ e by omega),
      hnode, Bool.true_eq_false, if_false]
    split
    · next hmid =>
      obtain ⟨-, hT⟩ := P.middle (hi.fills hmid.1 hmid.2) hpath' (by omega) fun hc => by omega
      exact (updated_node P hup hs' hr hT hu').mono (fun _ h => hstep h) fun _ _ h => h
    · exact (update_head P hup hs' (hnext _ hq hmi (by omega)) hr hv hmi hpath' (by omega) hu').mono
        (fun _ h => hstep h) fun _ _ h => h

theorem update_by_level :
    Outcome (ummuTableUpdateTokenByLevel fb op d (n + 1) (G.pre l q) (blockBase s l q)
        (blockLimit s l q) st)
      (Updated fb S use0 s s' G ((q + 1) * bspan l)) fun _ _ => False := by
  induction n generalizing l q st G with
  | zero => exact update_level P hup hs' hn h hloc hm hpath hY hu fun p _ _ _ hl => by omega
  | succ n ih =>
    refine update_level P hup hs' hn h hloc hm hpath hY hu fun p hp hmp hYp hl hT st' G' hr hc hu' => ?_
    have := ih (l := l + 1) (q := p) (by omega) hr hc ((meetsBlock_child hl).mpr hmp)
      (path_child hl hp hpath hT) (by rw [bspan_succ hl]; exact hYp) (by rw [bspan_succ hl]; exact hu')
    rwa [blockBase_child hl, blockLimit_child hl, bspan_succ hl] at this

end Level

end Token

end UbDkms.Mapt
