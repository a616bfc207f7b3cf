import UbDkms.Mapt.Fill

/-!
# Clearing the table

`ummu_table_clear_node_by_level` takes a segment out of every node that holds
it, left to right, and with it every node and level block that is left without
a purpose. The same walk undoes a fill that stopped at a dead end: the nodes
left of the dead end hold the segment, and the walk stops there with an error.
-/

namespace UbDkms.Mapt

open Lib Option

/-- The table a clear for `s` starts from. Below the address `Y` the segment is
in the table; a `Y` inside the address space is the start of a dead end at level
`ld`. -/
structure ClearPlan (use0 : Nat → Nat → Option SegInfo) (s : SegInfo) (Y ld : Nat) : Prop where
  aligned : s.startAddr % 4096 = 0
  bound : s.last < 2 ^ 48
  meets : ∀ {l p t}, use0 l p = some t → Meets t l p
  level : ∀ {l p t}, use0 l p = some t → l ≤ 3
  pages : ∀ {l p t}, use0 l p = some t → t.startAddr % 4096 = 0
  apart : ∀ {l p t}, use0 l p = some t → t ≠ s → t.last < s.startAddr ∨ s.last < t.startAddr
  coarse : ∀ {l p}, use0 (l + 1) p = some s → ¬Fills s l (p / 512)
  anti : ∀ {l p l' p'}, use0 l p = some s → use0 l' p' = some s → l < l' →
    p' * span l' / span l ≠ p
  cover : ∀ {a}, s.startAddr ≤ a → a ≤ s.last → a < Y → ∃ l, use0 l (a / span l) = some s
  dead : Y < 2 ^ 48 → ∃ t, use0 ld (Y / span ld) = some t ∧ t ≠ s ∧ Meets s ld (Y / span ld) ∧
    Y / span ld * span ld = Y ∧ (∀ {l'}, l' < ld → use0 l' (Y / span l') ≠ some s) ∧
    ∀ {l' p'}, ld < l' → p' * span l' / span ld = Y / span ld → use0 l' p' = none

def HeldBy (use0 : Nat → Nat → Option SegInfo) (s : SegInfo) (l p : Nat) : Prop :=
  use0 l p = some s

section Plan

variable {use0 : Nat → Nat → Option SegInfo} {s : SegInfo} {Y ld l p q : Nat}

theorem ClearPlan.plan (P : ClearPlan use0 s Y ld) : Plan s (HeldBy use0 s) :=
  ⟨fun h => P.meets h, fun h h' => P.anti h h'⟩

section

variable (P : ClearPlan use0 s Y ld) (hm : Meets s l p)
  (hpath : ∀ {l'}, l' < l → use0 l' (p * span l / span l') ≠ some s)
include P hm hpath

theorem ClearPlan.held_below
    (hY : (p + 1) * span l ≤ Y) :
    ∃ l' p', l ≤ l' ∧ p' * span l' / span l = p ∧ use0 l' p' = some s := by
  have hw := span_pos l
  obtain ⟨h1, h2⟩ := hm
  have hle := s.le_last
  have hsucc : (p + 1) * span l = p * span l + span l := by ring
  obtain ⟨l', hl'⟩ := P.cover (a := max s.startAddr (p * span l)) (by omega) (by omega) (by omega)
  have hp : max s.startAddr (p * span l) / span l = p :=
    Nat.div_eq_of_lt_le (by omega) (by omega)
  refine ⟨l', _, ?_, ?_, hl'⟩
  · by_contra hlt
    refine @hpath l' (by omega) ?_
    rw [← hl', prefix_trans (by omega) hp]
  · by_cases hll : l ≤ l'
    · rw [prefix_trans hll rfl, hp]
    exfalso
    refine @hpath l' (by omega) ?_
    rw [← hl', prefix_trans (by omega) hp]

theorem ClearPlan.used_below (hlo : p * span l ≤ Y)
    (hld : Y < (p + 1) * span l → l ≤ ld) :
    ∃ l' p', l ≤ l' ∧ p' * span l' / span l = p ∧ (use0 l' p').isSome := by
  by_cases hY : (p + 1) * span l ≤ Y
  · obtain ⟨l', p', h1, h2, h3⟩ := P.held_below hm hpath hY
    exact ⟨l', p', h1, h2, by rw [h3]; rfl⟩
  have hlast := P.bound
  have hend : (p + 1) * span l ≤ 2 ^ 48 := by
    have h2 := hm.2
    have := add_le_of_dvd (x := p * span l) (y := 2 ^ 48) (Nat.dvd_mul_left _ _)
      (Dvd.dvd.trans (span_dvd (Nat.zero_le l)) (by decide)) (by omega)
    rw [Nat.add_mul, Nat.one_mul]; exact this
  obtain ⟨t, ht, -, -, heq, -, -⟩ := P.dead (by omega)
  refine ⟨ld, _, hld (by omega), ?_, by rw [ht]; rfl⟩
  rw [heq]
  exact Nat.div_eq_of_lt_le (by omega) (by omega)

end

theorem ClearPlan.middle (P : ClearPlan use0 s Y ld) (hfill : Fills s l p)
    (hpath : ∀ {l'}, l' < l → use0 l' (p * span l / span l') ≠ some s) (hlo : p * span l ≤ Y)
    (hld : Y < (p + 1) * span l → l ≤ ld) : (p + 1) * span l ≤ Y ∧ use0 l p = some s := by
  have hw := span_pos l
  obtain ⟨hf1, hf2⟩ := hfill
  have hsucc : (p + 1) * span l = p * span l + span l := by ring
  have hm : Meets s l p := ⟨by omega, by omega⟩
  have hY : (p + 1) * span l ≤ Y := by
    by_contra hc
    have hlast := P.bound
    obtain ⟨t, ht, hne, -, heq, -, -⟩ := P.dead (by omega)
    obtain ⟨h1, h2⟩ := range_le (p := p) (hld (by omega))
      (by rw [heq]; exact Nat.div_eq_of_lt_le (by omega) (by omega))
    obtain ⟨h3, h4⟩ := P.meets ht
    have := P.apart ht hne
    have := t.le_last
    omega
  refine ⟨hY, ?_⟩
  obtain ⟨l', p', hl', hp', hu⟩ := P.held_below hm hpath hY
  rcases Nat.eq_or_lt_of_le hl' with rfl | hlt
  · rw [prefix_self] at hp'; rwa [← hp']
  -- a node strictly below would have its parent filled by the segment
  obtain ⟨k, rfl⟩ : ∃ k, l' = k + 1 := ⟨l' - 1, by omega⟩
  have hk := P.level hu
  have hpar : p' / 512 * span k / span l = p := by
    rw [prefix_trans (by omega) (by rw [prefix_succ hk, prefix_self]), hp']
  obtain ⟨h1, h2⟩ := range_le (by omega) hpar
  exact absurd ⟨by omega, by omega⟩ (P.coarse hu)

end Plan

/-! ## Frames and outcomes -/

/-- What a clear inside level block `(l, q)` leaves alone. -/
structure ClearFrame (G G' : Ghost) (l q : Nat) : Prop where
  valid : ∀ {l' p'}, l' < l → G'.valid l' p' = G.valid l' p'
  loc : ∀ {l' q'}, l' < l ∨ (l' = l ∧ q' ≠ q) → G'.loc l' q' = G.loc l' q'
  own : G'.loc l q = G.loc l q ∨ G'.loc l q = none

theorem ClearFrame.refl (G : Ghost) (l q : Nat) : ClearFrame G G l q :=
  ⟨fun _ => rfl, fun _ => rfl, .inl rfl⟩

theorem ClearFrame.trans {G1 G2 G3 : Ghost} {l q : Nat} (h : ClearFrame G1 G2 l q)
    (h' : ClearFrame G2 G3 l q) : ClearFrame G1 G3 l q :=
  ⟨fun hl => (h'.valid hl).trans (h.valid hl), fun hl => (h'.loc hl).trans (h.loc hl), by
    rcases h'.own with h2 | h2
    · rw [h2]; exact h.own
    · exact .inr h2⟩

theorem ClearFrame.up {G G' : Ghost} {l p q : Nat} (h : ClearFrame G G' (l + 1) p) :
    ClearFrame G G' l q :=
  ⟨fun hl => h.valid (by omega), fun hl => h.loc (by omega), .inl (h.loc (by omega))⟩

def parent (l q l' p' : Nat) : Prop := l' + 1 = l ∧ p' = q

section Clear

variable (fb : Bool) (S : List SegInfo) (use0 : Nat → Nat → Option SegInfo) (s : SegInfo) (Y : Nat)

/-- The table cleared up to address `y`. The block's parent may have become
useless, which the caller looks after. -/
def Cleared (G : Ghost) (l q y : Nat) (st : St) : Prop :=
  ∃ G', Rep fb S st G' ∧ Tidy G' (parent l q) never ∧
    G'.use = sweep use0 (HeldBy use0 s) none y ∧ ClearFrame G G' l q ∧ y ≤ Y

/-- The walk stopped at the dead end, in the block of level `l` that ends at `y`. -/
def ClearStuck (G : Ghost) (l q y : Nat) (st : St) : Prop :=
  ∃ G', Rep fb S st G' ∧ Tidy G' never never ∧ G'.use = sweep use0 (HeldBy use0 s) none Y ∧
    ClearFrame G G' l q ∧ (G'.loc l q).isSome ∧ Y < y

variable {fb S use0 s Y} {st st' : St} {G : Ghost} {l p q ld : Nat} {d : DataInfo} {G' : Ghost} {next : Walk} {t : SegInfo}

theorem Tidy.of_loc {b : Nat → Nat → Prop} (h : Tidy G (parent l q) b) (hloc : (G.loc l q).isSome) :
    Tidy G never b := by
  refine ⟨fun {l' p'} _ hv => ?_, h.bare⟩
  by_cases hp : parent l q l' p'
  · rw [hp.1, hp.2]; exact .inr hloc
  · exact h.full hp hv

theorem valid_of_used {l' p' : Nat} (h : Rep fb S st G) (hl : l ≤ l') (hl3 : l' ≤ 3)
    (hp : p' * span l' / span l = p) (hu : (G.use l' p').isSome) : G.valid l p := by
  obtain ⟨k, rfl⟩ := Nat.exists_eq_add_of_le hl
  rw [← hp]
  exact h.maps.valid_up (h.maps.used hu) hl3

theorem child_of_used {l' p' : Nat} (h : Rep fb S st G) (hl : l < l') (hl3 : l' ≤ 3)
    (hp : p' * span l' / span l = p) (hu : (G.use l' p').isSome) : (G.loc (l + 1) p).isSome := by
  have hv := valid_of_used (l := l + 1) h (by omega) hl3 rfl hu
  have := h.maps.placed hv
  rwa [← prefix_succ (by omega), hp] at this

theorem Dropped.tidy (h : Dropped G G' l p) (ht : Tidy G (parent (l + 1) p) never) :
    Tidy G' (parent l (p / 512)) never := by
  refine ⟨fun {l' p'} hn hv => ?_, fun {l' q'} h0 _ hs => ?_⟩
  · have hlp : ¬(l' = l ∧ p' = p) := by
      rintro ⟨rfl, rfl⟩
      rw [h.valid, set2_self] at hv; cases hv
    rw [h.valid, set2_ne hlp] at hv
    rw [h.use, set2_ne hlp, h.other hn]
    exact ht.full (fun hc => hlp ⟨Nat.succ.inj hc.1, hc.2⟩) hv
  by_cases hlq : l' = l ∧ q' = p / 512
  · obtain ⟨rfl, rfl⟩ := hlq
    rcases h.own with ⟨-, h0' | hb⟩ | ⟨-, hnone, -⟩
    · omega
    · exact hb
    · rw [hnone] at hs; cases hs
  rw [h.other hlq] at hs
  refine fun hb => ht.bare h0 nofun hs fun i hi => ?_
  have := hb i hi
  rwa [h.valid, set2_ne] at this
  rintro ⟨rfl, rfl⟩
  exact hlq ⟨rfl, by omega⟩

theorem Dropped.frame (h : Dropped G G' l p) : ClearFrame G G' l (p / 512) := by
  refine ⟨fun {l' p'} hl => by rw [h.valid, set2_ne (by omega)], fun hl => h.other (by omega), ?_⟩
  rcases h.own with ⟨h1, -⟩ | ⟨-, h1, -⟩
  · exact .inl h1
  · exact .inr h1

theorem Tidy.exempt {n : Nat → Nat → Prop} (h : Tidy G never never) : Tidy G n never :=
  h.mono nofun fun _ _ h => h

section

variable (P : ClearPlan use0 s Y ld) (h : Rep fb S st G) (ht : Tidy G never never)
  (hT : use0 l p = some s) (hY : (p + 1) * span l ≤ Y)
  (hu : G.use = sweep use0 (HeldBy use0 s) none (p * span l))
include P h ht hT hY hu

theorem cleared_drop (hc : G.loc (l + 1) p = none) :
    Cleared fb S use0 s Y G l (p / 512) ((p + 1) * span l)
      (ummuTableClearNode (G.pre l (p / 512)) (G.at l p) st) := by
  have hv : G.valid l p := h.maps.used (by rw [hu, sweep_le (Nat.le_refl _), hT]; rfl)
  obtain ⟨G', hr, hd⟩ := h.clearNode hv hc
  refine ⟨G', hr, hd.tidy ht.exempt, ?_, hd.frame, hY⟩
  rw [hd.use, hu, P.plan.sweep_node (P.level hT) hT]

theorem cleared_release {nd : TableNode} (hc : (G.loc (l + 1) p).isSome)
    (hnd : NodeRep fb l p none true (G.loc (l + 1) p) nd) :
    Cleared fb S use0 s Y G l (p / 512) ((p + 1) * span l) (st.setNode (G.at l p) nd) := by
  have hv : G.valid l p := h.maps.child hc
  have hval : (G.setCell l p none true).valid = G.valid := by
    funext l' p'
    by_cases hlp : l' = l ∧ p' = p
    · rw [hlp.1, hlp.2, setCell_valid, set2_self, hv]
    · rw [setCell_valid, set2_ne hlp]
  refine ⟨_, h.setNode _ hv hnd, ⟨fun {l' p'} _ hv' => ?_, fun {l' q'} h0 _ hs => ?_⟩, ?_,
    ⟨fun _ => by rw [hval], fun _ => rfl, .inl rfl⟩, hY⟩
  · by_cases hlp : l' = l ∧ p' = p
    · rw [hlp.1, hlp.2]; exact .inr hc
    rw [hval] at hv'
    rw [setCell_use, set2_ne hlp]
    exact ht.full nofun hv'
  · have := ht.bare h0 nofun hs
    rwa [Ghost.Bare, hval]
  · rw [setCell_use, hu, P.plan.sweep_node (P.level hT) hT]

end

def ClearsBelow (fb : Bool) (S : List SegInfo) (use0 : Nat → Nat → Option SegInfo) (s : SegInfo)
    (Y : Nat) (next : Walk) (l p : Nat) : Prop :=
  ∀ st G, Rep fb S st G → Tidy G never never → (G.loc (l + 1) p).isSome →
    G.use = sweep use0 (HeldBy use0 s) none (p * span l) →
    Outcome (next (G.at l p) (nodeBase s l p) (nodeLimit s l p) st)
      (Cleared fb S use0 s Y G (l + 1) p ((p + 1) * span l))
      fun _ => ClearStuck fb S use0 s Y G (l + 1) p ((p + 1) * span l)

theorem at_congr (h : ClearFrame G G' (l + 1) p) (p' : Nat) : G'.at l p' = G.at l p' := by
  simp only [Ghost.at, h.loc (.inl (Nat.lt_succ_self l))]

theorem pre_frame (h : ClearFrame G G' l q) (q' : Nat) : G'.pre l q' = G.pre l q' := by
  cases l with
  | zero => rfl
  | succ l => simp only [Ghost.pre, Ghost.at, h.loc (.inl (Nat.lt_succ_self l))]

theorem clear_under_freed {x : St → St}
    (hx : ∀ st, (x st).ctx = st.ctx ∧ (x st).root = st.root)
    (hnext : ClearsBelow fb S use0 s Y next l p) (h : Rep fb S st G) (ht : Tidy G never never)
    (hc : (G.loc (l + 1) p).isSome) (hfree : use0 l p = none)
    (hu : G.use = sweep use0 (HeldBy use0 s) none (p * span l)) :
    Outcome
      (match next (G.at l p) (nodeBase s l p) (nodeLimit s l p) st with
      | (ret, st) => if (st.node (G.at l p)).type
        then (ret, x (ummuTableClearNode (G.pre l (p / 512)) (G.at l p) st)) else (ret, st))
      (Cleared fb S use0 s Y G l (p / 512) ((p + 1) * span l))
      fun _ => ClearStuck fb S use0 s Y G l (p / 512) ((p + 1) * span l) := by
  have hrec := hnext st G h ht hc hu
  have hv := h.maps.child hc
  have hT : ¬HeldBy use0 s l p := by rw [HeldBy, hfree]; nofun
  generalize next (G.at l p) (nodeBase s l p) (nodeLimit s l p) st = r at hrec ⊢
  rcases r with ⟨_ | e, st1⟩
  · obtain ⟨G1, hr, ht1, hu1, hf, hY⟩ := hrec
    have hv1 : G1.valid l p := by rw [hf.valid (Nat.lt_succ_self l), hv]
    have hlinks := (hr.nodeRep (hr.maps.placed hv1)).links hv1
    rw [at_congr hf] at hlinks
    simp only
    cases hc1 : G1.loc (l + 1) p with
    | none =>
      rw [hc1] at hlinks
      rw [if_pos (show (st1.node (G.at l p)).type = true from hlinks)]
      obtain ⟨G2, hr2, hd⟩ := hr.clearNode hv1 hc1
      rw [at_congr hf, pre_frame (q := p / 512) hf.up] at hr2
      refine ⟨G2, hr2.congr (hx _).1 (hx _).2, hd.tidy ht1, ?_, hf.up.trans hd.frame, hY⟩
      rw [hd.use, hu1]
      funext l' p'
      by_cases hlp : l' = l ∧ p' = p
      · rw [hlp.1, hlp.2, set2_self, sweep_not hT, hfree]
      · rw [set2_ne hlp]
    | some id =>
      rw [hc1] at hlinks
      rw [if_neg (by rw [hlinks.1]; exact Bool.false_ne_true)]
      exact ⟨G1, hr, (ht1.of_loc (by rw [hc1]; rfl)).exempt, hu1, hf.up, hY⟩
  · obtain ⟨G1, hr, ht1, hu1, hf, hc1, hY⟩ := hrec
    have hv1 : G1.valid l p := by rw [hf.valid (Nat.lt_succ_self l), hv]
    have hlinks := (hr.nodeRep (hr.maps.placed hv1)).links hv1
    obtain ⟨id, hid⟩ := isSome_iff_exists.mp hc1
    rw [at_congr hf, hid] at hlinks
    simp only
    rw [if_neg (by rw [hlinks.1]; exact Bool.false_ne_true)]
    exact ⟨G1, hr, ht1, hu1, hf.up, hr.maps.placed hv1, hY⟩

theorem clear_under_used {x : St → St}
    (hx : ∀ st, (x st).ctx = st.ctx ∧ (x st).root = st.root)
    (hnext : ClearsBelow fb S use0 s Y next l p) (h : Rep fb S st G) (ht : Tidy G never never)
    (hc : (G.loc (l + 1) p).isSome) (hused : use0 l p = some t) (hne : t ≠ s)
    (hu : G.use = sweep use0 (HeldBy use0 s) none (p * span l)) :
    Outcome
      (match next (G.at l p) (nodeBase s l p) (nodeLimit s l p) st with
      | (ret, st) => if (st.node (G.at l p)).type then (ret, x st) else (ret, st))
      (Cleared fb S use0 s Y G l (p / 512) ((p + 1) * span l))
      fun _ => ClearStuck fb S use0 s Y G l (p / 512) ((p + 1) * span l) := by
  have hrec := hnext st G h ht hc hu
  have hv := h.maps.child hc
  have hT : ¬HeldBy use0 s l p := by
    rw [HeldBy, hused]
    exact fun he => hne (some.inj he)
  have hcode : ∀ {ret : Ret} {st1 : St}, ∃ st2 : St, (st2.ctx = st1.ctx ∧ st2.root = st1.root) ∧
      (if (st1.node (G.at l p)).type then (ret, x st1) else (ret, st1)) = (ret, st2) := fun {ret st1} => by
    by_cases htype : (st1.node (G.at l p)).type = true
    · exact ⟨_, hx st1, if_pos htype⟩
    · exact ⟨_, ⟨rfl, rfl⟩, if_neg htype⟩
  generalize next (G.at l p) (nodeBase s l p) (nodeLimit s l p) st = r at hrec ⊢
  rcases r with ⟨ret, st1⟩
  obtain ⟨st2, ⟨hctx, hroot⟩, heq⟩ := @hcode ret st1
  simp only [heq]
  cases ret with
  | none =>
    obtain ⟨G1, hr, ht1, hu1, hf, hY⟩ := hrec
    refine ⟨G1, hr.congr hctx hroot, ⟨fun {l' p'} _ hv' => ?_, ht1.bare⟩, hu1, hf.up, hY⟩
    by_cases hlp : l' = l ∧ p' = p
    · rw [hlp.1, hlp.2, hu1, sweep_not hT, hused]; exact .inl rfl
    · exact ht1.full (fun hc => hlp ⟨Nat.succ.inj hc.1, hc.2⟩) hv'
  | some e =>
    obtain ⟨G1, hr, ht1, hu1, hf, hc1, hY⟩ := hrec
    have hv1 : G1.valid l p := by rw [hf.valid (Nat.lt_succ_self l), hv]
    exact ⟨G1, hr.congr hctx hroot, ht1, hu1, hf.up, hr.maps.placed hv1, hY⟩

theorem base_ne (ht : Meets t l p) (hs : Meets s l p)
    (ha : t.last < s.startAddr ∨ s.last < t.startAddr) : nodeBase t l p ≠ nodeBase s l p := by
  obtain ⟨h1, h2⟩ := ht
  obtain ⟨h3, h4⟩ := hs
  have := t.le_last
  have := s.le_last
  unfold nodeBase
  omega

theorem ClearPlan.visit (P : ClearPlan use0 s Y ld) (h : Rep fb S st G) (ht : Tidy G never never)
    (hm : Meets s l p) (hpath : ∀ {l'}, l' < l → use0 l' (p * span l / span l') ≠ some s)
    (hlo : p * span l ≤ Y) (hld : Y < (p + 1) * span l → l ≤ ld) (hl : l ≤ 3)
    (hu : G.use = sweep use0 (HeldBy use0 s) none (p * span l)) :
    (use0 l p = some s ∧ (p + 1) * span l ≤ Y) ∨
    (∃ t, use0 l p = some t ∧ t ≠ s ∧ G.loc (l + 1) p = none ∧ Y = p * span l ∧
      Y < (p + 1) * span l) ∨
    (use0 l p ≠ some s ∧ (G.loc (l + 1) p).isSome ∧ l + 1 ≤ 3 ∧
      (Y < (p + 1) * span l → l + 1 ≤ ld)) := by
  have hsucc : (p + 1) * span l = p * span l + span l := by ring
  have hend : (p + 1) * span l ≤ 2 ^ 48 := by
    have h2 := hm.2
    have hb := P.bound
    have := add_le_of_dvd (x := p * span l) (y := 2 ^ 48) (Nat.dvd_mul_left _ _)
      (Dvd.dvd.trans (span_dvd (Nat.zero_le l)) (by decide)) (by omega)
    omega
  have hYp : Y < (p + 1) * span l → Y / span l = p := fun hY =>
    Nat.div_eq_of_lt_le (by omega) (by omega)
  by_cases hT : use0 l p = some s
  · refine .inl ⟨hT, ?_⟩
    by_contra hY
    obtain ⟨t, htu, hne, -, heq, hpd, -⟩ := P.dead (by omega)
    rcases Nat.eq_or_lt_of_le (hld (by omega)) with rfl | hlt
    · rw [hYp (by omega), hT] at htu
      exact hne (some.inj htu).symm
    · exact hpd hlt (by rw [hYp (by omega), hT])
  refine .inr ?_
  -- a used node below is used in the current table too
  have hsame : ∀ {l' p'}, l ≤ l' → p' * span l' / span l = p → G.use l' p' = use0 l' p' :=
    fun hl' hp' => by rw [hu, sweep_le (range_le hl' hp').1]
  by_cases hdead : Y < (p + 1) * span l ∧ l = ld
  · obtain ⟨hY, rfl⟩ := hdead
    obtain ⟨t, htu, hne, -, heq, -, hnone⟩ := P.dead (by omega)
    rw [hYp hY] at htu heq hnone
    refine .inl ⟨t, htu, hne, ?_, heq.symm, hY⟩
    by_contra hc
    obtain ⟨l', p', hl', hp', hus⟩ := exists_used_below h.maps (fun hv => ht.full nofun hv)
      (n := 3 - l) (by omega) (fun h0 => ht.bare (by omega) nofun) (isSome_iff_ne_none.mpr hc)
    rw [hsame (by omega) hp', hnone hl' hp'] at hus
    cases hus
  obtain ⟨l', p', hl', hp', hus⟩ : ∃ l' p', l < l' ∧ p' * span l' / span l = p ∧
      (use0 l' p').isSome := by
    by_cases hY : (p + 1) * span l ≤ Y
    · obtain ⟨l', p', hl', hp', hus⟩ := P.held_below hm hpath hY
      refine ⟨l', p', Nat.lt_of_le_of_ne hl' ?_, hp', by rw [hus]; rfl⟩
      rintro rfl
      rw [prefix_self] at hp'
      exact hT (hp' ▸ hus)
    obtain ⟨t, htu, -, -, heq, -, -⟩ := P.dead (by omega)
    have := hld (by omega)
    exact ⟨ld, Y / span ld, by omega, by rw [heq]; exact hYp (by omega), by rw [htu]; rfl⟩
  obtain ⟨t, htu⟩ := isSome_iff_exists.mp hus
  have hl3 := P.level htu
  refine .inr ⟨hT, child_of_used h hl' hl3 hp' (by rw [hsame (by omega) hp']; exact hus),
    by omega, fun hY => ?_⟩
  have := hld hY
  omega

theorem ClearPlan.no_match {nd : TableNode} (P : ClearPlan use0 s Y ld) (hm : Meets s l p)
    (hu : use0 l p = some t) (hne : t ≠ s) (h : Holds nd t l p) :
    ¬(nd.base = nodeBase s l p ∧ nd.limit = nodeLimit s l p) := fun hb =>
  base_ne (P.meets hu) hm (P.apart hu hne) (h.base.symm.trans hb.1)

theorem clear_head (P : ClearPlan use0 s Y ld)
    (hnext : l + 1 ≤ 3 → use0 l p ≠ some s → (Y < (p + 1) * span l → l + 1 ≤ ld) →
      ClearsBelow fb S use0 s Y next l p)
    (h : Rep fb S st G) (ht : Tidy G never never) (hv : G.valid l p) (hm : Meets s l p)
    (hpath : ∀ {l'}, l' < l → use0 l' (p * span l / span l') ≠ some s)
    (hlo : p * span l ≤ Y) (hld : Y < (p + 1) * span l → l ≤ ld) (hl : l ≤ 3)
    (hu : G.use = sweep use0 (HeldBy use0 s) none (p * span l)) :
    Outcome (if fb then ummuTableClearHeadNodeFreeBit d l next (G.pre l (p / 512)) (G.at l p)
          (nodeBase s l p) (nodeLimit s l p) st
        else ummuTableClearHeadNode d l next (G.pre l (p / 512)) (G.at l p)
          (nodeBase s l p) (nodeLimit s l p) st)
      (Cleared fb S use0 s Y G l (p / 512) ((p + 1) * span l))
      fun _ => ClearStuck fb S use0 s Y G l (p / 512) ((p + 1) * span l) := by
  have hnode := h.nodeRep (h.maps.placed hv)
  rw [hv] at hnode
  have hlinks := hnode.links rfl
  have hhere : G.use l p = use0 l p := by rw [hu, sweep_le (Nat.le_refl _)]
  have hinuse : ∀ {t}, use0 l p = some t →
      (!isRteInUse (st.node (G.at l p)).base && !isRteInUse (st.node (G.at l p)).limit) = false :=
    fun {t} htu => by
      rw [(hnode.held t rfl (hhere.trans htu)).base, base_in_use (P.pages htu)]; rfl
  unfold ummuTableClearHeadNodeFreeBit ummuTableClearHeadNode
  rcases P.visit h ht hm hpath hlo hld hl hu with ⟨hT, hY⟩ | ⟨t, htu, hne, hc, hYeq, hY⟩ |
    ⟨hT, hc, hl3, hld'⟩
  · -- the node holds the segment
    have hheld := hnode.held s rfl (hhere.trans hT)
    have hmatch : ((st.node (G.at l p)).base = nodeBase s l p ∧
        (st.node (G.at l p)).limit = nodeLimit s l p) = True := eq_true ⟨hheld.base, hheld.limit⟩
    cases hc : G.loc (l + 1) p with
    | none =>
      rw [hc] at hlinks
      have htype : (st.node (G.at l p)).type := hlinks
      have := cleared_drop P h ht hT hY hu hc
      cases fb <;>
        simpa only [hheld.fBit, hinuse hT, hmatch, htype, if_true, Bool.false_eq_true, if_false,
          outcome_none] using this
    | some id =>
      rw [hc] at hlinks
      have htype : (st.node (G.at l p)).type = false := hlinks.1
      cases fb with
      | false =>
        simp only [hinuse hT, hmatch, htype, if_true, Bool.false_eq_true, if_false]
        exact cleared_release P h ht hT hY hu (by rw [hc]; rfl) ⟨by simp, fun _ => hnode.isValid rfl,
          fun _ => by rw [hc]; exact ⟨rfl, hlinks.2⟩, by simp, fun _ _ => ⟨rfl, rfl⟩⟩
      | true =>
        simp only [hheld.fBit, hmatch, htype, if_true, Bool.false_eq_true, if_false]
        exact cleared_release P h ht hT hY hu (by rw [hc]; rfl) ⟨by simp, fun _ => hnode.isValid rfl,
          fun _ => by rw [hc]; exact ⟨rfl, hlinks.2⟩, by simp, fun _ _ => rfl⟩
  · -- the dead end
    have hheld := hnode.held t rfl (hhere.trans htu)
    rw [hc] at hlinks
    have htype : (st.node (G.at l p)).type := hlinks
    have hmatch := P.no_match hm htu hne hheld
    have hst : ClearStuck fb S use0 s Y G l (p / 512) ((p + 1) * span l) st :=
      ⟨G, h, ht, by rw [hu, hYeq], .refl .., h.maps.placed hv, hY⟩
    cases fb <;>
      simpa only [hheld.fBit, hinuse htu, hmatch, htype, if_true, Bool.false_eq_true, if_false,
        outcome_some] using hst
  -- the segment lies below
  have hbelow := hnext hl3 hT hld'
  obtain ⟨id, hid⟩ := isSome_iff_exists.mp hc
  rw [hid] at hlinks
  have htype : (st.node (G.at l p)).type = false := hlinks.1
  cases hu0 : use0 l p with
  | none =>
    have hfreed := hnode.freed rfl (hhere.trans hu0)
    cases fb with
    | false =>
      have hcond := freed_out hfreed
      simp only [hcond, htype, if_true, Bool.false_eq_true, if_false]
      exact clear_under_freed
        (fun st => typeSwitch_ctx ..) hbelow h ht hc hu0 hu
    | true =>
      have hfb : (st.node (G.at l p)).fBit := hfreed
      simp only [hfb, htype, if_true, Bool.false_eq_true, if_false]
      exact clear_under_freed (x := fun st' => updateUmmuGather st'
        (.osN (st.node (G.at l p)).nextLvIndex (st.node (G.at l p)).nextLvOffset))
        (fun st => gather_ctx ..) hbelow h ht hc hu0 hu
  | some t =>
    have hne : t ≠ s := fun he => hT (he ▸ hu0)
    have hheld := hnode.held t rfl (hhere.trans hu0)
    have hmatch := P.no_match hm hu0 hne hheld
    have := clear_under_used (x := fun st' => ummuTableTypeSwitchPlbi st' d
        (st.node (G.at l p)).base (st.node (G.at l p)).limit l)
        (fun st => typeSwitch_ctx ..) hbelow h ht hc hu0 hne hu
    cases fb <;>
      simpa only [hheld.fBit, hinuse hu0, hmatch, htype, if_true, Bool.false_eq_true, if_false]
        using this

theorem ClearPlan.middle_leaf (P : ClearPlan use0 s Y ld) (h : Rep fb S st G)
    (ht : Tidy G never never) (hT : use0 l p = some s) (hfill : Fills s l p)
    (hu : G.use = sweep use0 (HeldBy use0 s) none (p * span l)) : G.loc (l + 1) p = none := by
  by_contra hc
  have hl := P.level hT
  obtain ⟨l', p', hl', hp', hus⟩ := exists_used_below h.maps (fun hv => ht.full nofun hv)
    (n := 3 - l) (by omega) (fun h0 => ht.bare (by omega) nofun) (isSome_iff_ne_none.mpr hc)
  obtain ⟨h1, h2⟩ := range_le (Nat.le_of_lt hl') hp'
  obtain ⟨t, htu⟩ := isSome_iff_exists.mp hus
  rw [hu, sweep_le h1] at htu
  by_cases hts : t = s
  · subst hts; exact P.anti hT htu hl' hp'
  obtain ⟨h3, h4⟩ := P.meets htu
  obtain ⟨h5, h6⟩ := hfill
  have := P.apart htu hts
  have := t.le_last
  omega

theorem bspan_dvd_space (hl : l ≤ 3) : bspan l ∣ 2 ^ 48 := by
  cases l with
  | zero => decide
  | succ l => rw [bspan_succ hl]; exact (span_dvd (Nat.zero_le l)).trans (by decide)

variable (P : ClearPlan use0 s Y ld)
include P

theorem ClearPlan.start_le {b e : Nat} (hi : LoopIdx s l q b e)
    (hlo : q * bspan l ≤ Y) (hld : Y < (q + 1) * bspan l → l ≤ ld) :
    (512 * q + b) * span l ≤ Y := by
  by_contra hc
  have hb := P.bound
  have h1 := hi.before
  have hle := s.le_last
  have hlt := hi.lt
  have hbe := hi.le
  have hend : (512 * q + b) * span l ≤ (q + 1) * bspan l := by
    rw [bspan, ← Nat.mul_assoc]
    exact Nat.mul_le_mul_right _ (by omega)
  obtain ⟨t, -, -, hmd, heq, -, -⟩ := P.dead (by omega)
  have h3 := add_le_of_dvd (x := Y) (y := (512 * q + b) * span l)
    (by rw [← heq]; exact Nat.dvd_mul_left _ _)
    ((span_dvd (hld (by omega))).mul_left _) (by omega)
  have h4 := hmd.1
  rw [Nat.add_mul, Nat.one_mul, heq] at h4
  omega

theorem ClearPlan.end_le {b e : Nat} (hi : LoopIdx s l q b e) (hl : l ≤ 3)
    (hm : MeetsBlock s l q) (hlo : (512 * q + (e + 1)) * span l ≤ Y) : (q + 1) * bspan l ≤ Y := by
  by_contra hc
  have hb := P.bound
  have h1 := hi.after
  have h2 := hm.2
  have hend := add_le_of_dvd (x := q * bspan l) (Nat.dvd_mul_left _ _)
    (bspan_dvd_space hl) (by omega)
  have hsucc : (q + 1) * bspan l = q * bspan l + bspan l := by ring
  rw [← Nat.add_assoc] at hlo
  obtain ⟨t, -, -, hmd, heq, -, -⟩ := P.dead (by omega)
  have h4 := hmd.2
  omega

section Level

variable {n : Nat} (hn : l + n = 3) (h : Rep fb S st G) (ht : Tidy G never never) (hloc : (G.loc l q).isSome)
  (hm : MeetsBlock s l q) (hpath : ∀ {l'}, l' < l → use0 l' (q * bspan l / span l') ≠ some s)
  (hlo : q * bspan l ≤ Y) (hld : Y < (q + 1) * bspan l → l ≤ ld) (hu : G.use = sweep use0 (HeldBy use0 s) none (q * bspan l))
include hn h ht hloc hm hpath hlo hld hu

/-- The loop of one level keeps the table cleared up to the node it visits next. -/
theorem clear_level (hnext : ∀ p, p / 512 = q → Meets s l p → p * span l ≤ Y → l + 1 ≤ 3 → use0 l p ≠ some s →
      (Y < (p + 1) * span l → l + 1 ≤ ld) →
      ClearsBelow fb S use0 s Y (ummuTableClearNodeByLevel fb d n) l p) :
    Outcome (ummuTableClearNodeByLevel fb d (n + 1) (G.pre l q) (blockBase s l q)
        (blockLimit s l q) st)
      (Cleared fb S use0 s Y G l q ((q + 1) * bspan l))
      fun _ => ClearStuck fb S use0 s Y G l q ((q + 1) * bspan l) := by
  obtain ⟨id, hid⟩ := isSome_iff_exists.mp hloc
  obtain ⟨hidx, hoff⟩ := h.pre_links hid
  have hpres := isSome_iff_ne_none.mp (h.present hid)
  have hlev : maptMaxLvlIndex - n = l := by unfold maptMaxLvlIndex; omega
  have hl : l ≤ 3 := by omega
  have hi := loopIdx hm
  rw [ummuTableClearNodeByLevel]
  simp only [hidx, hoff, hlev]
  rw [if_neg (by simpa using hpres)]
  generalize getLevelBlockIndex (blockBase s l q) l = b at hi
  generalize getLevelBlockIndex (blockLimit s l q) l = e at hi
  have hble := hi.le
  have helt := hi.lt
  refine (forRange_outcome (I := fun i => Cleared fb S use0 s Y G l q ((512 * q + i) * span l))
    (E := fun _ => ClearStuck fb S use0 s Y G l q ((q + 1) * bspan l)) ?_ ?_).mono
    (fun st' hst => ?_) fun _ _ h => h
  rotate_left 2
  · obtain ⟨G', hr, ht', hu', hfr, hY⟩ := hst
    rw [show b + (e + 1 - b) = e + 1 by omega] at hu' hY
    rw [P.plan.sweep_end hl hi] at hu'
    exact ⟨G', hr, ht', hu', hfr, P.end_le hi hl hm hY⟩
  · refine ⟨G, h.congr (noteLevel_ctx ..).1 (noteLevel_ctx ..).2, ht.exempt, ?_, .refl ..,
      P.start_le hi hlo hld⟩
    rw [hu, P.plan.sweep_start hl hi fun l' hl' => hpath hl']
  · rintro i st' hbi hie ⟨G', hr, ht', hu', hfr, hY⟩
    have hq : (512 * q + i) / 512 = q := by omega
    have hmi := hi.meets hbi (by omega)
    have hpath' : ∀ {l'}, l' < l → use0 l' ((512 * q + i) * span l / span l') ≠ some s :=
      fun {l'} hl' => by rw [prefix_block hl' hl, hq]; exact hpath hl'
    have hend : (512 * q + i + 1) * span l ≤ (q + 1) * bspan l := by
      rw [bspan, ← Nat.mul_assoc]
      exact Nat.mul_le_mul_right _ (by omega)
    have hld' : Y < (512 * q + i + 1) * span l → l ≤ ld := fun hc => hld (by omega)
    -- the segment or the dead end lies at or below the node, so the block is still there
    obtain ⟨l', p', hl', hp', hus⟩ := P.used_below hmi hpath' hY hld'
    have hl3 : l' ≤ 3 := by
      obtain ⟨t, htu⟩ := isSome_iff_exists.mp hus
      exact P.level htu
    have hv : G'.valid l (512 * q + i) :=
      valid_of_used hr hl' hl3 hp' (by rw [hu', sweep_le (range_le hl' hp').1]; exact hus)
    have hsome := hr.maps.placed hv
    have hloc' : G'.loc l ((512 * q + i) / 512) = some id := by
      rcases hfr.own with ho | ho
      · rw [hq, ho, hid]
      · rw [hq, ho] at hsome; cases hsome
    have htidy : Tidy G' never never := ht'.of_loc (by rw [← hq]; exact hsome)
    have hcur := Ghost.cell_at hloc' (by omega)
    have hpre : G.pre l q = G'.pre l ((512 * q + i) / 512) := by rw [hq, pre_frame hfr]
    have hstep : ∀ {st : St}, Cleared fb S use0 s Y G' l ((512 * q + i) / 512)
        ((512 * q + i + 1) * span l) st →
        Cleared fb S use0 s Y G l q ((512 * q + (i + 1)) * span l) st := by
      rintro st ⟨G2, hr2, ht2, hu2, hfr2, hY2⟩
      rw [hq] at ht2 hfr2
      exact ⟨G2, hr2, ht2, hu2, hfr.trans hfr2, hY2⟩
    have hnode := (hr.nodeRep hsome).valid_eq
    rw [hv] at hnode
    simp only [hcur, hpre, hi.base hbi (by omega), hi.limit hbi (by omega),
      hnode, Bool.true_eq_false, if_false]
    split
    · next hmid =>
      have hfill := hi.fills hmid.1 hmid.2
      obtain ⟨hY', hT⟩ := P.middle hfill hpath' hY hld'
      exact hstep (cleared_drop P hr htidy hT hY' hu' (P.middle_leaf hr htidy hT hfill hu'))
    have hr' := hr.congr (noteHead_ctx st' l (decide (i = b))).1 (noteHead_ctx ..).2
    refine (clear_head P (hnext _ hq hmi hY) hr' htidy hv hmi hpath' hY hld' hl hu').mono
      (fun _ h => hstep h) fun _ st2 hst2 => ?_
    obtain ⟨G2, hr2, ht2, hu2, hfr2, hs2, hY2⟩ := hst2
    rw [hq] at hfr2 hs2
    exact ⟨G2, hr2, ht2, hu2, hfr.trans hfr2, hs2, by omega⟩

theorem clear_by_level :
    Outcome (ummuTableClearNodeByLevel fb d (n + 1) (G.pre l q) (blockBase s l q)
        (blockLimit s l q) st)
      (Cleared fb S use0 s Y G l q ((q + 1) * bspan l))
      fun _ => ClearStuck fb S use0 s Y G l q ((q + 1) * bspan l) := by
  induction n generalizing l q st G with
  | zero => exact clear_level P hn h ht hloc hm hpath hlo hld hu fun p _ _ _ hl => by omega
  | succ n ih =>
    refine clear_level P hn h ht hloc hm hpath hlo hld hu
      fun p hp hmp hY hl hT hld' st' G' hr ht' hc hu' => ?_
    have := ih (l := l + 1) (q := p) (by omega) hr ht' hc ((meetsBlock_child hl).mpr hmp)
      (path_child hl hp hpath hT) (by rw [bspan_succ hl]; exact hY) (by rw [bspan_succ hl]; exact hld')
      (by rw [bspan_succ hl]; exact hu')
    rwa [blockBase_child hl, blockLimit_child hl, bspan_succ hl] at this

end Level

end Clear

end UbDkms.Mapt
