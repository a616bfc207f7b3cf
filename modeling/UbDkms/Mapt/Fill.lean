import UbDkms.Mapt.Inv

/-!
# Filling the table

`ummu_table_fill_node_by_level` puts a segment into the first node on every path
that holds no segment yet, left to right. It fails only where a level block
cannot be opened; it then leaves the nodes left of that point filled.
-/

namespace UbDkms.Mapt

open Lib

structure Top (use0 : Nat → Nat → Option SegInfo) (s : SegInfo) (l p : Nat) : Prop where
  meets : Meets s l p
  level : l ≤ 3
  free : use0 l p = none
  path : ∀ {l'}, l' < l → use0 l' (p * span l / span l') ≠ none

structure Fresh (use0 : Nat → Nat → Option SegInfo) (s : SegInfo) : Prop where
  aligned : s.startAddr % 4096 = 0
  meets : ∀ {l p t}, use0 l p = some t → Meets t l p
  pages : ∀ {l p t}, use0 l p = some t → t.startAddr % 4096 = 0
  apart : ∀ {l p t}, use0 l p = some t → t.last < s.startAddr ∨ s.last < t.startAddr

theorem top_plan (use0 : Nat → Nat → Option SegInfo) (s : SegInfo) : Plan s (Top use0 s) :=
  ⟨fun h => h.meets, fun h h' hl he => h'.path hl (he ▸ h.free)⟩

theorem Fresh.page_free {use0 : Nat → Nat → Option SegInfo} {s : SegInfo} (h : Fresh use0 s)
    {p : Nat} (hm : Meets s 3 p) : use0 3 p = none := by
  cases hu : use0 3 p with
  | none => rfl
  | some t =>
    have := h.apart hu
    have := h.aligned
    have := h.pages hu
    obtain ⟨h1, h2⟩ := h.meets hu
    obtain ⟨h3, h4⟩ := hm
    rw [span_values.2.2.2] at h1 h2 h3 h4
    omega

theorem span_le (l : Nat) : span l ≤ 2 ^ 39 :=
  Nat.le_of_dvd (by decide) (span_dvd (Nat.zero_le l))

theorem fillNode_holds {d : DataInfo} {nd : TableNode} {l p : Nat} {new : Bool}
    (hm : Meets d.toSeg l p) :
    Holds (ummuTableFillNode nd (nodeBase d.toSeg l p) (nodeLimit d.toSeg l p) d new) d.toSeg l p := by
  have h1 := hm.1
  have hle := span_le l
  have hpos := span_pos l
  rw [Nat.add_mul, Nat.one_mul] at h1
  have hb : nodeBase d.toSeg l p < 2 ^ 39 := by unfold nodeBase; omega
  have hl : nodeLimit d.toSeg l p < 2 ^ 39 := by unfold nodeLimit; omega
  refine ⟨Nat.mod_eq_of_lt hb, Nat.mod_eq_of_lt hl, rfl, rfl, rfl, rfl, fun ht => ?_⟩
  have ht' : d.tokenCheck := ht
  simp [ummuTableFillNode, DataInfo.toSeg, ht']

section Fill

variable (fb : Bool) (S : List SegInfo) (use0 : Nat → Nat → Option SegInfo) (s : SegInfo)

/-- The table filled up to address `y`, with the level blocks of level `l` and
above as in `L`. -/
def Filled (L : Nat → Nat → Option Nat) (l y : Nat) (st : St) : Prop :=
  ∃ G, Rep fb S st G ∧ Tidy G never never ∧ G.use = sweep use0 (Top use0 s) (some s) y ∧
    ∀ l' q', l' ≤ l → G.loc l' q' = L l' q'

/-- A node on the way of `s` that holds another segment and has no child block. -/
structure DeadEnd (G : Ghost) (l p : Nat) : Prop where
  meets : Meets s l p
  level : l ≤ 3
  used : use0 l p ≠ none
  path : ∀ {l'}, l' < l → use0 l' (p * span l / span l') ≠ none
  noChild : G.loc (l + 1) p = none

def Stuck (st : St) : Prop :=
  ∃ G l p, Rep fb S st G ∧ Tidy G never never ∧ DeadEnd use0 s G l p ∧
    G.use = sweep use0 (Top use0 s) (some s) (p * span l)

variable {fb S use0 s} {st st' : St} {G : Ghost} {l p q : Nat} {d : DataInfo}

theorem Filled.mono {L L' : Nat → Nat → Option Nat} {l' y : Nat} (h : Filled fb S use0 s L l' y st)
    (hl : l ≤ l') (hL : ∀ k q, k ≤ l → L k q = L' k q) : Filled fb S use0 s L' l y st := by
  obtain ⟨G, hr, ht, hu, hf⟩ := h
  exact ⟨G, hr, ht, hu, fun k q hk => (hf k q (by omega)).trans (hL k q hk)⟩

theorem filled_put (h : Rep fb S st (G.setCell l p (some s) true))
    (ht : Tidy G never (only l (p / 512)))
    (hu : G.use = sweep use0 (Top use0 s) (some s) (p * span l)) (htop : Top use0 s l p) :
    Filled fb S use0 s G.loc l ((p + 1) * span l) st := by
  refine ⟨_, h, ⟨fun {l' p'} _ hv => ?_, fun {l' q'} h0 _ hs => ?_⟩, ?_, fun _ _ _ => rfl⟩
  · by_cases hlp : l' = l ∧ p' = p
    · obtain ⟨rfl, rfl⟩ := hlp
      exact .inl (by rw [setCell_use, set2_self]; rfl)
    rw [setCell_valid, set2_ne hlp] at hv
    rw [setCell_use, set2_ne hlp]
    exact ht.full nofun hv
  · by_cases hlq : only l (p / 512) l' q'
    · obtain ⟨rfl, rfl⟩ := hlq
      exact not_bare (set2_self ..)
    refine fun hb => ht.bare h0 hlq hs fun i hi => ?_
    have := hb i hi
    rw [setCell_valid] at this
    by_cases hlp : l' = l ∧ 512 * q' + i = p
    · obtain ⟨rfl, rfl⟩ := hlp; simp at this
    · rwa [set2_ne hlp] at this
  · rw [setCell_use, hu, (top_plan use0 s).sweep_node htop.level htop]

theorem use_here (hu : G.use = sweep use0 (Top use0 s) (some s) (p * span l)) :
    G.use l p = use0 l p := by rw [hu, sweep_le (Nat.le_refl _)]

theorem at_setLoc {id : Option Nat} {p' : Nat} : (G.setLoc (l + 1) p id).at l p' = G.at l p' := by
  simp only [Ghost.at, setLoc_loc]
  rw [set2_ne (by omega)]

def FillsBelow (fb : Bool) (S : List SegInfo) (use0 : Nat → Nat → Option SegInfo) (s : SegInfo)
    (next : Walk) (l p : Nat) : Prop :=
  ∀ st G, Rep fb S st G → Tidy G never (only (l + 1) p) → (G.loc (l + 1) p).isSome →
    G.use = sweep use0 (Top use0 s) (some s) (p * span l) →
    Outcome (next (G.at l p) (nodeBase s l p) (nodeLimit s l p) st)
      (Filled fb S use0 s G.loc (l + 1) ((p + 1) * span l)) fun e st => e = .enomem ∧ Stuck fb S use0 s st

theorem fill_descend {next : Walk} (preBlk : NodePtr) (hf : Fresh use0 s)
    (hnext : l + 1 ≤ 3 → use0 l p ≠ none → FillsBelow fb S use0 s next l p) (h : Rep fb S st G)
    (ht : Tidy G never never) (hv : G.valid l p) (hm : Meets s l p) (hl : l ≤ 3)
    (hused : use0 l p ≠ none)
    (hpath : ∀ {l'}, l' < l → use0 l' (p * span l / span l') ≠ none)
    (hu : G.use = sweep use0 (Top use0 s) (some s) (p * span l)) :
    Outcome (ummuTableFillDescend next preBlk (G.at l p) (nodeBase s l p) (nodeLimit s l p) st)
      (Filled fb S use0 s G.loc l ((p + 1) * span l)) fun e st => e = .enomem ∧ Stuck fb S use0 s st := by
  have hl3 : l + 1 ≤ 3 := by
    by_contra hc
    obtain rfl : l = 3 := by omega
    exact hused (hf.page_free hm)
  have hlinks := (h.nodeRep (h.maps.placed hv)).links hv
  unfold ummuTableFillDescend
  cases hc : G.loc (l + 1) p with
  | some id =>
    rw [hc] at hlinks
    rw [if_neg (by rw [hlinks.1]; exact Bool.false_ne_true)]
    refine (hnext hl3 hused st G h (ht.mono (fun _ _ h => h) nofun) (by rw [hc]; rfl) hu).mono
      (fun st' hst => hst.mono (Nat.le_succ l) fun _ _ _ => rfl) fun _ _ h => h
  | none =>
    rw [hc] at hlinks
    rw [if_pos (show (st.node (G.at l p)).type = true from hlinks)]
    rcases h.allocLevelBlock hv hc hl3 (some (st.node preBlk).nextLvIndex) with
      ⟨e, st', hcode, hr⟩ | ⟨st', lid, hcode, hr⟩
    · rw [hcode]
      exact ⟨rfl, G, l, p, hr, ht, ⟨hm, hl, hused, hpath, hc⟩, hu⟩
    rw [hcode]
    have hG1 : Tidy (G.setLoc (l + 1) p (some lid)) never (only (l + 1) p) := by
      refine ⟨fun {l' p'} _ hv' => ?_, fun {l' q'} h0 hne hs => ?_⟩
      · rcases ht.full nofun hv' with hus | hcs
        · exact .inl hus
        refine .inr ?_
        by_cases hlp : l' + 1 = l + 1 ∧ p' = p
        · rw [setLoc_loc, hlp.1, hlp.2, set2_self]; rfl
        · rwa [setLoc_loc, set2_ne hlp]
      · rw [setLoc_loc, set2_ne hne] at hs
        exact ht.bare h0 nofun hs
    have := hnext hl3 hused _ _ hr hG1 (by rw [setLoc_loc, set2_self]; rfl) hu
    rw [at_setLoc] at this
    refine this.mono (fun st'' hst => hst.mono (Nat.le_succ l) fun k q hk => ?_) fun _ _ h => h
    rw [setLoc_loc, set2_ne (by omega)]

theorem typeSwitch_ctx (st : St) (d : DataInfo) (b l level : Nat) :
    (ummuTableTypeSwitchPlbi st d b l level).ctx = st.ctx ∧
      (ummuTableTypeSwitchPlbi st d b l level).root = st.root := by
  unfold ummuTableTypeSwitchPlbi updateUmmuGather
  simp only
  split <;> exact ⟨rfl, rfl⟩

theorem gather_ctx (st : St) (x : Plbi) :
    (updateUmmuGather st x).ctx = st.ctx ∧ (updateUmmuGather st x).root = st.root := by
  unfold updateUmmuGather
  split <;> exact ⟨rfl, rfl⟩

theorem page_dvd_span (l : Nat) : 4096 ∣ span l := by
  rcases l with _ | _ | _ | l
  · decide
  · decide
  · decide
  · exact Nat.dvd_refl _

/-- A page-aligned base is never the sentinel of a freed node. -/
theorem freed_out {nd : TableNode} (h : nd.base = invalidAddr ∧ nd.limit = invalidAddr) :
    (!isRteInUse nd.base && !isRteInUse nd.limit) := by
  rw [h.1, h.2]
  rfl

theorem base_in_use {t : SegInfo} (hp : t.startAddr % 4096 = 0) (l p : Nat) :
    isRteInUse (nodeBase t l p) := by
  have : nodeBase t l p % 4096 = 0 := Nat.mod_eq_zero_of_dvd
    (Nat.dvd_sub (Nat.dvd_of_mod_eq_zero hp) ((page_dvd_span l).mul_left p))
  simp [isRteInUse, this, invalidAddr]

theorem fill_head {next : Walk} (hs : s = d.toSeg) (hf : Fresh use0 s)
    (hnext : l + 1 ≤ 3 → use0 l p ≠ none → FillsBelow fb S use0 s next l p) (h : Rep fb S st G)
    (ht : Tidy G never (only l (p / 512))) (hloc : (G.loc l (p / 512)).isSome)
    (hm : Meets s l p) (hl : l ≤ 3)
    (hpath : ∀ {l'}, l' < l → use0 l' (p * span l / span l') ≠ none)
    (hu : G.use = sweep use0 (Top use0 s) (some s) (p * span l)) :
    Outcome (if fb then ummuTableFillHeadNodeFreeBit d next (G.pre l (p / 512)) (G.at l p)
          (nodeBase s l p) (nodeLimit s l p) st
        else ummuTableFillHeadNode d l next (G.pre l (p / 512)) (G.at l p)
          (nodeBase s l p) (nodeLimit s l p) st)
      (Filled fb S use0 s G.loc l ((p + 1) * span l)) fun e st => e = .enomem ∧ Stuck fb S use0 s st := by
  subst hs
  have hnode := h.nodeRep hloc
  have hhere := use_here hu
  unfold ummuTableFillHeadNodeFreeBit ummuTableFillHeadNode
  cases hv : G.valid l p with
  | false =>
    have hfree : use0 l p = none := by
      rw [← hhere]
      by_contra hc
      rw [h.maps.used (Option.isSome_iff_ne_none.mpr hc)] at hv; cases hv
    have hz : (st.node (G.at l p)).valid = false := by rw [hnode.valid_eq, hv]
    have hput := filled_put (h.newNode hloc hv (fillNode_holds hm)) ht hu ⟨hm, hl, hfree, hpath⟩
    cases fb <;> simpa only [hz, Bool.false_eq_true, if_false, if_true, outcome_none] using hput
  | true =>
    rw [hv] at hnode
    have hz := hnode.isValid rfl
    cases hu0 : use0 l p with
    | none =>
      have hfreed := hnode.freed rfl (hhere.trans hu0)
      have hset : Rep fb S (st.setNode (G.at l p) (ummuTableFillNode (st.node (G.at l p))
          (nodeBase d.toSeg l p) (nodeLimit d.toSeg l p) d false))
          (G.setCell l p (some d.toSeg) true) := by
        refine h.setNode _ hv ⟨by simp, fun _ => hz, fun _ => ?_, fun t _ htt => ?_, by simp⟩
        · have := hnode.links rfl
          cases hc : G.loc (l + 1) p <;> rw [hc] at this <;> exact this
        · rw [← Option.some.inj htt]; exact fillNode_holds hm
      have hput := filled_put hset ht hu ⟨hm, hl, hu0, hpath⟩
      obtain ⟨G', hr, hrest⟩ := hput
      cases fb with
      | false =>
        have hcond := freed_out hfreed
        simp only [hz, hcond, if_true, Bool.false_eq_true, if_false]
        exact ⟨G', hr.congr (typeSwitch_ctx ..).1 (typeSwitch_ctx ..).2, hrest⟩
      | true =>
        have hfb : (st.node (G.at l p)).fBit := hfreed
        simp only [hz, hfb, if_true, Bool.true_eq_false, if_false]
        exact ⟨G', hr.congr (gather_ctx ..).1 (gather_ctx ..).2, hrest⟩
    | some t =>
      have hheld := hnode.held t rfl (hhere.trans hu0)
      have hdesc := fill_descend (G.pre l (p / 512)) hf hnext h (ht.of_valid hv) hv hm hl
        (by rw [hu0]; simp) hpath hu
      cases fb with
      | false =>
        have hcond : (!isRteInUse (st.node (G.at l p)).base && !isRteInUse (st.node (G.at l p)).limit)
            = false := by rw [hheld.base, base_in_use (hf.pages hu0)]; rfl
        simpa only [hz, hcond, if_true, Bool.false_eq_true, if_false] using hdesc
      | true =>
        simpa only [hz, hheld.fBit, if_true, Bool.true_eq_false, Bool.false_eq_true, if_false]
          using hdesc

theorem middle_invalid (hf : Fresh use0 s) (h : Rep fb S st G)
    (ht : Tidy G never (only l (p / 512))) (hfill : Fills s l p) (hl : l ≤ 3)
    (hu : G.use = sweep use0 (Top use0 s) (some s) (p * span l)) : G.valid l p = false := by
  by_contra hv
  have hv : G.valid l p := by simpa using hv
  have htidy := ht.of_valid hv
  rcases htidy.full nofun hv with hus | hc
  · obtain ⟨t, htu⟩ := Option.isSome_iff_exists.mp hus
    rw [use_here hu] at htu
    exact meets_fills (hf.meets htu) hfill (hf.apart htu)
  obtain ⟨l', p', hl', hp', hus⟩ := exists_used_below h.maps (fun hv => htidy.full nofun hv)
    (n := 3 - l) (by omega) (fun h0 => htidy.bare (by omega) nofun) hc
  obtain ⟨h1, h2⟩ := range_le (Nat.le_of_lt hl') hp'
  obtain ⟨t, htu⟩ := Option.isSome_iff_exists.mp hus
  rw [hu, sweep_le h1] at htu
  obtain ⟨h3, h4⟩ := hf.meets htu
  obtain ⟨h5, h6⟩ := hfill
  have := hf.apart htu
  have := t.le_last
  omega

theorem path_child {o : Option SegInfo} (hl : l + 1 ≤ 3) (hp : p / 512 = q)
    (hpath : ∀ {l'}, l' < l → use0 l' (q * bspan l / span l') ≠ o) (hself : use0 l p ≠ o) {l' : Nat}
    (hl' : l' < l + 1) : use0 l' (p * bspan (l + 1) / span l') ≠ o := by
  rw [bspan_succ hl]
  rcases Nat.lt_succ_iff_lt_or_eq.mp hl' with hlt | rfl
  · rw [prefix_block hlt (by omega), hp]; exact hpath hlt
  · rw [prefix_self]; exact hself

theorem pre_congr {G G' : Ghost} (h : ∀ l' q', l' ≤ l → G'.loc l' q' = G.loc l' q') (q : Nat) :
    G'.pre l q = G.pre l q := by
  cases l with
  | zero => rfl
  | succ l => simp only [Ghost.pre, Ghost.at, h l _ (Nat.le_succ l)]

theorem noteHead_ctx (st : St) (level : Nat) (b : Bool) :
    (st.noteHead level b).ctx = st.ctx ∧ (st.noteHead level b).root = st.root := by
  unfold St.noteHead; split <;> exact ⟨rfl, rfl⟩

theorem noteLevel_ctx (st : St) (level b e : Nat) :
    (st.noteLevel level b e).ctx = st.ctx ∧ (st.noteLevel level b e).root = st.root := by
  unfold St.noteLevel; split <;> exact ⟨rfl, rfl⟩

section Level

variable {n : Nat} (hs : s = d.toSeg) (hf : Fresh use0 s) (hn : l + n = 3) (h : Rep fb S st G)
  (ht : Tidy G never (only l q)) (hloc : (G.loc l q).isSome) (hm : MeetsBlock s l q)
  (hpath : ∀ {l'}, l' < l → use0 l' (q * bspan l / span l') ≠ none)
  (hu : G.use = sweep use0 (Top use0 s) (some s) (q * bspan l))
include hs hf hn h ht hloc hm hpath hu

/-- The loop of one level keeps the table filled up to the node it visits next. -/
theorem fill_level (hnext : ∀ p, p / 512 = q → Meets s l p → l + 1 ≤ 3 → use0 l p ≠ none →
      FillsBelow fb S use0 s (ummuTableFillNodeByLevel fb d n) l p) :
    Outcome (ummuTableFillNodeByLevel fb d (n + 1) (G.pre l q) (blockBase s l q)
        (blockLimit s l q) st)
      (Filled fb S use0 s G.loc l ((q + 1) * bspan l)) fun e st => e = .enomem ∧ Stuck fb S use0 s st := by
  obtain ⟨id, hid⟩ := Option.isSome_iff_exists.mp hloc
  obtain ⟨hidx, hoff⟩ := h.pre_links hid
  have hpres := Option.isSome_iff_ne_none.mp (h.present hid)
  have hlev : maptMaxLvlIndex - n = l := by unfold maptMaxLvlIndex; omega
  have hl : l ≤ 3 := by omega
  have hi := loopIdx hm
  rw [ummuTableFillNodeByLevel]
  simp only [hidx, hoff, hlev]
  rw [if_neg (by simpa using hpres)]
  generalize getLevelBlockIndex (blockBase s l q) l = b at hi
  generalize getLevelBlockIndex (blockLimit s l q) l = e at hi
  have hble := hi.le
  have helt := hi.lt
  let I (i : Nat) (st : St) : Prop := ∃ G', Rep fb S st G' ∧
    Tidy G' never (fun l' q' => i = b ∧ only l q l' q') ∧
    G'.use = sweep use0 (Top use0 s) (some s) ((512 * q + i) * span l) ∧
    ∀ l' q', l' ≤ l → G'.loc l' q' = G.loc l' q'
  refine (forRange_outcome (I := I) ?_ ?_).mono
    (fun st' hst => ?_) fun _ _ h => h
  rotate_left 2
  · obtain ⟨G', hr, ht', hu', hfr⟩ := hst
    rw [show b + (e + 1 - b) = e + 1 by omega] at ht' hu'
    rw [(top_plan use0 s).sweep_end hl hi] at hu'
    exact ⟨G', hr, ht'.mono (fun _ _ h => h) fun _ _ h => absurd h.1 (by omega), hu', hfr⟩
  · refine ⟨G, h.congr (noteLevel_ctx ..).1 (noteLevel_ctx ..).2,
      ht.mono (fun _ _ h => h) fun _ _ h => ⟨rfl, h⟩, ?_, fun _ _ _ => rfl⟩
    rw [hu, (top_plan use0 s).sweep_start hl hi fun l' hl' htop => hpath hl' htop.free]
  · rintro i st' hbi hie ⟨G', hr, ht', hu', hfr⟩
    have hq : (512 * q + i) / 512 = q := by omega
    have hloc' : G'.loc l ((512 * q + i) / 512) = some id := by rw [hq, hfr l q (Nat.le_refl _), hid]
    have hcur := Ghost.cell_at hloc' (by omega)
    have hpre : G.pre l q = G'.pre l ((512 * q + i) / 512) := by rw [hq, pre_congr hfr]
    have ht1 : Tidy G' never (only l ((512 * q + i) / 512)) := by
      rw [hq]; exact ht'.mono (fun _ _ h => h) fun _ _ h => h.2
    have hmi := hi.meets hbi (by omega)
    have hstep : ∀ {st : St}, Filled fb S use0 s G'.loc l ((512 * q + i + 1) * span l) st →
        I (i + 1) st := by
      rintro st ⟨G2, hr2, ht2, hu2, hfr2⟩
      exact ⟨G2, hr2, ht2.mono (fun _ _ h => h) nofun, hu2, fun l' q' hl' =>
        (hfr2 l' q' hl').trans (hfr l' q' hl')⟩
    simp only [hcur, hpre, hi.base hbi (by omega), hi.limit hbi (by omega)]
    split
    · next hmid =>
      have hv := middle_invalid hf hr ht1 (hi.fills hmid.1 hmid.2) hl hu'
      have hnode := hr.nodeRep (l := l) (by rw [hloc']; rfl)
      rw [if_neg (by rw [hnode.valid_eq, hv]; exact Bool.false_ne_true)]
      subst hs
      refine hstep (filled_put (hr.newNode (by rw [hloc']; rfl) hv (fillNode_holds hmi)) ht1 hu'
        ⟨hmi, hl, ?_, fun {l'} hl' => ?_⟩)
      · rw [← use_here hu']
        by_contra hc
        rw [hr.maps.used (Option.isSome_iff_ne_none.mpr hc)] at hv; cases hv
      · rw [prefix_block hl' hl, hq]; exact hpath hl'
    · have hr' := hr.congr (noteHead_ctx st' l (decide (i = b))).1 (noteHead_ctx ..).2
      refine (fill_head hs hf (hnext _ hq hmi) hr' ht1 (by rw [hloc']; rfl) hmi hl
        (fun {l'} hl' => ?_) hu').mono (fun _ h => hstep h) fun _ _ h => h
      rw [prefix_block hl' hl, hq]; exact hpath hl'

theorem fill_by_level :
    Outcome (ummuTableFillNodeByLevel fb d (n + 1) (G.pre l q) (blockBase s l q)
        (blockLimit s l q) st)
      (Filled fb S use0 s G.loc l ((q + 1) * bspan l)) fun e st => e = .enomem ∧ Stuck fb S use0 s st := by
  induction n generalizing l q st G with
  | zero => exact fill_level hs hf hn h ht hloc hm hpath hu fun p _ _ hl => by omega
  | succ n ih =>
    refine fill_level hs hf hn h ht hloc hm hpath hu fun p hp hmp hl hused st' G' hr ht' hc hu' => ?_
    have := ih (l := l + 1) (q := p) (by omega) hr ht' hc ((meetsBlock_child hl).mpr hmp)
      (path_child hl hp hpath hused) (by rw [bspan_succ hl]; exact hu')
    rwa [blockBase_child hl, blockLimit_child hl, bspan_succ hl] at this

end Level

end Fill

end UbDkms.Mapt
