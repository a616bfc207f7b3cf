import UbDkms.Mapt.Segs

/-!
# One operation on the table

What `ummu_table_op` does to a tidy table that agrees with the recorded
segments: a fill adds the segment or leaves the table as it was, an ungrant
removes the segment, a token update changes it.
-/

namespace UbDkms.Mapt

open Lib

section Segments

variable {S : List SegInfo} {use0 : Nat → Nat → Option SegInfo} {s : SegInfo}

theorem SegInv.fresh (h : SegInv S use0) (hok : SegsOk S) (ha : s.startAddr % 4096 = 0)
    (hap : ∀ t ∈ S, t.last < s.startAddr ∨ s.last < t.startAddr) : Fresh use0 s :=
  ⟨ha, h.meets, fun hu => hok.aligned (h.mem hu), fun hu => hap _ (h.mem hu)⟩

theorem Fresh.ne {l p : Nat} (h : Fresh use0 s) : use0 l p ≠ some s := fun hu => by
  have := h.apart hu
  have := s.le_last
  omega

theorem Fresh.exists_top (h : Fresh use0 s) {a : Nat} (h1 : s.startAddr ≤ a) (h2 : a ≤ s.last) :
    ∃ l, Top use0 s l (a / span l) := by
  classical
  have h3 : ∃ l, use0 l (a / span l) = none := ⟨3, h.page_free (mem_range h1 h2)⟩
  refine ⟨Nat.find h3, mem_range h1 h2, Nat.find_min' h3 (h.page_free (mem_range h1 h2)),
    Nat.find_spec h3, fun {l'} hl' => ?_⟩
  rw [prefix_trans (Nat.le_of_lt hl') rfl]
  exact Nat.find_min h3 hl'

theorem Fresh.coarse {l p : Nat} (h : Fresh use0 s) (ht : Top use0 s (l + 1) p) :
    ¬Fills s l (p / 512) := by
  have hpar : p * span (l + 1) / span l = p / 512 := by rw [prefix_succ ht.level, prefix_self]
  have := ht.path (Nat.lt_succ_self l)
  rw [hpar] at this
  obtain ⟨t, hu⟩ := Option.ne_none_iff_exists'.mp this
  exact fun hf => meets_fills (h.meets hu) hf (h.apart hu)

theorem SegInv.fill (h : SegInv S use0) (hf : Fresh use0 s) (hb : s.last < 2 ^ 48) :
    SegInv (SegsOk.insertSeg S s) (sweep use0 (Top use0 s) (some s) (2 ^ 48)) := by
  have hcase : ∀ {l p t}, sweep use0 (Top use0 s) (some s) (2 ^ 48) l p = some t →
      (t = s ∧ Top use0 s l p) ∨ use0 l p = some t := fun hu => by
    rcases sweep_cases use0 (Top use0 s) (some s) with ⟨hv, ht, -⟩ | hv
    · exact .inl ⟨(Option.some.inj (hv.symm.trans hu)).symm, ht⟩
    · exact .inr (hv.symm.trans hu)
  refine ⟨fun hu => ?_, fun hu => ?_, fun hu => ?_, fun hu => ?_, fun {t a} ht h1 h2 => ?_,
    fun hu hu' hl => ?_⟩
  · rcases hcase hu with ⟨rfl, -⟩ | hu
    · exact SegsOk.mem_insertSeg.mpr (.inl rfl)
    · exact SegsOk.mem_insertSeg.mpr (.inr (h.mem hu))
  · rcases hcase hu with ⟨rfl, ht⟩ | hu
    · exact ht.meets
    · exact h.meets hu
  · rcases hcase hu with ⟨rfl, ht⟩ | hu
    · exact ht.level
    · exact h.level hu
  · rcases hcase hu with ⟨rfl, ht⟩ | hu
    · exact hf.coarse ht
    · exact h.coarse hu
  · rcases SegsOk.mem_insertSeg.mp ht with rfl | ht
    · obtain ⟨l, htop⟩ := hf.exists_top h1 h2
      have := Nat.div_mul_le_self a (span l)
      exact ⟨l, sweep_in htop (by omega)⟩
    · obtain ⟨l, hu⟩ := h.cover ht h1 h2
      exact ⟨l, (sweep_not fun htop => by rw [htop.free] at hu; cases hu).trans hu⟩
  · rcases hcase hu with ⟨rfl, ht⟩ | hu <;> rcases hcase hu' with ⟨he, ht'⟩ | hu'
    · exact (top_plan ..).anti ht ht' hl
    · exact absurd hu' hf.ne
    · exact absurd (he ▸ hu) hf.ne
    · exact h.anti hu hu' hl

variable (h : SegInv S use0) (hok : SegsOk S) (hs : s ∈ S)
include h hok hs

theorem SegInv.clearPlan :
    ClearPlan use0 s (2 ^ 48) 0 :=
  ⟨hok.aligned hs, hok.bound hs, h.meets, h.level, fun hu => hok.aligned (h.mem hu),
    fun hu hne => hok.apart (h.mem hu) hs hne, h.coarse, h.anti, fun h1 h2 _ => h.cover hs h1 h2,
    fun hc => absurd hc (by omega)⟩

theorem SegInv.sweep_held (v : Option SegInfo)
    (l p : Nat) : (use0 l p = some s ∧ sweep use0 (HeldBy use0 s) v (2 ^ 48) l p = v) ∨
      (use0 l p ≠ some s ∧ sweep use0 (HeldBy use0 s) v (2 ^ 48) l p = use0 l p) := by
  by_cases hu : use0 l p = some s
  · have := (h.meets hu).2
    have := hok.bound hs
    exact .inl ⟨hu, sweep_in hu (by omega)⟩
  · exact .inr ⟨hu, sweep_not hu⟩

theorem SegInv.erase :
    SegInv (S.erase s) (sweep use0 (HeldBy use0 s) none (2 ^ 48)) := by
  have hcase : ∀ {l p t}, sweep use0 (HeldBy use0 s) none (2 ^ 48) l p = some t →
      t ≠ s ∧ use0 l p = some t := fun {l p t} hu => by
    rcases h.sweep_held hok hs none l p with ⟨-, hv⟩ | ⟨hne, hv⟩
    · rw [hv] at hu; cases hu
    · rw [hv] at hu
      exact ⟨fun he => hne (he ▸ hu), hu⟩
  refine ⟨fun hu => ?_, fun hu => h.meets (hcase hu).2, fun hu => h.level (hcase hu).2,
    fun hu => h.coarse (hcase hu).2, fun {t a} ht h1 h2 => ?_,
    fun hu hu' => h.anti (hcase hu).2 (hcase hu').2⟩
  · exact (List.Nodup.mem_erase_iff hok.nodup).mpr ⟨(hcase hu).1, h.mem (hcase hu).2⟩
  · obtain ⟨hne, hm⟩ := (List.Nodup.mem_erase_iff hok.nodup).mp ht
    obtain ⟨l, hu⟩ := h.cover hm h1 h2
    refine ⟨l, (sweep_not fun hh => hne ?_).trans hu⟩
    exact Option.some.inj (hu.symm.trans hh)

theorem SegInv.retoken {s' : SegInfo}
    (h1 : s'.startAddr = s.startAddr) (h2 : s'.last = s.last) :
    SegInv (S.map fun x => if x = s then s' else x) (sweep use0 (HeldBy use0 s) (some s') (2 ^ 48)) := by
  have hcase : ∀ {l p t}, sweep use0 (HeldBy use0 s) (some s') (2 ^ 48) l p = some t →
      (t = s' ∧ use0 l p = some s) ∨ (t ≠ s ∧ use0 l p = some t) := fun {l p t} hu => by
    rcases h.sweep_held hok hs (some s') l p with ⟨hh, hv⟩ | ⟨hne, hv⟩
    · exact .inl ⟨(Option.some.inj (hv.symm.trans hu)).symm, hh⟩
    · rw [hv] at hu
      exact .inr ⟨fun he => hne (he ▸ hu), hu⟩
  -- the new record is not among the old ones, unless it is the old one
  have hnew : ∀ {l p}, use0 l p = some s' → s' = s := fun {l p} hu => by
    by_contra hne
    have := hok.apart (h.mem hu) hs hne
    have := s.le_last
    omega
  have hmeets : ∀ {l p}, Meets s l p → Meets s' l p := fun hm => by
    unfold Meets at hm ⊢; rwa [h1, h2]
  have hfills : ∀ {l p}, Fills s' l p → Fills s l p := fun hm => by
    unfold Fills at hm ⊢; rwa [h1, h2] at hm
  refine ⟨fun {l p t} hu => ?_, fun {l p t} hu => ?_, fun {l p t} hu => ?_, fun {l p t} hu => ?_,
    fun {t a} ht ha1 ha2 => ?_, fun {l p l' p' t} hu hu' hl => ?_⟩
  · rcases hcase hu with ⟨rfl, hh⟩ | ⟨hne, hh⟩
    · exact List.mem_map.mpr ⟨s, hs, if_pos rfl⟩
    · exact List.mem_map.mpr ⟨t, h.mem hh, if_neg hne⟩
  · rcases hcase hu with ⟨rfl, hh⟩ | ⟨-, hh⟩
    · exact hmeets (h.meets hh)
    · exact h.meets hh
  · rcases hcase hu with ⟨-, hh⟩ | ⟨-, hh⟩ <;> exact h.level hh
  · rcases hcase hu with ⟨rfl, hh⟩ | ⟨-, hh⟩
    · exact fun hf => h.coarse hh (hfills hf)
    · exact h.coarse hh
  · obtain ⟨x, hx, rfl⟩ := List.mem_map.mp ht
    by_cases hxs : x = s
    · subst hxs
      rw [if_pos rfl] at ha1 ha2 ⊢
      obtain ⟨l, hu⟩ := h.cover hx (h1 ▸ ha1) (h2 ▸ ha2)
      refine ⟨l, ?_⟩
      rcases h.sweep_held hok hs (some s') l (a / span l) with ⟨-, hv⟩ | ⟨hne, -⟩
      · exact hv
      · exact absurd hu hne
    · rw [if_neg hxs] at ha1 ha2 ⊢
      obtain ⟨l, hu⟩ := h.cover hx ha1 ha2
      exact ⟨l, (sweep_not fun hh => hxs (Option.some.inj (hu.symm.trans hh))).trans hu⟩
  · rcases hcase hu with ⟨rfl, hh⟩ | ⟨hne, hh⟩ <;> rcases hcase hu' with ⟨he, hh'⟩ | ⟨hne', hh'⟩
    · exact h.anti hh hh' hl
    · exact absurd (hnew hh') hne'
    · exact absurd (he.trans (hnew (he ▸ hh))) hne
    · exact h.anti hh hh' hl

end Segments

section TableOp

variable {fb : Bool} {S : List SegInfo} {s : SegInfo} {st : St} {G : Ghost} {d : DataInfo}
  {use0 : Nat → Nat → Option SegInfo}

structure Agrees (fb : Bool) (S : List SegInfo) (st : St) (G : Ghost) : Prop where
  rep : Rep fb S st G
  tidy : Tidy G never never
  inv : SegInv S G.use
  segs : SegsOk S

theorem meets_root (hb : s.last < 2 ^ 48) : MeetsBlock s 0 0 := by
  have := s.le_last
  exact ⟨by rw [show (0 + 1) * bspan 0 = 2 ^ 48 by decide]; omega, by omega⟩

theorem block_root (hb : s.last < 2 ^ 48) :
    blockBase s 0 0 = s.startAddr ∧ blockLimit s 0 0 = s.last := by
  rw [blockBase, blockLimit, show bspan 0 = 2 ^ 48 by decide]
  omega

theorem end_root : (0 + 1) * bspan 0 = 2 ^ 48 := by decide

theorem root_isSome (h : Rep fb S st G) : (G.loc 0 0).isSome := by rw [h.maps.root]; rfl

theorem sweep_zero {T : Nat → Nat → Prop} {v : Option SegInfo} :
    sweep use0 T v (0 * bspan 0) = use0 := by
  funext l p
  exact sweep_le (by omega)

theorem Rep.resetRoot (h : Rep fb S st G) : Rep fb S { st with root := .zero } G :=
  ⟨h.books, h.kept, h.maps, h.segs, rfl, rfl⟩

/-- The table a stopped fill leaves is one the clear can undo. -/
theorem Stuck.clearPlan {l p : Nat} (h : Rep fb S st G) (hf : Fresh use0 s) (hi : SegInv S use0)
    (hb : s.last < 2 ^ 48) (hd : DeadEnd use0 s G l p)
    (hu : G.use = sweep use0 (Top use0 s) (some s) (p * span l)) :
    ClearPlan G.use s (p * span l) l := by
  have hcase : ∀ {l' p' t}, G.use l' p' = some t →
      (t = s ∧ Top use0 s l' p' ∧ p' * span l' < p * span l) ∨ use0 l' p' = some t := fun {l' p' t} htu => by
    rw [hu] at htu
    rcases sweep_cases use0 (Top use0 s) (some s) (y := p * span l) (l := l') (p := p') with ⟨hv, ht, hlt⟩ | hv
    · exact .inl ⟨(Option.some.inj (hv.symm.trans htu)).symm, ht, hlt⟩
    · exact .inr (hv.symm.trans htu)
  have hsame : ∀ {l' p'}, use0 l' p' ≠ none → G.use l' p' = use0 l' p' := fun {l' p'} hne => by
    rw [hu]; exact sweep_not fun ht => hne ht.free
  refine ⟨hf.aligned, hb, fun htu => ?_, fun htu => ?_, fun htu => ?_, fun htu hne => ?_,
    fun htu => ?_, fun htu htu' hl => ?_, fun h1 h2 hlt => ?_, fun _ => ?_⟩
  · rcases hcase htu with ⟨rfl, ht, -⟩ | htu
    · exact ht.meets
    · exact hf.meets htu
  · rcases hcase htu with ⟨-, ht, -⟩ | htu
    · exact ht.level
    · exact hi.level htu
  · rcases hcase htu with ⟨rfl, -, -⟩ | htu
    · exact hf.aligned
    · exact hf.pages htu
  · rcases hcase htu with ⟨rfl, -, -⟩ | htu
    · exact absurd rfl hne
    · exact hf.apart htu
  · rcases hcase htu with ⟨-, ht, -⟩ | htu
    · exact hf.coarse ht
    · exact absurd htu hf.ne
  · rcases hcase htu with ⟨-, ht, -⟩ | htu
    · rcases hcase htu' with ⟨-, ht', -⟩ | htu'
      · exact (top_plan use0 s).anti ht ht' hl
      · exact absurd htu' hf.ne
    · exact absurd htu hf.ne
  · obtain ⟨l', ht⟩ := hf.exists_top h1 h2
    have := Nat.div_mul_le_self _ (span l') |>.trans_lt hlt
    exact ⟨l', by rw [hu]; exact sweep_in ht this⟩
  · obtain ⟨t, ht⟩ := Option.ne_none_iff_exists'.mp hd.used
    rw [prefix_self]
    refine ⟨t, by rw [hsame hd.used, ht], fun he => hf.ne (he ▸ ht), hd.meets, rfl,
      fun {l'} hl' => ?_, fun {l' p'} hl' hp' => ?_⟩
    · rw [hsame (hd.path hl')]; exact hf.ne
    by_contra hc
    have hl3 : l' ≤ 3 := by
      obtain ⟨t', ht'⟩ := Option.ne_none_iff_exists'.mp hc
      rcases hcase ht' with ⟨-, htop, -⟩ | hu'
      · exact htop.level
      · exact hi.level hu'
    have := child_of_used h hl' hl3 hp' (Option.isSome_iff_ne_none.mpr hc)
    rw [hd.noChild] at this; cases this

/-- Clearing the nodes a stopped fill had filled gives the old table back. -/
theorem sweep_undo {y : Nat} (hf : Fresh use0 s) :
    let use1 := sweep use0 (Top use0 s) (some s) y
    sweep use1 (HeldBy use1 s) none y = use0 := by
  funext l p
  by_cases ht : Top use0 s l p ∧ p * span l < y
  · rw [sweep_in (show HeldBy _ s l p from sweep_in ht.1 ht.2) ht.2, ht.1.free]
  · have hv : sweep use0 (Top use0 s) (some s) y l p = use0 l p := if_neg ht
    rw [sweep_not (fun hh => hf.ne (hv.symm.trans hh)), hv]

theorem tableOp_grant (h : Agrees fb S st G) (hs : s = d.toSeg) (hlim : d.dataLimit = s.last)
    (ha : s.startAddr % 4096 = 0) (hb : s.last < 2 ^ 48)
    (hap : ∀ t ∈ S, t.last < s.startAddr ∨ s.last < t.startAddr) :
    Outcome (ummuTableOp fb .grant d st)
      (fun st' => ∃ G', Rep fb S st' G' ∧ Tidy G' never never ∧
        G'.use = sweep G.use (Top G.use s) (some s) (2 ^ 48))
      fun e st' => e = .enomem ∧ ∃ G', Agrees fb S st' G' ∧ G'.use = G.use := by
  have hf := h.inv.fresh h.segs ha hap
  have hbase : d.dataBase = s.startAddr := by rw [hs]; rfl
  have hfill := fill_by_level (d := d) (n := 3) hs hf (l := 0) (q := 0) rfl h.rep.resetRoot
    (h.tidy.mono (fun _ _ h => h) nofun) (root_isSome h.rep) (meets_root hb) nofun sweep_zero.symm
  rw [(block_root hb).1, (block_root hb).2, end_root, ← hbase, ← hlim] at hfill
  rw [ummuTableOp]
  generalize hr : ummuTableFillNodeByLevel fb d (3 + 1) (G.pre 0 0) d.dataBase d.dataLimit
    { st with root := .zero } = r at hfill
  rw [show ummuTableFillNodeByLevel fb d 4 .stack d.dataBase d.dataLimit
    { st with root := .zero } = r from hr]
  rcases r with ⟨_ | e, st1⟩
  · obtain ⟨G1, hr1, ht1, hu1, -⟩ := hfill
    exact ⟨G1, hr1, ht1, hu1⟩
  obtain ⟨he, G1, l, p, hr1, ht1, hd, hu1⟩ := hfill
  have P := Stuck.clearPlan hr1 hf h.inv hb hd hu1
  have hlt : p * span l < 2 ^ 48 := by have := hd.meets.2; omega
  have hclear := clear_by_level (d := d) (n := 3) P (l := 0) (q := 0) rfl hr1 ht1
    (root_isSome hr1) (meets_root hb) nofun (by omega) (fun _ => Nat.zero_le _) sweep_zero.symm
  rw [(block_root hb).1, (block_root hb).2, end_root, ← hbase, ← hlim] at hclear
  simp only [outcome_some]
  generalize hr2 : ummuTableClearNodeByLevel fb d (3 + 1) (G1.pre 0 0) d.dataBase d.dataLimit st1
    = r2 at hclear
  rw [show ummuTableClearNodeByLevel fb d 4 .stack d.dataBase d.dataLimit st1 = r2 from hr2]
  rcases r2 with ⟨_ | e2, st2⟩
  · obtain ⟨G2, -, -, -, -, hle⟩ := hclear
    omega
  obtain ⟨G2, hr2, ht2, hu2, -, -, -⟩ := hclear
  rw [hu1, sweep_undo hf] at hu2
  exact ⟨he, G2, ⟨hr2, ht2, hu2 ▸ h.inv, h.segs⟩, hu2⟩

variable (h : Agrees fb S st G) (hs : s ∈ S) (hbase : d.dataBase = s.startAddr) (hlim : d.dataLimit = s.last)
include h hs hbase hlim

theorem tableOp_ungrant :
    Outcome (ummuTableOp fb .ungrant d st)
      (fun st' => ∃ G', Rep fb S st' G' ∧ Tidy G' never never ∧
        G'.use = sweep G.use (HeldBy G.use s) none (2 ^ 48))
      fun _ _ => False := by
  have hb := h.segs.bound hs
  have P := h.inv.clearPlan h.segs hs
  have hclear := clear_by_level (d := d) (n := 3) P (l := 0) (q := 0) rfl h.rep.resetRoot h.tidy
    (root_isSome h.rep) (meets_root hb) nofun (by omega) (fun _ => Nat.zero_le _) sweep_zero.symm
  rw [(block_root hb).1, (block_root hb).2, end_root, ← hbase, ← hlim] at hclear
  refine hclear.mono (fun st' hst => ?_) fun _ st' hst => ?_
  · obtain ⟨G', hr, ht, hu, -, -⟩ := hst
    exact ⟨G', hr, ht.of_loc (root_isSome hr), hu⟩
  · obtain ⟨G', -, -, -, -, -, hlt⟩ := hst
    omega

theorem tableOp_token {op : GrantOp} (hup : Updatable op d s) :
    Outcome (ummuTableOp fb op d st)
      (fun st' => ∃ G', Rep fb S st' G' ∧ Tidy G' never never ∧
        G'.use = sweep G.use (HeldBy G.use s) (some (tokenUpdated op d.tokenval s)) (2 ^ 48))
      fun _ _ => False := by
  have hb := h.segs.bound hs
  have P := h.inv.clearPlan h.segs hs
  have hupd := update_by_level (n := 3) P hup rfl (l := 0) (q := 0) rfl h.rep.resetRoot
    (root_isSome h.rep) (meets_root hb) nofun (by rw [end_root]) sweep_zero.symm
  rw [(block_root hb).1, (block_root hb).2, end_root, ← hbase, ← hlim] at hupd
  have hcode : ummuTableOp fb op d st = ummuTableUpdateTokenByLevel fb op d (3 + 1) (G.pre 0 0)
      d.dataBase d.dataLimit { st with root := .zero } := by
    rcases hup.op with ⟨rfl, -⟩ | ⟨rfl, -⟩ <;> rfl
  rw [hcode]
  refine hupd.mono (fun st' hst => ?_) fun _ _ h => h
  obtain ⟨G', hr, hva, hlo, hu⟩ := hst
  refine ⟨G', hr, ⟨fun {l p} _ hv => ?_, fun {l q} h0 _ hsm => ?_⟩, hu⟩
  · rw [hva] at hv
    rw [hlo, hu]
    rcases h.tidy.full nofun hv with hus | hc
    · rcases h.inv.sweep_held h.segs hs (some (tokenUpdated op d.tokenval s)) l p with ⟨-, hv⟩ | ⟨-, hv⟩
      · exact .inl (by rw [hv]; rfl)
      · exact .inl (by rw [hv]; exact hus)
    · exact .inr hc
  · rw [hlo] at hsm
    have := h.tidy.bare h0 nofun hsm
    rwa [Ghost.Bare, hva]

end TableOp

end UbDkms.Mapt
