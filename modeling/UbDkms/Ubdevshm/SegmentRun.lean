import UbDkms.Ubdevshm.Segment

/-!
# The segments of a process are kept apart

As long as segments of different providers are equal or disjoint, the areas of the tree
are disjoint, each of the three searches is guided by their order, and a registration is
refused exactly when it overlaps a segment of its provider.
-/

namespace UbDkms.Ubdevshm

open Lib List SearchTree

def VaArea.Disjoint (a b : VaArea) : Prop := a.va + a.size ≤ b.va ∨ b.va + b.size ≤ a.va

instance (a b : VaArea) : Decidable (a.Disjoint b) := inferInstanceAs (Decidable (_ ∨ _))

variable {a : VaArea}

theorem VaArea.Disjoint.symm {b : VaArea} (h : a.Disjoint b) : b.Disjoint a := Or.symm h

def FindMode.Matches : FindMode → VaArea → VaArea → Prop
  | .equal, a, b => b = a
  | .overlap, a, b => ¬ b.Disjoint a
  | .contain, a, b => b.va ≤ a.va ∧ a.va + a.size ≤ b.va + b.size

/-! ## The three searches -/

theorem VaArea.last_eq (h : 0 < a.size) : a.last = a.va + a.size - 1 := by
  have hf := a.fits
  unfold VaArea.last
  rw [show a.va + a.size + (2 ^ 64 - 1) = a.va + a.size - 1 + 2 ^ 64 by omega, Nat.add_mod_right,
    Nat.mod_eq_of_lt (by omega)]

variable {b : ShmArea}

theorem shmAreaCmp_eq :
    shmAreaCmp a b = .eq ↔ b.toVaArea = a := by
  obtain ⟨⟨va, size, hf⟩, l, hp⟩ := b
  obtain ⟨va', size', hf'⟩ := a
  simp only [shmAreaCmp, VaArea.mk.injEq]
  split
  · split <;> simp <;> omega
  split
  · split <;> simp <;> omega
  · simp; omega

theorem shmAreaFindOverlap_eq (h : 0 < a.size) :
    shmAreaFindOverlap a b = .eq ↔ ¬ b.toVaArea.Disjoint a := by
  have hb := b.pos
  simp only [shmAreaFindOverlap, VaArea.Disjoint, VaArea.last_eq h, VaArea.last_eq hb]
  split
  · simp; omega
  · split <;> simp <;> omega

theorem shmAreaFindContaining_eq :
    shmAreaFindContaining a b = .eq ↔ b.va ≤ a.va ∧ a.va + a.size ≤ b.va + b.size := by
  simp only [shmAreaFindContaining]
  split
  · simpa using ‹_ ∧ _›
  · split <;> simp <;> omega

theorem FindMode.cmp_eq (m : FindMode) {a : VaArea} {b : ShmArea}
    (h : m = .overlap → 0 < a.size) : m.cmp a b = .eq ↔ m.Matches a b.toVaArea := by
  cases m with
  | equal => exact shmAreaCmp_eq
  | overlap => exact shmAreaFindOverlap_eq (h rfl)
  | contain => exact shmAreaFindContaining_eq

def Before (a b : ShmArea) : Prop := a.va + a.size ≤ b.va

theorem Before.trans {a c : ShmArea} (h : Before a b) (h' : Before b c) : Before a c := by
  unfold Before at *
  omega

theorem Before.guides (m : FindMode) {a : VaArea} (h : m = .overlap → 0 < a.size) {x y : ShmArea}
    (hxy : Before x y) : SearchTree.Guides (m.cmp a) x y := by
  have hx := x.pos
  have hy := y.pos
  unfold Before at hxy
  unfold SearchTree.Guides
  rw [m.cmp_eq h, m.cmp_eq h]
  cases m with
  | equal =>
    simp only [FindMode.Matches, FindMode.cmp, shmAreaCmp]
    constructor
    · rintro rfl
      split
      · rw [if_neg (by omega)]; simp
      · omega
    · rintro rfl
      split
      · rw [if_pos (by omega)]; simp
      · omega
  | overlap =>
    have ha := h rfl
    simp only [FindMode.Matches, FindMode.cmp, shmAreaFindOverlap, VaArea.Disjoint,
      VaArea.last_eq ha, VaArea.last_eq hx, VaArea.last_eq hy]
    constructor
    · intro hd
      split
      · simp
      · rw [if_neg (by omega)]; simp
    · intro hd
      split
      · simp
      · rw [if_pos (by omega)]; simp
  | contain =>
    simp only [FindMode.Matches, FindMode.cmp, shmAreaFindContaining]
    constructor
    · rintro ⟨h1, h2⟩
      split
      · simp
      · rw [if_neg (by omega)]; simp
    · rintro ⟨h1, h2⟩
      split
      · simp
      · rw [if_pos (by omega)]; simp

section Search

variable {t : SearchTree ShmArea} {a : VaArea} {m : FindMode}

theorem guided (hs : t.toList.Pairwise Before) (h : m = .overlap → 0 < a.size) :
    t.toList.Pairwise (SearchTree.Guides (m.cmp a)) :=
  hs.imp fun hxy => hxy.guides m h

theorem shmAreaFind_some {sa : ShmArea} (h : m = .overlap → 0 < a.size)
    (hf : shmAreaFind t a m = some sa) : sa ∈ t.toList ∧ m.Matches a sa.toVaArea :=
  ⟨mem_of_find hf, (m.cmp_eq h).mp (find_split hf).1⟩

theorem shmAreaFind_none (hs : t.toList.Pairwise Before) (h : m = .overlap → 0 < a.size) :
    shmAreaFind t a m = none ↔ ∀ sa ∈ t.toList, ¬ m.Matches a sa.toVaArea := by
  rw [shmAreaFind, find_eq_none (guided hs h)]
  exact forall₂_congr fun sa _ => not_congr (m.cmp_eq h)

theorem eq_of_meet (hs : t.toList.Pairwise Before) {x y : ShmArea} (hx : x ∈ t.toList)
    (hy : y ∈ t.toList) (hxy : ¬ x.toVaArea.Disjoint y.toVaArea) : x = y := by
  by_contra hne
  have hsym : Std.Symm fun x y : ShmArea => x.toVaArea.Disjoint y.toVaArea :=
    ⟨fun _ _ h => h.symm⟩
  have hs' : t.toList.Pairwise fun x y => x.toVaArea.Disjoint y.toVaArea :=
    hs.imp fun h => Or.inl h
  exact hxy (hs'.forall hx hy hne)

end Search

/-! ## What the tree says is registered -/

def segs (l : List ShmArea) : List (Nat × VaArea) :=
  l.flatMap fun sa => sa.ctxList.map fun p => (p, sa.toVaArea)

@[simp] theorem segs_append (l l' : List ShmArea) : segs (l ++ l') = segs l ++ segs l' := by
  simp [segs]

@[simp] theorem segs_cons (x : ShmArea) (l : List ShmArea) :
    segs (x :: l) = (x.ctxList.map fun p => (p, x.toVaArea)) ++ segs l := by
  simp [segs]

theorem mem_segs {l : List ShmArea} {p : Nat} :
    (p, a) ∈ segs l ↔ ∃ sa ∈ l, p ∈ sa.ctxList ∧ sa.toVaArea = a := by
  simp [segs]

/-- Disjoint areas in order, each with contexts of different providers. -/
structure TreeOk (l : List ShmArea) : Prop where
  sorted : l.Pairwise Before
  used : ∀ sa ∈ l, sa.ctxList ≠ []
  once : ∀ sa ∈ l, sa.ctxList.Nodup

section Change

variable {l r : List ShmArea} {x : ShmArea} {p : Nat}

theorem TreeOk.replace (h : TreeOk (l ++ x :: r)) (c : List Nat) (h0 : c ≠ []) (hc : c.Nodup) :
    TreeOk (l ++ { x with ctxList := c } :: r) := by
  obtain ⟨hs, hu, ho⟩ := h
  rw [pairwise_append, pairwise_cons] at hs
  obtain ⟨hl, ⟨hxr, hr⟩, hlx⟩ := hs
  refine ⟨pairwise_append.mpr ⟨hl, pairwise_cons.mpr ⟨hxr, hr⟩, fun y hy z hz => ?_⟩,
    fun y hy => ?_, fun y hy => ?_⟩
  · rcases mem_cons.mp hz with rfl | hz
    · exact hlx y hy x (mem_cons_self ..)
    · exact hlx y hy z (mem_cons_of_mem _ hz)
  · rcases mem_append.mp hy with hy | hy
    · exact hu y (mem_append_left _ hy)
    rcases mem_cons.mp hy with rfl | hy
    · exact h0
    · exact hu y (by simp [hy])
  · rcases mem_append.mp hy with hy | hy
    · exact ho y (mem_append_left _ hy)
    rcases mem_cons.mp hy with rfl | hy
    · exact hc
    · exact ho y (by simp [hy])

theorem TreeOk.remove (h : TreeOk (l ++ x :: r)) : TreeOk (l ++ r) := by
  have hsub : (l ++ r).Sublist (l ++ x :: r) := (sublist_cons_self x r).append_left l
  exact ⟨h.sorted.sublist hsub, fun y hy => h.used y (hsub.subset hy),
    fun y hy => h.once y (hsub.subset hy)⟩

theorem segs_link (l r : List ShmArea) (x : ShmArea) (p : Nat) :
    (segs (l ++ x.link p :: r)).Perm ((p, x.toVaArea) :: segs (l ++ x :: r)) := by
  simp only [segs_append, segs_cons, ShmArea.link, map_append, map_cons, map_nil,
    append_assoc, cons_append, nil_append]
  rw [← append_assoc, ← append_assoc]
  exact perm_middle

theorem segs_unlink (l r : List ShmArea) (hp : p ∈ x.ctxList) :
    (segs (l ++ x :: r)).Perm ((p, x.toVaArea) :: segs (l ++ x.unlink p :: r)) := by
  have hx : (x.ctxList.map fun p => (p, x.toVaArea)).Perm
      ((p, x.toVaArea) :: (x.ctxList.erase p).map fun p => (p, x.toVaArea)) :=
    (perm_cons_erase hp).map _
  simp only [segs_append, segs_cons, ShmArea.unlink]
  exact ((hx.append_right _).append_left _).trans perm_middle

end Change

section Ops

variable {t : SearchTree ShmArea} {a : VaArea} {p : Nat} {env : ShmEnv} {sa : ShmArea}

theorem equal_split (hf : shmAreaFind t a .equal = some sa) :
    sa.toVaArea = a ∧ ∃ l r, t.toList = l ++ sa :: r ∧
      (∀ f, (t.modify (shmAreaCmp a) f).toList = l ++ f sa :: r) ∧
      (t.erase (shmAreaCmp a)).toList = l ++ r := by
  obtain ⟨he, h⟩ := find_split hf
  exact ⟨shmAreaCmp_eq.mp he, h⟩

theorem link_spec (h : TreeOk t.toList) (hf : shmAreaFind t a .equal = some sa)
    (hp : p ∉ sa.ctxList) : TreeOk (t.modify (shmAreaCmp a) (ShmArea.link p)).toList ∧
      (segs (t.modify (shmAreaCmp a) (ShmArea.link p)).toList).Perm ((p, a) :: segs t.toList) := by
  obtain ⟨rfl, l, r, ht, hm, -⟩ := equal_split hf
  rw [hm, ht]
  rw [ht] at h
  refine ⟨h.replace _ (by simp) ?_, segs_link l r sa p⟩
  have ho := h.once sa (by simp)
  exact nodup_append.mpr ⟨ho, nodup_singleton p, fun x hx y hy hxy =>
    hp (by rwa [← mem_singleton.mp hy, ← hxy])⟩

theorem insert_spec (h : TreeOk t.toList) (hpos : 0 < a.size)
    (hd : ∀ sa ∈ t.toList, sa.toVaArea.Disjoint a) :
    TreeOk (env.bal.run (t.insert shmAreaLess ⟨a, [p], hpos⟩)).toList ∧
      (segs (env.bal.run (t.insert shmAreaLess ⟨a, [p], hpos⟩)).toList).Perm
        ((p, a) :: segs t.toList) := by
  rw [env.bal.toList_run]
  have hperm := insert_perm shmAreaLess ⟨a, [p], hpos⟩ t
  refine ⟨⟨insert_pairwise (fun _ _ _ => Before.trans) h.sorted fun y hy => ?_,
    fun sa hsa => ?_, fun sa hsa => ?_⟩, hperm.flatMap_right _⟩
  · have hy' := hd y hy
    have := y.pos
    unfold VaArea.Disjoint at hy'
    simp only [shmAreaLess, decide_eq_true_eq, Before]
    split <;> omega
  · rcases mem_cons.mp (hperm.mem_iff.mp hsa) with rfl | hsa
    · exact cons_ne_nil _ _
    · exact h.used sa hsa
  · rcases mem_cons.mp (hperm.mem_iff.mp hsa) with rfl | hsa
    · exact nodup_singleton p
    · exact h.once sa hsa

theorem destroy_spec (env : ShmEnv) (h : TreeOk t.toList)
    (hf : shmAreaFind t a .equal = some sa) (hp : p ∈ sa.ctxList) :
    TreeOk (destroyAccessCtx t a p env).toList ∧
      (segs t.toList).Perm ((p, a) :: segs (destroyAccessCtx t a p env).toList) := by
  obtain ⟨rfl, l, r, ht, hm, hr⟩ := equal_split hf
  have hseg := segs_unlink l r hp
  rw [destroyAccessCtx, hf]
  dsimp only
  rw [ht] at h
  split
  · rename_i h0
    rw [env.bal.toList_run, ht, hr]
    refine ⟨h.remove, hseg.trans ?_⟩
    rw [ShmArea.unlink, h0]
    simp
  rename_i h0
  rw [hm, ht]
  exact ⟨h.replace _ h0 ((h.once sa (by simp)).erase p), hseg⟩

end Ops

structure ShmEnv.Fine (env : ShmEnv) : Prop where
  role : env.roleOk = true
  provider : env.providerOk = true
  cntr : env.cntrFails = false
  ctx : env.ctxFails = false
  area : env.areaFails = false

namespace Registry

def areas (s : Registry) : List ShmArea := (s.cntr.getD .nil).toList

structure Inv (s : Registry) : Prop where
  tree : TreeOk s.areas
  held : s.held.Perm (segs s.areas)

/-- The segment is equal to or disjoint from those of the other providers. -/
def Apart (s : Registry) (p : Nat) (a : VaArea) : Prop :=
  ∀ h ∈ s.held, h.1 ≠ p → h.2 = a ∨ h.2.Disjoint a

variable {s : Registry} {t : SearchTree ShmArea} {p : Nat} {a : VaArea} {env : ShmEnv}

theorem Inv.mem_held (i : Inv s) :
    (p, a) ∈ s.held ↔ ∃ sa ∈ s.areas, p ∈ sa.ctxList ∧ sa.toVaArea = a :=
  i.held.mem_iff.trans mem_segs

theorem Inv.place (i : Inv s) (hc : s.cntr = some t) (hpos : 0 < a.size) (ha : s.Apart p a) :
    (findAccessCtx t a .overlap p ∧ ∃ h ∈ s.held, h.1 = p ∧ ¬ h.2.Disjoint a) ∨
    (findAccessCtx t a .overlap p = false ∧ (∀ h ∈ s.held, h.1 = p → h.2.Disjoint a) ∧
      ((shmAreaFind t a .equal = none ∧ ∀ sa ∈ t.toList, sa.toVaArea.Disjoint a) ∨
        ∃ sa, shmAreaFind t a .equal = some sa ∧ p ∉ sa.ctxList)) := by
  have ht : s.areas = t.toList := by rw [areas, hc]; rfl
  have hs := i.tree.sorted
  rw [ht] at hs
  have hmeet : ∀ x ∈ t.toList, ∀ y ∈ t.toList, ¬ x.toVaArea.Disjoint y.toVaArea → x = y :=
    fun x hx y hy => eq_of_meet hs hx hy
  cases hf : shmAreaFind t a .overlap with
  | none =>
    have hd : ∀ sa ∈ t.toList, sa.toVaArea.Disjoint a := fun sa hsa =>
      not_not.mp ((shmAreaFind_none hs fun _ => hpos).mp hf sa hsa)
    refine .inr ⟨by rw [findAccessCtx, hf], fun h hh hp => ?_, .inl ⟨?_, hd⟩⟩
    · obtain ⟨sa, hsa, -, he⟩ := i.mem_held.mp hh
      rw [← he]
      exact hd sa (ht ▸ hsa)
    · refine (shmAreaFind_none (m := .equal) hs nofun).mpr fun sa hsa he => ?_
      have h1 := hd sa hsa
      rw [show sa.toVaArea = a from he] at h1
      unfold VaArea.Disjoint at h1
      omega
  | some sa =>
    obtain ⟨hsa, hov⟩ := shmAreaFind_some (fun _ => hpos) hf
    have hov : ¬ sa.toVaArea.Disjoint a := hov
    by_cases hp : p ∈ sa.ctxList
    · refine .inl ⟨by simp [findAccessCtx, hf, hp], (p, sa.toVaArea), ?_, rfl, hov⟩
      exact i.mem_held.mpr ⟨sa, ht ▸ hsa, hp, rfl⟩
    -- another provider has the area, so it is the segment itself
    obtain ⟨q, hq⟩ := exists_mem_of_ne_nil _ (i.tree.used sa (ht ▸ hsa))
    have heq : sa.toVaArea = a := by
      refine (ha (q, sa.toVaArea) (i.mem_held.mpr ⟨sa, ht ▸ hsa, hq, rfl⟩) ?_).resolve_right hov
      rintro rfl
      exact hp hq
    refine .inr ⟨by simp [findAccessCtx, hf, hp], fun h hh hph => ?_, .inr ?_⟩
    · by_contra hd
      obtain ⟨sb, hsb, hpb, he⟩ := i.mem_held.mp hh
      rw [← he, ← heq] at hd
      have := hmeet sb (ht ▸ hsb) sa hsa hd
      subst this
      exact hp (hph ▸ hpb)
    · cases hfe : shmAreaFind t a .equal with
      | none => exact absurd heq ((shmAreaFind_none (m := .equal) hs nofun).mp hfe sa hsa)
      | some sb =>
        obtain ⟨hsb, hb⟩ := shmAreaFind_some (m := .equal) nofun hfe
        have hb : sb.toVaArea = a := hb
        have : sb = sa := hmeet sb hsb sa hsa (by
          rw [hb, heq]; unfold VaArea.Disjoint; omega)
        exact ⟨sb, rfl, this ▸ hp⟩

theorem create_spec (env : ShmEnv) (h : TreeOk t.toList) (hpos : 0 < a.size)
    (hfree : (shmAreaFind t a .equal = none ∧ ∀ sa ∈ t.toList, sa.toVaArea.Disjoint a) ∨
      ∃ sa, shmAreaFind t a .equal = some sa ∧ p ∉ sa.ctxList) :
    ((createAndLinkAccessCtx t a hpos p env).1 = none ∧
      TreeOk (createAndLinkAccessCtx t a hpos p env).2.toList ∧
      (segs (createAndLinkAccessCtx t a hpos p env).2.toList).Perm ((p, a) :: segs t.toList)) ∨
    ((createAndLinkAccessCtx t a hpos p env).1 ≠ none ∧
      (createAndLinkAccessCtx t a hpos p env).2 = t ∧ (env.ctxFails || env.areaFails)) := by
  unfold createAndLinkAccessCtx
  cases hc : env.ctxFails with
  | true => exact .inr ⟨nofun, rfl, rfl⟩
  | false =>
    rcases hfree with ⟨hn, hd⟩ | ⟨sa, hf, hp⟩
    · simp only [hn, shmAreaInsert]
      cases hr : env.areaFails with
      | true => exact .inr ⟨nofun, rfl, rfl⟩
      | false => exact .inl ⟨rfl, insert_spec h hpos hd⟩
    · simp only [hf]
      exact .inl ⟨rfl, link_spec h hf hp⟩

theorem Inv.register (i : Inv s) (env : ShmEnv) (ha : s.Apart p a) :
    ((registerSegment s.cntr p a env).1 = none ∧ (∀ h ∈ s.held, h.1 = p → h.2.Disjoint a) ∧
      TreeOk ((registerSegment s.cntr p a env).2.getD .nil).toList ∧
      (segs ((registerSegment s.cntr p a env).2.getD .nil).toList).Perm
        ((p, a) :: segs s.areas)) ∨
    ((registerSegment s.cntr p a env).1 ≠ none ∧
      ((registerSegment s.cntr p a env).2.getD .nil).toList = s.areas ∧
      (a.size = 0 ∨ env.roleOk = false ∨ env.providerOk = false ∨ env.cntrFails ∨
        (env.ctxFails || env.areaFails) ∨ ∃ h ∈ s.held, h.1 = p ∧ ¬ h.2.Disjoint a)) := by
  unfold registerSegment
  split
  · rename_i h0
    exact .inr ⟨nofun, rfl, .inl h0⟩
  rename_i h0
  have hpos : 0 < a.size := Nat.pos_of_ne_zero h0
  cases hr : env.roleOk with
  | false => exact .inr ⟨nofun, rfl, .inr (.inl rfl)⟩
  | true =>
  cases hv : env.providerOk with
  | false => exact .inr ⟨nofun, rfl, .inr (.inr (.inl rfl))⟩
  | true =>
  simp only [Bool.not_true, Bool.false_eq_true, if_false]
  cases hc : s.cntr with
  | none =>
    have hnil : s.areas = [] := by rw [areas, hc]; rfl
    dsimp only
    split
    · rename_i hf
      exact .inr ⟨nofun, hnil.symm, .inr (.inr (.inr (.inl hf)))⟩
    have htree : TreeOk (SearchTree.nil : SearchTree ShmArea).toList := ⟨.nil, nofun, nofun⟩
    have hheld : s.held = [] := by
      have := i.held
      rw [hnil] at this
      exact this.eq_nil
    rcases create_spec (p := p) env htree hpos (.inl ⟨rfl, nofun⟩) with
      ⟨h1, h2, h3⟩ | ⟨h1, h2, h3⟩
    · left
      generalize createAndLinkAccessCtx .nil a hpos p env = r at h1 h2 h3
      obtain ⟨_, t⟩ := r
      cases h1
      exact ⟨rfl, by simp [hheld], h2, hnil ▸ h3⟩
    right
    generalize createAndLinkAccessCtx .nil a hpos p env = r at h1 h2 h3
    obtain ⟨_ | e, t⟩ := r
    · exact absurd rfl h1
    · exact ⟨nofun, hnil.symm, .inr (.inr (.inr (.inr (.inl h3))))⟩
  | some t =>
    have ht : s.areas = t.toList := by rw [areas, hc]; rfl
    dsimp only
    rcases i.place hc hpos ha with ⟨hf, hov⟩ | ⟨hf, hd, hfree⟩
    · rw [if_pos hf]
      exact .inr ⟨nofun, ht.symm, .inr (.inr (.inr (.inr (.inr hov))))⟩
    rw [hf, if_neg Bool.false_ne_true]
    rcases create_spec env (ht ▸ i.tree) hpos hfree with ⟨h1, h2, h3⟩ | ⟨h1, h2, h3⟩
    · exact .inl ⟨h1, hd, h2, ht ▸ h3⟩
    · exact .inr ⟨h1, ht ▸ congrArg toList h2, .inr (.inr (.inr (.inr (.inl h3))))⟩

theorem toList_cleanup (t : SearchTree ShmArea) :
    ((shmContainerCleanup t).getD .nil).toList = t.toList := by
  cases t <;> rfl

theorem findAccessCtx_equal :
    findAccessCtx t a .equal p ↔
      ∃ sa, shmAreaFind t a .equal = some sa ∧ p ∈ sa.ctxList := by
  unfold findAccessCtx
  split <;> simp_all

theorem Inv.unregister (i : Inv s) (p : Nat) (a : VaArea) (env : ShmEnv) :
    ((unregisterSegment s.cntr p a env).1 = none ∧
      TreeOk ((unregisterSegment s.cntr p a env).2.getD .nil).toList ∧
      (segs s.areas).Perm
        ((p, a) :: segs ((unregisterSegment s.cntr p a env).2.getD .nil).toList)) ∨
    ((unregisterSegment s.cntr p a env).1 ≠ none ∧
      ((unregisterSegment s.cntr p a env).2.getD .nil).toList = s.areas ∧
      (env.providerOk = false ∨ (p, a) ∉ s.held)) := by
  unfold unregisterSegment
  cases hv : env.providerOk with
  | false => exact .inr ⟨nofun, rfl, .inl rfl⟩
  | true =>
  simp only [Bool.not_true, Bool.false_eq_true, if_false]
  cases hc : s.cntr with
  | none =>
    have hnil : s.areas = [] := by rw [areas, hc]; rfl
    refine .inr ⟨nofun, hnil.symm, .inr fun hm => ?_⟩
    obtain ⟨sa, hsa, -⟩ := i.mem_held.mp hm
    rw [hnil] at hsa
    cases hsa
  | some t =>
    have ht : s.areas = t.toList := by rw [areas, hc]; rfl
    have htree : TreeOk t.toList := ht ▸ i.tree
    dsimp only
    split
    · rename_i hf
      obtain ⟨sa, hfe, hp⟩ := findAccessCtx_equal.mp hf
      obtain ⟨h1, h2⟩ := destroy_spec env htree hfe hp
      rw [toList_cleanup, ht]
      exact .inl ⟨rfl, h1, h2⟩
    rename_i hf
    refine .inr ⟨nofun, ht ▸ toList_cleanup t, .inr fun hm => hf ?_⟩
    obtain ⟨sa, hsa, hp, he⟩ := i.mem_held.mp hm
    refine findAccessCtx_equal.mpr ?_
    cases hfe : shmAreaFind t a .equal with
    | none =>
      exact absurd he ((shmAreaFind_none (m := .equal) htree.sorted nofun).mp hfe sa (ht ▸ hsa))
    | some sb =>
      obtain ⟨hsb, hb⟩ := shmAreaFind_some (m := .equal) nofun hfe
      have hb : sb.toVaArea = a := hb
      have hpos := sa.pos
      have heq : sb = sa := eq_of_meet htree.sorted hsb (ht ▸ hsa) (by
        rw [hb, he, ← he]; unfold VaArea.Disjoint; omega)
      exact ⟨sb, rfl, heq ▸ hp⟩

/-- The calls for which segments of different providers do not overlap in part. -/
def CallApart (s : Registry) : ShmCall → Prop
  | .register p a _ => s.Apart p a
  | .unregister _ _ _ => True

theorem Inv.same (i : Inv s) {c : Option (SearchTree ShmArea)}
    (h : (c.getD .nil).toList = s.areas) : Inv { s with cntr := c } := by
  have ha : ({ s with cntr := c } : Registry).areas = s.areas := h
  refine ⟨?_, ?_⟩
  · rw [ha]; exact i.tree
  · rw [ha]; exact i.held

theorem Inv.call (i : Inv s) {c : ShmCall} (hc : s.CallApart c) : Inv (s.call c) := by
  cases c with
  | register p a env =>
    dsimp only [Registry.call]
    rcases i.register env hc with ⟨h1, -, h2, h3⟩ | ⟨h1, h2, -⟩
    · rw [if_pos h1]
      exact ⟨h2, (perm_append_singleton _ _).trans ((i.held.cons _).trans h3.symm)⟩
    · rw [if_neg h1]
      exact i.same h2
  | unregister p a env =>
    dsimp only [Registry.call]
    rcases i.unregister p a env with ⟨h1, h2, h3⟩ | ⟨h1, h2, -⟩
    · rw [if_pos h1]
      exact ⟨h2, (cons_perm_iff_perm_erase.mp (i.held.trans h3).symm).2.symm⟩
    · rw [if_neg h1]
      exact i.same h2

theorem init_inv : Inv {} := ⟨⟨.nil, nofun, nofun⟩, .refl _⟩

theorem Inv.pairwise (i : Inv s) : s.held.Pairwise fun x y => x.1 = y.1 → x.2.Disjoint y.2 := by
  refine (i.held.pairwise_iff fun h he => (h he.symm).symm).mpr ?_
  refine pairwise_flatMap.mpr ⟨fun sa hsa => ?_, i.tree.sorted.imp fun h x hx y hy _ => ?_⟩
  · refine pairwise_map.mpr ((i.tree.once sa hsa).imp fun hne he => absurd he hne)
  · obtain ⟨_, _, rfl⟩ := mem_map.mp hx
    obtain ⟨_, _, rfl⟩ := mem_map.mp hy
    exact .inl h

theorem Inv.find (i : Inv s) (m : FindMode) (a : VaArea) (h : m = .overlap → 0 < a.size) :
    (∀ sa, shmAreaFind (s.cntr.getD .nil) a m = some sa →
      m.Matches a sa.toVaArea ∧ ∃ x ∈ s.held, x.2 = sa.toVaArea) ∧
    ((∃ sa, shmAreaFind (s.cntr.getD .nil) a m = some sa) ↔ ∃ x ∈ s.held, m.Matches a x.2) := by
  have hheld : ∀ sa ∈ s.areas, ∃ x ∈ s.held, x.2 = sa.toVaArea := by
    intro sa hsa
    obtain ⟨q, hq⟩ := exists_mem_of_ne_nil _ (i.tree.used sa hsa)
    exact ⟨(q, sa.toVaArea), i.mem_held.mpr ⟨sa, hsa, hq, rfl⟩, rfl⟩
  have hsome : ∀ sa, shmAreaFind (s.cntr.getD .nil) a m = some sa →
      m.Matches a sa.toVaArea ∧ ∃ x ∈ s.held, x.2 = sa.toVaArea := by
    intro sa hf
    obtain ⟨hsa, hm⟩ := shmAreaFind_some h hf
    exact ⟨hm, hheld sa hsa⟩
  refine ⟨hsome, fun ⟨sa, hf⟩ => ?_, fun ⟨x, hx, hm⟩ => ?_⟩
  · obtain ⟨hm, x, hx, he⟩ := hsome sa hf
    exact ⟨x, hx, he ▸ hm⟩
  · obtain ⟨sa, hsa, -, he⟩ := i.mem_held.mp hx
    cases hf : shmAreaFind (s.cntr.getD .nil) a m with
    | some sb => exact ⟨sb, rfl⟩
    | none => exact absurd (he ▸ hm) ((shmAreaFind_none i.tree.sorted h).mp hf sa hsa)

/-- In every run in which a registered segment is equal to or disjoint from those of other
providers, the segments registered with one provider are pairwise disjoint; a further such
registration succeeds, memory permitting, iff it overlaps none of its provider; a
registered segment is found and unregistered; and the three searches find an area iff a
registered segment is equal to, overlaps or contains the range. -/
theorem segments_apart (h : Reach CallApart call {} s) :
    (s.held.Pairwise fun x y => x.1 = y.1 → x.2.Disjoint y.2) ∧
    (∀ p a (env : ShmEnv), env.Fine → 0 < a.size → s.Apart p a →
      ((registerSegment s.cntr p a env).1 = none ↔
        ∀ x ∈ s.held, x.1 = p → x.2.Disjoint a)) ∧
    (∀ p a (env : ShmEnv), env.providerOk = true → (p, a) ∈ s.held →
      (unregisterSegment s.cntr p a env).1 = none) ∧
    ∀ (m : FindMode) a, (m = .overlap → 0 < a.size) →
      (∀ sa, shmAreaFind (s.cntr.getD .nil) a m = some sa →
        m.Matches a sa.toVaArea ∧ ∃ x ∈ s.held, x.2 = sa.toVaArea) ∧
      ((∃ sa, shmAreaFind (s.cntr.getD .nil) a m = some sa) ↔
        ∃ x ∈ s.held, m.Matches a x.2) := by
  have i : Inv s := h.invariant init_inv fun _ _ i hc => i.call hc
  refine ⟨i.pairwise, fun p a env he hpos ha => ?_, fun p a env hv hm => ?_, i.find⟩
  · rcases i.register env ha with ⟨h1, h2, -⟩ | ⟨h1, -, h2⟩
    · exact ⟨fun _ => h2, fun _ => h1⟩
    refine ⟨fun h0 => absurd h0 h1, fun hd => ?_⟩
    rcases h2 with h2 | h2 | h2 | h2 | h2 | ⟨x, hx, hp, hov⟩
    · omega
    · rw [he.role] at h2; cases h2
    · rw [he.provider] at h2; cases h2
    · rw [he.cntr] at h2; cases h2
    · rw [he.ctx, he.area] at h2; cases h2
    · exact absurd (hd x hx hp) hov
  · rcases i.unregister p a env with ⟨h1, -⟩ | ⟨-, -, h2⟩
    · exact h1
    rcases h2 with h2 | h2
    · rw [hv] at h2; cases h2
    · exact absurd hm h2

def fine : ShmEnv := { bal := ⟨id, fun _ => rfl⟩ }

def shared : List ShmCall :=
  [.register 0 ⟨4096, 4096, by decide⟩ fine, .register 1 ⟨4096, 4096, by decide⟩ fine,
    .register 0 ⟨8192, 4096, by decide⟩ fine]

theorem shared_apart : Reach.Along CallApart call {} shared := by
  simp only [shared, Reach.Along, CallApart, Apart]
  decide +kernel

theorem segments_apart_shared : (shared.foldl call {}).held.length = 3 ∧
    (shared.foldl call {}).held.Pairwise fun x y => x.1 = y.1 → x.2.Disjoint y.2 :=
  ⟨by decide +kernel, (segments_apart (Reach.init.along shared_apart)).1⟩

/-- Segments of two providers that overlap in part, and a second one of provider 1. -/
def overlapping : List ShmCall :=
  [.register 0 ⟨4096, 8192, by decide⟩ fine, .register 1 ⟨8192, 8192, by decide⟩ fine,
    .register 1 ⟨10240, 4096, by decide⟩ fine]

/-- The search for an overlap stops at the area of provider 0, so the second segment of
provider 1 is registered although it lies inside the first. -/
theorem overlap_registered : Reach (fun _ _ => True) call {} (overlapping.foldl call {}) ∧
    (1, (⟨8192, 8192, by decide⟩ : VaArea)) ∈ (overlapping.foldl call {}).held ∧
    (1, (⟨10240, 4096, by decide⟩ : VaArea)) ∈ (overlapping.foldl call {}).held ∧
    ¬ VaArea.Disjoint ⟨8192, 8192, by decide⟩ ⟨10240, 4096, by decide⟩ :=
  ⟨Reach.foldl overlapping, by decide +kernel, by decide +kernel, by decide⟩

end Registry

end UbDkms.Ubdevshm
