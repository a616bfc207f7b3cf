import UbDkms.Mapt.Serve

/-!
# The table walk

The walk the hardware makes for an address, and what it finds in a table that
agrees with a list of segments: at each level of the path the segment of the
node there, if it contains the address, and over the whole path at most one.
-/

namespace UbDkms.Mapt

open Lib List

/-- The node is in use and answers for offset `x` of its range. -/
def nodeHits (fb : Bool) (nd : TableNode) (x : Nat) : Bool :=
  nd.valid && (if fb then !nd.fBit else isRteInUse nd.base) && decide (nd.base ≤ x ∧ x ≤ nd.limit)

/-- The walk for address `a` from the level block at `off` of block `blk`, with
`n` levels left: the first node that answers. -/
def walkFrom (fb : Bool) (c : TableCtx) (a : Nat) : Nat → Nat → Nat → Option TableNode
  | 0, _, _ => none
  | n + 1, blk, off =>
    let nd := c.node blk (off + getLevelBlockIndex a (3 - n))
    if nodeHits fb nd (a % span (3 - n)) then some nd
    else if nd.valid && !nd.type then walkFrom fb c a n nd.nextLvIndex nd.nextLvOffset
    else none

def hitsFrom (fb : Bool) (c : TableCtx) (a : Nat) : Nat → Nat → Nat → List TableNode
  | 0, _, _ => []
  | n + 1, blk, off =>
    let nd := c.node blk (off + getLevelBlockIndex a (3 - n))
    (if nodeHits fb nd (a % span (3 - n)) then [nd] else []) ++
      if nd.valid && !nd.type then hitsFrom fb c a n nd.nextLvIndex nd.nextLvOffset else []

def MaptInfo.walk (i : MaptInfo) (a : Nat) : Option TableNode :=
  walkFrom i.freeBit i.tableCtx a 4 0 0

def MaptInfo.hits (i : MaptInfo) (a : Nat) : List TableNode :=
  hitsFrom i.freeBit i.tableCtx a 4 0 0

theorem walkFrom_eq (fb : Bool) (c : TableCtx) (a : Nat) :
    ∀ n blk off, walkFrom fb c a n blk off = (hitsFrom fb c a n blk off).head?
  | 0, _, _ => rfl
  | n + 1, blk, off => by
    unfold walkFrom hitsFrom
    simp only
    split
    · rfl
    split
    · exact walkFrom_eq fb c a n _ _
    · rfl

def SegInfo.contains (s : SegInfo) (a : Nat) : Bool := decide (s.startAddr ≤ a ∧ a ≤ s.last)

theorem SegInfo.contains_iff {s : SegInfo} {a : Nat} :
    s.contains a ↔ s.startAddr ≤ a ∧ a ≤ s.last := decide_eq_true_iff

structure Grants (nd : TableNode) (s : SegInfo) : Prop where
  permission : nd.permission = some s.permission
  eBit : nd.eBit = s.eBit
  tokenCheck : nd.tokenCheck = s.tokenCheck
  token : s.tokenCheck = true →
    nd.nonce = s.tokenCount ∧ nd.tokenVal0 = s.tokenVal0 ∧ nd.tokenVal1 = s.tokenVal1

/-! ## Along the path -/

section Path

variable {fb : Bool} {S T : List SegInfo} {st : St} {G : Ghost} {a : Nat} {s : SegInfo}

/-- The segments the path of `a` meets from level `l` on, `n` levels. -/
def segsOnPath (G : Ghost) (a : Nat) : Nat → Nat → List SegInfo
  | 0, _ => []
  | n + 1, l => ((G.use l (a / span l)).filter (·.contains a)).toList ++ segsOnPath G a n (l + 1)

theorem mem_segsOnPath : ∀ {n l : Nat}, s ∈ segsOnPath G a n l ↔
    ∃ k, l ≤ k ∧ k < l + n ∧ G.use k (a / span k) = some s ∧ s.contains a = true
  | 0, l => by
    simp only [segsOnPath, not_mem_nil, false_iff]
    rintro ⟨k, h1, h2, -⟩
    omega
  | n + 1, l => by
    rw [segsOnPath, mem_append, mem_segsOnPath, Option.mem_toList, Option.filter_eq_some_iff]
    constructor
    · rintro (⟨hu, hc⟩ | ⟨k, h1, h2, hu, hc⟩)
      · exact ⟨l, Nat.le_refl l, by omega, hu, hc⟩
      · exact ⟨k, by omega, by omega, hu, hc⟩
    · rintro ⟨k, h1, h2, hu, hc⟩
      rcases Nat.eq_or_lt_of_le h1 with rfl | hlt
      · exact .inl ⟨hu, hc⟩
      · exact .inr ⟨k, hlt, by omega, hu, hc⟩

theorem nodeHits_eq {l : Nat} {nd : TableNode} {use : Option SegInfo} {valid : Bool}
    {child : Option Nat} (h : NodeRep fb l (a / span l) use valid child nd)
    (hu : ∀ s, use = some s → valid ∧ Meets s l (a / span l) ∧ s.startAddr % 4096 = 0) :
    nodeHits fb nd (a % span l) = use.any (·.contains a) := by
  cases use with
  | none =>
    cases valid with
    | false => rw [h.zero rfl]; rfl
    | true =>
      have hf := h.freed rfl rfl
      unfold nodeHits
      cases fb with
      | true => simp [show nd.fBit = true from hf]
      | false => simp [show nd.base = invalidAddr from hf.1, isRteInUse, invalidAddr]
  | some s =>
    obtain ⟨rfl, hm, hal⟩ := hu s rfl
    have hh := h.held s rfl rfl
    have hd : a / span l * span l + a % span l = a := Nat.div_add_mod' a (span l)
    have hlt := Nat.mod_lt a (span_pos l)
    have hpage : 4096 ∣ a / span l * span l :=
      Dvd.dvd.mul_left (page_dvd_span l) _
    have hm2 := hm.2
    have hbase : nd.base % 4096 = 0 := by
      rw [hh.base, nodeBase]
      exact Nat.mod_eq_zero_of_dvd (Nat.dvd_sub (Nat.dvd_of_mod_eq_zero hal) hpage)
    have huse : (if fb then !nd.fBit else isRteInUse nd.base) = true := by
      cases fb <;> simp [hh.fBit, isRteInUse, hbase, invalidAddr]
    rw [nodeHits, huse, h.isValid rfl, hh.base, hh.limit, nodeBase, nodeLimit, Option.any_some,
      SegInfo.contains, Bool.true_and, Bool.true_and]
    generalize a / span l * span l = y at *
    generalize a % span l = x at *
    exact decide_eq_decide.mpr (by omega)

theorem Holds.grants {nd : TableNode} {l p : Nat} (h : Holds nd s l p) : Grants nd s :=
  { h with }

theorem segsOnPath_nil {l n : Nat} (h : Rep fb S st G) (hi : SegInv T G.use)
    (hc : G.loc (l + 1) (a / span l) = none) : segsOnPath G a n (l + 1) = [] := by
  refine eq_nil_iff_forall_not_mem.mpr fun s hs => ?_
  obtain ⟨k, hk, -, hu, -⟩ := mem_segsOnPath.mp hs
  have := child_of_used h hk (hi.level hu) (prefix_trans (by omega) rfl)
    (Option.isSome_iff_exists.mpr ⟨s, hu⟩)
  rw [hc] at this; cases this

theorem hits_segsOnPath (h : Rep fb S st G) (hi : SegInv T G.use) (hok : SegsOk T) :
    ∀ n {l id : Nat}, l + n = 3 → G.loc l (a / span l / 512) = some id →
      List.Forall₂ Grants (hitsFrom fb st.ctx a (n + 1) (id / 4) (512 * (id % 4)))
        (segsOnPath G a (n + 1) l)
  | n, l, id, hl, hloc => by
    have hnd := h.nodeRep (p := a / span l) (by rw [hloc]; rfl)
    rw [Rep.node_at _ hloc, TableCtx.slot] at hnd
    have hhit := nodeHits_eq hnd fun s hs =>
      ⟨h.maps.used (by rw [hs]; rfl), hi.meets hs, hok.aligned (hi.mem hs)⟩
    rw [hitsFrom, segsOnPath]
    simp only [getLevelBlockIndex, show 3 - n = l by omega]
    generalize hx : st.ctx.node (id / 4) (512 * (id % 4) + a / span l % 512) = nd at *
    refine rel_append ?_ ?_
    · rw [hhit]
      cases hu : G.use l (a / span l) with
      | none => exact .nil
      | some s =>
        have hg := (hnd.held s (h.maps.used (by rw [hu]; rfl)) hu).grants
        by_cases hc : s.contains a = true
        · simpa [Option.filter, hc] using hg
        · simp [Option.filter, hc]
    cases hc : G.loc (l + 1) (a / span l) with
    | none =>
      have hstop : (nd.valid && !nd.type) = false := by
        cases hv : G.valid l (a / span l) with
        | false => rw [hnd.zero hv]; rfl
        | true =>
          have := hnd.links hv
          rw [hc] at this
          simp [show nd.type = true from this]
      rw [hstop, segsOnPath_nil h hi hc]
      exact .nil
    | some id' =>
      have hv := h.maps.child (by rw [hc]; rfl)
      have hlk := hnd.links hv
      rw [hc] at hlk
      obtain ⟨hty, hix, hof⟩ := hlk
      have hl3 := (h.maps.bound hc).2.1
      obtain ⟨m, rfl⟩ : ∃ m, n = m + 1 := ⟨n - 1, by omega⟩
      rw [hnd.isValid hv, hty, hix, hof]
      refine hits_segsOnPath h hi hok m (by omega) ?_
      rwa [← prefix_succ (by omega)]

theorem segsOnPath_length (hi : SegInv T G.use) (hok : SegsOk T) :
    ∀ n l, (segsOnPath G a n l).length ≤ 1
  | 0, _ => Nat.zero_le _
  | n + 1, l => by
    rw [segsOnPath]
    cases hf : (G.use l (a / span l)).filter (·.contains a) with
    | none => exact segsOnPath_length hi hok n (l + 1)
    | some s =>
      obtain ⟨hu, hc⟩ := Option.filter_eq_some_iff.mp hf
      have hnil : segsOnPath G a n (l + 1) = [] := by
        refine eq_nil_iff_forall_not_mem.mpr fun t ht => ?_
        obtain ⟨k, hk, -, hut, hct⟩ := mem_segsOnPath.mp ht
        rw [SegInfo.contains_iff] at hc hct
        have hts : t = s := by
          by_contra hne
          have := hok.apart (hi.mem hut) (hi.mem hu) hne
          omega
        exact hi.anti hu (hts ▸ hut) hk (prefix_trans (by omega) rfl)
      rw [hnil]; rfl

/-! ## From the root -/

theorem root_block (ha : a < 2 ^ 48) : a / span 0 / 512 = 0 := by
  rw [Nat.div_div_eq_div_mul]
  exact Nat.div_eq_of_lt (Nat.lt_of_lt_of_le ha (by decide))

theorem hits_root (h : Rep fb S st G) (hi : SegInv T G.use) (hok : SegsOk T) (ha : a < 2 ^ 48) :
    List.Forall₂ Grants (hitsFrom fb st.ctx a 4 0 0) (segsOnPath G a 4 0) :=
  have hloc : G.loc 0 (a / span 0 / 512) = some 0 := by rw [root_block ha]; exact h.maps.root
  hits_segsOnPath h hi hok 3 rfl hloc

theorem mem_path (hi : SegInv T G.use) :
    s ∈ segsOnPath G a 4 0 ↔ s ∈ T ∧ s.contains a := by
  rw [mem_segsOnPath]
  constructor
  · rintro ⟨k, -, -, hu, hc⟩
    exact ⟨hi.mem hu, hc⟩
  · rintro ⟨hs, hc⟩
    obtain ⟨h1, h2⟩ := SegInfo.contains_iff.mp hc
    obtain ⟨k, hu⟩ := hi.cover hs h1 h2
    have := hi.level hu
    exact ⟨k, Nat.zero_le k, by omega, hu, hc⟩

/-- What the walk of a table finds that agrees with the segments `T`. -/
structure Refines (fb : Bool) (c : TableCtx) (T : List SegInfo) (a : Nat) : Prop where
  hit : (walkFrom fb c a 4 0 0).isSome ↔ ∃ s ∈ T, s.contains a = true
  once : (hitsFrom fb c a 4 0 0).length ≤ 1
  grants : ∀ nd s, walkFrom fb c a 4 0 0 = some nd → s ∈ T → s.contains a = true → Grants nd s

theorem Rep.refines (h : Rep fb S st G) (hi : SegInv T G.use) (hok : SegsOk T) (ha : a < 2 ^ 48) :
    Refines fb st.ctx T a := by
  have hrel := hits_root h hi hok ha
  have hlen := segsOnPath_length (a := a) hi hok 4 0
  have hmem : ∀ s, s ∈ segsOnPath G a 4 0 ↔ s ∈ T ∧ s.contains a := fun s => mem_path hi
  refine ⟨?_, by rw [hrel.length_eq]; exact hlen, fun nd s hw hs hc => ?_⟩ <;>
    simp only [walkFrom_eq] at *
  · generalize hitsFrom fb st.ctx a 4 0 0 = nds at hrel ⊢
    generalize segsOnPath G a 4 0 = ss at hrel hmem
    cases hrel with
    | nil => simpa using hmem
    | @cons nd s _ _ hg _ => exact ⟨fun _ => ⟨s, (hmem s).mp mem_cons_self⟩, fun _ => rfl⟩
  · have hin := (hmem s).mpr ⟨hs, hc⟩
    generalize hitsFrom fb st.ctx a 4 0 0 = nds at hrel hw
    generalize segsOnPath G a 4 0 = ss at hrel hin hlen
    cases hrel with
    | nil => cases hin
    | @cons nd' s' _ ss hg _ =>
      obtain rfl := Option.some.inj hw
      obtain rfl : ss = [] := length_eq_zero_iff.mp (by simpa using hlen)
      obtain rfl := mem_singleton.mp hin
      exact hg

theorem MaptInfo.Ok.refines {i : MaptInfo} (h : i.Ok) (ha : a < 2 ^ 48) :
    Refines i.freeBit i.tableCtx i.tableCtx.grantedAddrMng a := by
  obtain ⟨G, hG⟩ := h.agrees
  exact hG.rep.refines hG.inv hG.segs ha

end Path

end UbDkms.Mapt
