import UbDkms.Mapt.Rep

/-!
# Single writes

`Rep fb S st G`: the state `st` of the table functions, with the recorded
segments `S`, is the ghost table `G`. One lemma for each kind of write: a node
changed in place, a new node, a level block opened under a node, a node cleared
together with the level block it leaves bare.
-/

namespace UbDkms.Mapt

open Lib Ghost Option TableCtx

structure Rep (fb : Bool) (S : List SegInfo) (st : St) (G : Ghost) : Prop where
  books : Books st.ctx
  kept : Kept st.ctx
  maps : Maps fb st.ctx G
  segs : st.ctx.grantedAddrMng = S
  root : st.root.nextLvIndex = 0 ∧ st.root.nextLvOffset = 0

def Ghost.at (G : Ghost) (l p : Nat) : NodePtr :=
  match G.loc l (p / 512) with
  | some id => .cell (id / 4) (512 * (id % 4) + p % 512)
  | none => .stack

def Ghost.pre (G : Ghost) : Nat → Nat → NodePtr
  | 0, _ => .stack
  | l + 1, q => G.at l q

theorem Ghost.at_eq {G : Ghost} {l p id : Nat} (h : G.loc l (p / 512) = some id) :
    G.at l p = .cell (id / 4) (512 * (id % 4) + p % 512) := by
  simp only [Ghost.at, h]

theorem Ghost.cell_at {G : Ghost} {l q i id : Nat} (h : G.loc l ((512 * q + i) / 512) = some id)
    (hi : i < 512) : NodePtr.cell (id / 4) (512 * (id % 4) + i) = G.at l (512 * q + i) := by
  rw [at_eq h, show (512 * q + i) % 512 = i by omega]

theorem Ghost.setCell_same (G : Ghost) (l p : Nat) :
    G.setCell l p (G.use l p) (G.valid l p) = G := by
  cases G
  simp only [setCell, Ghost.mk.injEq, and_true]
  constructor <;> funext l' p' <;> simp only [set2] <;> split <;> simp_all

namespace Rep

variable {fb : Bool} {S : List SegInfo} {st st' : St} {G : Ghost} {l p q id : Nat} {nd : TableNode}

theorem congr (h : Rep fb S st G) (hc : st'.ctx = st.ctx) (hr : st'.root = st.root) :
    Rep fb S st' G := by
  refine ⟨?_, ?_, ?_, ?_, ?_⟩
  · rw [hc]; exact h.books
  · rw [hc]; exact h.kept
  · rw [hc]; exact h.maps
  · rw [hc]; exact h.segs
  · rw [hr]; exact h.root

theorem bit (h : Rep fb S st G) (hloc : G.loc l q = some id) : st.ctx.levelBlockBitmap id :=
  h.maps.bit.mpr ⟨l, q, hloc⟩

theorem present (h : Rep fb S st G) (hloc : G.loc l q = some id) : (st.ctx.xa (id / 4)).isSome :=
  h.books.present (h.bit hloc)

theorem node_at (st : St) (hloc : G.loc l (p / 512) = some id) :
    st.node (G.at l p) = st.ctx.slot id (p % 512) := by
  rw [at_eq hloc]; rfl

variable (h : Rep fb S st G)
include h

theorem nodeRep (hloc : (G.loc l (p / 512)).isSome) :
    NodeRep fb l p (G.use l p) (G.valid l p) (G.loc (l + 1) p) (st.node (G.at l p)) := by
  obtain ⟨id, hid⟩ := isSome_iff_exists.mp hloc
  rw [node_at st hid]
  have := h.maps.node hid (Nat.mod_lt p (by omega : 512 > 0))
  rwa [show 512 * (p / 512) + p % 512 = p by omega] at this

theorem pre_links (hloc : G.loc l q = some id) :
    (st.node (G.pre l q)).nextLvIndex = id / 4 ∧
      (st.node (G.pre l q)).nextLvOffset = 512 * (id % 4) := by
  cases l with
  | zero =>
    obtain rfl := (h.maps.bound hloc).2.2 rfl
    obtain rfl : 0 = id := by simpa [h.maps.root] using hloc
    exact h.root
  | succ l =>
    have hv := h.maps.child (l := l) (p := q) (by rw [hloc]; rfl)
    have := (h.nodeRep (h.maps.placed hv)).links hv
    rw [hloc] at this
    exact this.2

theorem setNode {u : Option SegInfo} (nd : TableNode) (hv : G.valid l p)
    (hnd : NodeRep fb l p u true (G.loc (l + 1) p) nd) :
    Rep fb S (st.setNode (G.at l p) nd) (G.setCell l p u true) := by
  obtain ⟨id, hid⟩ := isSome_iff_exists.mp (h.maps.placed hv)
  have hp : p % 512 < 512 := Nat.mod_lt _ (by omega)
  rw [at_eq hid]
  refine ⟨h.books.setNode (h.bit hid) hp ?_, ?_, ?_, h.segs, h.root⟩
  · rw [hnd.valid_eq, ← node_at st hid, (h.nodeRep (h.maps.placed hv)).valid_eq, hv]
  · intro k hk hk0
    rw [St.setNode, setNode_isSome] at hk
    exact h.kept k hk hk0
  · exact h.maps.setCell nd hid rfl (fun hi => slot_setNode (h.present hid) hp hi) hnd (fun _ => rfl)
      fun _ => rfl

theorem setNode_same (hv : G.valid l p)
    (hnd : NodeRep fb l p (G.use l p) true (G.loc (l + 1) p) nd) :
    Rep fb S (st.setNode (G.at l p) nd) G := by
  have := h.setNode nd hv hnd
  rwa [← hv, G.setCell_same] at this

theorem newNode (hloc : (G.loc l (p / 512)).isSome) (hv : G.valid l p = false)
    {d : DataInfo} {nb nl : Nat} {s : SegInfo}
    (hnd : Holds (ummuTableFillNode .zero nb nl d true) s l p) :
    Rep fb S (ummuTableNewNode d (G.pre l (p / 512)) (G.at l p) nb nl st)
      (G.setCell l p (some s) true) := by
  obtain ⟨id, hid⟩ := isSome_iff_exists.mp hloc
  have hp : p % 512 < 512 := Nat.mod_lt _ (by omega)
  have hzero : st.ctx.slot id (p % 512) = .zero := by
    rw [← node_at st hid]; exact (h.nodeRep hloc).zero hv
  have hnone : G.loc (l + 1) p = none := by
    by_contra hc
    rw [h.maps.child (isSome_iff_ne_none.mpr hc)] at hv; cases hv
  obtain ⟨hidx, hoff⟩ := h.pre_links hid
  have hcode : (ummuTableNewNode d (G.pre l (p / 512)) (G.at l p) nb nl st).ctx =
      (st.ctx.setNode (id / 4) (512 * (id % 4) + p % 512)
        (ummuTableFillNode .zero nb nl d true)).modBlock (id / 4)
        (ummuModifyEntryCnt · (512 * (id % 4)) true) := by
    simp only [ummuTableNewNode, hidx, hoff, node_at st hid, hzero]
    rw [at_eq hid]; rfl
  have hroot : (ummuTableNewNode d (G.pre l (p / 512)) (G.at l p) nb nl st).root = st.root := by
    simp only [ummuTableNewNode]
    rw [at_eq hid]; rfl
  have hflip := h.books.flipNode (ummuTableFillNode .zero nb nl d true) (h.bit hid) hp
    (by rw [hzero]; rfl)
  refine ⟨by rw [hcode]; exact hflip, ?_, ?_, by rw [hcode]; exact h.segs, by rw [hroot]; exact h.root⟩
  · rw [hcode]
    intro k hk hk0
    rw [modBlock_isSome, setNode_isSome] at hk
    exact h.kept k hk hk0
  · rw [hcode]
    refine h.maps.setCell (ummuTableFillNode .zero nb nl d true) hid rfl (fun hi => ?_) ?_
      (fun _ => rfl) fun _ => rfl
    · rw [slot_modBlock (fun b => modify_nodes b _ _), slot_setNode (h.present hid) hp hi]
    · rw [hnone]
      refine ⟨nofun, fun _ => rfl, fun _ => rfl, fun s' _ hs => ?_, nofun⟩
      rw [← some.inj hs]; exact hnd

end Rep

/-! ## Opening a level block -/

theorem findFirstZeroBit_spec {bm : Nat → Bool} :
    ∀ {k i : Nat}, findFirstZeroBit bm i k < i + k → bm (findFirstZeroBit bm i k) = false
  | 0, i, h => by simp [findFirstZeroBit] at h
  | k + 1, i, h => by
    unfold findFirstZeroBit at h ⊢
    split
    · next hb =>
      rw [if_pos hb] at h
      exact findFirstZeroBit_spec (by omega)
    · next hb => simpa using hb

theorem alloc_ctx (st : St) : st.alloc.2.ctx = st.ctx ∧ st.alloc.2.root = st.root := by
  unfold St.alloc; split <;> exact ⟨rfl, rfl⟩

theorem allocNew_cases (st : St) (k : Nat) :
    (∃ e st', ummuAllocNewMaptBlock st k = (some e, st') ∧ st'.ctx = st.ctx ∧ st'.root = st.root) ∨
    (∃ st', ummuAllocNewMaptBlock st k = (none, st') ∧ k < 512 ∧ st'.ctx = st.ctx.addBlock k ∧
      st'.root = st.root) := by
  unfold ummuAllocNewMaptBlock ummuBlktblMaxEntries
  split
  · exact .inl ⟨_, _, rfl, rfl, rfl⟩
  next hk =>
  obtain ⟨c1, r1⟩ := alloc_ctx st
  rcases h1 : st.alloc with ⟨_ | _, st1⟩ <;> rw [h1] at c1 r1 <;> simp only
  · exact .inl ⟨_, _, rfl, c1, r1⟩
  obtain ⟨c2, r2⟩ := alloc_ctx st1
  rcases h2 : st1.alloc with ⟨_ | _, st2⟩ <;> rw [h2] at c2 r2 <;> simp only
  · exact .inl ⟨_, _, rfl, c2.trans c1, r2.trans r1⟩
  obtain ⟨c3, r3⟩ := alloc_ctx st2
  rcases h3 : st2.alloc with ⟨_ | _, st3⟩ <;> rw [h3] at c3 r3 <;> simp only
  · exact .inl ⟨_, _, rfl, c3.trans (c2.trans c1), r3.trans (r2.trans r1)⟩
  · have hc : st3.ctx = st.ctx := c3.trans (c2.trans c1)
    exact .inr ⟨_, rfl, by omega, by rw [hc], r3.trans (r2.trans r1)⟩

theorem addBlock_slot {c : TableCtx} {k : Nat} (h : c.xa k = none) (id i : Nat) :
    (c.addBlock k).slot id i = c.slot id i := by
  by_cases hk : id / 4 = k <;> simp [slot, node, addBlock, hk, h]

theorem addBlock_bitmap (c : TableCtx) (k : Nat) :
    (c.addBlock k).levelBlockBitmap = c.levelBlockBitmap := by rw [addBlock]

theorem addBlock_segs (c : TableCtx) (k : Nat) :
    (c.addBlock k).grantedAddrMng = c.grantedAddrMng := by rw [addBlock]

theorem Maps.congr {fb : Bool} {c c' : TableCtx} {G : Ghost} (h : Maps fb c G)
    (hbit : c'.levelBlockBitmap = c.levelBlockBitmap)
    (hslot : ∀ id i, c'.slot id i = c.slot id i) : Maps fb c' G :=
  { h with bit := by rw [hbit]; exact h.bit, node := fun hl hi => by rw [hslot]; exact h.node hl hi }

namespace Rep

variable {fb : Bool} {S : List SegInfo} {st st' : St} {G : Ghost} {l p q id : Nat} {nd : TableNode}

/-- The link, the bitmap and the type of a node that gets a fresh child block.
`Kept` is missing for the block's own MAPT block, which may be new. -/
theorem linkBlock {lid : Nat} {far : Bool} (hb : Books st.ctx) (hm : Maps fb st.ctx G)
    (hs : st.ctx.grantedAddrMng = S)
    (hr : st.root.nextLvIndex = 0 ∧ st.root.nextLvOffset = 0)
    (hk : ∀ k, (st.ctx.xa k).isSome → k ≠ 0 → k ≠ lid / 4 →
      ∃ j, j < 4 ∧ st.ctx.levelBlockBitmap (4 * k + j))
    (hv : G.valid l p) (hnone : G.loc (l + 1) p = none) (hl : l + 1 ≤ 3)
    (hlid : lid < 2048) (hfree : st.ctx.levelBlockBitmap lid = false)
    (hpres : (st.ctx.xa (lid / 4)).isSome) :
    let st' := ummuLinkLevelBlock st (G.at l p) lid far
    Rep fb S (st'.setNode (G.at l p) { st'.node (G.at l p) with type := false })
      (G.setLoc (l + 1) p (some lid)) := by
  obtain ⟨id, hid⟩ := isSome_iff_exists.mp (hm.placed hv)
  have hp : p % 512 < 512 := Nat.mod_lt _ (by omega)
  have hbit : st.ctx.levelBlockBitmap id := hm.bit.mpr ⟨_, _, hid⟩
  have hne : lid ≠ id := fun he => by rw [he, hbit] at hfree; cases hfree
  have hat := at_eq hid
  have hnode := hm.node hid hp
  rw [show 512 * (p / 512) + p % 512 = p by omega, hv] at hnode
  have hvd := hnode.isValid rfl
  -- the node as linked, and the context after link and mark
  let a : TableNode := { st.ctx.slot id (p % 512) with
    nextBlock := far, nextLvIndex := lid / 4 % 2 ^ 16, nextLvOffset := 512 * (lid % 4) % 2 ^ 30 }
  let c1 := st.ctx.setNode (id / 4) (512 * (id % 4) + p % 512) a
  let c2 := c1.markLevel (lid / 4) lid true
  have hb1 : Books c1 := hb.setNode hbit hp rfl
  have hs1 : ∀ {k i}, i < 512 → c1.slot k i = if k = id ∧ i = p % 512 then a else st.ctx.slot k i :=
    fun hi => slot_setNode (hb.present hbit) hp hi
  have hb2 : Books c2 := hb1.markLevel (by rw [setNode_isSome]; exact hpres) hfree (fun _ => rfl) (by simp)
  have hbit2 : c2.levelBlockBitmap = setBit st.ctx.levelBlockBitmap lid true := rfl
  have hid2 : c2.levelBlockBitmap id := by simp [hbit2, setBit, Ne.symm hne, hbit]
  have hs2 : ∀ {k i}, c2.slot k i = c1.slot k i := fun {k i} => markLevel_slot ..
  have hnd2 : c2.slot id (p % 512) = a := by rw [hs2, hs1 hp, if_pos ⟨rfl, rfl⟩]
  have hcode : ummuLinkLevelBlock st (G.at l p) lid far = { st with ctx := c2 } := by
    rw [hat]; rfl
  have hcur : ({ st with ctx := c2 } : St).node (G.at l p) = a := by
    rw [node_at _ hid]; exact hnd2
  simp only [hcode, hcur]
  rw [hat]
  have hpres2 : ∀ k, (c2.xa k).isSome = (st.ctx.xa k).isSome := fun k => by
    rw [show (c2.xa k).isSome = (c1.xa k).isSome from modBlock_isSome .., setNode_isSome]
  refine ⟨hb2.setNode hid2 hp (by rw [hnd2]), fun k hk' hk0 => ?_, ?_, hs, hr⟩
  · have hk'' : (st.ctx.xa k).isSome := by
      rw [← hpres2]; rwa [St.setNode, setNode_isSome] at hk'
    by_cases hkl : k = lid / 4
    · exact ⟨lid % 4, Nat.mod_lt _ (by omega), by
        simp [St.setNode, hbit2, setBit, hkl, show 4 * (lid / 4) + lid % 4 = lid by omega]⟩
    obtain ⟨j, hj, hjb⟩ := hk k hk'' hk0 hkl
    exact ⟨j, hj, by
      simp [St.setNode, hbit2, setBit, show 4 * k + j ≠ lid by omega, hjb]⟩
  · refine hm.openBlock { a with type := false } hid hnone hv hl hlid hfree
      (fun i hi => hb.zero hfree hi) hbit2 (fun {k i} hi => ?_) ?_
    · rw [St.setNode, slot_setNode (by rw [hpres2]; exact hb.present hbit) hp hi]
      split
      · rfl
      · next hki => rw [hs2, hs1 hi, if_neg hki]
    · refine ⟨by simp, fun _ => hvd, fun _ => ⟨rfl, ?_, ?_⟩, fun s _ hs => ?_, fun _ hs => ?_⟩
      · show lid / 4 % 2 ^ 16 = lid / 4
        omega
      · show 512 * (lid % 4) % 2 ^ 30 = 512 * (lid % 4)
        omega
      · have := hnode.held s rfl hs
        exact ⟨this.base, this.limit, this.permission, this.eBit, this.tokenCheck, this.fBit, this.token⟩
      · have := hnode.freed rfl hs
        cases fb <;> exact this

/-- `ummu_alloc_level_block` under a node without a child: an error changes
nothing, otherwise the node has a fresh child block once its type is set. -/
theorem allocLevelBlock (h : Rep fb S st G) (hv : G.valid l p)
    (hnone : G.loc (l + 1) p = none) (hl : l + 1 ≤ 3) (preBlk : Option Nat) :
    (∃ e st', ummuAllocLevelBlock st (G.at l p) preBlk = (some e, st') ∧ Rep fb S st' G) ∨
    (∃ st' lid, ummuAllocLevelBlock st (G.at l p) preBlk = (none, st') ∧
      Rep fb S (st'.setNode (G.at l p) { st'.node (G.at l p) with type := false })
        (G.setLoc (l + 1) p (some lid))) := by
  unfold ummuAllocLevelBlock maptMaxLvlIdBitSize ummuBlktblMaxEntries
  generalize hlid : findFirstZeroBit st.ctx.levelBlockBitmap 0 (4 * 512) = lid
  simp only
  split
  · exact .inl ⟨_, _, rfl, h⟩
  next hlt =>
  have hfree : st.ctx.levelBlockBitmap lid = false := by
    rw [← hlid]; exact findFirstZeroBit_spec (by omega)
  have hnode := h.nodeRep (h.maps.placed hv)
  rw [hv] at hnode
  have h1 : Rep fb S (st.setNode (G.at l p) { st.node (G.at l p) with nextBlock := false }) G := by
    refine h.setNode_same hv ⟨nofun, fun _ => hnode.isValid rfl, fun _ => ?_, fun s _ hs => ?_,
      fun _ hs => ?_⟩
    · have := hnode.links rfl
      rw [hnone] at this ⊢
      exact this
    · have := hnode.held s rfl hs
      exact ⟨this.base, this.limit, this.permission, this.eBit, this.tokenCheck, this.fBit, this.token⟩
    · have := hnode.freed rfl hs
      cases fb <;> exact this
  generalize hst1 : st.setNode (G.at l p) { st.node (G.at l p) with nextBlock := false } = st1 at h1
  have hfree1 : st1.ctx.levelBlockBitmap lid = false := by
    obtain ⟨id, hid⟩ := isSome_iff_exists.mp (h.maps.placed hv)
    rw [← hst1, at_eq hid]; exact hfree
  have hkept : ∀ k, (st1.ctx.xa k).isSome → k ≠ 0 → k ≠ lid / 4 →
      ∃ j, j < 4 ∧ st1.ctx.levelBlockBitmap (4 * k + j) = true := fun k hk hk0 _ => h1.kept k hk hk0
  have hlid' : lid < 2048 := by omega
  cases hxa : st1.ctx.xa (lid / maptPerLvlBlockCnt) with
  | some b =>
    refine .inr ⟨_, lid, rfl, linkBlock h1.books h1.maps h1.segs h1.root hkept hv hnone hl hlid' hfree1 ?_⟩
    rw [show lid / 4 = lid / maptPerLvlBlockCnt from rfl, hxa]; rfl
  | none =>
    rcases allocNew_cases st1 (lid / maptPerLvlBlockCnt) with
      ⟨e, st2, he, hc, hr⟩ | ⟨st2, he, hk, hc, hr⟩
    · exact .inl ⟨e, st2, by simp only [he], h1.congr hc hr⟩
    refine .inr ⟨ummuLinkLevelBlock st2 (G.at l p) lid true, lid, by simp only [he], ?_⟩
    have hbooks : Books st2.ctx := by rw [hc]; exact h1.books.addBlock hk hxa
    have hbit : st2.ctx.levelBlockBitmap = st1.ctx.levelBlockBitmap := by
      rw [hc, addBlock_bitmap]
    refine linkBlock hbooks (h1.maps.congr hbit fun id i => by rw [hc, addBlock_slot hxa])
      (by rw [hc, addBlock_segs]; exact h1.segs) (by rw [hr]; exact h1.root) (fun k hk hk0 hkl => ?_)
      hv hnone hl hlid' (by rw [hbit]; exact hfree1) ?_
    · rw [hbit]
      refine h1.kept k ?_ hk0
      rw [hc] at hk
      simpa [addBlock, show k ≠ lid / maptPerLvlBlockCnt from hkl] using hk
    · rw [hc]; simp [addBlock, maptPerLvlBlockCnt]

end Rep

/-! ## Clearing a node -/

/-- What clearing node `(l, p)` does to the ghost: its level block goes with it
when that leaves the block bare and the block is not the root. -/
structure Dropped (G G' : Ghost) (l p : Nat) : Prop where
  use : G'.use = set2 G.use l p none
  valid : G'.valid = set2 G.valid l p false
  other : ∀ {l' q'}, ¬(l' = l ∧ q' = p / 512) → G'.loc l' q' = G.loc l' q'
  own : (G'.loc l (p / 512) = G.loc l (p / 512) ∧ (l = 0 ∨ ¬G'.Bare l (p / 512))) ∨
    (0 < l ∧ G'.loc l (p / 512) = none ∧ G'.Bare l (p / 512))

namespace Rep

variable {fb : Bool} {S : List SegInfo} {st st' : St} {G : Ghost} {l p q id : Nat} {nd : TableNode}

variable (h : Rep fb S st G)
include h

theorem zeroNode {prev : TableNode} (hid : G.loc l (p / 512) = some id)
    (hv : G.valid l p) (hnone : G.loc (l + 1) p = none) (hidx : prev.nextLvIndex = id / 4)
    (hoff : prev.nextLvOffset = 512 * (id % 4)) :
    Rep fb S (ummuTableZeroNode prev (G.at l p) st) (G.setCell l p none false) := by
  have hp : p % 512 < 512 := Nat.mod_lt _ (by omega)
  have hvd : (st.ctx.slot id (p % 512)).valid := by
    rw [← node_at st hid, (h.nodeRep (h.maps.placed hv)).valid_eq, hv]
  let c' := (st.ctx.setNode (id / 4) (512 * (id % 4) + p % 512) .zero).modBlock (id / 4)
    (ummuModifyEntryCnt · (512 * (id % 4)) false)
  have hcode : ummuTableZeroNode prev (G.at l p) st = { st with ctx := c' } := by
    rw [ummuTableZeroNode, at_eq hid, hidx, hoff]; rfl
  rw [hcode]
  refine ⟨h.books.flipNode .zero (h.bit hid) hp (by rw [hvd]; rfl), fun k hk hk0 => ?_, ?_,
    h.segs, h.root⟩
  · rw [modBlock_isSome, setNode_isSome] at hk
    exact h.kept k hk hk0
  · refine h.maps.setCell .zero hid rfl (fun hi => ?_) ⟨fun _ => rfl, nofun, nofun, nofun, nofun⟩
      nofun fun hc => ?_
    · rw [slot_modBlock (fun b => modify_nodes b _ _), slot_setNode (h.present hid) hp hi]
    · rw [hnone] at hc; cases hc

theorem entryCnt_eq_zero (hid : G.loc l q = some id) {b : MaptBlock}
    (hb : st.ctx.xa (id / 4) = some b) : b.levelEntryCnt (id % 4) = 0 ↔ G.Bare l q := by
  rw [h.books.entryCnt hb (Nat.mod_lt _ (by omega)), count_eq_zero]
  refine forall₂_congr fun i hi => ?_
  rw [← (h.maps.node hid hi).valid_eq, slot, node, hb]

theorem freeBlock {prev : TableNode} (hid : G.loc (l + 1) p = some id)
    (hbare : G.Bare (l + 1) p) (hidx : prev.nextLvIndex = id / 4)
    (hoff : prev.nextLvOffset = 512 * (id % 4)) :
    Rep fb S (ummuTableUnlink prev (G.at l p) st) (G.setLoc (l + 1) p none) := by
  have hv := h.maps.child (l := l) (p := p) (by rw [hid]; rfl)
  obtain ⟨pid, hpid⟩ := isSome_iff_exists.mp (h.maps.placed hv)
  have hp : p % 512 < 512 := Nat.mod_lt _ (by omega)
  have hid0 : id ≠ 0 := by
    rintro rfl
    have := (h.maps.inj h.maps.root hid).1
    omega
  have hne : id ≠ pid := by
    rintro rfl
    have := (h.maps.inj hpid hid).1
    omega
  have hf := h.books.free prev h.kept (h.bit hid) hid0
    (fun i hi => (h.maps.node hid hi).zero (hbare i hi)) hidx hoff
  rw [ummuTableUnlink]
  generalize ummuFreeLevelBlock st.ctx prev = c' at hf
  simp only
  have hbit : c'.levelBlockBitmap pid := by
    rw [hf.bitmap]; simp [setBit, Ne.symm hne, h.bit hpid]
  have hnode := h.nodeRep (h.maps.placed hv)
  rw [node_at _ hpid, hv] at hnode
  rw [node_at _ hpid, at_eq hpid, show (St.ctx { st with ctx := c' }) = c' from rfl, hf.slot hp]
  refine ⟨hf.books.setNode hbit hp (by rw [hf.slot hp]), fun k hk hk0 => ?_, ?_,
    hf.segs.trans h.segs, h.root⟩
  · rw [St.setNode, setNode_isSome] at hk
    exact hf.kept k hk hk0
  refine h.maps.closeBlock { st.ctx.slot pid (p % 512) with
    type := true, nextBlock := false, nextLvOffset := 0, nextLvIndex := 0 } hpid hid hbare hf.bitmap
    (fun {k i} hi => ?_) ?_
  · rw [St.setNode, slot_setNode (hf.books.present hbit) hp hi]
    split
    · rfl
    · exact hf.slot hi
  · refine ⟨by simp, fun _ => hnode.isValid rfl, fun _ => rfl, fun s _ hs => ?_, fun _ hs => ?_⟩
    · have := hnode.held s rfl hs
      exact ⟨this.base, this.limit, this.permission, this.eBit, this.tokenCheck, this.fBit, this.token⟩
    · have := hnode.freed rfl hs
      cases fb <;> exact this

theorem clearNode (hv : G.valid l p) (hnone : G.loc (l + 1) p = none) :
    ∃ G', Rep fb S (ummuTableClearNode (G.pre l (p / 512)) (G.at l p) st) G' ∧ Dropped G G' l p := by
  obtain ⟨id, hid⟩ := isSome_iff_exists.mp (h.maps.placed hv)
  obtain ⟨hidx, hoff⟩ := h.pre_links hid
  have htype : (st.node (G.at l p)).type := by
    have := (h.nodeRep (h.maps.placed hv)).links hv
    rwa [hnone] at this
  have h1 := h.zeroNode hid hv hnone hidx hoff
  have hpres := h.present hid
  rw [← hidx, isSome_iff_ne_none] at hpres
  rw [ummuTableClearNode, if_neg (by simpa using hpres), if_pos htype]
  generalize st.node (G.pre l (p / 512)) = prev at hidx hoff h1
  generalize ummuTableZeroNode prev (G.at l p) st = st1 at h1
  generalize hG1 : G.setCell l p none false = G1 at h1
  have hloc1 : G1.loc = G.loc := by rw [← hG1]; rfl
  have huse : G1.use = set2 G.use l p none := by rw [← hG1]; rfl
  have hval : G1.valid = set2 G.valid l p false := by rw [← hG1]; rfl
  have hpre : G1.pre l (p / 512) = G.pre l (p / 512) := by
    cases l with
    | zero => rfl
    | succ l => simp only [pre, Ghost.at, hloc1]
  have hid1 : G1.loc l (p / 512) = some id := by rw [hloc1, hid]
  obtain ⟨b, hb⟩ := isSome_iff_exists.mp (h1.present hid1)
  have hcnt := h1.entryCnt_eq_zero hid1 hb
  simp only [hidx, hoff, hb, maptMaxEntryIndex, Nat.mul_div_cancel_left _ (show 0 < 512 by decide),
    any_some, decide_eq_true_eq]
  split
  · next hz =>
    have hbare := hcnt.mp hz
    cases l with
    | zero =>
      obtain ⟨hp0, rfl⟩ : p / 512 = 0 ∧ id = 0 := by
        have hq := (h.maps.bound hid).2.2 rfl
        rw [hq, h.maps.root] at hid
        exact ⟨hq, (some.inj hid).symm⟩
      rw [ummuTableUnlink, h1.books.free_root hidx hoff]
      exact ⟨G1, ⟨h1.books, h1.kept, h1.maps, h1.segs, rfl, rfl⟩, huse, hval, fun _ => by rw [hloc1],
        .inl ⟨by rw [hloc1], .inl rfl⟩⟩
    | succ l =>
      rw [← hpre]
      refine ⟨G1.setLoc (l + 1) (p / 512) none, h1.freeBlock hid1 hbare hidx hoff, huse, hval,
        fun hne => ?_, .inr ⟨by omega, set2_self .., hbare⟩⟩
      rw [setLoc_loc, set2_ne hne, hloc1]
  · next hz =>
    exact ⟨G1, h1, huse, hval, fun _ => by rw [hloc1], .inl ⟨by rw [hloc1], .inr (hcnt.not.mp hz)⟩⟩

end Rep

end UbDkms.Mapt
