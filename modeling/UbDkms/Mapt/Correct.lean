import UbDkms.Mapt.Walk

/-!
# What runs of requests guarantee

The walk of the table refines the recorded segments, a refused grant changes
nothing unless its record was lost, and the level blocks in use are exactly
those the tree names.
-/

namespace UbDkms.Mapt

open Lib

variable {i₀ i : MaptInfo}

/-! ## The walk -/

def Req.recorded : Req → Prop
  | .grant q => q.kzallocOk = true ∧ q.insertOk = true
  | .ungrant _ => True

theorem Req.recorded.kept {r : Req} (h : r.recorded) : r.kept i := by
  cases r with
  | grant q =>
    rintro ⟨d, -, -, hk⟩
    rw [h.1, h.2] at hk; cases hk
  | ungrant q => trivial

/-- In table mode the walk hits for exactly the addresses of the recorded
segments, with one node of the path, and that node carries the segment's rights. -/
theorem walk_refines_segments {a : Nat} (h0 : i₀.Init)
    (hr : Reach (fun _ r => Req.recorded r) MaptInfo.next i₀ i) (ha : a < 2 ^ 48) :
    ((i.walk a).isSome ↔ ∃ s ∈ i.tableCtx.grantedAddrMng, s.contains a = true) ∧
      (i.hits a).length ≤ 1 ∧
      ∀ nd s, i.walk a = some nd → s ∈ i.tableCtx.grantedAddrMng → s.contains a = true →
        Grants nd s := by
  have hok := h0.reach_ok (hr.mono fun _ _ h => h.kept)
  exact ⟨(hok.refines ha).hit, (hok.refines ha).once, (hok.refines ha).grants⟩

def freshInfo (freeBit : Bool) : MaptInfo where
  mode := .table
  valid := true
  positivePlbi := false
  freeBit := freeBit
  ias := 48
  entryBlock := {}
  tableCtx := (ummuInitKsvaMaptForTable true .zero []).2

theorem freshInfo_init (freeBit : Bool) : (freshInfo freeBit).Init :=
  ⟨rfl, true, .zero, [], rfl⟩

def smallGrant (kzallocOk : Bool) : GrantReq where
  va := 4096
  size := 8192
  perm := some .rw
  segAttr := some (some ⟨0, 7⟩, some .off)
  rand := 0
  headFlag := false
  faults := []
  kzallocOk := kzallocOk
  insertOk := true

theorem walk_refines_segments_smallGrant :
    let i := (freshInfo false).next (.grant (smallGrant true))
    (i.walk 8191).isSome = true ∧ (∃ s ∈ i.tableCtx.grantedAddrMng, s.contains 8191 = true) ∧
      (i.hits 8191).length ≤ 1 := by
  have h := walk_refines_segments (a := 8191) (freshInfo_init false)
    (Reach.init.next (show Req.recorded (.grant (smallGrant true)) from ⟨rfl, rfl⟩)) (by decide)
  have hw : (((freshInfo false).next (.grant (smallGrant true))).walk 8191).isSome := by
    decide +kernel
  exact ⟨hw, h.1.mp hw, h.2.1⟩

/-! ## Refused grants -/

/-- What a walk grants at an address: the permission and the token it asks for. -/
def MaptInfo.granted (i : MaptInfo) (a : Nat) :
    Option (Option MaptPerm × Option (Nat × UInt32 × UInt32)) :=
  (i.walk a).map fun nd =>
    (nd.permission, if nd.tokenCheck then some (nd.nonce, nd.tokenVal0, nd.tokenVal1) else none)

/-- A refused grant leaves what the table grants as it was, and the table in
agreement with the recorded segments. -/
def AllOrNothing (i : MaptInfo) (q : GrantReq) : Prop :=
  let r := ummuPermGrant i q
  r.ret ≠ none → (∀ a < 2 ^ 48, r.info.granted a = i.granted a) ∧
    ∀ a < 2 ^ 48, Refines r.info.freeBit r.info.tableCtx r.info.tableCtx.grantedAddrMng a

theorem Grants.same {nd nd' : TableNode} {s : SegInfo} (h : Grants nd s) (h' : Grants nd' s) :
    (nd.permission, if nd.tokenCheck then some (nd.nonce, nd.tokenVal0, nd.tokenVal1) else none) =
      (nd'.permission,
        if nd'.tokenCheck then some (nd'.nonce, nd'.tokenVal0, nd'.tokenVal1) else none) := by
  rw [h.permission, h'.permission, h.tokenCheck, h'.tokenCheck]
  split
  · next ht =>
    obtain ⟨h1, h2, h3⟩ := h.token ht
    obtain ⟨h1', h2', h3'⟩ := h'.token ht
    rw [h1, h2, h3, h1', h2', h3']
  · rfl

theorem Refines.granted_eq {i i' : MaptInfo} {S : List SegInfo} {a : Nat}
    (h : Refines i.freeBit i.tableCtx S a) (h' : Refines i'.freeBit i'.tableCtx S a) :
    i'.granted a = i.granted a := by
  have hiff := h.hit.trans h'.hit.symm
  unfold MaptInfo.granted MaptInfo.walk
  cases hw : walkFrom i.freeBit i.tableCtx a 4 0 0 with
  | none =>
    have : walkFrom i'.freeBit i'.tableCtx a 4 0 0 = none := by
      rw [hw] at hiff
      simpa using hiff
    rw [this]
  | some nd =>
    obtain ⟨s, hs, hc⟩ := h.hit.mp (by rw [hw]; rfl)
    obtain ⟨nd', hw'⟩ := Option.isSome_iff_exists.mp (hiff.mp (by rw [hw]; rfl))
    rw [hw', Option.map_some, Option.map_some,
      (h'.grants nd' s hw' hs hc).same (h.grants nd s hw hs hc)]

theorem RecordLost.not_refines {q : GrantReq} (h : i.Ok) (hl : RecordLost i q) :
    ¬∀ a < 2 ^ 48, Refines (ummuPermGrant i q).info.freeBit (ummuPermGrant i q).info.tableCtx
      (ummuPermGrant i q).info.tableCtx.grantedAddrMng a := by
  intro hall
  obtain ⟨-, hfb, s, hap, G, hrep, hi, hok⟩ := RecordLost.spec h hl
  have hs : s ∈ SegsOk.insertSeg i.tableCtx.grantedAddrMng s := SegsOk.mem_insertSeg.mpr (.inl rfl)
  have hlt : s.startAddr < 2 ^ 48 := Nat.lt_of_le_of_lt s.le_last (hok.bound hs)
  have hhit := (hrep.refines hi hok hlt).hit.mpr
    ⟨s, hs, SegInfo.contains_iff.mpr ⟨Nat.le_refl _, s.le_last⟩⟩
  have hnow := (hall _ hlt).hit
  have hsegs : (ummuPermGrant i q).info.tableCtx.grantedAddrMng = i.tableCtx.grantedAddrMng :=
    hrep.segs
  rw [hfb, hsegs] at hnow
  obtain ⟨t, ht, hc⟩ := hnow.mp hhit
  rw [SegInfo.contains_iff] at hc
  have := hap t ht
  omega

/-- A grant is all or nothing exactly when its record is not lost after the
table was filled. -/
theorem grant_all_or_nothing_iff {q : GrantReq} (h0 : i₀.Init)
    (hr : Reach (fun i r => Req.kept i r) MaptInfo.next i₀ i) :
    AllOrNothing i q ↔ ¬RecordLost i q := by
  have hok := h0.reach_ok hr
  constructor
  · intro h hl
    exact hl.not_refines hok (h (RecordLost.spec hok hl).1).2
  intro hk hret
  obtain ⟨hok', hsegs⟩ := grant_step hok hk
  have href : ∀ a < 2 ^ 48, Refines (ummuPermGrant i q).info.freeBit
      (ummuPermGrant i q).info.tableCtx (ummuPermGrant i q).info.tableCtx.grantedAddrMng a :=
    fun a ha => hok'.refines ha
  refine ⟨fun a ha => (hok.refines ha).granted_eq ?_, href⟩
  rw [← hsegs hret]
  exact href a ha

theorem grant_all_or_nothing_iff_smallGrant :
    AllOrNothing (freshInfo true) (smallGrant true) ↔
      ¬RecordLost (freshInfo true) (smallGrant true) :=
  grant_all_or_nothing_iff (freshInfo_init true) .init

/-- The record of the first grant cannot be allocated: the grant is refused, yet
its addresses are granted afterwards. -/
theorem smallGrant_record_lost :
    (freshInfo false).Init ∧ ¬AllOrNothing (freshInfo false) (smallGrant false) := by
  refine ⟨freshInfo_init false, fun h => ?_⟩
  have hsame := (h (by decide +kernel)).1 4096 (by decide)
  exact absurd hsame (by decide +kernel)

/-- Two tables that any requests led to, in any order and with any failures that lose no record,
grant the same everywhere if they record the same segments. -/
theorem granted_of_segments {i₀' i' : MaptInfo} {a : Nat} (h0 : i₀.Init) (h0' : i₀'.Init)
    (hr : Reach (fun i r => Req.kept i r) MaptInfo.next i₀ i)
    (hr' : Reach (fun i r => Req.kept i r) MaptInfo.next i₀' i')
    (hsame : ∀ s, s ∈ i'.tableCtx.grantedAddrMng ↔ s ∈ i.tableCtx.grantedAddrMng) (ha : a < 2 ^ 48) :
    i'.granted a = i.granted a := by
  have h := (h0.reach_ok hr).refines ha
  obtain ⟨hhit, honce, hgrants⟩ := (h0'.reach_ok hr').refines ha
  simp only [hsame] at hhit hgrants
  exact h.granted_eq ⟨hhit, honce, hgrants⟩

theorem granted_of_segments_smallGrant :
    ((freshInfo true).next (.grant (smallGrant true))).granted 4096 =
      ((freshInfo false).next (.grant (smallGrant true))).granted 4096 := by
  have hk {i} : Req.kept i (.grant (smallGrant true)) := Req.recorded.kept ⟨rfl, rfl⟩
  apply granted_of_segments (freshInfo_init _) (freshInfo_init _) (.next .init hk) (.next .init hk)
  · exact fun _ => Iff.rfl
  · decide

/-! ## Level blocks -/

def Names (nd : TableNode) (id : Nat) : Prop :=
  nd.valid = true ∧ nd.type = false ∧ nd.nextLvIndex = id / 4 ∧ nd.nextLvOffset = 512 * (id % 4)

section Blocks

variable {fb : Bool} {S : List SegInfo} {st : St} {G : Ghost}

theorem Rep.names (h : Rep fb S st G) {k idx id : Nat} (hidx : idx < 2048)
    (hn : Names (st.ctx.node k idx) id) :
    ∃ l q id', G.loc l q = some id' ∧ id' = 4 * k + idx / 512 ∧
      G.loc (l + 1) (512 * q + idx % 512) = some id := by
  obtain ⟨hv, hty, hix, hof⟩ := hn
  have hslot : st.ctx.slot (4 * k + idx / 512) (idx % 512) = st.ctx.node k idx := by
    rw [TableCtx.slot, show (4 * k + idx / 512) / 4 = k by omega,
      show 512 * ((4 * k + idx / 512) % 4) + idx % 512 = idx by omega]
  have hbit : st.ctx.levelBlockBitmap (4 * k + idx / 512) := by
    by_contra hb
    rw [← hslot, h.books.zero (by simpa using hb) (by omega)] at hv
    cases hv
  obtain ⟨l, q, hloc⟩ := h.maps.bit.mp hbit
  have hnd := h.maps.node hloc (i := idx % 512) (by omega)
  rw [hslot] at hnd
  have hlk := hnd.links (hnd.valid_eq ▸ hv)
  refine ⟨l, q, _, hloc, rfl, ?_⟩
  cases hc : G.loc (l + 1) (512 * q + idx % 512) with
  | none =>
    rw [hc] at hlk
    exact absurd (hty.symm.trans hlk) (by simp)
  | some id2 =>
    rw [hc] at hlk
    obtain ⟨-, h1, h2⟩ := hlk
    congr 1
    omega

theorem Rep.bit_iff (h : Rep fb S st G) (id : Nat) :
    st.ctx.levelBlockBitmap id ↔
      id = 0 ∨ ∃! x : Nat × Nat, x.2 < 2048 ∧ Names (st.ctx.node x.1 x.2) id := by
  constructor
  · intro hb
    obtain ⟨l, q, hloc⟩ := h.maps.bit.mp hb
    cases l with
    | zero =>
      obtain rfl := (h.maps.bound hloc).2.2 rfl
      rw [h.maps.root] at hloc
      exact .inl (Option.some.inj hloc).symm
    | succ l =>
      have hv := h.maps.child (by rw [hloc]; rfl)
      obtain ⟨id', hid'⟩ := Option.isSome_iff_exists.mp (h.maps.placed hv)
      have hnd := h.nodeRep (p := q) (by rw [hid']; rfl)
      rw [Rep.node_at _ hid'] at hnd
      have hlk := hnd.links hv
      rw [hloc] at hlk
      refine .inr ⟨(id' / 4, 512 * (id' % 4) + q % 512),
        ⟨by simp only; omega, hnd.isValid hv, hlk.1, hlk.2.1, hlk.2.2⟩, fun ⟨k, idx⟩ ⟨hi, hn⟩ => ?_⟩
      obtain ⟨l2, q2, id2, h1, rfl, h2⟩ := h.names hi hn
      -- the same level block is under both nodes, so they are the same node
      obtain ⟨hl, hq⟩ := h.maps.inj hloc h2
      obtain rfl : l2 = l := by omega
      rw [show q / 512 = q2 by omega, h1] at hid'
      obtain rfl := Option.some.inj hid'
      exact Prod.ext (by simp only; omega) (by simp only; omega)
  · rintro (rfl | ⟨⟨k, idx⟩, ⟨hi, hn⟩, -⟩)
    · exact h.books.root
    · obtain ⟨l, q, id2, -, -, h2⟩ := h.names hi hn
      exact h.bit h2

theorem Agrees.empty (h : Agrees fb S st G) (hS : S = []) :
    (∀ id, st.ctx.levelBlockBitmap id ↔ id = 0) ∧ st.ctx.blockCnt = 1 := by
  have hno : ∀ {l p}, G.use l p = none := fun {l p} => by
    by_contra hc
    obtain ⟨s, hs⟩ := Option.ne_none_iff_exists'.mp hc
    have := h.inv.mem hs
    rw [hS] at this; cases this
  have hbits : ∀ id, st.ctx.levelBlockBitmap id ↔ id = 0 := fun id => by
    constructor
    · intro hb
      obtain ⟨l, q, hloc⟩ := h.rep.maps.bit.mp hb
      cases l with
      | zero =>
        obtain rfl := (h.rep.maps.bound hloc).2.2 rfl
        rw [h.rep.maps.root] at hloc
        exact (Option.some.inj hloc).symm
      | succ l =>
        obtain ⟨l', p', -, -, hu⟩ := exists_used_below h.rep.maps (fun hv => h.tidy.full nofun hv)
          (n := 3 - l) (k := l) (p := q) (by have := (h.rep.maps.bound hloc).2.1; omega)
          (fun hl hs => h.tidy.bare (by omega) nofun hs) (by rw [hloc]; rfl)
        rw [hno] at hu; cases hu
    · rintro rfl
      exact h.rep.books.root
  refine ⟨hbits, ?_⟩
  have honly : ∀ k, k ≠ 0 → (st.ctx.xa k).isSome = false := fun k hk => by
    by_contra hc
    obtain ⟨j, hj, hb⟩ := h.rep.kept k (eq_true_of_ne_false hc) hk
    have := (hbits _).mp hb
    omega
  have hone := count_switch_on (p := fun _ => false) (q := fun k => (st.ctx.xa k).isSome)
    (i := 0) (n := 512) rfl (h.rep.books.present h.rep.books.root) honly (by omega)
  rw [(count_eq_zero (p := fun _ => false)).mpr fun _ _ => rfl] at hone
  exact h.rep.books.blockCnt.trans hone

end Blocks

def Req.succeeds (i : MaptInfo) (r : Req) : Prop := (r.serve i).ret = none

theorem MaptInfo.Init.succeeds_ok (h0 : i₀.Init)
    (hr : Reach (fun i r => Req.succeeds i r) MaptInfo.next i₀ i) : i.Ok := by
  refine hr.invariant h0.ok fun i r hok hs => hok.next ?_
  cases r with
  | grant q => exact fun hl => (RecordLost.spec hok hl).1 hs
  | ungrant q => trivial

/-- Bitmap, counters and xarray after successful requests: a level block is
marked when it is the root or one node names it, the counters count the marks
and the valid nodes, unmarked level blocks are zero, `block_cnt` counts the
blocks; with every segment ungranted, one block and the root level block remain. -/
theorem level_blocks_booked (h0 : i₀.Init)
    (hr : Reach (fun i r => Req.succeeds i r) MaptInfo.next i₀ i) :
    let c := i.tableCtx
    (∀ id, c.levelBlockBitmap id = true ↔
      id = 0 ∨ ∃! x : Nat × Nat, x.2 < 2048 ∧ Names (c.node x.1 x.2) id) ∧
    (∀ k b, c.xa k = some b →
      b.levelCnt = Nat.count (fun j => c.levelBlockBitmap (4 * k + j)) 4 ∧
      ∀ j < 4, b.levelEntryCnt j = Nat.count (fun i => (b.nodes (512 * j + i)).valid) 512) ∧
    (∀ id i, c.levelBlockBitmap id = false → i < 512 →
      c.node (id / 4) (512 * (id % 4) + i) = .zero) ∧
    (c.blockCnt = Nat.count (fun k => (c.xa k).isSome) 512 ∧ ∀ k, (c.xa k).isSome → k < 512) ∧
    (c.grantedAddrMng = [] → (∀ id, c.levelBlockBitmap id = true ↔ id = 0) ∧ c.blockCnt = 1) := by
  obtain ⟨G, hG⟩ := (h0.succeeds_ok hr).agrees
  have hb : Books i.tableCtx := hG.rep.books
  refine ⟨hG.rep.bit_iff, fun k b hk => ⟨hb.levelCnt hk, fun j hj => hb.entryCnt hk hj⟩,
    fun id i hid hi => hb.zero hid hi, ⟨hb.blockCnt, fun k hk => ?_⟩, hG.empty⟩
  obtain ⟨b, hk⟩ := Option.isSome_iff_exists.mp hk
  exact (hb.blockId hk).1

/-- The second grant under the same root node opens level block 1 below it. -/
theorem level_blocks_booked_smallGrant :
    let i := ((freshInfo true).next (.grant (smallGrant true))).next
      (.grant { smallGrant true with va := 16384 })
    i.tableCtx.levelBlockBitmap 1 = true ∧
      (∃! x : Nat × Nat, x.2 < 2048 ∧ Names (i.tableCtx.node x.1 x.2) 1) ∧
      i.tableCtx.blockCnt = Nat.count (fun k => (i.tableCtx.xa k).isSome) 512 := by
  have h := level_blocks_booked (freshInfo_init true) ((Reach.init.next
    (show Req.succeeds (freshInfo true) (.grant (smallGrant true)) by
      unfold Req.succeeds; decide +kernel)).next
    (show Req.succeeds _ (.grant { smallGrant true with va := 16384 }) by
      unfold Req.succeeds; decide +kernel))
  have hbit : (((freshInfo true).next (.grant (smallGrant true))).next
      (.grant { smallGrant true with va := 16384 })).tableCtx.levelBlockBitmap 1 = true := by
    decide +kernel
  exact ⟨hbit, ((h.1 1).mp hbit).resolve_left (by decide), h.2.2.2.1.1⟩

end UbDkms.Mapt
