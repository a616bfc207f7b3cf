import UbDkms.Lib.Count
import UbDkms.Mapt.Perm

/-!
# The bookkeeping of level blocks

Level block `id` is quarter `id % 4` of MAPT block `id / 4`, so its node `i` is
node `512 * (id % 4) + i` of that block. `Books` says that the counters, the
bitmap and the xarray of a context agree with each other and with the valid
bits of the nodes. Every write the table functions make keeps it.
-/

namespace UbDkms.Mapt

open Lib

theorem stepU16_up {n : Nat} (h : n < 65535) : stepU16 true n = n + 1 := by
  simp only [stepU16, if_true]; omega

theorem stepU16_down {n : Nat} (h0 : 0 < n) (h : n < 65536) : stepU16 false n = n - 1 := by
  simp only [stepU16, Bool.false_eq_true, if_false]; omega

def TableCtx.slot (c : TableCtx) (id i : Nat) : TableNode := c.node (id / 4) (512 * (id % 4) + i)

structure Books (c : TableCtx) : Prop where
  blockId : ∀ {k b}, c.xa k = some b → k < 512 ∧ b.blockId = k
  levelCnt : ∀ {k b}, c.xa k = some b →
    b.levelCnt = Nat.count (fun j => c.levelBlockBitmap (4 * k + j)) 4
  entryCnt : ∀ {k b j}, c.xa k = some b → j < 4 →
    b.levelEntryCnt j = Nat.count (fun i => (b.nodes (512 * j + i)).valid) 512
  zero : ∀ {id i}, c.levelBlockBitmap id = false → i < 512 → c.slot id i = .zero
  present : ∀ {id}, c.levelBlockBitmap id = true → (c.xa (id / 4)).isSome
  blockCnt : c.blockCnt = Nat.count (fun k => (c.xa k).isSome) 512
  root : c.levelBlockBitmap 0 = true

/-- Every MAPT block but the first holds a level block in use. -/
def Kept (c : TableCtx) : Prop :=
  ∀ k, (c.xa k).isSome → k ≠ 0 → ∃ j, j < 4 ∧ c.levelBlockBitmap (4 * k + j) = true

/-! ## What the writes leave -/

variable {c : TableCtx} {k : Nat}

theorem setNode_node {idx : Nat} {nd : TableNode} (h : (c.xa k).isSome)
    (k' idx' : Nat) :
    (c.setNode k idx nd).node k' idx' = if k' = k ∧ idx' = idx then nd else c.node k' idx' := by
  obtain ⟨b, hb⟩ := Option.isSome_iff_exists.mp h
  by_cases hk : k' = k
  · subst hk; simp [TableCtx.node, TableCtx.setNode, TableCtx.modBlock, MaptBlock.setNode, hb]
  · simp [TableCtx.node, TableCtx.setNode, TableCtx.modBlock, hk]

@[simp] theorem setNode_bitmap (c : TableCtx) (k idx : Nat) (nd : TableNode) :
    (c.setNode k idx nd).levelBlockBitmap = c.levelBlockBitmap := rfl

@[simp] theorem setNode_segs (c : TableCtx) (k idx : Nat) (nd : TableNode) :
    (c.setNode k idx nd).grantedAddrMng = c.grantedAddrMng := rfl

@[simp] theorem modBlock_segs (c : TableCtx) (k : Nat) (f : MaptBlock → MaptBlock) :
    (c.modBlock k f).grantedAddrMng = c.grantedAddrMng := rfl

@[simp] theorem modBlock_bitmap (c : TableCtx) (k : Nat) (f : MaptBlock → MaptBlock) :
    (c.modBlock k f).levelBlockBitmap = c.levelBlockBitmap := rfl

variable {f : MaptBlock → MaptBlock}

theorem modBlock_node
    (hf : ∀ b, (f b).nodes = b.nodes) (k' idx : Nat) :
    (c.modBlock k f).node k' idx = c.node k' idx := by
  by_cases hk : k' = k
  · subst hk; cases hb : c.xa k' <;> simp [TableCtx.node, TableCtx.modBlock, hb, hf]
  · simp [TableCtx.node, TableCtx.modBlock, hk]

@[simp] theorem modBlock_isSome (c : TableCtx) (k k' : Nat) (f : MaptBlock → MaptBlock) :
    ((c.modBlock k f).xa k').isSome = (c.xa k').isSome := by
  simp only [TableCtx.modBlock]; split <;> simp

@[simp] theorem setNode_isSome (c : TableCtx) (k idx k' : Nat) (nd : TableNode) :
    ((c.setNode k idx nd).xa k').isSome = (c.xa k').isSome := modBlock_isSome ..

theorem modBlock_xa {k' : Nat} {b' : MaptBlock}
    (h : (c.modBlock k f).xa k' = some b') :
    ∃ b, c.xa k' = some b ∧ b' = if k' = k then f b else b := by
  simp only [TableCtx.modBlock] at h
  split at h
  · rename_i hk
    obtain ⟨b, hb, rfl⟩ := Option.map_eq_some_iff.mp h
    exact ⟨b, hb, by simp [hk]⟩
  · rename_i hk; exact ⟨b', h, by simp [hk]⟩

theorem slot_inj {id id' i i' : Nat} (hi : i < 512) (hi' : i' < 512) :
    (id' / 4 = id / 4 ∧ 512 * (id' % 4) + i' = 512 * (id % 4) + i) ↔ id' = id ∧ i' = i := by
  omega

theorem slot_setNode {id i : Nat} {nd : TableNode} (h : (c.xa (id / 4)).isSome)
    (hi : i < 512) {id' i' : Nat} (hi' : i' < 512) :
    (c.setNode (id / 4) (512 * (id % 4) + i) nd).slot id' i' =
      if id' = id ∧ i' = i then nd else c.slot id' i' := by
  rw [TableCtx.slot, setNode_node h]
  simp only [slot_inj hi hi', TableCtx.slot]

theorem slot_modBlock
    (hf : ∀ b, (f b).nodes = b.nodes) (id i : Nat) : (c.modBlock k f).slot id i = c.slot id i :=
  modBlock_node hf ..

theorem modify_nodes (b : MaptBlock) (o : Nat) (up : Bool) :
    (ummuModifyEntryCnt b o up).nodes = b.nodes := rfl

theorem modify_levelEntryCnt (b : MaptBlock) (k : Nat) (up : Bool) (j : Nat) :
    (ummuModifyEntryCnt b (512 * k) up).levelEntryCnt j =
      if j = k then stepU16 up (b.levelEntryCnt j) else b.levelEntryCnt j := by
  simp [ummuModifyEntryCnt, maptMaxEntryIndex]

@[simp] theorem modBlock_blockCnt (c : TableCtx) (k : Nat) (f : MaptBlock → MaptBlock) :
    (c.modBlock k f).blockCnt = c.blockCnt := rfl

theorem modBlock_modBlock (c : TableCtx) (k : Nat) (f g : MaptBlock → MaptBlock) :
    (c.modBlock k f).modBlock k g = c.modBlock k (g ∘ f) := by
  simp only [TableCtx.modBlock, TableCtx.mk.injEq, true_and]
  funext k'
  split <;> simp

theorem markLevel_node (c : TableCtx) (k id : Nat) (up : Bool) (k' idx : Nat) :
    (c.markLevel k id up).node k' idx = c.node k' idx := by
  by_cases hk : k' = k
  · subst hk; cases hb : c.xa k' <;> simp [TableCtx.node, TableCtx.markLevel, TableCtx.modBlock, hb]
  · simp [TableCtx.node, TableCtx.markLevel, TableCtx.modBlock, hk]

@[simp] theorem dropBlock_bitmap (c : TableCtx) (k : Nat) :
    (c.dropBlock k).levelBlockBitmap = c.levelBlockBitmap := by
  rw [TableCtx.dropBlock]

@[simp] theorem dropBlock_segs (c : TableCtx) (k : Nat) :
    (c.dropBlock k).grantedAddrMng = c.grantedAddrMng := by
  rw [TableCtx.dropBlock]

theorem markLevel_slot (c : TableCtx) (k id : Nat) (up : Bool) (id' i : Nat) :
    (c.markLevel k id up).slot id' i = c.slot id' i := markLevel_node ..

namespace Books

variable {c : TableCtx} {id i k : Nat} {nd : TableNode}

theorem modBlock {f : MaptBlock → MaptBlock} (h : Books c)
    (hf : ∀ b, (f b).blockId = b.blockId ∧ (f b).levelCnt = b.levelCnt)
    (hcnt : ∀ {b j}, c.xa k = some b → j < 4 →
      (f b).levelEntryCnt j = Nat.count (fun i => ((f b).nodes (512 * j + i)).valid) 512)
    (hzero : ∀ {b j i}, c.xa k = some b → j < 4 → c.levelBlockBitmap (4 * k + j) = false → i < 512 →
      (f b).nodes (512 * j + i) = .zero) : Books (c.modBlock k f) := by
  refine ⟨fun {k' b'} hb => ?_, fun {k' b'} hb => ?_, fun {k' b' j} hb hj => ?_,
    fun {id i} hid hi => ?_, fun hid => ?_, ?_, h.root⟩
  · obtain ⟨b, hc, rfl⟩ := modBlock_xa hb
    obtain ⟨h1, h2⟩ := h.blockId hc
    split
    · exact ⟨h1, (hf b).1.trans h2⟩
    · exact ⟨h1, h2⟩
  · obtain ⟨b, hc, rfl⟩ := modBlock_xa hb
    have := h.levelCnt hc
    split
    · exact (hf b).2.trans this
    · exact this
  · obtain ⟨b, hc, rfl⟩ := modBlock_xa hb
    split
    · next hk => subst hk; exact hcnt hc hj
    · exact h.entryCnt hc hj
  · have hz := h.zero hid hi
    unfold TableCtx.slot at hz ⊢
    by_cases hk : id / 4 = k
    · rw [hk] at hz ⊢
      cases hc : c.xa k with
      | none => simp [TableCtx.node, TableCtx.modBlock, hc]
      | some b =>
        have hid' : c.levelBlockBitmap (4 * k + id % 4) = false := by
          rw [show 4 * k + id % 4 = id by omega]; exact hid
        simpa [TableCtx.node, TableCtx.modBlock, hc] using hzero hc (Nat.mod_lt _ (by omega)) hid' hi
    · simpa [TableCtx.node, TableCtx.modBlock, hk] using hz
  · rw [modBlock_isSome]; exact h.present hid
  · simpa only [modBlock_isSome, modBlock_blockCnt] using h.blockCnt

theorem zero_setNode (h : Books c) (hbit : c.levelBlockBitmap id) (hi : i < 512)
    {b : MaptBlock} {j i' : Nat} (hb : c.xa (id / 4) = some b) (hj : j < 4)
    (hbj : c.levelBlockBitmap (4 * (id / 4) + j) = false) (hi' : i' < 512) :
    (b.setNode (512 * (id % 4) + i) nd).nodes (512 * j + i') = .zero := by
  have hne : j ≠ id % 4 := by
    rintro rfl
    rw [show 4 * (id / 4) + id % 4 = id by omega, hbit] at hbj; cases hbj
  have hz := h.zero hbj hi'
  rw [TableCtx.slot, TableCtx.node, show (4 * (id / 4) + j) / 4 = id / 4 by omega, hb,
    show (4 * (id / 4) + j) % 4 = j by omega] at hz
  simpa [MaptBlock.setNode, show 512 * j + i' ≠ 512 * (id % 4) + i by omega] using hz

theorem setNode (h : Books c) (hbit : c.levelBlockBitmap id) (hi : i < 512)
    (hv : nd.valid = (c.slot id i).valid) :
    Books (c.setNode (id / 4) (512 * (id % 4) + i) nd) := by
  refine h.modBlock (fun b => ⟨rfl, rfl⟩) (fun {b j} hb hj => ?_) (h.zero_setNode hbit hi)
  refine (h.entryCnt hb hj).trans (count_congr_lt fun i' _ => ?_)
  simp only [MaptBlock.setNode]
  split
  · next hi => rw [hv, TableCtx.slot, TableCtx.node, hb, ← hi]
  · rfl

theorem flip_entryCnt (h : Books c) (hi : i < 512) (hv : nd.valid = !(c.slot id i).valid)
    {b : MaptBlock} {j : Nat} (hb : c.xa (id / 4) = some b) (hj : j < 4) :
    (ummuModifyEntryCnt (b.setNode (512 * (id % 4) + i) nd) (512 * (id % 4)) nd.valid).levelEntryCnt j
      = Nat.count (fun i' => ((b.setNode (512 * (id % 4) + i) nd).nodes (512 * j + i')).valid) 512 := by
  have hcnt := h.entryCnt hb hj
  have hslot : (c.slot id i).valid = (b.nodes (512 * (id % 4) + i)).valid := by
    rw [TableCtx.slot, TableCtx.node, hb]
  have hother : ∀ i', 512 * j + i' ≠ 512 * (id % 4) + i →
      ((b.setNode (512 * (id % 4) + i) nd).nodes (512 * j + i')).valid
        = (b.nodes (512 * j + i')).valid := fun i' hi' => by simp [MaptBlock.setNode, hi']
  by_cases hjid : j = id % 4
  · subst hjid
    have hself : ((b.setNode (512 * (id % 4) + i) nd).nodes (512 * (id % 4) + i)).valid = nd.valid := by
      simp [MaptBlock.setNode]
    rw [modify_levelEntryCnt, if_pos rfl, show (b.setNode (512 * (id % 4) + i) nd).levelEntryCnt (id % 4)
      = b.levelEntryCnt (id % 4) from rfl, hcnt]
    have hle := Nat.count_le (p := fun i => (b.nodes (512 * (id % 4) + i)).valid = true) (n := 512)
    cases hn : nd.valid with
    | true =>
      have hon := count_switch_on (p := fun i => (b.nodes (512 * (id % 4) + i)).valid)
        (q := fun i' => ((b.setNode (512 * (id % 4) + i) nd).nodes (512 * (id % 4) + i')).valid)
        (by rw [← hslot]; simpa [hn] using hv) (hself.trans hn) (fun i' hi' => hother i' (by omega)) hi
      have := Nat.count_le (p := fun i' =>
        ((b.setNode (512 * (id % 4) + i) nd).nodes (512 * (id % 4) + i')).valid = true) (n := 512)
      rw [stepU16_up (by omega)]; omega
    | false =>
      have hon := count_switch_on (q := fun i => (b.nodes (512 * (id % 4) + i)).valid)
        (p := fun i' => ((b.setNode (512 * (id % 4) + i) nd).nodes (512 * (id % 4) + i')).valid)
        (hself.trans hn) (by rw [← hslot]; simpa [hn] using hv)
        (fun i' hi' => (hother i' (by omega)).symm) hi
      rw [stepU16_down (by omega) (by omega)]; omega
  · rw [modify_levelEntryCnt, if_neg hjid]
    exact hcnt.trans (count_congr_lt fun i' hi' => (hother i' (by omega)).symm)

theorem flipNode (h : Books c) (nd : TableNode) (hbit : c.levelBlockBitmap id) (hi : i < 512)
    (hv : nd.valid = !(c.slot id i).valid) :
    Books ((c.setNode (id / 4) (512 * (id % 4) + i) nd).modBlock (id / 4)
      (ummuModifyEntryCnt · (512 * (id % 4)) nd.valid)) := by
  rw [TableCtx.setNode, modBlock_modBlock]
  exact h.modBlock (fun b => ⟨rfl, rfl⟩) (h.flip_entryCnt hi hv) (h.zero_setNode hbit hi)

theorem addBlock (h : Books c) (hk : k < 512) (hnone : c.xa k = none) : Books (c.addBlock k) := by
  have hbits : ∀ j, j < 4 → c.levelBlockBitmap (4 * k + j) = false := fun j hj => by
    by_contra hb
    have := h.present (by simpa using hb)
    rw [show (4 * k + j) / 4 = k by omega, hnone] at this; cases this
  have hcnt : Nat.count (fun k' => ((c.addBlock k).xa k').isSome) 512
      = Nat.count (fun k' => (c.xa k').isSome) 512 + 1 :=
    count_switch_on (by simp [hnone])
      (by simp [TableCtx.addBlock]) (fun j hj => by simp [TableCtx.addBlock, hj]) hk
  have hle := Nat.count_le (p := fun k' => ((c.addBlock k).xa k').isSome = true) (n := 512)
  refine ⟨fun {k' b} hb => ?_, fun {k' b} hb => ?_, fun {k' b j} hb hj => ?_,
    fun {id i} hid hi => ?_, fun {id} hid => ?_, ?_, h.root⟩
  · by_cases hkk : k' = k
    · subst hkk; simp [TableCtx.addBlock] at hb; subst hb; exact ⟨hk, rfl⟩
    · simp only [TableCtx.addBlock, hkk, if_false] at hb; exact h.blockId hb
  · by_cases hkk : k' = k
    · subst hkk; simp [TableCtx.addBlock] at hb; subst hb
      exact (count_eq_zero.mpr hbits).symm
    · simp only [TableCtx.addBlock, hkk, if_false] at hb; exact h.levelCnt hb
  · by_cases hkk : k' = k
    · subst hkk; simp [TableCtx.addBlock] at hb; subst hb
      exact (count_eq_zero.mpr fun _ _ => rfl).symm
    · simp only [TableCtx.addBlock, hkk, if_false] at hb; exact h.entryCnt hb hj
  · have hz := h.zero hid hi
    unfold TableCtx.slot TableCtx.node at hz ⊢
    by_cases hkk : id / 4 = k
    · simp [TableCtx.addBlock, hkk]
    · simpa only [TableCtx.addBlock, hkk, if_false] using hz
  · by_cases hkk : id / 4 = k
    · simp [TableCtx.addBlock, hkk]
    · simpa only [TableCtx.addBlock, hkk, if_false] using h.present hid
  · have := h.blockCnt
    rw [hcnt, ← this]
    exact stepU16_up (by omega)

theorem markLevel {up : Bool} (h : Books c) (hpres : (c.xa (id / 4)).isSome)
    (hbit : c.levelBlockBitmap id = !up) (hroot : id = 0 → up)
    (hzero : up = false → ∀ i, i < 512 → c.slot id i = .zero) :
    Books (c.markLevel (id / 4) id up) := by
  refine ⟨fun {k b'} hb => ?_, fun {k b'} hb => ?_, fun {k b' j} hb hj => ?_,
    fun {id' i} hid hi => ?_, fun {id'} hid => ?_, ?_, ?_⟩
  · obtain ⟨b, hc, rfl⟩ := modBlock_xa hb
    have := h.blockId hc
    split <;> exact this
  · obtain ⟨b, hc, rfl⟩ := modBlock_xa hb
    have hcnt := h.levelCnt hc
    by_cases hk : k = id / 4
    · subst hk
      have hself : 4 * (id / 4) + id % 4 = id := by omega
      have hne : ∀ j, j ≠ id % 4 → setBit c.levelBlockBitmap id up (4 * (id / 4) + j)
          = c.levelBlockBitmap (4 * (id / 4) + j) := fun j hj => if_neg (by omega)
      have hon : setBit c.levelBlockBitmap id up (4 * (id / 4) + id % 4) = up := by
        rw [hself]; exact if_pos rfl
      have hle := Nat.count_le (p := fun j => c.levelBlockBitmap (4 * (id / 4) + j) = true) (n := 4)
      simp only [if_true, hcnt]
      cases up with
      | true =>
        refine Eq.trans ?_ (count_switch_on (p := fun j => c.levelBlockBitmap (4 * (id / 4) + j))
          (q := fun j => setBit c.levelBlockBitmap id true (4 * (id / 4) + j))
          (by rw [hself]; exact hbit) hon hne (Nat.mod_lt _ (by omega))).symm
        exact stepU16_up (by omega)
      | false =>
        have := count_switch_on (q := fun j => c.levelBlockBitmap (4 * (id / 4) + j))
          (p := fun j => setBit c.levelBlockBitmap id false (4 * (id / 4) + j))
          hon (by rw [hself]; exact hbit) (fun j hj => (hne j hj).symm) (Nat.mod_lt _ (by omega))
        exact (stepU16_down (by omega) (by omega)).trans (Nat.sub_eq_of_eq_add this)
    · rw [if_neg hk, hcnt]
      exact count_congr_lt fun j hj => (if_neg (by omega)).symm
  · obtain ⟨b, hc, rfl⟩ := modBlock_xa hb
    have := h.entryCnt hc hj
    split <;> exact this
  · rw [markLevel_slot]
    by_cases hii : id' = id
    · subst hii
      simp only [TableCtx.markLevel, setBit, if_true] at hid
      exact hzero hid i hi
    · simp only [TableCtx.markLevel, setBit, hii, if_false] at hid
      exact h.zero hid hi
  · rw [show ((c.markLevel (id / 4) id up).xa (id' / 4)).isSome = (c.xa (id' / 4)).isSome from
      modBlock_isSome ..]
    by_cases hii : id' = id
    · rw [hii]; exact hpres
    · simp only [TableCtx.markLevel, setBit, hii, if_false] at hid
      exact h.present hid
  · have := h.blockCnt
    simp only [TableCtx.markLevel, modBlock_isSome, modBlock_blockCnt]
    exact this
  · simp only [TableCtx.markLevel, setBit]
    split
    · next h0 => exact hroot h0.symm
    · exact h.root

theorem dropBlock (h : Books c) (hpres : (c.xa k).isSome)
    (hbits : ∀ j, j < 4 → c.levelBlockBitmap (4 * k + j) = false) : Books (c.dropBlock k) := by
  have hk : k < 512 := by
    obtain ⟨b, hb⟩ := Option.isSome_iff_exists.mp hpres
    exact (h.blockId hb).1
  have hcnt : Nat.count (fun k' => (c.xa k').isSome) 512
      = Nat.count (fun k' => ((c.dropBlock k).xa k').isSome) 512 + 1 :=
    count_switch_on (p := fun k' => ((c.dropBlock k).xa k').isSome)
      (by simp [TableCtx.dropBlock]) hpres (fun j hj => by simp [TableCtx.dropBlock, hj]) hk
  have hxa : ∀ {k' b}, (c.dropBlock k).xa k' = some b → c.xa k' = some b := fun {k' b} hb => by
    simp only [TableCtx.dropBlock] at hb
    split at hb
    · cases hb
    · exact hb
  refine ⟨fun hb => h.blockId (hxa hb), fun hb => by simpa using h.levelCnt (hxa hb),
    fun hb => h.entryCnt (hxa hb), fun {id i} hid hi => ?_, fun {id} hid => ?_, ?_,
    by simpa using h.root⟩
  · rw [dropBlock_bitmap] at hid
    have hz := h.zero hid hi
    unfold TableCtx.slot TableCtx.node at hz ⊢
    by_cases hkk : id / 4 = k
    · simp [TableCtx.dropBlock, hkk]
    · simpa only [TableCtx.dropBlock, hkk, if_false] using hz
  · rw [dropBlock_bitmap] at hid
    have hkk : id / 4 ≠ k := by
      rintro rfl
      have := hbits (id % 4) (Nat.mod_lt _ (by omega))
      rw [show 4 * (id / 4) + id % 4 = id by omega] at this
      exact Bool.false_ne_true (this.symm.trans hid)
    simpa only [TableCtx.dropBlock, hkk, if_false] using h.present hid
  · have := h.blockCnt
    have hle := Nat.count_le (p := fun k' => (c.xa k').isSome = true) (n := 512)
    have hval : (c.dropBlock k).blockCnt = c.blockCnt - 1 := stepU16_down (by omega) (by omega)
    omega

theorem dropBlock_slot (h : Books c) (hbits : ∀ j, j < 4 → c.levelBlockBitmap (4 * k + j) = false)
    {id i : Nat} (hi : i < 512) : (c.dropBlock k).slot id i = c.slot id i := by
  by_cases hk : id / 4 = k
  · have hid : c.levelBlockBitmap id = false := by
      have := hbits (id % 4) (Nat.mod_lt _ (by omega))
      rwa [show 4 * k + id % 4 = id by omega] at this
    rw [h.zero hid hi]
    simp [TableCtx.slot, TableCtx.node, TableCtx.dropBlock, hk]
  · simp [TableCtx.slot, TableCtx.node, TableCtx.dropBlock, hk]

theorem one_lt_blockCnt (h : Books c) (hpres : (c.xa k).isSome) (hk : k ≠ 0) : 1 < c.blockCnt := by
  have hlt : k < 512 := by
    obtain ⟨b, hb⟩ := Option.isSome_iff_exists.mp hpres
    exact (h.blockId hb).1
  have hon := count_switch_on (p := fun k' => decide (k' ≠ k) && (c.xa k').isSome)
    (q := fun k' => (c.xa k').isSome) (i := k) (by simp) hpres (fun j hj => by simp [hj]) hlt
  have hpos := count_pos (p := fun k' => decide (k' ≠ k) && (c.xa k').isSome) (n := 512) (i := 0)
    (by omega) (by simpa [Ne.symm hk] using h.present h.root)
  have := h.blockCnt
  omega

/-! ## Freeing a level block -/

variable {prev : TableNode}

theorem free_root (h : Books c) (hidx : prev.nextLvIndex = 0) (hoff : prev.nextLvOffset = 0) :
    ummuFreeLevelBlock c prev = c := by
  obtain ⟨b, hb⟩ := Option.isSome_iff_exists.mp (h.present h.root)
  rw [Nat.zero_div] at hb
  have hpos : b.levelCnt ≠ 0 := by
    rw [h.levelCnt hb]
    exact Nat.ne_of_gt (count_pos (i := 0) (by omega)
      h.root)
  simp [ummuFreeLevelBlock, hidx, hoff, hb, (h.blockId hb).2, hpos]

/-- What `ummu_free_level_block` leaves when the block's nodes are cleared. -/
structure Freed (c c' : TableCtx) (id : Nat) : Prop where
  books : Books c'
  kept : Kept c'
  bitmap : c'.levelBlockBitmap = setBit c.levelBlockBitmap id false
  slot : ∀ {id' i}, i < 512 → c'.slot id' i = c.slot id' i
  segs : c'.grantedAddrMng = c.grantedAddrMng

theorem free (h : Books c) (prev : TableNode) (hkept : Kept c) (hbit : c.levelBlockBitmap id)
    (hid : id ≠ 0)
    (hzero : ∀ i, i < 512 → c.slot id i = .zero) (hidx : prev.nextLvIndex = id / 4)
    (hoff : prev.nextLvOffset = 512 * (id % 4)) : Freed c (ummuFreeLevelBlock c prev) id := by
  obtain ⟨b, hb⟩ := Option.isSome_iff_exists.mp (h.present hbit)
  have hm : Books (c.markLevel (id / 4) id false) :=
    h.markLevel (h.present hbit) (by simpa using hbit) (fun h0 => absurd h0 hid) fun _ => hzero
  have hlvl : id / 4 * 4 + prev.nextLvOffset / 512 = id := by rw [hoff]; omega
  have hpres : ((c.markLevel (id / 4) id false).xa (id / 4)).isSome := by
    rw [show ((c.markLevel (id / 4) id false).xa (id / 4)).isSome = (c.xa (id / 4)).isSome from
      modBlock_isSome ..]
    exact h.present hbit
  obtain ⟨b', hb'⟩ := Option.isSome_iff_exists.mp hpres
  have hother : ∀ k j, k ≠ id / 4 → j < 4 → setBit c.levelBlockBitmap id false (4 * k + j)
      = c.levelBlockBitmap (4 * k + j) := fun k j hk hj => if_neg (by omega)
  have hcode : ummuFreeLevelBlock c prev = if b'.levelCnt = 0 ∧ 1 < c.blockCnt
      then (c.markLevel (id / 4) id false).dropBlock (id / 4)
      else c.markLevel (id / 4) id false := by
    simp only [ummuFreeLevelBlock, hidx, hb, maptPerLvlBlockCnt, maptMaxEntryIndex, hlvl, ne_eq, hid,
      not_false_eq_true, if_true, hb', Option.any_some, decide_eq_true_eq, (h.blockId hb).2]
    rfl
  rw [hcode]
  have hcnt := hm.levelCnt hb'
  split
  · next hz =>
    rw [hcnt, count_eq_zero] at hz
    refine ⟨hm.dropBlock hpres hz.1, fun k hk hk0 => ?_, dropBlock_bitmap .., fun hi => ?_,
      dropBlock_segs ..⟩
    · have hkid : k ≠ id / 4 := by
        rintro rfl; simp [TableCtx.dropBlock] at hk
      have hk' : (c.xa k).isSome := by
        simpa [TableCtx.dropBlock, TableCtx.markLevel, TableCtx.modBlock, hkid] using hk
      obtain ⟨j, hj, hbj⟩ := hkept k hk' hk0
      exact ⟨j, hj, by rw [dropBlock_bitmap]; exact (hother k j hkid hj).trans hbj⟩
    · rw [hm.dropBlock_slot hz.1 hi, markLevel_slot]
  next hz =>
  refine ⟨hm, fun k hk hk0 => ?_, rfl, fun hi => markLevel_slot .., rfl⟩
  have hk' : (c.xa k).isSome := by
    rwa [show ((c.markLevel (id / 4) id false).xa k).isSome = (c.xa k).isSome from
      modBlock_isSome ..] at hk
  by_cases hkid : k = id / 4
  · subst hkid
    have hpos : b'.levelCnt ≠ 0 := fun h0 => hz ⟨h0, h.one_lt_blockCnt hk' hk0⟩
    rw [hcnt] at hpos
    by_contra hno
    push Not at hno
    exact hpos (count_eq_zero.mpr fun j hj => by simpa using hno j hj)
  · obtain ⟨j, hj, hbj⟩ := hkept k hk' hk0
    exact ⟨j, hj, (hother k j hkid hj).trans hbj⟩

end Books

end UbDkms.Mapt
