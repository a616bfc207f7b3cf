import UbDkms.Mapt.Correct

/-!
# Which requests are refused

The walks never take one of their structural error exits (`-EINVAL`): a grant
that passed the checks stops only where a level block cannot be allocated, an
ungrant or a token update never does. What is left are the checks against the
recorded segments.
-/

namespace UbDkms.Mapt

open Lib List

/-! ## Level blocks run out -/

/-- Every level block the table may have is in use: those of the first MAPT block, or of all
of them when the table may expand. -/
def TableCtx.Full (c : TableCtx) : Prop :=
  ∀ id < if c.expan then 2048 else 4, c.levelBlockBitmap id = true

def St.Granted (st : St) : Prop := ∀ b ∈ st.faults, b = true

section Levels

variable {st : St} {fb : Bool} {d : DataInfo}

theorem setNode_ctx (st : St) (p : NodePtr) (nd : TableNode) :
    (st.setNode p nd).faults = st.faults ∧ (st.setNode p nd).ctx.expan = st.ctx.expan ∧
      (st.setNode p nd).ctx.levelBlockBitmap = st.ctx.levelBlockBitmap := by
  cases p <;> exact ⟨rfl, rfl, rfl⟩

theorem alloc_granted (h : st.Granted) :
    st.alloc.1 ∧ st.alloc.2.Granted ∧ st.alloc.2.ctx = st.ctx := by
  unfold St.alloc
  split
  · exact ⟨rfl, h, rfl⟩
  next b fs hfs =>
  refine ⟨h b ?_, ?_, rfl⟩
  · rw [hfs]
    exact mem_cons_self
  · intro x hx
    apply h
    rw [hfs]
    exact mem_cons_of_mem _ hx

theorem findFirstZeroBit_below {bm : Nat → Bool} :
    ∀ {k i j : Nat}, i ≤ j → j < findFirstZeroBit bm i k → bm j = true
  | 0, i, j, hij, hj => absurd hj (Nat.not_lt.mpr hij)
  | k + 1, i, j, hij, hj => by
    unfold findFirstZeroBit at hj
    split at hj
    · next hb =>
      rcases Nat.lt_or_eq_of_le hij with h | rfl
      · exact findFirstZeroBit_below h hj
      · exact hb
    · omega

theorem allocNew_granted {k : Nat} (h : st.Granted) (hk : k < 512) :
    Outcome (ummuAllocNewMaptBlock st k) St.Granted
      fun _ st' => st'.ctx = st.ctx ∧ k ≠ 0 ∧ st.ctx.expan = false := by
  unfold ummuAllocNewMaptBlock ummuBlktblMaxEntries
  split
  · next hc => exact ⟨rfl, hc.resolve_right (Nat.not_le.mpr hk)⟩
  obtain ⟨h1, g1, -⟩ := alloc_granted h
  rcases hr1 : st.alloc with ⟨b1, st1⟩
  rw [hr1] at h1 g1
  obtain rfl : b1 = true := h1
  obtain ⟨h2, g2, -⟩ := alloc_granted g1
  rcases hr2 : st1.alloc with ⟨b2, st2⟩
  rw [hr2] at h2 g2
  obtain rfl : b2 = true := h2
  obtain ⟨h3, g3, -⟩ := alloc_granted g2
  rcases hr3 : st2.alloc with ⟨b3, st3⟩
  rw [hr3] at h3 g3
  obtain rfl : b3 = true := h3
  simp only [hr2, hr3, outcome_none]
  exact g3

theorem allocLevelBlock_granted (h : st.Granted) (pre : NodePtr) (preBlk : Option Nat) :
    Outcome (ummuAllocLevelBlock st pre preBlk) St.Granted fun _ st' => st'.ctx.Full := by
  have hlink : ∀ {st : St} {lid far}, st.Granted → (ummuLinkLevelBlock st pre lid far).Granted := by
    intro st lid far hst b hb
    apply hst
    rwa [← (setNode_ctx st pre _).1]
  unfold ummuAllocLevelBlock maptMaxLvlIdBitSize ummuBlktblMaxEntries
  generalize hlid : findFirstZeroBit st.ctx.levelBlockBitmap 0 (4 * 512) = lid
  have hbelow : ∀ j < lid, st.ctx.levelBlockBitmap j := by
    intro j hj
    rw [← hlid] at hj
    exact findFirstZeroBit_below (Nat.zero_le j) hj
  dsimp only
  split
  · next hge =>
    intro id hid
    apply hbelow
    split at hid <;> omega
  next hlt =>
  obtain ⟨hf, he, hb⟩ := setNode_ctx st pre { st.node pre with nextBlock := false }
  generalize st.setNode pre { st.node pre with nextBlock := false } = st1 at hf he hb
  have h1 : st1.Granted := by
    intro b hb
    rw [hf] at hb
    exact h b hb
  cases hxa : st1.ctx.xa (lid / maptPerLvlBlockCnt) with
  | some b => exact hlink h1
  | none =>
    have hnew := allocNew_granted h1 (k := lid / maptPerLvlBlockCnt) (by
      unfold maptPerLvlBlockCnt
      omega)
    rcases hr : ummuAllocNewMaptBlock st1 (lid / maptPerLvlBlockCnt) with ⟨_ | e, st2⟩
    · rw [hr] at hnew
      exact hlink hnew
    rw [hr] at hnew
    obtain ⟨hctx, hk0, hex⟩ := hnew
    intro id hid
    rw [hctx, hb]
    apply hbelow
    rw [hctx, hex] at hid
    unfold maptPerLvlBlockCnt at hk0
    simp only [Bool.false_eq_true, if_false] at hid
    omega

/-- What a walk leaves behind, when memory does not run out. -/
def NeedsLevels (next : Walk) : Prop :=
  ∀ pre base limit st, st.Granted →
    Outcome (next pre base limit st) St.Granted fun e st' => e = .enomem → st'.ctx.Full

theorem St.Granted.setNode (h : st.Granted) (p : NodePtr) (nd : TableNode) :
    (st.setNode p nd).Granted := by
  intro b hb
  rw [(setNode_ctx st p nd).1] at hb
  exact h b hb

theorem St.Granted.newNode (h : st.Granted) (pre cur : NodePtr) (b l : Nat) :
    (ummuTableNewNode d pre cur b l st).Granted := h.setNode _ _

theorem gather_granted (h : st.Granted) (x : Plbi) : (updateUmmuGather st x).Granted := by
  unfold updateUmmuGather
  split <;> exact h

theorem descend_granted {next : Walk} (hnext : NeedsLevels next) (pre cur : NodePtr) (b l : Nat)
    (h : st.Granted) :
    Outcome (ummuTableFillDescend next pre cur b l st) St.Granted
      fun e st' => e = .enomem → st'.ctx.Full := by
  unfold ummuTableFillDescend
  split
  · have hal := allocLevelBlock_granted h cur (some (st.node pre).nextLvIndex)
    rcases hr : ummuAllocLevelBlock st cur (some (st.node pre).nextLvIndex) with ⟨_ | e, st1⟩
    · rw [hr] at hal
      exact hnext _ _ _ _ (St.Granted.setNode hal _ _)
    · rw [hr] at hal
      exact fun _ => hal
  · exact hnext _ _ _ _ h

theorem fillHead_granted {next : Walk} (hnext : NeedsLevels next) (level : Nat) (pre cur : NodePtr)
    (b l : Nat) (h : st.Granted) :
    Outcome (if fb then ummuTableFillHeadNodeFreeBit d next pre cur b l st
        else ummuTableFillHeadNode d level next pre cur b l st) St.Granted
      fun e st' => e = .enomem → st'.ctx.Full := by
  cases fb with
  | true =>
    rw [if_pos rfl]
    dsimp only [ummuTableFillHeadNodeFreeBit]
    split
    · exact h.newNode _ _ _ _
    split
    · exact gather_granted (h.setNode _ _) _
    · exact descend_granted hnext pre cur b l h
  | false =>
    rw [if_neg Bool.false_ne_true]
    dsimp only [ummuTableFillHeadNode]
    split
    · split
      · exact gather_granted (h.setNode _ _) _
      · exact descend_granted hnext pre cur b l h
    · exact h.newNode _ _ _ _

theorem fill_needs_levels (fb : Bool) (d : DataInfo) :
    ∀ n, NeedsLevels (ummuTableFillNodeByLevel fb d n) := by
  intro n
  induction n with
  | zero =>
    intro pre base limit st _ he
    cases he
  | succ n ih =>
    intro pre base limit st h
    rw [ummuTableFillNodeByLevel]
    dsimp only
    split
    · intro he
      cases he
    have hnote : (st.noteLevel (maptMaxLvlIndex - n) (getLevelBlockIndex base (maptMaxLvlIndex - n))
        (getLevelBlockIndex limit (maptMaxLvlIndex - n))).Granted := by
      unfold St.noteLevel
      split <;> exact h
    apply forRange_outcome (I := fun _ => St.Granted) hnote
    intro i st' _ _ hst
    split
    · split
      · intro he
        cases he
      · exact hst.newNode _ _ _ _
    apply fillHead_granted ih
    unfold St.noteHead
    split <;> exact hst

end Levels

/-! ## The checks -/

def SegInfo.tokens (e : SegInfo) : List UInt32 :=
  if e.tokenCheck then [e.tokenVal0, e.tokenVal1].take e.tokenCount else []

def Apart (S : List SegInfo) (d : DataInfo) : Prop :=
  ∀ t ∈ S, t.last < d.dataBase ∨ d.dataBase + d.dataSize ≤ t.startAddr

/-- The range is that of a recorded segment with one token, and the request brings another
for the same permission and e-bit. -/
structure Extends (e : SegInfo) (d : DataInfo) : Prop where
  start : e.startAddr = d.dataBase
  size : e.grantSize + 1 = d.dataSize
  token : e.tokens.length = 1
  brings : d.tokenCheck = true
  perm : e.permission = d.perm
  eBit : e.eBit = d.eBit

def TokensOk (S : List SegInfo) : Prop :=
  ∀ e ∈ S, e.tokenCheck = true → (e.tokenCount = 1 ∧ e.tokenVal0 = e.tokenVal1) ∨ e.tokenCount = 2

/-- A well formed grant: `d` is the range and the rights it asks for. -/
def GrantReq.Asks (q : GrantReq) (i : MaptInfo) (d : DataInfo) : Prop :=
  ∃ perm eBit token, q.perm = some perm ∧ q.segAttr = some (token, some eBit) ∧
    (∀ t, token = some t → t.input = 0 ∨ t.input = 1) ∧ 0 < q.size ∧
    q.va % 2 ^ i.ias % 4096 = 0 ∧ q.va % 2 ^ i.ias + q.size ≤ 2 ^ 48 ∧
    d = ummuPermDataPreproc (q.va % 2 ^ i.ias) q.size perm eBit token q.rand

/-- The fill of a grant stops because no level block is left. -/
def OutOfLevels (i : MaptInfo) (q : GrantReq) : Prop :=
  ∃ d, grantPlan i q = some (.grant, d) ∧
    (ummuTableFillNodeByLevel i.freeBit d 4 .stack d.dataBase d.dataLimit
      (i.start q.headFlag q.faults)).1 ≠ none ∧
    (ummuTableFillNodeByLevel i.freeBit d 4 .stack d.dataBase d.dataLimit
      (i.start q.headFlag q.faults)).2.ctx.Full

/-- No allocation of the grant fails, of memory or of a level block. -/
structure GrantReq.Provided (q : GrantReq) (i : MaptInfo) : Prop where
  memory : ∀ b ∈ q.faults, b = true
  record : q.kzallocOk = true ∧ q.insertOk = true
  levels : ¬OutOfLevels i q

def UngrantReq.Asks (q : UngrantReq) (i : MaptInfo) : Prop :=
  q.va % 2 ^ i.ias % 4096 = 0 ∧ q.va % 2 ^ i.ias + q.size ≤ 2 ^ 48

/-- The range is that of a recorded segment, which has the token named. -/
def Ungrantable (S : List SegInfo) (i : MaptInfo) (q : UngrantReq) : Prop :=
  ∃ e ∈ S, e.startAddr = q.va % 2 ^ i.ias ∧ e.grantSize + 1 = q.size ∧
    ∀ v, q.token = some v → v ∈ e.tokens

section Checks

variable {S : List SegInfo} {d : DataInfo} {e : SegInfo}

theorem tokens_length (h : TokensOk S) (he : e ∈ S) :
    e.tokens.length = 1 ↔ e.tokenCheck ∧ e.tokenCount = 1 := by
  unfold SegInfo.tokens
  cases hc : e.tokenCheck with
  | false => simp
  | true =>
    rcases h e he hc with ⟨h1, -⟩ | h2
    · simp [h1]
    · simp [h2]

theorem mem_tokens (h : TokensOk S) (he : e ∈ S) {v : UInt32} :
    v ∈ e.tokens ↔ e.tokenCheck ∧ (e.tokenVal0 = v ∨ e.tokenVal1 = v) := by
  unfold SegInfo.tokens
  cases hc : e.tokenCheck with
  | false => simp
  | true =>
    rcases h e he hc with ⟨h1, h2⟩ | h2
    · simp [h1, h2, eq_comm]
    · simp [h2, eq_comm]

theorem lessOne_eq (h0 : 0 < d.dataSize) (hb : d.dataSize ≤ 2 ^ 48) : d.lessOne = d.dataSize - 1 := by
  unfold DataInfo.lessOne
  rw [show d.dataSize + 2 ^ 64 - 1 = d.dataSize - 1 + 2 ^ 64 by omega, Nat.add_mod_right]
  exact Nat.mod_eq_of_lt (by omega)

theorem grantCheck_cases (hok : SegsOk S) (htok : TokensOk S) (h0 : 0 < d.dataSize)
    (hb : d.dataBase + d.dataSize ≤ 2 ^ 48) :
    (Apart S d ∧ ummuGrantCheck S d = .grant) ∨
    (∃ e ∈ S, Extends e d ∧ ummuGrantCheck S d = .addToken) ∨
    (¬Apart S d ∧ (∀ e ∈ S, ¬Extends e d) ∧ ummuGrantCheck S d = .opEnd) := by
  have hless := lessOne_eq h0 (by omega)
  unfold ummuGrantCheck
  rcases hf : ummuFindSeg d.dataBase d.lessOne S with ⟨eo, r⟩
  -- a recorded segment with the range of the request is the one found
  have hself : ∀ e ∈ S, e.startAddr = d.dataBase → e.grantSize + 1 = d.dataSize →
      (eo, r) = (some e, .isMatch) := by
    intro e he h1 h2
    rw [← hf, ← h1, show d.lessOne = e.grantSize by omega]
    exact hok.findSeg_self he
  cases r with
  | isMatch =>
    cases eo with
    | none =>
      unfold ummuFindSeg at hf
      split at hf <;> cases hf
    | some e =>
      obtain ⟨he, h1, h2⟩ := hok.of_match hf
      have hmeets : ¬Apart S d := by
        intro hap
        have := hap e he
        have := e.le_last
        omega
      have huniq : ∀ e' ∈ S, Extends e' d → e' = e := by
        intro e' he' hx
        have := hself e' he' hx.start hx.size
        exact (Option.some.inj (Prod.mk.inj this).1).symm
      right
      dsimp only
      unfold ummuTableParamCheck
      split
      · next hc =>
        simp only [Bool.and_eq_true, decide_eq_true_eq] at hc
        obtain ⟨⟨⟨⟨hc1, hc2⟩, hp⟩, heb⟩, hcnt⟩ := hc
        exact .inl ⟨e, he, ⟨h1, by omega, (tokens_length htok he).mpr ⟨hc1, hcnt⟩, hc2, hp, heb⟩, rfl⟩
      next hc =>
      refine .inr ⟨hmeets, ?_, rfl⟩
      intro e' he' hx
      obtain rfl := huniq e' he' hx
      obtain ⟨hc1, hcnt⟩ := (tokens_length htok he).mp hx.token
      apply hc
      simp [hc1, hx.brings, hx.perm, hx.eBit, hcnt]
  | notExist =>
    left
    refine ⟨?_, by cases eo <;> rfl⟩
    intro t ht
    have := hok.apart_of_notExist (by omega) (congrArg Prod.snd hf) t ht
    omega
  | overlap =>
    right; right
    cases eo with
    | none =>
      unfold ummuFindSeg at hf
      split at hf <;> cases hf
    | some e =>
      refine ⟨?_, ?_, rfl⟩
      · intro hap
        unfold ummuFindSeg at hf
        cases hm : masFind S d.dataBase with
        | none => rw [hm] at hf; cases hf
        | some e' =>
          rw [hm] at hf
          obtain ⟨rfl, hc⟩ : e' = e ∧ ummuCompare d.dataBase d.lessOne e' = .overlap := by simpa using hf
          obtain ⟨he, hle, -⟩ := hok.masFind_some hm
          have := hap e' he
          unfold ummuCompare at hc
          split at hc
          · cases hc
          split at hc
          · cases hc
          next hge =>
          omega
      · intro e' he' hx
        have := hself e' he' hx.start hx.size
        cases this

theorem ungrantCheck_cases {q : UngrantReq} {i : MaptInfo} (hok : SegsOk S) (htok : TokensOk S)
    (hb : q.va % 2 ^ i.ias + q.size ≤ 2 ^ 48) :
    let d := ungrantInfo (q.va % 2 ^ i.ias) q.size q.token
    (Ungrantable S i q ∧ (ummuUngrantCheck S d = .ungrant ∨ ummuUngrantCheck S d = .removeToken)) ∨
    (¬Ungrantable S i q ∧ ummuUngrantCheck S d = .opEnd) := by
  intro d
  have hself : ∀ e ∈ S, e.startAddr = q.va % 2 ^ i.ias → e.grantSize + 1 = q.size →
      ummuFindSeg d.dataBase d.lessOne S = (some e, .isMatch) := by
    intro e he h1 h2
    have hless : d.lessOne = e.grantSize := by
      have := lessOne_eq (d := d) (show 0 < q.size by omega) (show q.size ≤ 2 ^ 48 by omega)
      change d.lessOne = q.size - 1 at this
      omega
    rw [hless, show d.dataBase = e.startAddr from h1.symm]
    exact hok.findSeg_self he
  by_cases hu : ∃ e ∈ S, e.startAddr = q.va % 2 ^ i.ias ∧ e.grantSize + 1 = q.size
  · obtain ⟨e, he, h1, h2⟩ := hu
    have hcheck : ummuUngrantCheck S d = ummuUngrantParamCheck e d := by
      unfold ummuUngrantCheck
      rw [hself e he h1 h2]
    have hiff : Ungrantable S i q ↔ ∀ v, q.token = some v → v ∈ e.tokens := by
      constructor
      · rintro ⟨e', he', h1', h2', hv⟩
        have := (hself e he h1 h2).symm.trans (hself e' he' h1' h2')
        obtain rfl := Option.some.inj (Prod.mk.inj this).1
        exact hv
      · exact fun hv => ⟨e, he, h1, h2, hv⟩
    rw [hcheck, hiff]
    unfold ummuUngrantParamCheck
    cases ht : q.token with
    | none =>
      left
      refine ⟨nofun, .inl ?_⟩
      rw [if_pos (show d.bytoken = false by change q.token.isSome = false; rw [ht]; rfl)]
    | some v =>
      have hby : d.bytoken := by change q.token.isSome = true; rw [ht]; rfl
      have hval : d.tokenval = v := by change q.token.getD 0 = v; rw [ht]; rfl
      rw [if_neg (by rw [hby]; decide), hval]
      have hmem := mem_tokens htok he (v := v)
      have hall : (∀ w, some v = some w → w ∈ e.tokens) ↔ v ∈ e.tokens :=
        ⟨fun h => h v rfl, fun h w hw => Option.some.inj hw ▸ h⟩
      rw [hall, hmem]
      cases hc : e.tokenCheck with
      | false => exact .inr ⟨fun h => Bool.false_ne_true h.1, if_pos rfl⟩
      | true =>
        rw [if_neg (by decide)]
        by_cases hv : e.tokenVal0 = v ∨ e.tokenVal1 = v
        · left
          rw [if_pos hv]
          refine ⟨⟨rfl, hv⟩, ?_⟩
          rcases htok e he hc with ⟨hcnt, -⟩ | hcnt
          · left; rw [if_pos hcnt]
          · right; rw [if_neg (by omega), if_pos (show e.tokenCount = ummuMaxTokenNum from hcnt)]
        right
        rw [if_neg hv]
        exact ⟨fun h => hv h.2, rfl⟩
  right
  refine ⟨fun ⟨e, he, h1, h2, _⟩ => hu ⟨e, he, h1, h2⟩, ?_⟩
  unfold ummuUngrantCheck
  split
  · next e hf =>
    obtain ⟨he, h1, h2⟩ := hok.of_match hf
    exfalso
    apply hu
    refine ⟨e, he, h1, ?_⟩
    have hbound := hok.bound he
    unfold SegInfo.last at hbound
    rcases Nat.eq_zero_or_pos q.size with h0 | h0
    · -- a size of zero is compared as the largest 64-bit number
      have : d.lessOne = 2 ^ 64 - 1 := by
        unfold DataInfo.lessOne
        rw [show d.dataSize = 0 from h0]
        rfl
      omega
    have := lessOne_eq (d := d) h0 (show q.size ≤ 2 ^ 48 by omega)
    change d.lessOne = q.size - 1 at this
    omega
  · rfl

end Checks

/-! ## The requests -/

section Requests

variable {i i₀ : MaptInfo} {q : GrantReq} {d : DataInfo} {op : GrantOp}

theorem grantPlan_asks (hm : i.mode = .table) (hv : i.valid) (h : q.Asks i d) :
    grantPlan i q = if ummuGrantCheck i.tableCtx.grantedAddrMng d = .opEnd then none
      else some (ummuGrantCheck i.tableCtx.grantedAddrMng d, d) := by
  obtain ⟨perm, eBit, token, hperm, hattr, hin, h0, hal, hb, rfl⟩ := h
  have hmax : maxAddressBits = 48 := rfl
  have hcheck : ummuCheckData i.mode (q.va % 2 ^ i.ias) q.size q.perm (some eBit) token =
      some (perm, eBit) := by
    unfold ummuCheckData
    rw [hperm, if_neg (by omega), if_neg]
    · dsimp only
      rw [if_neg, if_neg fun hc => hc.2 hal]
      cases token with
      | none => decide
      | some t =>
        have := hin t rfl
        simp only [Option.any_some, decide_eq_true_eq]
        omega
    · rw [hmax, Nat.mod_eq_of_lt (show q.va % 2 ^ i.ias + q.size - 1 < 2 ^ 64 by omega)]
      rw [Nat.div_eq_of_lt (by omega), Nat.div_eq_of_lt (by omega), Nat.div_eq_of_lt (by omega)]
      decide
  unfold grantPlan
  rw [hattr]
  dsimp only
  have hmode : ¬(i.valid = false ∨ ummuPermTableModeIsValid i.mode = false) := by
    rw [hv, hm]
    decide
  rw [if_neg hmode, hcheck]
  dsimp only
  rw [if_neg (c := i.mode = .entry) (by rw [hm]; decide)]

theorem asks_range (h : q.Asks i d) : 0 < d.dataSize ∧ d.dataBase + d.dataSize ≤ 2 ^ 48 := by
  obtain ⟨perm, eBit, token, -, -, -, h0, -, hb, rfl⟩ := h
  exact ⟨h0, hb⟩

theorem tableOp_grant_ret (h : i.Ok) (hp : grantPlan i q = some (.grant, d)) :
    (ummuTableOp i.freeBit .grant d (i.start q.headFlag q.faults)).1 = none ∨
      (ummuTableOp i.freeBit .grant d (i.start q.headFlag q.faults)).1 = some .enomem := by
  obtain ⟨G, hG⟩ := h.start q.headFlag q.faults
  cases grantPlan_planned h hp with
  | token _ _ _ _ hup => rcases hup.op with ⟨hc, -⟩ | ⟨hc, -⟩ <;> cases hc
  | grant hlim ha hb hap =>
    have hop := tableOp_grant hG rfl hlim ha hb hap
    rcases hr : ummuTableOp i.freeBit .grant d (i.start q.headFlag q.faults) with ⟨_ | e, st⟩
    · exact .inl rfl
    · rw [hr] at hop
      exact .inr (congrArg some hop.1)

theorem tableOp_fill (i : MaptInfo) (q : GrantReq) (d : DataInfo) :
    (ummuTableOp i.freeBit .grant d (i.start q.headFlag q.faults)).1 =
      (ummuTableFillNodeByLevel i.freeBit d 4 .stack d.dataBase d.dataLimit
        (i.start q.headFlag q.faults)).1 := by
  dsimp only [ummuTableOp]
  rw [show ({ i.start q.headFlag q.faults with root := .zero } : St) = i.start q.headFlag q.faults from rfl]
  rcases ummuTableFillNodeByLevel i.freeBit d 4 .stack d.dataBase d.dataLimit
    (i.start q.headFlag q.faults) with ⟨_ | e, st⟩ <;> rfl

theorem doOp_grant_ret (h : i.Ok) (hp : grantPlan i q = some (.grant, d))
    (hrec : q.kzallocOk ∧ q.insertOk) :
    (i.doOp .grant d q.headFlag q.faults q.kzallocOk q.insertOk).1 =
      (ummuTableOp i.freeBit .grant d (i.start q.headFlag q.faults)).1 := by
  obtain ⟨G, hG⟩ := h.start q.headFlag q.faults
  rw [doOp_table h.mode, hrec.1, hrec.2]
  cases grantPlan_planned h hp with
  | token _ _ _ _ hup => rcases hup.op with ⟨hc, -⟩ | ⟨hc, -⟩ <;> cases hc
  | grant hlim ha hb hap =>
    have hop := tableOp_grant hG rfl hlim ha hb hap
    rcases hr : ummuTableOp i.freeBit .grant d (i.start q.headFlag q.faults) with ⟨_ | e, st⟩
    · rw [hr] at hop
      obtain ⟨G', hr', -, -⟩ := hop
      simp only [ummuUpdateInfo, hr'.segs, insertNewAddr_apart hap]
      rfl
    · rfl

theorem grant_served (h : i.Ok) (htok : TokensOk i.tableCtx.grantedAddrMng) (hv : i.valid)
    (ha : q.Asks i d) (hprov : q.Provided i) :
    ((ummuPermGrant i q).ret = none ↔ Apart i.tableCtx.grantedAddrMng d ∨
      ∃ e ∈ i.tableCtx.grantedAddrMng, Extends e d) ∧
    (Apart i.tableCtx.grantedAddrMng d → (ummuPermGrant i q).info.tableCtx.grantedAddrMng =
      SegsOk.insertSeg i.tableCtx.grantedAddrMng d.toSeg) ∧
    (∀ e ∈ i.tableCtx.grantedAddrMng, Extends e d →
      (ummuPermGrant i q).info.tableCtx.grantedAddrMng = i.tableCtx.grantedAddrMng.map
        fun x => if x = e then { e with tokenVal1 := d.tokenval, tokenCount := 2 } else x) := by
  obtain ⟨G, hG⟩ := h.agrees
  obtain ⟨h0, hb⟩ := asks_range ha
  have hplan := grantPlan_asks h.mode hv ha
  have hapart : ∀ e ∈ i.tableCtx.grantedAddrMng, Apart i.tableCtx.grantedAddrMng d → ¬Extends e d := by
    intro e he hap hx
    have := hap e he
    have := hx.start
    have := e.le_last
    omega
  rcases grantCheck_cases hG.segs htok h0 hb with ⟨hap, hop⟩ | ⟨e, he, hx, hop⟩ | ⟨hnap, hnx, hop⟩
  · rw [hop, if_neg (by decide)] at hplan
    obtain ⟨hret, hinfo⟩ := permGrant_some hplan
    have hdo := doOp_grant_ret h hplan hprov.record
    have hnone : (ummuTableOp i.freeBit .grant d (i.start q.headFlag q.faults)).1 = none := by
      rcases tableOp_grant_ret h hplan with hn | hn
      · exact hn
      exfalso
      have hfill := tableOp_fill i q d
      rw [hn] at hfill
      have hfull := fill_needs_levels i.freeBit d 4 .stack d.dataBase d.dataLimit
        (i.start q.headFlag q.faults) hprov.memory
      apply hprov.levels
      refine ⟨d, hplan, by rw [← hfill]; nofun, ?_⟩
      rcases hr : ummuTableFillNodeByLevel i.freeBit d 4 .stack d.dataBase d.dataLimit
        (i.start q.headFlag q.faults) with ⟨_ | e, st⟩
      · rw [hr] at hfill
        cases hfill
      · rw [hr] at hfill hfull
        exact hfull (Option.some.inj hfill.symm)
    rw [hnone] at hdo
    have hrec : (q.kzallocOk && q.insertOk) := by
      rw [hprov.record.1, hprov.record.2]
      rfl
    have hsegs := (doOp_grant h (grantPlan_planned h hplan) (.inl hrec)).2.2 hdo
    refine ⟨⟨fun _ => .inl hap, fun _ => hret.trans hdo⟩, fun _ => by rw [hinfo]; exact hsegs, ?_⟩
    intro e he hx
    exact absurd hx (hapart e he hap)
  · rw [hop, if_neg (by decide)] at hplan
    obtain ⟨hret, hinfo⟩ := permGrant_some hplan
    have hlast : d.dataLimit = e.last := by
      obtain ⟨perm, eBit, token, -, -, -, -, -, hb', rfl⟩ := ha
      have h1 := hx.start
      have h2 := hx.size
      change (q.va % 2 ^ i.ias + q.size - 1) % 2 ^ 64 = e.startAddr + e.grantSize
      change e.startAddr = q.va % 2 ^ i.ias at h1
      change e.grantSize + 1 = q.size at h2
      rw [Nat.mod_eq_of_lt (by omega)]
      omega
    have hless : d.lessOne = e.grantSize := by
      have := hx.size
      rw [lessOne_eq h0 (by omega)]
      omega
    obtain ⟨hc1, hcnt⟩ := (tokens_length htok he).mp hx.token
    have hdo : _ ∧ (i.doOp .addToken d q.headFlag q.faults q.kzallocOk q.insertOk).2.1.Ok ∧ _ :=
      doOp_token h he hx.start.symm hless hlast ⟨hc1, .inl ⟨rfl, hcnt⟩⟩
    obtain ⟨hnone, -, hsegs⟩ := hdo
    refine ⟨⟨fun _ => .inr ⟨e, he, hx⟩, fun _ => hret.trans hnone⟩, ?_, ?_⟩
    · intro hap
      exact absurd hx (hapart e he hap)
    intro e' he' hx'
    obtain rfl : e' = e := by
      have h1 := hG.segs.masFind_self he
      have h2 := hG.segs.masFind_self he'
      rw [hx'.start, ← hx.start, h1] at h2
      exact (Option.some.inj h2).symm
    rw [hinfo, hsegs]
    rfl
  · rw [hop, if_pos rfl] at hplan
    obtain ⟨hret, -⟩ := permGrant_none hplan
    refine ⟨⟨fun hc => ?_, fun hc => ?_⟩, fun hap => absurd hap hnap, fun e he hx => absurd hx (hnx e he)⟩
    · rw [hret] at hc
      cases hc
    · rcases hc with hap | ⟨e, he, hx⟩
      · exact absurd hap hnap
      · exact absurd hx (hnx e he)

theorem ungrantPlan_asks {q : UngrantReq} (hm : i.mode = .table) (hv : i.valid)
    (ha : q.Asks i) :
    let d := ungrantInfo (q.va % 2 ^ i.ias) q.size q.token
    ungrantPlan i q = if ummuUngrantCheck i.tableCtx.grantedAddrMng d = .opEnd then none
      else some (ummuUngrantCheck i.tableCtx.grantedAddrMng d, d) := by
  dsimp only [ungrantPlan]
  have hmode : ¬(i.valid = false ∨ ummuPermTableModeIsValid i.mode = false) := by
    rw [hv, hm]
    decide
  rw [if_neg hmode, if_neg fun hc => hc.2 ha.1]
  rw [if_neg (c := i.mode = .entry) (by rw [hm]; decide)]

theorem ungrantPlan_op {q : UngrantReq} (hm : i.mode = .table)
    (hp : ungrantPlan i q = some (op, d)) : op = .ungrant ∨ op = .removeToken := by
  unfold ungrantPlan at hp
  dsimp only at hp
  split at hp
  · cases hp
  split at hp
  · cases hp
  rw [if_neg (c := i.mode = .entry) (by rw [hm]; decide)] at hp
  split at hp
  · cases hp
  next hne =>
  obtain ⟨rfl, -⟩ := Prod.mk.inj (Option.some.inj hp)
  revert hne
  unfold ummuUngrantCheck ummuUngrantParamCheck
  (repeat' split) <;> simp

theorem ungrant_done {q : UngrantReq} (h : i.Ok) (hp : ungrantPlan i q = some (op, d)) :
    (ummuTableOp i.freeBit op d (i.start q.headFlag [])).1 = none ∧ (ummuPermUngrant i q).ret = none := by
  obtain ⟨G, hG⟩ := h.start q.headFlag []
  have hret : (ummuPermUngrant i q).ret = (i.doOp op d q.headFlag [] true true).1 := by
    rw [ummuPermUngrant, hp]
  rw [hret]
  have hop := ungrantPlan_op h.mode hp
  cases ungrantPlan_planned h hp with
  | grant => rcases hop with hc | hc <;> cases hc
  | token he h1 h2 hl hup =>
    exact ⟨(tableOp_token hG he h1 hl hup).eq_none, (doOp_token h he h1 h2 hl hup).1⟩
  | ungrant he h1 h2 hl =>
    exact ⟨(tableOp_ungrant hG he h1 hl).eq_none, (doOp_ungrant h he h1 h2 hl).1⟩

theorem ungrant_served {q : UngrantReq} (h : i.Ok) (htok : TokensOk i.tableCtx.grantedAddrMng)
    (hv : i.valid) (ha : q.Asks i) :
    (ummuPermUngrant i q).ret = none ↔ Ungrantable i.tableCtx.grantedAddrMng i q := by
  obtain ⟨G, hG⟩ := h.agrees
  have hplan := ungrantPlan_asks h.mode hv ha
  dsimp only at hplan
  rcases ungrantCheck_cases hG.segs htok ha.2 with ⟨hu, hop⟩ | ⟨hnu, hop⟩
  · rw [if_neg (by rcases hop with hc | hc <;> rw [hc] <;> decide)] at hplan
    exact ⟨fun _ => hu, fun _ => (ungrant_done h hplan).2⟩
  rw [if_pos hop] at hplan
  have : (ummuPermUngrant i q).ret = some .einval := by rw [ummuPermUngrant, hplan]
  rw [this]
  exact ⟨nofun, fun hc => absurd hc hnu⟩

/-! ## Runs -/

theorem TokensOk.retoken {S : List SegInfo} {e : SegInfo} {v : UInt32} (h : TokensOk S)
    (hup : Updatable op d e) (hv : v = d.tokenval) :
    TokensOk (S.map fun x => if x = e then tokenUpdated op v e else x) := by
  intro x hx hc
  obtain ⟨y, hy, rfl⟩ := mem_map.mp hx
  by_cases hye : y = e
  · rw [if_pos hye]
    subst hv
    rcases hup.op with ⟨rfl, -⟩ | ⟨rfl, hval⟩
    · exact .inr rfl
    left
    unfold tokenUpdated
    rw [if_pos rfl]
    unfold ummuRemoveTokenval
    split
    · exact ⟨rfl, rfl⟩
    next hne =>
    rw [if_pos (hval.resolve_left hne)]
    exact ⟨rfl, rfl⟩
  · rw [if_neg hye] at hc ⊢
    exact h y hy hc

theorem TokensOk.grant (h : i.Ok) (ht : TokensOk i.tableCtx.grantedAddrMng)
    (hrec : q.kzallocOk ∧ q.insertOk) :
    TokensOk (ummuPermGrant i q).info.tableCtx.grantedAddrMng := by
  cases hp : grantPlan i q with
  | none =>
    rw [(permGrant_none hp).2]
    exact ht
  | some od =>
    obtain ⟨op, d⟩ := od
    rw [(permGrant_some hp).2]
    have hplan := grantPlan_planned h hp
    cases hplan with
    | grant =>
      have hkz : (q.kzallocOk && q.insertOk) := by
        rw [hrec.1, hrec.2]
        rfl
      have hop : _ ∧ ((i.doOp .grant d q.headFlag q.faults q.kzallocOk q.insertOk).1 ≠ none → _) ∧ _ :=
        doOp_grant h (grantPlan_planned h hp) (.inl hkz)
      by_cases hn : (i.doOp .grant d q.headFlag q.faults q.kzallocOk q.insertOk).1 = none
      · rw [hop.2.2 hn]
        intro e he hc
        rcases SegsOk.mem_insertSeg.mp he with rfl | he
        · left
          have hc' : d.tokenCheck := hc
          unfold DataInfo.toSeg
          rw [hc']
          exact ⟨rfl, rfl⟩
        · exact ht e he hc
      · rw [hop.2.1 hn]
        exact ht
    | token he h1 h2 hl hup =>
      rw [(doOp_token h he h1 h2 hl hup).2.2]
      exact ht.retoken hup rfl
    | ungrant he h1 h2 hl =>
      rw [(doOp_ungrant h he h1 h2 hl).2.2]
      intro x hx
      exact ht x (mem_of_mem_erase hx)

theorem TokensOk.ungrant (h : i.Ok) (ht : TokensOk i.tableCtx.grantedAddrMng) (q : UngrantReq) :
    TokensOk (ummuPermUngrant i q).info.tableCtx.grantedAddrMng := by
  unfold ummuPermUngrant
  cases hp : ungrantPlan i q with
  | none => exact ht
  | some od =>
    obtain ⟨op, d⟩ := od
    have hplan := ungrantPlan_planned h hp
    cases hplan with
    | grant => rcases ungrantPlan_op h.mode hp with hc | hc <;> cases hc
    | token he h1 h2 hl hup =>
      rw [(doOp_token h he h1 h2 hl hup).2.2]
      exact ht.retoken hup rfl
    | ungrant he h1 h2 hl =>
      rw [(doOp_ungrant h he h1 h2 hl).2.2]
      intro x hx
      exact ht x (mem_of_mem_erase hx)

theorem next_valid (i : MaptInfo) (r : Req) : (i.next r).valid = i.valid := by
  have hdo : ∀ {op d hd fs kz ins}, (i.doOp op d hd fs kz ins).2.1.valid = i.valid := by
    intro op d hd fs kz ins
    unfold MaptInfo.doOp
    split
    · rfl
    · rcases ummuTableOp i.freeBit op d (i.start hd fs) with ⟨_ | e, st⟩ <;> rfl
  cases r with
  | grant q =>
    change (ummuPermGrant i q).info.valid = i.valid
    cases hp : grantPlan i q with
    | none => rw [(permGrant_none hp).2]
    | some od => rw [(permGrant_some hp).2, hdo]
  | ungrant q =>
    change (ummuPermUngrant i q).info.valid = i.valid
    unfold ummuPermUngrant
    cases hp : ungrantPlan i q with
    | none => rfl
    | some od => exact hdo

/-- In every run without a lost record: a grant whose allocations succeed is served exactly
when its range meets no recorded segment, and is then recorded, or is that of a segment it
brings a second token for; an ungrant exactly when its range is that of a recorded segment
with the token it names. The walks return no other error than a failed allocation of a level
block, and the recorded segments are pairwise disjoint. -/
theorem requests_refused_only (h0 : i₀.Init) (hv : i₀.valid = true)
    (hr : Reach (fun _ r => Req.recorded r) MaptInfo.next i₀ i) :
    let S := i.tableCtx.grantedAddrMng
    (∀ (q : GrantReq) d, q.Asks i d → q.Provided i →
      ((ummuPermGrant i q).ret = none ↔ Apart S d ∨ ∃ e ∈ S, Extends e d) ∧
      (Apart S d → ∀ t, t ∈ (ummuPermGrant i q).info.tableCtx.grantedAddrMng ↔ t = d.toSeg ∨ t ∈ S) ∧
      (∀ e ∈ S, Extends e d → (ummuPermGrant i q).info.tableCtx.grantedAddrMng =
        S.map fun x => if x = e then { e with tokenVal1 := d.tokenval, tokenCount := 2 } else x)) ∧
    (∀ q : UngrantReq, q.Asks i → ((ummuPermUngrant i q).ret = none ↔ Ungrantable S i q)) ∧
    (∀ q op d, grantPlan i q = some (op, d) →
      (ummuTableOp i.freeBit op d (i.start q.headFlag q.faults)).1 = none ∨
      (ummuTableOp i.freeBit op d (i.start q.headFlag q.faults)).1 = some .enomem) ∧
    (∀ q op d, ungrantPlan i q = some (op, d) →
      (ummuTableOp i.freeBit op d (i.start q.headFlag [])).1 = none) ∧
    S.Pairwise fun s t => s.last < t.startAddr := by
  intro S
  obtain ⟨hok, htok, hval⟩ : i.Ok ∧ TokensOk S ∧ i.valid = true := by
    refine hr.invariant (I := fun i => i.Ok ∧ TokensOk i.tableCtx.grantedAddrMng ∧ i.valid = true) ?_ ?_
    · refine ⟨h0.ok, ?_, hv⟩
      obtain ⟨expan, pre, faults, hc⟩ := h0.ctx
      rw [init_ctx hc]
      exact nofun
    · rintro i r ⟨hok, htok, hval⟩ hrec
      refine ⟨hok.next hrec.kept, ?_, (next_valid i r).trans hval⟩
      cases r with
      | grant q => exact htok.grant hok hrec
      | ungrant q => exact htok.ungrant hok q
  obtain ⟨G, hG⟩ := hok.agrees
  refine ⟨?_, ?_, ?_, ?_, hG.segs.sorted⟩
  · intro q d ha hprov
    obtain ⟨h1, h2, h3⟩ := grant_served hok htok hval ha hprov
    refine ⟨h1, ?_, h3⟩
    intro hap t
    rw [h2 hap]
    exact SegsOk.mem_insertSeg
  · intro q ha
    exact ungrant_served hok htok hval ha
  · intro q op d hp
    obtain ⟨G', hG'⟩ := hok.start q.headFlag q.faults
    cases grantPlan_planned hok hp with
    | grant => exact tableOp_grant_ret hok hp
    | token he h1 h2 hl hup => exact .inl (tableOp_token hG' he h1 hl hup).eq_none
    | ungrant he h1 h2 hl => exact .inl (tableOp_ungrant hG' he h1 hl).eq_none
  · intro q op d hp
    exact (ungrant_done hok hp).1

/-- The ungrant of what `smallGrant` granted, by its token. -/
def smallUngrant : UngrantReq where
  va := 4096
  size := 8192
  token := some 7
  headFlag := false

theorem ungrantable_small {S : List SegInfo} {i : MaptInfo}
    (h : ∃ e ∈ S, e.startAddr = smallUngrant.va % 2 ^ i.ias ∧ e.grantSize + 1 = smallUngrant.size ∧
      7 ∈ e.tokens) : Ungrantable S i smallUngrant := by
  obtain ⟨e, he, hva, hsize, htoken⟩ := h
  refine ⟨e, he, hva, hsize, fun v hv => ?_⟩
  cases hv
  exact htoken

theorem requests_refused_only_smallUngrant :
    (ummuPermUngrant ((freshInfo false).next (.grant (smallGrant true))) smallUngrant).ret = none := by
  have h := requests_refused_only (freshInfo_init false) rfl
    (Reach.init.next (show Req.recorded (.grant (smallGrant true)) from ⟨rfl, rfl⟩))
  apply (h.2.1 smallUngrant (by unfold UngrantReq.Asks; decide +kernel)).mpr
  apply ungrantable_small
  decide +kernel

end Requests

end UbDkms.Mapt
