import UbDkms.Lib.Reach
import UbDkms.Mapt.Request

/-!
# Runs of requests

Grants and ungrants served one after another. `MaptInfo.Ok`, the table agrees
with the recorded segments, holds after initialisation and is kept by every
request except one: a grant whose table is filled but whose segment cannot be
recorded (`RecordLost`).
-/

namespace UbDkms.Mapt

open Lib

inductive Req where
  | grant (q : GrantReq)
  | ungrant (q : UngrantReq)

def Req.serve (i : MaptInfo) : Req → PermOut
  | .grant q => ummuPermGrant i q
  | .ungrant q => ummuPermUngrant i q

def MaptInfo.next (i : MaptInfo) (r : Req) : MaptInfo := (r.serve i).info

/-- The grant fills the table and then cannot record the segment. -/
def RecordLost (i : MaptInfo) (q : GrantReq) : Prop :=
  ∃ d, grantPlan i q = some (.grant, d) ∧
    (ummuTableOp i.freeBit .grant d (i.start q.headFlag q.faults)).1 = none ∧
    (q.kzallocOk && q.insertOk) = false

def Req.kept (i : MaptInfo) : Req → Prop
  | .grant q => ¬RecordLost i q
  | .ungrant _ => True

structure MaptInfo.Ok (i : MaptInfo) : Prop where
  mode : i.mode = .table
  agrees : ∃ G, Agrees i.freeBit i.tableCtx.grantedAddrMng (i.start false []) G

/-! ## What a request goes on to do -/

inductive Planned (S : List SegInfo) (d : DataInfo) : GrantOp → Prop where
  | grant : d.dataLimit = d.toSeg.last → d.dataBase % 4096 = 0 → d.toSeg.last < 2 ^ 48 →
      (∀ t ∈ S, t.last < d.dataBase ∨ d.toSeg.last < t.startAddr) → Planned S d .grant
  | token {op : GrantOp} {e : SegInfo} : e ∈ S → d.dataBase = e.startAddr → d.lessOne = e.grantSize →
      d.dataLimit = e.last → Updatable op d e → Planned S d op
  | ungrant {e : SegInfo} : e ∈ S → d.dataBase = e.startAddr → d.lessOne = e.grantSize →
      d.dataLimit = e.last → Planned S d .ungrant

section Plans

variable {i : MaptInfo} {S : List SegInfo} {d : DataInfo} {op : GrantOp}

theorem grantCheck_planned (hok : SegsOk S) (hlim : d.dataLimit = d.toSeg.last)
    (ha : d.dataBase % 4096 = 0) (hb : d.toSeg.last < 2 ^ 48) (h : ummuGrantCheck S d = op)
    (hne : op ≠ .opEnd) : Planned S d op := by
  have hlast : d.toSeg.last = d.dataBase + d.lessOne := rfl
  unfold ummuGrantCheck at h
  split at h
  · next e hf =>
    obtain ⟨he, h1, h2⟩ := hok.of_match hf
    unfold ummuTableParamCheck at h
    split at h
    · next hc =>
      subst h
      simp only [Bool.and_eq_true, decide_eq_true_eq] at hc
      refine .token he h1.symm h2.symm ?_ ⟨hc.1.1.1.1, .inl ⟨rfl, hc.2⟩⟩
      rw [hlim, hlast, SegInfo.last, h1, h2]
    · exact absurd h.symm hne
  · next hf =>
    subst h
    exact .grant hlim ha hb (hok.apart_of_notExist (hlast ▸ by omega) (congrArg Prod.snd hf))
  · exact absurd h.symm hne

theorem ungrantCheck_planned (hok : SegsOk S) (h : ummuUngrantCheck S d = op)
    (hlim : ∀ e ∈ S, d.dataBase = e.startAddr → d.lessOne = e.grantSize → d.dataLimit = e.last)
    (hne : op ≠ .opEnd) : Planned S d op := by
  unfold ummuUngrantCheck at h
  split at h
  · next e hf =>
    obtain ⟨he, h1, h2⟩ := hok.of_match hf
    have hl := hlim e he h1.symm h2.symm
    unfold ummuUngrantParamCheck at h
    split at h
    · subst h; exact .ungrant he h1.symm h2.symm hl
    split at h
    · exact absurd h.symm hne
    next hck =>
    split at h
    · next hval =>
      split at h
      · subst h; exact .ungrant he h1.symm h2.symm hl
      split at h
      · subst h
        exact .token he h1.symm h2.symm hl ⟨by simpa using hck, .inr ⟨rfl, hval⟩⟩
      · exact absurd h.symm hne
    · exact absurd h.symm hne
  · exact absurd h.symm hne

theorem checkData_some {mode : MaptMode} {data size : Nat} {perm : Option MaptPerm}
    {eBit : Option EBit} {token : Option TokenInfo} {r : MaptPerm × EBit} (hm : mode = .table)
    (h : ummuCheckData mode data size perm eBit token = some r) :
    0 < size ∧ data < 2 ^ 48 ∧ data + size - 1 < 2 ^ 48 ∧ data % 4096 = 0 := by
  unfold ummuCheckData at h
  split at h
  · cases h
  next hs =>
  split at h
  · cases h
  next hr =>
  have hal : data % 4096 = 0 := by
    split at h
    · split at h
      · cases h
      split at h
      · cases h
      · next hn => exact not_not.mp fun hc => hn ⟨hm, hc⟩
    · cases h
  have hlt : ∀ {x : Nat}, x / 2 ^ maxAddressBits = 0 → x < 2 ^ 48 := fun hx => by
    rcases Nat.div_eq_zero_iff.mp hx with hz | hz
    · cases hz
    · exact hz
  simp only [not_or, not_not] at hr
  have h1 := hlt hr.1
  have h2 := hlt hr.2.1
  have h3 := hlt hr.2.2
  rw [Nat.mod_eq_of_lt (by omega)] at h3
  exact ⟨by omega, h1, h3, hal⟩

theorem grantPlan_planned {q : GrantReq} (h : i.Ok) (hp : grantPlan i q = some (op, d)) :
    Planned i.tableCtx.grantedAddrMng d op := by
  obtain ⟨G, hG⟩ := h.agrees
  unfold grantPlan at hp
  split at hp
  · cases hp
  simp only at hp
  split at hp
  · cases hp
  split at hp
  · cases hp
  next hc =>
  obtain ⟨h0, h1, h2, ha⟩ := checkData_some h.mode hc
  rw [if_neg (c := i.mode = .entry) (by rw [h.mode]; decide)] at hp
  split at hp
  · cases hp
  next hne =>
  obtain ⟨rfl, rfl⟩ := Prod.mk.inj (Option.some.inj hp)
  have hless : ∀ {n}, 0 < n → n ≤ 2 ^ 48 → (n + 2 ^ 64 - 1) % 2 ^ 64 = n - 1 := fun {n} _ _ => by
    rw [show n + 2 ^ 64 - 1 = n - 1 + 2 ^ 64 by omega, Nat.add_mod_right]
    exact Nat.mod_eq_of_lt (by omega)
  refine grantCheck_planned hG.segs ?_ ha ?_ rfl hne
  · simp only [SegInfo.last, DataInfo.toSeg, DataInfo.lessOne, ummuPermDataPreproc]
    rw [hless h0 (by omega), Nat.mod_eq_of_lt (by omega)]
    omega
  · simp only [SegInfo.last, DataInfo.toSeg, DataInfo.lessOne, ummuPermDataPreproc]
    rw [hless h0 (by omega)]
    omega

theorem ungrantPlan_planned {q : UngrantReq} (h : i.Ok) (hp : ungrantPlan i q = some (op, d)) :
    Planned i.tableCtx.grantedAddrMng d op := by
  obtain ⟨G, hG⟩ := h.agrees
  unfold ungrantPlan at hp
  simp only at hp
  split at hp
  · cases hp
  split at hp
  · cases hp
  rw [if_neg (c := i.mode = .entry) (by rw [h.mode]; decide)] at hp
  split at hp
  · cases hp
  next hne =>
  obtain ⟨rfl, rfl⟩ := Prod.mk.inj (Option.some.inj hp)
  refine ungrantCheck_planned hG.segs rfl (fun e he h1 h2 => ?_) hne
  have hb := hG.segs.bound he
  simp only [SegInfo.last] at hb ⊢
  rw [← h1, ← h2] at hb ⊢
  simp only [DataInfo.lessOne, ungrantInfo] at hb ⊢
  -- the record's range ends below 2^48, so neither sum wraps
  rw [Nat.add_assoc, show q.size + (2 ^ 64 - 1) = q.size + 2 ^ 64 - 1 by omega, Nat.add_mod,
    Nat.mod_eq_of_lt (show q.va % 2 ^ i.ias < 2 ^ 64 by omega)]
  exact Nat.mod_eq_of_lt (by omega)

end Plans

/-! ## One operation -/

section Operations

variable {i : MaptInfo} {S : List SegInfo} {d : DataInfo} {op : GrantOp} {hd : Bool} {e : SegInfo}
  {fs : List Bool} {kz ins : Bool} {fb : Bool} {st : St} {G : Ghost} {c : TableCtx}

theorem Rep.relist (h : Rep fb S st G) (hd : Bool) (fs : List Bool) (S' : List SegInfo) :
    Rep fb S' ⟨{ st.ctx with grantedAddrMng := S' }, .zero, 3, hd, [], fs⟩ G :=
  ⟨⟨h.books.blockId, h.books.levelCnt, h.books.entryCnt, h.books.zero, h.books.present,
    h.books.blockCnt, h.books.root⟩, h.kept,
    ⟨h.maps.root, h.maps.bound, h.maps.inj, h.maps.bit, h.maps.node, h.maps.placed, h.maps.child,
      h.maps.used⟩, rfl, rfl, rfl⟩

theorem MaptInfo.Ok.start (h : i.Ok) (hd : Bool) (fs : List Bool) :
    ∃ G, Agrees i.freeBit i.tableCtx.grantedAddrMng (i.start hd fs) G := by
  obtain ⟨G, hG⟩ := h.agrees
  exact ⟨G, hG.rep.congr rfl rfl, hG.tidy, hG.inv, hG.segs⟩

theorem MaptInfo.Ok.relist (hm : i.mode = .table) (hr : Rep i.freeBit S st G)
    (ht : Tidy G never never) {S' : List SegInfo} (hi : SegInv S' G.use) (hs : SegsOk S') :
    ({ i with tableCtx := { st.ctx with grantedAddrMng := S' } } : MaptInfo).Ok :=
  ⟨hm, G, hr.relist false [] S', ht, hi, hs⟩

theorem MaptInfo.Ok.of_agrees (hm : i.mode = .table) (h : Agrees i.freeBit S st G) :
    ({ i with tableCtx := st.ctx } : MaptInfo).Ok := by
  have hs := h.rep.segs
  subst hs
  exact ⟨hm, G, ⟨h.rep.books, h.rep.kept, h.rep.maps, rfl, rfl, rfl⟩, h.tidy, h.inv, h.segs⟩

theorem insertNewAddr_apart (hap : ∀ t ∈ S, t.last < d.dataBase ∨ d.toSeg.last < t.startAddr) :
    ummuInsertNewAddr S d kz ins =
      if kz = false then (some .enomem, S)
      else if ins then (none, SegsOk.insertSeg S d.toSeg) else (some .einval, S) := by
  unfold ummuInsertNewAddr mtreeInsertRange
  have hany : ¬(S.any fun x => decide (x.startAddr ≤ d.toSeg.last ∧ d.toSeg.startAddr ≤ x.last)) := by
    simp only [List.any_eq_true, decide_eq_true_eq, not_exists, not_and]
    intro t ht h1 h2
    have h3 : d.dataBase ≤ t.last := h2
    have := hap t ht
    omega
  rw [if_neg hany]
  cases ins <;> rfl

theorem deleteAddr_self (hok : SegsOk S) (he : e ∈ S) (h1 : d.dataBase = e.startAddr)
    (h2 : d.lessOne = e.grantSize) : ummuDeleteAddr S d = (none, S.erase e) := by
  unfold ummuDeleteAddr
  rw [h1, h2, hok.findSeg_self he, hok.mtreeErase_self he]

theorem tokenUpdate_self (hok : SegsOk S) (he : e ∈ S) (h1 : d.dataBase = e.startAddr)
    (h2 : d.lessOne = e.grantSize) : ummuTokenUpdate S d op =
      (none, S.map fun x => if x = e then tokenUpdated op d.tokenval e else x) := by
  unfold ummuTokenUpdate
  rw [h1, h2, hok.findSeg_self he]

theorem doOp_table (hm : i.mode = .table) : i.doOp op d hd fs kz ins =
    match ummuTableOp i.freeBit op d (i.start hd fs) with
    | (some e, st) => (some e, { i with tableCtx := st.ctx }, st.gather)
    | (none, st) =>
      match ummuUpdateInfo op st.ctx d kz ins with
      | (ret, c) => (ret, { i with tableCtx := c }, st.gather) := by
  have hne : i.mode ≠ .entry := by rw [hm]; decide
  unfold MaptInfo.doOp
  rcases ummuTableOp i.freeBit op d (i.start hd fs) with ⟨_ | e, st⟩ <;> exact if_neg hne

section

variable (h : i.Ok) (hp : Planned i.tableCtx.grantedAddrMng d .grant)
include h hp

/-- A new segment is granted and recorded, or nothing changes, or its record is lost. -/
theorem doOp_grant
    (hrec : (kz && ins) ∨ (ummuTableOp i.freeBit .grant d (i.start hd fs)).1 ≠ none) :
    (i.doOp .grant d hd fs kz ins).2.1.Ok ∧ ((i.doOp .grant d hd fs kz ins).1 ≠ none →
      (i.doOp .grant d hd fs kz ins).2.1.tableCtx.grantedAddrMng = i.tableCtx.grantedAddrMng) ∧
      ((i.doOp .grant d hd fs kz ins).1 = none →
        (i.doOp .grant d hd fs kz ins).2.1.tableCtx.grantedAddrMng =
          SegsOk.insertSeg i.tableCtx.grantedAddrMng d.toSeg) := by
  obtain ⟨G, hG⟩ := h.start hd fs
  cases hp with
  | token _ _ _ _ hup => rcases hup.op with ⟨hc, -⟩ | ⟨hc, -⟩ <;> cases hc
  | grant hlim ha hb hap =>
    have hop := tableOp_grant hG rfl hlim ha hb hap
    rw [doOp_table h.mode]
    rcases hr : ummuTableOp i.freeBit .grant d (i.start hd fs) with ⟨_ | e, st⟩
    · rw [hr] at hop hrec
      obtain ⟨G', hr', ht', hu'⟩ := hop
      obtain ⟨rfl, rfl⟩ : kz = true ∧ ins = true := by simpa using hrec
      simp only [ummuUpdateInfo, hr'.segs, insertNewAddr_apart hap]
      refine ⟨MaptInfo.Ok.relist h.mode hr' ht' ?_ (hG.segs.insert ha hb hap), fun hc => absurd rfl hc,
        fun _ => rfl⟩
      rw [hu']
      exact hG.inv.fill (hG.inv.fresh hG.segs ha hap) hb
    · rw [hr] at hop
      obtain ⟨-, G', hG', hu'⟩ := hop
      exact ⟨MaptInfo.Ok.of_agrees h.mode hG', fun _ => hG'.rep.segs, nofun⟩

theorem doOp_lost
    (hkz : (kz && ins) = false) (hfill : (ummuTableOp i.freeBit .grant d (i.start hd fs)).1 = none) :
    (i.doOp .grant d hd fs kz ins).1 ≠ none ∧ (i.doOp .grant d hd fs kz ins).2.1.freeBit = i.freeBit ∧
      (∀ t ∈ i.tableCtx.grantedAddrMng, t.last < d.dataBase ∨ d.dataBase < t.startAddr) ∧
      ∃ G, Rep i.freeBit i.tableCtx.grantedAddrMng
          ((i.doOp .grant d hd fs kz ins).2.1.start false []) G ∧
        SegInv (SegsOk.insertSeg i.tableCtx.grantedAddrMng d.toSeg) G.use ∧
        SegsOk (SegsOk.insertSeg i.tableCtx.grantedAddrMng d.toSeg) := by
  obtain ⟨G, hG⟩ := h.start hd fs
  cases hp with
  | token _ _ _ _ hup => rcases hup.op with ⟨hc, -⟩ | ⟨hc, -⟩ <;> cases hc
  | grant hlim ha hb hap =>
    have hop := tableOp_grant hG rfl hlim ha hb hap
    rw [doOp_table h.mode]
    rcases hr : ummuTableOp i.freeBit .grant d (i.start hd fs) with ⟨_ | e, st⟩
    · rw [hr] at hop
      obtain ⟨G', hr', ht', hu'⟩ := hop
      have hlist : ummuInsertNewAddr st.ctx.grantedAddrMng d kz ins =
          (if kz = false then some .enomem else some .einval, i.tableCtx.grantedAddrMng) := by
        rw [hr'.segs, insertNewAddr_apart hap]
        cases kz <;> cases ins <;> simp_all
      simp only [ummuUpdateInfo, hlist]
      have hle : d.dataBase ≤ d.toSeg.last := d.toSeg.le_last
      refine ⟨by split <;> nofun, trivial, fun t ht => ?_, G', hr'.relist false [] _, ?_,
        hG.segs.insert ha hb hap⟩
      · have := hap t ht
        omega
      · rw [hu']
        exact hG.inv.fill (hG.inv.fresh hG.segs ha hap) hb
    · rw [hr] at hfill; cases hfill

end

theorem doOp_token (h : i.Ok) (he : e ∈ i.tableCtx.grantedAddrMng)
    (h1 : d.dataBase = e.startAddr) (h2 : d.lessOne = e.grantSize) (hlim : d.dataLimit = e.last)
    (hup : Updatable op d e) :
    (i.doOp op d hd fs kz ins).1 = none ∧ (i.doOp op d hd fs kz ins).2.1.Ok ∧
      (i.doOp op d hd fs kz ins).2.1.tableCtx.grantedAddrMng = i.tableCtx.grantedAddrMng.map
        fun x => if x = e then tokenUpdated op d.tokenval e else x := by
  obtain ⟨G, hG⟩ := h.start hd fs
  have hop := tableOp_token hG he h1 hlim hup
  rw [doOp_table h.mode]
  rcases hr : ummuTableOp i.freeBit op d (i.start hd fs) with ⟨_ | er, st⟩
  · rw [hr] at hop
    obtain ⟨G', hr', ht', hu'⟩ := hop
    have hstart := (tokenUpdated_start op d.tokenval e).1
    have hlast := tokenUpdated_last op d.tokenval e
    have hupd : ummuUpdateInfo op st.ctx d kz ins = (none, { st.ctx with
        grantedAddrMng := i.tableCtx.grantedAddrMng.map
          fun x => if x = e then tokenUpdated op d.tokenval e else x }) := by
      rcases hup.op with ⟨rfl, -⟩ | ⟨rfl, -⟩ <;>
        simp only [ummuUpdateInfo, hr'.segs, tokenUpdate_self hG.segs he h1 h2]
    simp only [hupd]
    refine ⟨trivial, MaptInfo.Ok.relist h.mode hr' ht' ?_ (hG.segs.replace hstart hlast), trivial⟩
    rw [hu']
    exact hG.inv.retoken hG.segs he hstart hlast
  · rw [hr] at hop; exact hop.elim

theorem doOp_ungrant (h : i.Ok) (he : e ∈ i.tableCtx.grantedAddrMng)
    (h1 : d.dataBase = e.startAddr) (h2 : d.lessOne = e.grantSize) (hlim : d.dataLimit = e.last) :
    (i.doOp .ungrant d hd fs kz ins).1 = none ∧ (i.doOp .ungrant d hd fs kz ins).2.1.Ok ∧
      (i.doOp .ungrant d hd fs kz ins).2.1.tableCtx.grantedAddrMng =
        i.tableCtx.grantedAddrMng.erase e := by
  obtain ⟨G, hG⟩ := h.start hd fs
  have hop := tableOp_ungrant hG he h1 hlim
  rw [doOp_table h.mode]
  rcases hr : ummuTableOp i.freeBit .ungrant d (i.start hd fs) with ⟨_ | er, st⟩
  · rw [hr] at hop
    obtain ⟨G', hr', ht', hu'⟩ := hop
    simp only [ummuUpdateInfo, hr'.segs, deleteAddr_self hG.segs he h1 h2]
    refine ⟨trivial, MaptInfo.Ok.relist h.mode hr' ht' ?_ (hG.segs.erase e), trivial⟩
    rw [hu']
    exact hG.inv.erase hG.segs he
  · rw [hr] at hop; exact hop.elim

end Operations

/-! ## Requests -/

section Requests

variable {i : MaptInfo} {q : GrantReq} {d : DataInfo} {op : GrantOp}

theorem permGrant_none (hp : grantPlan i q = none) :
    (ummuPermGrant i q).ret = some .einval ∧ (ummuPermGrant i q).info = i := by
  rw [ummuPermGrant, hp]; exact ⟨rfl, rfl⟩

theorem permGrant_some (hp : grantPlan i q = some (op, d)) :
    (ummuPermGrant i q).ret = (i.doOp op d q.headFlag q.faults q.kzallocOk q.insertOk).1 ∧
      (ummuPermGrant i q).info = (i.doOp op d q.headFlag q.faults q.kzallocOk q.insertOk).2.1 := by
  rw [ummuPermGrant, hp]; exact ⟨rfl, rfl⟩

theorem grant_step (h : i.Ok) (hk : ¬RecordLost i q) :
    (ummuPermGrant i q).info.Ok ∧ ((ummuPermGrant i q).ret ≠ none →
      (ummuPermGrant i q).info.tableCtx.grantedAddrMng = i.tableCtx.grantedAddrMng) := by
  cases hp : grantPlan i q with
  | none =>
    obtain ⟨-, hi⟩ := permGrant_none hp
    rw [hi]; exact ⟨h, fun _ => rfl⟩
  | some od =>
    obtain ⟨op, d⟩ := od
    obtain ⟨hret, hi⟩ := permGrant_some hp
    rw [hret, hi]
    have hplan := grantPlan_planned h hp
    cases hplan with
    | grant =>
      have hrec : (q.kzallocOk && q.insertOk) = true ∨
          (ummuTableOp i.freeBit .grant d (i.start q.headFlag q.faults)).1 ≠ none := by
        by_contra hc
        simp only [not_or, not_not, Bool.not_eq_true] at hc
        exact hk ⟨d, hp, hc.2, hc.1⟩
      have hop := doOp_grant h (grantPlan_planned h hp) hrec
      exact ⟨hop.1, hop.2.1⟩
    | token he h1 h2 hl hup =>
      exact ⟨(doOp_token h he h1 h2 hl hup).2.1, fun hc => absurd (doOp_token h he h1 h2 hl hup).1 hc⟩
    | ungrant he h1 h2 hl =>
      exact ⟨(doOp_ungrant h he h1 h2 hl).2.1, fun hc => absurd (doOp_ungrant h he h1 h2 hl).1 hc⟩

theorem ungrant_step (h : i.Ok) (q : UngrantReq) : (ummuPermUngrant i q).info.Ok := by
  unfold ummuPermUngrant
  cases hp : ungrantPlan i q with
  | none => exact h
  | some od =>
    obtain ⟨op, d⟩ := od
    have hplan := ungrantPlan_planned h hp
    cases hplan with
    | grant => exact (doOp_grant h (ungrantPlan_planned h hp) (.inl rfl)).1
    | token he h1 h2 hl hup => exact (doOp_token h he h1 h2 hl hup).2.1
    | ungrant he h1 h2 hl => exact (doOp_ungrant h he h1 h2 hl).2.1

theorem MaptInfo.Ok.next (h : i.Ok) {r : Req} (hk : r.kept i) : (i.next r).Ok := by
  cases r with
  | grant q => exact (grant_step h hk).1
  | ungrant q => exact ungrant_step h q

/-- A grant whose record is lost reports an error, and its first address, which
no recorded segment covers, is in the table. -/
theorem RecordLost.spec (h : i.Ok) (hl : RecordLost i q) :
    (ummuPermGrant i q).ret ≠ none ∧ (ummuPermGrant i q).info.freeBit = i.freeBit ∧ ∃ s : SegInfo,
      (∀ t ∈ i.tableCtx.grantedAddrMng, t.last < s.startAddr ∨ s.startAddr < t.startAddr) ∧
      ∃ G, Rep i.freeBit i.tableCtx.grantedAddrMng ((ummuPermGrant i q).info.start false []) G ∧
        SegInv (SegsOk.insertSeg i.tableCtx.grantedAddrMng s) G.use ∧
        SegsOk (SegsOk.insertSeg i.tableCtx.grantedAddrMng s) := by
  obtain ⟨d, hp, hfill, hkz⟩ := hl
  obtain ⟨hret, hi⟩ := permGrant_some hp
  rw [hret, hi]
  obtain ⟨h1, h2, h3, h4⟩ := doOp_lost h (grantPlan_planned h hp) hkz hfill
  exact ⟨h1, h2, d.toSeg, h3, h4⟩

end Requests

/-! ## Initialisation -/

def rootCtx (expan : Bool) : TableCtx := ((emptyCtx expan).addBlock 0).markLevel 0 0 true

def rootGhost : Ghost where
  use _ _ := none
  valid _ _ := false
  loc l q := if l = 0 ∧ q = 0 then some 0 else none

variable {expan : Bool}

theorem init_ctx {pre : TableNode} {faults : List Bool} {c : TableCtx}
    (h : ummuInitKsvaMaptForTable expan pre faults = (none, c)) : c = rootCtx expan := by
  unfold ummuInitKsvaMaptForTable ummuAllocLevelBlock at h
  have hbit : findFirstZeroBit (emptyCtx expan).levelBlockBitmap 0 maptMaxLvlIdBitSize = 0 := rfl
  simp only [hbit] at h
  rw [if_neg (by decide)] at h
  simp only [Nat.zero_div] at h
  rcases allocNew_cases (St.setNode ⟨emptyCtx expan, pre, maptMaxLvlIndex, false, [], faults⟩ .stack
    { pre with nextBlock := false }) 0 with ⟨e, st', he, -, -⟩ | ⟨st', he, -, hc, -⟩
  · simp only [St.setNode, St.node, emptyCtx] at h he
    rw [he] at h; cases h
  simp only [St.setNode, St.node, emptyCtx] at h he hc
  rw [he] at h
  simp only [ummuLinkLevelBlock, St.setNode, hc, Prod.mk.injEq, true_and] at h
  exact h.symm

theorem rootCtx_xa {k : Nat} {b : MaptBlock} (h : (rootCtx expan).xa k = some b) :
    k = 0 ∧ b = ⟨fun _ => .zero, 0, stepU16 true 0, fun _ => 0⟩ := by
  obtain ⟨b', hb', rfl⟩ := modBlock_xa h
  simp only [TableCtx.addBlock, emptyCtx] at hb'
  split at hb'
  · next hk => exact ⟨hk, by rw [if_pos hk, ← Option.some.inj hb']⟩
  · cases hb'

theorem rootCtx_isSome {k : Nat} : ((rootCtx expan).xa k).isSome = decide (k = 0) := by
  rw [rootCtx, TableCtx.markLevel]
  simp only [modBlock_isSome, TableCtx.addBlock, emptyCtx]
  split <;> simp_all

theorem rootCtx_bit {id : Nat} :
    (rootCtx expan).levelBlockBitmap id = decide (id = 0) := by
  rw [rootCtx, TableCtx.markLevel]
  simp only [setBit, addBlock_bitmap, emptyCtx]
  split <;> simp_all

theorem rootCtx_slot (id i : Nat) : (rootCtx expan).slot id i = .zero := by
  unfold TableCtx.slot TableCtx.node
  split
  · next hb => rw [(rootCtx_xa hb).2]
  · rfl

theorem rootCtx_books (expan : Bool) : Books (rootCtx expan) := by
  refine ⟨fun {k b} hb => ?_, fun {k b} hb => ?_, fun {k b j} hb hj => ?_, fun _ _ => rootCtx_slot ..,
    fun {id} hid => ?_, ?_, by rw [rootCtx_bit]; rfl⟩
  · obtain ⟨rfl, rfl⟩ := rootCtx_xa hb
    exact ⟨by omega, rfl⟩
  · obtain ⟨rfl, rfl⟩ := rootCtx_xa hb
    simp only [rootCtx_bit]
    decide
  · obtain ⟨rfl, rfl⟩ := rootCtx_xa hb
    exact (count_eq_zero.mpr fun _ _ => rfl).symm
  · rw [rootCtx_bit] at hid
    rw [rootCtx_isSome]
    simp_all
  · have hone := count_switch_on (p := fun _ => false) (q := fun k => ((rootCtx expan).xa k).isSome)
      (i := 0) (n := 512) rfl (by rw [rootCtx_isSome]; rfl)
      (fun j hj => by rw [rootCtx_isSome]; simpa using hj) (by omega)
    rw [(count_eq_zero).mpr fun _ _ => rfl] at hone
    exact Eq.trans (show stepU16 true 0 = 0 + 1 by decide) hone.symm

theorem rootCtx_maps (fb expan : Bool) : Maps fb (rootCtx expan) rootGhost := by
  have hloc : ∀ {l q id}, rootGhost.loc l q = some id → l = 0 ∧ q = 0 ∧ id = 0 := fun {l q id} h => by
    simp only [rootGhost] at h
    split at h
    · next hlq => exact ⟨hlq.1, hlq.2, (Option.some.inj h).symm⟩
    · cases h
  refine ⟨rfl, fun h => ?_, fun h h' => ?_, fun {id} => ?_, fun {l q id i} h hi => ?_, nofun,
    fun {l p} h => ?_, nofun⟩
  · obtain ⟨rfl, rfl, rfl⟩ := hloc h
    omega
  · obtain ⟨rfl, rfl, -⟩ := hloc h
    obtain ⟨rfl, rfl, -⟩ := hloc h'
    exact ⟨rfl, rfl⟩
  · rw [rootCtx_bit, decide_eq_true_eq]
    constructor
    · rintro rfl; exact ⟨0, 0, rfl⟩
    · rintro ⟨l, q, h⟩; exact (hloc h).2.2
  · rw [rootCtx_slot]
    exact ⟨fun _ => rfl, nofun, nofun, nofun, nofun⟩
  · obtain ⟨id, hid⟩ := Option.isSome_iff_exists.mp h
    exact absurd (hloc hid).1 (Nat.succ_ne_zero l)

theorem rootGhost_tidy : Tidy rootGhost never never := by
  refine ⟨nofun, fun {l q} h0 _ h => ?_⟩
  obtain ⟨id, hid⟩ := Option.isSome_iff_exists.mp h
  simp only [rootGhost] at hid
  split at hid
  · next hlq => omega
  · cases hid

structure MaptInfo.Init (i : MaptInfo) : Prop where
  mode : i.mode = .table
  ctx : ∃ expan pre faults, ummuInitKsvaMaptForTable expan pre faults = (none, i.tableCtx)

theorem MaptInfo.Init.ok {i : MaptInfo} (h : i.Init) : i.Ok := by
  obtain ⟨expan, pre, faults, hc⟩ := h.ctx
  have hctx := init_ctx hc
  refine ⟨h.mode, rootGhost, ⟨?_, ?_, ?_, rfl, rfl, rfl⟩, rootGhost_tidy, ?_, ?_⟩
  · rw [MaptInfo.start, hctx]; exact rootCtx_books expan
  · intro k hk hne
    rw [MaptInfo.start, hctx, rootCtx_isSome, decide_eq_true_eq] at hk
    exact absurd hk hne
  · rw [MaptInfo.start, hctx]; exact rootCtx_maps _ expan
  · rw [hctx]
    exact ⟨nofun, nofun, nofun, nofun, nofun, nofun⟩
  · rw [hctx]
    exact ⟨nofun, nofun, .nil⟩

theorem MaptInfo.Init.reach_ok {i₀ i : MaptInfo} (h : i₀.Init)
    (hr : Reach (fun i r => Req.kept i r) MaptInfo.next i₀ i) : i.Ok :=
  hr.invariant h.ok fun _ _ hi hk => hi.next hk

end UbDkms.Mapt
