import UbDkms.Unic.IpTracks

/-!
# A query of the manager's addresses

`unic_query_ip_addr` asks for the addresses page by page. What it has collected when it
stops, also after an error, is taken for the whole list of the manager.
-/

namespace UbDkms.Unic

open Lib List

namespace IpTable

/-- The answer to a request from `index` on: `size` addresses, as far as there are that many, and
the index of the last one. -/
def answer (ips : List IpKey) (size index : Nat) : List IpKey × Nat :=
  ((ips.drop index).take size, index + ((ips.drop index).take size).length - 1)

/-- The first rounds of the query, answered from the list `ips` with pages of the given sizes;
`others` is what notifications and the stack do before each. -/
def rounds (others : Nat → IpTable → IpTable) (ips : List IpKey) (size : Nat → Nat) :
    Nat → IpTable → IpTable
  | 0, t => t
  | n + 1, t =>
    let t := others n (rounds others ips size n t)
    t.ctrlqQueryIp (t.querying.map fun q => answer ips (size n) q.ipIndex)

/-- A round in which an allocation fails: the addresses `ips` of the response were taken in, and
`half` only into `ip_list`, when the second node could not be allocated. -/
def ctrlqQueryIpNoMem (t : IpTable) (ips : List IpKey) (half : Option IpKey) : IpTable :=
  match t.querying with
  | none => t
  | some q =>
    if q.finished then t
    else
      let l := ips.foldl updateCtrlqIpList (t.ipList, q.list)
      { t with
        ipList := match half with
          | none => l.1
          | some x => (updateCtrlqIpList l x).1
        querying := some { q with list := l.2, finished := true } }

inductive QueryAct where
  | act (a : Act)
  | noMem (ips : List IpKey) (half : Option IpKey)

def queryAct (t : IpTable) : QueryAct → IpTable
  | .act a => t.act a
  | .noMem ips half => t.ctrlqQueryIpNoMem ips half

/-! ## Completeness -/

/-- Every page is full, up to the last address. -/
def FullPages (ips : List IpKey) (size : Nat → Nat) : Prop :=
  ∀ r, 4 * r < ips.length → min 4 (ips.length - 4 * r) ≤ size r

/-- What the query has collected of `ips` after `n` rounds. -/
structure Collects (ips : List IpKey) (size : Nat → Nat) (n : Nat) (q : IpQuery) : Prop where
  going : q.finished = false →
    keys q.list = ips.take (4 * n) ∧ q.ipIndex = 4 * n ∧ q.cnt = n ∧ n < 32 ∧ 4 * n ≤ ips.length ∧
      ∀ r, r < n → 4 ≤ size r
  done : q.finished = true → (keys q.list = ips ↔ FullPages ips size)

variable {ips : List IpKey} {q : IpQuery} {t : IpTable} {size : Nat → Nat}

theorem keys_response (ips : List IpKey) (l : IpList × IpList) :
    keys (ips.foldl updateCtrlqIpList l).2 = keys l.2 ++ ips := by
  induction ips generalizing l with
  | nil => exact (append_nil _).symm
  | cons x ips ih => simp [ih, updateCtrlqIpList, Lib.keys]

theorem Collects.round (hn : ips.length ≤ 128) {n : Nat} (hsize : size n ≤ 4)
    (h : Collects ips size n q) (hq : t.querying = some q) :
    ∃ q', (t.ctrlqQueryIp (some (answer ips (size n) q.ipIndex))).querying = some q' ∧
      Collects ips size (n + 1) q' := by
  unfold ctrlqQueryIp
  rw [hq]
  dsimp only
  split
  · next hfin => exact ⟨q, hq, fun hgo => absurd (hfin.symm.trans hgo) nofun, h.done⟩
  next hfin =>
  obtain ⟨hkeys, hidx, hcnt, hlt, hle, hfull⟩ := h.going (Bool.eq_false_iff.mpr hfin)
  have hlen : (answer ips (size n) q.ipIndex).1.length = min (size n) (ips.length - 4 * n) := by
    simp [answer, hidx]
  -- the pages before and this one
  have hall : keys ((answer ips (size n) q.ipIndex).1.foldl updateCtrlqIpList (t.ipList, q.list)).2 =
      ips.take (4 * n + size n) := by
    rw [keys_response, hkeys, take_add, ← hidx]
    rfl
  have hbefore : ∀ r, r < n → min 4 (ips.length - 4 * r) ≤ size r := fun r hr =>
    (Nat.min_le_left _ _).trans (hfull r hr)
  refine ⟨_, rfl, ?_⟩
  split
  · -- a page that is not full is the last one
    next hne =>
    refine ⟨nofun, fun _ => ?_⟩
    rw [hall, take_eq_self_iff]
    constructor
    · intro hend r hr
      rcases Nat.lt_trichotomy r n with h | rfl | h
      · exact hbefore r h
      · omega
      · omega
    · intro hpages
      by_cases hmore : 4 * n < ips.length
      · have := hpages n hmore
        omega
      · omega
  next heq =>
  have hlast : (answer ips (size n) q.ipIndex).2 =
    q.ipIndex + (answer ips (size n) q.ipIndex).1.length - 1 := rfl
  have hs : size n = 4 := by omega
  have hall := hall.trans (congrArg (take · ips) (show 4 * n + size n = 4 * (n + 1) by omega))
  refine ⟨fun hgo => ?_, fun hdone => ?_⟩
  · dsimp only at hgo
    rw [Bool.not_eq_false', decide_eq_true_iff] at hgo
    refine ⟨hall, by dsimp only; omega, by dsimp only; omega, by omega, by omega, fun r hr => ?_⟩
    rcases Nat.lt_succ_iff_lt_or_eq.mp hr with h | rfl
    · exact hfull r h
    · exact hs.ge
  · dsimp only at hdone
    rw [Bool.not_eq_true', decide_eq_false_iff_not] at hdone
    refine iff_of_true (hall.trans (take_of_length_le (by omega))) fun r hr => ?_
    rcases Nat.lt_succ_iff_lt_or_eq.mp (show r < n + 1 by omega) with h | rfl
    · exact hbefore r h
    · omega

theorem rounds_collect {others : Nat → IpTable → IpTable}
    (ho : ∀ n t, (others n t).querying = t.querying) (hn : ips.length ≤ 128)
    (hsize : ∀ n, size n ≤ 4) (h0 : t.querying = some {}) (n : Nat) :
    ∃ q, (rounds others ips size n t).querying = some q ∧ Collects ips size n q := by
  induction n with
  | zero => exact ⟨{}, h0, fun _ => ⟨rfl, rfl, rfl, by decide, Nat.zero_le _, nofun⟩, nofun⟩
  | succ n ih =>
    obtain ⟨q, hq, hc⟩ := ih
    have hq' := (ho n _).trans hq
    dsimp only [rounds]
    rw [hq']
    exact hc.round hn (hsize n) hq'

/-! ## A query that stops -/

theorem Tracked.noMem (h : Tracked t) (ips : List IpKey) (half : Option IpKey) :
    Tracked (t.ctrlqQueryIpNoMem ips half) := by
  unfold ctrlqQueryIpNoMem
  split
  · exact h
  next q hq =>
  obtain ⟨hk, p, hp, hl⟩ := h.query hq
  split
  · exact h
  obtain ⟨p', hp', hl'⟩ := hp.response ips hl
  cases half with
  | none => exact .ofQuery rfl ⟨⟨hk.nodup, hk.state, hk.planned⟩, p', hp', hl'⟩
  | some x =>
    refine .ofQuery rfl ⟨⟨hk.nodup, hk.state, hk.planned⟩, _, hp'.updateCtrlqIpList (x := x), ?_⟩
    intro y hy
    by_cases hyx : y = x
    · rw [hyx, Function.update_self]
    · rw [Function.update_of_ne hyx]
      exact hl' y hy

/-- The plan after an action. No function of the driver reads it. -/
def planAfter (p : IpKey → Bool) : QueryAct → IpKey → Bool
  | .act (.notify cmd x) => plan p cmd x
  | _ => p

theorem queryAct_plan (t : IpTable) (p : IpKey → Bool) (a : QueryAct) :
    { t with planned := p }.queryAct a = { t.queryAct a with planned := planAfter p a } := by
  cases a with
  | noMem ips half =>
    dsimp only [queryAct, ctrlqQueryIpNoMem, planAfter]
    split
    · rfl
    · split <;> rfl
  | act a =>
    cases a with
    | notify cmd x =>
      dsimp only [queryAct, act, handleNotifyIpEvent, planAfter]
      split
      · rfl
      · cases cmd with
        | invalid => rfl
        | add | del =>
          dsimp only
          split <;> rfl
    | queryStart =>
      dsimp only [queryAct, act, planAfter]
      split <;> rfl
    | queryIp resp =>
      dsimp only [queryAct, act, ctrlqQueryIp, planAfter]
      split
      · rfl
      split
      · rfl
      cases resp <;> rfl
    | queryEnd =>
      dsimp only [queryAct, act, queryEnd, planAfter]
      split
      · rfl
      · split <;> rfl
    | stackAdd x | stackDel x =>
      dsimp only [queryAct, act, updateStackIpAddr, planAfter]
      cases t.stack x <;> cases t.ipList.lookup x <;> rfl

/-- Whatever the manager answered, the list tracks some plan. -/
theorem Tracked.queryAct {p : IpKey → Bool} (h : Tracked { t with planned := p }) (a : QueryAct) :
    ∃ p', Tracked { t.queryAct a with planned := p' } := by
  have hplan : ∀ {p}, Tracked ({ t with planned := p }.queryAct a) →
      ∃ p', Tracked { t.queryAct a with planned := p' } := fun h => ⟨_, queryAct_plan t _ a ▸ h⟩
  by_cases hend : a = .act .queryEnd
  · subst hend
    cases hq : t.querying with
    | none =>
      refine ⟨p, ?_⟩
      rwa [IpTable.queryAct, IpTable.act, IpTable.queryEnd, hq]
    | some q =>
      -- the plan it tracks is what was collected and the notifications
      obtain ⟨hk, pe, hp⟩ := h.query (q := q) hq
      have h' : Tracked { t with planned := fun x =>
          (t.tmpIpList.lookup x).elim (decide (x ∈ keys q.list)) fun st => decide (st = .toAdd) } :=
        .ofQuery hq ⟨⟨hk.nodup, hk.state, fun x st hst => by dsimp only at hst ⊢; rw [hst]; rfl⟩, pe, hp⟩
      refine hplan (h'.queryEnd fun q' hq' _ x hx => ?_)
      cases hq.symm.trans hq'
      dsimp only
      rw [lookup_eq_none.mpr hx, Option.elim_none, decide_eq_true_iff]
  · refine hplan (p := p) ?_
    cases a with
    | noMem ips half => exact h.noMem ips half
    | act a =>
      refine h.act ?_
      cases a with
      | queryEnd => exact absurd rfl hend
      | _ => trivial

/-- The addresses of a response. -/
def QueryAct.addresses : QueryAct → List IpKey
  | .act (.queryIp (some (ips, _))) => ips
  | .noMem ips _ => ips
  | _ => []

/-- The state a notification asks for. -/
def QueryAct.word : QueryAct → Option (IpKey × AddrState)
  | .act (.notify .add y) => some (y, .toAdd)
  | .act (.notify .del y) => some (y, .toDel)
  | _ => none

/-- What the last notification of `x` asked for. -/
def notified (x : IpKey) (acts : List QueryAct) : Option AddrState :=
  acts.foldl (fun o a => match a.word with
    | some (y, st) => if x = y then some st else o
    | none => o) none

/-- Requests are made until the query stops; its end is looked at after these actions. -/
def Asks (t : IpTable) : QueryAct → Prop
  | .act (.queryIp _) | .noMem _ _ => ∀ q, t.querying = some q → q.finished = false
  | .act .queryEnd => False
  | _ => True

/-- What a query knows after the actions `past`. -/
structure Knows (past : List QueryAct) (t : IpTable) : Prop where
  tracked : ∃ p, Tracked { t with planned := p }
  query : ∃ q, t.querying = some q ∧ ∀ x, x ∈ keys q.list ↔ ∃ a ∈ past, x ∈ a.addresses
  tmp : ∀ x, t.tmpIpList.lookup x = notified x past

/-- A step of the query takes in the addresses of a response, or keeps a notification. -/
theorem queryAct_query {a : QueryAct} (hq : t.querying = some q) (ha : t.Asks a) :
    (∃ q', (t.queryAct a).querying = some q' ∧ keys q'.list = keys q.list ++ a.addresses) ∧
      (t.queryAct a).tmpIpList = match a.word with
        | some (y, st) => alter (fun _ => some st) y t.tmpIpList
        | none => t.tmpIpList := by
  have hnil : keys q.list = keys q.list ++ [] := (append_nil _).symm
  cases a with
  | noMem ips half =>
    dsimp only [queryAct, ctrlqQueryIpNoMem]
    rw [hq]
    dsimp only
    rw [ha q hq]
    exact ⟨⟨_, rfl, keys_response ips (t.ipList, q.list)⟩, rfl⟩
  | act a =>
    cases a with
    | queryEnd => cases ha
    | queryStart =>
      dsimp only [queryAct, act]
      rw [hq]
      exact ⟨⟨q, hq, hnil⟩, rfl⟩
    | queryIp resp =>
      dsimp only [queryAct, act, ctrlqQueryIp]
      rw [hq]
      dsimp only
      rw [ha q hq]
      cases resp with
      | none => exact ⟨⟨_, rfl, hnil⟩, rfl⟩
      | some r =>
        refine ⟨⟨_, rfl, ?_⟩, rfl⟩
        split <;> exact keys_response r.1 (t.ipList, q.list)
    | notify cmd y =>
      dsimp only [queryAct, act, handleNotifyIpEvent]
      rw [hq]
      refine ⟨⟨q, rfl, hnil⟩, ?_⟩
      cases cmd with
      | add => exact updateTmpIpList_add ..
      | del => exact updateTmpIpList_del ..
      | invalid => rfl
    | stackAdd y =>
      dsimp only [queryAct, act]
      split
      · exact ⟨⟨q, hq, hnil⟩, rfl⟩
      · obtain ⟨-, h1, h2, -⟩ := updateStackIpAddr_frame t .toAdd y
        exact ⟨⟨q, h2.trans hq, hnil⟩, h1⟩
    | stackDel y =>
      dsimp only [queryAct, act]
      split
      · obtain ⟨-, h1, h2, -⟩ := updateStackIpAddr_frame t .toDel y
        exact ⟨⟨q, h2.trans hq, hnil⟩, h1⟩
      · exact ⟨⟨q, hq, hnil⟩, rfl⟩

theorem Knows.step {past : List QueryAct} (h : Knows past t) {a : QueryAct} (ha : t.Asks a) :
    Knows (past ++ [a]) (t.queryAct a) := by
  obtain ⟨p, hp⟩ := h.tracked
  obtain ⟨q, hq, hlist⟩ := h.query
  obtain ⟨⟨q', hq', hkeys⟩, htmp⟩ := queryAct_query hq ha
  have hnodup := (hp.query (q := q) hq).1.nodup
  refine ⟨hp.queryAct a, ⟨q', hq', fun x => ?_⟩, fun x => ?_⟩
  · simp [hkeys, hlist, or_and_right, exists_or]
  · rw [htmp, notified, foldl_append, foldl_cons, foldl_nil, ← notified, ← h.tmp]
    cases a.word with
    | none => rfl
    | some w => exact lookup_alter _ hnodup

theorem Knows.run {past acts : List QueryAct} (h : Knows past t)
    (hacts : Reach.Along Asks IpTable.queryAct t acts) :
    Knows (past ++ acts) (acts.foldl IpTable.queryAct t) := by
  induction acts generalizing past t with
  | nil => rwa [append_nil]
  | cons a acts ih =>
    have := ih (h.step hacts.1) hacts.2
    rwa [append_assoc] at this

theorem Knows.kept {past : List QueryAct} (h : Knows past t) (hq : t.querying = some q)
    (hf : q.finished = true) {x : IpKey} (hdel : notified x past ≠ some .toDel) :
    (∃ st, t.queryEnd.ipList.lookup x = some st ∧ st ≠ .toDel) ↔
      notified x past = some .toAdd ∨ ∃ a ∈ past, x ∈ a.addresses := by
  obtain ⟨plan, htr⟩ := h.tracked
  obtain ⟨hk, p, hp, hl⟩ := htr.query (q := q) hq
  obtain ⟨q', hq', hgiven⟩ := h.query
  cases hq.symm.trans hq'
  have hm := ((hp.dropUnplanned hl).merge hk.nodup hk.state).look x
  have hend : t.queryEnd.ipList =
      t.tmpIpList.foldl mergeTmp (sweep (dropUnplanned q.list) t.ipList) := by
    unfold IpTable.queryEnd
    rw [hq]
    dsimp only
    rw [if_pos hf]
    rfl
  have henc : ∀ b s, (∃ st, enc b s = some st ∧ st ≠ .toDel) ↔ b = true := by
    intro b s
    cases b <;> cases s <;> simp [enc]
  rw [hend]
  rw [hm, henc, ← hgiven, ← h.tmp]
  rw [← h.tmp] at hdel
  cases hw : t.tmpIpList.lookup x with
  | none => simp
  | some st =>
    have hst : st = .toAdd := by
      have := hk.state (x, st) (mem_of_lookup hw)
      cases st <;> simp_all
    simp [hst]

/-- Reached by any run, a query has just been started. -/
structure Started (planned : IpKey → Bool) (t : IpTable) : Prop where
  reach : Reach (fun _ _ => True) queryAct (IpTable.init planned) t
  query : t.querying = some {}
  tmp : t.tmpIpList = []

/-- A query whose requests are answered from a list of up to `UNIC_IP_TABLE_SIZE` addresses in pages
of up to four stops within 32 rounds, with the whole list exactly when every page is full; and when
a query stops, failed or not, an address whose last notification was not its deletion is kept,
neither removed nor set to `TO_DEL`, exactly when it was announced again or in a response. -/
theorem query_collects_keeps (hn : ips.length ≤ 128) (hsize : ∀ n, size n ≤ 4) :
    (∀ (others : Nat → IpTable → IpTable) (t : IpTable),
      (∀ n t, (others n t).querying = t.querying) → t.querying = some {} →
      ∃ q, (rounds others ips size 32 t).querying = some q ∧ q.finished = true ∧
        (keys q.list = ips ↔ FullPages ips size)) ∧
    (∀ planned t, Started planned t → ∀ acts, Reach.Along Asks queryAct t acts →
      ∀ q, (acts.foldl queryAct t).querying = some q → q.finished = true →
      ∀ x, notified x acts ≠ some .toDel →
        ((∃ st, (acts.foldl queryAct t).queryEnd.ipList.lookup x = some st ∧ st ≠ .toDel) ↔
          notified x acts = some .toAdd ∨ ∃ a ∈ acts, x ∈ a.addresses)) := by
  constructor
  · intro others t ho h0
    obtain ⟨q, hq, hc⟩ := rounds_collect ho hn hsize h0 32
    have hf : q.finished := by
      by_contra hne
      obtain ⟨-, -, -, hlt, -⟩ := hc.going (Bool.eq_false_iff.mpr hne)
      omega
    exact ⟨q, hq, hf, hc.done hf⟩
  · intro planned t hs acts hacts q hq hf x hdel
    have htr := hs.reach.invariant (I := fun t => ∃ p, Tracked { t with planned := p })
      ⟨planned, Tracked.init planned⟩ fun t a ⟨_, h⟩ _ => h.queryAct a
    have h0 : Knows [] t := ⟨htr, ⟨{}, hs.query, by simp⟩, by simp [hs.tmp, notified]⟩
    have hk : Knows ([] ++ acts) (acts.foldl queryAct t) := h0.run hacts
    exact hk.kept hq hf hdel

def someIps (n : Nat) : List IpKey := (range n).map fun i => ⟨BitVec.ofNat 128 i, 24⟩

/-- Five addresses in two pages; and the first request brings four, the second fails. -/
theorem query_collects_keeps_five :
    (∃ q, (rounds (fun _ t => t) (someIps 5) (fun _ => 4) 32 (IpTable.init fun _ => true)).querying =
      some q ∧ keys q.list = someIps 5) ∧
    let acts : List QueryAct := [.act (.queryIp (some (someIps 4, 3))), .act (.queryIp none)]
    ∃ st, (acts.foldl queryAct (IpTable.init fun _ => true)).queryEnd.ipList.lookup ⟨1, 24⟩ = some st ∧
      st ≠ .toDel := by
  obtain ⟨hall, hkept⟩ := @query_collects_keeps (someIps 5) (fun _ => 4) (by decide) fun _ => le_rfl
  obtain ⟨q, hq, -, hiff⟩ := hall (fun _ t => t) (IpTable.init fun _ => true) (fun _ _ => rfl) rfl
  refine ⟨⟨q, hq, hiff.mpr fun r _ => Nat.min_le_left _ _⟩, ?_⟩
  intro acts
  have hacts : Reach.Along Asks queryAct (IpTable.init fun _ => true) acts :=
    ⟨fun q hq => by cases hq; rfl, fun q hq => by cases hq; rfl, trivial⟩
  exact (hkept _ _ ⟨.init, rfl, rfl⟩ acts hacts _ rfl rfl ⟨1, 24⟩ (by decide)).mpr
    (.inr ⟨_, mem_cons_self, by decide⟩)

/-- An address that the manager plans and the stack has; the next query fails at once. And a manager
of five addresses that answers in pages of two is asked once. -/
theorem failed_query_deletes :
    ((oneIp.foldl IpTable.act (IpTable.init (· == ⟨1, 24⟩))).ipList.lookup ⟨1, 24⟩ = some .active ∧
      ([Act.queryStart, .queryIp none, .queryEnd].foldl IpTable.act
        (oneIp.foldl IpTable.act (IpTable.init (· == ⟨1, 24⟩)))).ipList.lookup ⟨1, 24⟩ =
        some .toDel) ∧
    ((rounds (fun _ t => t) (someIps 5) (fun _ => 2) 32 (IpTable.init fun _ => true)).querying.map
      fun q => Lib.keys q.list) = some (someIps 2) := by
  decide +kernel

end IpTable

end UbDkms.Unic
