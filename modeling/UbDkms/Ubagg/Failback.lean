import UbDkms.Lib.Reach
import Mathlib.Data.List.Nodup
import Mathlib.Tactic

/-!
# Failback

`ubagg_failback.c`: a failback request is passed on to the user contexts of the
node, and a collection of their reports is kept in `fb_list` until all have come
or its session times out; then one response goes to the requester.

A report is matched with its collection by a key that is built from the report.
The key of a request has the source EID of the requester, that of a report has a
zero in its place.
-/

namespace UbDkms.Ubagg

open Lib List

/-- `struct fb_task`, by which collections are told apart (`fb_key_equal`). -/
structure FbTask where
  requestId : Nat
  peerNodeId : Nat
  srcEid : Nat
  vjettyId : Nat
  pjettyIdx : Nat
  newPjettyId : Nat
  deriving DecidableEq

/-- `struct fb_result`. -/
structure FbResult where
  requestId : Nat
  peerNodeId : Nat
  vjettyId : Nat
  pjettyIdx : Nat
  newPjettyId : Nat
  result : Int
  deriving DecidableEq

/-- `struct fb_collect_ctx`; `session` is the number of its session. -/
structure FbCollect where
  task : FbTask
  srcId : Nat
  needCnt : Nat
  doneCnt : Nat
  result : Int
  session : Nat
  deriving DecidableEq

/-- A response sent with `fb_send_resp`, to `task.srcEid`; `session` is that of the collection it
ends, if there is one. -/
structure FbResp where
  session : Option Nat
  task : FbTask
  srcId : Nat
  result : Int
  deriving DecidableEq

structure Fb where
  fbList : List FbCollect := []
  nextId : Nat := 0
  responses : List FbResp := []

def enoent : Int := -2
def enomem : Int := -12
def etimedout : Int := -110
def ealready : Int := -114

/-- What becomes of a request: whether there is a device, how many user contexts there are, whether
`ctx` and its session can be allocated, and what `nl_send_notify` returns. -/
structure FbChance where
  hasDevice : Bool
  ucontexts : Nat
  allocOk : Bool
  sessionOk : Bool
  notify : Int

inductive FbAct where
  | req (task : FbTask) (srcId : Nat) (chance : FbChance)
  | report (r : FbResult)
  | complete (session : Nat)
  | timeout (session : Nat)

/-- The key that `fb_handle_result` builds; its `src_eid` stays zero. -/
def FbResult.key (r : FbResult) : FbTask :=
  ⟨r.requestId, r.peerNodeId, 0, r.vjettyId, r.pjettyIdx, r.newPjettyId⟩

def FbCollect.take (c : FbCollect) (result : Int) : FbCollect :=
  { c with result := if c.result = 0 ∧ result ≠ 0 then result else c.result, doneCnt := c.doneCnt + 1 }

namespace Fb

variable (s : Fb)

def sendResp (r : FbResp) : Fb := { s with responses := s.responses ++ [r] }

def del (session : Nat) : Fb := { s with fbList := s.fbList.filter (·.session ≠ session) }

/-- `fb_complete`. -/
def fbComplete (c : FbCollect) : Fb :=
  (s.del c.session).sendResp
    ⟨some c.session, c.task, c.srcId, if c.doneCnt = c.needCnt then c.result else etimedout⟩

/-- `fb_req_msg` and `fb_create`. -/
def fbReqMsg (task : FbTask) (srcId : Nat) (chance : FbChance) : Fb :=
  if chance.hasDevice = false ∨ chance.ucontexts = 0 then s.sendResp ⟨none, task, srcId, 0⟩
  else if chance.allocOk = false then s.sendResp ⟨none, task, srcId, enomem⟩
  else if s.fbList.any (·.task = task) then s.sendResp ⟨none, task, srcId, ealready⟩
  else if chance.sessionOk = false then s.sendResp ⟨none, task, srcId, enomem⟩
  else
    let c : FbCollect := ⟨task, srcId, chance.ucontexts, 0, 0, s.nextId⟩
    let s := { s with fbList := s.fbList ++ [c], nextId := s.nextId + 1 }
    if chance.notify = 0 then s
    else s.fbComplete { c with result := chance.notify, doneCnt := c.needCnt }

/-- `fb_handle_result` up to the completion of the session. -/
def fbHandleResult (r : FbResult) : Fb × Int :=
  match s.fbList.find? (·.task = r.key) with
  | none => (s, enoent)
  | some c =>
    if c.needCnt ≤ c.doneCnt then (s, ealready)
    else ({ s with fbList := s.fbList.map fun d => if d.session = c.session then d.take r.result else d }, 0)

def next (s : Fb) : FbAct → Fb
  | .req task srcId chance => s.fbReqMsg task srcId chance
  | .report r => (s.fbHandleResult r).1
  | .complete j =>
    match s.fbList.find? (·.session = j) with
    | some c => if c.doneCnt = c.needCnt then s.fbComplete c else s
    | none => s
  | .timeout j =>
    match s.fbList.find? (·.session = j) with
    | some c => s.fbComplete c
    | none => s

def code (s : Fb) : FbAct → Option Int
  | .report r => some (s.fbHandleResult r).2
  | _ => none

def respOf (j : Nat) : List FbResp := s.responses.filter (·.session = some j)

end Fb

/-! ## A collection among others -/

structure FbOk (s : Fb) : Prop where
  tasks : (s.fbList.map (·.task)).Nodup
  sessions : (s.fbList.map (·.session)).Nodup
  old : ∀ c ∈ s.fbList, c.session < s.nextId
  answered : ∀ r ∈ s.responses, ∀ j, r.session = some j → j < s.nextId

def firstNonzero (vals : List Int) : Int := (vals.find? (· ≠ 0)).getD 0

theorem firstNonzero_append (vals : List Int) (r : Int) :
    firstNonzero (vals ++ [r]) =
      if firstNonzero vals = 0 ∧ r ≠ 0 then r else firstNonzero vals := by
  unfold firstNonzero
  rw [List.find?_append]
  cases hv : vals.find? (· ≠ 0) with
  | none => by_cases hr : r = 0 <;> simp [hr]
  | some v =>
    have hv0 : v ≠ 0 := by simpa using List.find?_some hv
    simp [hv0]

section Steps

variable {s : Fb} {j : Nat} {c : FbCollect}

section

variable (h : FbOk s)
include h

theorem FbOk.sendResp {r : FbResp} (hr : ∀ j, r.session = some j → j < s.nextId) :
    FbOk (s.sendResp r) := by
  refine ⟨h.tasks, h.sessions, h.old, fun x hx => ?_⟩
  rcases mem_append.mp hx with hx | hx
  · exact h.answered x hx
  · rw [mem_singleton.mp hx]
    exact hr

theorem FbOk.fbComplete (hc : c.session < s.nextId) : FbOk (s.fbComplete c) := by
  have hdel : FbOk (s.del c.session) :=
    ⟨h.tasks.sublist (filter_sublist.map _), h.sessions.sublist (filter_sublist.map _),
      fun d hd => h.old d (mem_filter.mp hd).1, h.answered⟩
  refine hdel.sendResp fun k hk => ?_
  cases hk
  exact hc

theorem FbOk.next {a : FbAct} : FbOk (s.next a) := by
  have hplain : ∀ t i v, FbOk (s.sendResp ⟨none, t, i, v⟩) := fun t i v => h.sendResp nofun
  unfold Fb.next
  cases a with
  | req task srcId chance =>
    dsimp only
    unfold Fb.fbReqMsg
    split
    · exact hplain _ _ _
    split
    · exact hplain _ _ _
    split
    · exact hplain _ _ _
    next hnew =>
    split
    · exact hplain _ _ _
    have hadd : FbOk { s with
        fbList := s.fbList ++ [⟨task, srcId, chance.ucontexts, 0, 0, s.nextId⟩], nextId := s.nextId + 1 } := by
      refine ⟨?_, ?_, fun d hd => ?_, fun r hr k hk => Nat.lt_succ_of_lt (h.answered r hr k hk)⟩
      · rw [map_append, nodup_append]
        refine ⟨h.tasks, nodup_singleton _, fun x hx y hy hxy => hnew ?_⟩
        obtain ⟨d, hd, rfl⟩ := mem_map.mp hx
        rw [map_singleton, mem_singleton] at hy
        exact any_eq_true.mpr ⟨d, hd, decide_eq_true (hxy.trans hy)⟩
      · rw [map_append, nodup_append]
        refine ⟨h.sessions, nodup_singleton _, fun x hx y hy hxy => ?_⟩
        obtain ⟨d, hd, rfl⟩ := mem_map.mp hx
        rw [map_singleton, mem_singleton] at hy
        exact absurd (hxy.trans hy) (Nat.ne_of_lt (h.old d hd))
      · rcases mem_append.mp hd with hd | hd
        · exact Nat.lt_succ_of_lt (h.old d hd)
        · rw [mem_singleton.mp hd]
          exact Nat.lt_succ_self _
    split
    · exact hadd
    · exact hadd.fbComplete (Nat.lt_succ_self _)
  | report r =>
    dsimp only
    unfold Fb.fbHandleResult
    split
    · exact h
    next c _ =>
    split
    · exact h
    have hsame : ∀ d : FbCollect, (if d.session = c.session then d.take r.result else d).task = d.task ∧
        (if d.session = c.session then d.take r.result else d).session = d.session := by
      intro d
      split <;> exact ⟨rfl, rfl⟩
    refine ⟨?_, ?_, fun d hd => ?_, h.answered⟩
    · rw [map_map]
      refine (map_congr_left fun d _ => (hsame d).1).symm ▸ h.tasks
    · rw [map_map]
      refine (map_congr_left fun d _ => (hsame d).2).symm ▸ h.sessions
    · obtain ⟨d', hd', rfl⟩ := mem_map.mp hd
      rw [(hsame d').2]
      exact h.old d' hd'
  | complete k =>
    dsimp only
    split
    · next c hc =>
      split
      · exact h.fbComplete (h.old c (mem_of_find?_eq_some hc))
      · exact h
    · exact h
  | timeout k =>
    dsimp only
    split
    · next c hc => exact h.fbComplete (h.old c (mem_of_find?_eq_some hc))
    · exact h

theorem FbOk.eq_of_task {c d : FbCollect} (hc : c ∈ s.fbList) (hd : d ∈ s.fbList)
    (heq : c.task = d.task) : c = d :=
  inj_on_of_nodup_map h.tasks hc hd heq

theorem FbOk.eq_of_session {c d : FbCollect} (hc : c ∈ s.fbList) (hd : d ∈ s.fbList)
    (heq : c.session = d.session) : c = d :=
  inj_on_of_nodup_map h.sessions hc hd heq

theorem FbOk.find_task {t : FbTask} (hc : c ∈ s.fbList) (ht : c.task = t) :
    s.fbList.find? (·.task = t) = some c := by
  cases hf : s.fbList.find? (·.task = t) with
  | none => exact absurd (decide_eq_true ht) (List.find?_eq_none.mp hf c hc)
  | some d =>
    have hd : d.task = t := by simpa using List.find?_some hf
    rw [h.eq_of_task (mem_of_find?_eq_some hf) hc (hd.trans ht.symm)]

theorem FbOk.find_session (hc : c ∈ s.fbList) :
    s.fbList.find? (·.session = c.session) = some c := by
  cases hf : s.fbList.find? (·.session = c.session) with
  | none => exact absurd (decide_eq_true rfl) (List.find?_eq_none.mp hf c hc)
  | some d =>
    have hd : d.session = c.session := by simpa using List.find?_some hf
    rw [h.eq_of_session (mem_of_find?_eq_some hf) hc hd]

end

theorem respOf_sendResp_other {r : FbResp} (h : r.session ≠ some j) : (s.sendResp r).respOf j = s.respOf j := by
  unfold Fb.respOf Fb.sendResp
  rw [filter_append, filter_cons_of_neg (by simpa using h), filter_nil, append_nil]

theorem fbComplete_other (h : c.session ≠ j) : (s.fbComplete c).respOf j = s.respOf j ∧
    ∀ d : FbCollect, d.session = j → (d ∈ (s.fbComplete c).fbList ↔ d ∈ s.fbList) := by
  refine ⟨(respOf_sendResp_other fun hr => h (Option.some.inj hr)).trans rfl, fun d hd => ?_⟩
  change d ∈ s.fbList.filter (·.session ≠ c.session) ↔ _
  rw [mem_filter, hd]
  simpa using fun _ => Ne.symm h

end Steps

/-! ## One collection -/

/-- The results that are reported under the key of task `t`. -/
def hits (t : FbTask) (acts : List FbAct) : List Int :=
  acts.filterMap fun
    | .report r => if r.key = t then some r.result else none
    | _ => none

/-- What the reports under the key of task `t` return. -/
def codes (t : FbTask) : Fb → List FbAct → List Int
  | _, [] => []
  | s, .report r :: acts =>
    (if r.key = t then [(s.fbHandleResult r).2] else []) ++ codes t (s.next (.report r)) acts
  | s, a :: acts => codes t (s.next a) acts

section Collection

variable {t : FbTask} {srcId n j : Nat} {s : Fb} {vals : List Int}

/-- The collection of task `t` has taken the results `vals`. -/
structure Collecting (t : FbTask) (srcId n j : Nat) (s : Fb) (vals : List Int) : Prop where
  mem : ⟨t, srcId, n, vals.length, firstNonzero vals, j⟩ ∈ s.fbList
  silent : s.respOf j = []

structure Answered (t : FbTask) (srcId j : Nat) (s : Fb) (vals : List Int) : Prop where
  gone : ∀ c ∈ s.fbList, c.session ≠ j
  old : j < s.nextId
  resp : s.respOf j = [⟨some j, t, srcId, firstNonzero vals⟩]

theorem fbReqMsg_other (task : FbTask) (i : Nat) (chance : FbChance) (hj : j < s.nextId) :
    (s.fbReqMsg task i chance).respOf j = s.respOf j ∧
    ∀ d : FbCollect, d.session = j → (d ∈ (s.fbReqMsg task i chance).fbList ↔ d ∈ s.fbList) := by
  have hplain : ∀ v, (s.sendResp ⟨none, task, i, v⟩).respOf j = s.respOf j ∧
      ∀ d : FbCollect, d.session = j → (d ∈ (s.sendResp ⟨none, task, i, v⟩).fbList ↔ d ∈ s.fbList) :=
    fun v => ⟨respOf_sendResp_other (by simp), fun _ _ => Iff.rfl⟩
  unfold Fb.fbReqMsg
  split
  · exact hplain _
  split
  · exact hplain _
  split
  · exact hplain _
  split
  · exact hplain _
  have hadd : ∀ d : FbCollect, d.session = j →
      (d ∈ s.fbList ++ [⟨task, i, chance.ucontexts, 0, 0, s.nextId⟩] ↔ d ∈ s.fbList) := by
    intro d hd
    rw [mem_append, mem_singleton]
    refine or_iff_left fun he => ?_
    rw [he] at hd
    change s.nextId = j at hd
    omega
  split
  · exact ⟨rfl, hadd⟩
  obtain ⟨h1, h2⟩ := fbComplete_other (s := { s with
      fbList := s.fbList ++ [⟨task, i, chance.ucontexts, 0, 0, s.nextId⟩], nextId := s.nextId + 1 })
    (c := ⟨task, i, chance.ucontexts, chance.ucontexts, chance.notify, s.nextId⟩)
    (by change s.nextId ≠ j; omega)
  exact ⟨h1, fun d hd => (h2 d hd).trans (hadd d hd)⟩

theorem nextId_le_next (s : Fb) (a : FbAct) : s.nextId ≤ (s.next a).nextId := by
  unfold Fb.next
  cases a with
  | req task i chance =>
    dsimp only [Fb.fbReqMsg]
    repeat' split
    all_goals first | exact le_rfl | exact Nat.le_succ _
  | report r =>
    dsimp only
    unfold Fb.fbHandleResult
    repeat' split
    all_goals exact le_rfl
  | complete k | timeout k =>
    dsimp only
    repeat' split
    all_goals exact le_rfl

/-- A step of a collection that is not answered: a report under its key is taken, and nothing else
touches it but its completion when it is full. -/
theorem Collecting.next {a : FbAct} (hok : FbOk s) (h : Collecting t srcId n j s vals)
    (hlen : vals.length + (hits t [a]).length ≤ n) (hto : a ≠ .timeout j) :
    codes t s [a] = List.replicate (hits t [a]).length 0 ∧
    (Collecting t srcId n j (s.next a) (vals ++ hits t [a]) ∧ ¬ (a = .complete j ∧ vals.length = n) ∨
      a = .complete j ∧ vals.length = n ∧ Answered t srcId j (s.next a) vals) := by
  have hold := hok.old _ h.mem
  cases a with
  | req task i chance =>
    obtain ⟨h1, h2⟩ := fbReqMsg_other task i chance hold
    refine ⟨rfl, .inl ⟨⟨?_, h1.trans h.silent⟩, fun hc => by cases hc.1⟩⟩
    rw [show hits t [.req task i chance] = [] from rfl, append_nil]
    exact (h2 _ rfl).mpr h.mem
  | report r =>
    by_cases hkey : r.key = t
    · have hhits : hits t [.report r] = [r.result] := by simp [hits, hkey]
      rw [hhits] at hlen ⊢
      have hlt : ¬ n ≤ vals.length := by
        change vals.length + 1 ≤ n at hlen
        omega
      have hfind := hok.find_task h.mem hkey.symm
      have hstep : s.fbHandleResult r = ({ s with
          fbList := s.fbList.map fun d => if d.session = j then d.take r.result else d }, 0) := by
        unfold Fb.fbHandleResult
        rw [hfind]
        exact if_neg hlt
      refine ⟨?_, .inl ⟨⟨?_, ?_⟩, fun hc => by cases hc.1⟩⟩
      · change (if r.key = t then [(s.fbHandleResult r).2] else []) ++ [] = [0]
        rw [if_pos hkey, hstep]
        rfl
      · change _ ∈ (s.fbHandleResult r).1.fbList
        rw [hstep]
        refine mem_map.mpr ⟨_, h.mem, ?_⟩
        rw [if_pos rfl, firstNonzero_append, length_append]
        rfl
      · change (s.fbHandleResult r).1.respOf j = []
        rw [hstep]
        exact h.silent
    have hhits : hits t [.report r] = [] := by simp [hits, hkey]
    rw [hhits, append_nil]
    refine ⟨?_, .inl ⟨?_, fun hc => by cases hc.1⟩⟩
    · change (if r.key = t then [(s.fbHandleResult r).2] else []) ++ [] = []
      rw [if_neg hkey]
      rfl
    change Collecting t srcId n j (s.fbHandleResult r).1 vals
    unfold Fb.fbHandleResult
    split
    · exact h
    next c hc =>
    split
    · exact h
    refine ⟨mem_map.mpr ⟨_, h.mem, if_neg fun hs => hkey ?_⟩, h.silent⟩
    have hct : c.task = r.key := by simpa using List.find?_some hc
    have := hok.eq_of_session h.mem (mem_of_find?_eq_some hc) hs
    rw [← this] at hct
    exact hct.symm
  | complete k =>
    refine ⟨rfl, ?_⟩
    rw [show hits t [.complete k] = [] from rfl, append_nil]
    by_cases hk : k = j
    · subst hk
      have hfind := hok.find_session h.mem
      by_cases hfull : vals.length = n
      · have hstep : s.next (.complete k) =
            s.fbComplete ⟨t, srcId, n, vals.length, firstNonzero vals, k⟩ := by
          dsimp only [Fb.next]
          rw [hfind]
          exact if_pos hfull
        refine .inr ⟨rfl, hfull, ?_⟩
        rw [hstep]
        refine ⟨fun d hd => by simpa using (mem_filter.mp hd).2, hold, ?_⟩
        dsimp only [Fb.respOf, Fb.fbComplete, Fb.sendResp]
        rw [filter_append, if_pos hfull]
        have hs : (s.del k).responses.filter (·.session = some k) = [] := h.silent
        rw [hs, nil_append, filter_cons_of_pos (by simp), filter_nil]
      refine .inl ⟨?_, fun hc => hfull hc.2⟩
      dsimp only [Fb.next]
      rw [hfind]
      dsimp only
      rw [if_neg hfull]
      exact h
    · refine .inl ⟨?_, fun hc => hk (by cases hc.1; rfl)⟩
      dsimp only [Fb.next]
      split
      · next c hc =>
        split
        · have hcs : c.session = k := by simpa using List.find?_some hc
          obtain ⟨h1, h2⟩ := fbComplete_other (s := s) (c := c) (j := j) (by rw [hcs]; exact hk)
          exact ⟨(h2 _ rfl).mpr h.mem, h1.trans h.silent⟩
        · exact h
      · exact h
  | timeout k =>
    have hk : k ≠ j := fun hk => hto (by rw [hk])
    refine ⟨rfl, .inl ⟨?_, fun hc => by cases hc.1⟩⟩
    rw [show hits t [.timeout k] = [] from rfl, append_nil]
    dsimp only [Fb.next]
    split
    · next c hc =>
      have hcs : c.session = k := by simpa using List.find?_some hc
      obtain ⟨h1, h2⟩ := fbComplete_other (s := s) (c := c) (j := j) (by rw [hcs]; exact hk)
      exact ⟨(h2 _ rfl).mpr h.mem, h1.trans h.silent⟩
    · exact h

theorem Answered.next {a : FbAct} (h : Answered t srcId j s vals) :
    Answered t srcId j (s.next a) vals := by
  have hle := nextId_le_next s a
  have hold : j < (s.next a).nextId := Nat.lt_of_lt_of_le h.old hle
  have hother : ∀ c ∈ s.fbList, Answered t srcId j (s.fbComplete c) vals := by
    intro c hc
    obtain ⟨h1, -⟩ := fbComplete_other (h.gone c hc)
    exact ⟨fun d hd => h.gone d (mem_filter.mp hd).1, h.old, h1.trans h.resp⟩
  cases a with
  | req task i chance =>
    obtain ⟨h1, h2⟩ := fbReqMsg_other task i chance h.old
    refine ⟨fun c hc hs => h.gone c ((h2 c hs).mp hc) hs, hold, h1.trans h.resp⟩
  | report r =>
    change Answered t srcId j (s.fbHandleResult r).1 vals
    unfold Fb.fbHandleResult
    split
    · exact h
    split
    · exact h
    refine ⟨fun c hc => ?_, h.old, h.resp⟩
    obtain ⟨d, hd, rfl⟩ := mem_map.mp hc
    split <;> exact h.gone d hd
  | complete k =>
    dsimp only [Fb.next]
    split
    · next c hc =>
      split
      · exact hother c (mem_of_find?_eq_some hc)
      · exact h
    · exact h
  | timeout k =>
    dsimp only [Fb.next]
    split
    · next c hc => exact hother c (mem_of_find?_eq_some hc)
    · exact h

theorem hits_cons (t : FbTask) (a : FbAct) (acts : List FbAct) : hits t (a :: acts) = hits t [a] ++ hits t acts := by
  unfold hits
  rw [← filterMap_append]
  rfl

theorem codes_cons (t : FbTask) (s : Fb) (a : FbAct) (acts : List FbAct) :
    codes t s (a :: acts) = codes t s [a] ++ codes t (s.next a) acts := by
  cases a with
  | report r => simp [codes]
  | _ => simp [codes]

theorem Answered.foldl (acts : List FbAct) (h : Answered t srcId j s vals) :
    Answered t srcId j (acts.foldl Fb.next s) vals := by
  induction acts generalizing s with
  | nil => exact h
  | cons a acts ih => exact ih h.next

theorem codes_of_hits_nil (acts : List FbAct) (s : Fb) (h : hits t acts = []) : codes t s acts = [] := by
  induction acts generalizing s with
  | nil => rfl
  | cons a acts ih =>
    rw [hits_cons, append_eq_nil_iff] at h
    rw [codes_cons, ih _ h.2, append_nil]
    cases a with
    | report r =>
      have hne : r.key ≠ t := fun hkey => by simp [hits, hkey] at h
      simp [codes, hne]
    | _ => rfl

/-- The reports under the key of a collection are all taken, and when they are all there is one
answer; before, there is none. -/
theorem Collecting.foldl (acts : List FbAct) (hok : FbOk s) (h : Collecting t srcId n j s vals)
    (hlen : vals.length + (hits t acts).length ≤ n) (hto : ∀ a ∈ acts, a ≠ .timeout j) :
    codes t s acts = List.replicate (hits t acts).length 0 ∧
    ((acts ++ [FbAct.complete j]).foldl Fb.next s).respOf j =
      if vals.length + (hits t acts).length = n then [⟨some j, t, srcId, firstNonzero (vals ++ hits t acts)⟩]
      else [] := by
  induction acts generalizing s vals with
  | nil =>
    refine ⟨rfl, ?_⟩
    rw [show hits t [] = [] from rfl, append_nil, length_nil, Nat.add_zero]
    obtain ⟨-, ⟨hc, hnot⟩ | ⟨-, hfull, hans⟩⟩ :=
      h.next (a := .complete j) hok (by simpa [hits] using hlen) (by simp)
    · rw [if_neg fun hfull => hnot ⟨rfl, hfull⟩]
      exact hc.silent
    · rw [if_pos hfull]
      exact hans.resp
  | cons a acts ih =>
    rw [hits_cons, length_append] at hlen ⊢
    rw [codes_cons]
    obtain ⟨hcode, ⟨hc, -⟩ | ⟨rfl, hfull, hans⟩⟩ :=
      h.next hok (by omega : vals.length + (hits t [a]).length ≤ n) (hto a mem_cons_self)
    · obtain ⟨h1, h2⟩ := ih hok.next hc (by rw [length_append]; omega)
        fun b hb => hto b (mem_cons_of_mem _ hb)
      refine ⟨by rw [hcode, h1, replicate_add], ?_⟩
      rw [cons_append, foldl_cons, h2, length_append, append_assoc, Nat.add_assoc]
    · have hnil : hits t acts = [] := length_eq_zero_iff.mp (by omega)
      have hnil1 : hits t [FbAct.complete j] = [] := rfl
      rw [hnil, hnil1, codes_of_hits_nil acts _ hnil]
      refine ⟨rfl, ?_⟩
      rw [append_nil, append_nil, length_nil, Nat.add_zero, if_pos hfull,
        cons_append, foldl_cons]
      exact (hans.foldl _).resp

end Collection

/-- A request that finds a user context and whose collection is set up and made known. -/
def FbChance.granted (n : Nat) : FbChance := ⟨true, n, true, true, 0⟩

/-- The results reported for task `t`: with its numbers, whatever the source EID. -/
def reported (t : FbTask) (acts : List FbAct) : List Int := hits { t with srcEid := 0 } acts

/-- A request of task `t` is granted with `n` user contexts, and `n` results are reported for it
before a time-out. They are taken and answered once, by the first that is not zero, just if the
source EID is zero. A request of the same task while the collection is there is refused. -/
theorem failback_aggregated {s : Fb} (hs : Reach (fun _ _ => True) Fb.next {} s) (t : FbTask)
    (srcId : Nat) {n : Nat} (hn : 1 ≤ n) (hnew : ∀ c ∈ s.fbList, c.task ≠ t) (acts : List FbAct)
    (hcount : (reported t acts).length = n) (hto : ∀ a ∈ acts, a ≠ .timeout s.nextId) :
    (codes { t with srcEid := 0 } (s.next (.req t srcId (.granted n))) acts = List.replicate n 0 ∧
      ((acts ++ [FbAct.complete s.nextId]).foldl Fb.next (s.next (.req t srcId (.granted n)))).respOf s.nextId =
        [⟨some s.nextId, t, srcId, firstNonzero (reported t acts)⟩] ↔ t.srcEid = 0) ∧
    ∀ u : Fb, (∃ c ∈ u.fbList, c.task = t) → ∀ i m,
      u.next (.req t i (.granted (m + 1))) = u.sendResp ⟨none, t, i, ealready⟩ := by
  have hinit : FbOk {} :=
    ⟨nodup_nil, nodup_nil, nofun,
      nofun⟩
  have hok : FbOk s := hs.invariant hinit fun _ _ h _ => h.next
  have hreq : s.next (.req t srcId (.granted n)) =
      { s with fbList := s.fbList ++ [⟨t, srcId, n, 0, 0, s.nextId⟩], nextId := s.nextId + 1 } := by
    have hany : s.fbList.any (·.task = t) = false := by simpa using hnew
    dsimp only [Fb.next, Fb.fbReqMsg, FbChance.granted]
    rw [if_neg (by simp; omega), if_neg (by simp), hany, if_neg Bool.false_ne_true, if_neg (by simp), if_pos rfl]
  have hsilent : s.respOf s.nextId = [] := by
    refine filter_eq_nil_iff.mpr fun r hr hj => ?_
    have := hok.answered r hr s.nextId (by simpa using hj)
    omega
  have hstart : Collecting t srcId n s.nextId (s.next (.req t srcId (.granted n))) [] := by
    rw [hreq]
    exact ⟨mem_append_right _ (mem_singleton_self _), hsilent⟩
  refine ⟨⟨fun ⟨_, hresp⟩ => ?_, fun hzero => ?_⟩, fun u ⟨c, hc, hct⟩ i m => ?_⟩
  · by_contra hne
    -- no report has the key of the collection
    have hnil : hits t acts = [] := by
      refine filterMap_eq_nil_iff.mpr fun a _ => ?_
      cases a with
      | report r =>
        refine if_neg fun hkey => hne ?_
        rw [← hkey]
        rfl
      | _ => rfl
    obtain ⟨-, h2⟩ := hstart.foldl acts hok.next (by rw [hnil]; exact Nat.zero_le n) hto
    rw [hnil, if_neg (by change 0 + 0 ≠ n; omega)] at h2
    rw [h2] at hresp
    cases hresp
  · have hkey : ({ t with srcEid := 0 } : FbTask) = t := by
      rw [← hzero]
    unfold reported at hcount ⊢
    rw [hkey] at hcount ⊢
    obtain ⟨h1, h2⟩ := hstart.foldl acts hok.next (by rw [hcount]; simp) hto
    rw [hcount] at h1 h2
    rw [if_pos (by simp)] at h2
    exact ⟨h1, h2⟩
  · dsimp only [Fb.next, Fb.fbReqMsg, FbChance.granted]
    rw [if_neg (by simp), if_neg (by simp), if_pos]
    exact any_eq_true.mpr ⟨c, hc, decide_eq_true hct⟩

/-- Two reports for a request whose source EID is zero. -/
theorem failback_aggregated_two :
    codes ⟨1, 2, 0, 3, 0, 4⟩ (Fb.next {} (.req ⟨1, 2, 0, 3, 0, 4⟩ 9 (.granted 2)))
      [.report ⟨1, 2, 3, 0, 4, 0⟩, .report ⟨1, 2, 3, 0, 4, -5⟩] = [0, 0] := by
  have h := failback_aggregated .init ⟨1, 2, 0, 3, 0, 4⟩ 9 (n := 2) (by decide)
    nofun
    [.report ⟨1, 2, 3, 0, 4, 0⟩, .report ⟨1, 2, 3, 0, 4, -5⟩] (by decide) (by simp)
  exact (h.1.mpr rfl).1

/-- A request with a source EID, its one report, and the time-out of its session. -/
def unheard : Fb :=
  [.req ⟨1, 2, 7, 3, 0, 4⟩ 9 (.granted 1), .report ⟨1, 2, 3, 0, 4, 0⟩, .complete 0, .timeout 0].foldl Fb.next {}

/-- The report finds no collection, and the answer is a time-out. -/
theorem unheard_timeout :
    codes ⟨1, 2, 0, 3, 0, 4⟩ (Fb.next {} (.req ⟨1, 2, 7, 3, 0, 4⟩ 9 (.granted 1)))
      [.report ⟨1, 2, 3, 0, 4, 0⟩] = [enoent] ∧
    unheard.responses = [⟨some 0, ⟨1, 2, 7, 3, 0, 4⟩, 9, etimedout⟩] := by
  decide

end UbDkms.Ubagg
