import UbDkms.Udma.CleanJfc
import Mathlib.Data.List.TakeWhile

/-!
# Polling a completion queue

`udma_poll_jfc` takes up to `cr_cnt` completions; each moves the consumer index before
it is parsed, and parsing moves the send or the receive queue it belongs to.
-/

namespace UbDkms.Udma

open Lib List

/-- What polling reads of a completion besides the fields of `CqeBody`: the queue pointer,
and the status as `udma_get_cr_status` maps it, if it knows it. -/
structure CqeInfo where
  queue : Option Nat
  status : Option Nat
  fd : Bool

/-- A send or a receive queue; `freed` are the indices given back to `jfr_idx_table`. -/
structure PolledQueue where
  ci : Nat
  entryCnt : Nat
  wrid : Nat → Nat
  flushFlag : Bool := false
  freed : List Nat := []

/-- `struct ubcore_cr`; `user_ctx` is not set for the end of a flush. -/
structure UbcoreCr where
  status : Nat
  userCtx : Option Nat

structure PollDev where
  tables : JettyTables
  sq : Nat → PolledQueue
  rq : Nat → PolledQueue

section Parse

variable (info : CqeBody → CqeInfo) (flushDone : Nat)

/-- `udma_parse_cqe_for_send`; `flushDone` is `UBCORE_CR_WR_FLUSH_ERR_DONE`. -/
def parseCqeForSend (dev : PollDev) (b : CqeBody) : PollDev × Option UbcoreCr :=
  match (info b).queue, (info b).status with
  | some q, some status =>
    let sq := dev.sq q
    if (info b).fd then
      ({ dev with sq := Function.update dev.sq q { sq with flushFlag := true } },
        some ⟨flushDone, none⟩)
    else
      let ci := (sq.ci + (b.entryIdx + 2 ^ 32 - sq.ci) % sq.entryCnt) % 2 ^ 32
      ({ dev with sq := Function.update dev.sq q { sq with ci := (ci + 1) % 2 ^ 32 } },
        some ⟨status, some (sq.wrid (ci % sq.entryCnt))⟩)
  | _, _ => (dev, none)

/-- `udma_parse_cqe_for_recv`: the index is given back before the status is looked at. -/
def parseCqeForRecv (dev : PollDev) (b : CqeBody) : PollDev × Option UbcoreCr :=
  match udmaGetJfr dev.tables b with
  | none => (dev, none)
  | some r =>
    let rq := dev.rq r
    let rq' := { rq with ci := (rq.ci + 1) % 2 ^ 32, freed := rq.freed ++ [b.entryIdx] }
    ({ dev with rq := Function.update dev.rq r rq' },
      (info b).status.map fun status => ⟨status, some (rq.wrid (b.entryIdx % rq.entryCnt))⟩)

def parseCqeForJfc (dev : PollDev) (b : CqeBody) : PollDev × Option UbcoreCr :=
  if b.recv then parseCqeForRecv info dev b else parseCqeForSend info flushDone dev b

structure PollSt where
  jfc : Jfc
  dbRecord : Nat
  dev : PollDev

/-- The loop of `udma_poll_jfc`: the state after it and each completion consumed with what
was parsed, `none` for `JFC_POLL_ERR`. -/
def pollLoop : Nat → PollSt → PollSt × List (CqeBody × Option UbcoreCr)
  | 0, s => (s, [])
  | n + 1, s =>
    match s.jfc.getNextCqe s.jfc.ci with
    | none => (s, [])
    | some cqe =>
      let r := parseCqeForJfc info flushDone s.dev cqe.body
      let s := { s with jfc := { s.jfc with ci := (s.jfc.ci + 1) % 2 ^ 32 }, dev := r.1 }
      match r.2 with
      | none => (s, [(cqe.body, none)])
      | some cr =>
        let t := pollLoop n s
        (t.1, (cqe.body, some cr) :: t.2)

/-- A call: the states before and after it, what it parsed and `npolled`, or nothing for an error. -/
structure Polled where
  start : PollSt
  st : PollSt
  log : List (CqeBody × Option UbcoreCr)
  ret : Option Nat

def udmaPollJfc (s : PollSt) (crCnt : Nat) : Polled :=
  let r := pollLoop info flushDone crCnt s
  let npolled := (r.2.filterMap (·.2)).length
  ⟨s, { r.1 with dbRecord := if npolled = 0 then r.1.dbRecord else r.1.jfc.ci % 2 ^ 22 }, r.2,
    if npolled = r.2.length then some npolled else none⟩

/-- Calls one after the other; before each the hardware may have written to the queue. -/
def pollCalls : PollSt → List ((Nat → Cqe) × Nat) → List Polled
  | _, [] => []
  | s, (buf, crCnt) :: calls =>
    let r := udmaPollJfc info flushDone { s with jfc := { s.jfc with buf := buf } } crCnt
    r :: pollCalls r.st calls

end Parse

/-- The completions the caller is told of. -/
def Polled.reported (r : Polled) : List CqeBody :=
  ((r.log.filter (·.2.isSome)).map (·.1)).take (r.ret.getD 0)

/-- The entries of the queue the consumer index went over. -/
def Polled.consumed (r : Polled) : List CqeBody :=
  r.start.jfc.seg r.start.jfc.buf 0 ((r.st.jfc.ci + 2 ^ 32 - r.start.jfc.ci) % 2 ^ 32)

/-- The status is known, and so is the receive queue or the send queue. -/
def wellFormed (info : CqeBody → CqeInfo) (t : JettyTables) (b : CqeBody) : Bool :=
  (info b).status.isSome && if b.recv then (udmaGetJfr t b).isSome else (info b).queue.isSome

/-- In every call the entries from the consumer index on, as far as they are valid and asked for,
are well-formed. -/
def AllFormed (ok : CqeBody → Bool) : Jfc → List ((Nat → Cqe) × Nat) → Prop
  | _, [] => True
  | q, (buf, crCnt) :: calls =>
    let entries := { q with buf }.poll crCnt q.ci
    (∀ b ∈ entries, ok b = true) ∧
      AllFormed ok { q with buf, ci := (q.ci + entries.length) % 2 ^ 32 } calls

variable {info : CqeBody → CqeInfo} {flushDone : Nat}

theorem parseCqeForJfc_spec (dev : PollDev) (b : CqeBody) :
    (parseCqeForJfc info flushDone dev b).1.tables = dev.tables ∧
      (parseCqeForJfc info flushDone dev b).2.isSome = wellFormed info dev.tables b := by
  unfold parseCqeForJfc parseCqeForRecv parseCqeForSend wellFormed
  cases b.recv with
  | true => cases udmaGetJfr dev.tables b <;> simp
  | false => cases (info b).queue <;> cases (info b).status <;> simp; split <;> simp

theorem Jfc.poll_congr {q q' : Jfc} (hs : q'.cqShift = q.cqShift) (hb : q'.buf = q.buf) (fuel n : Nat) :
    q'.poll fuel n = q.poll fuel n := by
  have hnext : ∀ n, q'.getNextCqe n = q.getNextCqe n := fun n => by
    unfold Jfc.getNextCqe Jfc.getBufEntry Jfc.entryCnt
    rw [hs, hb]
  induction fuel generalizing n with
  | zero => rfl
  | succ fuel ih => simp only [Jfc.poll, hnext, ih]

/-- Polling sees a stretch of the ring. -/
theorem Jfc.poll_seg {q : Jfc} (hs : q.cqShift ≤ 32) (fuel a : Nat) :
    ∃ l, l ≤ fuel ∧ q.poll fuel ((q.ci + a) % 2 ^ 32) = q.seg q.buf a l := by
  induction fuel generalizing a with
  | zero => exact ⟨0, le_rfl, rfl⟩
  | succ fuel ih =>
    unfold Jfc.poll
    cases hn : q.getNextCqe ((q.ci + a) % 2 ^ 32) with
    | none => exact ⟨0, Nat.zero_le _, rfl⟩
    | some cqe =>
      obtain ⟨l, hl, hp⟩ := ih (a + 1)
      have hslot : (q.ci + a) % 2 ^ 32 % q.entryCnt = (q.ci + a) % q.entryCnt :=
        Nat.mod_mod_of_dvd _ (pow_dvd_pow 2 hs)
      refine ⟨l + 1, by omega, ?_⟩
      rw [Jfc.seg_succ, getNextCqe_eq_some hn, ← hp, Nat.mod_add_mod, Jfc.getBufEntry, hslot]
      rfl

theorem Jfc.seg_take {q : Jfc} {buf : Nat → Cqe} {a l k : Nat} :
    (q.seg buf a l).take k = q.seg buf a (min k l) := by
  induction k generalizing a l with
  | zero => simp [Jfc.seg]
  | succ k ih =>
    cases l with
    | zero => simp [Jfc.seg]
    | succ l => rw [Jfc.seg_succ, take_succ_cons, ih, Nat.succ_min_succ, ← Jfc.seg_succ]

/-- The loop takes the valid entries up to the first that is not well-formed, and that one. -/
theorem pollLoop_spec (n : Nat) {s : PollSt} (hci : s.jfc.ci < 2 ^ 32)
    {t : PollSt × List (CqeBody × Option UbcoreCr)} (ht : pollLoop info flushDone n s = t)
    {ok : CqeBody → Bool} (hok : wellFormed info s.dev.tables = ok)
    {entries : List CqeBody} (he : s.jfc.poll n s.jfc.ci = entries) :
    t.2.map (·.1) = entries.take ((entries.takeWhile ok).length + 1) ∧
      (∀ e ∈ t.2, e.2.isSome = ok e.1) ∧ t.1.dev.tables = s.dev.tables ∧
      t.1.dbRecord = s.dbRecord ∧ t.1.jfc = { s.jfc with ci := (s.jfc.ci + t.2.length) % 2 ^ 32 } := by
  have hstay : ∀ {q : Jfc}, q.ci < 2 ^ 32 → q = { q with ci := (q.ci + 0) % 2 ^ 32 } := fun h => by
    rw [Nat.add_zero, Nat.mod_eq_of_lt h]
  induction n generalizing s t entries with
  | zero =>
    subst ht he
    exact ⟨rfl, forall_mem_nil _, rfl, rfl, hstay hci⟩
  | succ n ih =>
    unfold pollLoop at ht
    unfold Jfc.poll at he
    cases hn : s.jfc.getNextCqe s.jfc.ci with
    | none =>
      simp only [hn] at ht he
      subst ht he
      exact ⟨rfl, forall_mem_nil _, rfl, rfl, hstay hci⟩
    | some cqe =>
      simp only [hn] at ht he
      obtain ⟨htab, hsome⟩ := @parseCqeForJfc_spec info flushDone s.dev cqe.body
      rw [hok] at hsome
      cases hr : (parseCqeForJfc info flushDone s.dev cqe.body).2 with
      | none =>
        have hbad : ok cqe.body = false := by rw [← hsome, hr]; rfl
        simp only [hr] at ht
        subst ht he
        simp [hbad, htab]
      | some cr =>
        have hgood : ok cqe.body = true := by rw [← hsome, hr]; rfl
        simp only [hr] at ht
        obtain ⟨s', hs'⟩ : ∃ s' : PollSt, s' = { s with
            jfc := { s.jfc with ci := (s.jfc.ci + 1) % 2 ^ 32 }
            dev := (parseCqeForJfc info flushDone s.dev cqe.body).1 } := ⟨_, rfl⟩
        have hpoll : s'.jfc.poll n s'.jfc.ci = s.jfc.poll n ((s.jfc.ci + 1) % 2 ^ 32) := by
          rw [hs']
          apply Jfc.poll_congr <;> rfl
        have htab' : s'.dev.tables = s.dev.tables := by rw [hs']; exact htab
        have hci' : s'.jfc.ci < 2 ^ 32 := by rw [hs']; exact Nat.mod_lt _ (by decide)
        rw [← hs'] at ht
        obtain ⟨h1, h2, h3, h4, h5⟩ := ih hci' rfl (by rw [htab', hok]) hpoll
        subst ht he
        refine ⟨?_, ?_, h3.trans htab', h4.trans (by rw [hs']), ?_⟩
        · rw [map_cons, h1, takeWhile_cons_of_pos hgood, length_cons, take_succ_cons]
        · intro e hmem
          rcases mem_cons.mp hmem with rfl | hmem
          · exact hgood.symm
          · exact h2 e hmem
        · rw [h5, hs', length_cons]
          simp only [Nat.mod_add_mod, Nat.add_assoc, Nat.add_comm 1]

theorem take_first_bad {ok : CqeBody → Bool} {l : List CqeBody} (h : ¬∀ b ∈ l, ok b = true) :
    ∃ bad, ok bad = false ∧ l.take ((l.takeWhile ok).length + 1) = l.takeWhile ok ++ [bad] := by
  cases hdrop : l.dropWhile ok with
  | nil => exact absurd (dropWhile_eq_nil_iff.mp hdrop) h
  | cons bad rest =>
    have hbad := head?_dropWhile_not ok l
    refine ⟨bad, by simpa [hdrop] using hbad, ?_⟩
    calc l.take _ = (l.takeWhile ok ++ l.dropWhile ok).take _ := by rw [takeWhile_append_dropWhile]
      _ = l.takeWhile ok ++ [bad] := by rw [hdrop, take_length_add_append]; rfl

section Call

variable {s : PollSt} {crCnt : Nat} {r : Polled} {ok : CqeBody → Bool} {entries : List CqeBody}
  (hci : s.jfc.ci < 2 ^ 32) (hs : s.jfc.cqShift ≤ 32) (hcnt : crCnt < 2 ^ 32)
  (hr : udmaPollJfc info flushDone s crCnt = r) (hok : wellFormed info s.dev.tables = ok)
  (he : s.jfc.poll crCnt s.jfc.ci = entries)
include hci hs hcnt hr hok he

/-- A call in terms of what it consumed. -/
theorem udmaPollJfc_spec :
    r.st.dev.tables = s.dev.tables ∧
    r.st.jfc = { s.jfc with ci := (s.jfc.ci + r.consumed.length) % 2 ^ 32 } ∧
    r.consumed = entries.take ((entries.takeWhile ok).length + 1) ∧
    r.reported = (r.consumed.filter ok).take
      ((if (r.consumed.filter ok).length = r.consumed.length then
        some (r.consumed.filter ok).length else none).getD 0) ∧
    r.st.dbRecord = if (r.consumed.filter ok).length = 0 then s.dbRecord else r.st.jfc.ci % 2 ^ 22 := by
  obtain ⟨hlog, hsome, htab, hdb, hjfc⟩ := pollLoop_spec crCnt hci rfl hok he
  generalize ht : pollLoop info flushDone crCnt s = t at *
  obtain ⟨l, hl, hseg⟩ := Jfc.poll_seg hs crCnt 0
  rw [Nat.add_zero, Nat.mod_eq_of_lt hci, he] at hseg
  have hst : r = ⟨s, { t.1 with dbRecord := if (t.2.filterMap (·.2)).length = 0 then t.1.dbRecord
      else t.1.jfc.ci % 2 ^ 22 }, t.2, if (t.2.filterMap (·.2)).length = t.2.length then
        some (t.2.filterMap (·.2)).length else none⟩ := by
    rw [← hr, udmaPollJfc, ht]
  have hlen : t.2.length = min ((entries.takeWhile ok).length + 1) l := by
    rw [← t.2.length_map (·.1), hlog, length_take, hseg]
    simp [Jfc.seg]
  have hcons : r.consumed = t.2.map (·.1) := by
    have hci' : (t.1.jfc.ci + 2 ^ 32 - s.jfc.ci) % 2 ^ 32 = t.2.length := by
      rw [hjfc]
      dsimp only
      omega
    rw [hst]
    unfold Polled.consumed
    rw [hci', hlog, hlen]
    generalize (entries.takeWhile ok).length + 1 = k
    rw [hseg, Jfc.seg_take]
  have hfilter : (t.2.filter (·.2.isSome)).map (·.1) = r.consumed.filter ok := by
    rw [hcons, filter_map, filter_congr hsome]
    rfl
  have hnp : (t.2.filterMap (·.2)).length = (r.consumed.filter ok).length := by
    rw [← hfilter, length_map, length_filterMap_eq_countP, countP_eq_length_filter]
  refine ⟨by rw [hst]; exact htab, by rw [hcons, length_map, hst]; exact hjfc, hcons.trans hlog, ?_, ?_⟩
  · rw [Polled.reported, ← hnp, ← hfilter, hcons, length_map, hst]
  · rw [← hnp, hst, ← hdb]

/-- What a call does that finds only well-formed entries, and one that does not. -/
theorem udmaPollJfc_cases :
    r.st.dev.tables = s.dev.tables ∧
    r.st.jfc = { s.jfc with ci := (s.jfc.ci + r.consumed.length) % 2 ^ 32 } ∧
    ((∀ b ∈ entries, ok b = true) ∧ r.consumed = entries ∧ r.reported = entries ∧
        (r.st.dbRecord = if entries.length = 0 then s.dbRecord else r.st.jfc.ci % 2 ^ 22) ∨
      (¬∀ b ∈ entries, ok b = true) ∧ r.consumed ≠ [] ∧ r.reported = [] ∧
        (r.consumed.filter ok = [] → r.consumed.length = 1 ∧ r.st.dbRecord = s.dbRecord)) := by
  obtain ⟨htab, hjfc, hcons, hrep, hrec⟩ := udmaPollJfc_spec hci hs hcnt hr hok he
  refine ⟨htab, hjfc, ?_⟩
  by_cases hall : ∀ b ∈ entries, ok b = true
  · have hwhole : r.consumed = entries := by
      rw [hcons, takeWhile_eq_self_iff.mpr hall]
      exact take_of_length_le (Nat.le_succ _)
    rw [hwhole, filter_eq_self.mpr hall] at hrep hrec
    rw [if_pos rfl, Option.getD_some, take_length] at hrep
    exact .inl ⟨hall, hwhole, hrep, hrec⟩
  · -- the first entry that is not well-formed is the last one taken
    obtain ⟨bad, hbad, htake⟩ := take_first_bad hall
    rw [htake] at hcons
    have hgood : r.consumed.filter ok = entries.takeWhile ok := by
      rw [hcons, filter_append, filter_eq_self.mpr fun b hb => mem_takeWhile_imp hb]
      simp [hbad]
    rw [hgood, hcons, if_neg (by simp)] at hrep
    refine .inr ⟨hall, by simp [hcons], hrep, fun hnil => ⟨?_, by rw [hrec, hnil]; rfl⟩⟩
    rw [hcons, ← hgood, hnil]
    rfl

end Call

/-- Every call reports the well-formed completions it consumed and leaves the doorbell record at
the consumer index, if it consumed any, exactly when none of the entries it finds is malformed. -/
theorem pollCalls_reported (info : CqeBody → CqeInfo) (flushDone : Nat) (s : PollSt)
    (calls : List ((Nat → Cqe) × Nat)) (hci : s.jfc.ci < 2 ^ 32) (hs : s.jfc.cqShift ≤ 32)
    (hcnt : ∀ c ∈ calls, c.2 < 2 ^ 31) (hdb : s.dbRecord = s.jfc.ci % 2 ^ 22) :
    (∀ r ∈ pollCalls info flushDone s calls,
      r.reported = r.consumed.filter (wellFormed info s.dev.tables) ∧
        (r.consumed ≠ [] → r.st.dbRecord = r.st.jfc.ci % 2 ^ 22)) ↔
      AllFormed (wellFormed info s.dev.tables) s.jfc calls := by
  induction calls generalizing s with
  | nil => exact iff_of_true nofun trivial
  | cons c calls ih =>
    obtain ⟨buf, crCnt⟩ := c
    unfold pollCalls AllFormed
    generalize hr : udmaPollJfc info flushDone { s with jfc := { s.jfc with buf := buf } } crCnt = r
    have hlt := hcnt _ mem_cons_self
    obtain ⟨htab, hjfc, hcase⟩ := udmaPollJfc_cases (s := { s with jfc := { s.jfc with buf } }) hci hs
      (by omega) hr rfl rfl
    have hci' : r.st.jfc.ci < 2 ^ 32 := by
      rw [hjfc]
      exact Nat.mod_lt _ (by decide)
    rw [forall_mem_cons]
    obtain ⟨hall, hcons, hrep, hrec⟩ | ⟨hnot, hne, hrep, hlost⟩ := hcase
    · have hdb' : r.st.dbRecord = r.st.jfc.ci % 2 ^ 22 := by
        rw [hrec]
        split
        · next h0 => rw [hjfc, hcons, h0, hdb, Nat.add_zero, Nat.mod_eq_of_lt hci]
        · rfl
      have hiff := ih r.st hci' (by rw [hjfc]; exact hs) (fun c hc => hcnt c (mem_cons_of_mem _ hc)) hdb'
      rw [htab, hjfc, hcons] at hiff
      rw [and_iff_right ⟨by rw [hrep, hcons, filter_eq_self.mpr hall], fun _ => hdb'⟩, and_iff_right hall]
      exact hiff
    · refine iff_of_false (fun h => ?_) fun h => hnot h.1
      obtain ⟨⟨h1, h2⟩, -⟩ := h
      obtain ⟨hone, hkeep⟩ := hlost (h1.symm.trans hrep)
      have := h2 hne
      rw [hkeep, hdb, hjfc, hone] at this
      dsimp only at this
      omega

/-- A queue of 64 entries, two of them valid, with send completions of queue 7; those with `rest = 0`
have an unknown status. -/
def twoCqes (a b : Nat) : PollSt where
  jfc := ⟨true, 6, 0, fun i => ⟨decide (i < 2), ⟨false, false, i, 0, 0, if i = 0 then a else b⟩⟩⟩
  dbRecord := 0
  dev := ⟨⟨fun _ => none, fun _ => none⟩, fun _ => ⟨0, 4, id, false, []⟩, fun _ => ⟨0, 4, id, false, []⟩⟩

def unknownZero (b : CqeBody) : CqeInfo := ⟨some 7, if b.rest = 0 then none else some 0, false⟩

theorem pollCalls_reported_two :
    let calls := [((twoCqes 1 1).jfc.buf, 1), ((twoCqes 1 1).jfc.buf, 4)]
    ∀ r ∈ pollCalls unknownZero 9 (twoCqes 1 1) calls,
      r.reported = r.consumed.filter (wellFormed unknownZero (twoCqes 1 1).dev.tables) ∧
        (r.consumed ≠ [] → r.st.dbRecord = r.st.jfc.ci % 2 ^ 22) :=
  (pollCalls_reported unknownZero 9 (twoCqes 1 1) _ (by decide) (by decide) (by decide) rfl).mpr
    ⟨by decide, by decide, trivial⟩

/-- A good completion and a bad one in one call: both are taken and the call returns the
error, so the good one is not reported. A bad one alone moves the index past the doorbell. -/
theorem poll_loses :
    ((udmaPollJfc unknownZero 9 (twoCqes 1 0) 2).consumed.map (·.rest) = [1, 0] ∧
      (udmaPollJfc unknownZero 9 (twoCqes 1 0) 2).reported = []) ∧
    (udmaPollJfc unknownZero 9 (twoCqes 0 1) 2).st.jfc.ci = 1 ∧
    (udmaPollJfc unknownZero 9 (twoCqes 0 1) 2).st.dbRecord = 0 := by
  decide

end UbDkms.Udma
