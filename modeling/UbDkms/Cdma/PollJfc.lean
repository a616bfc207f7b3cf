import UbDkms.Lib.Reach
import Mathlib.Data.Nat.Bitwise
import Mathlib.Tactic

/-!
# Polling a CDMA completion queue

`cdma_poll_jfc` takes completions until there is none, one ends a flush or one cannot be
parsed. Each moves the consumer index before it is parsed; the record for the hardware is
written only by a call that has completions to return. What a completion does to its send queue
is `SendQueue.parseCqe`.
-/

namespace UbDkms.Cdma

open Lib List Function

/-- What is read of `struct cdma_jfc_cqe` beside its owner bit: `queue` is the pointer in its
user data, `data` what is copied to the `cr`. -/
structure JfcCqe where
  fd : Bool := false
  status : Nat := 0
  substatus : Nat := 0
  queue : Option Nat := none
  data : Nat := 0

/-- `enum jfc_poll_state` -/
inductive PollState where
  | ok
  | empty
  | err
  deriving DecidableEq

namespace JfcCqe

variable (cqe : JfcCqe)

/-- `cdma_get_cr_status`, with the numbers of `enum dma_cr_status`. -/
def getCrStatus : Option Nat :=
  ([[some 0], [some 1], [none, some 2, some 4, some 5, some 15],
    [none, some 6, some 8, none, some 16], [some 10], [some 9], [some 11]].getD cqe.status []).getD
      cqe.substatus none

/-- `cdma_parse_cqe_for_jfc`, with the status of the `cr`. -/
def parseCqeForJfc : Option Nat :=
  cqe.queue.bind fun _ => cqe.getCrStatus.map fun status => if cqe.fd then 13 else status

/-- What `cdma_poll_one` returns for a completion: `DMA_CR_WR_SUSPEND_DONE` is 12 and
`DMA_CR_WR_FLUSH_ERR_DONE` is 13. -/
def pollState : PollState :=
  match cqe.parseCqeForJfc with
  | none => .err
  | some status => if status = 13 ∨ status = 12 then .empty else .ok

end JfcCqe

/-- `struct cdma_jfc` without the buffer. -/
structure CdmaJfc where
  entryShift : Nat
  ci : Nat := 0
  dbRecord : Nat := 0

namespace CdmaJfc

/-- `cdma_get_next_cqe` at the consumer index. -/
def getNextCqe (s : CdmaJfc) (buf : Nat → Bool × JfcCqe) : Option JfcCqe :=
  let cqe := buf (s.ci % 2 ^ s.entryShift)
  if cqe.1 = s.ci.testBit s.entryShift then none else some cqe.2

/-- The loop of `cdma_poll_jfc`, with the completions that `cdma_poll_one` takes. -/
def pollLoop (buf : Nat → Bool × JfcCqe) : Nat → CdmaJfc → CdmaJfc × List JfcCqe
  | 0, s => (s, [])
  | n + 1, s =>
    match s.getNextCqe buf with
    | none => (s, [])
    | some cqe =>
      let s := { s with ci := (s.ci + 1) % 2 ^ 32 }
      if cqe.pollState = .ok then
        let r := pollLoop buf n s
        (r.1, cqe :: r.2)
      else (s, [cqe])

end CdmaJfc

/-- The ring, with the owner bits, when the hardware has written `w` of the completions `e`. -/
def ringBuf (shift : Nat) (e : Nat → JfcCqe) : Nat → Nat → Bool × JfcCqe
  | 0 => fun _ => (false, {})
  | w + 1 => update (ringBuf shift e w) (w % 2 ^ shift) (!w.testBit shift, e w)

/-- The queue after a sequence of calls, what they took and what they returned; `recorded` is how
many were taken when the last call ended that polled an ordinary one. -/
structure Polls where
  jfc : CdmaJfc
  taken : List JfcCqe := []
  returned : List JfcCqe := []
  recorded : Nat := 0

namespace Polls

variable (e : Nat → JfcCqe) (s : Polls) (call : Nat × Nat)

/-- What a call takes: the hardware has written `call.1` completions, `cr_cnt` is `call.2`. -/
def takes : CdmaJfc × List JfcCqe := s.jfc.pollLoop (ringBuf s.jfc.entryShift e call.1) call.2

/-- `cdma_poll_jfc` -/
def pollJfc : Polls :=
  let r := s.takes e call
  let npolled := r.2.countP (·.pollState = .ok)
  { jfc := { r.1 with dbRecord := if npolled = 0 then r.1.dbRecord else r.1.ci % 2 ^ 22 }
    taken := s.taken ++ r.2
    returned := s.returned ++ if r.2.any (·.pollState = .err) then [] else r.2.take npolled
    recorded := if npolled = 0 then s.recorded else s.taken.length + r.2.length }

/-- The hardware overwrites no completion that was not taken. -/
def Room : Prop := s.taken.length ≤ call.1 ∧ call.1 ≤ s.taken.length + 2 ^ s.jfc.entryShift

/-- Of the completions written, the next `cr_cnt` begin with an ordinary one, and no malformed one
comes before the end of a flush. -/
def Clean : Prop :=
  s.Room call ∧ ∀ j < call.2, s.taken.length + j < call.1 →
    (∀ i < j, (e (s.taken.length + i)).pollState = .ok) →
    (e (s.taken.length + j)).pollState ≠ .err ∧ (j = 0 → (e s.taken.length).pollState = .ok)

end Polls

variable {e : Nat → JfcCqe} {k c w : Nat}

theorem ringBuf_unread (h1 : c < w) (h2 : w ≤ c + 2 ^ k) :
    ringBuf k e w (c % 2 ^ k) = (!c.testBit k, e c) := by
  induction w with
  | zero => omega
  | succ w ih =>
    obtain rfl | hlt := Nat.eq_or_lt_of_le (Nat.le_of_lt_succ h1)
    · exact update_self ..
    rw [ringBuf, update_of_ne, ih hlt (by omega)]
    exact (Nat.mod_injOn_Ico c _).ne (by simp) (by simp; omega) hlt.ne

theorem ringBuf_owner (h1 : w ≤ c) (h2 : c < w + 2 ^ k) : (ringBuf k e w (c % 2 ^ k)).1 = c.testBit k := by
  induction w with
  | zero => exact (Nat.testBit_lt_two_pow (by omega)).symm
  | succ w ih =>
    obtain rfl | hlt := (show c = 2 ^ k + w ∨ c < w + 2 ^ k by omega)
    · rw [Nat.add_mod_left, ringBuf, update_self, Nat.testBit_two_pow_add_eq]
    rw [ringBuf, update_of_ne, ih (by omega) hlt]
    exact (Nat.mod_injOn_Ico w _).ne (by simp; omega) (by simp) (by omega)

namespace CdmaJfc

variable {s : CdmaJfc}

theorem getNextCqe_ringBuf (hs : s.entryShift < 32) (hci : s.ci = c % 2 ^ 32) (h1 : c ≤ w)
    (h2 : w ≤ c + 2 ^ s.entryShift) :
    s.getNextCqe (ringBuf s.entryShift e w) = if c < w then some (e c) else none := by
  have hbit : s.ci.testBit s.entryShift = c.testBit s.entryShift := by
    rw [hci, Nat.testBit_mod_two_pow, decide_eq_true hs, Bool.true_and]
  unfold getNextCqe
  dsimp only
  rw [hbit, hci, Nat.mod_mod_of_dvd _ (Nat.pow_dvd_pow 2 hs.le)]
  by_cases hlt : c < w
  · rw [ringBuf_unread hlt h2, if_pos hlt]
    simp
  · have := Nat.two_pow_pos s.entryShift
    rw [ringBuf_owner (by omega) (by omega), if_pos rfl, if_neg hlt]

/-- The loop takes the next completions, one at least if there is one, and all but the last are
ordinary ones. -/
theorem pollLoop_spec (hs : s.entryShift < 32) (hci : s.ci = c % 2 ^ 32) (h1 : c ≤ w)
    (h2 : w ≤ c + 2 ^ s.entryShift) {n : Nat} {r : CdmaJfc × List JfcCqe}
    (hr : s.pollLoop (ringBuf s.entryShift e w) n = r) :
    r.1 = { s with ci := (c + r.2.length) % 2 ^ 32 } ∧ r.2 = (range r.2.length).map (fun i => e (c + i)) ∧
    r.2.take (r.2.countP (·.pollState = .ok)) = r.2.filter (·.pollState = .ok) ∧
    (c < w → 0 < n → r.2 ≠ []) ∧ r.2.length ≤ n ∧ c + r.2.length ≤ w ∧
    ∀ i, i + 1 < r.2.length → (e (c + i)).pollState = .ok := by
  induction n generalizing s c r with
  | zero =>
    subst hr
    exact ⟨hci ▸ rfl, rfl, rfl, by simp, le_rfl, h1, nofun⟩
  | succ n ih =>
    unfold pollLoop at hr
    rw [getNextCqe_ringBuf hs hci h1 h2] at hr
    by_cases hlt : c < w
    swap
    · rw [if_neg hlt] at hr
      subst hr
      exact ⟨hci ▸ rfl, rfl, rfl, fun h => absurd h hlt, Nat.zero_le _, h1, nofun⟩
    rw [if_pos hlt] at hr
    dsimp only at hr
    rw [hci, Nat.mod_add_mod] at hr
    split at hr <;> subst hr
    · next hok =>
      obtain ⟨i1, i2, i3, -, i4, i5, i6⟩ := ih (s := { s with ci := (c + 1) % 2 ^ 32 }) hs rfl hlt (by dsimp only; omega) rfl
      refine ⟨?_, ?_, by simpa [hok] using i3, by simp, Nat.succ_le_succ i4,
        by rwa [length_cons, Nat.add_comm _ 1, ← Nat.add_assoc], fun i hi => ?_⟩
      · rw [i1, length_cons, Nat.add_right_comm, Nat.add_assoc]
      · rw [length_cons, range_succ_eq_map, map_cons, map_map, i2, length_map, length_range]
        simp only [comp_def, Nat.succ_eq_add_one, Nat.add_assoc, Nat.add_comm 1]
        rfl
      · cases i with
        | zero => exact hok
        | succ i =>
          rw [Nat.add_comm i, ← Nat.add_assoc]
          exact i6 i (by simpa using hi)
    · next hok => exact ⟨rfl, rfl, by simp [hok], by simp, by simp, hlt, by simp⟩

end CdmaJfc

namespace Polls

/-- What holds between calls, whatever the completions are. -/
structure Ordered (e : Nat → JfcCqe) (s : Polls) : Prop where
  depth : s.jfc.entryShift < 32
  ci : s.jfc.ci = s.taken.length % 2 ^ 32
  record : s.recorded ≤ s.taken.length ∧ s.jfc.dbRecord = s.recorded % 2 ^ 22
  taken : s.taken = (range s.taken.length).map e
  returned : s.returned <+ s.taken.filter (·.pollState = .ok)

structure Accounted (s : Polls) : Prop where
  recorded : s.recorded = s.taken.length
  returned : s.returned = s.taken.filter (·.pollState = .ok)

variable {s : Polls} {call : Nat × Nat}

theorem Ordered.pollJfc (h : s.Ordered e) (hc : s.Room call) : (s.pollJfc e call).Ordered e := by
  obtain ⟨h1, h2, h3, -⟩ := CdmaJfc.pollLoop_spec (r := s.takes e call) h.depth h.ci hc.1 hc.2 rfl
  constructor <;> simp only [Polls.pollJfc, h1, length_append]
  · exact h.depth
  · split
    · exact ⟨h.record.1.trans (Nat.le_add_right _ _), h.record.2⟩
    · exact ⟨le_rfl, Nat.mod_mod_of_dvd _ ⟨2 ^ 10, rfl⟩⟩
  · rw [range_add, map_append, map_map, ← h.taken]
    exact congrArg _ h2
  · rw [filter_append]
    apply h.returned.append
    split
    · exact nil_sublist _
    · rw [h3]

theorem ordered_init (hk : k < 32) : Ordered e { jfc := { entryShift := k } } :=
  ⟨hk, rfl, ⟨le_rfl, rfl⟩, rfl, .refl _⟩

/-- What a call takes under `Clean`. -/
theorem Clean.takes (ho : s.Ordered e) (hc : s.Clean e call) :
    (∀ cqe ∈ (s.takes e call).2, cqe.pollState ≠ .err) ∧
      ((s.takes e call).2 ≠ [] → ∃ cqe ∈ (s.takes e call).2, cqe.pollState = .ok) := by
  obtain ⟨hroom, hclean⟩ := hc
  obtain ⟨-, h2, -, -, h4, h5, h6⟩ :=
    CdmaJfc.pollLoop_spec (r := s.takes e call) ho.depth ho.ci hroom.1 hroom.2 rfl
  have hent : ∀ j < (s.takes e call).2.length, _ := fun j hj =>
    hclean j (by omega) (by omega) fun i hi => h6 i (by omega)
  refine ⟨fun cqe hcqe => ?_, fun hne => ?_⟩
  · rw [h2] at hcqe
    obtain ⟨j, hj, rfl⟩ := mem_map.mp hcqe
    exact (hent j (mem_range.mp hj)).1
  · have hpos := length_pos_of_ne_nil hne
    refine ⟨e s.taken.length, ?_, (hent 0 hpos).2 rfl⟩
    rw [h2]
    exact mem_map.mpr ⟨0, mem_range.mpr hpos, rfl⟩

theorem Accounted.pollJfc (h : s.Accounted) (ho : s.Ordered e) (hc : s.Clean e call) :
    (s.pollJfc e call).Accounted := by
  obtain ⟨herr, hone⟩ := hc.takes ho
  obtain ⟨-, -, h3, -⟩ := CdmaJfc.pollLoop_spec (r := s.takes e call) ho.depth ho.ci hc.1.1 hc.1.2 rfl
  constructor <;> simp only [Polls.pollJfc, length_append]
  · split
    · next hz =>
      -- nothing was returned, so nothing was taken
      have hnil : (s.takes e call).2 = [] := by
        by_contra hne
        obtain ⟨cqe, he, hok⟩ := hone hne
        exact countP_eq_zero.mp hz cqe he (by simpa using hok)
      rw [hnil]
      exact h.recorded
    · rfl
  · rw [filter_append, ← h.returned, if_neg (by simpa using herr), h3]

/-- The completions are taken in order, the ordinary ones are returned once, and the record for
the hardware is the number of those taken (its 22 bits), as long as no call comes to a malformed
completion, or to the end of a flush with nothing before it; a call takes one if there is any. -/
theorem polls_accounted (hk : k < 32) (h : Reach (Clean e) (pollJfc e) { jfc := { entryShift := k } } s) :
    s.taken = (range s.taken.length).map e ∧ s.returned = s.taken.filter (·.pollState = .ok) ∧
    s.jfc.dbRecord = s.taken.length % 2 ^ 22 ∧
    ∀ w crCnt, s.Room (w, crCnt) → s.taken.length < w → 0 < crCnt → (s.takes e (w, crCnt)).2 ≠ [] := by
  obtain ⟨ho, hs⟩ : s.Ordered e ∧ s.Accounted := by
    apply h.invariant (I := fun s => s.Ordered e ∧ s.Accounted)
    · exact ⟨ordered_init hk, rfl, rfl⟩
    · exact fun _ _ hs hc => ⟨hs.1.pollJfc hc.1, hs.2.pollJfc hs.1 hc⟩
  refine ⟨ho.taken, hs.returned, by rw [ho.record.2, hs.recorded], fun w crCnt hr => ?_⟩
  exact (CdmaJfc.pollLoop_spec ho.depth ho.ci hr.1 hr.2 rfl).2.2.2.1

def twoEntries : Polls := { jfc := { entryShift := 1 } }

theorem polls_accounted_two : (twoEntries.pollJfc (fun i => { queue := some i }) (2, 2)).jfc.dbRecord = 2 := by
  refine (polls_accounted (by decide) (.next .init ⟨⟨by decide, by decide⟩, fun j _ _ _ => ?_⟩)).2.2.1
  exact ⟨(by decide : PollState.ok ≠ .err), fun _ => rfl⟩

/-- A completion is lost with the malformed one after it; a malformed one and the end of a flush
leave the record at 0 when they are taken alone. -/
theorem poll_loses_completion :
    let s := twoEntries.pollJfc (fun i => { queue := some 7, status := 7 * i }) (2, 2)
    s.taken.length = 2 ∧ s.returned.length = 0 ∧ ∀ cqe ∈ [{}, { queue := some 7, fd := true }],
      let s := twoEntries.pollJfc (fun _ => cqe) (1, 1)
      s.taken.length = 1 ∧ s.jfc.dbRecord = 0 := by
  decide

/-- Whatever the completions are, they are taken in order, those returned are ordinary ones in
this order, none twice, and the record for the hardware is the number of those taken (its 22 bits)
when the last call ended that polled an ordinary one. -/
theorem polls_ordered (hk : k < 32)
    (h : Reach (fun s call => s.Room call) (pollJfc e) { jfc := { entryShift := k } } s) :
    s.taken = (range s.taken.length).map e ∧ s.returned <+ s.taken.filter (·.pollState = .ok) ∧
    s.recorded ≤ s.taken.length ∧ s.jfc.dbRecord = s.recorded % 2 ^ 22 := by
  have hs : s.Ordered e := h.invariant (ordered_init hk) fun _ _ hs hc => hs.pollJfc hc
  exact ⟨hs.taken, hs.returned, hs.record⟩

theorem polls_ordered_malformed :
    let s := twoEntries.pollJfc (fun i => { queue := some 7, status := 7 * i }) (2, 2)
    s.taken.length = 2 ∧ s.returned <+ s.taken.filter (·.pollState = .ok) :=
  ⟨by decide, (polls_ordered (by decide) (.next .init ⟨by decide, by decide⟩)).2.1⟩

end Polls

end UbDkms.Cdma
