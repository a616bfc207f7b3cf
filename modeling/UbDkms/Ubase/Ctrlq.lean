import UbDkms.Lib.Agents
import UbDkms.Lib.Count
import UbDkms.Lib.Reach

/-!
# The control queue

`ubase_ctrlq.c`: senders take a permit of `msg_queue_sem`, then a sequence
number under the lock, whose slot of `msg_queue` a sync or async request marks
valid; they transmit, perhaps several times, and release. A response is matched
by the slot of its sequence number, which the ageing task may have retired. The
slot holds no sequence number: `seq` of a `MsgCtx` is the one its request was
given, kept for the statements only.

A section under `csq->lock`, with the `up` that follows it in a handler, is one
step; so is each `down` and each `up` of a sender.
-/

namespace UbDkms.Ubase

open Lib List

/-- The messages `ubase_ctrlq_msg_check` accepts. -/
inductive MsgKind where
  | sync | async | notify | resp
  deriving DecidableEq, Repr

/-- `struct ubase_ctrlq_msg_ctx`. -/
structure MsgCtx where
  valid : Bool := false
  isSync : Bool := false
  seq : Nat := 0
  deriving DecidableEq

/-- Where a sender is: it has a permit, a sequence number, or has freed its slot. -/
inductive Phase where
  | acquired
  | sending (seq : Nat)
  | freed
  deriving DecidableEq

structure Sender where
  kind : MsgKind
  phase : Phase
  deriving DecidableEq

/-- `struct ubase_ctrlq`, the senders between acquire and release, and the peer: `owed` are
the sequence numbers sent and not yet answered, one for each transmission. `answered` pairs
the sequence number of a response with that of the request it was matched to. -/
structure Ctrlq where
  csqDepth : Nat
  sem : Nat
  nextSeq : Nat := 1
  lastCleanIdx : Nat := 0
  slot : Nat → MsgCtx := fun _ => {}
  senders : List Sender := []
  owed : List Nat := []
  answered : List (Nat × Nat) := []

/-- `ubase_ctrlq_msg_queue_depth`. -/
def Ctrlq.depth (q : Ctrlq) : Nat := 2 * q.csqDepth

/-- `ubase_ctrlq_max_seq`. -/
def maxSeq : Nat := 32767

/-- `ubase_ctrlq_init` of a new device. -/
def ctrlqInit (csqDepth : Nat) : Ctrlq := { csqDepth := csqDepth, sem := 2 * csqDepth }

def Ctrlq.setSlot (q : Ctrlq) (i : Nat) (x : MsgCtx) : Ctrlq :=
  { q with slot := fun k => if k = i then x else q.slot k }

/-- `ubase_ctrlq_alloc_seq`: at most `depth` candidates, from `csq_next_seq` on and then from
1; `none` is `-EBUSY`. -/
def allocSeq (q : Ctrlq) : Option Nat :=
  ((List.range' q.nextSeq (maxSeq + 1 - q.nextSeq) ++ List.range' 1 (q.nextSeq - 1)).take q.depth).find?
    fun i => !(q.slot (i % q.depth)).valid

/-- `ubase_ctrlq_addto_msg_queue`: a notify or a response marks no slot. -/
def addtoMsgQueue (q : Ctrlq) (seq : Nat) : MsgKind → Ctrlq
  | .sync => q.setSlot (seq % q.depth) ⟨true, true, seq⟩
  | .async => q.setSlot (seq % q.depth) ⟨true, false, seq⟩
  | _ => q

/-- `ubase_ctrlq_free_seq`. -/
def freeSeq (q : Ctrlq) (seq : Nat) : Ctrlq :=
  q.setSlot (seq % q.depth) { q.slot (seq % q.depth) with valid := false }

inductive CtrlqAct where
  | down (kind : MsgKind)
  | sendResp (seq : Nat)
  | alloc (n : Nat)
  | transmit (n : Nat)
  /-- It is done, with or without an error (`ubase_ctrlq_release_send_resources`). -/
  | release (n : Nat) (failed : Bool)
  | up (n : Nat)
  /-- A response that is not pushed (`ubase_ctrlq_handle_crq_msg`,
  `ubase_ctrlq_handle_other_msg`). -/
  | respond (seq : Nat)
  /-- `ubase_ctrlq_clean_service_task`; `expired` tells the slots past their `dead_jiffies`. -/
  | clean (expired : Nat → Bool)
  /-- `ubase_ctrlq_uninit` and `ubase_ctrlq_init` with `RST_HANDLING` set. -/
  | reset

section Steps

variable (q : Ctrlq)

def Ctrlq.alloc (n : Nat) (kind : MsgKind) : Ctrlq :=
  match allocSeq q with
  | none => { q with senders := q.senders.eraseIdx n, sem := q.sem + 1 }
  | some seq =>
    { addtoMsgQueue q seq kind with
      nextSeq := seq + 1
      senders := q.senders.set n ⟨kind, .sending seq⟩ }

def Ctrlq.release (n : Nat) (kind : MsgKind) (seq : Nat) (failed : Bool) : Ctrlq :=
  if kind = .resp ∨ (kind = .async ∧ failed = false) then
    { q with senders := q.senders.eraseIdx n }
  else { freeSeq q seq with senders := q.senders.set n ⟨kind, .freed⟩ }

/-- Both handlers look only at the slot; one that is sync stays until its sender frees it. -/
def Ctrlq.respond (seq : Nat) : Ctrlq :=
  let q := { q with owed := q.owed.erase seq }
  let x := q.slot (seq % q.depth)
  if x.valid = false then q
  else
    let q := { q with answered := (seq, x.seq) :: q.answered }
    if x.isSync then q else { freeSeq q seq with sem := q.sem + 1 }

/-- The slots the ageing task looks at: at most 100, from `last_clean_idx` on. -/
def Ctrlq.aged (expired : Nat → Bool) (i : Nat) : Bool :=
  decide (q.lastCleanIdx ≤ i ∧ i < q.lastCleanIdx + 100 ∧ i < q.depth) && !(q.slot i).isSync &&
    (q.slot i).valid && expired i

def Ctrlq.clean (expired : Nat → Bool) : Ctrlq :=
  { q with
    slot := fun i => if q.aged expired i then { q.slot i with valid := false } else q.slot i
    sem := q.sem + Nat.count (fun i => q.aged expired i) q.depth
    lastCleanIdx := if q.depth ≤ q.lastCleanIdx + 100 then 0 else q.lastCleanIdx + 100 }

/-- Only the slots are wiped: `msg_queue_sem` is not initialised again. -/
def Ctrlq.reset : Ctrlq :=
  { q with slot := fun i => if i < q.depth then { q.slot i with valid := false } else q.slot i }

def Ctrlq.next : CtrlqAct → Ctrlq
  | .down kind =>
    if kind = .resp ∨ q.sem = 0 then q
    else { q with sem := q.sem - 1, senders := q.senders ++ [⟨kind, .acquired⟩] }
  | .sendResp seq => { q with senders := q.senders ++ [⟨.resp, .sending seq⟩] }
  | .alloc n =>
    match q.senders[n]? with
    | some ⟨kind, .acquired⟩ => q.alloc n kind
    | _ => q
  | .transmit n =>
    match q.senders[n]? with
    | some ⟨.resp, _⟩ => q
    | some ⟨_, .sending seq⟩ => { q with owed := seq :: q.owed }
    | _ => q
  | .release n failed =>
    match q.senders[n]? with
    | some ⟨kind, .sending seq⟩ => q.release n kind seq failed
    | _ => q
  | .up n =>
    match q.senders[n]? with
    | some ⟨_, .freed⟩ => { q with senders := q.senders.eraseIdx n, sem := q.sem + 1 }
    | _ => q
  | .respond seq => if seq ∈ q.owed then q.respond seq else q
  | .clean expired => q.clean expired
  | .reset => q.reset

end Steps

/-! ## Matching responses -/

/-- A request is put on no slot for whose index another sequence number is still owed, and
nothing is transmitted while its slot belongs to a request with another one. -/
def SlotKept (q : Ctrlq) : CtrlqAct → Prop
  | .alloc n => ∀ kind seq, q.senders[n]? = some ⟨kind, .acquired⟩ → allocSeq q = some seq →
      kind = .sync ∨ kind = .async → ∀ t ∈ q.owed, t % q.depth = seq % q.depth → t = seq
  | .transmit n => ∀ kind seq, q.senders[n]? = some ⟨kind, .sending seq⟩ → kind ≠ .resp →
      (q.slot (seq % q.depth)).valid = true → (q.slot (seq % q.depth)).seq = seq
  | _ => True

structure Matched (q : Ctrlq) : Prop where
  owed : ∀ t ∈ q.owed, (q.slot (t % q.depth)).valid = true → (q.slot (t % q.depth)).seq = t
  answered : ∀ p ∈ q.answered, p.1 = p.2

section Matching

variable {q : Ctrlq}

theorem Matched.shrink {slot : Nat → MsgCtx} {senders : List Sender} {sem next idx : Nat}
    (h : Matched q)
    (hs : ∀ i, (slot i).valid → slot i = q.slot i) :
    Matched { q with slot := slot, senders := senders, sem := sem, nextSeq := next, lastCleanIdx := idx } := by
  refine ⟨fun t ht hv => ?_, h.answered⟩
  have heq := hs _ hv
  exact (congrArg MsgCtx.seq heq).trans (h.owed t ht (heq ▸ hv))

theorem freeSeq_slot {seq i : Nat} (h : ((freeSeq q seq).slot i).valid) :
    (freeSeq q seq).slot i = q.slot i := by
  dsimp only [freeSeq, Ctrlq.setSlot] at h ⊢
  split at h
  · cases h
  · next hne => exact if_neg hne

theorem Ctrlq.clean_slot {expired : Nat → Bool} {i : Nat} (h : ((q.clean expired).slot i).valid) :
    (q.clean expired).slot i = q.slot i := by
  dsimp only [Ctrlq.clean] at h ⊢
  split at h
  · cases h
  · next hna => exact if_neg hna

theorem Ctrlq.reset_slot {i : Nat} (h : (q.reset.slot i).valid) : q.reset.slot i = q.slot i := by
  dsimp only [Ctrlq.reset] at h ⊢
  split at h
  · cases h
  · next hge => exact if_neg hge

theorem Matched.next {a : CtrlqAct} (h : Matched q) (ha : SlotKept q a) : Matched (q.next a) := by
  have hid : ∀ i, (q.slot i).valid → q.slot i = q.slot i := fun _ _ => rfl
  cases a with
  | down kind =>
    dsimp only [Ctrlq.next]
    split
    · exact h
    · exact h.shrink hid
  | sendResp seq => exact h.shrink hid
  | alloc n =>
    dsimp only [Ctrlq.next]
    split
    · next kind hn =>
      unfold Ctrlq.alloc
      cases hseq : allocSeq q with
      | none => exact h.shrink hid
      | some seq =>
        -- the slot of the new request is owed nothing but its own number
        have hnew : kind = .sync ∨ kind = .async → ∀ b : Bool, Matched { q.setSlot (seq % q.depth) ⟨true, b, seq⟩ with
            nextSeq := seq + 1, senders := q.senders.set n ⟨kind, .sending seq⟩ } := fun hk b => by
          refine ⟨fun t ht hv => ?_, h.answered⟩
          change (if t % q.depth = seq % q.depth then (⟨true, b, seq⟩ : MsgCtx)
            else q.slot (t % q.depth)).seq = t
          change (if t % q.depth = seq % q.depth then (⟨true, b, seq⟩ : MsgCtx)
            else q.slot (t % q.depth)).valid = true at hv
          split
          · next heq => exact (ha kind seq hn hseq hk t ht heq).symm
          · next hne => rw [if_neg hne] at hv; exact h.owed t ht hv
        cases kind with
        | sync => exact hnew (.inl rfl) true
        | async => exact hnew (.inr rfl) false
        | notify | resp => exact h.shrink hid
    · exact h
  | transmit n =>
    dsimp only [Ctrlq.next]
    split
    · exact h
    · next kind seq hk hn =>
      refine ⟨fun t ht hv => ?_, h.answered⟩
      rcases mem_cons.mp ht with rfl | ht
      · exact ha _ _ hn (fun hc => hk hc) hv
      · exact h.owed t ht hv
    · exact h
  | release n failed =>
    dsimp only [Ctrlq.next]
    split
    · unfold Ctrlq.release
      split
      · exact h.shrink hid
      · exact h.shrink fun i hv => freeSeq_slot hv
    · exact h
  | up n =>
    dsimp only [Ctrlq.next]
    split
    · exact h.shrink hid
    · exact h
  | respond seq =>
    dsimp only [Ctrlq.next]
    split
    · next hmem =>
      have howed : ∀ t ∈ q.owed.erase seq, t ∈ q.owed := fun t ht => mem_of_mem_erase ht
      dsimp only [Ctrlq.respond]
      split
      · exact ⟨fun t ht hv => h.owed t (howed t ht) hv, h.answered⟩
      next hv =>
      rw [Bool.not_eq_false] at hv
      have hans : ∀ p ∈ (seq, (q.slot (seq % q.depth)).seq) :: q.answered, p.1 = p.2 :=
        forall_mem_cons.mpr ⟨(h.owed seq hmem hv).symm, h.answered⟩
      split
      · exact ⟨fun t ht hv => h.owed t (howed t ht) hv, hans⟩
      refine ⟨fun t ht hv => ?_, hans⟩
      have heq := freeSeq_slot hv
      exact (congrArg MsgCtx.seq heq).trans (h.owed t (howed t ht) (heq ▸ hv))
    · exact h
  | clean expired => exact h.shrink fun i hv => Ctrlq.clean_slot hv
  | reset => exact h.shrink fun i hv => Ctrlq.reset_slot hv

/-- In a run that keeps the slots apart, a response is matched only to a request that was
given its sequence number. -/
theorem responses_matched {n : Nat} (hs : Reach SlotKept Ctrlq.next (ctrlqInit n) q) :
    ∀ p ∈ q.answered, p.1 = p.2 :=
  (hs.invariant (I := Matched) ⟨fun _ h => absurd h not_mem_nil, fun _ h =>
    absurd h not_mem_nil⟩ fun _ _ h ha => h.next ha).answered

def oneAnswered : Ctrlq :=
  ((((ctrlqInit 8).next (.down .sync)).next (.alloc 0)).next (.transmit 0)).next (.respond 1)

theorem responses_matched_oneAnswered :
    oneAnswered.answered = [(1, 1)] ∧ ∀ p ∈ oneAnswered.answered, p.1 = p.2 := by
  refine ⟨by decide, responses_matched (.next (.next (.next (.next .init ?_) ?_) ?_) ?_)⟩
  · trivial
  · exact nofun
  · intro kind seq hn _ _
    have hmem := Option.some.inj (hn.symm.trans (by decide : _ = some (⟨.sync, .sending 1⟩ : Sender)))
    obtain rfl : seq = 1 := Phase.sending.inj (congrArg Sender.phase hmem)
    decide
  · trivial

/-- Request 1 gives up, 2 to 16 come and go, and 17 waits on the slot of 1 when 1 is answered. -/
def lateAnswer : Ctrlq :=
  let passes : List CtrlqAct := [.down .notify, .alloc 0, .release 0 false, .up 0]
  let gaveUp : List CtrlqAct := [.down .sync, .alloc 0, .transmit 0, .release 0 true, .up 0]
  let late : List CtrlqAct := [.down .sync, .alloc 0, .transmit 0, .respond 1]
  (gaveUp ++ (replicate 15 passes).flatten ++ late).foldl Ctrlq.next (ctrlqInit 8)

theorem lateAnswer_mismatched :
    Reach (fun _ _ => True) Ctrlq.next (ctrlqInit 8) lateAnswer ∧ (1, 17) ∈ lateAnswer.answered :=
  ⟨.foldl _, by decide +kernel⟩

end Matching

/-! ## Permits -/

def Sender.holds (depth i : Nat) : Sender → Bool
  | ⟨.resp, _⟩ => false
  | ⟨_, .sending seq⟩ => decide (seq % depth = i)
  | _ => false

def Sender.permit (x : Sender) : Bool := decide (x.kind ≠ .resp)

def Ctrlq.holders (q : Ctrlq) (i : Nat) : Nat := q.senders.countP (Sender.holds q.depth i)

def Ctrlq.unheld (q : Ctrlq) : Nat :=
  Nat.count (fun i => (q.slot i).valid && decide (q.holders i = 0)) q.depth

/-- No sender gets the slot of another one, no async slot is retired while its sender is
still sending, and no reset meets an async request. -/
def PermitKept (q : Ctrlq) : CtrlqAct → Prop
  | .alloc n => ∀ kind seq, q.senders[n]? = some ⟨kind, .acquired⟩ → allocSeq q = some seq →
      q.holders (seq % q.depth) = 0
  | .respond seq => (q.slot (seq % q.depth)).valid = true →
      (q.slot (seq % q.depth)).isSync = false → q.holders (seq % q.depth) = 0
  | .clean expired => ∀ i, q.aged expired i = true → q.holders i = 0
  | .reset => ∀ i < q.depth, (q.slot i).valid = true → (q.slot i).isSync = true
  | _ => True

/-- Where the permits are: in the semaphore, with senders, or with async requests sent. -/
structure Ledger (q : Ctrlq) : Prop where
  pos : 0 < q.depth
  total : q.sem + q.senders.countP Sender.permit + q.unheld = q.depth
  alone : ∀ i, q.holders i ≤ 1
  async : ∀ seq, ⟨.async, .sending seq⟩ ∈ q.senders →
    (q.slot (seq % q.depth)).valid = true ∧ (q.slot (seq % q.depth)).isSync = false
  sync : ∀ i < q.depth, (q.slot i).valid = true → (q.slot i).isSync = true → q.holders i ≠ 0

section Permits

variable {q : Ctrlq} {n : Nat} {x : Sender}

variable {q' : Ctrlq}

theorem unheld_congr (hd : q'.depth = q.depth)
    (h : ∀ i < q.depth, ((q'.slot i).valid ∧ q'.holders i = 0) ↔
      ((q.slot i).valid ∧ q.holders i = 0)) : q'.unheld = q.unheld := by
  unfold Ctrlq.unheld
  rw [hd]
  refine count_congr_lt fun i hi => ?_
  rw [Bool.eq_iff_iff, Bool.and_eq_true, Bool.and_eq_true, decide_eq_true_eq, decide_eq_true_eq]
  exact h i hi

theorem unheld_succ {i : Nat} (hd : q'.depth = q.depth) (hi : i < q.depth)
    (hnew : (q'.slot i).valid ∧ q'.holders i = 0)
    (hold : ¬((q.slot i).valid ∧ q.holders i = 0))
    (h : ∀ j, j ≠ i → (((q'.slot j).valid ∧ q'.holders j = 0) ↔
      ((q.slot j).valid ∧ q.holders j = 0))) : q'.unheld = q.unheld + 1 := by
  unfold Ctrlq.unheld
  rw [hd]
  refine count_switch_on ?_ ?_ (fun j hj => ?_) hi
  · rw [Bool.eq_false_iff, ne_eq, Bool.and_eq_true, decide_eq_true_eq]
    exact hold
  · rw [Bool.and_eq_true, decide_eq_true_eq]
    exact hnew
  · rw [Bool.eq_iff_iff, Bool.and_eq_true, Bool.and_eq_true, decide_eq_true_eq, decide_eq_true_eq]
    exact h j hj

section Change

variable {q' : Ctrlq} {olds news : List Sender}

theorem countP_swap {l l' : List Sender} (hsw : Swap l l' olds news) (p : Sender → Bool) :
    l'.countP p + olds.countP p = l.countP p + news.countP p := by
  rw [← countP_append, ← countP_append]
  exact hsw.countP_eq p

theorem holders_swap (hd : q'.depth = q.depth) (hsw : Swap q.senders q'.senders olds news) (i : Nat) :
    q'.holders i + olds.countP (Sender.holds q.depth i) =
      q.holders i + news.countP (Sender.holds q.depth i) := by
  unfold Ctrlq.holders
  rw [hd]
  exact countP_swap hsw _

variable {seq : Nat}

theorem holders_pos (hm : ⟨.async, .sending seq⟩ ∈ q.senders) :
    0 < q.holders (seq % q.depth) :=
  countP_pos_iff.mpr ⟨_, hm, decide_eq_true rfl⟩

theorem Ledger.change (h : Ledger q) (j : Nat) (hd : q'.depth = q.depth)
    (hsw : Swap q.senders q'.senders olds news)
    (hsem : q'.sem + news.countP Sender.permit + q'.unheld =
      q.sem + olds.countP Sender.permit + q.unheld)
    (hne : ∀ i, i ≠ j → q'.holders i = q.holders i ∧ q'.slot i = q.slot i) (halone : q'.holders j ≤ 1)
    (hasync : ∀ seq, ⟨.async, .sending seq⟩ ∈ q'.senders →
      seq % q.depth = j ∨ ⟨.async, .sending seq⟩ ∈ news →
      (q'.slot (seq % q.depth)).valid ∧ (q'.slot (seq % q.depth)).isSync = false)
    (hsync : j < q.depth → (q'.slot j).valid → (q'.slot j).isSync → q'.holders j ≠ 0) :
    Ledger q' := by
  refine ⟨by rw [hd]; exact h.pos, ?_, fun i => ?_, fun seq hm => ?_, fun i hi hv hsy => ?_⟩
  · have htot := h.total
    have hp := countP_swap hsw Sender.permit
    rw [hd]
    omega
  · by_cases hi : i = j
    · rw [hi]
      exact halone
    · rw [(hne i hi).1]
      exact h.alone i
  · rw [hd]
    by_cases hj : seq % q.depth = j
    · exact hasync seq hm (.inl hj)
    rcases hsw.mem hm with hold | hnew
    · rw [(hne _ hj).2]
      exact h.async seq hold
    · exact hasync seq hm (.inr hnew)
  · rw [hd] at hi
    by_cases hij : i = j
    · subst hij
      exact hsync hi hv hsy
    rw [(hne i hij).2] at hv hsy
    rw [(hne i hij).1]
    exact h.sync i hi hv hsy

theorem Ledger.idle (h : Ledger q) (hd : q'.depth = q.depth) (hs : q'.slot = q.slot)
    (hsw : Swap q.senders q'.senders olds news)
    (hsem : q'.sem + news.countP Sender.permit = q.sem + olds.countP Sender.permit)
    (holds : ∀ i, olds.countP (Sender.holds q.depth i) = 0)
    (hnews : ∀ i, news.countP (Sender.holds q.depth i) = 0) : Ledger q' := by
  have hold : ∀ i, q'.holders i = q.holders i := fun i => by
    have := holders_swap hd hsw i
    rwa [holds, hnews] at this
  have hun : q'.unheld = q.unheld := unheld_congr hd fun i _ => by rw [hold, hs]
  refine h.change 0 hd hsw (by omega) (fun i _ => ⟨hold i, by rw [hs]⟩) (by rw [hold]; exact h.alone 0)
    (fun seq hm _ => ?_) fun hpos hv hsy => ?_
  · rw [hs]
    rcases hsw.mem hm with hm | hm
    · exact h.async seq hm
    · exact absurd (decide_eq_true rfl) (countP_eq_zero.mp (hnews (seq % q.depth)) _ hm)
  · rw [hs] at hv hsy
    rw [hold]
    exact h.sync 0 hpos hv hsy

variable {kind : MsgKind}

theorem sending_holds (hk : kind ≠ .resp) (depth i : Nat) :
    (⟨kind, .sending seq⟩ : Sender).holds depth i = decide (seq % depth = i) := by
  cases kind with
  | resp => exact absurd rfl hk
  | sync | async | notify => rfl

theorem holders_take (hd : q'.depth = q.depth) (hk : kind ≠ .resp)
    (hsw : Swap q.senders q'.senders [⟨kind, .acquired⟩] [⟨kind, .sending seq⟩]) (i : Nat) :
    q'.holders i = q.holders i + if seq % q.depth = i then 1 else 0 := by
  have := holders_swap hd hsw i
  rw [countP_singleton, countP_singleton, sending_holds hk,
    show (⟨kind, .acquired⟩ : Sender).holds q.depth i = false by cases kind <;> rfl] at this
  simpa using this

section

variable (h : Ledger q)
include h

theorem Ledger.take (hd : q'.depth = q.depth)
    (hsem : q'.sem = q.sem) (hsen : q'.senders = q.senders.set n ⟨kind, .sending seq⟩)
    (hn : q.senders[n]? = some ⟨kind, .acquired⟩) (hk : kind ≠ .resp)
    (hfree : (q.slot (seq % q.depth)).valid = false) (halone : q.holders (seq % q.depth) = 0)
    (hother : ∀ i, i ≠ seq % q.depth → q'.slot i = q.slot i)
    (hasync : kind = .async → (q'.slot (seq % q.depth)).valid ∧
      (q'.slot (seq % q.depth)).isSync = false) : Ledger q' := by
  have hsw : Swap q.senders q'.senders [⟨kind, .acquired⟩] [⟨kind, .sending seq⟩] := hsen ▸ Swap.set hn _
  have hold := holders_take hd hk hsw
  have hmine : q'.holders (seq % q.depth) = 1 := by rw [hold, halone, if_pos rfl]
  have hne : ∀ i, i ≠ seq % q.depth → q'.holders i = q.holders i := fun i hi => by
    rw [hold, if_neg (Ne.symm hi)]
    rfl
  have hun : q'.unheld = q.unheld := unheld_congr hd fun i _ => by
    by_cases hi : i = seq % q.depth
    · subst hi
      rw [hmine, hfree]
      exact ⟨fun hc => absurd hc.2 (by decide), fun hc => absurd hc.1 (by decide)⟩
    · rw [hne i hi, hother i hi]
  refine h.change (seq % q.depth) hd hsw (by rw [hun, hsem]; rfl) (fun i hi => ⟨hne i hi, hother i hi⟩)
    hmine.le (fun t hm ht => ?_) fun _ _ _ => by rw [hmine]; decide
  rcases hsw.mem hm with hm | hm
  · -- the only sender on this slot is the new one
    have hpos := holders_pos hm
    rcases ht with heq | hnew
    · rw [heq, halone] at hpos
      cases hpos
    · cases mem_singleton.mp hnew
      exact hasync rfl
  · cases mem_singleton.mp hm
    exact hasync rfl

theorem Ledger.only (hk : kind ≠ .resp)
    (hn : q.senders[n]? = some ⟨kind, .sending seq⟩) : q.holders (seq % q.depth) = 1 := by
  refine Nat.le_antisymm (h.alone _) (countP_pos_iff.mpr ⟨_, mem_of_getElem? hn, ?_⟩)
  rw [sending_holds hk]
  exact decide_eq_true rfl

theorem Ledger.unhold (hk : kind ≠ .resp)
    (hd : q'.depth = q.depth) (hn : q.senders[n]? = some ⟨kind, .sending seq⟩)
    (hsw : Swap q.senders q'.senders [⟨kind, .sending seq⟩] news)
    (hnews : ∀ i, news.countP (Sender.holds q.depth i) = 0) :
    q'.holders (seq % q.depth) = 0 ∧ ∀ i, i ≠ seq % q.depth → q'.holders i = q.holders i := by
  have hold : ∀ i, q'.holders i + (if seq % q.depth = i then 1 else 0) = q.holders i := fun i => by
    have := holders_swap hd hsw i
    rw [countP_singleton, sending_holds hk, hnews] at this
    simpa using this
  refine ⟨?_, fun i hi => ?_⟩
  · have := hold (seq % q.depth)
    rw [if_pos rfl, h.only hk hn] at this
    omega
  · rw [← hold i, if_neg (Ne.symm hi)]
    rfl

theorem Ledger.sent (hd : q'.depth = q.depth) (hs : q'.slot = q.slot)
    (hsem : q'.sem = q.sem) (hsen : q'.senders = q.senders.eraseIdx n)
    (hn : q.senders[n]? = some ⟨.async, .sending seq⟩) : Ledger q' := by
  have hsw : Swap q.senders q'.senders [⟨.async, .sending seq⟩] [] := hsen ▸ Swap.eraseIdx hn
  obtain ⟨hvalid, hnsync⟩ := h.async seq (mem_of_getElem? hn)
  obtain ⟨hzero, hne⟩ := h.unhold (by decide) hd hn hsw fun _ => rfl
  have hun : q'.unheld = q.unheld + 1 := by
    refine unheld_succ hd (Nat.mod_lt seq h.pos) ⟨by rw [hs]; exact hvalid, hzero⟩ ?_ fun j hj => ?_
    · rw [h.only (by decide) hn]
      exact fun hc => absurd hc.2 (by decide)
    · rw [hne j hj, hs]
  refine h.change (seq % q.depth) hd hsw ?_ (fun i hi => ⟨hne i hi, by rw [hs]⟩) (by omega)
    (fun t hm _ => ?_) fun _ hv hsy => ?_
  · rw [hun, hsem]
    show q.sem + 0 + (q.unheld + 1) = q.sem + 1 + q.unheld
    omega
  · rw [hs]
    exact h.async t ((hsw.mem hm).resolve_right not_mem_nil)
  · rw [hs, hnsync] at hsy
    cases hsy

theorem Ledger.free (hd : q'.depth = q.depth)
    (hs : q'.slot = (freeSeq q seq).slot) (hsem : q'.sem = q.sem)
    (hsen : q'.senders = q.senders.set n ⟨kind, .freed⟩) (hk : kind ≠ .resp)
    (hn : q.senders[n]? = some ⟨kind, .sending seq⟩) : Ledger q' := by
  have hsw : Swap q.senders q'.senders [⟨kind, .sending seq⟩] [⟨kind, .freed⟩] := hsen ▸ Swap.set hn _
  obtain ⟨hzero, hne⟩ := h.unhold hk hd hn hsw fun i => by cases kind <;> rfl
  have hslot : ∀ i, i ≠ seq % q.depth → q'.slot i = q.slot i := fun i hi => by
    rw [hs]
    exact if_neg hi
  have hinv : (q'.slot (seq % q.depth)).valid = false := by
    rw [hs]
    exact congrArg MsgCtx.valid (if_pos rfl)
  have hun : q'.unheld = q.unheld := unheld_congr hd fun i _ => by
    by_cases hi : i = seq % q.depth
    · subst hi
      rw [h.only hk hn, hinv]
      exact ⟨fun hc => absurd hc.1 (by decide), fun hc => absurd hc.2 (by decide)⟩
    · rw [hne i hi, hslot i hi]
  refine h.change (seq % q.depth) hd hsw (by rw [hun, hsem]; rfl) (fun i hi => ⟨hne i hi, hslot i hi⟩)
    (by omega) (fun t hm ht => ?_) fun _ hv _ => ?_
  · rcases ht with heq | hnew
    · have hpos := holders_pos hm
      rw [hd, heq, hzero] at hpos
      cases hpos
    · cases mem_singleton.mp hnew
  · rw [hinv] at hv
    cases hv

end

theorem Ledger.retire (gone : Nat → Bool) (h : Ledger q) (hd : q'.depth = q.depth)
    (hsen : q'.senders = q.senders) (hsem : q'.sem = q.sem + Nat.count (gone ·) q.depth)
    (hs : ∀ i < q.depth, q'.slot i =
      if gone i then { q.slot i with valid := false } else q.slot i)
    (hgone : ∀ i < q.depth, gone i = true → (q.slot i).valid = true ∧
      (q.slot i).isSync = false ∧ q.holders i = 0) : Ledger q' := by
  have hold : ∀ i, q'.holders i = q.holders i := fun i => by
    unfold Ctrlq.holders
    rw [hsen, hd]
  refine ⟨by rw [hd]; exact h.pos, ?_, fun i => ?_, fun t hm => ?_, fun i hi hv hsy => ?_⟩
  · have hun : q.unheld = q'.unheld + Nat.count (gone ·) q.depth := by
      unfold Ctrlq.unheld
      rw [hd]
      refine count_split fun i hi => ?_
      rw [hold, hs i hi]
      cases hg : gone i with
      | true =>
        obtain ⟨h1, -, h3⟩ := hgone i hi hg
        simp [h1, h3]
      | false => simp
    have htot := h.total
    rw [hsem, hsen, hd]
    omega
  · rw [hold]; exact h.alone i
  · rw [hsen] at hm
    rw [hd, hs _ (Nat.mod_lt t h.pos)]
    have hpos : 0 < q.holders (t % q.depth) := countP_pos_iff.mpr ⟨_, hm, decide_eq_true rfl⟩
    split
    · next hg =>
      have := (hgone _ (Nat.mod_lt t h.pos) hg).2.2
      omega
    · exact h.async t hm
  · rw [hd] at hi
    rw [hs i hi] at hv hsy
    rw [hold]
    split at hv
    · cases hv
    next hg =>
    rw [if_neg hg] at hsy
    exact h.sync i hi hv hsy

theorem Ledger.wipe (h : Ledger q) (hd : q'.depth = q.depth) (hsen : q'.senders = q.senders)
    (hsem : q'.sem = q.sem) (hs : ∀ i < q.depth, (q'.slot i).valid = false)
    (hsync : ∀ i < q.depth, (q.slot i).valid → (q.slot i).isSync) : Ledger q' := by
  have hold : ∀ i, q'.holders i = q.holders i := fun i => by
    unfold Ctrlq.holders
    rw [hsen, hd]
  refine ⟨by rw [hd]; exact h.pos, ?_, fun i => ?_, fun t hm => ?_, fun i hi hv _ => ?_⟩
  · have hun : q'.unheld = q.unheld := unheld_congr hd fun i hi => by
      rw [hs i hi]
      refine ⟨fun hc => absurd hc.1 (by decide), fun hc => ?_⟩
      exact absurd hc.2 (h.sync i hi hc.1 (hsync i hi hc.1))
    rw [hun, hsem, hsen, hd]
    exact h.total
  · rw [hold]; exact h.alone i
  · rw [hsen] at hm
    obtain ⟨hv, hns⟩ := h.async t hm
    rw [hsync _ (Nat.mod_lt t h.pos) hv] at hns
    cases hns
  · rw [hd] at hi
    rw [hs i hi] at hv
    cases hv

end Change

variable {seq : Nat}

theorem not_valid_of_allocSeq (h : allocSeq q = some seq) :
    (q.slot (seq % q.depth)).valid = false := by
  have := List.find?_some h
  simpa using this

variable {kind : MsgKind}

theorem addtoMsgQueue_depth : (addtoMsgQueue q seq kind).depth = q.depth := by
  cases kind <;> rfl

theorem addtoMsgQueue_other {i : Nat} (hi : i ≠ seq % q.depth) :
    (addtoMsgQueue q seq kind).slot i = q.slot i := by
  cases kind with
  | sync | async => exact if_neg hi
  | notify | resp => rfl

theorem Ledger.alloc (h : Ledger q) (hk : kind ≠ .resp)
    (hn : q.senders[n]? = some ⟨kind, .acquired⟩)
    (halone : ∀ seq, allocSeq q = some seq → q.holders (seq % q.depth) = 0) :
    Ledger (q.alloc n kind) := by
  have hp : (⟨kind, .acquired⟩ : Sender).permit := decide_eq_true hk
  unfold Ctrlq.alloc
  cases hseq : allocSeq q with
  | none =>
    refine h.idle rfl rfl (Swap.eraseIdx hn) ?_ (fun i => by cases kind <;> rfl) fun _ => rfl
    rw [countP_singleton, hp]
    rfl
  | some seq =>
    have hsem : (addtoMsgQueue q seq kind).sem = q.sem := by cases kind <;> rfl
    refine h.take addtoMsgQueue_depth hsem rfl hn hk (not_valid_of_allocSeq hseq) (halone seq hseq)
      (fun i hi => addtoMsgQueue_other hi) fun hasync => ?_
    subst hasync
    have : (q.setSlot (seq % q.depth) ⟨true, false, seq⟩).slot (seq % q.depth) = ⟨true, false, seq⟩ :=
      if_pos rfl
    exact ⟨congrArg MsgCtx.valid this, congrArg MsgCtx.isSync this⟩

theorem Ledger.release (h : Ledger q) (failed : Bool)
    (hn : q.senders[n]? = some ⟨kind, .sending seq⟩) : Ledger (q.release n kind seq failed) := by
  unfold Ctrlq.release
  split
  · next hc =>
    rcases hc with rfl | ⟨rfl, -⟩
    · exact h.idle rfl rfl (Swap.eraseIdx hn) rfl (fun _ => rfl) fun _ => rfl
    · exact h.sent rfl rfl rfl rfl hn
  next hc =>
  rw [not_or] at hc
  exact h.free rfl rfl rfl rfl hc.1 hn

theorem Ledger.respond (h : Ledger q) (hk : PermitKept q (.respond seq)) :
    Ledger (q.respond seq) := by
  dsimp only [Ctrlq.respond]
  split
  · exact { h with }
  next hv =>
  rw [Bool.not_eq_false] at hv
  split
  · exact { h with }
  next hsync =>
  have hns : (q.slot (seq % q.depth)).isSync = false := Bool.eq_false_iff.mpr hsync
  refine h.retire (fun i => decide (i = seq % q.depth)) rfl rfl ?_ (fun i _ => ?_) fun i _ hg => ?_
  · have hone := count_switch_on
      rfl (decide_eq_true rfl) (fun j hj => decide_eq_false hj) (Nat.mod_lt seq h.pos)
    rw [hone, count_eq_zero.mpr fun _ _ => rfl]
  · by_cases hi : i = seq % q.depth
    · subst hi
      rw [decide_eq_true rfl, if_pos rfl]
      exact if_pos rfl
    · rw [decide_eq_false hi]
      exact if_neg hi
  · have hi := of_decide_eq_true hg
    subst hi
    exact ⟨hv, hns, hk hv hns⟩

theorem Ledger.clean {expired : Nat → Bool} (h : Ledger q) (hk : PermitKept q (.clean expired)) :
    Ledger (q.clean expired) := by
  refine h.retire (q.aged expired) rfl rfl rfl (fun _ _ => rfl) fun i _ hg => ?_
  have hag := hg
  unfold Ctrlq.aged at hag
  simp only [Bool.and_eq_true, Bool.not_eq_true'] at hag
  exact ⟨hag.1.2, hag.1.1.2, hk i hg⟩

def RespSends (q : Ctrlq) : Prop := ∀ x ∈ q.senders, x.kind = .resp → ∃ seq, x.phase = .sending seq

theorem RespSends.swap {olds news : List Sender} (h : RespSends q) (hsw : Swap q.senders q'.senders olds news)
    (hnews : ∀ y ∈ news, y.kind = .resp → ∃ seq, y.phase = .sending seq) : RespSends q' :=
  fun y hy hk => (hsw.mem hy).elim (h y · hk) (hnews y · hk)

theorem RespSends.next {a : CtrlqAct} (h : RespSends q) : RespSends (q.next a) := by
  cases a with
  | down kind =>
    dsimp only [Ctrlq.next]
    split
    · exact h
    · next hc =>
      exact h.swap (Swap.push _) (forall_mem_singleton.mpr fun hk => absurd (.inl hk) hc)
  | sendResp seq => exact h.swap (Swap.push _) (forall_mem_singleton.mpr fun _ => ⟨seq, rfl⟩)
  | alloc n =>
    dsimp only [Ctrlq.next]
    split
    · next hn =>
      unfold Ctrlq.alloc
      split
      · exact h.swap (Swap.eraseIdx hn) nofun
      · exact h.swap (Swap.set hn _) (forall_mem_singleton.mpr fun _ => ⟨_, rfl⟩)
    · exact h
  | transmit n =>
    dsimp only [Ctrlq.next]
    split <;> exact h
  | release n failed =>
    dsimp only [Ctrlq.next]
    split
    · next hn =>
      unfold Ctrlq.release
      split
      · exact h.swap (Swap.eraseIdx hn) nofun
      · next hc => exact h.swap (Swap.set hn _) (forall_mem_singleton.mpr fun hk => absurd (.inl hk) hc)
    · exact h
  | up n =>
    dsimp only [Ctrlq.next]
    split
    · next hn => exact h.swap (Swap.eraseIdx hn) nofun
    · exact h
  | respond seq =>
    dsimp only [Ctrlq.next]
    split
    · dsimp only [Ctrlq.respond]
      split
      · exact h
      · split <;> exact h
    · exact h
  | clean expired | reset => exact h

theorem Ledger.next {a : CtrlqAct} (h : Ledger q) (hr : RespSends q) (ha : PermitKept q a) :
    Ledger (q.next a) := by
  have hkind : ∀ {n : Nat} {kind : MsgKind} {phase : Phase}, q.senders[n]? = some ⟨kind, phase⟩ →
      (∀ seq, phase ≠ .sending seq) → kind ≠ .resp := fun hn hp hk => by
    obtain ⟨seq, hseq⟩ := hr _ (mem_of_getElem? hn) hk
    exact hp seq hseq
  cases a with
  | down kind =>
    dsimp only [Ctrlq.next]
    split
    · exact h
    next hc =>
    rw [not_or] at hc
    refine h.idle rfl rfl (Swap.push _) ?_ (fun _ => rfl) fun i => by cases kind <;> rfl
    rw [countP_singleton, show (⟨kind, .acquired⟩ : Sender).permit = true from decide_eq_true hc.1]
    exact Nat.succ_pred_eq_of_ne_zero hc.2
  | sendResp seq => exact h.idle rfl rfl (Swap.push _) rfl (fun _ => rfl) fun _ => rfl
  | alloc n =>
    dsimp only [Ctrlq.next]
    split
    · next kind hn => exact h.alloc (hkind hn nofun) hn fun seq => ha kind seq hn
    · exact h
  | transmit n =>
    dsimp only [Ctrlq.next]
    split
    · exact h
    · exact { h with }
    · exact h
  | release n failed =>
    dsimp only [Ctrlq.next]
    split
    · next hn => exact h.release failed hn
    · exact h
  | up n =>
    dsimp only [Ctrlq.next]
    split
    · next kind hn =>
      have hk := hkind hn nofun
      refine h.idle rfl rfl (Swap.eraseIdx hn) ?_ (fun i => by cases kind <;> rfl) fun _ => rfl
      rw [countP_singleton, show (⟨kind, .freed⟩ : Sender).permit = true from decide_eq_true hk]
      rfl
    · exact h
  | respond seq =>
    dsimp only [Ctrlq.next]
    split
    · exact h.respond ha
    · exact h
  | clean expired => exact h.clean ha
  | reset => exact h.wipe rfl rfl rfl (fun i hi => congrArg MsgCtx.valid (if_pos hi)) ha

theorem Ledger.init (hpos : 0 < n) : Ledger (ctrlqInit n) := by
  have hun : (ctrlqInit n).unheld = 0 := count_eq_zero.mpr fun _ _ => rfl
  refine ⟨?_, ?_, fun _ => Nat.zero_le 1, nofun, nofun⟩
  · change 0 < 2 * n
    omega
  · rw [hun]
    rfl

/-- In a run where the slots are not shared, every permit is in the semaphore, with a sender
or with a slot whose sender is done; when no sender holds one, with the semaphore or a slot. -/
theorem permits_conserved {m : Nat} (hm : 0 < m)
    (hs : Reach PermitKept Ctrlq.next (ctrlqInit m) q) :
    q.sem + q.senders.countP Sender.permit + q.unheld = q.depth ∧
      (q.senders = [] → q.sem + Nat.count (fun i => (q.slot i).valid) q.depth = q.depth) := by
  have hl := (hs.invariant (I := fun q => Ledger q ∧ RespSends q)
    ⟨.init hm, nofun⟩ fun _ _ h ha => ⟨h.1.next h.2 ha, h.2.next⟩).1
  refine ⟨hl.total, fun hnil => ?_⟩
  have hun : q.unheld = Nat.count (fun i => (q.slot i).valid) q.depth := count_congr_lt fun i _ => by
    unfold Ctrlq.holders
    rw [hnil]
    exact Bool.and_true _
  have htot := hl.total
  rw [hnil, hun] at htot
  exact htot

def asyncAnswered : Ctrlq :=
  (((((ctrlqInit 8).next (.down .async)).next (.alloc 0)).next (.transmit 0)).next
    (.release 0 false)).next (.respond 1)

theorem permits_conserved_asyncAnswered : asyncAnswered.senders = [] ∧
    asyncAnswered.sem + Nat.count (fun i => (asyncAnswered.slot i).valid) asyncAnswered.depth =
      asyncAnswered.depth := by
  refine ⟨by decide, (permits_conserved (by decide)
    (.next (.next (.next (.next (.next .init ?_) ?_) ?_) ?_) ?_)).2 (by decide)⟩
  · trivial
  · intro kind seq hn hseq
    rfl
  · trivial
  · trivial
  · exact fun _ _ => by decide

def resetLoses : Ctrlq :=
  [.down .async, .alloc 0, .transmit 0, .release 0 false, .reset].foldl Ctrlq.next (ctrlqInit 8)

theorem resetLoses_permit : Reach (fun _ _ => True) Ctrlq.next (ctrlqInit 8) resetLoses ∧
    resetLoses.senders = [] ∧ resetLoses.depth = 16 ∧ resetLoses.sem = 15 ∧
      Nat.count (fun i => (resetLoses.slot i).valid) resetLoses.depth = 0 :=
  ⟨.foldl _, by decide⟩

end Permits

end UbDkms.Ubase
