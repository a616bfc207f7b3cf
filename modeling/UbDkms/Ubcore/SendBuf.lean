import UbDkms.Lib.Agents
import UbDkms.Lib.Reach
import Mathlib.Tactic

/-!
# Send buffers and transmit credits

`ubmad_datapath.c`, `ub_mad.c`: every send takes a buffer of `send_seg_bitmap` and
a credit of `tx_in_queue`, in one order or the other, and posts a work request; a
failure gives back what was taken, a completion gives back both. Each operation on
the bitmap (under its lock), each atomic operation on the counter and each post is
one step.

What a send does before it posts with the message itself (preparing it, the
retransmission record of a reliable send, copying a stored message) only matters by
its result here, and is the outcome `ok` of one step.
-/

namespace UbDkms.Ubcore

open Lib List

/-- `UBMAD_SEND_SGE_NUM`. -/
def ubmadSendSgeNum : Nat := 1024

/-- `UBMAD_TX_THREDSHOLD`. -/
def ubmadTxThredshold : Int := 1024 - 8

inductive SendKind where
  /-- `ubmad_repost_send_conn_data`. -/
  | repost
  /-- `ubmad_try_repost_all_response`. -/
  | repostResponse
  /-- `ubmad_do_post_send` with `ubmad_do_post_send_reliable_data`. -/
  | reliable
  | wk0Resp
  | connSingle
  | genAck
  | closeReq
  | sendWork
  deriving DecidableEq

def SendKind.creditFirst : SendKind → Bool
  | .genAck | .closeReq => true
  | _ => false

/-- `jfs_wr.flag.bs.complete_enable`. -/
def SendKind.completeEnable : SendKind → Bool
  | .closeReq => false
  | _ => true

inductive SendPhase where
  | start
  | buffered (i : Nat)
  | prepared (i : Nat)
  | credited
  | refused (buf : Option Nat)
  | ready (i : Nat)
  | unposted (i : Nat)
  | posted (i : Nat)
  /-- The buffer is to be put back (`put_id`). -/
  | failed (i : Nat)
  | polled (i : Nat)
  | completed (i : Nat)
  deriving DecidableEq

structure Sending where
  kind : SendKind
  phase : SendPhase
  deriving DecidableEq

/-- A posted work request: its buffer and whether it asks for a completion. -/
structure SendWr where
  buf : Nat
  completeEnable : Bool
  deriving DecidableEq

/-- `struct ubmad_jetty_resource`: the bitmap and the counter, the routines in progress and
the work requests posted and not completed. -/
structure TxState where
  bits : Nat → Bool := fun _ => false
  txInQueue : Int := 0
  sends : List Sending := []
  posted : List SendWr := []

inductive TxAct where
  | begin (kind : SendKind)
  | getId (n : Nat)
  | prepare (n : Nat) (ok : Bool)
  | takeCredit (n : Nat)
  | giveCredit (n : Nat)
  | post (n : Nat) (ok : Bool)
  /-- `ubmad_get_tgt_hash_node` of a response just posted. -/
  | findNode (n : Nat) (found : Bool)
  | putId (n : Nat)
  | complete (k : Nat)

/-- `find_first_zero_bit`; `none` is an id at or over the size. -/
def findZeroId (bits : Nat → Bool) : Option Nat := (List.range ubmadSendSgeNum).find? fun i => !bits i

def setId (bits : Nat → Bool) (i : Nat) (v : Bool) (k : Nat) : Bool := if k = i then v else bits k

section Steps

variable (r : TxState)

def TxState.go (n : Nat) (kind : SendKind) (phase : SendPhase) : TxState :=
  { r with sends := r.sends.set n ⟨kind, phase⟩ }

def TxState.done (n : Nat) : TxState := { r with sends := r.sends.eraseIdx n }

def TxState.getId (n : Nat) (kind : SendKind) (phase : Nat → SendPhase) (full : TxState) : TxState :=
  match findZeroId r.bits with
  | none => full
  | some i => { r.go n kind (phase i) with bits := setId r.bits i true }

def TxState.takeCredit (n : Nat) (kind : SendKind) (buf : Option Nat) (phase : SendPhase) : TxState :=
  { r.go n kind (if ubmadTxThredshold ≤ r.txInQueue then .refused buf else phase) with
    txInQueue := r.txInQueue + 1 }

def TxState.next : TxAct → TxState
  | .begin kind => if kind = .sendWork then r else { r with sends := r.sends ++ [⟨kind, .start⟩] }
  | .getId n =>
    match r.sends[n]? with
    | some ⟨kind, .start⟩ => if kind.creditFirst then r else r.getId n kind .buffered (r.done n)
    | some ⟨kind, .credited⟩ =>
      r.getId n kind .ready { r.done n with txInQueue := r.txInQueue - 1 }
    | _ => r
  | .prepare n ok =>
    match r.sends[n]? with
    | some ⟨kind, .buffered i⟩ => r.go n kind (if ok then .prepared i else .failed i)
    | _ => r
  | .takeCredit n =>
    match r.sends[n]? with
    | some ⟨kind, .start⟩ => if kind.creditFirst then r.takeCredit n kind none .credited else r
    | some ⟨kind, .prepared i⟩ => r.takeCredit n kind (some i) (.ready i)
    | _ => r
  | .giveCredit n =>
    match r.sends[n]? with
    | some ⟨_, .refused none⟩ => { r.done n with txInQueue := r.txInQueue - 1 }
    | some ⟨kind, .refused (some i)⟩ => { r.go n kind (.failed i) with txInQueue := r.txInQueue - 1 }
    | some ⟨kind, .unposted i⟩ =>
      -- a close request keeps its buffer
      if kind = .closeReq then { r.done n with txInQueue := r.txInQueue - 1 }
      else { r.go n kind (.failed i) with txInQueue := r.txInQueue - 1 }
    | some ⟨kind, .polled i⟩ => { r.go n kind (.completed i) with txInQueue := r.txInQueue - 1 }
    | _ => r
  | .post n ok =>
    match r.sends[n]? with
    | some ⟨kind, .ready i⟩ =>
      if ok = false then r.go n kind (.unposted i)
      else
        let r := if kind = .wk0Resp then r.go n kind (.posted i) else r.done n
        { r with posted := r.posted ++ [⟨i, kind.completeEnable⟩] }
    | _ => r
  | .findNode n found =>
    match r.sends[n]? with
    | some ⟨kind, .posted i⟩ => if found then r.done n else r.go n kind (.failed i)
    | _ => r
  | .putId n =>
    match r.sends[n]? with
    | some ⟨_, .failed i⟩ => { r.done n with bits := setId r.bits i false }
    | some ⟨_, .completed i⟩ => { r.done n with bits := setId r.bits i false }
    | _ => r
  | .complete k =>
    match r.posted[k]? with
    | some ⟨i, true⟩ =>
      { r with posted := r.posted.eraseIdx k, sends := r.sends ++ [⟨.sendWork, .polled i⟩] }
    | _ => r

end Steps

/-! ## Conservation -/

def SendPhase.buf : SendPhase → Option Nat
  | .start | .credited | .posted _ => none
  | .refused buf => buf
  | .buffered i | .prepared i | .ready i | .unposted i | .failed i | .polled i | .completed i => some i

def SendPhase.credit : SendPhase → Int
  | .credited | .refused _ | .ready _ | .unposted _ | .polled _ => 1
  | _ => 0

def Sending.holds (i : Nat) (s : Sending) : Nat := if s.phase.buf = some i then 1 else 0

def Sending.credit (s : Sending) : Int := s.phase.credit

def TxState.wrs (r : TxState) (i : Nat) : Nat := r.posted.countP (·.buf = i)

/-- No close request is posted, or fails to be, and a response just posted finds its target
node. -/
def TxKept (r : TxState) : TxAct → Prop
  | .post n ok => ok = true → ∀ i, r.sends[n]? ≠ some ⟨.closeReq, .ready i⟩
  | .giveCredit n => ∀ i, r.sends[n]? ≠ some ⟨.closeReq, .unposted i⟩
  | .findNode _ found => found = true
  | _ => True

/-- A buffer in use is with one routine or one work request, and so is every credit. -/
structure TxOk (r : TxState) : Prop where
  bits : ∀ i, r.wrs i + total (Sending.holds i) r.sends = (r.bits i).toNat
  credits : r.txInQueue = r.posted.length + total Sending.credit r.sends
  asked : ∀ w ∈ r.posted, w.completeEnable = true

open Sending

section Conservation

variable {r r' : TxState} {n : Nat} {kind : SendKind} {phase : SendPhase} {olds news : List Sending}

theorem TxOk.change (h : TxOk r) (hs : Swap r.sends r'.sends olds news)
    (hbits : ∀ i, r'.wrs i + total (holds i) news + (r.bits i).toNat =
      r.wrs i + total (holds i) olds + (r'.bits i).toNat)
    (hcredits : r'.txInQueue - r'.posted.length - total credit news =
      r.txInQueue - r.posted.length - total credit olds)
    (hasked : ∀ w ∈ r'.posted, w ∈ r.posted ∨ w.completeEnable) : TxOk r' := by
  refine ⟨?_, ?_, ?_⟩
  · intro i
    have h1 := h.bits i
    have h2 := hs.total (holds i)
    have h3 := hbits i
    omega
  · have h1 := h.credits
    have h2 := hs.total credit
    omega
  · intro w hw
    exact (hasked w hw).elim (h.asked w) id

theorem TxOk.go {old new : SendPhase} (h : TxOk r) (hn : r.sends[n]? = some ⟨kind, old⟩)
    (hb : new.buf = old.buf) (hc : new.credit = old.credit) : TxOk (r.go n kind new) := by
  refine h.change (Swap.set hn _) (fun i => ?_) ?_ fun w hw => .inl hw
  · simp only [total_cons, total_nil, holds, hb]
    rfl
  · simp only [total_cons, total_nil, credit, hc]
    rfl

theorem holds_some (i k : Nat) (kind : SendKind) (phase : SendPhase) (hb : phase.buf = some i) :
    holds k ⟨kind, phase⟩ = if k = i then 1 else 0 := by
  unfold holds
  rw [hb]
  by_cases hk : k = i
  · simp [hk]
  · simp [hk, Ne.symm hk]

theorem holds_none (k : Nat) (kind : SendKind) (hb : phase.buf = none) :
    holds k ⟨kind, phase⟩ = 0 := by
  unfold holds
  rw [hb]
  rfl

theorem TxOk.getId {old : SendPhase} {new : Nat → SendPhase} {full : TxState} (h : TxOk r)
    (hn : r.sends[n]? = some ⟨kind, old⟩) (hold : old.buf = none) (hnew : ∀ i, (new i).buf = some i)
    (hc : ∀ i, (new i).credit = old.credit) (hfull : TxOk full) : TxOk (r.getId n kind new full) := by
  unfold TxState.getId
  split
  · exact hfull
  next i hi =>
  have hfree : r.bits i = false := by simpa using List.find?_some hi
  refine h.change (Swap.set hn _) (fun k => ?_) ?_ fun w hw => .inl hw
  · simp only [total_cons, total_nil, holds_some i k kind (new i) (hnew i), holds_none k kind hold]
    change r.wrs k + _ + _ = r.wrs k + _ + (setId r.bits i true k).toNat
    unfold setId
    by_cases hk : k = i
    · subst hk
      simp [hfree]
    · simp [hk]
  · simp only [total_cons, total_nil, credit, hc]
    rfl

theorem TxOk.putId {i : Nat} (h : TxOk r) (hn : r.sends[n]? = some ⟨kind, phase⟩)
    (hb : phase.buf = some i) (hc : phase.credit = 0) :
    TxOk { r.done n with bits := setId r.bits i false } := by
  have hset : r.bits i := by
    have h1 := h.bits i
    have h2 := (Swap.eraseIdx hn).total (holds i)
    simp only [total_cons, total_nil, holds_some i i kind phase hb] at h2
    cases hbit : r.bits i
    · rw [hbit, Bool.toNat_false] at h1
      simp at h2
      omega
    · rfl
  refine h.change (Swap.eraseIdx hn) (fun k => ?_) ?_ fun w hw => .inl hw
  · simp only [total_cons, total_nil, holds_some i k kind phase hb]
    change r.wrs k + _ + _ = r.wrs k + _ + (setId r.bits i false k).toNat
    unfold setId
    by_cases hk : k = i
    · subst hk
      simp [hset]
    · simp [hk]
  · simp only [total_cons, total_nil, credit, hc]
    rfl

theorem TxOk.takeCredit {old new : SendPhase} {buf : Option Nat} (h : TxOk r)
    (hn : r.sends[n]? = some ⟨kind, old⟩) (hold : old.buf = buf) (hnew : new.buf = buf)
    (hc0 : old.credit = 0) (hc1 : new.credit = 1) : TxOk (r.takeCredit n kind buf new) := by
  unfold TxState.takeCredit
  have hphase : (if ubmadTxThredshold ≤ r.txInQueue then SendPhase.refused buf else new).buf = buf ∧
      (if ubmadTxThredshold ≤ r.txInQueue then SendPhase.refused buf else new).credit = 1 := by
    split
    · exact ⟨rfl, rfl⟩
    · exact ⟨hnew, hc1⟩
  generalize (if ubmadTxThredshold ≤ r.txInQueue then SendPhase.refused buf else new) = p at hphase
  refine h.change (Swap.set hn _) (fun k => ?_) ?_ fun w hw => .inl hw
  · simp only [total_cons, total_nil, holds, hphase.1, hold]
    rfl
  · simp only [total_cons, total_nil, credit, hphase.2, hc0]
    change r.txInQueue + 1 - r.posted.length - _ = _
    omega

theorem TxOk.giveCredit {old new : SendPhase} (h : TxOk r) (hn : r.sends[n]? = some ⟨kind, old⟩)
    (hb : new.buf = old.buf) (hc1 : old.credit = 1) (hc0 : new.credit = 0) :
    TxOk { r.go n kind new with txInQueue := r.txInQueue - 1 } := by
  refine h.change (Swap.set hn _) (fun k => ?_) ?_ fun w hw => .inl hw
  · simp only [total_cons, total_nil, holds, hb]
    rfl
  · simp only [total_cons, total_nil, credit, hc1, hc0]
    change r.txInQueue - 1 - r.posted.length - _ = _
    omega

theorem TxOk.leave (tx : Int) (h : TxOk r) (hn : r.sends[n]? = some ⟨kind, phase⟩)
    (hb : phase.buf = none) (htx : tx + phase.credit = r.txInQueue) :
    TxOk { r.done n with txInQueue := tx } := by
  refine h.change (Swap.eraseIdx hn) (fun k => ?_) ?_ fun w hw => .inl hw
  · simp only [total_cons, total_nil, holds_none k kind hb]
    rfl
  · simp only [total_cons, total_nil, credit]
    change tx - r.posted.length - _ = _
    omega

theorem wrs_append (l : List SendWr) (w : SendWr) (k : Nat) :
    (l ++ [w]).countP (·.buf = k) = l.countP (·.buf = k) + if k = w.buf then 1 else 0 := by
  rw [countP_append, countP_singleton]
  by_cases hk : k = w.buf
  · simp [hk]
  · simp [hk, Ne.symm hk]

theorem TxOk.post {i : Nat} (h : TxOk r) (hn : r.sends[n]? = some ⟨kind, .ready i⟩)
    (hs : Swap r.sends r'.sends [⟨kind, .ready i⟩] news)
    (hnews : ∀ s ∈ news, s.phase.buf = none ∧ s.phase.credit = 0)
    (hkind : kind ≠ .closeReq) (hbits : r'.bits = r.bits) (htx : r'.txInQueue = r.txInQueue)
    (hposted : r'.posted = r.posted ++ [⟨i, kind.completeEnable⟩]) : TxOk r' := by
  have hzero : (∀ k, total (holds k) news = 0) ∧ total credit news = 0 := by
    clear hs
    induction news with
    | nil => exact ⟨fun _ => rfl, rfl⟩
    | cons s news ih =>
      obtain ⟨hb, hc⟩ := hnews s mem_cons_self
      obtain ⟨ih1, ih2⟩ := ih fun x hx => hnews x (mem_cons_of_mem _ hx)
      refine ⟨fun k => ?_, ?_⟩
      · rw [total_cons, ih1, holds, hb]
        rfl
      · rw [total_cons, ih2, credit, hc]
        rfl
  refine h.change hs (fun k => ?_) ?_ ?_
  · rw [hzero.1, hbits, TxState.wrs, hposted, wrs_append]
    simp only [total_cons, total_nil, holds_some i k kind (.ready i) rfl, TxState.wrs]
    omega
  · rw [hzero.2, htx, hposted]
    simp only [total_cons, total_nil, credit, SendPhase.credit, length_append,
      length_singleton]
    omega
  · intro w hw
    rw [hposted] at hw
    rcases mem_append.mp hw with hw | hw
    · exact .inl hw
    right
    rw [mem_singleton.mp hw]
    cases kind <;> first | rfl | exact absurd rfl hkind

theorem TxOk.complete {k i : Nat} (h : TxOk r) (hk : r.posted[k]? = some ⟨i, true⟩) :
    TxOk { r with posted := r.posted.eraseIdx k, sends := r.sends ++ [⟨.sendWork, .polled i⟩] } := by
  obtain ⟨l₁, l₂, hl, -, herase⟩ := getElem?_split hk
  refine h.change (Swap.push _) (fun j => ?_) ?_ ?_
  · simp only [TxState.wrs, total_cons, total_nil, holds_some i j .sendWork (.polled i) rfl]
    rw [herase, hl, countP_append, countP_append, countP_cons]
    by_cases hj : j = i
    · simp [hj]
      omega
    · simp [hj, Ne.symm hj]
  · simp only [total_cons, total_nil, credit, SendPhase.credit]
    rw [herase, hl, length_append, length_append, length_cons]
    omega
  · intro w hw
    exact .inl (mem_of_mem_eraseIdx hw)

theorem TxOk.next {a : TxAct} (h : TxOk r) (ha : TxKept r a) : TxOk (r.next a) := by
  cases a with
  | begin kind =>
    dsimp only [TxState.next]
    split
    · exact h
    refine h.change (Swap.push _) (fun k => ?_) ?_ fun w hw => .inl hw
    · rfl
    · rfl
  | getId n =>
    dsimp only [TxState.next]
    split
    · next kind hn =>
      split
      · exact h
      · refine h.getId hn rfl (fun _ => rfl) (fun _ => rfl) ?_
        exact h.leave r.txInQueue hn rfl (by simp [SendPhase.credit])
    · next kind hn =>
      refine h.getId hn rfl (fun _ => rfl) (fun _ => rfl) ?_
      exact h.leave (r.txInQueue - 1) hn rfl (by simp [SendPhase.credit])
    · exact h
  | prepare n ok =>
    dsimp only [TxState.next]
    split
    · next kind i hn =>
      cases ok
      · exact h.go hn rfl rfl
      · exact h.go hn rfl rfl
    · exact h
  | takeCredit n =>
    dsimp only [TxState.next]
    split
    · next kind hn =>
      split
      · exact h.takeCredit hn rfl rfl rfl rfl
      · exact h
    · next kind i hn => exact h.takeCredit hn rfl rfl rfl rfl
    · exact h
  | giveCredit n =>
    dsimp only [TxState.next]
    split
    · next kind hn => exact h.leave (r.txInQueue - 1) hn rfl (by simp [SendPhase.credit])
    · next kind i hn => exact h.giveCredit hn rfl rfl rfl
    · next kind i hn =>
      split
      · next hk =>
        subst hk
        exact absurd hn (ha i)
      · exact h.giveCredit hn rfl rfl rfl
    · next kind i hn => exact h.giveCredit hn rfl rfl rfl
    · exact h
  | post n ok =>
    dsimp only [TxState.next]
    split
    · next kind i hn =>
      split
      · exact h.go hn rfl rfl
      next hok =>
      have hkind : kind ≠ .closeReq := by
        rintro rfl
        exact ha (by simpa using hok) i hn
      split
      · refine h.post hn (Swap.set hn _) ?_ hkind rfl rfl rfl
        intro s hs
        rw [mem_singleton.mp hs]
        exact ⟨rfl, rfl⟩
      · exact h.post hn (Swap.eraseIdx hn) nofun hkind rfl rfl rfl
    · exact h
  | findNode n found =>
    dsimp only [TxState.next]
    split
    · next kind i hn =>
      obtain rfl : found = true := ha
      exact h.leave r.txInQueue hn rfl (by simp [SendPhase.credit])
    · exact h
  | putId n =>
    dsimp only [TxState.next]
    split
    · next kind i hn => exact h.putId hn rfl rfl
    · next kind i hn => exact h.putId hn rfl rfl
    · exact h
  | complete k =>
    dsimp only [TxState.next]
    split
    · next i hk => exact h.complete hk
    · exact h

/-- In a run that posts no close request and in which a response finds its node once posted:
no buffer is with two owners, and with no routine in progress a buffer is in use exactly when
one work request reads it, and the counter counts the work requests, each of which will be
completed. -/
theorem send_buffers_conserved (hs : Reach TxKept TxState.next {} r) :
    (∀ i, r.wrs i + total (Sending.holds i) r.sends ≤ 1) ∧
    (r.sends = [] → (∀ i, r.bits i = true ↔ r.wrs i = 1) ∧ r.txInQueue = r.posted.length ∧
      ∀ w ∈ r.posted, w.completeEnable = true) := by
  have hok := hs.invariant (I := TxOk) ⟨fun _ => rfl, rfl, fun _ h => absurd h not_mem_nil⟩
    fun _ _ h ha => h.next ha
  refine ⟨?_, ?_⟩
  · intro i
    rw [hok.bits i]
    exact Bool.toNat_le _
  intro hnil
  refine ⟨?_, ?_, hok.asked⟩
  · intro i
    have := hok.bits i
    rw [hnil, total_nil, Nat.add_zero] at this
    rw [this]
    cases r.bits i <;> simp
  · have := hok.credits
    rwa [hnil, total_nil, add_zero] at this

def readyToPost : TxState :=
  [.begin .connSingle, .getId 0, .prepare 0 true, .takeCredit 0].foldl TxState.next {}

theorem readyToPost_reach : Reach TxKept TxState.next {} readyToPost :=
  Reach.init.along ⟨trivial, trivial, trivial, trivial, trivial⟩

theorem send_buffers_conserved_readyToPost :
    (readyToPost.next (.post 0 true)).bits 0 = true ∧ (readyToPost.next (.post 0 true)).wrs 0 = 1 := by
  have hget : readyToPost.sends[0]? = some ⟨.connSingle, .ready 0⟩ := by decide +kernel
  have hkept : TxKept readyToPost (.post 0 true) := by
    intro _ i hc
    rw [hget] at hc
    cases hc
  have h := (send_buffers_conserved (.next readyToPost_reach hkept)).2 (by decide +kernel)
  have hbit : (readyToPost.next (.post 0 true)).bits 0 := by decide +kernel
  exact ⟨hbit, (h.1 0).mp hbit⟩

def closeLost : TxState :=
  [.begin .closeReq, .takeCredit 0, .getId 0, .post 0 false, .giveCredit 0].foldl TxState.next {}

theorem closeLost_buffer : Reach (fun _ _ => True) TxState.next {} closeLost ∧
    closeLost.sends = [] ∧ closeLost.posted = [] ∧ closeLost.bits 0 = true :=
  ⟨.foldl _, by decide +kernel⟩

end Conservation

end UbDkms.Ubcore
