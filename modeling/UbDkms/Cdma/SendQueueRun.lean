import UbDkms.Lib.Reach
import UbDkms.Lib.Ring
import UbDkms.Cdma.SendQueue

/-!
# Posting and polling

The requests whose completion was not polled lie in the ring one after the other, each in the
next free blocks. `ci` is a block of the last completed request or the one after it, so that it
never passes the first of them, and what is posted fits between the last of them and `ci`. Blocks
are numbered from the creation of the queue on: `c` is the number that `ci` stands for.
-/

namespace UbDkms.Cdma

open Lib List

def nonempty (xs : List SgeInfo) : List SgeInfo := xs.filter fun x => x.len != 0

/-- What the blocks of a request should hold: the control part, the data and the elements. -/
def JfsWr.layout (wr : JfsWr) (owner : Bool) : List Nat :=
  match wr.op with
  | .write src dst hint =>
    sqeCtl wr owner opcWrite hint dst (nonempty src).length ++ (nonempty src).flatMap sgeWords
  | .writeNotify src dst hint n =>
    sqeCtl wr owner opcWriteWithNotify hint dst (nonempty src).length ++
      (notifyWords n ++ (nonempty src).flatMap sgeWords)
  | .read dst src =>
    sqeCtl wr owner opcRead 0 src (nonempty dst).length ++ (nonempty dst).flatMap sgeWords
  | .cas src dst swap cmp =>
    sqeCtl wr owner opcCas 0 dst 1 ++ (sgeWords src ++
      (operandWords (src.len / 4) swap ++ operandWords (src.len / 4) cmp))
  | .fadd src dst operand =>
    sqeCtl wr owner opcFaa 0 dst 1 ++ (sgeWords src ++ operandWords (src.len / 4) operand)
  | .other => []

section Wqe

variable {wr : JfsWr} {owner : Bool} {m : Wqe} {xs : List SgeInfo} {maxSgeNum : Nat}

theorem fillSge_eq (xs : List SgeInfo) :
    fillSge xs = ((nonempty xs).flatMap sgeWords, (nonempty xs).length) := by
  induction xs with
  | nil => rfl
  | cons x xs ih =>
    unfold fillSge nonempty
    by_cases hx : x.len = 0
    · rw [if_pos hx, filter_cons_of_neg (by simp [hx])]
      exact ih
    · rw [if_neg hx, filter_cons_of_pos (by simp [hx]), ih]
      rfl

theorem flatMap_sgeWords_length (xs : List SgeInfo) : (xs.flatMap sgeWords).length = 4 * xs.length := by
  induction xs with
  | nil => rfl
  | cons x xs ih =>
    rw [flatMap_cons, length_append, ih, length_cons]
    have : (sgeWords x).length = 4 := rfl
    omega

theorem nonempty_length_le (xs : List SgeInfo) : (nonempty xs).length ≤ xs.length :=
  length_filter_le ..

theorem operandWords_length (n v : Nat) : (operandWords n v).length = n := by
  simp [operandWords]

theorem checkAtomicLen_le {isCas : Bool} {len : Nat} (h : checkAtomicLen isCas len) :
    len ≤ 16 := by
  simp only [checkAtomicLen, Bool.or_eq_true, Bool.and_eq_true, decide_eq_true_eq] at h
  omega

/-- The WQE has the layout, its blocks are enough, and it fits in the buffer. -/
structure Made (wr : JfsWr) (owner : Bool) (m : Wqe) : Prop where
  words : m.words = wr.layout owner
  pos : 1 ≤ calWqebbNum m
  le : calWqebbNum m ≤ 4
  enough : m.words.length ≤ 16 * calWqebbNum m

theorem made_sges {opcode : Nat} {c : List Nat} (hc : opcode ≠ opcCas) (hf : opcode ≠ opcFaa)
    (hctl : 4 * c.length = getCtlLen opcode) (hn : getCtlLen opcode + 16 * xs.length ≤ 256)
    (hm : m = ⟨opcode, c ++ (nonempty xs).flatMap sgeWords, (nonempty xs).length % 2 ^ 8⟩)
    (hw : m.words = wr.layout owner) : Made wr owner m := by
  have h80 : getCtlLen opcode = 80 ∨ getCtlLen opcode = 48 := by
    unfold getCtlLen
    split
    · exact .inl rfl
    · exact .inr rfl
  have hle := nonempty_length_le xs
  have hlen : m.words.length = c.length + 4 * (nonempty xs).length := by
    rw [hm, length_append, flatMap_sgeWords_length]
  have hcal : calWqebbNum m =
      (getCtlLen opcode + ((nonempty xs).length % 2 ^ 8 + 2 ^ 32 - 1) * 16) % 2 ^ 32 / 64 + 1 := by
    rw [hm]
    dsimp only [calWqebbNum, getNormalSgeNum, sqCalWqebbNum]
    rw [if_neg (by simp [hc, hf])]
  refine ⟨hw, ?_, ?_, ?_⟩ <;> omega

theorem made_atomic {opcode : Nat} {wr' : JfsWr} {dst : RmtSge} {src : SgeInfo} {operands : List Nat}
    (ho : opcode = opcCas ∨ opcode = opcFaa) (hn : operands.length ≤ 8)
    (hm : m = ⟨opcode, sqeCtl wr' owner opcode 0 dst 1 ++ (sgeWords src ++ operands), 1⟩)
    (hw : m.words = wr.layout owner) : Made wr owner m := by
  have hcal : calWqebbNum m = 2 := by
    rw [hm]
    dsimp only [calWqebbNum, getNormalSgeNum]
    rw [if_pos ho]
    rcases ho with rfl | rfl <;> rfl
  have hlen : m.words.length = 12 + (4 + operands.length) := by
    rw [hm, length_append, length_append]
    rfl
  exact ⟨hw, by omega, by omega, by omega⟩

theorem made_of_setSqe (hs : sgeNumExceed maxSgeNum wr.op = false) (hmax : maxSgeNum ≤ 13)
    (h : wr.wqe owner = some m) : Made wr owner m := by
  unfold JfsWr.wqe setSqe at h
  have h11 : maxSgeNotify = 11 := rfl
  have h48 : getCtlLen opcWrite = 48 ∧ getCtlLen opcRead = 48 ∧ getCtlLen opcWriteWithNotify = 80 :=
    ⟨rfl, rfl, rfl⟩
  cases hop : wr.op <;>
    simp only [hop, cdmaGetJfsOpcode, Option.bind_some, Option.bind_none, sgeNumExceed, Bool.or_eq_false_iff,
      decide_eq_false_iff_not, Nat.not_lt, fillSge_eq, Option.some.injEq, reduceCtorEq] at h hs
  case write src dst hint =>
    subst h
    exact made_sges (by decide) (by decide) rfl (by omega) rfl (by simp only [JfsWr.layout, hop])
  case writeNotify src dst hint n =>
    subst h
    have hm : (⟨opcWriteWithNotify, sqeCtl wr owner opcWriteWithNotify hint dst (nonempty src).length ++
        (notifyWords n ++ (nonempty src).flatMap sgeWords), (nonempty src).length % 2 ^ 8⟩ : Wqe) =
        ⟨opcWriteWithNotify, sqeCtl wr owner opcWriteWithNotify hint dst (nonempty src).length ++
          notifyWords n ++ (nonempty src).flatMap sgeWords, (nonempty src).length % 2 ^ 8⟩ := by
      rw [append_assoc]
    exact made_sges (by decide) (by decide) rfl (by omega) hm (by simp only [JfsWr.layout, hop])
  case read dst src =>
    subst h
    exact made_sges (by decide) (by decide) rfl (by omega) rfl (by simp only [JfsWr.layout, hop])
  case cas src dst swap cmp =>
    split at h
    · rename_i hlen
      cases h
      have h1 := checkAtomicLen_le hlen
      refine made_atomic (.inl rfl) ?_ rfl (by simp only [JfsWr.layout, hop])
      rw [length_append, operandWords_length, operandWords_length]
      omega
    · cases h
  case fadd src dst operand =>
    split at h
    · rename_i hlen
      cases h
      have h1 := checkAtomicLen_le hlen
      refine made_atomic (.inr rfl) ?_ rfl (by simp only [JfsWr.layout, hop])
      rw [operandWords_length]
      omega
    · cases h

theorem calWqebbNum_eq_blocks (h : wr.wqe owner = some m) : calWqebbNum m = wr.blocks := by
  unfold JfsWr.blocks
  unfold JfsWr.wqe setSqe at h ⊢
  cases hop : wr.op <;>
    simp only [hop, cdmaGetJfsOpcode, Option.bind_some, Option.bind_none, Option.some.injEq,
      reduceCtorEq] at h ⊢
  case write | writeNotify | read =>
    subst h
    rfl
  case cas | fadd =>
    split at h
    · cases h
      rw [if_pos ‹_›]
      rfl
    · cases h

end Wqe

namespace SendQueue

variable {sq : SendQueue} {cnt j p c : Nat} {m : List Nat} {wr : JfsWr} {wrs : List JfsWr}

/-- The queue between two calls; the size of the ring in bytes is of type `u32`. -/
structure Ok (sq : SendQueue) : Prop where
  size_lt : 64 * sq.entryCnt < 2 ^ 32
  curr : sq.currBlk = sq.pi % sq.entryCnt
  sges : sq.maxSgeNum ≤ 13
  fault : sq.fault = false

theorem entryCnt_pos : 0 < sq.entryCnt := Nat.two_pow_pos _

section

variable (h : sq.Ok)
include h

theorem Ok.shift_le : sq.shift ≤ 25 := by
  by_contra hs
  have h1 : 2 ^ 26 ≤ sq.entryCnt := Nat.pow_le_pow_right (by decide) (by omega)
  have h2 := h.size_lt
  omega

theorem Ok.mod_mod (x : Nat) : x % 2 ^ 32 % sq.entryCnt = x % sq.entryCnt :=
  Nat.mod_mod_of_dvd x (Nat.pow_dvd_pow 2 (Nat.le_trans h.shift_le (by decide)))

theorem Ok.owner_mod (x : Nat) : sq.owner (x % 2 ^ 32) = sq.owner x := by
  have hdvd : sq.entryCnt * 2 ∣ 2 ^ 32 := by
    have h1 : sq.entryCnt * 2 = 2 ^ (sq.shift + 1) := rfl
    rw [h1]
    exact Nat.pow_dvd_pow 2 (Nat.le_trans (Nat.succ_le_succ h.shift_le) (by decide))
  unfold owner
  rw [← Nat.mod_mul_right_div_self, ← Nat.mod_mul_right_div_self, Nat.mod_mod_of_dvd x hdvd]

theorem copyToSq_ring (hc : cnt ≤ sq.entryCnt) (hj : j < sq.entryCnt) (w : Nat) :
    (sq.copyToSq cnt m).ring ((sq.pi + j) % sq.entryCnt) w =
      if j < cnt then m.getD (16 * j + w) 0 else sq.ring ((sq.pi + j) % sq.entryCnt) w := by
  dsimp only [copyToSq]
  rw [h.curr]
  exact ringCopy_eq (f := fun k => m.getD (16 * k + w) 0) hc hj

theorem copyToSq_fault (hc : cnt ≤ sq.entryCnt) (h4 : cnt ≤ 4) (hm : m.length ≤ 16 * cnt) :
    (sq.copyToSq cnt m).fault = false := by
  have hlt := Nat.mod_lt sq.pi sq.entryCnt_pos
  dsimp only [copyToSq]
  rw [h.curr, h.fault, decide_eq_false (show ¬ 4 < cnt by omega),
    decide_eq_false (show ¬ 64 < m.length by omega)]
  by_cases hf : cnt < sq.entryCnt - sq.pi % sq.entryCnt
  · rw [if_pos hf, decide_eq_false (by omega), decide_eq_false (by omega)]
    rfl
  · rw [if_neg hf, decide_eq_false (by omega), decide_eq_false (by omega)]
    rfl

theorem updatePtr_eq (hc : cnt ≤ sq.entryCnt) :
    sq.updatePtr cnt = (sq.pi + cnt) % sq.entryCnt := by
  unfold updatePtr
  rw [ring_add sq.entryCnt_pos hc, h.curr]

end

/-- The request lies in the ring from the block `p` on: its blocks are enough and hold its layout
with the owner bit of the pass, but for `sqe_bb_idx`, the low half of the first word. -/
structure Holds (sq : SendQueue) (p : Nat) (wr : JfsWr) : Prop where
  pos : 1 ≤ wr.blocks
  enough : (wr.layout (sq.owner p)).length ≤ 16 * wr.blocks
  head : sq.ring (p % sq.entryCnt) 0 / 2 ^ 16 = (wr.layout (sq.owner p)).getD 0 0 / 2 ^ 16
  words : ∀ i, 0 < i → i < 16 * wr.blocks →
    sq.ring ((p + i / 16) % sq.entryCnt) (i % 16) = (wr.layout (sq.owner p)).getD i 0

def Laid (sq : SendQueue) : Nat → List JfsWr → Prop
  | _, [] => True
  | p, wr :: wrs => sq.Holds p wr ∧ sq.Laid (p + wr.blocks) wrs

/-- The queue with its pending requests, the first of which has the block `p`. -/
structure Pending (sq : SendQueue) (c p : Nat) (wrs : List JfsWr) : Prop where
  ok : sq.Ok
  le : c ≤ p
  ci : sq.ci = c % 2 ^ 32
  pi : sq.pi = (p + used wrs) % 2 ^ 32
  fits : p + used wrs ≤ c + sq.entryCnt
  laid : sq.Laid p wrs

theorem used_cons : used (wr :: wrs) = wr.blocks + used wrs := rfl

theorem used_append {wrs' : List JfsWr} : used (wrs ++ wrs') = used wrs + used wrs' := by
  unfold used
  rw [map_append, sum_append]

section Laid

variable {sq' : SendQueue}

variable (h : sq.Laid p wrs)
include h

theorem Laid.frame (he : sq'.shift = sq.shift)
    (hring : ∀ j, p ≤ j → j < p + used wrs → ∀ w,
      sq'.ring (j % sq.entryCnt) w = sq.ring (j % sq.entryCnt) w) : sq'.Laid p wrs := by
  have hcnt : sq'.entryCnt = sq.entryCnt := congrArg (2 ^ ·) he
  have hown : ∀ x, sq'.owner x = sq.owner x := fun x => by rw [owner, owner, hcnt]
  induction wrs generalizing p with
  | nil => trivial
  | cons wr wrs ih =>
    rw [used_cons] at hring
    obtain ⟨h1, h2⟩ := h
    have hpos := h1.pos
    refine ⟨⟨h1.pos, by rw [hown]; exact h1.enough, ?_, fun i h0 hi => ?_⟩,
      ih h2 fun j hj hj' => hring j (by omega) (by omega)⟩
    · rw [hcnt, hown, hring p (by omega) (by omega), h1.head]
    · rw [hcnt, hown, hring _ (by omega) (by omega), h1.words i h0 hi]

theorem Laid.append (hq : sq.Holds (p + used wrs) wr) :
    sq.Laid p (wrs ++ [wr]) := by
  induction wrs generalizing p with
  | nil => exact ⟨hq, trivial⟩
  | cons x wrs ih =>
    refine ⟨h.1, ih h.2 ?_⟩
    rw [Nat.add_assoc, ← used_cons]
    exact hq

theorem Laid.drop (k : Nat) : sq.Laid (p + used (wrs.take k)) (wrs.drop k) := by
  induction wrs generalizing p k with
  | nil => simp [Laid]
  | cons x wrs ih =>
    cases k with
    | zero => exact h
    | succ k =>
      rw [take_succ_cons, drop_succ_cons, used_cons, ← Nat.add_assoc]
      exact ih h.2 k

theorem Laid.length_le : wrs.length ≤ used wrs := by
  induction wrs generalizing p with
  | nil => exact Nat.zero_le _
  | cons x wrs ih =>
    have h1 := ih h.2
    have h2 := h.1.pos
    rw [used_cons, length_cons]
    omega

end Laid

section

variable (h : sq.Pending c p wrs)
include h

theorem Pending.inUse : sq.inUse = p + used wrs - c := by
  have h1 := h.le
  have h2 := h.ci
  have h3 := h.pi
  have h4 := h.fits
  have h5 := h.ok.size_lt
  unfold SendQueue.inUse
  omega

theorem Pending.overflow (hc : cnt ≤ 4) :
    sq.toCheckSqOverflow cnt = decide (c + sq.entryCnt < p + used wrs + cnt) := by
  have h1 := h.le
  have h4 := h.fits
  have h5 := h.ok.size_lt
  unfold toCheckSqOverflow
  rw [h.inUse, Nat.mod_eq_of_lt (by omega)]
  congr 1
  exact propext ⟨fun _ => by omega, fun _ => by omega⟩

theorem Pending.pi_mod : sq.pi % sq.entryCnt = (p + used wrs) % sq.entryCnt := by
  rw [h.pi, h.ok.mod_mod]

theorem Pending.pos_mod (hj : c ≤ j) (hj' : j < p + used wrs) :
    j % sq.entryCnt = (sq.pi + (sq.entryCnt - (p + used wrs - j))) % sq.entryCnt := by
  have h4 := h.fits
  rw [Nat.add_mod sq.pi, h.pi_mod, ← Nat.add_mod,
    show p + used wrs + (sq.entryCnt - (p + used wrs - j)) = j + sq.entryCnt by omega,
    Nat.add_mod_right]

end

def accepted (sq : SendQueue) (cnt : Nat) (m : List Nat) : SendQueue :=
  { sq.copyToSq cnt m with
    currBlk := sq.updatePtr cnt
    pi := (sq.pi + cnt) % 2 ^ 32 }

theorem Pending.accept {m : Wqe} (h : sq.Pending c p wrs) (hm : Made wr (sq.owner sq.pi) m)
    (hb : calWqebbNum m = wr.blocks) (hfit : p + used wrs + wr.blocks ≤ c + sq.entryCnt) :
    (sq.accepted wr.blocks m.words).Pending c p (wrs ++ [wr]) := by
  have hle := h.le
  have hpos := hm.pos
  have h4 := hm.le
  have henough := hm.enough
  rw [hb] at hpos h4 henough
  have hcnt : wr.blocks ≤ sq.entryCnt := by omega
  have hown : sq.owner (p + used wrs) = sq.owner sq.pi := by rw [h.pi, h.ok.owner_mod]
  have hnew : ∀ i, i < 16 * wr.blocks →
      (sq.accepted wr.blocks m.words).ring ((p + used wrs + i / 16) % sq.entryCnt) (i % 16) =
        (wr.layout (sq.owner (p + used wrs))).getD i 0 := fun i hi => by
    have h1 := copyToSq_ring (m := m.words) h.ok hcnt (show i / 16 < sq.entryCnt by omega) (i % 16)
    rw [if_pos (by omega), show 16 * (i / 16) + i % 16 = i by omega, hm.words] at h1
    rw [hown, ← h1, Nat.add_mod, ← h.pi_mod, ← Nat.add_mod, hm.words]
    rfl
  have hold : (sq.accepted wr.blocks m.words).Laid p wrs := h.laid.frame rfl fun j hj hj' w => by
    have h1 := h.fits
    rw [h.pos_mod (by omega) hj']
    exact (copyToSq_ring h.ok hcnt (by omega) w).trans (if_neg (by omega))
  refine ⟨⟨h.ok.size_lt, ?_, h.ok.sges, copyToSq_fault h.ok hcnt h4 henough⟩, hle, h.ci, ?_, ?_,
    hold.append ⟨hpos, ?_, ?_, fun i _ hi => hnew i hi⟩⟩
  · show sq.updatePtr _ = (sq.pi + wr.blocks) % 2 ^ 32 % sq.entryCnt
    rw [updatePtr_eq h.ok hcnt, h.ok.mod_mod]
  · show (sq.pi + wr.blocks) % 2 ^ 32 = _
    rw [used_append, h.pi, Nat.mod_add_mod, ← Nat.add_assoc]
    rfl
  · rw [used_append]
    show p + (used wrs + wr.blocks) ≤ c + sq.entryCnt
    omega
  · show (wr.layout (sq.owner (p + used wrs))).length ≤ _
    rw [hown, ← hm.words]
    exact henough
  · have h1 := hnew 0 (by omega)
    exact congrArg (· / 2 ^ 16) h1

theorem Pending.postOneWr (h : sq.Pending c p wrs) (en : Bool) (wr : JfsWr) :
    (∃ e, (sq.postOneWr en wr).2 = .error e) ∨
    ∃ sq', (sq.postOneWr en wr).2 = .ok sq' ∧ sq'.Pending c p (wrs ++ [wr]) ∧
      sq.currBlk = (p + used wrs) % sq.entryCnt ∧ sq'.shift = sq.shift := by
  cases hop : cdmaGetJfsOpcode wr.op with
  | none =>
    refine .inl ⟨.einval, ?_⟩
    unfold SendQueue.postOneWr
    rw [hop]
  | some opcode =>
    cases hs : sgeNumExceed sq.maxSgeNum wr.op with
    | true =>
      refine .inl ⟨.einval, ?_⟩
      unfold SendQueue.postOneWr
      rw [hop]
      dsimp only
      rw [hs, if_pos rfl]
    | false =>
      cases hset : setSqe wr (sq.owner sq.pi) opcode with
      | none =>
        refine .inl ⟨.einval, ?_⟩
        unfold SendQueue.postOneWr
        rw [hop]
        dsimp only
        rw [hs, if_neg Bool.false_ne_true, hset]
      | some m =>
        have hwqe : wr.wqe (sq.owner sq.pi) = some m := by rw [JfsWr.wqe, hop, Option.bind_some, hset]
        have hm := made_of_setSqe hs h.ok.sges hwqe
        have hb := calWqebbNum_eq_blocks hwqe
        have heq : (sq.postOneWr en wr).2 = if sq.toCheckSqOverflow wr.blocks then .error .enomem
            else .ok (sq.accepted wr.blocks m.words) := by
          unfold SendQueue.postOneWr
          rw [hop]
          dsimp only
          rw [hs, if_neg Bool.false_ne_true, hset]
          dsimp only
          rw [hb]
          split <;> rfl
        rw [heq, h.overflow (hb ▸ hm.le)]
        split
        · exact .inl ⟨_, rfl⟩
        rename_i hfit
        refine .inr ⟨_, rfl, h.accept hm hb (by simpa using hfit), ?_, rfl⟩
        rw [h.ok.curr, h.pi_mod]

theorem Pending.postList (h : sq.Pending c p wrs) (en : Bool) (addr : Nat) (new : List JfsWr) :
    (sq.postList en addr new).sq.Pending c p (wrs ++ (sq.postList en addr new).posted) ∧
    (sq.postList en addr new).sq.shift = sq.shift ∧
    (∃ rest, new = (sq.postList en addr new).posted ++ rest ∧
      (sq.postList en addr new).badWr.map Prod.fst = rest.head?) ∧
    ((sq.postList en addr new).posted = [] → (sq.postList en addr new).dwqeAddr = addr) ∧
    ((sq.postList en addr new).posted.length = 1 →
      (sq.postList en addr new).dwqeAddr = (p + used wrs) % sq.entryCnt) := by
  induction new generalizing sq wrs en addr with
  | nil =>
    have heq : sq.postList en addr [] = ⟨sq, [], en, addr, none⟩ := rfl
    rw [heq]
    exact ⟨by simpa using h, rfl, ⟨[], rfl, rfl⟩, fun _ => rfl, nofun⟩
  | cons wr new ih =>
    rcases hp : sq.postOneWr en wr with ⟨en', e | sq'⟩
    · have heq : sq.postList en addr (wr :: new) = ⟨sq, [], en', addr, some (wr, e)⟩ := by
        rw [SendQueue.postList, hp]
      rw [heq]
      exact ⟨by simpa using h, rfl, ⟨wr :: new, rfl, rfl⟩, fun _ => rfl, nofun⟩
    have heq : sq.postList en addr (wr :: new) = { sq'.postList en' sq.currBlk new with
        posted := wr :: (sq'.postList en' sq.currBlk new).posted } := by
      rw [SendQueue.postList, hp]
    have hone := h.postOneWr en wr
    rw [hp] at hone
    obtain ⟨_, h0⟩ | ⟨_, h0, hpend, hcurr, hshift⟩ := hone <;> cases h0
    obtain ⟨h1, h2, ⟨rest, h3, h4⟩, h5, -⟩ := ih hpend en' sq.currBlk
    rw [append_assoc] at h1
    rw [heq]
    refine ⟨h1, h2.trans hshift, ⟨rest, congrArg (wr :: ·) h3, h4⟩, nofun, fun hlen => ?_⟩
    rw [← hcurr]
    exact h5 (length_eq_zero_iff.mp (Nat.succ.inj hlen))

theorem Pending.setBbIdx (h : sq.Pending c p [wr]) (h1 : wr.blocks = 1) :
    (sq.setBbIdx (p % sq.entryCnt)).Pending c p [wr] := by
  refine ⟨⟨h.ok.size_lt, h.ok.curr, h.ok.sges, h.ok.fault⟩, h.le, h.ci, h.pi, h.fits, ?_, trivial⟩
  obtain ⟨hh, -⟩ := h.laid
  refine ⟨hh.pos, hh.enough, ?_, fun i h0 hi => ?_⟩
  · have h2 : (sq.setBbIdx (p % sq.entryCnt)).ring (p % sq.entryCnt) 0 =
        sq.ring (p % sq.entryCnt) 0 / 2 ^ 16 * 2 ^ 16 + sq.pi % 2 ^ 16 := if_pos ⟨rfl, rfl⟩
    show (sq.setBbIdx _).ring (p % sq.entryCnt) 0 / 2 ^ 16 = (wr.layout (sq.owner p)).getD 0 0 / 2 ^ 16
    rw [h2, ← hh.head]
    omega
  · show (if _ ∧ _ then _ else _) = _
    rw [if_neg (by omega)]
    exact hh.words i h0 hi

/-- The requests of a list that were posted, and what the device was told: the doorbell has the
producer index after them; a block is written directly only if it is that of the only request in
the queue, and its `sqe_bb_idx` is that index. -/
structure Posts (sq sq' : SendQueue) (normal : Bool) (old new : List JfsWr) (r : PostResult) : Prop where
  upTo : ∃ rest, new = r.posted ++ rest ∧ r.badWr.map Prod.fst = rest.head?
  told : normal = true → r.posted ≠ [] → r.told = some (.doorbell sq'.pi) ∨
    ∃ wr block, r.told = some (.direct block) ∧ old ++ r.posted = [wr] ∧ wr.blocks = 1 ∧
      block.getD 0 0 % 2 ^ 16 = sq'.pi % 2 ^ 16 ∧
      ∀ w, w < 16 → block.getD w 0 = sq'.ring (sq.pi % sq.entryCnt) w
  untold : r.posted = [] → r.told = none

theorem Pending.postSqWr (h : sq.Pending c p wrs) (normal : Bool) (new : List JfsWr) :
    (sq.postSqWr normal new).sq.Pending c p (wrs ++ (sq.postSqWr normal new).posted) ∧
    Posts sq (sq.postSqWr normal new).sq normal wrs new (sq.postSqWr normal new) := by
  obtain ⟨h1, h2, h3, -, h5⟩ := h.postList false 0 new
  generalize hr : sq.postList false 0 new = r at *
  have heq : sq.postSqWr normal new =
      if r.posted = [] ∨ normal = false then ⟨r.sq, r.posted, r.badWr, none⟩
      else if r.posted.length = 1 ∧ r.dwqeEnable = true ∧ r.sq.inUse = 1 then
        ⟨(r.sq.writeDsqe r.dwqeAddr).1, r.posted, r.badWr, some (r.sq.writeDsqe r.dwqeAddr).2⟩
      else ⟨r.sq, r.posted, r.badWr, some (.doorbell r.sq.pi)⟩ := by
    rw [← hr]
    rfl
  rw [heq]
  split
  · rename_i hno
    refine ⟨h1, h3, fun hn hne => ?_, fun _ => rfl⟩
    rcases hno with h0 | h0
    · exact absurd h0 hne
    · rw [hn] at h0
      cases h0
  rename_i hsome
  split
  · -- one block is in use, so that the one request is all there is
    rename_i hd
    obtain ⟨hlen, -, huse⟩ := hd
    have hall := h1.laid.length_le
    have hle := h1.le
    rw [h1.inUse] at huse
    rw [length_append, hlen] at hall
    obtain ⟨wr, hwr⟩ := length_eq_one_iff.mp hlen
    have hwrs : wrs = [] := length_eq_zero_iff.mp (by omega)
    subst hwrs
    rw [hwr] at h1
    rw [hwr, nil_append] at huse
    have hused : used [wr] = wr.blocks := by simp [used]
    have hpos := h1.laid.1.pos
    have hone : wr.blocks = 1 := by omega
    have hcnt : r.sq.entryCnt = sq.entryCnt := congrArg (2 ^ ·) h2
    have haddr : r.dwqeAddr = p % sq.entryCnt := h5 hlen
    have hpi : sq.pi % sq.entryCnt = p % sq.entryCnt := h.pi_mod
    have h6 := Pending.setBbIdx h1 hone
    rw [hcnt] at h6
    have hblock : ∀ w, w < 16 → ((List.range 16).map ((r.sq.setBbIdx (p % sq.entryCnt)).ring
        (p % sq.entryCnt))).getD w 0 = (r.sq.setBbIdx (p % sq.entryCnt)).ring (p % sq.entryCnt) w :=
      fun w hw => by
        simp [hw]
    rw [haddr, hwr]
    refine ⟨h6, ⟨_, hwr ▸ h3.choose_spec.1, h3.choose_spec.2⟩, fun _ _ => .inr
      ⟨wr, _, rfl, rfl, hone, ?_, fun w hw => ?_⟩, nofun⟩
    · show ((List.range 16).map _).getD 0 0 % 2 ^ 16 = r.sq.pi % 2 ^ 16
      rw [hblock 0 (by decide)]
      show (if _ ∧ _ then _ else _) % 2 ^ 16 = _
      rw [if_pos ⟨rfl, rfl⟩]
      omega
    · rw [hpi]
      exact hblock w hw
  · exact ⟨h1, h3, fun _ _ => .inl rfl, fun h0 => absurd (.inl h0) hsome⟩

theorem Pending.parseCqe {cqe : Cqe} {b k : Nat} (h : sq.Pending c p wrs)
    (hb : p + used (wrs.take k) ≤ b) (hb' : b < p + used (wrs.take (k + 1)))
    (he : cqe.entryIdx % sq.entryCnt = b % sq.entryCnt) (hfd : cqe.fd = false) :
    ∃ c', (sq.parseCqe cqe).Pending c' (p + used (wrs.take (k + 1))) (wrs.drop (k + 1)) := by
  have hle := h.le
  have hsplit : used wrs = used (wrs.take (k + 1)) + used (wrs.drop (k + 1)) := by
    rw [← used_append, take_append_drop]
  have hfits := h.fits
  have hsize := h.ok.size_lt
  -- the distance to the block is less than the ring
  have hdist : (cqe.entryIdx + 2 ^ 32 - sq.ci) % 2 ^ 32 % sq.entryCnt = b - c := by
    have hdvd : sq.entryCnt ∣ 2 ^ 32 := Nat.pow_dvd_pow 2 (Nat.le_trans h.ok.shift_le (by decide))
    have h1 : cqe.entryIdx + 2 ^ 32 - sq.ci + c = cqe.entryIdx + 2 ^ 32 * (c / 2 ^ 32 + 1) := by
      have := h.ci
      omega
    have h2 : (cqe.entryIdx + 2 ^ 32 - sq.ci + c) % sq.entryCnt = (b - c + c) % sq.entryCnt := by
      rw [h1, Nat.sub_add_cancel (by omega), Nat.add_mod,
        Nat.mod_eq_zero_of_dvd (Nat.dvd_mul_right_of_dvd hdvd _), Nat.add_zero, Nat.mod_mod, he]
    have h3 : (cqe.entryIdx + 2 ^ 32 - sq.ci) % sq.entryCnt = (b - c) % sq.entryCnt :=
      Nat.ModEq.add_right_cancel' c h2
    rw [h.ok.mod_mod, h3, Nat.mod_eq_of_lt (by omega)]
  have hci : sq.parseCqe cqe = { sq with ci := (if cqe.known then b + 1 else b) % 2 ^ 32 } := by
    unfold SendQueue.parseCqe
    rw [hfd, if_neg Bool.false_ne_true, hdist, h.ci]
    have h1 : (c % 2 ^ 32 + (b - c)) % 2 ^ 32 = b % 2 ^ 32 := by omega
    dsimp only
    rw [h1]
    cases cqe.known with
    | true => rw [if_pos rfl, if_pos rfl, Nat.mod_add_mod]
    | false => rfl
  rw [hci]
  refine ⟨if cqe.known then b + 1 else b, ⟨h.ok.size_lt, h.ok.curr, h.ok.sges, h.ok.fault⟩, ?_, rfl, ?_, ?_,
    (h.laid.drop (k + 1)).frame rfl fun _ _ _ _ => rfl⟩
  · split <;> omega
  · rw [Nat.add_assoc, ← hsplit]
    exact h.pi
  · show _ ≤ _ + sq.entryCnt
    split <;> omega

end SendQueue

namespace Sq

variable {s : Sq}

/-- The pending requests of the queue, for some block that `ci` stands for. -/
def Inv (s : Sq) : Prop := ∃ c, s.sq.Pending c s.first s.pending

theorem Inv.act (h : s.Inv) {a : SqAct} (ha : s.Reports a) : (s.act a).Inv := by
  obtain ⟨c, h⟩ := h
  cases a with
  | post normal wrs => exact ⟨c, (h.postSqWr normal wrs).1⟩
  | poll k cqe =>
    dsimp only [Sq.act]
    split
    · rename_i hfd
      have heq : s.sq.parseCqe cqe = s.sq := if_pos hfd
      rw [heq]
      exact ⟨c, h⟩
    rename_i hfd
    obtain hfd' | ⟨-, b, hb, hb', he⟩ := ha
    · exact absurd hfd' hfd
    · exact h.parseCqe hb hb' he (Bool.not_eq_true _ ▸ hfd)

def init (shift maxSgeNum : Nat) (directWqe : Bool) : Sq := { sq := { shift, maxSgeNum, directWqe } }

theorem init_inv {shift maxSgeNum : Nat} (hsize : 64 * 2 ^ shift < 2 ^ 32) (hs : maxSgeNum ≤ 13)
    (d : Bool) : (init shift maxSgeNum d).Inv :=
  ⟨0, ⟨hsize, (Nat.zero_mod _).symm, hs, rfl⟩, Nat.le_refl _, rfl, rfl, Nat.zero_le _, trivial⟩

/-- In every run, of a ring whose size in bytes is a `u32`: the requests whose completion was not
polled lie in the ring, each in the blocks after the previous one, which are enough for its control
part, data and elements and have the owner bit of the pass; nothing outside is touched; the producer
index is the block after the last of them; and a list is posted up to the first request that fails,
with the producer index told if the device is in its normal state. -/
theorem requests_laid {shift maxSgeNum : Nat} {d : Bool} (hsize : 64 * 2 ^ shift < 2 ^ 32)
    (hs : maxSgeNum ≤ 13) (h : Reach Reports act (init shift maxSgeNum d) s) :
    s.sq.Laid s.first s.pending ∧ s.sq.fault = false ∧
      s.sq.pi = (s.first + used s.pending) % 2 ^ 32 ∧ used s.pending ≤ s.sq.entryCnt ∧
      ∀ normal wrs, SendQueue.Posts s.sq (s.act (.post normal wrs)).sq normal s.pending wrs
        (s.sq.postSqWr normal wrs) := by
  obtain ⟨c, i⟩ : s.Inv := h.invariant (init_inv hsize hs d) fun _ _ i ha => i.act ha
  have hle := i.le
  have hfits := i.fits
  exact ⟨i.laid, i.ok.fault, i.pi, by omega, fun normal wrs => (i.postSqWr normal wrs).2⟩

def oneWrite : JfsWr := ⟨.write [⟨4096, 64, 3⟩] ⟨8192, 5, true, 7⟩ 0, 32, 9, 1⟩

/-- A request is posted and polled in a ring of four blocks, then one more is posted. -/
def postPollPost : List SqAct :=
  [.post true [oneWrite], .poll 0 ⟨0, false, true⟩, .post true [oneWrite]]

theorem postPollPost_reports : Reach.Along Reports act (init 2 13 true) postPollPost :=
  ⟨trivial, .inr ⟨by decide +kernel, 0, by decide +kernel, by decide +kernel, rfl⟩, trivial, trivial⟩

theorem requests_laid_one : (postPollPost.foldl act (init 2 13 true)).sq.pi = 2 ∧
    (postPollPost.foldl act (init 2 13 true)).sq.fault = false :=
  ⟨by decide +kernel,
    (requests_laid (by decide) (by decide) (Reach.init.along postPollPost_reports)).2.1⟩

/-- If the device is not in its normal state, a list is posted, the call returns 0, and the device is
told nothing. -/
theorem posted_untold : ((init 2 13 true).sq.postSqWr false [oneWrite]).posted = [oneWrite] ∧
    ((init 2 13 true).sq.postSqWr false [oneWrite]).badWr = none ∧
    ((init 2 13 true).sq.postSqWr false [oneWrite]).sq.pi = 1 ∧
    ((init 2 13 true).sq.postSqWr false [oneWrite]).told = none := by
  decide +kernel

end Sq

end UbDkms.Cdma
