import UbDkms.Lib.Ring
import UbDkms.Udma.SendQueueWqe

/-!
# Posting and flushing

The requests that are posted and not flushed lie in the ring one after the other, each in
its own blocks. Flushing returns them in that order, unless the length that was put in the
place of the element count makes it read elements that are not there.
-/

namespace UbDkms.Udma

open Lib List

namespace SendQueue

variable {sq : SendQueue} {cnt j p : Nat} {m : Nat → Nat} {wr : JfsWr}

structure Ok (sq : SendQueue) : Prop where
  two_le : 2 ≤ sq.shift
  le_31 : sq.shift ≤ 31
  pi_lt : sq.pi < 2 ^ 32
  ci_lt : sq.ci < 2 ^ 32
  curr : sq.currBlk = sq.pi % sq.entryCnt
  sges : sq.maxSgeNum ≤ 13
  inline : sq.maxInlineSize ≤ 208
  fault : sq.fault = false

section

variable (h : sq.Ok)
include h

theorem Ok.four_le : 4 ≤ sq.entryCnt :=
  calc 4 = 2 ^ 2 := rfl
    _ ≤ 2 ^ sq.shift := Nat.pow_le_pow_right (by omega) h.two_le

theorem Ok.dvd : sq.entryCnt ∣ 2 ^ 32 := Nat.pow_dvd_pow 2 (Nat.le_trans h.le_31 (by omega))

theorem Ok.entryCnt_le : sq.entryCnt ≤ 2 ^ 31 := Nat.pow_le_pow_right (by omega) h.le_31

theorem Ok.mod_mod (x : Nat) : x % 2 ^ 32 % sq.entryCnt = x % sq.entryCnt :=
  Nat.mod_mod_of_dvd x h.dvd

theorem copyToSq_ring (hc : cnt ≤ 4) (hj : j < sq.entryCnt) (w : Nat) :
    (sq.copyToSq cnt m).ring ((sq.pi + j) % sq.entryCnt) w =
      if j < cnt then m (16 * j + w) else sq.ring ((sq.pi + j) % sq.entryCnt) w := by
  dsimp only [copyToSq]
  rw [h.curr]
  exact ringCopy_eq (f := fun k => m (16 * k + w)) (hc.trans h.four_le) hj

theorem copyToSq_fault (hc : cnt ≤ 4) : (sq.copyToSq cnt m).fault = false := by
  have h4 := h.four_le
  have hlt := Nat.mod_lt sq.pi (show 0 < sq.entryCnt by omega)
  dsimp only [copyToSq]
  rw [h.curr, h.fault]
  by_cases hf : cnt < sq.entryCnt - sq.pi % sq.entryCnt
  · rw [if_pos hf, decide_eq_false (by omega), decide_eq_false (by omega), decide_eq_false (by omega)]
    rfl
  · rw [if_neg hf, decide_eq_false (by omega), decide_eq_false (by omega), decide_eq_false (by omega)]
    rfl

theorem incPtrWrap_eq (hc : cnt ≤ 4) : sq.incPtrWrap cnt = (sq.pi + cnt) % sq.entryCnt := by
  have h4 := h.four_le
  unfold incPtrWrap
  rw [ring_add (by omega) (by omega), h.curr]

theorem setWrid_new {ctx : Nat} : 0 < cnt → cnt ≤ 4 →
    sq.setWrid ctx cnt (sq.pi % sq.entryCnt) = ctx := by
  have h4 := h.four_le
  induction cnt with
  | zero => intro h0; exact absurd h0 (Nat.lt_irrefl 0)
  | succ i ih =>
    intro _ hc
    unfold setWrid
    rcases Nat.eq_zero_or_pos i with rfl | hi
    · rw [Nat.add_zero, h.mod_mod, Function.update_self]
    rw [h.mod_mod, Function.update_of_ne, ih hi (by omega)]
    intro heq
    exact absurd (ring_inj (by omega) (by omega) heq) (Nat.ne_of_lt hi)

theorem setWrid_old {ctx : Nat} (hn : j < sq.entryCnt) : cnt ≤ j →
    sq.setWrid ctx cnt ((sq.pi + j) % sq.entryCnt) = sq.wrid ((sq.pi + j) % sq.entryCnt) := by
  have h4 := h.four_le
  induction cnt with
  | zero => intro _; rfl
  | succ i ih =>
    intro hc
    unfold setWrid
    rw [h.mod_mod, Function.update_of_ne, ih (by omega)]
    intro heq
    exact absurd (ring_inj hn (by omega) heq) (by omega)

theorem copyFromSq_eq {w : Nat} (hj : j < 4) (hw : w < 16) :
    sq.copyFromSq (16 * j + w) = sq.ring ((sq.ci + j) % sq.entryCnt) w := by
  have h4 := h.four_le
  have hlt := Nat.mod_lt sq.ci (show 0 < sq.entryCnt by omega)
  unfold copyFromSq
  rw [show (16 * j + w) / 16 = j by omega, show (16 * j + w) % 16 = w by omega,
    ring_add (by omega) (by omega)]
  dsimp only
  generalize sq.ci % sq.entryCnt = r at *
  generalize sq.entryCnt = n at *
  by_cases hw : r + j < n
  · rw [if_pos hw, if_pos (by split <;> omega)]
  · rw [if_neg hw, if_neg (show ¬ 4 < n - r by omega), if_neg (by omega), show j - (n - r) = r + j - n by omega]

end

/-- The request `wr` lies in the ring from the position `p` on. -/
structure Holds (sq : SendQueue) (p : Nat) (wr : JfsWr) : Prop where
  pos : 1 ≤ wr.blocks
  le : wr.blocks ≤ 4
  back : ∀ m : Nat → Nat,
    (∀ j w, j < wr.blocks → w < 16 → m (16 * j + w) = sq.ring ((p + j) % sq.entryCnt) w) →
      getWqebbNum m = wr.blocks ∧ fillCrBySqeCtl m = (wr.completionLen, false)
  wrid : sq.wrid (p % sq.entryCnt) = wr.userCtx

def Laid (sq : SendQueue) : Nat → List JfsWr → Prop
  | _, [] => True
  | p, wr :: wrs => sq.Holds p wr ∧ sq.Laid (p + wr.blocks) wrs

def used (wrs : List JfsWr) : Nat := (wrs.map JfsWr.blocks).sum

structure Pending (sq : SendQueue) (wrs : List JfsWr) : Prop where
  ok : sq.Ok
  laid : sq.Laid sq.ci wrs
  pi : sq.pi = (sq.ci + used wrs) % 2 ^ 32
  fits : used wrs ≤ sq.entryCnt

section Laid

variable {sq' : SendQueue} {wrs : List JfsWr} {q : Nat}

theorem Holds.congr (he : sq'.entryCnt = sq.entryCnt)
    (hring : ∀ j, j < wr.blocks → ∀ w, sq'.ring ((q + j) % sq.entryCnt) w = sq.ring ((p + j) % sq.entryCnt) w)
    (hwrid : sq'.wrid (q % sq.entryCnt) = sq.wrid (p % sq.entryCnt)) (h : sq.Holds p wr) : sq'.Holds q wr := by
  refine ⟨h.pos, h.le, fun m hm => h.back m fun j w hj hw => ?_, ?_⟩
  · rw [hm j w hj hw, he, hring j hj]
  · rw [he, hwrid, h.wrid]

theorem Laid.shift (hpq : p % sq.entryCnt = q % sq.entryCnt) (h : sq.Laid p wrs) : sq.Laid q wrs := by
  induction wrs generalizing p q with
  | nil => trivial
  | cons wr wrs ih =>
    have hadd : ∀ j, (q + j) % sq.entryCnt = (p + j) % sq.entryCnt := fun j => by
      rw [Nat.add_mod, ← hpq, ← Nat.add_mod]
    refine ⟨h.1.congr rfl (fun j _ w => by rw [hadd]) (by rw [hpq]), ih (hadd _).symm h.2⟩

theorem Laid.frame (he : sq'.entryCnt = sq.entryCnt)
    (hring : ∀ j, p ≤ j → j < p + used wrs → ∀ w, sq'.ring (j % sq.entryCnt) w = sq.ring (j % sq.entryCnt) w)
    (hwrid : ∀ j, p ≤ j → j < p + used wrs → sq'.wrid (j % sq.entryCnt) = sq.wrid (j % sq.entryCnt))
    (h : sq.Laid p wrs) : sq'.Laid p wrs := by
  induction wrs generalizing p with
  | nil => trivial
  | cons wr wrs ih =>
    have hused : used (wr :: wrs) = wr.blocks + used wrs := rfl
    have hpos := h.1.pos
    refine ⟨h.1.congr he (fun j hj w => hring _ (by omega) (by omega) w) (hwrid _ (by omega) (by omega)),
      ih (fun j h1 h2 w => hring j (by omega) (by omega) w) (fun j h1 h2 => hwrid j (by omega) (by omega)) h.2⟩

theorem Laid.append (h : sq.Laid p wrs) (hq : sq.Holds (p + used wrs) wr) : sq.Laid p (wrs ++ [wr]) := by
  induction wrs generalizing p with
  | nil => exact ⟨hq, trivial⟩
  | cons x wrs ih =>
    have hused : used (x :: wrs) = x.blocks + used wrs := rfl
    refine ⟨h.1, ih h.2 ?_⟩
    rw [Nat.add_assoc, ← hused]
    exact hq

theorem used_append : used (wrs ++ [wr]) = used wrs + wr.blocks := by
  unfold used
  rw [map_append, sum_append, map_singleton, sum_singleton]

end Laid

section Post

variable {wrs : List JfsWr} {sq' : SendQueue}

section

variable (h : sq.Pending wrs)
include h

theorem Pending.pi_mod : sq.pi % sq.entryCnt = (sq.ci + used wrs) % sq.entryCnt := by
  rw [h.pi, h.ok.mod_mod]

theorem Pending.pi_sub_ci : (sq.pi + 2 ^ 32 - sq.ci) % 2 ^ 32 = used wrs := by
  have h1 := h.fits
  have h2 := h.ok.entryCnt_le
  have h3 := h.ok.ci_lt
  have h4 := h.pi
  omega

theorem Pending.overflow (hc : cnt ≤ 4) :
    sq.toCheckSqOverflow cnt = decide (sq.entryCnt < used wrs + cnt) := by
  have hfits := h.fits
  have hn := h.ok.entryCnt_le
  unfold toCheckSqOverflow
  rw [h.pi_sub_ci, Nat.mod_eq_of_lt (show used wrs + cnt < 2 ^ 32 by omega)]

theorem Pending.pos_mod (d : Nat) :
    (sq.ci + d) % sq.entryCnt = (sq.pi + (sq.entryCnt - used wrs + d)) % sq.entryCnt := by
  have hfits := h.fits
  rw [Nat.add_mod sq.pi, h.pi_mod, ← Nat.add_mod,
    show sq.ci + used wrs + (sq.entryCnt - used wrs + d) = sq.ci + d + sq.entryCnt by omega, Nat.add_mod_right]

end

def accepted (sq : SendQueue) (wr : JfsWr) (s : Scratch) (cnt : Nat) : SendQueue :=
  { sq.copyToSq cnt s.word with
    currBlk := sq.incPtrWrap cnt
    wrid := sq.setWrid wr.userCtx cnt
    pi := incIdx sq.pi cnt
    fault := (sq.copyToSq cnt s.word).fault || s.fault }

theorem Pending.accept {s : Scratch} (h : sq.Pending wrs) (hr : Reads s wr)
    (hfit : used wrs + wr.blocks ≤ sq.entryCnt)
    (hs : sq' = sq.accepted wr s wr.blocks) : sq'.Pending (wrs ++ [wr]) := by
  have hok := h.ok
  have hpos := hr.pos
  have hle := hr.le
  have hcnt : sq'.entryCnt = sq.entryCnt := by rw [hs]; rfl
  have hring : ∀ b w, sq'.ring b w = (sq.copyToSq wr.blocks s.word).ring b w := by intros; rw [hs]; rfl
  have hwrid : ∀ b, sq'.wrid b = sq.setWrid wr.userCtx wr.blocks b := by intros; rw [hs]; rfl
  have hpi : sq'.pi = (sq.pi + wr.blocks) % 2 ^ 32 := by rw [hs]; rfl
  have hci : sq'.ci = sq.ci := by rw [hs]; rfl
  have hnew : sq'.Holds (sq.ci + used wrs) wr := by
    refine ⟨hpos, hle, fun m hm => hr.back m fun i hi => ?_, ?_⟩
    · have := hm (i / 16) (i % 16) (by omega) (by omega)
      rw [show 16 * (i / 16) + i % 16 = i by omega] at this
      rw [this, hcnt, hring, Nat.add_mod, ← h.pi_mod, ← Nat.add_mod, copyToSq_ring hok hle (by omega),
        if_pos (by omega), show 16 * (i / 16) + i % 16 = i by omega]
    · rw [hcnt, hwrid, ← h.pi_mod, setWrid_new hok hpos hle]
  refine ⟨?_, ?_, ?_, ?_⟩
  · refine ⟨by rw [hs]; exact hok.two_le, by rw [hs]; exact hok.le_31, by rw [hpi]; exact Nat.mod_lt _ (by omega),
      by rw [hci]; exact hok.ci_lt, ?_, by rw [hs]; exact hok.sges, by rw [hs]; exact hok.inline, ?_⟩
    · rw [hcnt, hpi, hok.mod_mod, ← incPtrWrap_eq hok hle, hs]
      rfl
    · rw [hs]
      exact Bool.or_eq_false_iff.mpr ⟨copyToSq_fault hok hle, hr.fault⟩
  · rw [hci]
    refine (h.laid.frame hcnt (fun j h1 h2 w => ?_) fun j h1 h2 => ?_).append hnew
    · have := h.pos_mod (j - sq.ci)
      rw [show sq.ci + (j - sq.ci) = j by omega] at this
      rw [hring, this, copyToSq_ring hok hle (by omega), if_neg (by omega)]
    · have := h.pos_mod (j - sq.ci)
      rw [show sq.ci + (j - sq.ci) = j by omega] at this
      rw [hwrid, this, setWrid_old hok (by omega) (by omega)]
  · rw [hpi, hci, used_append, h.pi]
    omega
  · rw [hcnt, used_append]
    exact hfit

def Valid (sq : SendQueue) (wr : JfsWr) : Prop :=
  ∃ opcode, udmaGetJfsOpcode sq.atomicAddEn wr.opcode = some opcode ∧ wr.checkSgeNum sq.maxSgeNum = false ∧
    ∀ owner, (wr.setSqe owner opcode sq.maxInlineSize).isSome

structure SameLimits (sq sq' : SendQueue) : Prop where
  shift : sq'.shift = sq.shift
  inline : sq'.maxInlineSize = sq.maxInlineSize
  sges : sq'.maxSgeNum = sq.maxSgeNum
  atomic : sq'.atomicAddEn = sq.atomicAddEn

theorem SameLimits.refl : SameLimits sq sq := ⟨rfl, rfl, rfl, rfl⟩

theorem SameLimits.trans {sq'' : SendQueue} (h : SameLimits sq sq') (h' : SameLimits sq' sq'') :
    SameLimits sq sq'' :=
  ⟨h'.shift.trans h.shift, h'.inline.trans h.inline, h'.sges.trans h.sges, h'.atomic.trans h.atomic⟩

theorem SameLimits.entryCnt (h : SameLimits sq sq') : sq'.entryCnt = sq.entryCnt := congrArg (2 ^ ·) h.shift

theorem SameLimits.valid (h : SameLimits sq sq') (hv : sq.Valid wr) : sq'.Valid wr := by
  unfold Valid
  rw [h.atomic, h.sges, h.inline]
  exact hv

theorem postOneWr_eq {opcode : Nat} {s : Scratch}
    (hop : udmaGetJfsOpcode sq.atomicAddEn wr.opcode = some opcode)
    (hsge : wr.checkSgeNum sq.maxSgeNum = false)
    (hset : wr.setSqe (decide (sq.pi / sq.entryCnt % 2 = 0)) opcode sq.maxInlineSize = some s) :
    sq.postOneWr wr = if sq.toCheckSqOverflow (getWqebbNum s.word) then .error .enomem
      else .ok (sq.accepted wr s (getWqebbNum s.word)) := by
  unfold SendQueue.postOneWr
  rw [hop]
  dsimp only
  rw [hsge, if_neg Bool.false_ne_true, hset]
  rfl

theorem postOneWr_einval (h : sq.postOneWr wr = .error .einval) : ¬ sq.Valid wr := by
  rintro ⟨opcode, hop, hsge, hset⟩
  obtain ⟨s, hs⟩ := Option.isSome_iff_exists.mp (hset (decide (sq.pi / sq.entryCnt % 2 = 0)))
  rw [postOneWr_eq hop hsge hs] at h
  split at h <;> cases h

theorem postOneWr_cases (sq : SendQueue) (wr : JfsWr) : sq.postOneWr wr = .error .einval ∨
    ∃ opcode s, udmaGetJfsOpcode sq.atomicAddEn wr.opcode = some opcode ∧ wr.checkSgeNum sq.maxSgeNum = false ∧
      wr.setSqe (decide (sq.pi / sq.entryCnt % 2 = 0)) opcode sq.maxInlineSize = some s := by
  cases hop : udmaGetJfsOpcode sq.atomicAddEn wr.opcode with
  | none =>
    refine .inl ?_
    unfold SendQueue.postOneWr
    rw [hop]
  | some opcode =>
    cases hsge : wr.checkSgeNum sq.maxSgeNum with
    | true =>
      refine .inl ?_
      unfold SendQueue.postOneWr
      rw [hop]
      dsimp only
      rw [hsge, if_pos rfl]
    | false =>
      cases hset : wr.setSqe (decide (sq.pi / sq.entryCnt % 2 = 0)) opcode sq.maxInlineSize with
      | none =>
        refine .inl ?_
        unfold SendQueue.postOneWr
        rw [hop]
        dsimp only
        rw [hsge, if_neg Bool.false_ne_true, hset]
      | some s => exact .inr ⟨opcode, s, rfl, rfl, hset⟩

theorem Pending.postOneWr (h : sq.Pending wrs) (hfine : wr.Fine sq.maxInlineSize) :
    sq.postOneWr wr = .error .einval ∨
      sq.postOneWr wr = .error .enomem ∧ sq.entryCnt < used wrs + wr.blocks ∨
      ∃ sq', sq.postOneWr wr = .ok sq' ∧ sq'.Pending (wrs ++ [wr]) ∧ SameLimits sq sq' := by
  rcases postOneWr_cases sq wr with he | ⟨opcode, s, hop, hsge, hset⟩
  · exact .inl he
  have hr := setSqe_reads hop hsge h.ok.sges h.ok.inline hfine hset
  have hnum : getWqebbNum s.word = wr.blocks := (hr.back s.word fun _ _ => rfl).1
  have heq := postOneWr_eq hop hsge hset
  rw [hnum, h.overflow hr.le] at heq
  by_cases hfull : sq.entryCnt < used wrs + wr.blocks
  · rw [decide_eq_true hfull, if_pos rfl] at heq
    exact .inr (.inl ⟨heq, hfull⟩)
  · rw [decide_eq_false hfull, if_neg Bool.false_ne_true] at heq
    exact .inr (.inr ⟨_, heq, h.accept hr (Nat.not_lt.mp hfull) rfl, ⟨rfl, rfl, rfl, rfl⟩⟩)

theorem Pending.postAll {new : List JfsWr} (h : sq.Pending wrs) (hfine : ∀ wr ∈ new, wr.Fine sq.maxInlineSize) :
    (sq.postAll new).1.Pending (wrs ++ (sq.postAll new).2.1) ∧ SameLimits sq (sq.postAll new).1 ∧
      ((sq.postAll new).2.2 = none → (sq.postAll new).2.1 = new) ∧
      ∀ wr e, (sq.postAll new).2.2 = some (wr, e) →
        (e = .enomem → sq.entryCnt < used (wrs ++ (sq.postAll new).2.1) + wr.blocks) ∧
        (sq.Valid wr → e = .enomem) := by
  induction new generalizing sq wrs with
  | nil =>
    refine ⟨?_, .refl, fun _ => rfl, nofun⟩
    rw [show (sq.postAll []).2.1 = [] from rfl, append_nil]
    exact h
  | cons wr new ih =>
    have hone := h.postOneWr (hfine wr mem_cons_self)
    unfold SendQueue.postAll
    rcases hone with hp | ⟨hp, hfull⟩ | ⟨sq', hp, hpend, hlim⟩
    · rw [hp]
      rw [append_nil]
      refine ⟨h, .refl, nofun, fun wr' e' hr => ?_⟩
      cases hr
      exact ⟨nofun, fun hv => absurd hv (postOneWr_einval hp)⟩
    · rw [hp]
      rw [append_nil]
      refine ⟨h, .refl, nofun, fun wr' e' hr => ?_⟩
      cases hr
      exact ⟨fun _ => hfull, fun _ => rfl⟩
    rw [hp]
    obtain ⟨h1, h2, h3, h4⟩ := ih hpend fun x hx => by
      rw [hlim.inline]
      exact hfine x (mem_cons_of_mem _ hx)
    rw [append_assoc] at h1 h4
    refine ⟨h1, hlim.trans h2, fun hr => ?_, fun wr' e hr => ?_⟩
    · exact congrArg (wr :: ·) (h3 hr)
    · obtain ⟨h5, h6⟩ := h4 wr' e hr
      rw [hlim.entryCnt] at h5
      exact ⟨h5, fun hv => h6 (hlim.valid hv)⟩

end Post

def cr (wr : JfsWr) : Cr := { userCtx := wr.userCtx, completionLen := wr.completionLen }

section Flush

variable {wrs : List JfsWr}

theorem Pending.ci_ne (h : sq.Pending (wr :: wrs)) : sq.ci ≠ sq.pi := by
  have hpi := h.pi
  have hfits := h.fits
  have hpos := h.laid.1.pos
  have hn := h.ok.entryCnt_le
  have hused : used (wr :: wrs) = wr.blocks + used wrs := rfl
  omega

theorem Pending.flushSq (h : sq.Pending (wr :: wrs)) :
    sq.flushSq.1.Pending wrs ∧ sq.flushSq.2 = cr wr := by
  have hok := h.ok
  obtain ⟨hh, hrest⟩ := h.laid
  have hused : used (wr :: wrs) = wr.blocks + used wrs := rfl
  have hle := hh.le
  obtain ⟨hnum, hcr⟩ := hh.back sq.copyFromSq fun j w hj hw => copyFromSq_eq hok (by omega) hw
  have hci : sq.flushSq.1.ci = (sq.ci + wr.blocks) % 2 ^ 32 := by
    dsimp only [SendQueue.flushSq]
    rw [hnum]
    rfl
  refine ⟨⟨{ hok with ci_lt := ?_, fault := ?_ }, ?_, ?_, ?_⟩, ?_⟩
  · rw [hci]
    exact Nat.mod_lt _ (by omega)
  · dsimp only [SendQueue.flushSq]
    rw [hcr]
    exact Bool.or_eq_false_iff.mpr ⟨hok.fault, rfl⟩
  · rw [hci]
    have hshift : sq.Laid ((sq.ci + wr.blocks) % 2 ^ 32) wrs := hrest.shift (hok.mod_mod _).symm
    have hcnt : sq.flushSq.1.entryCnt = sq.entryCnt := rfl
    exact hshift.frame hcnt (fun _ _ _ _ => rfl) fun _ _ _ => rfl
  · have hpi := h.pi
    rw [hused] at hpi
    rw [hci, show sq.flushSq.1.pi = sq.pi from rfl]
    omega
  · have hfits := h.fits
    rw [show sq.flushSq.1.entryCnt = sq.entryCnt from rfl]
    omega
  · dsimp only [SendQueue.flushSq, cr]
    rw [hcr, hh.wrid]

theorem Pending.flushJfs {n : Nat} (h : sq.Pending wrs) :
    (sq.flushJfs n).2 = (wrs.take n).map cr ∧ (sq.flushJfs n).1.Pending (wrs.drop n) := by
  induction n generalizing sq wrs with
  | zero => exact ⟨rfl, h⟩
  | succ n ih =>
    unfold SendQueue.flushJfs
    cases wrs with
    | nil =>
      have hpi : sq.ci = sq.pi := by
        have hpi := h.pi
        have hci := h.ok.ci_lt
        have hused : used [] = 0 := rfl
        omega
      rw [if_pos hpi]
      exact ⟨rfl, h⟩
    | cons wr wrs =>
      obtain ⟨hpend, hcr⟩ := h.flushSq
      obtain ⟨hcrs, hrest⟩ := ih hpend
      rw [if_neg h.ci_ne]
      refine ⟨?_, hrest⟩
      dsimp only
      rw [hcr, hcrs]
      rfl

end Flush

/-- Requests are posted to an empty queue until one is refused, and then flushed: flushing returns the accepted
requests in order, each with its context and its length; a request is refused for lack of space exactly if its
blocks do not fit; and nothing outside the WQE and the ring is touched. -/
theorem post_flush {wrs : List JfsWr} (hok : sq.Ok) (hempty : sq.pi = sq.ci)
    (hfine : ∀ wr ∈ wrs, wr.Fine sq.maxInlineSize) (n : Nat) :
    ((sq.postAll wrs).1.flushJfs n).2 = ((sq.postAll wrs).2.1.take n).map cr ∧
      ((sq.postAll wrs).2.2 = none → (sq.postAll wrs).2.1 = wrs) ∧
      used (sq.postAll wrs).2.1 ≤ sq.entryCnt ∧
      (∀ wr e, (sq.postAll wrs).2.2 = some (wr, e) →
        (e = .enomem → sq.entryCnt < used (sq.postAll wrs).2.1 + wr.blocks) ∧ (sq.Valid wr → e = .enomem)) ∧
      (sq.postAll wrs).1.fault = false ∧ ((sq.postAll wrs).1.flushJfs n).1.fault = false := by
  have hstart : sq.Pending [] := by
    refine ⟨hok, trivial, ?_, Nat.zero_le _⟩
    have hci := hok.ci_lt
    have hused : used [] = 0 := rfl
    omega
  obtain ⟨h1, h2, h3, h4⟩ := hstart.postAll hfine
  rw [nil_append] at h1 h4
  obtain ⟨h5, h6⟩ := h1.flushJfs
  have hfits := h1.fits
  rw [h2.entryCnt] at hfits
  exact ⟨h5, h3, hfits, h4, h1.ok.fault, h6.ok.fault⟩

end SendQueue

def emptyQueue : SendQueue where
  shift := 2
  maxInlineSize := 208
  maxSgeNum := 13
  atomicAddEn := true
  pi := 0
  ci := 0
  currBlk := 0
  ring := fun _ _ => 0
  wrid := fun _ => 0
  fault := false

theorem emptyQueue_ok : emptyQueue.Ok :=
  ⟨by decide, by decide, by decide, by decide, by decide, by decide, by decide, rfl⟩

def request (opcode : UbcoreOpc) (userCtx : Nat) (src dst : List LocalSge) : JfsWr where
  opcode := opcode
  inlineFlag := false
  userCtx := userCtx
  src := src
  dst := dst
  low := 0
  high := 0
  targetHint := 0
  tpn := 0
  rmtObjId := 0
  rest := fun _ => 0
  data := fun _ => 0

def fiveBytes : LocalSge := ⟨0, 5, by decide⟩

namespace SendQueue

theorem request_fine {opcode : UbcoreOpc} {userCtx : Nat} {src dst : List LocalSge}
    (h : opcode ≠ .writeAtomic) :
    (request opcode userCtx src dst).Fine emptyQueue.maxInlineSize :=
  ⟨nofun, nofun, fun hat => absurd hat h⟩

/-- A send of two elements and a read of one come back with ten and five bytes. -/
theorem post_flush_two : ∃ wrs : List JfsWr, (∀ wr ∈ wrs, wr.Fine emptyQueue.maxInlineSize) ∧
    ((emptyQueue.postAll wrs).1.flushJfs 2).2 = [⟨7, 10⟩, ⟨8, 5⟩] ∧ (emptyQueue.postAll wrs).1.fault = false := by
  have hfine : ∀ wr ∈ [request .send 7 [fiveBytes, fiveBytes] [], request .read 8 [fiveBytes] [fiveBytes]],
      wr.Fine emptyQueue.maxInlineSize := by
    intro wr hwr
    rcases mem_cons.mp hwr with rfl | hwr
    · exact request_fine (by decide)
    · rw [mem_singleton.mp hwr]
      exact request_fine (by decide)
  exact ⟨_, hfine, by decide +kernel, (post_flush emptyQueue_ok rfl hfine 2).2.2.2.2.1⟩

/-- The length of an atomic write stands where flushing looks for the number of elements: it reads twenty
elements, sixteen bytes each, out of a buffer of 256 bytes. -/
theorem flush_overrun : ∃ wr : JfsWr, emptyQueue.Ok ∧ emptyQueue.Valid wr ∧
    (emptyQueue.postAll [wr]).2.1 = [wr] ∧ wr.completionLen = 20 ∧
      ((emptyQueue.postAll [wr]).1.flushJfs 1).2 ≠ [cr wr] ∧
      ((emptyQueue.postAll [wr]).1.flushJfs 1).1.fault = true := by
  refine ⟨request .writeAtomic 7 [⟨0x1000, 20, by decide⟩] [fiveBytes, fiveBytes], emptyQueue_ok,
    ⟨opcWriteWithAtomicstoreAdd, rfl, rfl, fun owner => by cases owner <;> rfl⟩, rfl, by decide +kernel,
    by decide +kernel, by decide +kernel⟩

end SendQueue

end UbDkms.Udma
