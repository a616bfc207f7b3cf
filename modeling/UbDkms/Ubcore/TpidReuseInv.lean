import UbDkms.Ubcore.TpidReuse

/-!
# What the calls hold of an entry

Each call holds a reference of its entry, is counted in it, or owns it; the sums over
the calls are compared with the fields of the entry. A transition of a call moves
some shares, and the lemmas below are about the entry whose shares move.
-/

namespace UbDkms.Ubcore

inductive Share where
  | ref
  | count
  | own
  | out
  | listed
  | blank
  | full
  | half
  | dead
  | past
  | bare
  | dropped
deriving DecidableEq

def ReusePc.shares : ReusePc → List Share
  | .add _ => [.own, .out, .blank]
  | .createAdd _ => [.own, .out, .blank]
  | .freeNew _ => [.own, .out, .blank]
  | .fill _ => [.ref, .own, .listed, .blank]
  | .createFill _ => [.ref, .own, .listed, .blank]
  | .exchange _ => [.ref, .own, .listed, .full]
  | .importNew _ => [.ref, .own, .listed, .full]
  | .createModify _ => [.ref, .own, .listed, .half]
  | .reuse _ => [.ref]
  | .target _ => [.ref]
  | .destroy _ => [.ref]
  | .isrefWait _ => [.ref]
  | .isrefSend _ => [.ref]
  | .isref _ => [.ref, .count]
  | .put _ .done => [.ref]
  | .put _ _ => [.ref, .count]
  | .importEx _ => [.count]
  | .dec _ => [.count]
  | .user _ => [.count]
  | .rmv _ .disconnect => [.own, .dead]
  | .rmv _ .destroy => [.ref, .own, .dead]
  | .rmv _ .createErr => [.ref, .own, .past]
  | .rmv _ .importErr => [.ref, .own]
  | .setErr _ => [.ref, .own, .out]
  | .modify _ .destroy => [.ref, .own, .out, .dead]
  | .modify _ _ => [.own, .out, .dead]
  | .putFree _ => [.ref, .own, .out, .past]
  | .free _ => [.own, .out, .past]
  | .dropBase _ => [.own, .out, .bare]
  | .wait _ => [.own, .out, .bare, .dropped]
  | _ => []

def ReuseState.code : ReuseState → Nat
  | .reset => 0
  | .ready => 1
  | .error => 2

def Tpid.code : Tpid → Nat
  | .none => 0
  | .live => 1
  | .deleted => 2
  | .left => 3

/-- An entry and the sums of the shares in it; `i` is one if the table has it. -/
structure View (x : ReuseEntry) (i : Nat) (t : Share → Nat) : Prop where
  refs : x.freed.toNat = 0 → x.refCnt + t .dropped = t .ref + 1
  cnt : x.useCnt = t .count
  one : t .own ≤ 1
  freed : x.freed.toNat = 1 → t .ref = 0 ∧ t .count = 0 ∧ t .own = 0 ∧ i = 0
  ready : x.reuseState.code = 1 →
    t .own = 0 ∧ x.freed.toNat = 0 ∧ i = 1 ∧ x.tpid.code = 1 ∧ x.tpHandleValid.toNat = 1
  counted : 0 < t .count → x.reuseState.code = 1
  owned : x.freed.toNat = 0 → t .own = 0 → x.reuseState.code ≠ 0
  out : i = 1 → t .out = 0
  listed : 0 < t .listed → i = 1
  valid : x.tpHandleValid.toNat = 1 → x.tpid.code = 1
  handle : x.reuseState.code = 0 → x.tpHandle.toNat = 1 → x.tpid.code = 1
  blank : 0 < t .blank → x.tpid.code = 0 ∧ x.tpHandleValid.toNat = 0 ∧ x.tpHandle.toNat = 0
  full : 0 < t .full → x.tpid.code = 1 ∧ x.tpHandleValid.toNat = 1
  half : 0 < t .half → x.tpid.code = 1 ∧ x.tpHandleValid.toNat = 0 ∧ x.tpHandle.toNat = 0
  dead : 0 < t .dead → x.reuseState.code = 2 ∧ x.tpid.code = 1 ∧ x.tpHandleValid.toNat = 1
  past : 0 < t .past → x.reuseState.code = 0 → x.tpHandle.toNat = 0 ∧ x.tpHandleValid.toNat = 0
  bare : 0 < t .bare → x.tpHandleValid.toNat = 0

structure Kept (x : ReuseEntry) (t : Share → Nat) : Prop where
  used : x.reuseState.code = 1 → 0 < t .count ∨ x.isRef.toNat = 1 ∨ x.reported.toNat = 1
  told : x.reuseState.code = 2 → t .own = 0 → x.freed.toNat = 0 → x.reported.toNat = 1
  left : x.tpid.code ≠ 3
  gone : x.freed.toNat = 1 → x.tpid.code ≠ 1
  known : x.tpid.code = 1 → x.tpHandleValid.toNat = 1 ∨ 0 < t .half

/-- The shares of the other calls: only owners have more than references and counts. -/
structure Others (t : Share → Nat) : Prop where
  out : t .out ≤ t .own
  listed : t .listed ≤ t .own
  blank : t .blank ≤ t .own
  full : t .full ≤ t .own
  half : t .half ≤ t .own
  dead : t .dead ≤ t .own
  past : t .past ≤ t .own
  bare : t .bare ≤ t .own
  dropped : t .dropped ≤ t .own

def withShares (t : Share → Nat) (l : List Share) (k : Share) : Nat := t k + if k ∈ l then 1 else 0

/-- Steps of the call that makes an entry: what they do to the entry, to its place in the table, and to
the shares of the call. -/
inductive Makes : ReuseEntry → Nat → List Share → ReuseEntry → Nat → List Share → Prop where
  | add {x} : Makes x 0 [.own, .out, .blank] { x with refCnt := x.refCnt + 1 } 1 [.ref, .own, .listed, .blank]
  | fill {x i} : Makes x i [.ref, .own, .listed, .blank]
      { x with tpid := .live, tpHandle := true, tpHandleValid := true } i [.ref, .own, .listed, .full]
  | fillErr {x i} : Makes x i [.ref, .own, .listed, .blank] x i [.ref, .own]
  | importErr {x i} : Makes x i [.ref, .own, .listed, .full] x i [.ref, .own]
  | importNew {x i} : Makes x i [.ref, .own, .listed, .full]
      { x with useCnt := x.useCnt + 1, reuseState := .ready, reported := false } i [.ref, .count]
  | freeNew {x i} : x.refCnt = 1 → Makes x i [.own, .out, .blank] { x with refCnt := 0, freed := true } i []
  | createFill {x i} :
      Makes x i [.ref, .own, .listed, .blank] { x with tpid := .live } i [.ref, .own, .listed, .half]
  | createFillErr {x i} : Makes x i [.ref, .own, .listed, .blank] x i [.ref, .own, .past]
  | create {x i} : Makes x i [.ref, .own, .listed, .half]
      { x with tpHandle := true, tpHandleValid := true, isRef := true, reuseState := .ready } i [.ref]
  | createErr {x i} : Makes x i [.ref, .own, .listed, .half]
      { x with tpHandle := true, tpHandleValid := true, reuseState := .error } i [.ref, .own, .past]

/-- Steps of the call that takes an entry out of the table and frees it. -/
inductive Ends : ReuseEntry → Nat → List Share → ReuseEntry → Nat → List Share → Prop where
  | rmv {x i} : Ends x i [.ref, .own] x 0 [.ref, .own, .out]
  | rmvCreate {x i} : Ends x i [.ref, .own, .past] x 0 [.ref, .own, .out, .past]
  | rmvDisconnect {x i} : Ends x i [.own, .dead] x 0 [.own, .out, .dead]
  | rmvDestroy {x i} : Ends x i [.ref, .own, .dead] x 0 [.ref, .own, .out, .dead]
  | setErr {x i} :
      Ends x i [.ref, .own, .out] { x with reuseState := .error, reported := true } i [.ref, .own, .out, .past]
  | modify {x i} : Ends x i [.own, .out, .dead] x i [.own, .out, .past]
  | modifyErr {x i} : Ends x i [.own, .out, .dead] { x with reported := true } i []
  | modifyDestroy {x i} : Ends x i [.ref, .own, .out, .dead] x i [.ref, .own, .out, .past]
  | putFree {x i} : Ends x i [.ref, .own, .out, .past] { x with refCnt := x.refCnt - 1 } i [.own, .out, .past]
  | delete {x i} : x.tpHandleValid.toNat = 1 →
      Ends x i [.own, .out, .past] { x with tpid := .deleted, tpHandleValid := false } i [.own, .out, .bare]
  | deleteNone {x i} : x.tpHandleValid.toNat = 0 → Ends x i [.own, .out, .past] x i [.own, .out, .bare]
  | dropBase {x i} :
      Ends x i [.own, .out, .bare] { x with refCnt := x.refCnt - 1 } i [.own, .out, .bare, .dropped]
  | wait {x i} : x.refCnt = 0 → Ends x i [.own, .out, .bare, .dropped] { x with freed := true } i []

inductive Uses : ReuseEntry → Nat → List Share → ReuseEntry → Nat → List Share → Prop where
  | isrefErr {x i} : Uses x i [.ref, .count] { x with useCnt := x.useCnt - 1, reported := true } i [.ref]
  | put {x i} : Uses x i [.ref, .count] { x with refCnt := x.refCnt - 1 } i [.count]
  | dec {x i} : Uses x i [.count] { x with useCnt := x.useCnt - 1, reported := true } i []
  | leave {x i} : 0 < x.useCnt - 1 ∨ x.isRef.toNat = 1 →
      Uses x i [.count] { x with useCnt := x.useCnt - 1, reported := false } i []
  | close {x i} : x.useCnt - 1 ≤ 0 →
      Uses x i [.count] { x with useCnt := x.useCnt - 1, reuseState := .error, reported := false } i [.own, .dead]

inductive Refers : ReuseEntry → Nat → List Share → ReuseEntry → Nat → List Share → Prop where
  | find {x} : Refers x 1 [] { x with refCnt := x.refCnt + 1 } 1 [.ref]
  | put {x i} : Refers x i [.ref] { x with refCnt := x.refCnt - 1 } i []
  | refer {x i} : Refers x i [.ref] { x with isRef := true } i [.ref]
  | targetErr {x i} : x.reuseState.code = 0 → Refers x i [.ref] { x with reuseState := .error } i [.ref]
  | unref {x i} : 0 < x.useCnt ∨ x.reuseState.code ≠ 1 → Refers x i [.ref] { x with isRef := false } i [.ref]

inductive Turns : ReuseEntry → Nat → List Share → ReuseEntry → Nat → List Share → Prop where
  | reuse {x i} : x.reuseState.code = 1 →
      Turns x i [.ref] { x with useCnt := x.useCnt + 1, reported := false } i [.ref, .count]
  | destroy {x i} : x.useCnt ≤ 0 → x.reuseState.code = 1 →
      Turns x i [.ref] { x with isRef := false, reuseState := .error } i [.ref, .own, .dead]

inductive Moves (x : ReuseEntry) (i : Nat) (l : List Share) (x' : ReuseEntry) (i' : Nat) (l' : List Share) :
    Prop where
  | makes (h : Makes x i l x' i' l')
  | ends (h : Ends x i l x' i' l')
  | uses (h : Uses x i l x' i' l')
  | refers (h : Refers x i l x' i' l')
  | turns (h : Turns x i l x' i' l')

inductive Leaks : ReuseEntry → Nat → List Share → ReuseEntry → Nat → List Share → Prop where
  | isrefSend {x i} : Leaks x i [.ref] { x with isRef := false } i [.ref]
  | modify {x i} : Leaks x i [.ref, .own, .out, .dead] x i [.ref]
  | delete {x i} : x.tpHandleValid.toNat = 1 →
      Leaks x i [.own, .out, .past] { x with tpid := .left, tpHandleValid := false } i [.own, .out, .bare]

@[simp] theorem ReuseState.code_ready : ReuseState.ready.code = 1 := rfl

@[simp] theorem ReuseState.code_error : ReuseState.error.code = 2 := rfl

@[simp] theorem Tpid.code_live : Tpid.live.code = 1 := rfl

@[simp] theorem Tpid.code_deleted : Tpid.deleted.code = 2 := rfl

section Moves

variable {x x' : ReuseEntry} {i i' : Nat} {l l' : List Share} {t : Share → Nat}

-- the shares of a call are evaluated, and a flag stays a number
attribute [local simp] withShares

attribute [-simp] Bool.toNat_eq_one Bool.toNat_eq_zero

theorem withShares_mem {k : Share} (h : k ∈ l) : withShares t l k = t k + 1 := by
  unfold withShares
  rw [if_pos h]

section

variable (h : View x i (withShares t l))
include h

theorem View.at_ref (hl : .ref ∈ l) : x.freed.toNat = 0 := by
  have hle : x.freed.toNat ≤ 1 := Bool.toNat_le x.freed
  have hf := h.freed
  rw [withShares_mem hl] at hf
  omega

theorem View.at_count (hl : .count ∈ l) :
    x.reuseState.code = 1 ∧ withShares t l .own = 0 ∧ x.freed.toNat = 0 ∧ i = 1 ∧ x.tpid.code = 1 ∧
      x.tpHandleValid.toNat = 1 := by
  have hc := h.counted
  rw [withShares_mem hl] at hc
  exact ⟨hc (Nat.succ_pos _), h.ready (hc (Nat.succ_pos _))⟩

theorem View.at_own (hl : .own ∈ l) :
    t .own = 0 ∧ x.freed.toNat = 0 ∧ x.reuseState.code ≠ 1 ∧ withShares t l .count = 0 ∧
      x.useCnt = 0 := by
  have hle : x.freed.toNat ≤ 1 := Bool.toNat_le x.freed
  have hone := h.one
  have hf := h.freed
  have hr := h.ready
  have hc := h.counted
  have hcnt := h.cnt
  rw [withShares_mem hl] at hone hf hr
  refine ⟨by omega, by omega, by omega, by omega, by omega⟩

end

theorem Makes.own (hm : Makes x i l x' i' l') : .own ∈ l := by cases hm <;> simp

theorem Ends.own (hm : Ends x i l x' i' l') : .own ∈ l := by cases hm <;> simp

theorem View.at_refers (hm : Refers x i l x' i' l') (h : View x i (withShares t l)) : x.freed.toNat = 0 := by
  cases hm with
  | find =>
    have hle : x.freed.toNat ≤ 1 := Bool.toNat_le x.freed
    have hf := h.freed
    omega
  | _ => exact h.at_ref (by simp)

theorem View.at_turns (hm : Turns x i l x' i' l') (h : View x i (withShares t l)) :
    x.reuseState.code = 1 ∧ withShares t l .own = 0 ∧ x.freed.toNat = 0 ∧ i = 1 ∧ x.tpid.code = 1 ∧
      x.tpHandleValid.toNat = 1 := by
  cases hm with
  | reuse hr | destroy _ hr => exact ⟨hr, h.ready hr⟩

theorem View.at_leaks (hm : Leaks x i l x' i' l') (h : View x i (withShares t l)) : x.freed.toNat = 0 := by
  cases hm with
  | delete => exact (h.at_own (by simp)).2.1
  | _ => exact h.at_ref (by simp)

theorem Uses.count (hm : Uses x i l x' i' l') : .count ∈ l := by cases hm <;> simp

section

variable (ho : Others t) (h : View x i (withShares t l))
include ho h

theorem View.owner (hm : Makes x i l x' i' l' ∨ Ends x i l x' i' l') (hi : i ≤ 1) :
    View x' i' (withShares t l') := by
  cases ho
  obtain ⟨e1, e2, e3, e4, e5⟩ := h.at_own (hm.elim Makes.own Ends.own)
  obtain ⟨h1, h2, h3, h4, h5, h6, h7, h8, h9, h10, h11, h12, h13, h14, h15, h16, h17⟩ := h
  -- the shares of the call are evaluated; the rest is linear in the sums
  rcases hm with hm | hm <;> cases hm <;>
    (try simp at h1 h2 h3 h4 h5 h6 h7 h8 h9 h12 h13 h14 h15 h16 h17 e4
     constructor <;> (try simp) <;>
      first | assumption | omega)

theorem View.user (hm : Uses x i l x' i' l' ∨ Turns x i l x' i' l') : View x' i' (withShares t l') := by
  cases ho
  obtain ⟨e1, e2, e3, e4, e5, e6⟩ := hm.elim (fun hm => h.at_count hm.count) fun hm => h.at_turns hm
  obtain ⟨h1, h2, h3, h4, h5, h6, h7, h8, h9, h10, h11, h12, h13, h14, h15, h16, h17⟩ := h
  rcases hm with hm | hm <;> cases hm <;>
    (try simp at h1 h2 h3 h4 h5 h6 h7 h8 h9 h12 h13 h14 h15 h16 h17 e2
     constructor <;> (try simp) <;>
      first | assumption | omega)

theorem View.holder (hm : Refers x i l x' i' l' ∨ Leaks x i l x' i' l') : View x' i' (withShares t l') := by
  cases ho
  have e1 := hm.elim (fun hm => h.at_refers hm) fun hm => h.at_leaks hm
  obtain ⟨h1, h2, h3, h4, h5, h6, h7, h8, h9, h10, h11, h12, h13, h14, h15, h16, h17⟩ := h
  rcases hm with hm | hm <;> cases hm <;>
    (try simp [e1] at h1 h2 h3 h4 h5 h6 h7 h8 h9 h12 h13 h14 h15 h16 h17
     constructor <;> (try simp [e1]) <;>
      first | assumption | omega)

theorem View.moves (hm : Moves x i l x' i' l') (hi : i ≤ 1) : View x' i' (withShares t l') := by
  cases hm with
  | makes hm => exact h.owner ho (.inl hm) hi
  | ends hm => exact h.owner ho (.inr hm) hi
  | uses hm => exact h.user ho (.inl hm)
  | refers hm => exact h.holder ho (.inl hm)
  | turns hm => exact h.user ho (.inr hm)

variable (hk : Kept x (withShares t l))
include hk

theorem Kept.owner (hm : Makes x i l x' i' l' ∨ Ends x i l x' i' l') : Kept x' (withShares t l') := by
  obtain ⟨-, -, -, -, o4, -, -, -, -⟩ := ho
  obtain ⟨e1, e2, e3, e4, e5⟩ := h.at_own (hm.elim Makes.own Ends.own)
  have h2 := h.blank
  have h3 := h.full
  have h4 := h.half
  have h5 := h.dead
  have h6 := h.bare
  obtain ⟨k1, k2, k3, k4, k5⟩ := hk
  rcases hm with hm | hm <;> cases hm <;>
    (try simp at k1 k2 k5 h2 h3 h4 h5 h6 e4
     constructor <;> (try simp) <;>
      first | assumption | omega)

theorem Kept.user (hm : Uses x i l x' i' l' ∨ Turns x i l x' i' l') : Kept x' (withShares t l') := by
  obtain ⟨-, -, -, -, o4, -, -, -, -⟩ := ho
  obtain ⟨e1, e2, e3, e4, e5, e6⟩ := hm.elim (fun hm => h.at_count hm.count) fun hm => h.at_turns hm
  have h2 := h.cnt
  obtain ⟨k1, k2, k3, k4, k5⟩ := hk
  rcases hm with hm | hm <;> cases hm <;>
    (try simp at k1 k2 k5 h2 e2
     constructor <;> (try simp) <;>
      first | assumption | omega)

theorem Kept.refers (hm : Refers x i l x' i' l') : Kept x' (withShares t l') := by
  obtain ⟨-, -, -, -, o4, -, -, -, -⟩ := ho
  have e1 := h.at_refers hm
  have h2 := h.cnt
  have h3 := h.owned
  obtain ⟨k1, k2, k3, k4, k5⟩ := hk
  cases hm <;>
    (try simp at k1 k2 k5 h2 h3
     constructor <;> (try simp) <;>
      first | assumption | omega)

theorem Kept.moves (hm : Moves x i l x' i' l') : Kept x' (withShares t l') := by
  cases hm with
  | makes hm => exact hk.owner ho h (.inl hm)
  | ends hm => exact hk.owner ho h (.inr hm)
  | uses hm => exact hk.user ho h (.inl hm)
  | refers hm => exact hk.refers ho h hm
  | turns hm => exact hk.user ho h (.inr hm)

end

end Moves

end UbDkms.Ubcore
