import UbDkms.Ubus.HiMsg
import Mathlib.Tactic

/-!
# Message numbers and the completion ring

The invariant of the queue for a list of timeout records, and what keeps it: a change of
one call, of the bits, of the requests counted, of the ring and of the records.
-/

namespace UbDkms.Ubus.HiMsg

open List
open Function (update update_self update_of_ne)

namespace Hmd

/-- A request keeps its number to itself: it has got it, it is not released, or the
hardware may still answer it. -/
def Holds (s : Hmd) (id : Nat) : Prop :=
  (s.req id).phase = .got ∨ id ∈ s.live ∨ (s.req id).submitted = true ∧ (s.req id).answer = none

def RspAt (s : Hmd) (p : Nat) : Prop := s.ci ≤ p ∧ p < s.pi ∧ (s.cqe (p % 1024)).isRsp = true

def reqAt (s : Hmd) (p : Nat) : Nat := (s.cqe (p % 1024)).req

structure Inv (s : Hmd) (recs : List Rec) : Prop where
  cnt : s.cnt = s.live.length
  cnt_le : s.cnt ≤ 1023
  nodup : s.live.Nodup
  live : ∀ id ∈ s.live, (s.req id).submitted = true
  bit : ∀ id, (s.req id).phase = .got ∨ id ∈ s.live →
    s.bits (s.req id).task ((s.req id).msn - 1) = true ∧ (s.req id).msn ≠ 0
  apart : ∀ id id', s.Holds id → s.Holds id' → (s.req id).task = (s.req id').task →
    (s.req id).msn = (s.req id').msn → id = id'
  rsp : ∀ p, s.RspAt p → s.reqAt p ∈ s.live ∧ (s.cqe (p % 1024)).task = (s.req (s.reqAt p)).task ∧
    (s.cqe (p % 1024)).msn = (s.req (s.reqAt p)).msn ∧
    (s.req (s.reqAt p)).answer = some (s.cqe (p % 1024)).payload
  once : ∀ p q, s.RspAt p → s.RspAt q → s.reqAt p = s.reqAt q → p = q
  window : s.ci ≤ s.swPi ∧ s.swPi ≤ s.pi ∧ s.pi ≤ s.ci + 1023
  clear : ∀ p, s.pi ≤ p → p < s.ci + 1024 → s.handled (p % 1024) = false
  handled : ∀ p, s.RspAt p → s.handled (p % 1024) = true →
    (s.req (s.reqAt p)).active = false ∧ ∀ r ∈ recs, r.req ≠ s.reqAt p
  found : ∀ id idx, (s.req id).phase = .found idx → ∃ p, s.RspAt p ∧ s.reqAt p = id ∧ idx = p % 1024
  timed : ∀ r ∈ recs, r.req ∈ s.live ∧ r.task = (s.req r.req).task ∧ r.msn = (s.req r.req).msn ∧
    (s.req r.req).phase = .timedOut
  timed_nodup : (recs.map (·.req)).Nodup
  result : ∀ id v, (s.req id).result = some v → (s.req id).answer = some v
  fresh : ∀ id, (s.req id).submitted = false → (s.req id).answer = none
  active : ∀ id, (s.req id).active = true → id ∈ s.live

variable {s : Hmd} {recs : List Rec} {id : Nat} {r : Req}

theorem inv_init : Inv {} [] where
  cnt := rfl
  cnt_le := by decide
  nodup := nodup_nil
  live := by simp
  bit id h := by simp at h
  apart id id' h := by simp [Holds, Req.submitted] at h
  rsp p h := absurd h.2.1 (Nat.not_lt_zero _)
  once p _ h := absurd h.2.1 (Nat.not_lt_zero _)
  window := ⟨Nat.le_refl _, Nat.le_refl _, Nat.zero_le _⟩
  clear _ _ _ := rfl
  handled p h := absurd h.2.1 (Nat.not_lt_zero _)
  found id idx h := by simp at h
  timed := by simp
  timed_nodup := nodup_nil
  result id v h := by simp at h
  fresh _ _ := rfl
  active id h := by simp [Req.active] at h

@[simp] theorem setReq_self : (s.setReq id r).req id = r := update_self ..

theorem setReq_ne {id' : Nat} (h : id' ≠ id) : (s.setReq id r).req id' = s.req id' :=
  update_of_ne h _ _

variable (i : Inv s recs)
include i

theorem Inv.setReq
    (hlive : id ∈ s.live → r.submitted ∧ r.task = (s.req id).task ∧ r.msn = (s.req id).msn ∧
      ((s.req id).answer = none ∨ r.answer = (s.req id).answer))
    (hbit : r.phase = .got → s.bits r.task (r.msn - 1) ∧ r.msn ≠ 0)
    (hapart : r.phase = .got ∨ id ∈ s.live ∨ r.submitted ∧ r.answer = none →
      ∀ id', id' ≠ id → s.Holds id' → (s.req id').task = r.task → (s.req id').msn ≠ r.msn)
    (hact : id ∈ s.live → (s.req id).answer = none ∨ ((s.req id).active = false → r.active = false))
    (hfound : ∀ idx, r.phase = .found idx → ∃ p, s.RspAt p ∧ s.reqAt p = id ∧ idx = p % 1024)
    (htime : id ∈ s.live → (s.req id).phase = .timedOut → r.phase = .timedOut)
    (hres : ∀ v, r.result = some v → r.answer = some v)
    (hfresh : r.submitted = false → r.answer = none)
    (hactive : r.active → id ∈ s.live) : Inv (s.setReq id r) recs where
  cnt := i.cnt
  cnt_le := i.cnt_le
  nodup := i.nodup
  live id' h := by
    by_cases he : id' = id
    · subst he
      rw [setReq_self]
      exact (hlive h).1
    · rw [setReq_ne he]
      exact i.live id' h
  bit id' h := by
    by_cases he : id' = id
    · subst he
      rw [setReq_self] at h ⊢
      rcases h with h | h
      · exact hbit h
      · rw [(hlive h).2.1, (hlive h).2.2.1]
        exact i.bit id' (.inr h)
    · rw [setReq_ne he] at h ⊢
      exact i.bit id' h
  apart id₁ id₂ h₁ h₂ ht hm := by
    by_contra hne
    by_cases e₁ : id₁ = id
    · subst e₁
      have e₂ : id₂ ≠ id₁ := fun e => hne e.symm
      unfold Holds at h₁ h₂
      rw [setReq_self] at h₁ ht hm
      rw [setReq_ne e₂] at h₂ ht hm
      exact hapart h₁ id₂ e₂ h₂ ht.symm hm.symm
    unfold Holds at h₁ h₂
    rw [setReq_ne e₁] at h₁ ht hm
    by_cases e₂ : id₂ = id
    · subst e₂
      rw [setReq_self] at h₂ ht hm
      exact hapart h₂ id₁ e₁ h₁ ht hm
    · rw [setReq_ne e₂] at h₂ ht hm
      exact hne (i.apart id₁ id₂ h₁ h₂ ht hm)
  rsp p h := by
    obtain ⟨hl, h1, h2, h3⟩ := i.rsp p h
    refine ⟨hl, ?_⟩
    show _ = ((s.setReq id r).req (s.reqAt p)).task ∧ _ = ((s.setReq id r).req (s.reqAt p)).msn ∧
      ((s.setReq id r).req (s.reqAt p)).answer = _
    by_cases he : s.reqAt p = id
    · rw [he] at hl h1 h2 h3 ⊢
      rw [setReq_self, (hlive hl).2.1, (hlive hl).2.2.1]
      refine ⟨h1, h2, ?_⟩
      rcases (hlive hl).2.2.2 with ha | ha
      · rw [ha] at h3
        cases h3
      · rw [ha, h3]
        rfl
    · rw [setReq_ne he]
      exact ⟨h1, h2, h3⟩
  once := i.once
  window := i.window
  clear := i.clear
  handled p h hh := by
    obtain ⟨h1, h2⟩ := i.handled p h hh
    refine ⟨?_, h2⟩
    show ((s.setReq id r).req (s.reqAt p)).active = false
    by_cases he : s.reqAt p = id
    · rw [he] at h1 ⊢
      rw [setReq_self]
      obtain ⟨hl, -, -, h3⟩ := i.rsp p h
      rw [he] at hl h3
      rcases hact hl with ha | ha
      · rw [ha] at h3
        cases h3
      · exact ha h1
    · rw [setReq_ne he]
      exact h1
  found id' idx h := by
    by_cases he : id' = id
    · subst he
      rw [setReq_self] at h
      exact hfound idx h
    · rw [setReq_ne he] at h
      exact i.found id' idx h
  timed q hq := by
    obtain ⟨hl, h1, h2, h3⟩ := i.timed q hq
    refine ⟨hl, ?_⟩
    by_cases he : q.req = id
    · rw [he] at hl h1 h2 h3 ⊢
      rw [setReq_self, (hlive hl).2.1, (hlive hl).2.2.1]
      exact ⟨h1, h2, htime hl h3⟩
    · rw [setReq_ne he]
      exact ⟨h1, h2, h3⟩
  timed_nodup := i.timed_nodup
  result id' v h := by
    by_cases he : id' = id
    · subst he
      rw [setReq_self] at h ⊢
      exact hres v h
    · rw [setReq_ne he] at h ⊢
      exact i.result id' v h
  fresh id' h := by
    by_cases he : id' = id
    · subst he
      rw [setReq_self] at h ⊢
      exact hfresh h
    · rw [setReq_ne he] at h ⊢
      exact i.fresh id' h
  active id' h := by
    by_cases he : id' = id
    · subst he
      rw [setReq_self] at h
      exact hactive h
    · rw [setReq_ne he] at h
      exact i.active id' h

theorem Inv.setBit (t : Task) (b : Nat) (n : Task → Nat) :
    Inv { s with bits := fun t' b' => if t' = t ∧ b' = b then true else s.bits t' b', next := n } recs :=
  { i with
    bit := fun id h => by
      refine ⟨?_, (i.bit id h).2⟩
      show (if _ then true else _) = true
      split
      · rfl
      · exact (i.bit id h).1 }

theorem Inv.msnPut {t : Task} {m : Nat}
    (h : ∀ id, (s.req id).phase = .got ∨ id ∈ s.live → (s.req id).task = t → (s.req id).msn ≠ m) :
    Inv (s.msnPut t m) recs :=
  { i with
    bit := fun id hid => by
      obtain ⟨h1, h2⟩ := i.bit id hid
      refine ⟨?_, h2⟩
      show (if _ then false else _) = true
      rw [if_neg]
      · exact h1
      · rintro ⟨hm, ht, hb⟩
        change (s.req id).msn - 1 = m - 1 at hb
        exact h id hid ht (by omega) }

theorem Inv.count (hid : id ∉ s.live) (hsub : (s.req id).submitted)
    (hans : (s.req id).answer = none) (hlt : s.cnt < 1023)
    (hbit : s.bits (s.req id).task ((s.req id).msn - 1) ∧ (s.req id).msn ≠ 0) :
    Inv { s with cnt := s.cnt + 1, live := s.live ++ [id] } recs := by
  have hmem : ∀ {x}, x ∈ s.live ++ [id] → x ∈ s.live ∨ x = id := by simp
  have hh : ∀ x, Holds { s with cnt := s.cnt + 1, live := s.live ++ [id] } x → s.Holds x := by
    rintro x (h | h | h)
    · exact .inl h
    · rcases hmem h with h | rfl
      · exact .inr (.inl h)
      · exact .inr (.inr ⟨hsub, hans⟩)
    · exact .inr (.inr h)
  exact { i with
    cnt := by
      rw [i.cnt]
      simp
    cnt_le := by
      show s.cnt + 1 ≤ 1023
      omega
    nodup := by
      refine nodup_append.mpr ⟨i.nodup, nodup_singleton _, fun a ha b hb => ?_⟩
      rw [mem_singleton.mp hb]
      exact fun e => hid (e ▸ ha)
    live := fun x hx => by
      rcases hmem hx with hx | rfl
      · exact i.live x hx
      · exact hsub
    bit := fun x hx => by
      rcases hx with hx | hx
      · exact i.bit x (.inl hx)
      rcases hmem hx with hx | rfl
      · exact i.bit x (.inr hx)
      · exact hbit
    apart := fun x y hx hy => i.apart x y (hh x hx) (hh y hy)
    rsp := fun p hp => ⟨mem_append_left _ (i.rsp p hp).1, (i.rsp p hp).2⟩
    timed := fun q hq => ⟨mem_append_left _ (i.timed q hq).1, (i.timed q hq).2⟩
    active := fun x hx => mem_append_left _ (i.active x hx) }

theorem Inv.release {t : Task} {m : Nat} (hid : id ∈ s.live) (ht : t = (s.req id).task)
    (hm : m = (s.req id).msn) (hact : (s.req id).active = false)
    (hring : ∀ p, s.RspAt p → s.reqAt p ≠ id) (hrecs : ∀ q ∈ recs, q.req ≠ id) :
    Inv (s.release t m id) recs := by
  have hmem : ∀ {x}, x ∈ s.live.erase id → x ∈ s.live ∧ x ≠ id := fun hx =>
    ⟨mem_of_mem_erase hx, fun e => (i.nodup.not_mem_erase (e ▸ hx))⟩
  have hin : ∀ {x}, x ∈ s.live → x ≠ id → x ∈ s.live.erase id := fun hx hne => (mem_erase_of_ne hne).mpr hx
  have hh : ∀ x, Holds (s.release t m id) x → s.Holds x := by
    rintro x (h | h | h)
    · exact .inl h
    · exact .inr (.inl (hmem h).1)
    · exact .inr (.inr h)
  have hcnt : s.cnt - 1 = ((s.live.erase id).length : Int) := by
    have := length_erase_of_mem hid
    have := length_pos_of_mem hid
    rw [i.cnt]
    omega
  exact { i with
    cnt := hcnt
    cnt_le := by
      show s.cnt - 1 ≤ 1023
      have := i.cnt_le
      omega
    nodup := i.nodup.erase id
    live := fun x hx => i.live x (hmem hx).1
    bit := fun x hx => by
      have hx' : (s.req x).phase = .got ∨ x ∈ s.live := hx.imp_right fun h => (hmem h).1
      obtain ⟨h1, h2⟩ := i.bit x hx'
      refine ⟨?_, h2⟩
      show (if _ then false else _) = true
      have hne : x ≠ id := by
        rcases hx with hx | hx
        · rintro rfl
          have hg : (s.req x).phase = .got := hx
          have := i.live x hid
          simp [Req.submitted, hg] at this
        · exact (hmem hx).2
      rw [if_neg]
      · exact h1
      · rintro ⟨hm0, htx, hb⟩
        change (s.req x).msn - 1 = m - 1 at hb
        exact hne (i.apart x id (hx'.imp_right .inl) (.inr (.inl hid)) (htx.trans ht) (by omega))
    apart := fun x y hx hy => i.apart x y (hh x hx) (hh y hy)
    rsp := fun p hp => ⟨hin (i.rsp p hp).1 (hring p hp), (i.rsp p hp).2⟩
    timed := fun q hq => ⟨hin (i.timed q hq).1 (hrecs q hq), (i.timed q hq).2⟩
    active := fun x hx => by
      have hne : x ≠ id := by
        rintro rfl
        have hx : (s.req x).active := hx
        rw [hact] at hx
        cases hx
      exact hin (i.active x hx) hne }

theorem Inv.readPi : Inv { s with swPi := s.pi } recs :=
  { i with window := ⟨i.window.1.trans i.window.2.1, Nat.le_refl _, i.window.2.2⟩ }

theorem Inv.setAge (a : Nat → Nat) : Inv { s with age := a } recs := { i with }

theorem Inv.mark {p : Nat} (hp : s.ci ≤ p ∧ p < s.pi)
    (h : s.RspAt p → (s.req (s.reqAt p)).active = false ∧ ∀ q ∈ recs, q.req ≠ s.reqAt p) :
    Inv (s.cqeStateSet (p % 1024) true) recs := by
  have hw := i.window
  exact { i with
    clear := fun q h1 h2 => by
      show update s.handled (p % 1024) true (q % 1024) = false
      rw [update_of_ne]
      · exact i.clear q h1 h2
      · change s.pi ≤ q at h1
        change q < s.ci + 1024 at h2
        omega
    handled := fun q hq hh => by
      by_cases he : q = p
      · subst he
        exact h hq
      refine i.handled q hq ?_
      change update s.handled (p % 1024) true (q % 1024) = true at hh
      rwa [update_of_ne] at hh
      have h1 : s.ci ≤ q := hq.1
      have h2 : q < s.pi := hq.2.1
      omega }

theorem Inv.pop (hlt : s.ci < s.swPi) (hh : s.handled (s.ci % 1024)) :
    Inv { s.cqeStateSet (s.ci % 1024) false with ci := s.ci + 1 } recs := by
  obtain ⟨w1, w2, w3⟩ := i.window
  have hat : ∀ {p}, RspAt { s.cqeStateSet (s.ci % 1024) false with ci := s.ci + 1 } p → s.RspAt p ∧ s.ci < p :=
    fun hp => ⟨⟨Nat.le_of_succ_le hp.1, hp.2⟩, hp.1⟩
  exact { i with
    rsp := fun p hp => i.rsp p (hat hp).1
    once := fun p q hp hq => i.once p q (hat hp).1 (hat hq).1
    window := ⟨hlt, w2, by show s.pi ≤ s.ci + 1 + 1023; omega⟩
    clear := fun p h1 h2 => by
      show update s.handled (s.ci % 1024) false (p % 1024) = false
      by_cases he : p % 1024 = s.ci % 1024
      · rw [he, update_self]
      rw [update_of_ne he]
      change p < s.ci + 1 + 1024 at h2
      exact i.clear p h1 (by omega)
    handled := fun p hp hh' => by
      refine i.handled p (hat hp).1 ?_
      change update s.handled (s.ci % 1024) false (p % 1024) = true at hh'
      by_cases he : p % 1024 = s.ci % 1024
      · rw [he, update_self] at hh'
        cases hh'
      · rwa [update_of_ne he] at hh'
    found := fun id idx hf => by
      obtain ⟨p, hp, hid, hidx⟩ := i.found id idx hf
      refine ⟨p, ⟨?_, hp.2⟩, hid, hidx⟩
      show s.ci + 1 ≤ p
      have h1 : s.ci ≤ p := hp.1
      by_contra hc
      have he : p = s.ci := by omega
      -- The entry at the front was handled, and that of a call at it is not.
      have := (i.handled p hp (he ▸ hh)).1
      rw [hid] at this
      have hf : (s.req id).phase = .found idx := hf
      simp [Req.active, hf] at this }

/-- The hardware writes an entry: a request, or the only response to one counted. -/
theorem Inv.hwPush {c : Cqe} (hroom : s.pi < s.ci + 1023)
    (hc : c.isRsp → c.req ∈ s.live ∧ c.task = (s.req c.req).task ∧ c.msn = (s.req c.req).msn ∧
      (s.req c.req).answer = some c.payload ∧ ∀ p, s.RspAt p → s.reqAt p ≠ c.req) :
    Inv (s.hwPush c) recs := by
  obtain ⟨w1, w2, w3⟩ := i.window
  have hold : ∀ {p}, s.ci ≤ p → p < s.pi → (s.hwPush c).cqe (p % 1024) = s.cqe (p % 1024) := by
    intro p h1 h2
    refine update_of_ne ?_ _ _
    omega
  have hnew : (s.hwPush c).cqe (s.pi % 1024) = c := update_self ..
  have hat : ∀ {p}, (s.hwPush c).RspAt p → s.RspAt p ∨ p = s.pi ∧ c.isRsp := by
    intro p hp
    have h1 : s.ci ≤ p := hp.1
    have h2 : p < s.pi + 1 := hp.2.1
    have h3 := hp.2.2
    by_cases he : p = s.pi
    · rw [he, hnew] at h3
      exact .inr ⟨he, h3⟩
    · rw [hold h1 (by omega)] at h3
      exact .inl ⟨h1, by omega, h3⟩
  have hreq : ∀ {p}, s.RspAt p → (s.hwPush c).reqAt p = s.reqAt p := fun hp => by
    unfold reqAt
    rw [hold hp.1 hp.2.1]
  have hreqNew : (s.hwPush c).reqAt s.pi = c.req := by
    unfold reqAt
    rw [hnew]
  exact { i with
    rsp := fun p hp => by
      rcases hat hp with h | ⟨rfl, hr⟩
      · rw [hreq h, hold h.1 h.2.1]
        exact i.rsp p h
      rw [hreqNew, hnew]
      obtain ⟨h1, h2, h3, h4, -⟩ := hc hr
      exact ⟨h1, h2, h3, h4⟩
    once := fun p q hp hq he => by
      rcases hat hp with h | ⟨rfl, hr⟩ <;> rcases hat hq with h' | ⟨rfl, hr'⟩
      · rw [hreq h, hreq h'] at he
        exact i.once p q h h' he
      · rw [hreq h, hreqNew] at he
        exact absurd he ((hc hr').2.2.2.2 p h)
      · rw [hreq h', hreqNew] at he
        exact absurd he.symm ((hc hr).2.2.2.2 q h')
      · rfl
    window := ⟨w1, by show s.swPi ≤ s.pi + 1; omega, by show s.pi + 1 ≤ s.ci + 1023; omega⟩
    clear := fun p h1 h2 => i.clear p (Nat.le_of_succ_le h1) h2
    handled := fun p hp hh => by
      rcases hat hp with h | ⟨rfl, hr⟩
      · rw [hreq h]
        exact i.handled p h hh
      · have := i.clear s.pi le_rfl (by omega)
        exact absurd (this.symm.trans hh) (by decide)
    found := fun id idx hf => by
      obtain ⟨p, hp, hid, hidx⟩ := i.found id idx hf
      refine ⟨p, ⟨hp.1, Nat.lt_succ_of_lt hp.2.1, ?_⟩, (hreq hp).trans hid, hidx⟩
      rw [hold hp.1 hp.2.1]
      exact hp.2.2 }

theorem Inv.sublist {l : List Rec} (hl : l.Sublist recs) : Inv s l :=
  { i with
    handled := fun p hp hh => ⟨(i.handled p hp hh).1, fun q hq => (i.handled p hp hh).2 q (hl.subset hq)⟩
    timed := fun q hq => i.timed q (hl.subset hq)
    timed_nodup := i.timed_nodup.sublist (hl.map _) }

theorem Inv.addRecord {q : Rec} (hl : q.req ∈ s.live) (ht : q.task = (s.req q.req).task)
    (hm : q.msn = (s.req q.req).msn) (hp : (s.req q.req).phase = .timedOut) (hnew : ∀ r ∈ recs, r.req ≠ q.req)
    (hun : ∀ p, s.RspAt p → s.reqAt p = q.req → s.handled (p % 1024) = false) : Inv s (recs ++ [q]) :=
  { i with
    handled := fun p hat hh => by
      refine ⟨(i.handled p hat hh).1, fun r hr he => ?_⟩
      rcases mem_append.mp hr with hr | hr
      · exact (i.handled p hat hh).2 r hr he
      rw [mem_singleton.mp hr] at he
      rw [hun p hat he.symm] at hh
      cases hh
    timed := fun r hr => by
      rcases mem_append.mp hr with hr | hr
      · exact i.timed r hr
      · rw [mem_singleton.mp hr]
        exact ⟨hl, ht, hm, hp⟩
    timed_nodup := by
      rw [map_append]
      refine nodup_append.mpr ⟨i.timed_nodup, nodup_singleton _, fun a ha b hb => ?_⟩
      obtain ⟨r, hr, rfl⟩ := mem_map.mp ha
      rw [mem_singleton.mp hb]
      exact hnew r hr }

theorem Inv.reage {l : List Rec}
    (h : l.map (fun r => (r.task, r.msn, r.req)) = recs.map fun r => (r.task, r.msn, r.req)) : Inv s l := by
  have hmem : ∀ q ∈ l, ∃ q' ∈ recs, q'.task = q.task ∧ q'.msn = q.msn ∧ q'.req = q.req := by
    intro q hq
    have hq' : (q.task, q.msn, q.req) ∈ recs.map fun r => (r.task, r.msn, r.req) := h ▸ mem_map_of_mem hq
    obtain ⟨q', h1, h2⟩ := mem_map.mp hq'
    have h3 := Prod.mk.inj h2
    have h4 := Prod.mk.inj h3.2
    exact ⟨q', h1, h3.1, h4.1, h4.2⟩
  have hreq : l.map (·.req) = recs.map (·.req) := by
    have := congrArg (List.map fun x => x.2.2) h
    rwa [map_map, map_map] at this
  exact { i with
    handled := fun p hp hh => by
      refine ⟨(i.handled p hp hh).1, fun q hq he => ?_⟩
      obtain ⟨q', h1, -, -, h2⟩ := hmem q hq
      exact (i.handled p hp hh).2 q' h1 (h2.trans he)
    timed := fun q hq => by
      obtain ⟨q', h1, h2, h3, h4⟩ := hmem q hq
      rw [← h2, ← h3, ← h4]
      exact i.timed q' h1
    timed_nodup := hreq ▸ i.timed_nodup }

theorem Inv.setRecords (l : List Rec) : Inv { s with records := l } recs := { i with }

end Hmd

end UbDkms.Ubus.HiMsg
