import UbDkms.Ubus.HiMsgInv

/-!
# Runs of the message queue

In every run in which timeout records can be allocated, the hardware answers a request
before its record ages out or never, no response ages in the ring and no number is given
out that a request given up still waits with, a call gets the response to its own request
and every request is counted until it is released, once. A record that cannot be allocated
is enough for a call to get the response to another.
-/

namespace UbDkms.Ubus.HiMsg

open Lib List

theorem findNextZeroBit_spec {b : Nat → Bool} {size start : Nat} (h : findNextZeroBit b size start ≠ size) :
    b (findNextZeroBit b size start) = false := by
  unfold findNextZeroBit at h ⊢
  cases hf : (List.range' start (size - start)).find? fun i => !b i with
  | none => simp [hf] at h
  | some i => simpa using List.find?_some hf

theorem msnFind_spec {b : Nat → Bool} {find i : Nat} (h : msnFind b find = some i) : b i = false := by
  unfold msnFind at h
  dsimp only at h
  split at h
  · split at h
    · split at h
      · cases h
      next hne =>
        cases h
        exact findNextZeroBit_spec hne
    next hne =>
      cases h
      exact findNextZeroBit_spec hne
  next hb =>
    cases h
    simpa using hb

/-- The condition on a run: what the hardware does, and that nothing is given up that may
still be answered. -/
def Prompt (s : Hmd) : Act → Prop
  | .waitTimeout _ noMem => noMem = false
  | .hwAnswer id _ => id ∈ s.live ∧ (s.req id).answer = none ∧ s.pi < s.ci + 1023
  | .hwRequest _ _ => s.pi < s.ci + 1023
  | .msnGet id => ∀ find i, (s.req id).phase = .read find → msnFind (s.bits (s.req id).task) find = some i →
    ∀ id', (s.req id').submitted = true → (s.req id').answer = none → id' ∉ s.live →
      (s.req id').task = (s.req id).task → (s.req id').msn ≠ i + 1
  | .timeoutPoller => (∀ r ∈ s.records, 2 ≤ r.age → (s.req r.req).answer = none) ∧
    ∀ p, s.RspAt p → s.handled (p % 1024) = true ∨ s.age (p % 1024) < 2
  | _ => True

namespace Hmd

variable {s : Hmd} {recs : List Rec} {id : Nat}

section

variable (i : Inv s recs)
include i

theorem Inv.not_live (h : (s.req id).submitted = false) : id ∉ s.live := by
  intro hl
  rw [i.live id hl] at h
  cases h

theorem Inv.sole (hid : s.Holds id) :
    ∀ id', id' ≠ id → s.Holds id' → (s.req id').task = (s.req id).task → (s.req id').msn ≠ (s.req id).msn :=
  fun _ hne h ht hm => hne (i.apart _ _ h hid ht hm)

theorem Inv.start (t : Task) : Inv (s.start id t) recs := by
  unfold Hmd.start
  split
  next hp =>
    have hnl : id ∉ s.live := i.not_live (by simp [Req.submitted, hp])
    refine i.setReq (absurd · hnl) (by rintro ⟨⟩) ?_ (absurd · hnl) (by rintro _ ⟨⟩) (absurd · hnl)
      (by rintro _ ⟨⟩) (fun _ => rfl) (by rintro ⟨⟩)
    rintro (h | h | ⟨h, -⟩)
    · cases h
    · exact absurd h hnl
    · cases h
  · exact i

theorem Inv.fail (hs : (s.req id).submitted = false) :
    Inv (s.setReq id { s.req id with phase := .failed }) recs := by
  have hnl : id ∉ s.live := i.not_live hs
  refine i.setReq (absurd · hnl) nofun ?_ (absurd · hnl) nofun (absurd · hnl) (i.result id)
    (fun _ => i.fresh id hs) nofun
  rintro (h | h | ⟨h, -⟩)
  · cases h
  · exact absurd h hnl
  · cases h

theorem Inv.msnGet (hok : Prompt s (.msnGet id)) : Inv (s.msnGet id) recs := by
  dsimp only [Hmd.msnGet]
  split
  next find hp =>
    have hs : (s.req id).submitted = false := by simp [Req.submitted, hp]
    have hnl : id ∉ s.live := i.not_live hs
    split
    · exact i.fail hs
    next b hb =>
      have hfree := msnFind_spec hb
      refine (i.setBit _ b _).setReq (absurd · hnl) (fun _ => ⟨?_, Nat.succ_ne_zero b⟩)
        (fun _ id' hne h ht hm => ?_) (absurd · hnl) (by rintro _ ⟨⟩) (absurd · hnl) (i.result id)
        (fun _ => i.fresh id hs) (by rintro ⟨⟩)
      · show (if _ then true else _) = true
        exact if_pos ⟨rfl, rfl⟩
      -- The bit of a number in use is set, so it is that of a request given up.
      have hset : ∀ h : (s.req id').phase = .got ∨ id' ∈ s.live, False := fun h => by
        have := (i.bit id' h).1
        rw [ht, hm, Nat.add_sub_cancel, hfree] at this
        cases this
      rcases h with h | h | ⟨h1, h2⟩
      · exact hset (.inl h)
      · exact hset (.inr h)
      · exact hok find b hp hb id' h1 h2 (fun hl => hset (.inr hl)) ht hm
  · exact i

theorem Inv.sqSubmit (room : Bool) : Inv (s.sqSubmit id room) recs := by
  dsimp only [Hmd.sqSubmit]
  split
  next hp =>
    have hs : (s.req id).submitted = false := by simp [Req.submitted, hp]
    have hnl : id ∉ s.live := i.not_live hs
    have hsole := i.sole (.inl hp)
    split
    next hc =>
      -- It is counted before it waits, since who waits is counted.
      have hset : Inv (s.setReq id { s.req id with phase := .done }) recs :=
        i.setReq (absurd · hnl) (by rintro ⟨⟩) (fun _ => hsole) (absurd · hnl) (by rintro _ ⟨⟩)
          (absurd · hnl) (i.result id) (by rintro ⟨⟩) (by rintro ⟨⟩)
      have hreq : (s.setReq id { s.req id with phase := .done }).req id = { s.req id with phase := .done } :=
        setReq_self
      have hcount := hset.count hnl (by rw [hreq]; rfl) (by rw [hreq]; exact i.fresh id hs) hc.2
        (by rw [hreq]; exact i.bit id (.inl hp))
      obtain ⟨s₁, hs₁⟩ : ∃ s₁ : Hmd, s₁ = { s.setReq id { s.req id with phase := .done } with
          cnt := s.cnt + 1
          live := s.live ++ [id] } := ⟨_, rfl⟩
      have hreq₁ : s₁.req id = { s.req id with phase := .done } := by rw [hs₁]; exact hreq
      have hmem : id ∈ s₁.live := by rw [hs₁]; simp
      have hfin : ({ s.setReq id { s.req id with phase := .waiting } with
          cnt := s.cnt + 1
          live := s.live ++ [id] } : Hmd) = s₁.setReq id { s.req id with phase := .waiting } := by
        rw [hs₁]
        simp [Hmd.setReq, Function.update_idem]
      have hi₁ : Inv s₁ recs := hs₁ ▸ hcount
      rw [hfin]
      refine hi₁.setReq (fun _ => ⟨rfl, by rw [hreq₁], by rw [hreq₁], .inr (by rw [hreq₁])⟩) (by rintro ⟨⟩)
        (fun _ id' hne h ht hm => ?_) (fun _ => .inl (by rw [hreq₁]; exact i.fresh id hs)) (by rintro _ ⟨⟩)
        (fun _ h => by rw [hreq₁] at h; cases h) (i.result id) (by rintro ⟨⟩) fun _ => hmem
      refine hi₁.sole (.inr (.inl hmem)) id' hne h ?_ ?_
      · rw [ht, hreq₁]
      · rw [hm, hreq₁]
    next hc =>
      refine (i.fail hs).msnPut fun id' h ht hm => ?_
      by_cases he : id' = id
      · subst he
        rw [setReq_self] at h
        rcases h with h | h
        · cases h
        · exact hnl h
      · rw [setReq_ne he] at h ht hm
        exact hsole id' he (h.imp_right .inl) ht hm
  · exact i

theorem Inv.advance {f : Phase} {v : Option Nat} (hs : (s.req id).active)
    (hf : ({ s.req id with phase := f, result := v } : Req).submitted = true)
    (hfound : ∀ idx, f = .found idx → ∃ p, s.RspAt p ∧ s.reqAt p = id ∧ idx = p % 1024)
    (hv : ∀ x, v = some x → (s.req id).answer = some x) :
    Inv (s.setReq id { s.req id with phase := f, result := v }) recs := by
  have hsub : (s.req id).submitted := by
    unfold Req.active at hs
    unfold Req.submitted
    split at hs <;> simp_all
  refine i.setReq (fun _ => ⟨hf, rfl, rfl, .inr rfl⟩) ?_ ?_ ?_ hfound ?_ hv ?_ ?_
  · intro hg
    have hg : f = .got := hg
    simp [Req.submitted, hg] at hf
  · intro h id' hne hh ht hm
    refine i.sole ?_ id' hne hh ht hm
    rcases h with h | h | ⟨-, h⟩
    · have hg : f = .got := h
      simp [Req.submitted, hg] at hf
    · exact .inr (.inl h)
    · exact .inr (.inr ⟨hsub, h⟩)
  · intro _
    refine .inr fun ha => ?_
    rw [hs] at ha
    cases ha
  · intro _ ht
    simp [Req.active, ht] at hs
  · intro h
    rw [hf] at h
    cases h
  · exact fun _ => i.active id hs

theorem Inv.cqPoll : Inv (s.cqPoll id) recs := by
  dsimp only [Hmd.cqPoll]
  split
  next hp =>
    have hact : (s.req id).active := by simp [Req.active, hp]
    split
    · exact i.readPi
    next k hk =>
      obtain ⟨hlt, hmatch⟩ : k < s.pi - s.ci ∧ s.Matches (s.req id).task (s.req id).msn k = true :=
        ⟨mem_range.mp (mem_of_find?_eq_some hk), List.find?_some hk⟩
      have hmatch : ((s.cqe ((s.ci + k) % 1024)).msn = (s.req id).msn ∧
          (s.cqe ((s.ci + k) % 1024)).task = (s.req id).task) ∧ (s.cqe ((s.ci + k) % 1024)).isRsp = true := by
        simpa [Matches] using hmatch
      have hat : s.RspAt (s.ci + k) := ⟨Nat.le_add_right _ _, by omega, hmatch.2⟩
      refine i.readPi.advance hact rfl (fun idx hidx => ⟨s.ci + k, hat, ?_, ?_⟩) (i.result id)
      · obtain ⟨hl, h1, h2, -⟩ := i.rsp _ hat
        exact i.apart _ _ (.inr (.inl hl)) (.inr (.inl (i.active id hact)))
          (h1.symm.trans hmatch.1.2) (h2.symm.trans hmatch.1.1)
      · cases hidx
        rfl
  · exact i

end

theorem Inv.waitTimeout (i : Inv s s.records) : Inv (s.waitTimeout id false) (s.waitTimeout id false).records := by
  dsimp only [Hmd.waitTimeout]
  split
  next hp =>
    have hact : (s.req id).active := by simp [Req.active, hp]
    rw [if_neg (by decide)]
    have hadv := i.advance (f := .timedOut) hact rfl (by rintro _ ⟨⟩) (i.result id)
    have hreq : (s.setReq id { s.req id with phase := .timedOut }).req id = { s.req id with phase := .timedOut } :=
      setReq_self
    refine (hadv.addRecord (i.active id hact)
      ?_ ?_ ?_ ?_ ?_).setRecords _
    · exact (congrArg Req.task hreq).symm
    · exact (congrArg Req.msn hreq).symm
    · exact congrArg Req.phase hreq
    · intro r hr he
      have := (i.timed r hr).2.2.2
      rw [show r.req = id from he, hp] at this
      cases this
    · intro p hat he
      rcases Bool.eq_false_or_eq_true (s.handled (p % 1024)) with hh | hh
      · have := (i.handled p hat hh).1
        rw [show s.reqAt p = id from he, hact] at this
        cases this
      · exact hh
  · exact i

theorem Inv.finish (i : Inv s recs) (ok : Bool) : Inv (s.finish id ok) recs := by
  dsimp only [Hmd.finish]
  split
  next idx hp =>
    have hact : (s.req id).active := by simp [Req.active, hp]
    obtain ⟨p, hat, hid, rfl⟩ := i.found id idx hp
    have hans := (i.rsp p hat).2.2.2
    rw [hid] at hans
    have hadv := i.advance (f := .done) (v := if ok then some (s.cqe (p % 1024)).payload else none) hact rfl
      (by rintro _ ⟨⟩)
      (fun x hx => by
        split at hx
        · rw [← hx, hans]
        · cases hx)
    refine hadv.mark ⟨hat.1, hat.2.1⟩ fun _ => ?_
    have hreq : (s.setReq id { s.req id with
        phase := .done
        result := if ok then some (s.cqe (p % 1024)).payload else none }).reqAt p = id := hid
    rw [hreq, setReq_self]
    refine ⟨rfl, fun q hq he => ?_⟩
    have := (i.timed q hq).2.2.2
    rw [he, hp] at this
    cases this
  · exact i

theorem Inv.cqUpdateLoop (n : Nat) (i : Inv s recs) (hn : n ≤ s.swPi - s.ci) : Inv (cqUpdateLoop n s) recs := by
  induction n generalizing s with
  | zero => exact i
  | succ n ih =>
    rw [Hmd.cqUpdateLoop]
    split
    next hh =>
      have hpop := i.pop (by omega) hh
      split
      next hr =>
        have hat : s.RspAt s.ci := ⟨le_rfl, by have := i.window; omega, hr⟩
        obtain ⟨hl, h1, h2, -⟩ := i.rsp _ hat
        obtain ⟨h3, h4⟩ := i.handled _ hat hh
        refine ih (hpop.release hl h1 h2 h3 (fun p hp he => ?_) h4) (by show n ≤ s.swPi - (s.ci + 1); omega)
        have hp' : s.RspAt p := ⟨Nat.le_of_succ_le hp.1, hp.2⟩
        have hlt : s.ci + 1 ≤ p := hp.1
        have := i.once p s.ci hp' hat he
        omega
      · exact ih hpop (by show n ≤ s.swPi - (s.ci + 1); omega)
    · exact i

theorem Inv.cqUpdate (i : Inv s recs) : Inv s.cqUpdate recs := i.cqUpdateLoop _ le_rfl

theorem Inv.cqPollerLoop (n p c : Nat) (i : Inv s recs) (hp : s.ci ≤ p) (hn : p + n ≤ s.pi) :
    Inv (cqPollerLoop n p c s) recs := by
  induction n generalizing s p c with
  | zero => exact i
  | succ n ih =>
    rw [Hmd.cqPollerLoop]
    split
    · exact ih (p + 1) c i (by omega) (by omega)
    next hc =>
      have hc : s.handled (p % 1024) = false ∧ (s.cqe (p % 1024)).isRsp = false := by simpa using hc
      have hmark : Inv (s.cqeStateSet (p % 1024) true) recs :=
        i.mark ⟨hp, by omega⟩ fun h => absurd (h.2.2.symm.trans hc.2) (by decide)
      split
      · exact hmark
      · exact ih (p + 1) (c + 1) hmark (Nat.le_succ_of_le hp) (by show p + 1 + n ≤ s.pi; omega)

theorem Inv.cqPoller (i : Inv s recs) : Inv s.cqPoller recs := by
  have := i.window
  exact i.readPi.cqPollerLoop _ _ _ (le_refl s.ci) (by show s.ci + (s.pi - s.ci) ≤ s.pi; omega)

theorem Inv.ageingLoop (l : List Rec) (i : Inv s (s.records ++ l))
    (hl : ∀ r ∈ l, 2 ≤ r.age → (s.req r.req).answer = none) :
    Inv (ageingLoop l s) (ageingLoop l s).records := by
  induction l generalizing s with
  | nil => exact append_nil s.records ▸ i
  | cons r l ih =>
    have hr : r ∈ s.records ++ r :: l := by simp
    obtain ⟨h1, h2, h3, h4⟩ := i.timed r hr
    rw [Hmd.ageingLoop]
    split
    next ha =>
      have hne : ∀ q ∈ s.records ++ l, q.req ≠ r.req := by
        have hn := i.timed_nodup
        rw [map_append, map_cons, nodup_middle, nodup_cons, ← map_append] at hn
        exact fun q hq he => hn.1 (he ▸ mem_map_of_mem hq)
      have hsub := i.sublist ((List.Sublist.refl s.records).append (sublist_cons_self r l))
      refine ih (hsub.release h1 h2 h3 (by simp [Req.active, h4]) (fun p hp he => ?_) hne) ?_
      · have := (i.rsp p hp).2.2.2
        rw [he, hl r (by simp) ha] at this
        cases this
      · exact fun q hq => hl q (mem_cons_of_mem _ hq)
    · refine ih ((i.reage ?_).setRecords _) fun q hq => hl q (mem_cons_of_mem _ hq)
      simp

theorem ageingLoop_ring (l : List Rec) (s : Hmd) : (Hmd.ageingLoop l s).ci = s.ci ∧
    (Hmd.ageingLoop l s).pi = s.pi ∧
    (Hmd.ageingLoop l s).cqe = s.cqe ∧ (Hmd.ageingLoop l s).handled = s.handled ∧
    (Hmd.ageingLoop l s).age = s.age := by
  induction l generalizing s with
  | nil => exact ⟨rfl, rfl, rfl, rfl, rfl⟩
  | cons r l ih =>
    rw [Hmd.ageingLoop]
    split <;> exact ih _

theorem cqeAgeing_fst (s : Hmd) (idx : Nat) : ∃ a, (s.cqeAgeing idx).1 = { s with age := a } ∧
    ∀ k, k ≠ idx → a k = s.age k := by
  unfold Hmd.cqeAgeing
  split
  · exact ⟨s.age, rfl, fun _ _ => rfl⟩
  split
  · exact ⟨_, rfl, fun k hk => Function.update_of_ne hk _ _⟩
  · exact ⟨s.age, rfl, fun _ _ => rfl⟩

theorem Inv.timeoutEntry (i : Inv s s.records) {p : Nat} (hp : s.ci ≤ p ∧ p < s.pi)
    (hA : s.RspAt p → s.handled (p % 1024) ∨ s.age (p % 1024) < 2) :
    Inv (s.timeoutEntry (p % 1024)).1 (s.timeoutEntry (p % 1024)).1.records := by
  obtain ⟨a, ha, -⟩ := cqeAgeing_fst s (p % 1024)
  unfold Hmd.timeoutEntry
  split
  next s₁ heq =>
    rw [heq] at ha
    rw [show s₁ = { s with age := a } from ha]
    refine (i.setAge a).mark hp fun hat => ?_
    exfalso
    have hat : s.RspAt p := hat
    unfold Hmd.cqeAgeing at heq
    rcases hA hat with h | h
    · rw [if_pos h] at heq
      cases heq
    split at heq <;> cases heq
  next s₁ heq =>
    rw [heq] at ha
    rw [show s₁ = { s with age := a } from ha]
    split
    · exact i.setAge a
    next r hr =>
      obtain ⟨hmem, hmatch⟩ : r ∈ s.records ∧ _ := ⟨mem_of_find?_eq_some hr, List.find?_some hr⟩
      have hmatch : ((s.cqe (p % 1024)).msn = r.msn ∧ (s.cqe (p % 1024)).task = r.task) ∧
          (s.cqe (p % 1024)).isRsp = true := by simpa using hmatch
      have hat : s.RspAt p := ⟨hp.1, hp.2, hmatch.2⟩
      obtain ⟨hl, h1, h2, -⟩ := i.rsp p hat
      obtain ⟨k1, k2, k3, k4⟩ := i.timed r hmem
      have hreq : s.reqAt p = r.req := i.apart _ _ (.inr (.inl hl)) (.inr (.inl k1))
        (h1.symm.trans (hmatch.1.2.trans k2)) (h2.symm.trans (hmatch.1.1.trans k3))
      have hsub := (i.sublist (erase_sublist (a := r))).setAge a
      refine ((hsub.setRecords (s.records.erase r)).mark hp fun _ => ⟨?_, fun q hq he => ?_⟩)
      · show (s.req (s.reqAt p)).active = false
        rw [hreq]
        simp [Req.active, k4]
      · have hn : s.records.Nodup := i.timed_nodup.of_map _
        obtain ⟨hne, hq⟩ := hn.mem_erase_iff.mp hq
        exact hne (inj_on_of_nodup_map i.timed_nodup hq hmem (he.trans hreq))

theorem timeoutEntry_ring (s : Hmd) (idx : Nat) : (s.timeoutEntry idx).1.ci = s.ci ∧
    (s.timeoutEntry idx).1.pi = s.pi ∧ (s.timeoutEntry idx).1.cqe = s.cqe ∧
    ∀ k, k ≠ idx → (s.timeoutEntry idx).1.handled k = s.handled k ∧ (s.timeoutEntry idx).1.age k = s.age k := by
  obtain ⟨a, ha, hk⟩ := cqeAgeing_fst s idx
  unfold Hmd.timeoutEntry
  split
  next s₁ heq =>
    rw [heq] at ha
    rw [show s₁ = { s with age := a } from ha]
    exact ⟨rfl, rfl, rfl, fun k h => ⟨Function.update_of_ne h _ _, (Function.update_of_ne h _ _).trans (hk k h)⟩⟩
  next s₁ heq =>
    rw [heq] at ha
    rw [show s₁ = { s with age := a } from ha]
    split
    · exact ⟨rfl, rfl, rfl, fun k h => ⟨rfl, hk k h⟩⟩
    · exact ⟨rfl, rfl, rfl, fun k h => ⟨Function.update_of_ne h _ _, (Function.update_of_ne h _ _).trans (hk k h)⟩⟩

theorem Inv.timeoutPollerLoop (n p c : Nat) (i : Inv s s.records) (hp : s.ci ≤ p) (hn : p + n ≤ s.pi)
    (hA : ∀ q, p ≤ q → s.RspAt q → s.handled (q % 1024) ∨ s.age (q % 1024) < 2) :
    Inv (timeoutPollerLoop n p c s) (timeoutPollerLoop n p c s).records := by
  induction n generalizing s p c with
  | zero => exact i
  | succ n ih =>
    have hentry := i.timeoutEntry ⟨hp, by omega⟩ (hA p le_rfl)
    obtain ⟨h1, h2, h3, h4⟩ := timeoutEntry_ring s (p % 1024)
    obtain ⟨-, -, hw⟩ := i.window
    have hA' : ∀ q, p + 1 ≤ q → (s.timeoutEntry (p % 1024)).1.RspAt q →
        (s.timeoutEntry (p % 1024)).1.handled (q % 1024) = true ∨ (s.timeoutEntry (p % 1024)).1.age (q % 1024) < 2 := by
      intro q hq hat
      have hat : s.RspAt q := by
        unfold RspAt at hat ⊢
        rwa [h1, h2, h3] at hat
      have hlt : q < s.pi := hat.2.1
      obtain ⟨k1, k2⟩ := h4 (q % 1024) (by omega)
      rw [k1, k2]
      exact hA q (by omega) hat
    rw [Hmd.timeoutPollerLoop]
    split
    next s₁ heq =>
      rw [heq] at hentry h1 h2 hA'
      exact ih (p + 1) c hentry (by rw [h1]; omega) (by rw [h2]; omega) hA'
    next s₁ heq =>
      rw [heq] at hentry h1 h2 hA'
      split
      · exact hentry
      · exact ih (p + 1) (c + 1) hentry (by rw [h1]; omega) (by rw [h2]; omega) hA'

theorem Inv.timeoutPoller (i : Inv s s.records) (hok : Prompt s .timeoutPoller) :
    Inv s.timeoutPoller s.timeoutPoller.records := by
  obtain ⟨h1, h2⟩ := hok
  obtain ⟨k1, k2, k3, k4, k5⟩ := ageingLoop_ring s.records { s with swPi := s.pi, records := [] }
  have hage : Inv { s with swPi := s.pi }.timeoutMsgAgeing { s with swPi := s.pi }.timeoutMsgAgeing.records :=
    Inv.ageingLoop s.records (i.readPi.setRecords []) h1
  have hw := i.window
  refine hage.timeoutPollerLoop _ _ _ (Nat.le_of_eq k1) ?_ fun q _ hat => ?_
  · show _ ≤ (Hmd.ageingLoop _ _).pi
    rw [k2]
    show s.ci + (s.pi - s.ci) ≤ s.pi
    omega
  · show (Hmd.ageingLoop _ _).handled _ = true ∨ (Hmd.ageingLoop _ _).age _ < 2
    rw [k4, k5]
    refine h2 q ?_
    change (Hmd.ageingLoop _ _).ci ≤ q ∧ q < (Hmd.ageingLoop _ _).pi ∧ ((Hmd.ageingLoop _ _).cqe _).isRsp = true at hat
    rwa [k1, k2, k3] at hat

theorem Inv.hwAnswer (i : Inv s recs) {v : Nat} (hl : id ∈ s.live) (hn : (s.req id).answer = none)
    (hroom : s.pi < s.ci + 1023) : Inv (s.hwAnswer id v) recs := by
  have hset : Inv (s.setReq id { s.req id with answer := some v }) recs := by
    refine i.setReq (fun h => ⟨i.live id h, rfl, rfl, .inl hn⟩) (fun h => i.bit id (.inl h)) (fun _ => ?_)
      (fun _ => .inl hn) (i.found id) (fun _ h => h) (fun x hx => ?_) (fun h => ?_) (i.active id)
    · exact i.sole (.inr (.inl hl))
    · have := i.result id x hx
      rw [hn] at this
      cases this
    · have := i.live id hl
      exact absurd (this.symm.trans h) (by decide)
  have hreq : (s.setReq id { s.req id with answer := some v }).req id = { s.req id with answer := some v } :=
    setReq_self
  refine hset.hwPush hroom fun _ => ⟨hl, ?_, ?_, ?_, fun p hat he => ?_⟩
  · exact (congrArg Req.task hreq).symm
  · exact (congrArg Req.msn hreq).symm
  · exact congrArg Req.answer hreq
  · have := (i.rsp p hat).2.2.2
    rw [show s.reqAt p = id from he, hn] at this
    cases this

theorem cqUpdateLoop_records (n : Nat) (s : Hmd) : (Hmd.cqUpdateLoop n s).records = s.records := by
  induction n generalizing s with
  | zero => rfl
  | succ n ih =>
    rw [Hmd.cqUpdateLoop]
    split
    · rw [ih]
      split <;> rfl
    · rfl

theorem cqPollerLoop_records (n p c : Nat) (s : Hmd) : (Hmd.cqPollerLoop n p c s).records = s.records := by
  induction n generalizing p c s with
  | zero => rfl
  | succ n ih =>
    rw [Hmd.cqPollerLoop]
    split
    · exact ih _ _ _
    split
    · rfl
    · exact ih _ _ _

theorem Inv.act {a : Act} (i : Inv s s.records) (ha : Prompt s a) : Inv (act s a) (act s a).records := by
  cases a with
  | start id t =>
    have hr : (s.start id t).records = s.records := by
      unfold Hmd.start
      split <;> rfl
    exact hr ▸ i.start t
  | msnGet id =>
    have hr : (s.msnGet id).records = s.records := by
      dsimp only [Hmd.msnGet]
      split
      · split <;> rfl
      · rfl
    exact hr ▸ i.msnGet ha
  | sqSubmit id room =>
    have hr : (s.sqSubmit id room).records = s.records := by
      dsimp only [Hmd.sqSubmit]
      split
      · split <;> rfl
      · rfl
    exact hr ▸ i.sqSubmit room
  | cqPoll id =>
    have hr : (s.cqPoll id).records = s.records := by
      dsimp only [Hmd.cqPoll]
      split
      · split <;> rfl
      · rfl
    exact hr ▸ i.cqPoll
  | waitTimeout id noMem =>
    have hno : noMem = false := ha
    subst hno
    exact i.waitTimeout
  | finish id ok =>
    have hr : (s.finish id ok).records = s.records := by
      dsimp only [Hmd.finish]
      split <;> rfl
    exact hr ▸ i.finish ok
  | cqUpdate => exact (cqUpdateLoop_records _ _).symm ▸ i.cqUpdate
  | cqPoller => exact (cqPollerLoop_records _ _ _ _).symm ▸ i.cqPoller
  | timeoutPoller => exact i.timeoutPoller ha
  | hwAnswer id v => exact i.hwAnswer ha.1 ha.2.1 ha.2.2
  | hwRequest m v => exact i.hwPush ha nofun

structure Matched (s : Hmd) : Prop where
  apart : ∀ id id', (s.req id).submitted = true → (s.req id').submitted = true →
    (s.req id).answer = none ∨ id ∈ s.live → (s.req id').answer = none ∨ id' ∈ s.live →
    (s.req id).task = (s.req id').task → (s.req id).msn = (s.req id').msn → id = id'
  own : ∀ id v, (s.req id).result = some v → (s.req id).answer = some v
  live : s.live.Nodup ∧ ∀ id ∈ s.live, (s.req id).submitted = true
  cnt : s.cnt = s.live.length
  nonneg : 0 ≤ s.cnt
  le : s.cnt ≤ 1023

theorem Inv.matched (i : Inv s recs) : Matched s where
  apart id id' h h' hu hu' ht hm := by
    have hholds : ∀ {x}, (s.req x).submitted → (s.req x).answer = none ∨ x ∈ s.live → s.Holds x := by
      rintro x hs (hx | hx)
      · exact .inr (.inr ⟨hs, hx⟩)
      · exact .inr (.inl hx)
    exact i.apart id id' (hholds h hu) (hholds h' hu') ht hm
  own := i.result
  live := ⟨i.nodup, i.live⟩
  cnt := i.cnt
  nonneg := by
    rw [i.cnt]
    exact Int.natCast_nonneg _
  le := i.cnt_le

/-- In every run under the condition responses are matched and requests counted. -/
theorem sync_matched (hs : Reach Prompt act {} s) : Matched s :=
  (hs.invariant (I := fun s => Inv s s.records) inv_init fun _ _ i ha => i.act ha).matched

def oneCall : List Act := [.start 0 .enum, .msnGet 0, .sqSubmit 0 true, .hwAnswer 0 7, .cqPoll 0, .finish 0 true,
  .cqUpdate]

theorem oneCall_along : Reach.Along Prompt act {} oneCall := by
  refine ⟨trivial, fun _ _ _ _ id' h => ?_, trivial,
    ⟨by decide +kernel, by decide +kernel, by decide +kernel⟩, trivial, trivial, trivial, trivial⟩
  by_cases he : id' = 0
  · subst he
    exact absurd h (by decide +kernel)
  have hreq : (act {} (.start 0 .enum)).req id' = {} := Function.update_of_ne he _ _
  rw [hreq] at h
  cases h

theorem sync_matched_oneCall :
    let s := oneCall.foldl act {}
    Matched s ∧ (s.req 0).result = some 7 ∧ s.cnt = 0 :=
  ⟨sync_matched (Reach.init.along oneCall_along), by decide +kernel, by decide +kernel⟩

/-- The record of the first of two calls cannot be allocated and its number is put back;
the second, which read `msn[type]` before, gets the same number. -/
def noRecord : List Act := [.start 0 .msg, .start 1 .msg, .msnGet 0, .sqSubmit 0 true, .cqPoll 0,
  .waitTimeout 0 true, .msnGet 1, .sqSubmit 1 true, .hwAnswer 0 7, .cqPoll 1, .finish 1 true]

theorem noRecord_along : Reach.Along Env act {} noRecord :=
  ⟨trivial, trivial, trivial, trivial, trivial, trivial, trivial, trivial,
    ⟨by decide +kernel, by decide +kernel, by decide +kernel⟩, trivial, trivial, trivial⟩

/-- The second call then returns `0` with the payload of the first one's response. -/
theorem lost_record_mismatch : ∃ s, Reach Env act {} s ∧
    ((s.req 0).submitted = true ∧ 0 ∈ s.live) ∧ ((s.req 1).submitted = true ∧ (s.req 1).answer = none) ∧
    (s.req 0).task = (s.req 1).task ∧ (s.req 0).msn = (s.req 1).msn ∧
    (s.req 0).answer = some 7 ∧ (s.req 1).result = some 7 :=
  ⟨noRecord.foldl act {}, Reach.init.along noRecord_along, by decide +kernel⟩

end Hmd

end UbDkms.Ubus.HiMsg
