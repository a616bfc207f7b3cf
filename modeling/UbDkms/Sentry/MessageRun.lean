import UbDkms.Sentry.Message

/-!
# Runs of the message helper

In every run a handle is at one place until it is freed, and what
`smh_message_get_ack` reports was acknowledged. That the reader does not sleep over
a message holds in the runs in which nothing is sent between the reader's look into
the fifo and its change of state.
-/

namespace UbDkms.Sentry

open Lib List
open Function (update update_self update_of_ne)

section Places

variable {cap : Nat} {s s' : Smh} {loc : Nat → Option Place} {j : Nat} {c : Call}

theorem box_call_of_ne (hc : s'.calls = update s.calls j c) {i : Nat} (hi : i ≠ j) :
    s'.box (.call i) = s.box (.call i) := by
  dsimp only [Smh.box]
  rw [hc, update_of_ne hi]

theorem box_call_self (hc : s'.calls = update s.calls j c) :
    s'.box (.call j) = c.handle := by
  dsimp only [Smh.box]
  rw [hc, update_self]

theorem box_call_eq (hc : s.calls j = c) : s.box (.call j) = c.handle := congrArg Call.handle hc

variable (hp : Placed s loc)
include hp

theorem Placed.alloc (hj : s.calls j = .idle) (hself : s'.box (.call j) = [s.next])
    (hother : ∀ r, r ≠ .call j → s'.box r = s.box r) (hn : s'.next = s.next + 1) :
    ∃ loc', Placed s' loc' := by
  have hnone : s.box (.call j) = [] := box_call_eq hj
  have hfresh : loc s.next = none := (hp.fresh _).mpr le_rfl
  refine ⟨update loc s.next (some (.call j)), fun r => ?_, fun r x => ?_, fun x => ?_⟩
  · by_cases hr : r = .call j
    · rw [hr, hself]
      exact nodup_singleton _
    · rw [hother r hr]
      exact hp.nodup r
  · by_cases hx : x = s.next
    · subst hx
      rw [update_self]
      by_cases hr : r = .call j
      · rw [hr, hself]
        exact ⟨fun _ => rfl, fun _ => mem_singleton_self _⟩
      · rw [hother r hr, hp.mem, hfresh]
        exact ⟨nofun, fun h => absurd (Option.some.inj h).symm hr⟩
    rw [update_of_ne hx, ← hp.mem]
    by_cases hr : r = .call j
    · rw [hr, hself, hnone, mem_singleton]
      exact ⟨fun h => absurd h hx, nofun⟩
    · rw [hother r hr]
  · by_cases hx : x = s.next
    · rw [hx, update_self, hn]
      exact ⟨nofun, fun h => absurd h (Nat.not_succ_le_self _)⟩
    · rw [update_of_ne hx, hp.fresh, hn]
      omega

theorem Placed.send (hj : s.calls j = .idle) (msgid : Nat) (ack allocated : Bool) :
    ∃ loc', Placed (s.send j msgid ack allocated) loc' := by
  unfold Smh.send
  split
  · exact ⟨loc, hp⟩
  split
  · exact ⟨loc, hp⟩
  refine hp.alloc hj (box_call_self (c := .sendIn s.next) rfl) (fun r hr => ?_) rfl
  cases r with
  | call i => exact box_call_of_ne rfl fun hi => hr (hi ▸ rfl)
  | _ => rfl

theorem Placed.pickUp {h : Nat} (hj : s.calls j = .idle) {p : Place}
    (hfrom : (s.box p).Perm (h :: s'.box p)) (hc : s'.calls = update s.calls j c := by rfl)
    (hh : c.handle = [h] := by rfl) (hpc : ∀ i, p ≠ .call i := by nofun)
    (hother : ∀ r, r ≠ p → (∀ i, r ≠ .call i) → s'.box r = s.box r := by
      intro r h1 h2
      cases r <;> first | rfl | exact absurd rfl h1 | exact absurd rfl (h2 _))
    (hn : s'.next = s.next := by rfl) : ∃ loc', Placed s' loc' := by
  refine hp.move _ [h] (hpc j) hfrom ?_ (fun r h1 h2 => ?_) hn
  · rw [box_call_self hc, box_call_eq hj, hh]
    exact .refl _
  · cases r with
    | call i => exact box_call_of_ne hc fun hi => h2 (hi ▸ rfl)
    | _ => exact hother _ h1 nofun

theorem Placed.ack (hj : s.calls j = .idle) (msgid res : Nat) (expired : Nat → Bool) :
    ∃ loc', Placed (s.smhMessageAck j msgid res expired) loc' := by
  have hperm := findAndRemove_perm s.heap expired msgid s.msgbufAck
  unfold Smh.smhMessageAck
  generalize findAndRemove s.heap expired msgid s.msgbufAck = r at hperm
  obtain ⟨kept, timeouts, found⟩ := r
  obtain ⟨loc1, hp1⟩ := hp.move { s with msgbufAck := found.toList ++ kept, freed := timeouts ++ s.freed }
    (p := .ackList) (q := .freed) timeouts (by decide) hperm (.refl _)
    (fun r h1 h2 => by cases r <;> first | rfl | contradiction) rfl
  cases found with
  | none => exact ⟨loc1, hp1⟩
  | some h => exact hp1.pickUp (p := .ackList) hj (.refl _)

theorem Placed.getAck (hj : s.calls j = .idle) (msgid : Nat) (expired : Nat → Bool) :
    ∃ loc', Placed (s.smhMessageGetAck j msgid expired) loc' := by
  have hperm := findAndRemove_perm s.heap expired msgid s.msgbufGet
  unfold Smh.smhMessageGetAck
  generalize findAndRemove s.heap expired msgid s.msgbufGet = r at hperm
  obtain ⟨kept, timeouts, found⟩ := r
  obtain ⟨loc1, hp1⟩ := hp.move { s with msgbufGet := found.toList ++ kept, freed := timeouts ++ s.freed }
    (p := .getList) (q := .freed) timeouts (by decide) hperm (.refl _)
    (fun r h1 h2 => by cases r <;> first | rfl | contradiction) rfl
  cases found with
  | none => exact ⟨loc1, hp1⟩
  | some h => exact hp1.pickUp (p := .getList) hj (.refl _)

theorem Placed.layDown {h : Nat} {c c' : Call} (hj : s.calls j = c) {q : Place}
    (hto : (s'.box q).Perm (h :: s.box q)) (hc : s'.calls = update s.calls j c' := by rfl)
    (hh : c.handle = [h] := by rfl) (hh' : c'.handle = [] := by rfl) (hq : ∀ i, q ≠ .call i := by nofun)
    (hother : ∀ r, r ≠ q → (∀ i, r ≠ .call i) → s'.box r = s.box r := by
      intro r h1 h2
      cases r <;> first | rfl | exact absurd rfl h1 | exact absurd rfl (h2 _))
    (hn : s'.next = s.next := by rfl) : ∃ loc', Placed s' loc' := by
  refine hp.move _ [h] (Ne.symm (hq j)) ?_ hto (fun r h1 h2 => ?_) hn
  · rw [box_call_eq hj, box_call_self hc, hh, hh']
    exact .refl _
  · cases r with
    | call i => exact box_call_of_ne hc fun hi => h1 (hi ▸ rfl)
    | _ => exact hother _ h2 nofun

theorem Placed.quiet {c c' : Call} (hj : s.calls j = c) (hh : c.handle = []) (hh' : c'.handle = [])
    (hc : s'.calls = update s.calls j c' := by rfl)
    (hother : ∀ r, (∀ i, r ≠ .call i) → s'.box r = s.box r := by
      intro r h
      cases r <;> first | rfl | exact absurd rfl (h _))
    (hn : s'.next = s.next := by rfl) : Placed s' loc := by
  refine hp.keep (fun r => ?_) hn
  cases r with
  | call i =>
    by_cases hi : i = j
    · rw [hi, box_call_eq hj, box_call_self hc, hh, hh']
    · exact box_call_of_ne hc hi
  | _ => exact hother _ nofun

theorem Placed.stepCall : ∃ loc', Placed (s.stepCall cap j) loc' := by
  unfold Smh.stepCall
  cases hj : s.calls j with
  | idle => exact ⟨loc, hp⟩
  | sendIn h =>
    dsimp only
    split
    · exact hp.layDown (q := .fifo) hj (perm_append_singleton ..)
    · exact hp.layDown (q := .freed) hj (.refl _)
  | sendCheck =>
    refine ⟨loc, hp.quiet hj rfl ?_⟩
    split <;> rfl
  | sendWake =>
    dsimp only [Smh.wakeUp]
    split <;> exact ⟨loc, hp.quiet hj rfl rfl⟩
  | ackHold h msgid res => exact hp.layDown (q := .getList) hj (perm_append_singleton ..)
  | getHold h msgid => exact hp.layDown (q := .freed) hj (.refl _)

theorem Placed.readerDown {h : Nat} {c : ReaderPc} (hr : s.reader = c) {q : Place}
    (hto : (s'.box q).Perm (h :: s.box q)) (hh : c.handle = [h] := by rfl)
    (hr' : s'.reader.handle = [] := by rfl) (hq : q ≠ .reader := by decide)
    (hother : ∀ r, r ≠ .reader → r ≠ q → s'.box r = s.box r := by
      intro r h1 h2
      cases r <;> first | rfl | contradiction)
    (hn : s'.next = s.next := by rfl) : ∃ loc', Placed s' loc' := by
  refine hp.move _ [h] hq.symm ?_ hto hother hn
  change s.reader.handle.Perm ([h] ++ s'.reader.handle)
  rw [hr, hh, hr']
  exact .refl _

theorem Placed.readerKeep {c : ReaderPc} (hr : s.reader = c) (hh : s'.reader.handle = c.handle := by rfl)
    (hother : ∀ r, r ≠ .reader → s'.box r = s.box r := by
      intro r h
      cases r <;> first | rfl | contradiction)
    (hn : s'.next = s.next := by rfl) : Placed s' loc := by
  refine hp.keep (fun r => ?_) hn
  by_cases h : r = .reader
  · subst h hr
    exact hh
  · exact hother r h

theorem Placed.stepReader (bad : Bool) : ∃ loc', Placed (s.stepReader cap bad) loc' := by
  unfold Smh.stepReader
  cases hr : s.reader with
  | idle => exact ⟨loc, hp⟩
  | out =>
    dsimp only
    split
    · exact ⟨loc, hp.readerKeep hr⟩
    next h l hl =>
    split
    · refine hp.move _ (p := .fifo) (q := .freed) [h] (by decide) ?_ (.refl _) (fun r h1 h2 => ?_) rfl
      · exact .of_eq hl
      · cases r <;> first | rfl | contradiction | exact (congrArg ReaderPc.handle hr).symm
    refine hp.move _ (p := .fifo) (q := .reader) [h] (by decide) ?_ ?_ (fun r h1 h2 => ?_) rfl
    · exact .of_eq hl
    · change [h].Perm ([h] ++ s.reader.handle)
      rw [hr]
      exact .refl _
    · cases r <;> first | rfl | contradiction
  | add | set => exact ⟨loc, hp.readerKeep hr⟩
  | sched =>
    dsimp only
    split
    · exact ⟨loc, hp⟩
    refine ⟨loc, hp.readerKeep hr ?_⟩
    split <;> rfl
  | got h =>
    refine ⟨loc, hp.readerKeep hr ?_⟩
    dsimp only
    split <;> rfl
  | recover h =>
    dsimp only
    split
    · exact hp.readerDown (q := .fifo) hr (perm_append_singleton ..)
    · exact hp.readerDown (q := .freed) hr (.refl _)
  | done h =>
    dsimp only
    split
    · split
      · exact hp.readerDown (q := .freed) hr (.refl _)
      · exact hp.readerDown (q := .ackList) hr (perm_append_singleton ..)
    · exact hp.readerDown (q := .freed) hr (.refl _)

theorem Placed.act (a : SmhAct) : ∃ loc', Placed (s.act cap a) loc' := by
  cases a with
  | send j msgid ack allocated =>
    dsimp only [Smh.act]
    split
    · next hj => exact hp.send hj msgid ack allocated
    · exact ⟨loc, hp⟩
  | ack j msgid res expired =>
    dsimp only [Smh.act]
    split
    · next hj => exact hp.ack hj msgid res expired
    · exact ⟨loc, hp⟩
  | getAck j msgid expired =>
    dsimp only [Smh.act]
    split
    · next hj => exact hp.getAck hj msgid expired
    · exact ⟨loc, hp⟩
  | step j => exact hp.stepCall
  | get =>
    dsimp only [Smh.act]
    split
    · next hr => exact ⟨loc, hp.readerKeep hr.1⟩
    · exact ⟨loc, hp⟩
  | readerStep bad => exact hp.stepReader bad
  | signal =>
    refine ⟨loc, hp.keep (fun r => ?_) rfl⟩
    cases r <;> rfl

end Places

/-! ## Acknowledgements -/

/-- What was acknowledged is on its way to the sender with the result user space gave. -/
structure Acked (s : Smh) : Prop where
  getList : ∀ h, h ∈ s.msgbufGet → ((s.heap h).msgid, (s.heap h).res) ∈ s.acks
  ackHold : ∀ j h msgid res, s.calls j = .ackHold h msgid res → (s.heap h).msgid = msgid ∧ (msgid, res) ∈ s.acks
  getHold : ∀ j h msgid, s.calls j = .getHold h msgid →
    (s.heap h).msgid = msgid ∧ (msgid, (s.heap h).res) ∈ s.acks
  got : ∀ x, x ∈ s.got → x ∈ s.acks

def Call.holds : Call → Bool
  | .ackHold .. => true
  | .getHold .. => true
  | _ => false

section Acks

variable {cap : Nat} {s s' : Smh} {loc : Nat → Option Place} {j : Nat}

theorem Placed.lt_next (hp : Placed s loc) {p : Place} {h : Nat} (hm : h ∈ s.box p) : h < s.next := by
  by_contra hlt
  have := (hp.fresh h).mpr (Nat.le_of_not_lt hlt)
  rw [(hp.mem p h).mp hm] at this
  cases this

theorem calls_update {c : Call} (hc : c.holds = false) (i : Nat) :
    update s.calls j c i = s.calls i ∨ (update s.calls j c i).holds = false := by
  by_cases hi : i = j
  · right
    rw [hi, update_self]
    exact hc
  · exact .inl (update_of_ne hi ..)

theorem Acked.keep (h : Acked s) (hp : Placed s loc)
    (hcalls : ∀ i, s'.calls i = s.calls i ∨ (s'.calls i).holds = false := by exact fun _ => .inl rfl)
    (hget : ∀ x, x ∈ s'.msgbufGet → x ∈ s.msgbufGet := by exact fun _ hx => hx)
    (hheap : ∀ x, x < s.next → s'.heap x = s.heap x := by exact fun _ _ => rfl)
    (hacks : s'.acks = s.acks := by rfl) (hgot : s'.got = s.got := by rfl) : Acked s' := by
  have hheld : ∀ i x c, s'.calls i = c → c.holds = true → c.handle = [x] →
      s.calls i = c ∧ s'.heap x = s.heap x := fun i x c hi hc hx => by
    have hsi : s.calls i = c := by
      rcases hcalls i with h | h
      · exact h.symm.trans hi
      · rw [hi, hc] at h
        cases h
    refine ⟨hsi, hheap x (hp.lt_next (p := .call i) ?_)⟩
    rw [box_call_eq hsi, hx]
    exact mem_singleton_self x
  refine ⟨fun x hx => ?_, fun i x msgid res hi => ?_, fun i x msgid hi => ?_, fun x hx => ?_⟩
  · rw [hheap x (hp.lt_next (p := .getList) (hget x hx)), hacks]
    exact h.getList x (hget x hx)
  · obtain ⟨hsi, hx⟩ := hheld i x _ hi rfl rfl
    rw [hx, hacks]
    exact h.ackHold i x msgid res hsi
  · obtain ⟨hsi, hx⟩ := hheld i x _ hi rfl rfl
    rw [hx, hacks]
    exact h.getHold i x msgid hsi
  · rw [hgot] at hx
    rw [hacks]
    exact h.got x hx

variable (h : Acked s) (hp : Placed s loc)
include h hp

theorem Acked.ack (msgid res : Nat) (expired : Nat → Bool) :
    Acked (s.smhMessageAck j msgid res expired) := by
  have hfound : ∀ x, (findAndRemove s.heap expired msgid s.msgbufAck).2.2 = some x → (s.heap x).msgid = msgid :=
    fun _ => findAndRemove_msgid s.msgbufAck
  unfold Smh.smhMessageAck
  generalize findAndRemove s.heap expired msgid s.msgbufAck = r at hfound
  obtain ⟨kept, timeouts, found⟩ := r
  have h1 : Acked { s with msgbufAck := kept, freed := timeouts ++ s.freed } :=
    h.keep hp
  cases found with
  | none => exact h1
  | some y =>
    refine ⟨fun x hx => mem_cons_of_mem _ (h.getList x hx), fun i x m r hi => ?_, fun i x m hi => ?_,
      fun x hx => mem_cons_of_mem _ (h.got x hx)⟩
    · change update s.calls j (Call.ackHold y msgid res) i = _ at hi
      by_cases hij : i = j
      · rw [hij, update_self] at hi
        cases hi
        exact ⟨hfound _ rfl, mem_cons_self⟩
      · rw [update_of_ne hij] at hi
        exact ⟨(h.ackHold i x m r hi).1, mem_cons_of_mem _ (h.ackHold i x m r hi).2⟩
    · change update s.calls j (Call.ackHold y msgid res) i = _ at hi
      by_cases hij : i = j
      · rw [hij, update_self] at hi
        cases hi
      · rw [update_of_ne hij] at hi
        exact ⟨(h.getHold i x m hi).1, mem_cons_of_mem _ (h.getHold i x m hi).2⟩

theorem Acked.getAck (msgid : Nat) (expired : Nat → Bool) :
    Acked (s.smhMessageGetAck j msgid expired) := by
  have hfound : ∀ x, (findAndRemove s.heap expired msgid s.msgbufGet).2.2 = some x → (s.heap x).msgid = msgid :=
    fun _ => findAndRemove_msgid s.msgbufGet
  have hperm := findAndRemove_perm s.heap expired msgid s.msgbufGet
  unfold Smh.smhMessageGetAck
  generalize findAndRemove s.heap expired msgid s.msgbufGet = r at hfound hperm
  obtain ⟨kept, timeouts, found⟩ := r
  have hkept : ∀ x, x ∈ kept → x ∈ s.msgbufGet := fun x hx =>
    hperm.mem_iff.mpr (mem_append_right _ (mem_append_right _ hx))
  have h1 : Acked { s with msgbufGet := kept, freed := timeouts ++ s.freed } :=
    h.keep hp (fun _ => .inl rfl) hkept
  cases found with
  | none => exact h1
  | some y =>
    have hy : y ∈ s.msgbufGet := hperm.mem_iff.mpr (mem_append_right _ (mem_append_left _ (by simp)))
    refine ⟨h1.getList, fun i x m r hi => ?_, fun i x m hi => ?_, h.got⟩
    · change update s.calls j (Call.getHold y msgid) i = _ at hi
      by_cases hij : i = j
      · rw [hij, update_self] at hi
        cases hi
      · rw [update_of_ne hij] at hi
        exact h.ackHold i x m r hi
    · change update s.calls j (Call.getHold y msgid) i = _ at hi
      by_cases hij : i = j
      · rw [hij, update_self] at hi
        cases hi
        have := h.getList y hy
        rw [hfound y rfl] at this
        exact ⟨hfound y rfl, this⟩
      · rw [update_of_ne hij] at hi
        exact h.getHold i x m hi

theorem Acked.stepCall : Acked (s.stepCall cap j) := by
  unfold Smh.stepCall
  cases hj : s.calls j with
  | idle => exact h
  | sendIn x =>
    dsimp only
    split <;> exact h.keep hp (calls_update rfl)
  | sendCheck =>
    refine h.keep hp (calls_update ?_)
    split <;> rfl
  | sendWake =>
    dsimp only [Smh.wakeUp]
    split <;> exact h.keep hp (calls_update rfl)
  | ackHold y msgid res =>
    obtain ⟨hid, hack⟩ := h.ackHold j y msgid res hj
    have hy : y ∈ s.box (.call j) := by
      rw [box_call_eq hj]
      exact mem_singleton_self y
    -- the handle in hand is no other call's and in no list
    have hother : ∀ x p, x ∈ s.box p → p ≠ .call j → x ≠ y := fun x p hx hne he =>
      hne (hp.unique (he ▸ hx) hy)
    have hcall : ∀ i x c, update s.calls j Call.idle i = c → c.handle = [x] →
        s.calls i = c ∧ x ≠ y := fun i x c hi hc => by
      by_cases hij : i = j
      · rw [hij, update_self] at hi
        rw [← hi] at hc
        cases hc
      rw [update_of_ne hij] at hi
      refine ⟨hi, hother x (.call i) ?_ fun he => hij (Place.call.inj he)⟩
      rw [box_call_eq hi, hc]
      exact mem_singleton_self x
    refine ⟨fun x hx => ?_, fun i x m r hi => ?_, fun i x m hi => ?_, h.got⟩
    · dsimp only at hx ⊢
      by_cases hxy : x = y
      · rw [hxy, update_self]
        rw [hid]
        exact hack
      rw [update_of_ne hxy]
      refine h.getList x ((mem_append.mp hx).resolve_right fun hx => hxy ?_)
      exact mem_singleton.mp hx
    · obtain ⟨hc, hne⟩ := hcall i x _ hi rfl
      dsimp only
      rw [update_of_ne hne]
      exact h.ackHold i x m r hc
    · obtain ⟨hc, hne⟩ := hcall i x _ hi rfl
      dsimp only
      rw [update_of_ne hne]
      exact h.getHold i x m hc
  | getHold y msgid =>
    have h1 : Acked { s.setCall j .idle with freed := y :: s.freed } :=
      h.keep hp (calls_update rfl)
    refine ⟨h1.getList, h1.ackHold, h1.getHold, fun x hx => ?_⟩
    rcases mem_cons.mp hx with rfl | hx
    · exact (h.getHold j y msgid hj).2
    · exact h.got x hx

theorem Acked.stepReader (bad : Bool) : Acked (s.stepReader cap bad) := by
  unfold Smh.stepReader
  split
  · exact h
  · split
    · exact h.keep hp
    · split <;> exact h.keep hp
  · exact h.keep hp
  · exact h.keep hp
  · split <;> exact h.keep hp
  · exact h.keep hp
  · split <;> exact h.keep hp
  · split
    · split <;> exact h.keep hp
    · exact h.keep hp

theorem Acked.act (a : SmhAct) : Acked (s.act cap a) := by
  cases a with
  | send j msgid ack allocated =>
    dsimp only [Smh.act]
    split
    · unfold Smh.send
      split
      · exact h
      split
      · exact h
      · refine h.keep hp (calls_update rfl) (fun _ hx => hx) fun x hx => ?_
        exact update_of_ne (Nat.ne_of_lt hx) ..
    · exact h
  | ack j msgid res expired =>
    dsimp only [Smh.act]
    split
    · exact h.ack hp msgid res expired
    · exact h
  | getAck j msgid expired =>
    dsimp only [Smh.act]
    split
    · exact h.getAck hp msgid expired
    · exact h
  | step j => exact h.stepCall hp
  | get =>
    dsimp only [Smh.act]
    split
    · exact h.keep hp
    · exact h
  | readerStep bad => exact h.stepReader hp bad
  | signal => exact h.keep hp

end Acks

/-! ## The sleeping reader -/

/-- Nothing is put into the fifo after the reader found it empty and before it set its state. -/
def SmhKept (s : Smh) : SmhAct → Prop
  | .step j => (∃ h, s.calls j = .sendIn h) → s.reader ≠ .add ∧ s.reader ≠ .set
  | _ => True

structure Wakeful (s : Smh) : Prop where
  empty : s.reader = .add ∨ s.reader = .set → s.msgbufSend = []
  queued : s.reader = .set → s.queued = true
  sleeping : s.interruptible = true →
    s.reader = .sched ∧ s.queued = true ∧ (s.msgbufSend ≠ [] → s.Waking)

section Sleep

variable {cap : Nat} {s s' : Smh} {j : Nat}

theorem Smh.Waking.other {c c' : Call} (h : s.Waking) (hj : s.calls j = c) (h1 : c ≠ .sendWake)
    (h2 : c ≠ .sendCheck) (hq : s'.queued = s.queued := by rfl)
    (hc : s'.calls = update s.calls j c' := by rfl) : s'.Waking := by
  obtain ⟨i, hi⟩ := h
  have hij : i ≠ j := fun he => by
    rw [he, hj] at hi
    rcases hi with hi | hi
    · exact h1 hi
    · exact h2 hi.1
  refine ⟨i, ?_⟩
  rw [hc, update_of_ne hij, hq]
  exact hi

theorem Wakeful.same (h : Wakeful s) (hw : s.Waking → s'.Waking) (hr : s'.reader = s.reader := by rfl)
    (hq : s'.queued = s.queued := by rfl) (hi : s'.interruptible = s.interruptible := by rfl)
    (hf : s'.msgbufSend = s.msgbufSend := by rfl) : Wakeful s' where
  empty hs := by
    rw [hr] at hs
    rw [hf]
    exact h.empty hs
  queued hs := by
    rw [hr] at hs
    rw [hq]
    exact h.queued hs
  sleeping hs := by
    rw [hi] at hs
    rw [hr, hq, hf]
    obtain ⟨h3, h4, h5⟩ := h.sleeping hs
    exact ⟨h3, h4, fun hne => hw (h5 hne)⟩

theorem Wakeful.of_awake (hi : s.interruptible = false) (h1 : s.reader ≠ .add) (h2 : s.reader ≠ .set) :
    Wakeful s where
  empty hs := by
    rcases hs with hs | hs
    · exact absurd hs h1
    · exact absurd hs h2
  queued hs := absurd hs h2
  sleeping hs := by
    rw [hi] at hs
    cases hs

theorem Wakeful.stepCall (h : Wakeful s) (ha : SmhKept s (.step j)) : Wakeful (s.stepCall cap j) := by
  unfold Smh.stepCall
  cases hj : s.calls j with
  | idle => exact h
  | sendIn x =>
    have hne := ha ⟨x, hj⟩
    dsimp only
    split
    · refine ⟨fun hs => ?_, h.queued, fun hs => ?_⟩
      · rcases hs with hs | hs
        · exact absurd hs hne.1
        · exact absurd hs hne.2
      · obtain ⟨h3, h4, -⟩ := h.sleeping hs
        exact ⟨h3, h4, fun _ => ⟨j, .inr ⟨update_self .., h4⟩⟩⟩
    · exact h.same fun hw => hw.other hj nofun nofun
  | sendCheck =>
    refine ⟨h.empty, h.queued, fun hs => ?_⟩
    obtain ⟨h3, h4, -⟩ := h.sleeping hs
    refine ⟨h3, h4, fun _ => ⟨j, .inl ?_⟩⟩
    refine (update_self ..).trans ?_
    rw [if_pos h4]
  | sendWake =>
    dsimp only [Smh.wakeUp]
    split
    · refine ⟨h.empty, fun hs => ?_, nofun⟩
      next hq => rw [(h.sleeping hq.2).1] at hs; cases hs
    next hq =>
    refine ⟨h.empty, h.queued, fun hs => ?_⟩
    exact absurd ⟨(h.sleeping hs).2.1, hs⟩ hq
  | ackHold x msgid res | getHold x msgid =>
    exact h.same fun hw => hw.other hj nofun nofun

theorem Wakeful.stepReader (h : Wakeful s) (bad : Bool) : Wakeful (s.stepReader cap bad) := by
  have hawake : s.reader ≠ .sched → s.interruptible = false := fun hne => by
    cases hi : s.interruptible with
    | false => rfl
    | true => exact absurd (h.sleeping hi).1 hne
  unfold Smh.stepReader
  cases hr : s.reader with
  | idle => exact h
  | out =>
    have hi := hawake (by rw [hr]; decide)
    dsimp only
    split
    · next hf =>
      refine ⟨fun _ => hf, nofun, fun hs => ?_⟩
      rw [show s.interruptible = true from hs] at hi
      cases hi
    split <;> exact .of_awake hi (by simp) (by simp)
  | add =>
    have hi := hawake (by rw [hr]; decide)
    refine ⟨fun _ => h.empty (.inl hr), fun _ => rfl, fun hs => ?_⟩
    rw [show s.interruptible = true from hs] at hi
    cases hi
  | set =>
    refine ⟨fun hs => ?_, nofun, fun _ => ⟨rfl, h.queued hr, fun hne => ?_⟩⟩
    · rcases hs with hs | hs <;> cases hs
    · exact absurd (h.empty (.inr hr)) hne
  | sched =>
    dsimp only
    split
    · exact h
    · refine .of_awake rfl ?_ ?_ <;> dsimp only <;> split <;> decide
  | got x =>
    have hi := hawake (by rw [hr]; simp)
    refine .of_awake hi ?_ ?_ <;> dsimp only <;> split <;> simp
  | recover x =>
    have hi := hawake (by rw [hr]; simp)
    dsimp only
    split <;> exact .of_awake hi (by simp) (by simp)
  | done x =>
    have hi := hawake (by rw [hr]; simp)
    dsimp only
    split
    · split <;> exact .of_awake hi (by simp) (by simp)
    · exact .of_awake hi (by simp) (by simp)

theorem Wakeful.act (h : Wakeful s) {a : SmhAct} (ha : SmhKept s a) : Wakeful (s.act cap a) := by
  cases a with
  | send j msgid ack allocated =>
    dsimp only [Smh.act]
    split
    · next hj =>
      unfold Smh.send
      split
      · exact h
      split
      · exact h
      · exact h.same fun hw => hw.other hj nofun nofun
    · exact h
  | ack j msgid res expired =>
    dsimp only [Smh.act]
    split
    · next hj =>
      dsimp only [Smh.smhMessageAck]
      split
      · exact h.same id
      · exact h.same fun hw => hw.other hj nofun nofun
    · exact h
  | getAck j msgid expired =>
    dsimp only [Smh.act]
    split
    · next hj =>
      dsimp only [Smh.smhMessageGetAck]
      split
      · exact h.same id
      · exact h.same fun hw => hw.other hj nofun nofun
    · exact h
  | step j => exact h.stepCall ha
  | get =>
    dsimp only [Smh.act]
    split
    · next hr =>
      refine .of_awake ?_ (by simp) (by simp)
      cases hi : s.interruptible with
      | false => rfl
      | true =>
        have := (h.sleeping hi).1
        rw [hr.1] at this
        cases this
    · exact h
  | readerStep bad => exact h.stepReader bad
  | signal => exact h.same id

end Sleep

/-- In every run each handle is at one place, once, the freed ones included, and what was reported was
acknowledged; and if nothing is sent while the reader goes to sleep, it does not sleep over a message. -/
theorem messages_kept (cap : Nat) {s : Smh} (hs : Reach (fun _ _ => True) (Smh.act cap) {} s) :
    (∀ h, h < s.next → ∃ p, (s.box p).count h = 1 ∧ ∀ q, q ≠ p → (s.box q).count h = 0) ∧
    (∀ x, x ∈ s.got → x ∈ s.acks) ∧
    (Reach SmhKept (Smh.act cap) {} s → ¬ (s.Asleep ∧ s.msgbufSend ≠ [] ∧ ¬ s.Waking)) := by
  have h : (∃ loc, Placed s loc) ∧ Acked s := by
    refine hs.invariant (I := fun s => (∃ loc, Placed s loc) ∧ Acked s) ⟨⟨fun _ => none, ?_⟩, ?_⟩
      fun s a h _ => ?_
    · refine ⟨fun p => ?_, fun p x => ?_, fun x => ⟨fun _ => Nat.zero_le x, fun _ => rfl⟩⟩
      · cases p <;> exact nodup_nil
      · cases p <;> exact ⟨nofun, nofun⟩
    · exact ⟨nofun, nofun, nofun,
        nofun⟩
    · obtain ⟨⟨loc, hp⟩, hk⟩ := h
      exact ⟨hp.act a, hk.act hp a⟩
  obtain ⟨⟨loc, hp⟩, hk⟩ := h
  refine ⟨fun x hx => ?_, hk.got, fun hkept hsleep => ?_⟩
  · cases hl : loc x with
    | none => exact absurd ((hp.fresh x).mp hl) (Nat.not_le.mpr hx)
    | some p =>
      refine ⟨p, count_eq_one_of_mem (hp.nodup p) ((hp.mem p x).mpr hl), fun q hq => ?_⟩
      refine count_eq_zero_of_not_mem fun hmem => hq ?_
      exact hp.unique hmem ((hp.mem p x).mpr hl)
  · have hw : Wakeful s := hkept.invariant
      (.of_awake rfl (by decide) (by decide)) fun _ _ h ha => h.act ha
    exact hsleep.2.2 ((hw.sleeping hsleep.1.2.1).2.2 hsleep.2.1)

def collected : Smh :=
  [.send 0 7 true true, .step 0, .step 0, .get, .readerStep false, .readerStep false, .readerStep false,
   .ack 1 7 3 fun _ => false, .step 1, .getAck 0 7 fun _ => false, .step 0].foldl (Smh.act 8) {}

theorem messages_kept_collected : collected.got = [(7, 3)] ∧ collected.freed = [0] ∧ (7, 3) ∈ collected.acks ∧
    ∃ p, (collected.box p).count 0 = 1 := by
  have h := messages_kept 8 (s := collected) (.foldl _)
  obtain ⟨p, hp, -⟩ := h.1 0 (by decide)
  exact ⟨rfl, rfl, h.2.1 _ (mem_singleton_self _), p, hp⟩

/-- A message is sent after the reader found the fifo empty and before it sleeps. -/
def overslept : Smh :=
  [.get, .readerStep false, .send 0 7 true true, .step 0, .step 0, .readerStep false,
   .readerStep false].foldl (Smh.act 8) {}

/-- The reader sleeps, the message waits, and nobody is about to wake the reader. -/
theorem lost_wakeup : Reach (fun _ _ => True) (Smh.act 8) {} overslept ∧ overslept.Asleep ∧
    overslept.msgbufSend = [0] ∧ ¬ overslept.Waking := by
  refine ⟨.foldl _, ⟨rfl, rfl, rfl⟩, rfl, fun h => ?_⟩
  obtain ⟨i, hi⟩ := h
  have hidle : overslept.calls i = .idle := by
    have hcalls : overslept.calls = update (update (update (fun _ => .idle) 0
      (.sendIn 0)) 0 .sendCheck) 0 .idle := rfl
    rw [hcalls]
    by_cases h0 : i = 0
    · rw [h0, update_self]
    · rw [update_of_ne h0, update_of_ne h0, update_of_ne h0]
  rw [hidle] at hi
  rcases hi with hi | hi
  · cases hi
  · cases hi.1

end UbDkms.Sentry
