import UbDkms.Uburma.Event

/-!
# Every event has one place

An event is in the queue, in the hands of one waiter, or freed, and the counter of a JFC
is what its waiters delivered and still hold. A deletion that reads the counter after the
queued events are gone returns the final number; a batch, which reads it before, does so
if no event of its JFCs is taken in between.
-/

namespace UbDkms.Uburma

open Lib List

def JfcDel.sampled (d : JfcDel) : List Nat :=
  match d.pc with
  | .sample todo => d.jfcs.take (d.jfcs.length - todo.length)
  | _ => d.jfcs

namespace Jfce

variable {s : Jfce} {l evs : List JfeEvent} {i j n : Nat}

def ofId (i : Nat) (l : List JfeEvent) : Nat := l.countP (·.id = i)

def ofJfc (j : Nat) (l : List JfeEvent) : Nat := l.countP (·.jfc = j)

@[simp] theorem ofId_append (i : Nat) (l l' : List JfeEvent) :
    ofId i (l ++ l') = ofId i l + ofId i l' := countP_append

@[simp] theorem ofJfc_append (j : Nat) (l l' : List JfeEvent) :
    ofJfc j (l ++ l') = ofJfc j l + ofJfc j l' := countP_append

def heldId (s : Jfce) (i : Nat) : Nat := total (fun w => ofId i w.evs) s.waits

def heldJfc (s : Jfce) (j : Nat) : Nat := total (fun w => ofJfc j w.evs) s.waits

def reportedSum (s : Jfce) (js : List Nat) : Nat := (js.map s.compEventsReported).sum % 2 ^ 32

theorem nodup_of_ofId (h : ∀ i, ofId i l ≤ 1) : l.Nodup := by
  refine nodup_iff_count_le_one.mpr fun e => le_trans ?_ (h e.id)
  rw [List.count]
  refine countP_mono_left fun x _ hx => ?_
  simpa using congrArg JfeEvent.id (beq_iff_eq.mp hx)

theorem perm_split (hl : l.Nodup) (he : evs.Nodup) (hsub : ∀ e ∈ evs, e ∈ l) :
    l.Perm (evs ++ l.filter (· ∉ evs)) := by
  refine (perm_ext_iff_of_nodup hl ?_).mpr fun e => ?_
  · refine nodup_append.mpr ⟨he, hl.filter _, fun a ha b hb hab => ?_⟩
    have := (mem_filter.mp hb).2
    subst hab
    simp [ha] at this
  simp only [mem_append, mem_filter, decide_eq_true_eq]
  constructor
  · intro h
    by_cases hm : e ∈ evs
    · exact .inl hm
    · exact .inr ⟨h, hm⟩
  · rintro (h | h)
    · exact hsub e h
    · exact h.1

theorem drop_eq_filter (hl : l.Nodup) (n : Nat) : l.drop n = l.filter (· ∉ l.take n) := by
  have h : l.take n ++ l.drop n = l := take_append_drop n l
  have hd : ∀ e ∈ l.drop n, e ∉ l.take n := fun e hd ht => by
    rw [← h] at hl
    exact (nodup_append.mp hl).2.2 e ht e hd rfl
  conv_rhs => rw [← h]
  rw [filter_append, filter_eq_nil_iff.mpr, nil_append, filter_eq_self.mpr]
  · intro e he
    simpa [h] using hd e he
  · intro e he
    simpa [h] using he

/-- How far a deletion is: the JFCs it is through with have no queued event. -/
def DelTodo (s : Jfce) (d : JfcDel) : Prop :=
  match d.pc with
  | .sample todo => ∃ done, d.jfcs = done ++ todo
  | .remove => True
  | .release todo => d.ok = true → (∀ j ∈ d.jfcs, s.closed j = true) ∧
      ∃ done, d.jfcs = done ++ todo ∧ ∀ j ∈ done, ofJfc j s.eventList = 0

structure DelOk (s : Jfce) (d : JfcDel) : Prop where
  todo : DelTodo s d
  acc : d.batch = true → d.acc = s.reportedSum d.sampled

structure DeletedOk (s : Jfce) (x : JfcDeleted) : Prop where
  closed : ∀ j ∈ x.jfcs, s.closed j = true ∧ ofJfc j s.eventList = 0
  reported : x.reported = s.reportedSum x.jfcs

structure Inv (s : Jfce) : Prop where
  place : ∀ i, ofId i s.eventList + s.heldId i + ofId i s.freed = if i < s.next then 1 else 0
  obj : ∀ j, s.compEventList j = s.eventList.filter (·.jfc = j)
  cnt : ∀ j, s.compEventsReported j = (ofJfc j s.delivered + s.heldJfc j) % 2 ^ 32
  once : ∀ i, ofId i s.delivered ≤ ofId i s.freed
  dels : ∀ d ∈ s.dels, DelOk s d
  deleted : ∀ x ∈ s.deleted, DeletedOk s x

variable {s' : Jfce} {d : JfcDel}

theorem Inv.nodup (h : Inv s) : s.eventList.Nodup := nodup_of_ofId fun i => by
  have := h.place i
  split at this <;> omega

/-- What a step leaves to the deletions: nothing is reopened or queued for a closed JFC. -/
structure Kept (s s' : Jfce) : Prop where
  closed : ∀ j, s.closed j = true → s'.closed j = true
  empty : ∀ j, s.closed j = true → ofJfc j s.eventList = 0 → ofJfc j s'.eventList = 0

theorem reportedSum_congr {js : List Nat}
    (h : ∀ j ∈ js, s'.compEventsReported j = s.compEventsReported j) :
    s'.reportedSum js = s.reportedSum js := by
  rw [reportedSum, reportedSum, map_congr_left h]

theorem DelOk.keep (h : DelOk s d) (k : Kept s s')
    (hr : d.batch → ∀ j ∈ d.sampled, s'.compEventsReported j = s.compEventsReported j) :
    DelOk s' d := by
  refine ⟨?_, fun hb => (h.acc hb).trans (reportedSum_congr (hr hb)).symm⟩
  have ht := h.todo
  unfold DelTodo at ht ⊢
  split at ht
  · exact ht
  · trivial
  intro hok
  obtain ⟨hc, done, hd, he⟩ := ht hok
  refine ⟨fun j hj => k.closed j (hc j hj), done, hd, fun j hj => k.empty j ?_ (he j hj)⟩
  exact hc j (hd ▸ mem_append_left _ hj)

theorem DeletedOk.keep {x : JfcDeleted} (h : DeletedOk s x) (k : Kept s s')
    (hr : ∀ j ∈ x.jfcs, s'.compEventsReported j = s.compEventsReported j) : DeletedOk s' x :=
  ⟨fun j hj => ⟨k.closed j (h.closed j hj).1, k.empty j (h.closed j hj).1 (h.closed j hj).2⟩,
    h.reported.trans (reportedSum_congr hr).symm⟩

theorem Kept.of_sublist (hc : s'.closed = s.closed) (h : s'.eventList.Sublist s.eventList) :
    Kept s s' :=
  ⟨fun j hj => by rw [hc]; exact hj,
    fun j _ h0 => Nat.le_zero.mp ((h.countP_le).trans h0.le)⟩

theorem Inv.split (h : Inv s) (he : evs.Nodup) (hsub : ∀ e ∈ evs, e ∈ s.eventList) :
    (∀ i, ofId i s.eventList = ofId i evs + ofId i (s.eventList.filter (· ∉ evs))) ∧
    ∀ j, s.unlink evs j = (s.eventList.filter (· ∉ evs)).filter (·.jfc = j) := by
  refine ⟨fun i => ?_, fun j => ?_⟩
  · rw [← ofId_append]
    exact (perm_split h.nodup he hsub).countP_eq _
  · rw [unlink, h.obj, filter_comm]

theorem heldId_swap {waits : List JfceWait} {olds news : List JfceWait}
    (h : Swap s.waits waits olds news) (i : Nat) :
    total (fun w => ofId i w.evs) waits + total (fun w => ofId i w.evs) olds =
      s.heldId i + total (fun w => ofId i w.evs) news := h.total _

theorem heldJfc_swap {waits : List JfceWait} {olds news : List JfceWait}
    (h : Swap s.waits waits olds news) (j : Nat) :
    total (fun w => ofJfc j w.evs) waits + total (fun w => ofJfc j w.evs) olds =
      s.heldJfc j + total (fun w => ofJfc j w.evs) news := h.total _

theorem Inv.waits (h : Inv s) {waits olds news : List JfceWait}
    (hw : Swap s.waits waits olds news)
    (he : ∀ p : JfeEvent → Bool, total (fun w => w.evs.countP p) olds =
      total (fun w => w.evs.countP p) news) : Inv { s with waits } := by
  have k : Kept s { s with waits } := .of_sublist rfl (.refl _)
  refine ⟨fun i => ?_, h.obj, fun j => ?_, h.once, fun d hd => (h.dels d hd).keep k fun _ _ _ => rfl,
    fun x hx => (h.deleted x hx).keep k fun _ _ => rfl⟩
  · have h1 := heldId_swap hw i
    have h2 : total (fun w => ofId i w.evs) olds = total (fun w => ofId i w.evs) news := he _
    have h3 := h.place i
    show ofId i s.eventList + total (fun w => ofId i w.evs) waits + ofId i s.freed =
      if i < s.next then 1 else 0
    omega
  · have h1 := heldJfc_swap hw j
    have h2 : total (fun w => ofJfc j w.evs) olds = total (fun w => ofJfc j w.evs) news := he _
    show s.compEventsReported j = (ofJfc j s.delivered + total (fun w => ofJfc j w.evs) waits) % _
    rw [h.cnt j]
    congr 1
    omega

theorem Inv.writeEvent (h : Inv s) (hc : s.closed j = false) (allocOk : Bool) :
    Inv (s.writeEvent j allocOk) := by
  unfold Jfce.writeEvent
  split
  · exact h
  split
  · exact h
  have k : Kept s { s with
      eventList := s.eventList ++ [⟨s.next, j⟩]
      compEventList := Function.update s.compEventList j (s.compEventList j ++ [⟨s.next, j⟩])
      next := s.next + 1 } := by
    refine ⟨fun _ h => h, fun x hx h0 => ?_⟩
    have hne : j ≠ x := by
      rintro rfl
      rw [hc] at hx
      cases hx
    rw [ofJfc_append, h0]
    simp [ofJfc, hne]
  refine ⟨fun i => ?_, fun x => ?_, h.cnt, h.once, fun d hd => (h.dels d hd).keep k fun _ _ _ => rfl,
    fun x hx => (h.deleted x hx).keep k fun _ _ => rfl⟩
  · have h1 := h.place i
    have h2 : ofId i [⟨s.next, j⟩] = if s.next = i then 1 else 0 := by simp [ofId, countP_cons]
    show ofId i (s.eventList ++ [_]) + s.heldId i + ofId i s.freed = if i < s.next + 1 then 1 else 0
    rw [ofId_append, h2]
    split at h1 <;> split <;> split <;> omega
  · show Function.update s.compEventList j _ x = (s.eventList ++ [_]).filter _
    rw [filter_append]
    by_cases hx : x = j
    · subst hx
      simp [h.obj]
    · rw [Function.update_of_ne hx, h.obj]
      simp [Ne.symm hx]

theorem evs_waiting (timed : Bool) : (JfceWait.waiting timed).evs = [] := rfl

theorem evs_took (timed : Bool) : (JfceWait.took timed l).evs = l := rfl

theorem evs_out : (JfceWait.out l).evs = l := rfl

/-- The waiter takes no event whose JFC a batch deletion has read already. -/
def TakesUnsampled (s : Jfce) (evs : List JfeEvent) : Prop :=
  ∀ e ∈ evs, ∀ d ∈ s.dels, d.batch = true → e.jfc ∉ d.sampled

theorem ofJfc_eq_zero : ofJfc j l = 0 ↔ ∀ e ∈ l, e.jfc ≠ j := by
  simp [ofJfc]

section

variable (h : Inv s)
include h

theorem Inv.readJfeEvent {timed : Bool} {m : Nat}
    (hn : s.waits[n]? = some (.waiting timed)) (hu : s.TakesUnsampled (s.eventList.take m)) :
    Inv (s.readJfeEvent n timed m) := by
  have hnd := h.nodup
  have htake : (s.eventList.take m).Nodup := hnd.sublist (take_sublist m _)
  obtain ⟨hid, hobj⟩ := h.split htake fun e he => mem_of_mem_take he
  rw [← drop_eq_filter hnd] at hid hobj
  have hlt : ∀ j, s.compEventsReported j < 2 ^ 32 := fun j => by
    rw [h.cnt]
    exact Nat.mod_lt _ (by decide)
  have hsame : ∀ j, ofJfc j (s.eventList.take m) = 0 →
      (s.compEventsReported j + ofJfc j (s.eventList.take m)) % 2 ^ 32 = s.compEventsReported j :=
    fun j h0 => by rw [h0, Nat.add_zero, Nat.mod_eq_of_lt (hlt j)]
  have hw := Swap.set hn (.took timed (s.eventList.take m))
  have k : Kept s (s.readJfeEvent n timed m) := .of_sublist rfl (drop_sublist m _)
  refine ⟨fun i => ?_, hobj, fun j => ?_, h.once, fun d hd => (h.dels d hd).keep k ?_,
    fun x hx => (h.deleted x hx).keep k ?_⟩
  · have h1 := heldId_swap hw i
    have h2 := h.place i
    have h3 := hid i
    show ofId i (s.eventList.drop m) + total (fun w => ofId i w.evs) (s.waits.set n _) +
      ofId i s.freed = if i < s.next then 1 else 0
    simp only [total_cons, total_nil, evs_waiting, evs_took] at h1
    have h4 : ofId i ([] : List JfeEvent) = 0 := rfl
    omega
  · have h1 := heldJfc_swap hw j
    simp only [total_cons, total_nil, evs_waiting, evs_took] at h1
    have h4 : ofJfc j ([] : List JfeEvent) = 0 := rfl
    show (s.compEventsReported j + ofJfc j (s.eventList.take m)) % 2 ^ 32 =
      (ofJfc j s.delivered + total (fun w => ofJfc j w.evs) (s.waits.set n _)) % 2 ^ 32
    rw [h.cnt, Nat.mod_add_mod]
    congr 1
    omega
  · intro hb j hj
    refine hsame j (ofJfc_eq_zero.mpr fun e he hej => hu e he d hd hb ?_)
    rwa [hej]
  · intro j hj
    refine hsame j (Nat.le_zero.mp ?_)
    rw [← ((h.deleted x hx).closed j hj).2]
    exact (take_sublist m _).countP_le

theorem Inv.free (he : evs.Nodup) (hsub : ∀ e ∈ evs, e ∈ s.eventList) :
    Inv { s with
      eventList := s.eventList.filter (· ∉ evs)
      compEventList := s.unlink evs
      freed := s.freed ++ evs } := by
  obtain ⟨hid, hobj⟩ := h.split he hsub
  have k : Kept s { s with
      eventList := s.eventList.filter (· ∉ evs)
      compEventList := s.unlink evs
      freed := s.freed ++ evs } := .of_sublist rfl filter_sublist
  refine ⟨fun i => ?_, hobj, h.cnt, fun i => ?_, fun d hd => (h.dels d hd).keep k fun _ _ _ => rfl,
    fun x hx => (h.deleted x hx).keep k fun _ _ => rfl⟩
  · have h1 := h.place i
    have h2 := hid i
    show ofId i (s.eventList.filter _) + s.heldId i + ofId i (s.freed ++ evs) =
      if i < s.next then 1 else 0
    rw [ofId_append]
    omega
  · show ofId i s.delivered ≤ ofId i (s.freed ++ evs)
    have := h.once i
    rw [ofId_append]
    omega

theorem Inv.uninitJfe : Inv s.uninitJfe := by
  have hf := h.free (h.nodup.sublist (take_sublist releaseEventBatch _))
    fun e he => mem_of_mem_take he
  rw [← drop_eq_filter h.nodup] at hf
  exact hf

theorem Inv.releaseCompEvent (j : Nat) : Inv (s.releaseCompEvent j) := by
  have hsub : ((s.compEventList j).take releaseEventBatch).Sublist s.eventList := by
    rw [h.obj]
    exact (take_sublist _ _).trans filter_sublist
  exact h.free (h.nodup.sublist hsub) fun e he => hsub.subset he

theorem Inv.deliver {ok : Bool} (hn : s.waits[n]? = some (.out evs))
    (hok : ok ∨ evs = []) : Inv (s.deliver n evs ok) := by
  have hdel : (if ok then s.delivered ++ evs else s.delivered) = s.delivered ++ evs := by
    rcases hok with rfl | rfl
    · rfl
    · simp
  have hw := Swap.eraseIdx hn
  have k : Kept s (s.deliver n evs ok) := .of_sublist rfl (.refl _)
  refine ⟨fun i => ?_, h.obj, fun j => ?_, fun i => ?_,
    fun d hd => (h.dels d hd).keep k fun _ _ _ => rfl,
    fun x hx => (h.deleted x hx).keep k fun _ _ => rfl⟩
  · have h1 := heldId_swap hw i
    have h2 := h.place i
    simp only [total_cons, total_nil, evs_out] at h1
    show ofId i s.eventList + total (fun w => ofId i w.evs) (s.waits.eraseIdx n) +
      ofId i (s.freed ++ evs) = if i < s.next then 1 else 0
    rw [ofId_append]
    omega
  · have h1 := heldJfc_swap hw j
    simp only [total_cons, total_nil, evs_out] at h1
    show s.compEventsReported j = (ofJfc j (if ok then _ else _) +
      total (fun w => ofJfc j w.evs) (s.waits.eraseIdx n)) % 2 ^ 32
    rw [h.cnt, hdel, ofJfc_append]
    congr 1
    omega
  · show ofId i (if ok then _ else _) ≤ ofId i (s.freed ++ evs)
    have := h.once i
    rw [hdel, ofId_append, ofId_append]
    omega

theorem Inv.afterRead {timed : Bool} (ends : Bool)
    (hn : s.waits[n]? = some (.took timed evs))
    (hl : timed → s.deleting → evs = []) : Inv (s.afterRead n timed evs ends) := by
  have hout := h.waits (Swap.set hn (.out evs)) fun _ => rfl
  unfold Jfce.afterRead
  cases timed with
  | false => exact hout
  | true =>
    rw [if_pos rfl]
    split
    · rename_i hd
      obtain rfl := hl rfl hd
      exact h.waits (Swap.eraseIdx hn) fun _ => rfl
    split
    · rename_i he
      subst he
      split
      · exact h.waits (Swap.eraseIdx hn) fun _ => rfl
      · exact h.waits (Swap.set hn (.waiting true)) fun _ => rfl
    · exact hout

theorem Inv.setDels {closed : Nat → Bool} {dels : List JfcDel}
    (hc : ∀ j, s.closed j → closed j)
    (hd : ∀ d ∈ dels, DelOk s d ∨ DelOk { s with closed, dels } d) :
    Inv { s with closed, dels } := by
  have k : Kept s { s with closed, dels } := ⟨hc, fun _ _ h => h⟩
  refine ⟨h.place, h.obj, h.cnt, h.once, fun d hm => ?_,
    fun x hx => (h.deleted x hx).keep k fun _ _ => rfl⟩
  rcases hd d hm with h1 | h1
  · exact h1.keep k fun _ _ _ => rfl
  · exact h1

end

theorem sampled_sample (done : List Nat) {todo : List Nat} (hp : d.pc = .sample todo)
    (hj : d.jfcs = done ++ todo) : d.sampled = done := by
  rw [JfcDel.sampled, hp, hj]
  simp

theorem Inv.delStep (h : Inv s) (hn : s.dels[n]? = some d) (gone : Option Nat) :
    Inv (s.delStep n d gone) := by
  have hd := h.dels d (mem_of_getElem? hn)
  have htodo := hd.todo
  -- one deletion changes, the others are as before
  have hset : ∀ {closed : Nat → Bool} {d' : JfcDel}, (∀ j, s.closed j = true → closed j = true) →
      DelOk { s with closed, dels := s.dels.set n d' } d' →
      Inv { s with closed, dels := s.dels.set n d' } := fun {closed d'} hc hd' =>
    h.setDels hc fun x hx => by
      rcases mem_or_eq_of_mem_set hx with hx | rfl
      · exact .inl (h.dels x hx)
      · exact .inr hd'
  unfold Jfce.delStep
  unfold DelTodo at htodo
  split <;> rename_i hpc <;> rw [hpc] at htodo
  · obtain ⟨done, hj⟩ := htodo
    refine hset (fun _ h => h) ⟨trivial, fun hb => ?_⟩
    rw [append_nil] at hj
    have := hd.acc hb
    rwa [sampled_sample _ hpc (hj.trans (append_nil _).symm), ← hj] at this
  · rename_i j todo
    obtain ⟨done, hj⟩ := htodo
    have hj' : d.jfcs = (done ++ [j]) ++ todo := by rw [hj]; simp
    refine hset (fun _ h => h) ⟨⟨_, hj'⟩, fun hb => ?_⟩
    have := hd.acc hb
    rw [sampled_sample done hpc hj] at this
    have hs : JfcDel.sampled ⟨d.jfcs, d.batch, .sample todo,
        (d.acc + s.compEventsReported j) % 2 ^ 32, d.ok⟩ = done ++ [j] := sampled_sample _ rfl hj'
    rw [hs]
    show (d.acc + s.compEventsReported j) % 2 ^ 32 = ((done ++ [j]).map _).sum % 2 ^ 32
    rw [this, reportedSum, Nat.mod_add_mod]
    simp
  · have hs : d.sampled = d.jfcs := by rw [JfcDel.sampled, hpc]
    have hacc := hd.acc
    rw [hs] at hacc
    split
    · refine hset (fun j hj => by simp [hj]) ⟨fun _ => ⟨fun j hj => by simp [hj], [], rfl, ?_⟩, hacc⟩
      exact fun _ hj => nomatch hj
    · exact hset (fun j hj => by simp [hj]) ⟨nofun, hacc⟩
  · rename_i j todo
    have hs : d.sampled = d.jfcs := by rw [JfcDel.sampled, hpc]
    have hacc := hd.acc
    rw [hs] at hacc
    split
    · rename_i h0
      refine hset (fun _ h => h) ⟨fun hok => ?_, hacc⟩
      obtain ⟨hc, done, hj, he⟩ := htodo hok
      refine ⟨hc, done ++ [j], by rw [hj]; simp, fun x hx => ?_⟩
      rcases mem_append.mp hx with hx | hx
      · exact he x hx
      obtain rfl := mem_singleton.mp hx
      rw [h.obj, filter_eq_nil_iff] at h0
      exact ofJfc_eq_zero.mpr fun e he' => by simpa using h0 e he'
    · exact h.releaseCompEvent j
  · have hs : d.sampled = d.jfcs := by rw [JfcDel.sampled, hpc]
    have hacc := hd.acc
    rw [hs] at hacc
    have hdels : ∀ x ∈ s.dels.eraseIdx n, DelOk s x := fun x hx =>
      h.dels x (mem_of_mem_eraseIdx hx)
    have hrep : (if d.batch then d.acc else (d.jfcs.map s.compEventsReported).sum % 2 ^ 32) =
        s.reportedSum d.jfcs := by
      split
      · exact hacc ‹_›
      · rfl
    refine ⟨h.place, h.obj, h.cnt, h.once,
      fun x hx => (hdels x hx).keep ⟨fun _ h => h, fun _ _ h => h⟩ fun _ _ _ => rfl, fun x hx => ?_⟩
    have hold : x ∈ s.deleted ∨ d.ok ∧ x = ⟨d.jfcs, s.reportedSum d.jfcs⟩ := by
      rw [hrep] at hx
      split at hx
      · rcases mem_append.mp hx with hx | hx
        · exact .inl hx
        · exact .inr ⟨‹_›, mem_singleton.mp hx⟩
      · exact .inl hx
    rcases hold with hx | ⟨hok, rfl⟩
    · exact (h.deleted x hx).keep ⟨fun _ h => h, fun _ _ h => h⟩ fun _ _ => rfl
    obtain ⟨hc, done, hj, he⟩ := htodo hok
    rw [append_nil] at hj
    exact ⟨fun j hj' => ⟨hc j hj', he j (hj ▸ hj')⟩, rfl⟩

/-- The condition on a step: a waiter with a timeout that took events does not find the
queue deleted, what a waiter delivers can be copied out, and it takes no event whose
counter a batch deletion has read already. -/
def Counted (s : Jfce) : EventAct → Prop
  | .read _ m => s.TakesUnsampled (s.eventList.take m)
  | .afterRead n _ => ∀ evs, s.waits[n]? = some (.took true evs) → s.deleting = true → evs = []
  | .deliver n ok => ok = true ∨ s.waits[n]? = some (.out [])
  | _ => True

theorem Inv.act (h : Inv s) {a : EventAct} (ha : s.Counted a) : Inv (s.act a) := by
  cases a with
  | write j allocOk =>
    dsimp only [Jfce.act]
    split
    · exact h
    · exact h.writeEvent (Bool.not_eq_true _ ▸ ‹_›) allocOk
  | wait timed => exact h.waits (Swap.push _) fun _ => rfl
  | read n m =>
    dsimp only [Jfce.act]
    split
    · exact h.readJfeEvent ‹_› ha
    · exact h
  | afterRead n ends =>
    dsimp only [Jfce.act]
    split
    · rename_i timed evs hn
      exact h.afterRead ends hn fun ht hd => ha evs (ht ▸ hn) hd
    · exact h
  | leave n =>
    dsimp only [Jfce.act]
    split
    · exact h.waits (Swap.eraseIdx ‹_›) fun _ => rfl
    · exact h
  | deliver n ok =>
    dsimp only [Jfce.act]
    split
    · rename_i evs hn
      refine h.deliver hn (ha.imp_right fun h0 => ?_)
      rw [hn] at h0
      cases h0
      rfl
    · exact h
  | unplug =>
    exact ⟨h.place, h.obj, h.cnt, h.once, fun d hd => (h.dels d hd).keep
      ⟨fun _ h => h, fun _ _ h => h⟩ fun _ _ _ => rfl, fun x hx => (h.deleted x hx).keep
      ⟨fun _ h => h, fun _ _ h => h⟩ fun _ _ => rfl⟩
  | uninit =>
    dsimp only [Jfce.act]
    split
    · exact h.uninitJfe
    · exact h
  | delete j =>
    refine h.setDels (fun _ h => h) fun d hd => ?_
    rcases mem_append.mp hd with hd | hd
    · exact .inl (h.dels d hd)
    · obtain rfl := mem_singleton.mp hd
      exact .inl ⟨trivial, nofun⟩
  | deleteBatch js =>
    refine h.setDels (fun _ h => h) fun d hd => ?_
    rcases mem_append.mp hd with hd | hd
    · exact .inl (h.dels d hd)
    obtain rfl := mem_singleton.mp hd
    refine .inl ⟨⟨[], rfl⟩, fun _ => ?_⟩
    rw [sampled_sample [] rfl rfl]
    rfl
  | del n gone =>
    dsimp only [Jfce.act]
    split
    · exact h.delStep ‹_› gone
    · exact h

theorem init_inv : Inv {} :=
  ⟨fun _ => rfl, fun _ => rfl, fun _ => rfl, fun _ => Nat.le_refl _, forall_mem_nil _,
    forall_mem_nil _⟩

/-- In every run whose steps meet the condition: each event that was written is in the
queue, in the hands of one waiter, or freed, and so once; none is delivered twice; and
what a successful deletion returned is, from then on, the number of the events of its JFCs
that waiters have delivered or still hold to deliver. -/
theorem events_counted (h : Reach Counted act {} s) :
    (∀ i < s.next, ofId i s.eventList + s.heldId i + ofId i s.freed = 1) ∧
    (∀ i, ofId i s.delivered ≤ 1) ∧
    ∀ x ∈ s.deleted, x.reported =
      (x.jfcs.map fun j => ofJfc j s.delivered + s.heldJfc j).sum % 2 ^ 32 := by
  have i : Inv s := h.invariant init_inv fun _ _ i ha => i.act ha
  refine ⟨fun k hk => by rw [i.place, if_pos hk], fun k => ?_, fun x hx => ?_⟩
  · have h1 := i.once k
    have h2 := i.place k
    split at h2 <;> omega
  rw [(i.deleted x hx).reported, reportedSum]
  generalize x.jfcs = js
  induction js with
  | nil => rfl
  | cons j js ih =>
    rw [map_cons, map_cons, sum_cons, sum_cons, Nat.add_mod, ih, ← Nat.add_mod,
      i.cnt, Nat.mod_add_mod]

/-- Two events, one of which is delivered before the JFC is deleted; the other is dropped. -/
def oneDelivered : List EventAct :=
  [.write 4 true, .write 4 true, .wait true, .read 0 1, .afterRead 0 false, .delete 4,
    .del 0 none, .del 0 none, .del 0 none, .del 0 none, .deliver 0 true]

theorem oneDelivered_counted : Reach.Along Counted act {} oneDelivered := by
  refine ⟨trivial, trivial, trivial, ?_, fun _ _ h => absurd h (by decide +kernel), trivial, trivial,
    trivial, trivial, trivial, .inl rfl, trivial⟩
  unfold Counted TakesUnsampled
  decide +kernel

theorem events_counted_oneDelivered :
    (oneDelivered.foldl act {}).deleted = [⟨[4], 1⟩] ∧
    ∀ i, ofId i (oneDelivered.foldl act {}).delivered ≤ 1 :=
  ⟨by decide +kernel, (events_counted (Reach.init.along oneDelivered_counted)).2.1⟩

def unplugged : List EventAct :=
  [.write 4 true, .wait true, .read 0 1, .unplug, .afterRead 0 false]

/-- The waiter returns `-EIO`: the event is neither queued nor held nor freed. -/
theorem unplugged_leaks : Reach (fun _ _ => True) act {} (unplugged.foldl act {}) ∧
    (unplugged.foldl act {}).next = 1 ∧ (unplugged.foldl act {}).eventList = [] ∧
    (unplugged.foldl act {}).waits = [] ∧ (unplugged.foldl act {}).freed = [] :=
  ⟨Reach.foldl unplugged, by decide +kernel, by decide +kernel, by decide +kernel,
    by decide +kernel⟩

end Jfce

end UbDkms.Uburma
