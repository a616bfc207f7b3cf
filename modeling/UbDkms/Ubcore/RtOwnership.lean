import UbDkms.Ubcore.RtMessage

/-!
# Retransmission records over whole runs

Every step of every thread keeps each message accounted for and each `tjetty`
counted, as long as no `tjetty` is released while one of its messages still has
a work.
-/

namespace UbDkms.Ubcore

open Lib List RtPc RtThread

def listRef (cur : Option Nat) (g : Nat) : Nat := if cur = some g then 1 else 0

/-- `extra g` references to `tjetty` `g` are neither the list's nor a thread's. -/
structure RtOk (extra : Nat → Nat) (s : RtSys) : Prop where
  msgs : ∀ m, MsgOk s.cur s.fresh (s.tjLive (s.msgs m).gen) (s.msgs m) (tally m s.threads)
  threads : ∀ t ∈ s.threads, ThreadOk s.cur (s.msgs t.msg) t
  kref : ∀ g, s.kref g = listRef s.cur g + total (RtThread.refs g) s.threads + extra g
  live : ∀ g, s.tjLive g = true ↔ 0 < s.kref g
  fresh : ∀ g, s.fresh ≤ g → s.kref g = 0
  fault : s.fault = false

def RtPc.puts : RtPc → Bool
  | .putEnd | .repostPut _ | .releasePut => true
  | _ => false

/-- A `tjetty` is released only when none of its messages has a work left. -/
def RtKept (s : RtSys) : RtAct → Prop
  | .removeTjetty => ∀ g, s.cur = some g → s.kref g = 1 → ∀ m, (s.msgs m).gen = g → (s.msgs m).work = false
  | .step t _ => t.pc.puts = true → s.kref t.tjetty = 1 →
      ∀ m, (s.msgs m).gen = t.tjetty → (s.msgs m).work = false
  | _ => True

section Targets

variable {cur : Option Nat} {x x' : RtMsg} {c : RtClass → Nat} {e : RtEnv} {pc pc' : RtPc}
  {live : Bool} {next : RtNext}

section

variable (hs : Seen cur e x c pc) (hact : pc.act e x = ⟨x', live, next⟩) (ho : some pc' ∈ next.targets)
include hs hact ho

theorem act_early {l w : Bool} (hearly : pc'.early = some (l, w)) :
    x'.posted = false ∧ x'.listed = l ∧ x'.nodeWork = w := by
  have s2 := hs.early
  cases pc
  all_goals simp only [RtPc.act] at hact
  all_goals try split at hact
  all_goals try split at hact
  all_goals
    obtain ⟨rfl, rfl, rfl⟩ := hact
    simp only [RtNext.targets, mem_cons, not_mem_nil, or_false, Option.some.injEq,
      reduceCtorEq] at ho
  all_goals first
    | (subst ho; simp_all [early]; done)
    | (rcases ho with rfl | rfl <;> simp [early] at hearly; done)
    | (subst ho; split at hearly <;> simp [early] at hearly)

theorem act_home (hhome : pc'.atHome) : e.home := by
  have s2 := hs.home
  cases pc
  all_goals simp only [RtPc.act] at hact
  all_goals try split at hact
  all_goals try split at hact
  all_goals
    obtain ⟨rfl, rfl, rfl⟩ := hact
    simp only [RtNext.targets, mem_cons, not_mem_nil, or_false, Option.some.injEq,
      reduceCtorEq] at ho
  all_goals first
    | exact (s2 rfl).1
    | (subst ho; simp_all [atHome, handler])
    | (rcases ho with rfl | rfl <;> simp [atHome, handler] at hhome)

end

def RtNext.Counted (pc : RtPc) : RtNext → Prop
  | .go pc' => pc'.holds = pc.holds ∧ pc' ≠ .release
  | .stop => pc.holds = false
  | .get found missing => pc.holds = false ∧ found.holds = true ∧ missing.holds = false ∧
      found.atHome = false ∧ missing ≠ .release
  | .put none => pc.holds = true
  | .put (some pc') => pc.holds = true ∧ pc'.holds = false ∧ pc' ≠ .release

theorem act_counted (hact : pc.act e x = ⟨x', live, next⟩) : next.Counted pc := by
  cases pc
  all_goals simp only [RtPc.act] at hact
  all_goals try split at hact
  all_goals try split at hact
  all_goals obtain ⟨rfl, rfl, rfl⟩ := hact
  all_goals first
    | (simp [RtNext.Counted, RtPc.holds, handler, atHome]; done)
    | (unfold RtNext.Counted; dsimp only; split <;> simp [RtPc.holds, handler])

theorem act_put {o : Option RtPc} (hact : pc.act e x = ⟨x', live, .put o⟩) :
    pc.puts ∧ x' = x := by
  cases pc
  all_goals simp only [RtPc.act] at hact
  all_goals try split at hact
  all_goals try split at hact
  all_goals
    simp only [RtEffect.mk.injEq, reduceCtorEq, and_false] at hact
  all_goals exact ⟨rfl, hact.1.symm⟩

end Targets

section Counts

variable {m n : Nat} {l l' : List RtThread}

theorem tally_append (m : Nat) (l l' : List RtThread) (k : RtClass) :
    tally m (l ++ l') k = tally m l k + tally m l' k :=
  total_append _ _ _

theorem tally_other (h : ∀ t ∈ l, t.msg = m) (hn : n ≠ m) : tally n (l ++ l') = tally n l' := by
  funext k
  induction l with
  | nil => rfl
  | cons t l ih =>
    have ht : t.msg ≠ n := fun ht => hn (ht.symm.trans (h t mem_cons_self))
    rw [cons_append, tally_cons, if_neg ht, zero_add]
    exact ih fun u hu => h u (mem_cons_of_mem _ hu)

theorem tally_perm (h : l.Perm l') (m : Nat) : tally m l = tally m l' := by
  funext k
  exact (h.map _).sum_eq

theorem tally_eq_zero {k : RtClass} (h : ∀ t ∈ l, t.msg = m → t.pc.counts k = false) :
    tally m l k = 0 := by
  induction l with
  | nil => rfl
  | cons t l ih =>
    rw [tally_cons, ih fun u hu => h u (mem_cons_of_mem _ hu)]
    by_cases ht : t.msg = m
    · rw [if_pos ht, h t mem_cons_self ht]
      rfl
    · rw [if_neg ht]

theorem tally_pos {t : RtThread} {k : RtClass} (ht : t ∈ l) (hk : t.pc.counts k) :
    0 < tally t.msg l k := by
  induction l with
  | nil => exact absurd ht not_mem_nil
  | cons u l ih =>
    rw [tally_cons]
    rcases mem_cons.mp ht with rfl | ht
    · rw [if_pos rfl, hk]
      exact Nat.lt_of_lt_of_le Nat.one_pos (Nat.le_add_right _ _)
    · exact Nat.lt_of_lt_of_le (ih ht) (Nat.le_add_left _ _)

theorem tally_le_any (m : Nat) (l : List RtThread) (k : RtClass) : tally m l k ≤ tally m l .any := by
  induction l with
  | nil => exact le_rfl
  | cons t l ih =>
    rw [tally_cons, tally_cons]
    refine Nat.add_le_add ?_ ih
    split
    · exact Bool.toNat_le _
    · exact le_rfl

theorem refs_pos {t : RtThread} (ht : t ∈ l) (hh : t.pc.holds) :
    0 < total (refs t.tjetty) l := by
  induction l with
  | nil => exact absurd ht not_mem_nil
  | cons u l ih =>
    rw [total_cons]
    rcases mem_cons.mp ht with rfl | ht
    · unfold refs
      rw [if_pos rfl, hh]
      exact Nat.lt_of_lt_of_le Nat.one_pos (Nat.le_add_right _ _)
    · exact Nat.lt_of_lt_of_le (ih ht) (Nat.le_add_left _ _)

end Counts

def one (g : Nat) (k : Nat) : Nat := if k = g then 1 else 0

section Table

variable {s : RtSys} {extra extra' : Nat → Nat} {m g : Nat} {x : RtMsg} {news : List RtThread}

theorem RtOk.perm {l : List RtThread} (h : RtOk extra s) (hl : s.threads.Perm l) :
    RtOk extra { s with threads := l } := by
  refine ⟨fun m => ?_, fun t ht => h.threads t (hl.mem_iff.mpr ht), fun g => ?_, h.live, h.fresh, h.fault⟩
  · dsimp only
    rw [← tally_perm hl]
    exact h.msgs m
  · refine (h.kref g).trans ?_
    have : total (refs g) s.threads = total (refs g) l := (hl.map _).sum_eq
    rw [this]

theorem RtOk.set {live : Bool} (olds : List RtThread) (h : RtOk extra { s with threads := olds ++ s.threads })
    (holds : ∀ t ∈ olds, t.msg = m) (hnews : ∀ t ∈ news, t.msg = m ∧ ThreadOk s.cur x t)
    (hmsg : MsgOk s.cur s.fresh (s.tjLive x.gen) x (tally m (news ++ s.threads)))
    (hothers : ∀ t ∈ s.threads, t.msg = m → ThreadOk s.cur x t)
    (hrefs : ∀ g, total (refs g) olds + extra g = total (refs g) news + extra' g)
    (hlive : live) : RtOk extra' (s.set m x news live) := by
  refine ⟨fun n => ?_, fun t ht => ?_, fun g => ?_, h.live, h.fresh, ?_⟩
  · have hn := h.msgs n
    dsimp only [RtSys.set, setAt] at hn ⊢
    by_cases hnm : n = m
    · subst hnm
      rw [if_pos rfl]
      exact hmsg
    · rw [if_neg hnm, tally_other (fun t ht => (hnews t ht).1) hnm]
      rwa [tally_other holds hnm] at hn
  · dsimp only [RtSys.set, setAt] at ht ⊢
    rcases mem_append.mp ht with ht | ht
    · rw [if_pos (hnews t ht).1]
      exact (hnews t ht).2
    by_cases htm : t.msg = m
    · rw [if_pos htm]
      exact hothers t ht htm
    · rw [if_neg htm]
      exact h.threads t (mem_append_right _ ht)
  · have h1 := h.kref g
    have h2 := hrefs g
    dsimp only [RtSys.set] at h1 ⊢
    rw [total_append] at h1 ⊢
    omega
  · have := h.fault
    dsimp only [RtSys.set] at this ⊢
    rw [this, hlive]
    rfl

theorem RtOk.ref (h : RtOk (fun _ => 0) s) (hcur : s.cur = some g) : RtOk (one g) (s.ref g) := by
  have hpos : 0 < s.kref g := by
    rw [h.kref, listRef, if_pos hcur]
    omega
  have hfresh : g < s.fresh := by
    by_contra hk
    rw [h.fresh g (Nat.le_of_not_lt hk)] at hpos
    exact absurd hpos (lt_irrefl 0)
  refine ⟨h.msgs, h.threads, fun k => ?_, fun k => ?_, fun k hk => ?_, h.fault⟩
  · have h1 := h.kref k
    change setAt s.kref g (s.kref g + 1) k = listRef s.cur k + total (refs k) s.threads + one g k
    unfold setAt one
    by_cases hk : k = g
    · subst hk
      rw [if_pos rfl, if_pos rfl, h1]
    · rw [if_neg hk, if_neg hk, h1]
  · change s.tjLive k = true ↔ 0 < setAt s.kref g (s.kref g + 1) k
    rw [h.live, setAt]
    by_cases hk : k = g
    · subst hk
      rw [if_pos rfl]
      omega
    · rw [if_neg hk]
  · change setAt s.kref g (s.kref g + 1) k = 0
    have hk : s.fresh ≤ k := hk
    rw [setAt, if_neg (by omega)]
    exact h.fresh k hk

theorem MsgOk.release {cur : Option Nat} {fresh : Nat} {a b : Bool} {c : RtClass → Nat}
    (h : MsgOk cur fresh a x c) (hg : x.gen = g) (hw : x.work = false) :
    MsgOk cur fresh b (x.release g) c := by
  obtain ⟨⟨h1, h2, h3, h4, h5, h6, h7, h8, h9, h10, h11, h12, h13, h14, h15, h16, h17, h18⟩, hun, hgen⟩ := h
  have hw := congrArg Bool.toNat hw
  have hnode := x.node.toNat_le
  have hacked := x.acked.toNat_le
  have hkeep : (x.node && !x.listed).toNat = c .node := by
    cases hl : x.listed
    · rw [hl] at h1
      simpa using h1.symm
    rw [hl, Bool.toNat_true] at h1
    simp
    omega
  unfold RtMsg.release
  rw [if_pos hg]
  refine ⟨?_, ?_, hgen⟩
  · constructor
    all_goals simp only [Bool.toNat_false, hkeep] at hw ⊢
    all_goals omega
  · intro hu
    obtain ⟨rfl, hc⟩ := hun hu
    exact ⟨rfl, hc⟩

theorem RtOk.put (h : RtOk (one g) s)
    (hkept : s.kref g = 1 → ∀ m, (s.msgs m).gen = g → (s.msgs m).work = false) :
    RtOk (fun _ => 0) (s.put g) := by
  have hg : s.kref g = listRef s.cur g + total (refs g) s.threads + 1 := by
    rw [h.kref g, one, if_pos rfl]
  have hlive : s.tjLive g := (h.live g).mpr (by omega)
  have hother : ∀ k, k ≠ g → s.kref k = listRef s.cur k + total (refs k) s.threads := by
    intro k hk
    rw [h.kref k, one, if_neg hk, Nat.add_zero]
  unfold RtSys.put
  split
  · next hone =>
    have hcur : listRef s.cur g = 0 := by omega
    have hrefs : total (refs g) s.threads = 0 := by omega
    refine ⟨fun m => ?_, fun t ht => ?_, fun k => ?_, fun k => ?_, fun k hk => ?_, ?_⟩
    · have hm := h.msgs m
      dsimp only
      by_cases hgm : (s.msgs m).gen = g
      · exact hm.release hgm (hkept hone m hgm)
      · rw [RtMsg.release, if_neg hgm, setAt, if_neg hgm]
        exact hm
    · have hok := h.threads t ht
      dsimp only
      by_cases hgm : (s.msgs t.msg).gen = g
      · have haway : t.pc.atHome = false := by
          by_contra hhome
          have hhome : t.pc.atHome := by simpa using hhome
          have := refs_pos ht (by revert hhome; cases t.pc <;> decide +revert)
          rw [hok.home hhome, hgm, hrefs] at this
          exact absurd this (lt_irrefl 0)
        unfold RtMsg.release
        rw [if_pos hgm]
        refine ⟨?_, ?_, hok.away⟩
        · intro l w he
          revert haway he
          cases t.pc <;> simp [atHome, early, handler]
        · intro hhome
          rw [haway] at hhome
          exact absurd hhome Bool.false_ne_true
      · rw [RtMsg.release, if_neg hgm]
        exact hok
    · dsimp only [setAt]
      by_cases hk : k = g
      · subst hk
        rw [if_pos rfl, hcur, hrefs]
      · rw [if_neg hk, hother k hk, Nat.add_zero]
    · dsimp only [setAt]
      by_cases hk : k = g
      · rw [if_pos hk, if_pos hk]
        simp
      · rw [if_neg hk, if_neg hk, h.live]
    · dsimp only [setAt]
      split
      · rfl
      · exact h.fresh k hk
    · dsimp only
      rw [h.fault, hlive]
      rfl
  next hone =>
  refine ⟨h.msgs, h.threads, fun k => ?_, fun k => ?_, fun k hk => ?_, ?_⟩
  · dsimp only [setAt]
    by_cases hk : k = g
    · subst hk
      rw [if_pos rfl, hg, Nat.add_zero]
      omega
    · rw [if_neg hk, hother k hk, Nat.add_zero]
  · dsimp only [setAt]
    by_cases hk : k = g
    · subst hk
      rw [if_pos rfl, h.live]
      omega
    · rw [if_neg hk, h.live]
  · dsimp only [setAt]
    have hk' := h.fresh k hk
    split
    · next hkg =>
      subst hkg
      omega
    · exact hk'
  · dsimp only
    rw [h.fault, hlive]
    rfl

end Table

/-! ## Steps -/

section Exec

variable {s : RtSys} {t : RtThread} {maxRetry : Nat} {ok : Bool} {x' : RtMsg} {live : Bool} {m : Nat}
  {next : RtNext} {o : Option RtPc} {g : Nat}

theorem RtOk.seen (maxRetry : Nat) (ok : Bool) (h : RtOk (fun _ => 0) { s with threads := t :: s.threads }) :
    Seen s.cur (s.env t maxRetry ok) (s.msgs t.msg) (tally t.msg s.threads) t.pc := by
  have hok := h.threads t mem_cons_self
  have htj : t.pc.holds → s.tjLive t.tjetty := by
    intro hh
    have hpos := refs_pos (l := t :: s.threads) mem_cons_self hh
    refine (h.live t.tjetty).mpr ?_
    rw [h.kref]
    dsimp only
    omega
  refine ⟨tally_nested _ _, hok.early, ?_, ?_, htj, ?_, ?_⟩
  · intro hhome
    have hgen := hok.home hhome
    refine ⟨decide_eq_true hgen.symm, ?_⟩
    change s.tjLive (s.msgs t.msg).gen = true
    rw [← hgen]
    refine htj ?_
    revert hhome
    cases t.pc <;> simp [atHome, RtPc.holds, handler]
  · intro hr
    rcases hok.away hr with hg | hc
    · exact .inl (decide_eq_true hg.symm)
    · exact .inr hc
  · intro hh
    refine tally_eq_zero fun u hu hum => ?_
    have := (any_eq_false.mp hh) u hu
    simp only [hum, decide_true, Bool.true_and, Bool.not_eq_true] at this
    revert this
    cases u.pc with
    | unlinked b => cases b <;> simp [handler, counts, classes]
    | _ => simp [handler, counts, classes]
  · intro hh
    refine tally_eq_zero fun u hu hum => ?_
    have := (any_eq_false.mp hh) u hu
    simp only [hum, decide_true, Bool.true_and, decide_eq_true_eq] at this
    revert this
    cases u.pc with
    | unlinked b => cases b <;> simp [counts, classes]
    | _ => simp [counts, classes]

theorem RtOk.others
    (h : RtOk (fun _ => 0) { s with threads := t :: s.threads })
    (hact : t.pc.act (s.env t maxRetry ok) (s.msgs t.msg) = ⟨x', live, next⟩) :
    ∀ u ∈ s.threads, u.msg = t.msg → ThreadOk s.cur x' u := by
  intro u hu hum
  have hok := h.threads u (mem_cons_of_mem _ hu)
  have hm := h.msgs t.msg
  rw [hum] at hok
  have hgen := (act_kept hact).1
  refine ⟨?_, ?_, ?_⟩
  · intro l w he
    obtain ⟨hp, hl, hw⟩ := hok.early l w he
    have hsend : 0 < tally t.msg s.threads .sender := by
      rw [← hum]
      refine tally_pos hu ?_
      revert he
      cases u.pc <;> simp [early, counts, classes]
    have hsole := hm.owned.sole
    have hlate : tally t.msg (t :: s.threads) .late = 0 := by
      rcases hm.owned.late with h1 | h1
      · rw [hp] at h1
        cases h1
      · exact h1
    rw [tally_cons, if_pos rfl] at hsole hlate
    have hend : t.pc = .putEnd := by
      cases hpc : t.pc
      case unlinked b => cases b <;> simp [hpc, counts, classes] at hlate
      all_goals first
        | rfl
        | (simp [hpc, counts, classes] at hlate; done)
        | (simp [hpc, counts, classes] at hsole; omega)
    rw [hend] at hact
    obtain ⟨rfl, -, -⟩ := hact
    exact ⟨hp, hl, hw⟩
  · intro hh
    rw [hgen]
    exact hok.home hh
  · rw [hgen]
    exact hok.away

/-- The thread goes on at `o`, with `g` as its `tjetty`. -/
def optThread (m g : Nat) : Option RtPc → List RtThread
  | none => []
  | some pc => [⟨m, g, pc⟩]

theorem adds_optThread (m g : Nat) (o : Option RtPc) (l : List RtThread) :
    Adds o (tally m l) (tally m (optThread m g o ++ l)) := by
  intro k
  cases o with
  | none => exact (Nat.zero_add _).symm
  | some pc =>
    rw [tally_append, optThread, tally_cons, if_pos rfl]
    rfl

theorem RtOk.act (h : RtOk (fun _ => 0) { s with threads := t :: s.threads })
    (hact : t.pc.act (s.env t maxRetry ok) (s.msgs t.msg) = ⟨x', live, next⟩)
    (ho : o ∈ next.targets) (hmissing : t.pc = .releaseGet → o = some .freeOwn → s.cur = none)
    (hhome : ∀ pc, o = some pc → pc.atHome = true → g = t.tjetty)
    (haway : o = some .release → g = x'.gen ∨ s.cur ≠ some x'.gen) :
    MsgOk s.cur s.fresh (s.tjLive x'.gen) x' (tally t.msg (optThread t.msg g o ++ s.threads)) ∧
    ∀ u ∈ optThread t.msg g o, u.msg = t.msg ∧ ThreadOk s.cur x' u := by
  have hs := h.seen maxRetry ok
  refine ⟨?_, ?_⟩
  · obtain ⟨howned, hunused, hfresh⟩ := h.msgs t.msg
    obtain ⟨hgen, hused⟩ := act_kept hact
    have hmine : (s.msgs t.msg).used := by
      by_contra hu
      have h1 := (hunused (by simpa using hu)).2
      have h2 := tally_pos (l := t :: s.threads) (k := .any) mem_cons_self rfl
      dsimp only at h1
      omega
    rw [hgen]
    refine ⟨howned.act (adds_optThread t.msg t.tjetty (some t.pc) s.threads) hs hact ho
      (adds_optThread t.msg g o s.threads) hmissing, fun hu => ?_, fun hu => ?_⟩
    · rw [hused, hmine] at hu
      cases hu
    · rw [hgen]
      exact hfresh hmine
  · intro u hu
    cases o with
    | none => exact absurd hu not_mem_nil
    | some pc =>
      obtain rfl := mem_singleton.mp hu
      refine ⟨rfl, fun l w he => act_early hs hact ho he, fun hh => ?_, fun hr => haway (by rw [← hr])⟩
      have hg : (s.msgs t.msg).gen = t.tjetty := of_decide_eq_true (act_home hs hact ho hh)
      rw [(act_kept hact).1, hg]
      exact hhome pc rfl hh

theorem refs_single (m k : Nat) (pc : RtPc) :
    total (refs g) [⟨m, k, pc⟩] = if k = g then pc.holds.toNat else 0 := by
  simp [refs]

theorem RtOk.exec (h : RtOk (fun _ => 0) { s with threads := t :: s.threads })
    (hkept : t.pc.puts = true → s.kref t.tjetty = 1 →
      ∀ m, (s.msgs m).gen = t.tjetty → (s.msgs m).work = false) :
    RtOk (fun _ => 0) (s.exec t maxRetry ok) := by
  unfold RtSys.exec
  generalize hact : t.pc.act (s.env t maxRetry ok) (s.msgs t.msg) = eff
  obtain ⟨x', live, next⟩ := eff
  have hlive := (h.msgs t.msg).owned.act_live (adds_optThread t.msg t.tjetty (some t.pc) s.threads)
    (h.seen maxRetry ok) hact
  have hothers := h.others hact
  have hcounted := act_counted hact
  have hmine : ∀ u ∈ [t], u.msg = t.msg := fun u hu => by rw [mem_singleton.mp hu]
  have holds : ∀ k, total (refs k) [t] = if t.tjetty = k then t.pc.holds.toNat else 0 :=
    fun k => refs_single t.msg t.tjetty t.pc
  cases next with
  | go pc =>
    obtain ⟨hholds, hne⟩ := hcounted
    obtain ⟨hmsg, hnews⟩ := h.act hact (o := some pc) mem_cons_self
      (fun hpc _ => by rw [hpc] at hact; cases hact) (fun _ _ _ => rfl)
      (fun hr => absurd (Option.some.inj hr) hne)
    refine RtOk.set [t] h hmine hnews hmsg hothers (fun k => ?_) hlive
    rw [holds, refs_single, hholds]
  | stop =>
    obtain ⟨hmsg, hnews⟩ := h.act hact (o := none) (g := t.tjetty) mem_cons_self
      nofun nofun nofun
    refine RtOk.set [t] h hmine hnews hmsg hothers (fun k => ?_) hlive
    rw [holds, show t.pc.holds = false from hcounted]
    simp
  | get found missing =>
    obtain ⟨hpc, hf, hm, hhome, hne⟩ := hcounted
    dsimp only
    cases hcur : s.cur with
    | none =>
      obtain ⟨hmsg, hnews⟩ := h.act hact (g := t.tjetty)
        (mem_cons_of_mem _ mem_cons_self) (fun _ _ => hcur) (fun _ _ _ => rfl)
        (fun hr => absurd (Option.some.inj hr) hne)
      refine RtOk.set [t] h hmine hnews hmsg hothers (fun k => ?_) hlive
      rw [holds, refs_single, hpc, hm]
    | some g =>
      obtain ⟨hmsg, hnews⟩ := h.act hact (g := g) mem_cons_self
        (fun hpc' ho => by
          rw [hpc'] at hact
          cases hact
          cases ho)
        (fun pc ho hh => by
          cases ho
          rw [hhome] at hh
          cases hh)
        (fun _ => by
          by_cases hg : g = x'.gen
          · exact .inl hg
          right
          rw [hcur]
          exact fun hc => hg (Option.some.inj hc))
      refine RtOk.set (s := s.ref g) [t] (h.ref hcur) hmine hnews hmsg hothers
        (fun k => ?_) hlive
      rw [holds, refs_single, hpc, hf, one]
      by_cases hk : g = k
      · simp [hk]
      · simp [hk, Ne.symm hk]
  | put o =>
    obtain ⟨hput, rfl⟩ := act_put hact
    have hkept' : ∀ news, s.kref t.tjetty = 1 → ∀ m,
        ((s.set t.msg (s.msgs t.msg) news live).msgs m).gen = t.tjetty →
        ((s.set t.msg (s.msgs t.msg) news live).msgs m).work = false := by
      intro news hone m
      have hsame : (s.set t.msg (s.msgs t.msg) news live).msgs m = s.msgs m := by
        dsimp only [RtSys.set, setAt]
        split
        · next hm => rw [hm]
        · rfl
      rw [hsame]
      exact hkept hput hone m
    cases o with
    | none =>
      obtain ⟨hmsg, hnews⟩ := h.act hact (o := none) (g := t.tjetty) mem_cons_self
        nofun nofun nofun
      refine RtOk.put (RtOk.set [t] h hmine hnews hmsg hothers (fun k => ?_) hlive) (hkept' _)
      rw [holds, show t.pc.holds = true from hcounted, one]
      simp [eq_comm]
    | some pc =>
      obtain ⟨hpc, hholds, hne⟩ := hcounted
      obtain ⟨hmsg, hnews⟩ := h.act hact (o := some pc) (g := t.tjetty) mem_cons_self
        (fun hpc' _ => by rw [hpc'] at hact; cases hact) (fun _ _ _ => rfl)
        (fun hr => absurd (Option.some.inj hr) hne)
      refine RtOk.put (RtOk.set [t] h hmine hnews hmsg hothers (fun k => ?_) hlive) (hkept' _)
      rw [holds, refs_single, hpc, hholds, one]
      simp [eq_comm]

theorem RtOk.start {extra : Nat → Nat} {x : RtMsg} {pc : RtPc} (h : RtOk extra s)
    (hmsg : MsgOk s.cur s.fresh (s.tjLive x.gen) x (tally m (⟨m, g, pc⟩ :: s.threads)))
    (hnew : ThreadOk s.cur x ⟨m, g, pc⟩) (hothers : ∀ t ∈ s.threads, t.msg = m → ThreadOk s.cur x t)
    (hrefs : ∀ k, extra k = if g = k then pc.holds.toNat else 0) :
    RtOk (fun _ => 0) (s.set m x [⟨m, g, pc⟩] true) := by
  refine RtOk.set [] h nofun ?_ hmsg hothers (fun k => ?_) rfl
  · intro u hu
    obtain rfl := mem_singleton.mp hu
    exact ⟨rfl, hnew⟩
  · rw [total_nil, Nat.zero_add, refs_single, hrefs, Nat.add_zero]

theorem one_eq (g k : Nat) : one g k = if g = k then 1 else 0 := by
  unfold one
  by_cases hk : k = g
  · rw [if_pos hk, if_pos hk.symm]
  · rw [if_neg hk, if_neg (Ne.symm hk)]

theorem RtOk.send (h : RtOk (fun _ => 0) s) (hcur : s.cur = some g)
    (hused : (s.msgs m).used = false) :
    RtOk (fun _ => 0) ((s.ref g).set m { gen := g, used := true } [⟨m, g, .createBuffer⟩] true) := by
  obtain ⟨hx, hany⟩ := (h.msgs m).unused hused
  have hzero : ∀ k, tally m s.threads k = 0 := fun k => by
    have := tally_le_any m s.threads k
    omega
  have hnone : ∀ t ∈ s.threads, t.msg ≠ m := by
    rintro t ht rfl
    have := tally_pos (k := .any) ht rfl
    omega
  have hfresh : g < s.fresh := by
    by_contra hk
    have h1 := h.fresh g (Nat.le_of_not_lt hk)
    rw [h.kref, listRef, if_pos hcur] at h1
    omega
  refine (h.ref hcur).start ?_ ?_ ?_ ?_
  · change MsgOk s.cur s.fresh _ _ (tally m (⟨m, g, .createBuffer⟩ :: s.threads))
    refine ⟨?_, nofun, fun _ => hfresh⟩
    constructor <;> simp [tally_cons, hzero, counts, classes]
  · exact ⟨fun l w he => by simp [early] at he; simp [he], fun _ => rfl, nofun⟩
  · intro t ht htm
    exact absurd htm (hnone t ht)
  · intro k
    rw [one_eq]
    rfl

theorem RtOk.recv {resp : Bool} (h : RtOk (fun _ => 0) s) (hcur : s.cur = some g)
    (hposted : (s.msgs m).posted) :
    RtOk (fun _ => 0) ((s.ref g).set m (s.msgs m) [⟨m, g, .find resp⟩] true) := by
  refine (h.ref hcur).start ?_ ?_ ?_ ?_
  · change MsgOk s.cur s.fresh (s.tjLive (s.msgs m).gen) _ (tally m (⟨m, g, .find resp⟩ :: s.threads))
    obtain ⟨⟨h1, h2, h3, h4, h5, h6, h7, h8, h9, h10, h11, h12, h13, h14, h15, h16, h17, h18⟩, hun, hgen⟩ :=
      h.msgs m
    have ha := (adds_optThread m g (some (.find resp)) s.threads).all
    simp [optCounts, optThread, counts, classes] at ha
    have hp := toNat_one hposted
    refine ⟨?_, fun hu => ?_, hgen⟩
    · constructor
      all_goals omega
    · rw [(hun hu).1] at hposted
      cases hposted
  · exact ⟨fun l w he => by simp [early] at he, fun hh => by simp [atHome] at hh,
      by simp⟩
  · rintro t ht rfl
    exact h.threads t ht
  · intro k
    rw [one_eq]
    rfl

theorem RtOk.run (h : RtOk (fun _ => 0) s) (hq : (s.msgs m).queued)
    (hh : ∀ u ∈ s.threads, u.msg = m → u.pc.handler = false) :
    RtOk (fun _ => 0) (s.set m { s.msgs m with queued := false } [⟨m, 0, .look⟩] true) := by
  have hhandler : tally m s.threads .handler = 0 := by
    refine tally_eq_zero fun u hu hum => ?_
    have := hh u hu hum
    revert this
    cases u.pc with
    | unlinked b => cases b <;> simp [handler, counts, classes]
    | _ => simp [handler, counts, classes]
  refine h.start ?_ ?_ ?_ ?_
  · obtain ⟨⟨h1, h2, h3, h4, h5, h6, h7, h8, h9, h10, h11, h12, h13, h14, h15, h16, h17, h18⟩, hun, hgen⟩ :=
      h.msgs m
    have ha := (adds_optThread m 0 (some .look) s.threads).all
    simp [optCounts, optThread, counts, classes] at ha
    have hq' := toNat_one hq
    have hp := (s.msgs m).posted.toNat_le
    refine ⟨?_, fun hu => ?_, hgen⟩
    · constructor
      all_goals try simp only [Bool.toNat_false]
      all_goals omega
    · rw [(hun hu).1] at hq
      cases hq
  · exact ⟨fun l w he => by simp [early] at he, fun hh => by simp [atHome, handler] at hh,
      by simp⟩
  · rintro t ht rfl
    have hok := h.threads t ht
    exact ⟨hok.early, hok.home, hok.away⟩
  · intro k
    simp [RtPc.holds, handler]

end Exec

section Runs

variable {s : RtSys} {maxRetry : Nat}

theorem RtOk.importJetty (h : RtOk (fun _ => 0) s) (hcur : s.cur = none) :
    RtOk (fun _ => 0) { s with
      cur := some s.fresh, fresh := s.fresh + 1, kref := setAt s.kref s.fresh 1,
      tjLive := setAt s.tjLive s.fresh true } := by
  have hzero : total (refs s.fresh) s.threads = 0 := by
    have h1 := h.kref s.fresh
    have h2 := h.fresh s.fresh le_rfl
    omega
  have hused : ∀ m, (s.msgs m).used → some s.fresh ≠ some (s.msgs m).gen := by
    intro m hu hc
    exact absurd ((h.msgs m).gen hu) (by rw [← Option.some.inj hc]; exact lt_irrefl _)
  refine ⟨fun m => ?_, fun t ht => ?_, fun g => ?_, fun g => ?_, fun g hg => ?_, h.fault⟩
  · have hm := h.msgs m
    have hu := hused m
    have hbuf : (s.msgs m).buf → (s.msgs m).used := by
      intro hb
      by_contra hu
      rw [(hm.unused (by simpa using hu)).1] at hb
      cases hb
    obtain ⟨howned, hun, hgen⟩ := hm
    have hle : (s.tjLive (s.msgs m).gen).toNat ≤ (setAt s.tjLive s.fresh true (s.msgs m).gen).toNat := by
      unfold setAt
      split
      · exact Bool.toNat_le _
      · exact le_rfl
    have haway : (s.msgs m).buf.toNat ≤ away (some s.fresh) (s.msgs m).gen := by
      cases hb : (s.msgs m).buf
      · exact Nat.zero_le _
      · rw [away, if_neg (hu (hbuf hb))]
        exact le_rfl
    exact ⟨{ howned with
      buffer := haway.trans (Nat.le_add_left _ _)
      bufAlive := howned.bufAlive.trans hle
      listAlive := howned.listAlive.trans hle
      workAlive := howned.workAlive.trans hle }, hun, fun hu => Nat.lt_succ_of_lt (hgen hu)⟩
  · have ht : t ∈ s.threads := ht
    have hok := h.threads t ht
    refine ⟨hok.early, hok.home, fun _ => .inr (hused _ ?_)⟩
    by_contra hu
    have h1 := ((h.msgs t.msg).unused (by simpa using hu)).2
    have h2 := tally_pos (k := .any) ht rfl
    omega
  · have h1 := h.kref g
    dsimp only [setAt]
    by_cases hg : g = s.fresh
    · subst hg
      rw [if_pos rfl, hzero, listRef, if_pos rfl]
    · rw [if_neg hg, h1, hcur, listRef, listRef, if_neg (by simp), if_neg (by simpa using Ne.symm hg)]
  · dsimp only [setAt]
    by_cases hg : g = s.fresh
    · rw [if_pos hg, if_pos hg]
      simp
    · rw [if_neg hg, if_neg hg]
      exact h.live g
  · dsimp only [setAt] at hg ⊢
    rw [if_neg (by omega)]
    exact h.fresh g (by omega)

theorem RtOk.unlist {g : Nat} (h : RtOk (fun _ => 0) s) (hcur : s.cur = some g) :
    RtOk (one g) { s with cur := none } := by
  refine ⟨fun m => ?_, fun t ht => ?_, fun k => ?_, h.live, h.fresh, h.fault⟩
  · obtain ⟨howned, hun, hgen⟩ := h.msgs m
    exact ⟨{ howned with
      buffer := (Bool.toNat_le _).trans (Nat.le_add_left _ _) }, hun, hgen⟩
  · have hok := h.threads t ht
    exact ⟨hok.early, hok.home, fun _ => .inr (by simp)⟩
  · have h1 := h.kref k
    have hlist : listRef s.cur k = one g k := by
      rw [hcur, listRef, one_eq]
      simp only [Option.some.injEq]
    have hnone : listRef none k = 0 := if_neg (by simp)
    dsimp only
    omega

theorem RtOk.next {a : RtAct} (h : RtOk (fun _ => 0) s) (ha : RtKept s a) :
    RtOk (fun _ => 0) (s.next maxRetry a) := by
  cases a with
  | importJetty =>
    dsimp only [RtSys.next]
    split
    · next hcur => exact h.importJetty hcur
    · exact h
  | removeTjetty =>
    dsimp only [RtSys.next]
    split
    · exact h
    · next g hcur => exact (h.unlist hcur).put (ha g hcur)
  | send m =>
    dsimp only [RtSys.next]
    split
    · exact h
    next g hcur =>
    split
    · exact h
    · next hused => exact h.send hcur (by simpa using hused)
  | recv m resp =>
    dsimp only [RtSys.next]
    split
    · exact h
    next g hcur =>
    split
    · next hposted => exact h.recv hcur hposted
    · exact h
  | run m =>
    dsimp only [RtSys.next]
    split
    · next hq =>
      simp only [Bool.and_eq_true, Bool.not_eq_true', any_eq_false, decide_eq_true_eq, not_and,
        Bool.not_eq_true] at hq
      exact h.run hq.1 hq.2
    · exact h
  | step t ok =>
    dsimp only [RtSys.next]
    split
    · next ht => exact RtOk.exec (h.perm (perm_cons_erase ht)) ha
    · exact h

theorem RtOk.init : RtOk (fun _ => 0) {} := by
  refine ⟨fun m => ?_, nofun, fun _ => rfl, fun _ => by simp,
    fun _ _ => rfl, rfl⟩
  refine ⟨?_, fun _ => ⟨rfl, rfl⟩, nofun⟩
  constructor <;> simp [tally]

/-- In a run that releases no `tjetty` while one of its messages has a work left, no thread
touches or frees an object that is not there. Once no thread and no work is left, every buffer
and every work is freed, and every node except those of messages that stopped retrying, were not
acknowledged since, and whose `tjetty` is still there. -/
theorem records_freed (hs : Reach RtKept (RtSys.next · maxRetry) {} s) :
    s.fault = false ∧
    (s.threads = [] → (∀ m, (s.msgs m).queued = false) → ∀ m,
      (s.msgs m).work = false ∧ (s.msgs m).buf = false ∧
      ((s.msgs m).node = true → (s.msgs m).gaveUp = true ∧ (s.msgs m).acked = false ∧
        s.tjLive (s.msgs m).gen = true)) := by
  have hok := hs.invariant RtOk.init fun _ _ h ha => h.next ha
  refine ⟨hok.fault, fun hnil hq m => ?_⟩
  have hm := (hok.msgs m).owned
  have hzero : ∀ k, tally m s.threads k = 0 := fun k => by
    rw [hnil]
    rfl
  have hqueued : (s.msgs m).queued.toNat = 0 := by
    rw [hq m]
    rfl
  have hptr : (s.msgs m).nodeWork.toNat = 0 := by
    have h1 := hm.parked
    rw [hzero, hzero] at h1
    omega
  have hlisted : s.tjLive (s.msgs m).gen → s.cur = some (s.msgs m).gen := by
    intro hl
    have h1 := (hok.live _).mp hl
    rw [hok.kref, hnil, total_nil, listRef] at h1
    by_contra hc
    rw [if_neg hc] at h1
    exact absurd h1 (lt_irrefl 0)
  refine ⟨?_, ?_, ?_⟩
  · have h1 := hm.work
    rw [hptr, hzero] at h1
    by_contra hw
    rw [toNat_one (by simpa using hw)] at h1
    omega
  · by_contra hb
    have hb := toNat_one (by simpa using hb : (s.msgs m).buf = true)
    have h1 := hm.buffer
    have h2 := hm.bufAlive
    rw [hptr, hzero, hb] at h1
    have hlive : s.tjLive (s.msgs m).gen := by
      by_contra hl
      rw [hb, toNat_zero hl] at h2
      omega
    rw [away, if_pos (hlisted hlive)] at h1
    omega
  · intro hn
    have h1 := hm.node
    rw [hzero, toNat_one hn] at h1
    refine ⟨?_, ?_, ?_⟩
    · by_contra hg
      have h2 := hm.stay
      rw [hzero, hptr, toNat_zero hg] at h2
      omega
    · by_contra hk
      have h2 := hm.acked
      rw [toNat_one (by simpa using hk)] at h2
      omega
    · by_contra hl
      have h2 := hm.listAlive
      rw [toNat_zero hl] at h2
      omega

def rtSteps (pcs : List RtPc) : List RtAct := pcs.map fun pc => .step ⟨0, 0, pc⟩ true

def sentOnce : List RtAct :=
  [.importJetty, .send 0] ++
    rtSteps [.createBuffer, .createNode, .allocWork, .publish, .post, .queue, .putEnd]

/-- A message is sent, retried once and acknowledged. -/
def retried : RtSys :=
  (sentOnce ++ .run 0 :: rtSteps [.look, .repostGet, .repost, .repostPut true, .requeue] ++ .recv 0 false ::
    rtSteps [.find false, .unlinked true, .cancel, .cancelSync, .freeTaken, .releaseTaken,
      .putEnd]).foldl (RtSys.next · 3) {}

theorem records_freed_retried :
    (retried.msgs 0).acked = true ∧ (retried.msgs 0).rtCnt = 2 ∧ retried.fault = false ∧
      (retried.msgs 0).work = false ∧ (retried.msgs 0).buf = false ∧ (retried.msgs 0).node = false := by
  have hstep : ∀ {s t ok}, t.pc.puts = false ∨ s.kref t.tjetty ≠ 1 → RtKept s (.step t ok) := by
    rintro s t ok (h | h) hp hone
    · exact absurd hp (by rw [h]; decide)
    · exact absurd hone h
  have h : Reach RtKept (RtSys.next · 3) {} retried := by
    refine Reach.init.along ⟨trivial, trivial, ?_, ?_, ?_, ?_, ?_, ?_, ?_, trivial, ?_, ?_, ?_, ?_, ?_,
      trivial, ?_, ?_, ?_, ?_, ?_, ?_, ?_, trivial⟩ <;> exact hstep (by decide)
  have hacked : (retried.msgs 0).acked = true := by decide
  obtain ⟨hwork, hbuf, hnode⟩ := (records_freed h).2 (by decide) (fun m => by
    cases m with
    | zero => decide
    | succ m => rfl) 0
  refine ⟨hacked, by decide, (records_freed h).1, hwork, hbuf, ?_⟩
  by_contra hn
  exact absurd hacked (by rw [(hnode (by simpa using hn)).2.1]; decide)

/-- A message is sent, its `tjetty` is removed, and then its retry work runs. -/
def removedEarly : RtSys :=
  (sentOnce ++ .removeTjetty :: .run 0 :: rtSteps [.look]).foldl (RtSys.next · 3) {}

/-- The work touches the `tjetty` that is gone, and is itself never freed. -/
theorem removedEarly_fault : Reach (fun _ _ => True) (RtSys.next · 3) {} removedEarly ∧
    removedEarly.fault = true ∧ removedEarly.threads = [] ∧ (removedEarly.msgs 0).queued = false ∧
    (removedEarly.msgs 0).work = true :=
  ⟨.foldl _, by decide⟩

end Runs

end UbDkms.Ubcore
