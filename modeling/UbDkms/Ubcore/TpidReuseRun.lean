import UbDkms.Ubcore.TpidReuseStep

/-!
# The accounting of reusable channels

Whatever the calls do, an entry counts exactly its users, and nothing is accessed after
it was freed. An entry or a tpid is left behind, with nobody told, when the tpid cannot
be deleted, when the peer's destroy request cannot modify it, or when the answer to an
is-ref request cannot be sent after the last user has left.
-/

namespace UbDkms.Ubcore

open Lib List

theorem ReuseState.code_eq_one {r : ReuseState} : r.code = 1 ↔ r = .ready := by cases r <;> decide

theorem Tpid.code_eq_one {r : Tpid} : r.code = 1 ↔ r = .live := by cases r <;> decide

attribute [local simp] ReusePc.entry ReusePc.shares

namespace Acc

variable {kept : Prop} {s : ReuseNode} {e n : Nat} {pc : ReusePc} {ok : Bool}

variable (h : Acc kept s) (hn : s.calls[n]? = some pc)
include h hn

theorem not_freed (hpc : pc.entry = some e) :
    (s.entries e).freed = false := by
  have hv := h.view hn hpc
  refine Bool.toNat_eq_zero.mp ?_
  have hheld : .ref ∈ pc.shares ∨ .count ∈ pc.shares ∨ .own ∈ pc.shares := by
    cases pc with
    | put e after => cases after <;> simp
    | rmv e why | modify e why => cases why <;> simp
    | find | alloc | createFind | createAlloc | destroyFind | isrefFind => cases hpc
    | _ => simp
  rcases hheld with hl | hl | hl
  · exact hv.at_ref hl
  · exact (hv.at_count hl).2.2.1
  · exact (hv.at_own hl).2.1

theorem tpid_live (hpc : pc.entry = some e)
    (hu : pc.usesTpid (s.entries e)) : (s.entries e).tpid = .live := by
  have hv := h.view hn hpc
  have hmem : ∀ {k}, k ∈ pc.shares → 0 < withShares (sharesOf (s.calls.eraseIdx n) e) pc.shares k := by
    intro k hk
    rw [withShares_mem hk]
    exact Nat.succ_pos _
  refine Tpid.code_eq_one.mp ?_
  cases pc with
  | exchange d | importNew d => exact (hv.full (hmem (by simp))).1
  | importEx d => exact (hv.at_count (by simp)).2.2.2.2.1
  | createModify d => exact (hv.half (hmem (by simp))).1
  | modify d why => exact (hv.dead (hmem (by cases why <;> simp))).2.1
  | target d =>
    simp only [ReusePc.usesTpid, Bool.and_eq_true, decide_eq_true_eq] at hu
    exact hv.handle (by rw [hu.1]; rfl) (by rw [hu.2]; rfl)
  | free d =>
    simp only [ReusePc.usesTpid, Bool.and_eq_true] at hu
    exact hv.valid (by rw [hu.2]; rfl)
  | _ => cases hu

theorem check_eq : s.check pc = s := by
  unfold ReuseNode.check
  split
  next => rfl
  next e hpc =>
    refine if_neg ?_
    rintro (hf | ⟨hu, ht⟩)
    · rw [h.not_freed hn hpc] at hf
      cases hf
    · exact ht (h.tpid_live hn hpc hu)

end Acc

/-- The failure of a call's step that leaves nothing behind. -/
def ReuseNode.Spares (s : ReuseNode) : ReusePc → Prop
  | .free e => (s.entries e).tpHandleValid = false
  | .modify _ .destroy => False
  | .isrefSend e => 0 < (s.entries e).useCnt ∨ (s.entries e).reuseState ≠ .ready
  | _ => True

/-- Tpids are deleted, the peer's destroy request can modify them, and the answer to an is-ref
request is sent, or somebody uses the entry. -/
def ReuseNode.Kept (s : ReuseNode) : ReuseAct → Prop
  | .step n false => ∀ pc ∈ s.calls[n]?, s.Spares pc
  | _ => True

namespace Acc

variable {kept : Prop} {s : ReuseNode} {e n : Nat} {pc : ReusePc} {ok : Bool}

section

variable (h : Acc kept s)
include h

theorem lookup {key : Nat} {fallback : Option Nat} {again found : Nat → ReusePc}
    {missing : List ReusePc} (hn : s.calls[n]? = some pc) (hpc : pc.entry = none)
    (hagain : ∀ k, (again k).entry = none)
    (hfound : ∀ e, (found e).entry = some e ∧ (found e).shares = [.ref])
    (hmissing : ∀ q ∈ missing, q.entry = none) :
    Acc kept (s.after n (s.lookup key fallback again found missing)) := by
  unfold ReuseNode.lookup
  split
  next e hk => exact h.found hn hpc (hfound e).1 (hfound e).2 hk
  next =>
    split
    next k => exact h.unbound hn hpc fun q hq => by rw [mem_singleton.mp hq, hagain k]
    next => exact h.unbound hn hpc hmissing

theorem findAdd {found added : Nat → ReusePc} (hn : s.calls[n]? = some pc)
    (hpc : pc.entry = some e) (hshares : pc.shares = [.own, .out, .blank])
    (hfound : ∀ e, (found e).entry = some e ∧ (found e).shares = [.ref])
    (hadded : ∀ e, (added e).entry = some e ∧ (added e).shares = [.ref, .own, .listed, .blank]) :
    Acc kept (s.after n (s.findAdd e found added)) := by
  dsimp only [ReuseNode.findAdd]
  split
  next y hy => exact h.collide hn hpc hshares (hfound y).1 (hfound y).2 hy
  next hnone => exact h.added hn hpc hshares (hadded e).1 (hadded e).2 hnone

theorem reuse (hn : s.calls[n]? = some (.reuse e)) :
    Acc kept (s.after n (s.run (.reuse e) ok)) := by
  dsimp only [ReuseNode.run]
  split
  next hr =>
    have hone := ReuseState.code_eq_one.mpr hr
    split <;> exact h.goes hn rfl rfl rfl (.moves (.turns (.reuse hone)))
  next =>
    cases ok with
    | true => exact h.goes_same hn rfl rfl .same
    | false => exact h.goes_same hn rfl rfl .same
  next => exact h.goes_same hn rfl rfl .same

theorem target (hn : s.calls[n]? = some (.target e)) :
    Acc kept (s.after n (s.run (.target e) ok)) := by
  dsimp only [ReuseNode.run]
  split
  next => exact h.goes hn rfl rfl rfl (.moves (.refers .refer))
  next hr =>
    split
    · cases ok with
      | true => exact h.goes hn rfl rfl rfl (.moves (.refers .refer))
      | false => exact h.goes hn rfl rfl rfl (.moves (.refers (.targetErr (by rw [hr]; rfl))))
    cases ok with
    | true => exact h.goes_same hn rfl rfl .same
    | false => exact h.goes_same hn rfl rfl .same
  next => exact h.goes_same hn rfl rfl .same

theorem destroy (hn : s.calls[n]? = some (.destroy e)) :
    Acc kept (s.after n (s.run (.destroy e) ok)) := by
  dsimp only [ReuseNode.run]
  split
  · exact h.goes_same hn rfl rfl .same
  split
  next hu =>
    have hu' := hu.imp_right (mt ReuseState.code_eq_one.mp)
    exact h.goes hn rfl rfl rfl (.moves (.refers (.unref hu')))
  next hu =>
    obtain ⟨hu, hr⟩ := not_or.mp hu
    have hr := ReuseState.code_eq_one.mpr (not_ne_iff.mp hr)
    exact h.goes hn rfl rfl rfl (.moves (.turns (.destroy (Int.not_lt.mp hu) hr)))

theorem isrefWait (hn : s.calls[n]? = some (.isrefWait e)) :
    Acc kept (s.after n (s.run (.isrefWait e) ok)) := by
  dsimp only [ReuseNode.run]
  split
  · exact h.goes hn rfl rfl rfl (.moves (.refers .refer))
  split
  next hr => exact h.goes hn rfl rfl rfl (.moves (.refers (.unref (.inr (by rw [hr]; decide)))))
  next =>
    cases ok with
    | true => exact h.goes_same hn rfl rfl .same
    | false => exact h.goes_same hn rfl rfl .same

theorem isrefSend (hn : s.calls[n]? = some (.isrefSend e)) (hk : kept → s.Kept (.step n ok)) :
    Acc kept (s.after n (s.run (.isrefSend e) ok)) := by
  cases ok with
  | true => exact h.goes_same hn rfl rfl .same
  | false =>
    refine h.goes hn rfl rfl rfl ?_
    by_cases hkept : kept
    · have hu := hk hkept _ hn
      exact .moves (.refers (.unref (hu.imp_right (mt ReuseState.code_eq_one.mp))))
    · exact .leaks hkept .isrefSend

theorem remove {why : Closing} (hn : s.calls[n]? = some (.rmv e why)) :
    Acc kept (s.after n (s.run (.rmv e why) ok)) := by
  cases why with
  | importErr => exact h.removed hn rfl rfl (.ends .rmv)
  | createErr => exact h.removed hn rfl rfl (.ends .rmvCreate)
  | disconnect => exact h.removed hn rfl rfl (.ends .rmvDisconnect)
  | destroy => exact h.removed hn rfl rfl (.ends .rmvDestroy)

theorem modify {why : Closing} (hn : s.calls[n]? = some (.modify e why))
    (hk : kept → s.Kept (.step n ok)) : Acc kept (s.after n (s.run (.modify e why) ok)) := by
  cases ok with
  | true =>
    cases why with
    | destroy => exact h.goes_same hn rfl rfl (.moves (.ends .modifyDestroy))
    | _ => exact h.goes_same hn rfl rfl (.moves (.ends .modify))
  | false =>
    cases why with
    | destroy => exact h.goes_same hn rfl rfl (.leaks (fun hkept => hk hkept _ hn) .modify)
    | _ => exact h.leaves hn rfl rfl (.moves (.ends .modifyErr))

theorem free (hn : s.calls[n]? = some (.free e)) (hk : kept → s.Kept (.step n ok)) :
    Acc kept (s.after n (s.run (.free e) ok)) := by
  have huse := ((h.view hn rfl).at_own (by simp)).2.2.2.2
  dsimp only [ReuseNode.run]
  rw [if_neg (by omega)]
  split
  next hv =>
    have hv' : (s.entries e).tpHandleValid.toNat = 1 := by rw [hv]; rfl
    refine h.goes hn rfl rfl rfl ?_
    cases ok with
    | true => exact .moves (.ends (.delete hv'))
    | false =>
      exact .leaks (fun hkept => Bool.noConfusion (hv.symm.trans (hk hkept _ hn))) (.delete hv')
  next hv =>
    have hv' : (s.entries e).tpHandleValid.toNat = 0 := by rw [Bool.eq_false_of_not_eq_true hv]; rfl
    exact h.goes_same hn rfl rfl (.moves (.ends (.deleteNone hv')))

theorem freeNew (hn : s.calls[n]? = some (.freeNew e)) :
    Acc kept (s.after n (s.run (.freeNew e) ok)) := by
  dsimp only [ReuseNode.run]
  split
  next hr => exact h.leaves hn rfl rfl (.moves (.makes (.freeNew hr)))
  next => exact h.goes_same hn rfl rfl .same

theorem wait (hn : s.calls[n]? = some (.wait e)) :
    Acc kept (s.after n (s.run (.wait e) ok)) := by
  dsimp only [ReuseNode.run]
  split
  next hr => exact h.leaves hn rfl rfl (.moves (.ends (.wait hr)))
  next => exact h.goes_same hn rfl rfl .same

theorem run (hn : s.calls[n]? = some pc) (hk : kept → s.Kept (.step n ok)) :
    Acc kept (s.after n (s.run pc ok)) := by
  cases pc with
  | find key fallback | createFind key fallback =>
    exact h.lookup hn rfl (fun _ => rfl) (fun _ => ⟨rfl, rfl⟩) fun q hq => by rw [mem_singleton.mp hq]; rfl
  | destroyFind key fallback | isrefFind key fallback =>
    exact h.lookup hn rfl (fun _ => rfl) (fun _ => ⟨rfl, rfl⟩) nofun
  | alloc key | createAlloc key =>
    cases ok with
    | true => exact h.alloc hn rfl rfl rfl
    | false => exact h.unbound hn rfl nofun
  | add e | createAdd e => exact h.findAdd hn rfl rfl (fun _ => ⟨rfl, rfl⟩) fun _ => ⟨rfl, rfl⟩
  | fill e =>
    cases ok with
    | true => exact h.goes hn rfl rfl rfl (.moves (.makes .fill))
    | false => exact h.goes_same hn rfl rfl (.moves (.makes .fillErr))
  | exchange e =>
    cases ok with
    | true => exact h.goes_same hn rfl rfl .same
    | false => exact h.goes_same hn rfl rfl (.moves (.makes .importErr))
  | importNew e =>
    cases ok with
    | true => exact h.goes hn rfl rfl rfl (.moves (.makes .importNew))
    | false => exact h.goes_same hn rfl rfl (.moves (.makes .importErr))
  | createFill e =>
    cases ok with
    | true => exact h.goes hn rfl rfl rfl (.moves (.makes .createFill))
    | false => exact h.goes_same hn rfl rfl (.moves (.makes .createFillErr))
  | createModify e =>
    cases ok with
    | true => exact h.goes hn rfl rfl rfl (.moves (.makes .create))
    | false => exact h.goes hn rfl rfl rfl (.moves (.makes .createErr))
  | reuse e => exact h.reuse hn
  | target e => exact h.target hn
  | isref e =>
    cases ok with
    | true => exact h.goes_same hn rfl rfl .same
    | false => exact h.goes hn rfl rfl rfl (.moves (.uses .isrefErr))
  | put e after =>
    cases after with
    | done => exact h.leaves hn rfl rfl (.moves (.refers .put))
    | use | user => exact h.goes hn rfl rfl rfl (.moves (.uses .put))
  | importEx e =>
    cases ok with
    | true => exact h.goes_same hn rfl rfl .same
    | false => exact h.goes_same hn rfl rfl .same
  | dec e => exact h.leaves hn rfl rfl (.moves (.uses .dec))
  | user e => exact h.goes_same hn rfl rfl .same
  | freeNew e => exact h.freeNew hn
  | destroy e => exact h.destroy hn
  | isrefWait e => exact h.isrefWait hn
  | isrefSend e => exact h.isrefSend hn hk
  | rmv e why => exact h.remove hn
  | setErr e => exact h.goes hn rfl rfl rfl (.moves (.ends .setErr))
  | modify e why => exact h.modify hn hk
  | putFree e => exact h.goes hn rfl rfl rfl (.moves (.ends .putFree))
  | free e => exact h.free hn hk
  | dropBase e => exact h.goes hn rfl rfl rfl (.moves (.ends .dropBase))
  | wait e => exact h.wait hn

theorem disconnect (hn : s.calls[n]? = some (.user e)) :
    Acc kept (s.after n (s.disconnect e ok)) := by
  have hready := ReuseState.code_eq_one.mp ((h.view hn rfl).at_count (by simp)).1
  dsimp only [ReuseNode.disconnect]
  rw [if_neg (by rw [hready]; exact ReuseState.noConfusion)]
  split
  next hu => exact h.leaves hn rfl rfl (.moves (.uses (.leave (.inl hu))))
  next hu =>
    split
    next => exact h.goes_same hn rfl rfl .same
    next =>
      split
      next hr => exact h.leaves hn rfl rfl (.moves (.uses (.leave (.inr (by rw [hr]; rfl)))))
      next => exact h.goes hn rfl rfl rfl (.moves (.uses (.close (Int.not_lt.mp hu))))

theorem starts (hpc : pc.entry = none) : Acc kept { s with calls := s.calls ++ [pc] } := by
  refine ⟨fun e he => ?_, fun q hq e he => ?_, h.table, h.fault⟩
  · have hl : sharesOf (s.calls ++ [pc]) e = sharesOf s.calls e := by
      rw [sharesOf_append sharesOf_single, on_none hpc]
      rfl
    exact hl ▸ h.accord e he
  · rcases mem_append.mp hq with hq | hq
    · exact h.calls q hq e he
    · rw [mem_singleton.mp hq, hpc] at he
      cases he

theorem act {a : ReuseAct} (hk : kept → s.Kept a) : Acc kept (s.act a) := by
  cases a with
  | importJfr key fallback | createReq key fallback | destroyReq key fallback | isrefReq key fallback =>
    exact h.starts rfl
  | step n ok =>
    dsimp only [ReuseNode.act]
    split
    next => exact h
    next pc hn =>
      rw [h.check_eq hn]
      exact h.run hn hk
  | disconnect n ok =>
    dsimp only [ReuseNode.act]
    split
    next e hn =>
      rw [h.check_eq hn]
      exact h.disconnect hn
    next => exact h

end

theorem init : Acc kept {} :=
  ⟨fun e he => absurd he (Nat.not_lt_zero e), nofun,
    nofun, rfl⟩

end Acc

/-- The import has counted itself in the entry `e` and not returned. -/
def ReusePc.counting (e : Nat) : ReusePc → Bool
  | .isref d => d == e
  | .put d .use => d == e
  | .put d .user => d == e
  | .importEx d => d == e
  | .dec d => d == e
  | _ => false

def ReuseNode.Quiet (s : ReuseNode) : Prop := ∀ pc ∈ s.calls, ∃ e, pc = .user e

section Accounting

variable {kept : Prop} {s : ReuseNode} {e : Nat}

attribute [local simp] ReusePc.counting

theorem ReusePc.on_count (pc : ReusePc) :
    (if .count ∈ pc.on e then 1 else 0) =
      (if pc == .user e then 1 else 0) + (if pc.counting e = true then 1 else 0) := by
  unfold ReusePc.on
  cases pc with
  | put d after =>
    cases after <;> by_cases hd : d = e <;> simp [hd]
  | rmv d why | modify d why => cases why <;> simp
  | isref d | importEx d | dec d | user d => by_cases hd : d = e <;> simp [hd]
  | _ => simp

theorem sharesOf_count (calls : List ReusePc) :
    sharesOf calls e .count = calls.count (.user e) + calls.countP (·.counting e) := by
  unfold sharesOf
  induction calls with
  | nil => rfl
  | cons pc calls ih =>
    rw [total_cons, ih, ReusePc.on_count, count_cons, countP_cons]
    omega

theorem ReuseNode.Quiet.own (hq : s.Quiet) : sharesOf s.calls e .own = 0 := by
  refine sum_eq_zero fun c hc => ?_
  obtain ⟨pc, hpc, rfl⟩ := mem_map.mp hc
  obtain ⟨d, rfl⟩ := hq pc hpc
  refine if_neg ?_
  unfold ReusePc.on
  split <;> simp

theorem Acc.useCnt_eq (h : Acc kept s) (he : e < s.next) :
    (s.entries e).useCnt = s.calls.count (.user e) + s.calls.countP (·.counting e) := by
  rw [(h.accord e he).1.cnt, sharesOf_count]
  exact Nat.cast_add ..

theorem Acc.quiet (h : Acc True s) (hq : s.Quiet) (he : e < s.next)
    (hleft : (s.entries e).freed = false ∨ (s.entries e).tpid = .live ∨ (s.entries e).tpid = .left) :
    s.table (s.entries e).key = some e ∧ (0 < (s.entries e).useCnt ∨ (s.entries e).isRef) ∨
      (s.entries e).reported := by
  obtain ⟨hv, hk⟩ := h.accord e he
  have hk := hk trivial
  have hfreed : (s.entries e).freed.toNat = 0 := by
    rcases hleft with hf | ht | ht
    · rw [hf]
      rfl
    · have := hk.gone
      rw [ht] at this
      have hle := Bool.toNat_le (s.entries e).freed
      have hlive : Tpid.live.code = 1 := rfl
      omega
    · exact absurd (by rw [ht]; rfl) hk.left
  cases hr : (s.entries e).reuseState with
  | reset => exact absurd (by rw [hr]; rfl) (hv.owned hfreed hq.own)
  | error => exact .inr (by have := hk.told (by rw [hr]; rfl) hq.own hfreed; simpa using this)
  | ready =>
    have hone : (s.entries e).reuseState.code = 1 := by rw [hr]; rfl
    have hin : s.table (s.entries e).key = some e := by
      have := (hv.ready hone).2.2.1
      unfold ReuseNode.inTable at this
      by_contra hne
      rw [if_neg hne] at this
      cases this
    rcases hk.used hone with hc | hr | hr
    · have := hv.cnt
      exact .inl ⟨hin, .inl (by omega)⟩
    · exact .inl ⟨hin, .inr (by simpa using hr)⟩
    · exact .inr (by simpa using hr)

/-- In any run: every entry counts its users, and nothing is accessed after it was freed. -/
theorem reuse_counted (hs : Reach (fun _ _ => True) ReuseNode.act {} s) :
    (∀ e, e < s.next → (s.entries e).useCnt = s.calls.count (.user e) + s.calls.countP (·.counting e)) ∧
      s.fault = false := by
  have h : Acc False s := hs.invariant Acc.init fun s a h _ => h.act False.elim
  exact ⟨fun e he => h.useCnt_eq he, h.fault⟩

/-- In a run whose failures leave nothing behind: every entry counts the imports that use it and those in
progress that are counted; nothing is freed twice or accessed after it was freed; and when no call is in
progress, an entry that is there or whose tpid was not deleted is in the table and in use, or its last user was
told of an error. -/
theorem reuse_accounted (hs : Reach ReuseNode.Kept ReuseNode.act {} s) :
    (∀ e, e < s.next → 0 ≤ (s.entries e).useCnt ∧
      (s.entries e).useCnt = s.calls.count (.user e) + s.calls.countP (·.counting e)) ∧
    s.fault = false ∧
    (s.Quiet → ∀ e, e < s.next →
      (s.entries e).freed = false ∨ (s.entries e).tpid = .live ∨ (s.entries e).tpid = .left →
      s.table (s.entries e).key = some e ∧ (0 < (s.entries e).useCnt ∨ (s.entries e).isRef = true) ∨
        (s.entries e).reported = true) := by
  obtain ⟨hcnt, hfault⟩ := reuse_counted (hs.mono fun _ _ _ => trivial)
  have h : Acc True s := hs.invariant Acc.init fun s a h ha => h.act fun _ => ha
  refine ⟨fun e he => ⟨?_, hcnt e he⟩, hfault, fun hq e he => h.quiet hq he⟩
  rw [hcnt e he]
  exact Int.add_nonneg (Int.natCast_nonneg _) (Int.natCast_nonneg _)

end Accounting

/-- An import makes a channel, and is disconnected; the flag is the outcome of deleting the tpid. -/
def importAndLeave (ok : Bool) : List ReuseAct :=
  [.importJfr 0 none, .step 0 true, .step 0 true, .step 0 true, .step 0 true, .step 0 true, .step 0 true,
    .step 0 true, .disconnect 0 true, .step 0 true, .step 0 true, .step 0 ok, .step 0 true, .step 0 true]

/-- The channel is made, used and freed. -/
theorem reuse_accounted_left : ∃ s : ReuseNode, Reach ReuseNode.Kept ReuseNode.act {} s ∧
    s = (importAndLeave true).foldl ReuseNode.act {} ∧ s.calls = [] ∧ (s.entries 0).tpid = .deleted ∧
      s.fault = false := by
  have hs : Reach ReuseNode.Kept ReuseNode.act {} ((importAndLeave true).foldl ReuseNode.act {}) :=
    Reach.init.along ⟨trivial, trivial, trivial, trivial, trivial, trivial, trivial, trivial, trivial, trivial,
      trivial, trivial, trivial, trivial, trivial⟩
  exact ⟨_, hs, rfl, by decide +kernel, by decide +kernel, (reuse_accounted hs).2.1⟩

/-- The deletion of the tpid fails and is only logged: the disconnect succeeds, the entry is gone, and the tpid
is left behind. -/
theorem tpid_left : ∃ s : ReuseNode, Reach (fun _ _ => True) ReuseNode.act {} s ∧ s.Quiet ∧
    0 < s.next ∧ (s.entries 0).tpid = .left ∧ (s.entries 0).reported = false ∧
      s.table (s.entries 0).key ≠ some 0 ∧ ¬ 0 < (s.entries 0).useCnt ∧ (s.entries 0).isRef = false := by
  have hcalls : ((importAndLeave false).foldl ReuseNode.act {}).calls = [] := by decide +kernel
  refine ⟨_, .foldl (importAndLeave false), fun pc hpc => ?_, by decide +kernel⟩
  rw [hcalls] at hpc
  cases hpc

/-- In every run, whatever fails, an import that is done has its channel: the table has the entry
under its key, with a tpid that was not deleted. So the imports of a key share one channel. -/
theorem users_have_channel (acts : List ReuseAct) :
    let s := acts.foldl ReuseNode.act {}
    ∀ e, .user e ∈ s.calls →
      s.table (s.entries e).key = some e ∧ (s.entries e).tpid = .live ∧ (s.entries e).freed = false := by
  intro s e hu
  have h : Acc False s := (Reach.foldl acts).invariant Acc.init fun s a h _ => h.act False.elim
  obtain ⟨hv, -⟩ := h.accord e (h.calls _ hu e rfl)
  have hcnt : 0 < sharesOf s.calls e .count := by
    rw [sharesOf_count]
    exact Nat.add_pos_left (count_pos_iff.mpr hu) _
  obtain ⟨-, hf, hi, ht, -⟩ := hv.ready (hv.counted hcnt)
  refine ⟨?_, ?_, by simpa using hf⟩
  · unfold ReuseNode.inTable at hi
    by_contra hne
    rw [if_neg hne] at hi
    cases hi
  · cases hp : (s.entries e).tpid <;> rw [hp] at ht <;> trivial

end UbDkms.Ubcore
