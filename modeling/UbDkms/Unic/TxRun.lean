import UbDkms.Lib.Parts
import UbDkms.Unic.TxRing

/-!
# Runs of the transmit queue

Every packet accepted is freed once and after its completion, its entry describes its
bytes in pages and blocks of its own, the spare counts are right and every batch is
announced, in every run when the number of pages divides `65536`. With another number of
pages two entries get one page where the position wraps.
-/

namespace UbDkms.Unic

open Lib List
open Function (update update_self update_of_ne)

/-- Completions in the queue that are no entry's own. -/
def Flush.cqes : Flush → List TxCqe
  | .written => [{ rawCi := 0, fd := true }]
  | _ => []

namespace Sq

variable {g : SqCfg} {s : Sq} {e : TxEntry} {l : List TxEntry} {A h T b t : Nat}

structure Core (g : SqCfg) (s : Sq) : Prop where
  ring : ∃ A h T, Ring g s A h T
  accepted : s.accepted = s.freed ++ s.outs.map (·.skb.id)
  flow : ∃ j ≤ s.outs.length, s.cq = (s.outs.take j).map TxEntry.cqe ++ s.flush.cqes ∧
    (s.flush = .no → s.completed = s.freed ++ (s.outs.take j).map (·.skb.id)) ∧
    (s.flush ≠ .no → s.completed = s.accepted) ∧ (s.flush = .running ∨ s.flush = .over → j = 0)
  running : s.flush = .running → s.poll ≠ none

theorem Core.init : Core g {} where
  ring := ⟨0, 0, 0, rfl, rfl, fun _ => rfl, rfl, rfl, rfl, Nat.zero_le _, Nat.zero_le _, trivial⟩
  accepted := rfl
  flow := ⟨0, Nat.le_refl _, rfl, fun _ => rfl, fun _ => rfl, fun _ => rfl⟩
  running := nofun

theorem Core.aside (c : Core g s) (a : Nat) (d : List Nat) (b : Bool) :
    Core g { s with lastPi := a, dropped := d, batch := b } where
  ring := by
    obtain ⟨A, h, T, r⟩ := c.ring
    exact ⟨A, h, T, r.same rfl rfl rfl rfl rfl rfl (.of_eq rfl rfl rfl rfl)⟩
  accepted := c.accepted
  flow := c.flow
  running := c.running

theorem handleSgeSection_rest (skb : TxSkb) (n i sec sqPi : Nat) (s : Sq) :
    ∃ mem sge txPi, handleSgeSection g skb n i sec sqPi s = { s with mem, sge, txPi } := by
  induction n generalizing i sec sqPi s with
  | zero => exact ⟨s.mem, s.sge, s.txPi, rfl⟩
  | succ n ih =>
    rw [handleSgeSection]
    split
    · obtain ⟨mem, sge, txPi, heq⟩ := ih (i + 1) 0 ((sqPi + 1) % 65536) _
      exact ⟨mem, sge, txPi, heq⟩
    · obtain ⟨mem, sge, txPi, heq⟩ := ih (i + 1) (sec + 1) sqPi _
      exact ⟨mem, sge, txPi, heq⟩

theorem post_lists (s : Sq) (skb : TxSkb) : ∃ e, e.skb = skb ∧ (s.post g skb).outs = s.outs ++ [e] ∧
    (s.post g skb).accepted = s.accepted ++ [skb.id] ∧ (s.post g skb).freed = s.freed ∧
    (s.post g skb).cq = s.cq ∧ (s.post g skb).flush = s.flush ∧ (s.post g skb).poll = s.poll ∧
    (s.post g skb).completed = if s.flush = .no then s.completed else s.completed ++ [skb.id] := by
  obtain ⟨mem, sge, txPi, heq⟩ := handleSgeSection_rest skb (sgeNum g skb.len) 0 2 s.pi
    { s with ctrl := update s.ctrl (s.pi % g.depth) (sgeNum g skb.len) }
  refine ⟨{ start := s.pi, skb, sgeNum := sgeNum g skb.len }, rfl, ?_⟩
  dsimp only [post]
  rw [heq]
  exact ⟨rfl, rfl, rfl, rfl, rfl, rfl, rfl⟩

theorem Core.post (c : Core g s) (hd : g.pageNum ∣ 65536) (skb : TxSkb)
    (hb : sqebbCnt (sgeNum g skb.len) ≤ s.spareSqebb g) (hp : sgeNum g skb.len ≤ s.sparePage g) :
    Core g (s.post g skb) := by
  obtain ⟨e, he, ho, ha, hf, hq, hfl, hpo, hc⟩ := post_lists s skb
  obtain ⟨j, hj, hcq, hno, hyes, hz⟩ := c.flow
  refine ⟨?_, ?_, ⟨j, ?_, ?_, ?_, ?_, ?_⟩, ?_⟩
  · obtain ⟨A, h, T, r⟩ := c.ring
    exact ⟨A, h, T, r.post hd skb hb hp⟩
  · rw [ha, hf, ho, c.accepted, map_append, append_assoc]
    simp [he]
  · rw [ho, length_append]
    omega
  · rw [hq, ho, hfl, take_append_of_le_length hj, hcq]
  · rw [hfl, hc, hf, ho, take_append_of_le_length hj]
    intro h
    rw [if_pos h, hno h]
  · rw [hfl, hc, ha]
    intro h
    rw [if_neg h, hyes h]
  · rw [hfl]
    exact hz
  · rw [hfl, hpo]
    exact c.running

theorem Core.drop (c : Core g s) (skb : TxSkb) : Core g (s.drop skb) :=
  c.aside s.pi (s.dropped ++ [skb.id]) s.batch

theorem Core.clearCtrl (c : Core g s) (hb : 0 < s.spareSqebb g) (x : Nat) :
    Core g { s with ctrl := update s.ctrl (s.pi % g.depth) x } where
  ring := by
    obtain ⟨A, h, T, r⟩ := c.ring
    have := r.spareSqebb
    refine ⟨A, h, T, r.same rfl rfl rfl rfl rfl rfl ⟨fun _ _ => rfl, fun o ho => ?_, fun _ _ => rfl, fun _ _ => rfl⟩⟩
    refine update_of_ne ?_ _ _
    rw [r.pi, g.mod_depth]
    exact ring_free ho le_rfl (by omega)
  accepted := c.accepted
  flow := c.flow
  running := c.running

theorem Core.send (c : Core g s) (hd : g.pageNum ∣ 65536) (skb : TxSkb) (env : TxEnv)
    (hb : sqebbCnt (sgeNum g skb.len) ≤ s.spareSqebb g) (hp : sgeNum g skb.len ≤ s.sparePage g) :
    Core g (s.send g skb env) := by
  have hpos := sqebbCnt_pos (sgeNum g skb.len)
  unfold Sq.send handleSqe
  split
  next s₁ heq =>
    split at heq
    · cases heq
      exact c.drop skb
    split at heq
    · cases heq
      exact (c.clearCtrl (by omega) 0).drop skb
    · cases heq
  next s₁ heq =>
    split at heq
    · cases heq
    split at heq
    · cases heq
    cases heq
    have hpost := c.post hd { skb with data := env.edit skb.data } hb hp
    unfold txDoorbell
    split
    · exact hpost.aside _ _ _
    · exact hpost

theorem sgeNum_mono {n m : Nat} (h : n ≤ m) : sgeNum g n ≤ sgeNum g m := Nat.div_le_div_right (by omega)

section

variable (c : Core g s) (hd : g.pageNum ∣ 65536) (skb : TxSkb) (env : TxEnv)
include c hd skb env

theorem Core.xmit :
    Core g (s.xmit g skb env) := by
  dsimp only [Sq.xmit]
  split
  · exact c.drop skb
  split
  next hsp =>
    have hsp : sqebbCnt (sgeNum g skb.len) ≤ s.spareSqebb g ∧ sgeNum g skb.len ≤ s.sparePage g := by
      simpa [hasSpace] using hsp
    split
    · split
      · exact c.drop skb
      · have hle : sgeNum g skb.rmvSwCtype.len ≤ sgeNum g skb.len := sgeNum_mono (Nat.sub_le _ _)
        exact c.send hd _ env ((sqebbCnt_mono hle).trans hsp.1) (hle.trans hsp.2)
    · exact c.send hd skb env hsp.1 hsp.2
  · exact c.aside _ _ _

theorem Core.startXmit :
    Core g (s.startXmit g skb env) := by
  unfold Sq.startXmit
  split
  · exact c.xmit hd skb env
  split
  · exact c.drop skb
  · exact c.xmit hd _ env

end

theorem startXmit_announced (s : Sq) (skb : TxSkb) {env : TxEnv} (hm : env.more = false) :
    (s.startXmit g skb env).lastPi = (s.startXmit g skb env).pi := by
  have hsend : ∀ k, (s.send g k env).lastPi = (s.send g k env).pi := by
    intro k
    unfold Sq.send
    split
    · rfl
    · simp [hm, txDoorbell]
  have hxmit : ∀ k, (s.xmit g k env).lastPi = (s.xmit g k env).pi := by
    intro k
    dsimp only [Sq.xmit]
    split
    · rfl
    split
    · split
      · split
        · rfl
        · exact hsend _
      · exact hsend _
    · rfl
  unfold Sq.startXmit
  split
  · exact hxmit _
  split
  · rfl
  · exact hxmit _

theorem Ring.reclaimSingle (r : Ring g s A h T) (ho : s.outs = e :: l) (f : List Nat) (q : List TxCqe)
    {k : Nat → Option TxSkb} (hk : ∀ x, x ≠ (A + h) % g.depth → k x = s.skbs x) :
    Ring g ({ s with skbs := k, freed := f, cq := q }.reclaimSingleSqeSpace g ((A + h) % 65536))
      A (h + e.cnt) (T + e.sgeNum) := by
  have hc := r.chain
  have hb := r.blocks_le
  rw [ho] at hc
  rw [ho, blocks_cons] at hb
  have hctrl : s.ctrl ((A + h) % 65536 % g.depth) = e.sgeNum := by
    rw [g.mod_depth]
    exact hc.1.ctrl
  refine r.reclaim ho rfl rfl rfl ?_ ?_ ?_ ?_
  · show (s.txCi + s.ctrl _) % 65536 = _
    rw [hctrl]
  · show some (((A + h) % 65536 + sqebbCnt (s.ctrl _)) % 65536) = _
    rw [hctrl, Nat.mod_add_mod]
    rfl
  · show s.outs.tail = l
    rw [ho, tail_cons]
  · have hs : Same g s (s.reclaimSingleSqeSpace g ((A + h) % 65536)) (A + h + e.cnt) (blocks l)
        (T + e.sgeNum) (pages l) := reclaimSingleSqeSpace_same (A + h) hc.1.ctrl (by omega)
    refine ⟨fun o hlt => hk _ ?_, hs.ctrl, hs.sge, hs.mem⟩
    rw [Nat.add_assoc]
    have hpos : 0 < e.cnt := sqebbCnt_pos _
    exact (ring_free hpos (Nat.le_add_right e.cnt o) (by omega)).symm

theorem Ring.skb_head (r : Ring g s A h T) (ho : s.outs = e :: l) :
    s.skbs ((A + h) % 65536 % g.depth) = some e.skb := by
  have hc := r.chain
  rw [ho] at hc
  rw [g.mod_depth]
  exact hc.1.skb

theorem Core.reclaim (c : Core g s) (r : Ring g s A h T) (ho : s.outs = e :: l) {q : List TxCqe}
    {k : Nat → Option TxSkb} (hk : ∀ x, x ≠ (A + h) % g.depth → k x = s.skbs x)
    (hq : ∃ j ≤ l.length, q = (l.take j).map TxEntry.cqe ++ s.flush.cqes ∧
      (s.flush = .no → s.completed = s.freed ++ [e.skb.id] ++ (l.take j).map (·.skb.id)) ∧
      (s.flush ≠ .no → s.completed = s.accepted) ∧ (s.flush = .running ∨ s.flush = .over → j = 0)) :
    Core g ({ s with skbs := k, freed := s.freed ++ [e.skb.id], cq := q }.reclaimSingleSqeSpace g
      ((A + h) % 65536)) := by
  have houts : ({ s with skbs := k, freed := s.freed ++ [e.skb.id], cq := q }.reclaimSingleSqeSpace g
      ((A + h) % 65536)).outs = l := by
    show s.outs.tail = l
    rw [ho, tail_cons]
  refine ⟨⟨A, _, _, r.reclaimSingle ho _ q hk⟩, ?_, ?_, fun _ => Option.some_ne_none _⟩
  · rw [houts]
    show s.accepted = s.freed ++ [e.skb.id] ++ l.map _
    rw [c.accepted, ho]
    simp
  · rw [houts]
    exact hq

theorem Core.pollEnd {c : Nat} {f : Flush} (h : Core g s) (hp : s.poll = some c)
    (hf : f = s.flush ∧ f ≠ .running ∨ s.flush = .running ∧ f = .over) :
    Core g { s.pollEnd c with flush := f } where
  ring := by
    obtain ⟨A, h, T, r⟩ := h.ring
    have hc : c = (A + h) % 65536 := by
      have := r.poll
      rwa [hp] at this
    have hb := r.blocks_le
    exact ⟨A + h, 0, T, hc, hc, fun _ => rfl, r.pi, r.txCi, r.txPi, show 0 + blocks s.outs ≤ g.depth by omega,
      r.pages_le, r.chain.same (.of_eq rfl rfl rfl rfl)⟩
  accepted := h.accepted
  flow := by
    obtain ⟨j, hj, hcq, hno, hyes, hz⟩ := h.flow
    rcases hf with ⟨rfl, _⟩ | ⟨hr, rfl⟩
    · exact ⟨j, hj, hcq, hno, hyes, hz⟩
    refine ⟨0, Nat.zero_le _, ?_, nofun, fun _ => hyes (by rw [hr]; decide), fun _ => rfl⟩
    have := hz (.inl hr)
    rw [this, hr] at hcq
    exact hcq
  running hr := by
    rcases hf with ⟨_, hne⟩ | ⟨_, rfl⟩
    · exact absurd hr hne
    · cases hr

theorem Core.flushUnusedSqe {c : Nat} (h : Core g s) (hp : s.poll = some c) (hr : s.flush = .running) :
    Core g (s.flushUnusedSqe g c) := by
  unfold Sq.flushUnusedSqe
  split
  · exact h.pollEnd hp (.inr ⟨hr, rfl⟩)
  next hne =>
    obtain ⟨A, b, T, r⟩ := h.ring
    have hc : c = (A + b) % 65536 := by
      have := r.poll
      rwa [hp] at this
    cases ho : s.outs with
    | nil =>
      have := r.pi
      rw [ho] at this
      exact absurd (hc.trans this.symm) hne
    | cons e l =>
      obtain ⟨j, hj, hcq, hno, hyes, hz⟩ := h.flow
      have hj0 := hz (.inl hr)
      rw [hj0] at hcq
      have hcons : s.consumeSkb g c = { s with skbs := s.skbs, freed := s.freed ++ [e.skb.id], cq := s.cq } := by
        unfold consumeSkb
        rw [hc, r.skb_head ho]
        rfl
      rw [hcons, hc]
      exact h.reclaim r ho (fun _ _ => rfl) ⟨0, Nat.zero_le _, hcq, fun hf => (by rw [hf] at hr; cases hr), hyes,
        fun _ => rfl⟩

theorem Ring.ne_pi (r : Ring g s A h T) (ho : s.outs = e :: l) : (A + h) % 65536 ≠ s.pi := by
  intro heq
  have hb := r.blocks_le
  have hdep := g.depth_le'
  have hpos : 0 < e.cnt := sqebbCnt_pos _
  have hu := used_add (A + h) (show blocks s.outs < 65536 by omega)
  rw [← r.pi, heq, ho, blocks_cons] at hu
  simp [used] at hu
  omega

theorem Ring.checks (r : Ring g s A h T) (ho : s.outs = e :: l) :
    s.checkHwCiValid g e.cqe.rawCi ((A + h) % 65536) ∧ s.checkSqCiValid g ((A + h) % 65536) := by
  have hc := r.chain
  have hb := r.blocks_le
  have hdep := g.depth_le'
  rw [ho] at hc
  rw [ho, blocks_cons] at hb
  have hpos : 0 < e.cnt := sqebbCnt_pos _
  constructor
  · unfold checkHwCiValid
    rw [g.mod_depth, hc.1.ctrl, beq_iff_eq]
    show _ = (e.start + e.cnt - 1) % 65536
    rw [hc.1.start]
    rfl
  · have hu : used s.pi ((A + h) % 65536) = e.cnt + blocks l := by
      rw [r.pi, ho, blocks_cons]
      exact used_add _ (by omega)
    unfold checkSqCiValid
    rw [hu, decide_eq_true_eq]
    omega

theorem reclaimSqSpace_pass {c : Nat} {x : TxCqe} {k : TxSkb} (cq : List TxCqe) (hx : x.fd = false)
    (h1 : s.checkHwCiValid g x.rawCi c) (h2 : s.checkSqCiValid g c)
    (hk : s.skbs (c % g.depth) = some k) :
    s.reclaimSqSpace g c x cq =
      { s with
        skbs := update s.skbs (c % g.depth) none
        freed := s.freed ++ [k.id]
        cq := cq }.reclaimSingleSqeSpace g c := by
  unfold Sq.reclaimSqSpace consumeSkb
  rw [hx, if_neg (by decide), h1, h2, if_neg (by decide), hk,
    if_neg (show ¬ (some k).isNone = true from nofun)]
  rfl

theorem Ring.reclaimSqSpace_eq (r : Ring g s A h T) (ho : s.outs = e :: l) (cq : List TxCqe) :
    s.reclaimSqSpace g ((A + h) % 65536) e.cqe cq =
      { s with
        skbs := update s.skbs ((A + h) % 65536 % g.depth) none
        freed := s.freed ++ [e.skb.id]
        cq := cq }.reclaimSingleSqeSpace g ((A + h) % 65536) := by
  obtain ⟨h1, h2⟩ := r.checks ho
  exact reclaimSqSpace_pass cq rfl h1 h2 (r.skb_head ho)

theorem pollTx_start (hp : s.poll = none) : s.pollTx g = { s with poll := some s.ci } := by
  unfold Sq.pollTx
  rw [hp]

theorem pollTx_cqe {c : Nat} {x : TxCqe} {cq : List TxCqe} (hp : s.poll = some c) (hf : s.flush ≠ .running)
    (hq : s.cq = x :: cq) : s.pollTx g = s.reclaimSqSpace g c x cq := by
  unfold Sq.pollTx
  rw [hp]
  dsimp only
  rw [if_neg hf, hq]

theorem pollTx_end {c : Nat} (hp : s.poll = some c) (hf : s.flush ≠ .running) (hq : s.cq = []) :
    s.pollTx g = s.pollEnd c := by
  unfold Sq.pollTx
  rw [hp]
  dsimp only
  rw [if_neg hf, hq]

theorem Core.front (h : Core g s) {x : TxCqe} {cq : List TxCqe} (hq : s.cq = x :: cq) :
    (s.flush = .written ∧ x.fd ∧ cq = []) ∨ ∃ e l, s.outs = e :: l ∧ x = e.cqe ∧
      ∃ j ≤ l.length, cq = (l.take j).map TxEntry.cqe ++ s.flush.cqes ∧
      (s.flush = .no → s.completed = s.freed ++ [e.skb.id] ++ (l.take j).map (·.skb.id)) ∧
      (s.flush ≠ .no → s.completed = s.accepted) ∧ (s.flush = .running ∨ s.flush = .over → j = 0) := by
  obtain ⟨j, hj, hcq, hno, hyes, hz⟩ := h.flow
  rw [hq] at hcq
  cases j with
  | zero =>
    left
    cases hf : s.flush <;> rw [hf] at hcq <;> simp [Flush.cqes] at hcq
    exact ⟨rfl, by rw [hcq.1], hcq.2⟩
  | succ j =>
    right
    cases ho : s.outs with
    | nil => simp [ho] at hj
    | cons e l =>
      rw [ho] at hcq hj hno
      have hcq' : x = e.cqe ∧ cq = (l.take j).map TxEntry.cqe ++ s.flush.cqes := by simpa using hcq
      refine ⟨e, l, rfl, hcq'.1, j, by simpa using hj, hcq'.2, fun hf => ?_, hyes, fun hf => absurd (hz hf) nofun⟩
      rw [hno hf]
      simp

theorem Core.pollTx (h : Core g s) : Core g (s.pollTx g) := by
  unfold Sq.pollTx
  split
  next hp =>
    refine ⟨?_, h.accepted, h.flow, fun _ => Option.some_ne_none _⟩
    obtain ⟨A, b, T, r⟩ := h.ring
    have hb := r.idle hp
    subst hb
    exact ⟨A, 0, T, r.ci, r.ci, fun _ => rfl, r.pi, r.txCi, r.txPi, r.blocks_le, r.pages_le,
      r.chain.same (.of_eq rfl rfl rfl rfl)⟩
  next c hp =>
    split
    next hr => exact h.flushUnusedSqe hp hr
    next hr =>
      split
      next hq => exact h.pollEnd hp (.inl ⟨rfl, hr⟩)
      next x cq hq =>
        obtain ⟨A, b, T, r⟩ := h.ring
        have hc : c = (A + b) % 65536 := by
          have := r.poll
          rwa [hp] at this
        rcases h.front hq with ⟨hw, hfd, rfl⟩ | ⟨e, l, ho, rfl, hfl⟩
        · obtain ⟨_, _, _, _, hyes, _⟩ := h.flow
          unfold Sq.reclaimSqSpace
          rw [if_pos hfd]
          exact ⟨⟨A, b, T, r.same rfl rfl rfl rfl rfl rfl (.of_eq rfl rfl rfl rfl)⟩, h.accepted,
            ⟨0, Nat.zero_le _, rfl, nofun, fun _ => hyes (by rw [hw]; decide), fun _ => rfl⟩,
            fun _ => by rw [hp]; exact Option.some_ne_none _⟩
        rw [hc, r.reclaimSqSpace_eq ho]
        refine h.reclaim r ho (fun x hx => ?_) hfl
        rw [g.mod_depth]
        exact update_of_ne hx _ _

theorem Core.complete (h : Core g s) (hf : s.flush = .no) : Core g s.complete := by
  unfold Sq.complete
  split
  · exact h
  next e he =>
    obtain ⟨j, hj, hcq, hno, hyes, hz⟩ := h.flow
    have hlen : s.cq.length = j := by
      rw [hcq, hf]
      simp [Flush.cqes, hj]
    rw [hlen] at he
    obtain ⟨hlt, hget⟩ := List.getElem?_eq_some_iff.mp he
    have htake : s.outs.take (j + 1) = s.outs.take j ++ [e] := by
      rw [take_add_one, he]
      rfl
    refine ⟨?_, h.accepted, ⟨j + 1, hlt, ?_, fun _ => ?_, fun hn => absurd hf hn, fun hn => ?_⟩, h.running⟩
    · obtain ⟨A, b, T, r⟩ := h.ring
      exact ⟨A, b, T, r.same rfl rfl rfl rfl rfl rfl (.of_eq rfl rfl rfl rfl)⟩
    · show s.cq ++ [e.cqe] = _
      rw [htake, hcq, hf]
      simp [Flush.cqes]
    · show s.completed ++ [e.skb.id] = _
      rw [htake, hno hf]
      simp
    · simp [hf] at hn

theorem Core.hwFlush (h : Core g s) (hf : s.flush = .no) : Core g s.hwFlush := by
  obtain ⟨j, hj, hcq, hno, hyes, hz⟩ := h.flow
  refine ⟨?_, h.accepted, ⟨j, hj, ?_, nofun, fun _ => rfl, by simp [Sq.hwFlush]⟩, nofun⟩
  · obtain ⟨A, b, T, r⟩ := h.ring
    exact ⟨A, b, T, r.same rfl rfl rfl rfl rfl rfl (.of_eq rfl rfl rfl rfl)⟩
  · show s.cq ++ _ = _
    rw [hcq, hf]
    simp [Flush.cqes, Sq.hwFlush]

structure Inv (g : SqCfg) (s : Sq) : Prop where
  core : Core g s
  announced : s.batch = false → s.lastPi = s.pi

theorem pollTx_door (s : Sq) : (s.pollTx g).batch = s.batch ∧ (s.pollTx g).lastPi = s.lastPi ∧
    (s.pollTx g).pi = s.pi := by
  unfold Sq.pollTx
  split
  · exact ⟨rfl, rfl, rfl⟩
  split
  · unfold Sq.flushUnusedSqe
    split <;> exact ⟨rfl, rfl, rfl⟩
  split
  · exact ⟨rfl, rfl, rfl⟩
  dsimp only [Sq.reclaimSqSpace]
  split
  · exact ⟨rfl, rfl, rfl⟩
  split
  · exact ⟨rfl, rfl, rfl⟩
  · split <;> exact ⟨rfl, rfl, rfl⟩

theorem complete_door (s : Sq) : s.complete.batch = s.batch ∧ s.complete.lastPi = s.lastPi ∧
    s.complete.pi = s.pi := by
  unfold Sq.complete
  split <;> exact ⟨rfl, rfl, rfl⟩

theorem Inv.act (i : Inv g s) (hd : g.pageNum ∣ 65536) {a : TxAct} (ha : s.Ends a) : Inv g (s.act g a) := by
  cases a with
  | xmit skb env => exact ⟨(i.core.startXmit hd skb env).aside _ _ env.more, startXmit_announced s skb⟩
  | poll =>
    obtain ⟨h1, h2, h3⟩ := pollTx_door s
    refine ⟨i.core.pollTx, fun hb => ?_⟩
    show (s.pollTx g).lastPi = (s.pollTx g).pi
    rw [h2, h3]
    exact i.announced (h1 ▸ hb)
  | complete =>
    obtain ⟨h1, h2, h3⟩ := complete_door s
    refine ⟨i.core.complete ha, fun hb => ?_⟩
    show s.complete.lastPi = s.complete.pi
    rw [h2, h3]
    exact i.announced (h1 ▸ hb)
  | flush => exact ⟨i.core.hwFlush ha, i.announced⟩

variable (g s) in
def sections (e : TxEntry) : List (Nat × Nat) :=
  (List.range (s.ctrl (e.start % g.depth))).map fun i =>
    s.sge (4 * ((e.start + (2 + i) / 4) % g.depth) + (2 + i) % 4)

variable (s) in
def bytes (l : List (Nat × Nat)) : List (BitVec 8) :=
  l.flatMap fun x => (List.range x.2).map (s.mem x.1)

variable (g) in
def blockList (e : TxEntry) : List Nat := (List.range e.cnt).map fun k => (e.start + k) % g.depth

theorem Held.sections_eq (hh : Held g s e b t) : s.sections g e =
    (List.range e.sgeNum).map fun i => ((t + i) % g.pageNum, secLen g e.skb e.sgeNum i) := by
  unfold sections
  rw [hh.start, g.mod_depth, hh.ctrl]
  refine map_congr_left fun i hi => ?_
  have hi : i < e.sgeNum := mem_range.mp hi
  rw [← hh.sge i hi, g.add_mod_depth, Nat.mod_mul, show (4 * b + 2 + i) / 4 = b + (2 + i) / 4 by omega,
    show (4 * b + 2 + i) % 4 = (2 + i) % 4 by omega, Nat.add_comm]

theorem Held.blockList_eq (hh : Held g s e b t) :
    blockList g e = (List.range e.cnt).map fun k => (b + k) % g.depth := by
  refine map_congr_left fun k _ => ?_
  rw [hh.start, g.add_mod_depth]

theorem Held.bytes_eq (hh : Held g s e b t) :
    s.bytes (s.sections g e) = (List.range e.skb.len).map e.skb.data := by
  have hparts : s.bytes (s.sections g e) = (List.range e.sgeNum).flatMap fun i =>
      (List.range (secLen g e.skb e.sgeNum i)).map fun x => e.skb.data (i * g.pageSize + x) := by
    unfold bytes
    rw [hh.sections_eq, flatMap_map]
    refine flatMap_congr fun i hi => map_congr_left fun x hx => ?_
    exact hh.mem i (mem_range.mp hi) x (mem_range.mp hx)
  rw [hparts, hh.num]
  rcases Nat.eq_zero_or_pos e.skb.len with h0 | hpos
  · have : sgeNum g e.skb.len = 0 := by
      exact Nat.div_eq_of_lt (by have := g.page_pos; omega)
    rw [this, h0]
    rfl
  obtain ⟨m, r, hnum, hlen, -, -⟩ := ceil_parts g.page_pos hpos
  rw [show sgeNum g e.skb.len = m + 1 from hnum, range_succ, flatMap_append]
  conv_rhs => rw [hlen, ← range_parts]
  congr 1
  · refine flatMap_congr fun i hi => ?_
    rw [secLen, if_pos (by have := mem_range.mp hi; omega)]
  · rw [flatMap_singleton, secLen, if_neg (by omega), show e.skb.len - m * g.pageSize = r by omega]

theorem Chain.pages_eq (hc : Chain g s b t l) : (l.flatMap fun e => (s.sections g e).map (·.1)) =
    (List.range (pages l)).map fun o => (t + o) % g.pageNum := by
  induction l generalizing b t with
  | nil => rfl
  | cons e l ih =>
    rw [flatMap_cons, ih hc.2, pages_cons, range_add, map_append, hc.1.sections_eq, map_map,
      map_map]
    simp [Function.comp_def, Nat.add_assoc]

theorem Chain.blocks_eq (hc : Chain g s b t l) : l.flatMap (blockList g) =
    (List.range (blocks l)).map fun o => (b + o) % g.depth := by
  induction l generalizing b t with
  | nil => rfl
  | cons e l ih =>
    rw [flatMap_cons, ih hc.2, blocks_cons, range_add, map_append, hc.1.blockList_eq, map_map]
    simp [Function.comp_def, Nat.add_assoc]

theorem Chain.mem_held (hc : Chain g s b t l) (he : e ∈ l) : ∃ b' t', Held g s e b' t' := by
  induction l generalizing b t with
  | nil => cases he
  | cons e' l ih =>
    rcases mem_cons.mp he with rfl | he
    · exact ⟨b, t, hc.1⟩
    · exact ih hc.2 he

theorem nodup_lap {n k : Nat} (x : Nat) (h : n ≤ k) : ((List.range n).map fun o => (x + o) % k).Nodup := by
  refine List.Nodup.map_on (fun o ho o' ho' heq => ?_) nodup_range
  have := mem_range.mp ho
  have := mem_range.mp ho'
  exact ring_inj (by omega) (by omega) heq

structure Sound (g : SqCfg) (s : Sq) : Prop where
  once : s.accepted = s.freed ++ s.outs.map (·.skb.id)
  completed : s.freed <+: s.completed
  drained : s.cq = [] → s.flush = .no → s.freed = s.completed
  flushed : s.flush = .running → s.poll = some s.pi → s.freed = s.accepted
  handled : ∀ c x cq, s.poll = some c → s.flush ≠ .running → s.cq = x :: cq → (s.pollTx g).cq = cq
  flushing : ∀ e l, s.flush = .running → s.outs = e :: l → (s.pollTx g).freed = s.freed ++ [e.skb.id]
  bytes : ∀ e ∈ s.outs, s.bytes (s.sections g e) = (List.range e.skb.len).map e.skb.data
  pages : (s.outs.flatMap fun e => (s.sections g e).map (·.1)).Nodup
  blocks : (s.outs.flatMap (blockList g)).Nodup
  spareSqebb : s.spareSqebb g + (used (s.poll.getD s.ci) s.ci + Sq.blocks s.outs) = g.depth
  sparePage : s.sparePage g + Sq.pages s.outs = g.pageNum
  announced : s.batch = false → s.lastPi = s.pi

theorem Inv.sound (i : Inv g s) : Sound g s := by
  obtain ⟨A, h, T, r⟩ := i.core.ring
  obtain ⟨j, hj, hcq, hno, hyes, hz⟩ := i.core.flow
  have hb := r.blocks_le
  have hdep := g.depth_le'
  have hpoll : ∀ c, s.poll = some c → c = (A + h) % 65536 := by
    intro c hc
    have := r.poll
    rwa [hc] at this
  refine ⟨i.core.accepted, ?_, ?_, ?_, ?_, ?_, ?_, ?_, ?_, ?_, r.sparePage, i.announced⟩
  · by_cases hf : s.flush = .no
    · rw [hno hf]
      exact prefix_append _ _
    · rw [hyes hf, i.core.accepted]
      exact prefix_append _ _
  · intro hq hf
    rw [hq, hf] at hcq
    have ht : s.outs.take j = [] := by simpa [Flush.cqes] using hcq.symm
    rw [hno hf, ht]
    simp
  · intro _ hp
    cases ho : s.outs with
    | nil => rw [i.core.accepted, ho, map_nil, append_nil]
    | cons e l =>
      exact absurd (hpoll _ hp).symm (r.ne_pi ho)
  · intro c x cq hp hr hq
    rw [pollTx_cqe hp hr hq]
    rcases i.core.front hq with ⟨hw, hfd, rfl⟩ | ⟨e, l, ho, rfl, hfl⟩
    · unfold Sq.reclaimSqSpace
      rw [if_pos hfd]
    · rw [hpoll c hp, r.reclaimSqSpace_eq ho]
      rfl
  · intro e l hr ho
    obtain ⟨c, hp⟩ := Option.ne_none_iff_exists'.mp (i.core.running hr)
    have hc := hpoll c hp
    have hne : c ≠ s.pi := hc ▸ r.ne_pi ho
    unfold Sq.pollTx
    rw [hp]
    dsimp only
    rw [if_pos hr, Sq.flushUnusedSqe, if_neg hne]
    show s.freed ++ (s.skbs (c % g.depth)).toList.map (·.id) = _
    rw [hc, r.skb_head ho]
    rfl
  · intro e he
    obtain ⟨b, t, hh⟩ := r.chain.mem_held he
    exact hh.bytes_eq
  · rw [r.chain.pages_eq]
    exact nodup_lap T r.pages_le
  · rw [r.chain.blocks_eq]
    exact nodup_lap (A + h) (by omega)
  · rw [r.poll, r.ci, used_add A (by omega)]
    exact r.spareSqebb

/-- In every run of a queue whose number of pages divides `65536`, packets, entries, pages and
blocks are as they should be. -/
theorem transmits (hd : g.pageNum ∣ 65536) (hs : Reach Ends (Sq.act g) {} s) : Sound g s :=
  (hs.invariant (I := Inv g) ⟨.init, fun _ => rfl⟩ fun _ _ i ha => i.act hd ha).sound

def fourQueues : SqCfg where
  depthShift := 10
  pageNum := 8
  pageSize := 65536
  ubl := false
  depth_le := by decide
  num_lt := by decide
  page_pos := by decide

def packet (x : Nat) : TxSkb := { id := x, len := 100, data := fun _ => BitVec.ofNat 8 x }

def twoSent : List TxAct := [.xmit (packet 1) {}, .xmit (packet 2) {}, .complete, .poll, .poll]

theorem twoSent_along : Reach.Along Ends (Sq.act fourQueues) {} twoSent :=
  ⟨trivial, trivial, show Sq.flush _ = .no by decide +kernel, trivial, trivial, trivial⟩

theorem transmits_twoSent :
    let s := twoSent.foldl (Sq.act fourQueues) {}
    Sound fourQueues s ∧ s.freed = [1] ∧ s.accepted = [1, 2] :=
  ⟨transmits (by decide) (Reach.init.along twoSent_along), by decide +kernel, by decide +kernel⟩

def thirtyQueues : SqCfg where
  depthShift := 10
  pageNum := 17
  pageSize := 4096
  ubl := false
  depth_le := by decide
  num_lt := by decide
  page_pos := by decide

theorem xmit_packet (x : Nat) (hb : used s.pi s.ci < 1024) (hp : used s.txPi s.txCi < 17) (hf : s.flush = .no) :
    s.act thirtyQueues (.xmit (packet x) {}) = { s with
      ctrl := update s.ctrl (s.pi % 1024) 1
      mem := copy s.mem (s.txPi % 17) (packet x) 0 100
      sge := update s.sge (4 * (s.pi % 1024) + 2) (s.txPi % 17, 100)
      txPi := (s.txPi + 1) % 65536
      skbs := update s.skbs (s.pi % 1024) (some (packet x))
      pi := (s.pi + 1) % 65536
      lastPi := (s.pi + 1) % 65536
      outs := s.outs ++ [{ start := s.pi, skb := packet x, sgeNum := 1 }]
      accepted := s.accepted ++ [x]
      batch := false } := by
  have hsp : s.hasSpace thirtyQueues 1 := by
    unfold hasSpace Sq.spareSqebb Sq.sparePage
    rw [decide_eq_true_eq]
    show 1 ≤ (1024 + 65536 - used s.pi s.ci) % 65536 ∧ 1 ≤ (17 + 65536 - used s.txPi s.txCi) % 65536
    omega
  have hn : sgeNum thirtyQueues (packet x).len = 1 := (by decide : (100 + 4096 - 1) / 4096 = 1)
  have hubl : ¬ thirtyQueues.ubl := by decide
  have hpost : s.post thirtyQueues (packet x) = { s with
      ctrl := update s.ctrl (s.pi % 1024) 1
      mem := copy s.mem (s.txPi % 17) (packet x) 0 100
      sge := update s.sge (4 * (s.pi % 1024) + 2) (s.txPi % 17, 100)
      txPi := (s.txPi + 1) % 65536
      skbs := update s.skbs (s.pi % 1024) (some (packet x))
      pi := (s.pi + 1) % 65536
      outs := s.outs ++ [{ start := s.pi, skb := packet x, sgeNum := 1 }]
      accepted := s.accepted ++ [x] } := by
    unfold Sq.post
    simp only [hn, handleSgeSection, show ¬ 4 ≤ 2 + 1 by decide, if_false, hf, if_true]
    rfl
  have hsend : s.send thirtyQueues (packet x) {} =
      (s.post thirtyQueues (packet x)).txDoorbell true := rfl
  have hxmit : s.xmit thirtyQueues (packet x) {} = s.send thirtyQueues (packet x) {} := by
    dsimp only [Sq.xmit]
    rw [hn, if_neg (by decide), if_pos hsp, if_neg hubl]
  have hstart : s.startXmit thirtyQueues (packet x) {} = s.xmit thirtyQueues (packet x) {} := by
    unfold Sq.startXmit
    rw [if_neg hubl, if_neg fun h => absurd h.2 (by decide)]
    rfl
  show { s.startXmit thirtyQueues (packet x) {} with batch := false } = _
  rw [hstart, hxmit, hsend, hpost]
  rfl

/-- A queue with nothing in flight whose positions came to `n`. -/
structure Idle (n : Nat) (s : Sq) : Prop where
  pi : s.pi = n % 65536
  ci : s.ci = n % 65536
  txPi : s.txPi = n % 65536
  txCi : s.txCi = n % 65536
  poll : s.poll = none
  cq : s.cq = []
  outs : s.outs = []
  flush : s.flush = .no

def reaped : List TxAct := [.complete, .poll, .poll, .poll]

/-- A queue with one packet of one page in flight, posted at `n`. -/
structure Sent (n : Nat) (s : Sq) : Prop where
  pi : s.pi = (n + 1) % 65536
  ci : s.ci = n % 65536
  txPi : s.txPi = (n + 1) % 65536
  txCi : s.txCi = n % 65536
  poll : s.poll = none
  cq : s.cq = []
  outs : s.outs = [{ start := n % 65536, skb := packet 0, sgeNum := 1 }]
  flush : s.flush = .no
  ctrl : s.ctrl (n % 65536 % 1024) = 1
  skb : s.skbs (n % 65536 % 1024) = some (packet 0)

theorem Idle.sent {n : Nat} (h : Idle n s) : Sent n (s.act thirtyQueues (.xmit (packet 0) {})) := by
  have h0 : used (n % 65536) (n % 65536) = 0 := by simp [used]
  rw [xmit_packet 0 (by rw [h.pi, h.ci, h0]; decide) (by rw [h.txPi, h.txCi, h0]; decide) h.flush]
  refine ⟨?_, h.ci, ?_, h.txCi, h.poll, h.cq, ?_, h.flush, ?_, ?_⟩
  · rw [h.pi, Nat.mod_add_mod]
  · rw [h.txPi, Nat.mod_add_mod]
  · rw [h.outs, h.pi]
    rfl
  · rw [h.pi]
    exact update_self ..
  · rw [h.pi]
    exact update_self ..

theorem Sent.reaped {n : Nat} (h : Sent n s) : Idle (n + 1) (reaped.foldl (Sq.act thirtyQueues) s) := by
  have h1 : used ((n + 1) % 65536) (n % 65536) = 1 := used_add n (by decide)
  obtain ⟨s₁, hs₁⟩ : ∃ s₁ : Sq, s₁ = { s with
      cq := [{ rawCi := n % 65536 }]
      completed := s.completed ++ [0]
      poll := some (n % 65536) } := ⟨_, rfl⟩
  have e1 : (s.act thirtyQueues .complete).act thirtyQueues .poll = s₁ := by
    have hcomplete : s.complete = { s with cq := [{ rawCi := n % 65536 }], completed := s.completed ++ [0] } := by
      simp [Sq.complete, h.cq, h.outs, TxEntry.cqe, TxEntry.cnt, sqebbCnt, packet]
    show s.complete.pollTx thirtyQueues = s₁
    have hp : s.complete.poll = none := by rw [hcomplete, h.poll]
    rw [pollTx_start hp, hcomplete, hs₁, ← h.ci]
  obtain ⟨s₂, hs₂⟩ : ∃ s₂ : Sq, s₂ = { s₁ with
      skbs := update s₁.skbs (n % 65536 % 1024) none
      freed := s₁.freed ++ [0]
      cq := [] }.reclaimSingleSqeSpace thirtyQueues (n % 65536) := ⟨_, rfl⟩
  have hctrl : s₁.ctrl (n % 65536 % 1024) = 1 := by rw [hs₁, h.ctrl]
  have e2 : s₁.act thirtyQueues .poll = s₂ := by
    show s₁.pollTx thirtyQueues = s₂
    rw [pollTx_cqe (by rw [hs₁]) (by rw [hs₁, h.flush]; decide) (by rw [hs₁]),
      reclaimSqSpace_pass (k := packet 0) [] rfl ?_ ?_ (by rw [hs₁]; exact h.skb), hs₂]
    · rfl
    · show ((n % 65536 + sqebbCnt (s₁.ctrl (n % 65536 % 1024)) - 1) % 65536 == n % 65536) = true
      rw [hctrl, beq_iff_eq]
      exact Nat.mod_mod _ _
    · show decide (used s₁.pi (n % 65536) ≠ 0 ∧ used s₁.pi (n % 65536) ≤ 1024) = true
      rw [hs₁, h.pi, h1]
      decide
  have hpoll : s₂.poll = some ((n + 1) % 65536) := by
    rw [hs₂]
    show some ((n % 65536 + sqebbCnt (s₁.ctrl (n % 65536 % 1024))) % 65536) = _
    rw [hctrl, ← Nat.mod_add_mod n]
    rfl
  have htxCi : s₂.txCi = (n + 1) % 65536 := by
    rw [hs₂]
    show (s₁.txCi + s₁.ctrl (n % 65536 % 1024)) % 65536 = _
    rw [hctrl, hs₁, h.txCi, Nat.mod_add_mod]
  have hcq : s₂.cq = [] := by
    rw [hs₂]
    rfl
  have hflush : s₂.flush = .no := by
    rw [hs₂, ← h.flush, hs₁]
    rfl
  have e3 : s₂.act thirtyQueues .poll = s₂.pollEnd ((n + 1) % 65536) :=
    pollTx_end hpoll (by rw [hflush]; decide) hcq
  show Idle (n + 1) ((((s.act thirtyQueues .complete).act thirtyQueues .poll).act thirtyQueues .poll).act
    thirtyQueues .poll)
  rw [e1, e2, e3]
  refine ⟨?_, rfl, ?_, htxCi, rfl, hcq, ?_, hflush⟩
  · rw [← h.pi, hs₂, hs₁]
    rfl
  · rw [← h.txPi, hs₂, hs₁]
    rfl
  · show s₂.outs = []
    rw [hs₂, hs₁]
    rw [h.outs]
    rfl

theorem idle_reached (n : Nat) : ∃ s, Reach Ends (Sq.act thirtyQueues) {} s ∧ Idle n s := by
  induction n with
  | zero => exact ⟨{}, .init, rfl, rfl, rfl, rfl, rfl, rfl, rfl, rfl⟩
  | succ n ih =>
    obtain ⟨s, hs, hi⟩ := ih
    have hs₁ : Reach Ends (Sq.act thirtyQueues) {} (s.act thirtyQueues (.xmit (packet 0) {})) := .next hs trivial
    have hal : Reach.Along Ends (Sq.act thirtyQueues) (s.act thirtyQueues (.xmit (packet 0) {})) reaped :=
      ⟨hi.sent.flush, trivial, trivial, trivial, trivial⟩
    exact ⟨_, hs₁.along hal, hi.sent.reaped⟩

/-- With 17 pages the last position and position `0` are one page: the second of two packets
overwrites the first. -/
theorem wrapped_page_shared : ∃ s, Reach Ends (Sq.act thirtyQueues) {} s ∧
    ¬ (s.outs.flatMap fun e => (s.sections thirtyQueues e).map (·.1)).Nodup ∧
    ∃ e ∈ s.outs, s.bytes (s.sections thirtyQueues e) ≠ (List.range e.skb.len).map e.skb.data := by
  obtain ⟨s, hs, hpi, hci, htpi, htci, -, -, houts, hflush⟩ := idle_reached 65535
  obtain ⟨s₁, hs₁⟩ : ∃ s₁, s₁ = s.act thirtyQueues (.xmit (packet 1) {}) := ⟨_, rfl⟩
  obtain ⟨s₂, hs₂⟩ : ∃ s₂, s₂ = s₁.act thirtyQueues (.xmit (packet 2) {}) := ⟨_, rfl⟩
  have hreach : Reach Ends (Sq.act thirtyQueues) {} s₂ := by
    rw [hs₂, hs₁]
    exact .next (.next hs trivial) trivial
  rw [xmit_packet 1 (by rw [hpi, hci]; decide) (by rw [htpi, htci]; decide) hflush] at hs₁
  have hpi₁ : s₁.pi = 0 := by
    rw [hs₁]
    rw [hpi]
  have htpi₁ : s₁.txPi = 0 := by
    rw [hs₁]
    rw [htpi]
  have hci₁ : s₁.ci = 65535 := by rw [hs₁, hci]
  have htci₁ : s₁.txCi = 65535 := by rw [hs₁, htci]
  have hflush₁ : s₁.flush = .no := by rw [hs₁, hflush]
  rw [xmit_packet 2 (by rw [hpi₁, hci₁]; decide) (by rw [htpi₁, htci₁]; decide) hflush₁, hpi₁, htpi₁] at hs₂
  have houts₂ : s₂.outs = [{ start := 65535, skb := packet 1, sgeNum := 1 },
      { start := 0, skb := packet 2, sgeNum := 1 }] := by
    rw [hs₂, hs₁, houts, hpi]
    rfl
  have hctrl : s₂.ctrl 1023 = 1 ∧ s₂.ctrl 0 = 1 := by
    rw [hs₂, hs₁, hpi]
    exact ⟨rfl, rfl⟩
  have hsge : s₂.sge 4094 = (0, 100) ∧ s₂.sge 2 = (0, 100) := by
    rw [hs₂, hs₁, hpi, htpi]
    exact ⟨rfl, rfl⟩
  have hsec1 : s₂.sections thirtyQueues { start := 65535, skb := packet 1, sgeNum := 1 } = [(0, 100)] := by
    show (List.range (s₂.ctrl 1023)).map _ = _
    rw [hctrl.1]
    exact congrArg (fun x => [x]) hsge.1
  have hsec2 : s₂.sections thirtyQueues { start := 0, skb := packet 2, sgeNum := 1 } = [(0, 100)] := by
    show (List.range (s₂.ctrl 0)).map _ = _
    rw [hctrl.2]
    exact congrArg (fun x => [x]) hsge.2
  refine ⟨s₂, hreach, ?_, { start := 65535, skb := packet 1, sgeNum := 1 }, by rw [houts₂]; simp, ?_⟩
  · rw [houts₂]
    simp [hsec1, hsec2]
  intro heq
  rw [hsec1] at heq
  have hmap : (List.range 100).map (s₂.mem 0) = (List.range 100).map (packet 1).data := by
    rw [← show s₂.bytes [(0, 100)] = (List.range 100).map (s₂.mem 0) from append_nil _]
    exact heq
  have h1 : s₂.mem 0 0 = 1#8 := map_inj_left.mp hmap 0 (by decide)
  have h2 : s₂.mem 0 0 = 2#8 := by
    rw [hs₂]
    rfl
  exact absurd (h1.symm.trans h2) (by decide)

end Sq

end UbDkms.Unic
