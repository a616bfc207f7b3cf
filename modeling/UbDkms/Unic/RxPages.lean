import UbDkms.Unic.Rx

/-!
# Owners of receive pages

The posted buffers are the slots from `ci` on. Every page fragment is in one place: a
posted slot, a packet of the stack or the pool. A packet that is refused after its skb
was built breaks this: its pages go back with the skb and again with the slots.
-/

namespace UbDkms.Unic

open Lib List Packet

namespace Rq

variable {g : RqCfg} {rq : Rq} {n : Nat}

theorem depth_pos (g : RqCfg) : 0 < g.depth := Nat.two_pow_pos _

theorem depth_dvd (g : RqCfg) : g.depth ∣ 65536 := by
  have h := g.depth_le
  exact Nat.pow_dvd_pow 2 (show g.depthShift ≤ 16 by omega)

theorem depth_le (g : RqCfg) : g.depth ≤ 32768 :=
  Nat.pow_le_pow_right (by decide) g.depth_le

theorem mod_depth (g : RqCfg) (x : Nat) : x % 65536 % g.depth = x % g.depth :=
  Nat.mod_mod_of_dvd _ (depth_dvd g)

def posted (g : RqCfg) (rq : Rq) : List Nat :=
  (List.range (g.depth - rq.pendingBuf)).map fun o => (rq.slot g (rq.ci + o)).page

theorem posted_length : (rq.posted g).length = g.depth - rq.pendingBuf := by
  simp [posted]

theorem posted_take (h : n ≤ g.depth - rq.pendingBuf) :
    (rq.posted g).take n = (List.range n).map fun o => (rq.slot g (rq.ci + o)).page := by
  unfold posted
  rw [← map_take, take_range, Nat.min_eq_left h]

theorem posted_drop {rq' : Rq} (hi : ∀ x, (rq'.info x).page = (rq.info x).page)
    (hci : rq'.ci = (rq.ci + n) % 65536) (hp : rq'.pendingBuf = rq.pendingBuf + n) :
    rq'.posted g = (rq.posted g).drop n := by
  have hr : (List.range (g.depth - rq.pendingBuf)).drop n =
      (List.range (g.depth - (rq.pendingBuf + n))).map (n + ·) := by
    rw [range_eq_range', drop_range',
      List.range'_eq_map_range, Nat.sub_sub]
    simp
  unfold posted
  rw [← map_drop, hr, map_map, hp]
  refine map_congr_left fun o _ => ?_
  unfold slot
  rw [hi, hci, Nat.add_mod, mod_depth, ← Nat.add_mod, Nat.add_assoc]
  rfl

structure Owned (g : RqCfg) (rq : Rq) : Prop where
  ci : rq.ci < 65536
  pending : rq.pendingBuf ≤ g.depth
  pi : rq.pi = (rq.ci + (g.depth - rq.pendingBuf)) % 65536
  count : ∀ id, (rq.posted g).count id + (rq.stack.flatMap Packet.pages).count id +
    rq.returned.count id = if id < rq.next then 1 else 0

theorem putFrags_eq (rq : Rq) (n : Nat) (hci : rq.ci < 65536) : rq.putFrags g n = { rq with
    returned := rq.returned ++ (List.range n).map fun o => (rq.slot g (rq.ci + o)).page
    ci := (rq.ci + n) % 65536 } := by
  induction n generalizing rq with
  | zero => unfold putFrags; simp [Nat.mod_eq_of_lt hci]
  | succ n ih =>
    unfold putFrags
    rw [ih _ (Nat.mod_lt _ (by decide))]
    have hslot : ∀ o, (({ rq with
        returned := rq.returned ++ [(rq.slot g rq.ci).page]
        ci := (rq.ci + 1) % 65536 } : Rq).slot g ((rq.ci + 1) % 65536 + o)).page =
        (rq.slot g (rq.ci + (o + 1))).page := fun o => by
      dsimp only [slot]
      congr 2
      rw [Nat.add_mod, mod_depth, ← Nat.add_mod]
      congr 1
      omega
    simp only [hslot]
    congr 1
    · omega
    · rw [append_assoc, range_succ_eq_map, map_cons, map_map]
      rfl

/-- The hardware names posted buffers only: the packet starts at or ahead of `ci` and
its buffers are posted. -/
def Within (g : RqCfg) (rq : Rq) (cqe : Cqe) : Prop :=
  cqe.startRqeIdx < 65536 ∧ (cqe.doi = false →
    (cqe.startRqeIdx + 65536 - rq.ci) % 65536 + rqeNum g cqe.packetLen ≤ g.depth - rq.pendingBuf)

theorem Owned.consume {rq' : Rq} (h : Owned g rq) (hn : n ≤ g.depth - rq.pendingBuf)
    (hi : ∀ x, (rq'.info x).page = (rq.info x).page) (hpi : rq'.pi = rq.pi)
    (hci : rq'.ci = (rq.ci + n) % 65536) (hp : rq'.pendingBuf = rq.pendingBuf + n)
    (hnext : rq'.next = rq.next)
    (hcount : ∀ id, (rq'.stack.flatMap pages).count id + rq'.returned.count id =
      (rq.stack.flatMap pages).count id + rq.returned.count id +
        ((rq.posted g).take n).count id) : Owned g rq' where
  ci := by rw [hci]; exact Nat.mod_lt _ (by decide)
  pending := by have := h.pending; omega
  pi := by
    rw [hpi, h.pi, hci, hp, Nat.mod_add_mod]
    congr 1
    omega
  count id := by
    have h1 := h.count id
    have h2 := hcount id
    rw [posted_drop hi hci hp, hnext, ← h1]
    have h3 : (rq.posted g).count id = ((rq.posted g).take n).count id + ((rq.posted g).drop n).count id := by
      rw [← count_append, take_append_drop]
    omega

theorem fixRqCi_eq {cqe : Cqe} (hci : rq.ci < 65536) (hpend : rq.pendingBuf ≤ g.depth) (hw : Within g rq cqe)
    (hd : cqe.doi = false) : ∃ n, rq.pendingBuf + n + rqeNum g cqe.packetLen ≤ g.depth ∧
      (rq.ci + n) % 65536 = cqe.startRqeIdx ∧ rq.fixRqCi g cqe = { rq with
        returned := rq.returned ++ (List.range n).map fun o => (rq.slot g (rq.ci + o)).page
        pendingBuf := rq.pendingBuf + n
        ci := cqe.startRqeIdx } := by
  obtain ⟨hs, hb⟩ := hw
  have hb := hb hd
  have hdep := depth_le g
  unfold Rq.fixRqCi
  split
  · next he =>
    refine ⟨0, by omega, by omega, ?_⟩
    rw [← he, range_zero, map_nil, append_nil, Nat.add_zero]
  next he =>
  dsimp only
  generalize hn : (if cqe.startRqeIdx < rq.ci then cqe.startRqeIdx + 65536 else cqe.startRqeIdx) -
    rq.ci = n
  have hahead : (cqe.startRqeIdx + 65536 - rq.ci) % 65536 = n := by
    split at hn <;> omega
  have hstart : (rq.ci + n) % 65536 = cqe.startRqeIdx := by
    split at hn <;> omega
  have hmod : (rq.pendingBuf + n) % 65536 = rq.pendingBuf + n := Nat.mod_eq_of_lt (by omega)
  refine ⟨n, by omega, hstart, ?_⟩
  rw [putFrags_eq rq n hci, hmod]

theorem Owned.fixRqCi {cqe : Cqe} (h : Owned g rq) (hw : Within g rq cqe) (hd : cqe.doi = false) :
    Owned g (rq.fixRqCi g cqe) ∧ (rq.fixRqCi g cqe).ci = cqe.startRqeIdx ∧
      (rq.fixRqCi g cqe).pendingBuf + rqeNum g cqe.packetLen ≤ g.depth := by
  obtain ⟨n, hn, hstart, heq⟩ := fixRqCi_eq h.ci h.pending hw hd
  rw [heq]
  refine ⟨h.consume (by omega) (fun x => rfl) rfl hstart.symm rfl rfl fun id => ?_, rfl, hn⟩
  dsimp only
  rw [count_append, posted_take (by omega)]
  omega

theorem Owned.put (h : Owned g rq) (hb : rq.pendingBuf + n ≤ g.depth) :
    Owned g { rq.putFrags g n with pendingBuf := (rq.pendingBuf + n) % 65536 } := by
  have hdep := depth_le g
  rw [putFrags_eq rq n h.ci]
  refine h.consume (by omega) (fun x => rfl) rfl rfl (Nat.mod_eq_of_lt (by omega)) rfl fun id => ?_
  dsimp only
  rw [count_append, posted_take (by omega)]
  omega

theorem Owned.clear {cqe : Cqe} (h : Owned g rq) (hw : Within g rq cqe) :
    Owned g (rq.clearRqBuffers g cqe) := by
  unfold clearRqBuffers
  cases hd : cqe.doi with
  | true => exact h
  | false =>
    obtain ⟨h1, -, h3⟩ := h.fixRqCi hw hd
    have hput := h1.put h3
    rw [putFrags_eq _ _ h1.ci] at hput
    rw [if_neg (by simp)]
    dsimp only
    rw [putFrags_eq _ _ h1.ci]
    exact hput

theorem Owned.push {i : Nat} (h : Owned g { rq with pendingBuf := n + 1 })
    (hi : i % g.depth = (rq.ci + (g.depth - (n + 1))) % g.depth) :
    Owned g { rq with
      info := Function.update rq.info (i % g.depth) { page := rq.next, pageOffset := 0 }
      next := rq.next + 1
      pi := (rq.pi + 1) % 65536
      pendingBuf := n } := by
  have hpend : n + 1 ≤ g.depth := h.pending
  have hpost : posted g { rq with
      info := Function.update rq.info (i % g.depth) { page := rq.next, pageOffset := 0 }
      next := rq.next + 1
      pi := (rq.pi + 1) % 65536
      pendingBuf := n } = posted g { rq with pendingBuf := n + 1 } ++ [rq.next] := by
    dsimp only [posted]
    rw [show g.depth - n = g.depth - (n + 1) + 1 by omega, range_succ, map_append]
    congr 1
    · refine map_congr_left fun o ho => ?_
      have ho' := mem_range.mp ho
      dsimp only [slot]
      rw [Function.update_of_ne]
      rw [hi]
      intro heq
      have := ring_inj (by omega) (by omega) heq
      omega
    · unfold slot
      simp only [map_cons, map_nil, ← hi, Function.update_self]
  constructor
  · exact h.ci
  · dsimp only
    omega
  · have := h.pi
    dsimp only at this ⊢
    rw [this, Nat.mod_add_mod]
    congr 1
    omega
  · intro id
    have hc := h.count id
    have hnext : (if id < rq.next + 1 then 1 else 0) =
        (if id < rq.next then 1 else 0) + (if rq.next == id then 1 else 0) := by
      simp only [beq_iff_eq]
      split_ifs <;> omega
    rw [hpost, count_append, count_singleton]
    dsimp only at hc ⊢
    rw [hnext, ← hc]
    omega

theorem Owned.refillLoop (rq : Rq) (n i ok : Nat) (h : Owned g { rq with pendingBuf := n })
    (hi : i % g.depth = (rq.ci + (g.depth - n)) % g.depth) :
    ∃ m ≤ n, (rq.refillLoop g n i ok).2 = i + m ∧ (rq.refillLoop g n i ok).1.ci = rq.ci ∧
      (m = 0 → (rq.refillLoop g n i ok).1 = rq) ∧
      Owned g { (rq.refillLoop g n i ok).1 with pendingBuf := n - m } := by
  induction n generalizing rq i ok with
  | zero => exact ⟨0, le_rfl, rfl, rfl, fun _ => rfl, h⟩
  | succ n ih =>
    cases ok with
    | zero => exact ⟨0, Nat.zero_le _, rfl, rfl, fun _ => rfl, h⟩
    | succ ok =>
      unfold Rq.refillLoop
      have hpend : n + 1 ≤ g.depth := h.pending
      have hp := h.push hi
      have hi' : (i + 1) % g.depth = (rq.ci + (g.depth - n)) % g.depth := by
        rw [Nat.add_mod, hi, ← Nat.add_mod]
        congr 1
        omega
      obtain ⟨m, hm, h2, hci, -, ho⟩ := ih { rq with
        info := Function.update rq.info (i % g.depth) { page := rq.next, pageOffset := 0 }
        next := rq.next + 1
        pi := (rq.pi + 1) % 65536 } (i + 1) ok hp hi'
      refine ⟨m + 1, by omega, by omega, hci, nofun, ?_⟩
      rwa [show n + 1 - (m + 1) = n - m by omega]

theorem Owned.refill (h : Owned g rq) (ok : Nat) : Owned g (rq.refillRxBuffers g ok) := by
  have hpend := h.pending
  have hdep := depth_le g
  have hci := h.ci
  have hdvd : g.depth ∣ 65536 := depth_dvd g
  dsimp only [refillRxBuffers]
  generalize hr : (if rq.ci < rq.pendingBuf then rq.ci + 65536 else rq.ci) = rqCi
  have hle : rq.pendingBuf ≤ rqCi := by split at hr <;> omega
  have hmod : rqCi % g.depth = rq.ci % g.depth := by
    obtain ⟨c, hc⟩ := hdvd
    split at hr
    · rw [← hr, hc, Nat.add_mul_mod_self_left]
    · rw [hr]
  have hi : (rqCi - rq.pendingBuf) % g.depth = (rq.ci + (g.depth - rq.pendingBuf)) % g.depth := by
    have h1 : (rqCi - rq.pendingBuf + g.depth) % g.depth = (rqCi - rq.pendingBuf) % g.depth :=
      Nat.add_mod_right _ _
    rw [← h1, show rqCi - rq.pendingBuf + g.depth = rqCi + (g.depth - rq.pendingBuf) by omega,
      Nat.add_mod, hmod, ← Nat.add_mod]
  obtain ⟨m, hm, h2, -, h0, ho⟩ := Owned.refillLoop rq rq.pendingBuf _ ok h hi
  rw [h2]
  split
  · have : rqCi - (rqCi - rq.pendingBuf + m) = rq.pendingBuf - m := by omega
    rw [this]
    exact ho
  have hm0 : m = 0 := by omega
  rw [h0 hm0]
  exact h

theorem Owned.free (h : Owned g rq) (n : Nat) : Owned g (rq.freeSkb n) := by
  unfold freeSkb
  split
  · exact h
  next k hk =>
  refine ⟨h.ci, h.pending, h.pi, fun id => ?_⟩
  have hc := h.count id
  obtain ⟨hn, hx⟩ := List.getElem?_eq_some_iff.mp hk
  have hs : rq.stack = rq.stack.take n ++ k :: rq.stack.drop (n + 1) := by
    rw [← hx, ← drop_eq_getElem_cons hn, take_append_drop]
  have hp : (Rq.posted g { rq with stack := rq.stack.eraseIdx n, returned := rq.returned ++ k.pages }) =
      rq.posted g := rfl
  rw [hp]
  rw [hs] at hc
  rw [eraseIdx_eq_take_drop_succ]
  simp only [flatMap_append, flatMap_cons, count_append] at hc ⊢
  omega

end Rq

def fragOf (i : RqeInfo) (size : Nat) : Frag := ⟨i.page, i.pageOffset, size⟩

theorem Packet.addFrag_frags (k : Packet) (i : RqeInfo) (size : Nat) :
    (k.addFrag i size).frags = k.frags ++ [fragOf i size] := by
  unfold addFrag frags
  split
  · next h => simp [h, Skb.fillFrag, fragOf]
  · next s l h => simp [h, Skb.fillFrag, fragOf]

theorem Packet.newSkb_frags (k : Packet) :
    ({ k with fragList := {} :: k.fragList } : Packet).frags = k.frags := by
  simp [frags]

namespace Rq

variable {g : RqCfg} {rq : Rq} {env : RxEnv} {n : Nat}

theorem addFragsLoop_frags (rq : Rq) (hf : ∀ i, env.fragFails i = false) (i fragIndex pktLen : Nat)
    (k : Packet) :
    (rq.addFragsLoop g env n i fragIndex pktLen k).2 ∧
    (rq.addFragsLoop g env n i fragIndex pktLen k).1.frags = k.frags ++ (List.range n).map fun t =>
      fragOf (rq.slot g (rq.ci + i + t))
        (if t + 1 < n then g.buffLen else pktLen - n * g.buffLen) := by
  induction n generalizing i fragIndex pktLen k with
  | zero => exact ⟨rfl, by simp [addFragsLoop]⟩
  | succ n ih =>
    unfold addFragsLoop
    rw [if_neg (by simp [hf])]
    generalize hk : (if g.maxSkbFrags ≤ fragIndex then { k with fragList := {} :: k.fragList } else k) = k₁
    have hk₁ : k₁.frags = k.frags := by
      rw [← hk]
      split
      · exact newSkb_frags k
      · rfl
    obtain ⟨h1, h2⟩ := ih (i + 1) ((if g.maxSkbFrags ≤ fragIndex then 0 else fragIndex) + 1)
      (pktLen - g.buffLen)
      (k₁.addFrag (rq.slot g (rq.ci + i)) (if n ≠ 0 then g.buffLen else pktLen - g.buffLen))
    refine ⟨h1, h2.trans ?_⟩
    rw [addFrag_frags, hk₁, append_assoc, range_succ_eq_map, map_cons, map_map]
    congr 1
    rw [singleton_append]
    congr 1
    · congr 1
      by_cases hn : n = 0
      · subst hn
        simp
      · rw [if_pos hn, if_pos (by omega)]
    · refine map_congr_left fun t ht => ?_
      congr 1
      · congr 1
        omega
      · refine if_congr (by simp) rfl ?_
        rw [Nat.sub_sub, Nat.succ_mul, Nat.add_comm]

theorem rqeNum_small (g : RqCfg) {p : Nat} (h1 : 1 ≤ p) (h2 : p ≤ 256) : rqeNum g p = 1 := by
  have := g.buff_ge
  refine Nat.div_eq_of_lt_le ?_ ?_ <;> omega

theorem rqeNum_pos (g : RqCfg) {p : Nat} (h1 : 1 ≤ p) : 1 ≤ rqeNum g p := by
  have := g.buff_ge
  unfold rqeNum
  rw [Nat.le_div_iff_mul_le (by omega)]
  omega

theorem addSkbFrags_pages (rq : Rq) (hf : ∀ i, env.fragFails i = false) {pktLen : Nat} (hp : 1 ≤ pktLen)
    (head : Skb) (hh : head.frags = []) :
    (rq.addSkbFrags g env pktLen head).2 ∧ (rq.addSkbFrags g env pktLen head).1.pages =
      (List.range (rqeNum g pktLen)).map fun o => (rq.slot g (rq.ci + o)).page := by
  dsimp only [addSkbFrags]
  obtain ⟨h1, h2⟩ := addFragsLoop_frags rq hf 1 1 pktLen
    { head := head.fillFrag (rq.slot g rq.ci) ((if rqeNum g pktLen = 1 then pktLen else g.buffLen) - env.pullLen) }
  refine ⟨h1, ?_⟩
  have hn := rqeNum_pos g hp
  unfold pages
  rw [h2, map_append, map_map]
  obtain ⟨m, hm⟩ := Nat.exists_eq_add_of_le hn
  rw [hm, Nat.add_sub_cancel_left, Nat.add_comm 1 m, range_succ_eq_map, map_cons, map_map]
  simp only [frags, Skb.fillFrag, hh, nil_append, reverse_nil, flatMap_nil,
    append_nil, map_cons, map_nil, singleton_append]
  congr 1
  refine map_congr_left fun t _ => ?_
  simp only [Function.comp_apply, fragOf]
  congr 2
  omega

theorem createSkb_cases (rq : Rq) (hf : ∀ i, env.fragFails i = false) {p : Nat} (hp : 1 ≤ p) :
    (rq.createSkb g env p = (rq, none)) ∨
    (p ≤ 256 ∧ rq.createSkb g env p =
      ({ rq with returned := rq.returned ++ [(rq.slot g rq.ci).page] },
        some { head := { linear := rq.headBytes g p, len := p } })) ∨
    (256 < p ∧ rq.createSkb g env p = (rq.pullOffset g env.pullLen,
      some ((rq.pullOffset g env.pullLen).addSkbFrags g env p
        { linear := rq.headBytes g env.pullLen, len := env.pullLen }).1)) := by
  unfold createSkb
  split
  · exact .inl rfl
  split
  · next h => exact .inr (.inl ⟨h, rfl⟩)
  next h =>
  have hadd := (addSkbFrags_pages (rq.pullOffset g env.pullLen) (g := g) hf hp
    { linear := rq.headBytes g env.pullLen, len := env.pullLen } rfl).1
  refine .inr (.inr ⟨not_le.mp h, ?_⟩)
  dsimp only
  generalize (rq.pullOffset g env.pullLen).addSkbFrags g env p
    { linear := rq.headBytes g env.pullLen, len := env.pullLen } = r at hadd ⊢
  obtain ⟨k, b⟩ := r
  cases b with
  | false => cases hadd
  | true => rfl

theorem pullOffset_page (rq : Rq) (n x : Nat) :
    ((rq.pullOffset g n).info x).page = (rq.info x).page := by
  unfold pullOffset
  by_cases h : x = rq.ci % g.depth
  · subst h
    simp [slot]
  · simp [Function.update_of_ne h]

/-- The packet passes all checks and every allocation for its frag list succeeds. -/
def Sound (env : RxEnv) (cqe : Cqe) : Prop :=
  cqe.doi = false → handleCqe cqe = true ∧ ∀ i, env.fragFails i = false

theorem packetLen_pos {cqe : Cqe} (h : handleCqe cqe) : 1 ≤ cqe.packetLen := by
  unfold handleCqe at h
  rcases Nat.eq_zero_or_pos cqe.packetLen with h0 | h0
  · rw [h0] at h
    simp at h
  · exact h0

theorem Owned.rx {cqe : Cqe} (h : Owned g rq) (hw : Within g rq cqe) (hs : Sound env cqe) :
    Owned g (rq.rx g env cqe) := by
  unfold Rq.rx rxConstructSkb
  cases hd : cqe.doi with
  | true => exact h
  | false =>
    obtain ⟨h1, -, h3⟩ := h.fixRqCi hw hd
    obtain ⟨hok, hfr⟩ := hs hd
    have hlen := packetLen_pos hok
    have hdep := depth_le g
    rw [if_neg (by simp)]
    generalize rq.fixRqCi g cqe = r at h1 h3 ⊢
    have hmod : (r.pendingBuf + rqeNum g cqe.packetLen) % 65536 =
        r.pendingBuf + rqeNum g cqe.packetLen := Nat.mod_eq_of_lt (by omega)
    have hle : rqeNum g cqe.packetLen ≤ g.depth - r.pendingBuf := by omega
    have hput := h1.put h3
    rw [putFrags_eq _ _ h1.ci] at hput
    dsimp only
    rw [hmod] at hput ⊢
    generalize hq : ({ r with pendingBuf := r.pendingBuf + rqeNum g cqe.packetLen } : Rq) = q
    have hqc : q.ci = r.ci := by rw [← hq]
    have hqi : q.info = r.info := by rw [← hq]
    rcases createSkb_cases q (g := g) hfr hlen with he | ⟨hp, he⟩ | ⟨hp, he⟩
    · -- no head skb: the buffers go back to the pool
      rw [he]
      dsimp only
      rw [putFrags_eq _ _ (hqc ▸ h1.ci), ← hq]
      exact hput
    · -- a short packet was copied and its page put back
      rw [he]
      dsimp only
      rw [if_pos hok]
      have hone := rqeNum_small g hlen hp
      rw [hone] at hle hq ⊢
      refine h1.consume hle (fun x => by rw [hqi]) (by rw [← hq]) (by rw [hqc]) (by rw [← hq])
        (by rw [← hq]) fun id => ?_
      rw [posted_take hle, ← hq]
      have hnil : ∀ hd : Skb, hd.frags = [] → ({ head := hd } : Packet).pages = [] := fun hd hf => by
        simp [pages, frags, hf]
      simp only [flatMap_append, flatMap_cons, flatMap_nil, append_nil,
        count_append, hnil, range_one, map_cons, map_nil, slot, Nat.add_zero]
      omega
    -- the pages go with the packet
    rw [he]
    dsimp only
    rw [if_pos hok]
    have hpages := (addSkbFrags_pages (q.pullOffset g env.pullLen) (g := g) hfr hlen
      { linear := q.headBytes g env.pullLen, len := env.pullLen } rfl).2
    have hinfo : ∀ x, ((q.pullOffset g env.pullLen).info x).page = (r.info x).page := fun x => by
      rw [pullOffset_page, hqi]
    have hsame : ∀ o, (slot g (q.pullOffset g env.pullLen)
        ((q.pullOffset g env.pullLen).ci + o)).page = (slot g r (r.ci + o)).page := fun o => by
      unfold slot
      rw [hinfo, ← hqc]
      rfl
    have hpages' := hpages.trans (map_congr_left fun o _ => hsame o)
    have hst : (q.pullOffset g env.pullLen).stack = r.stack := by rw [← hq]; rfl
    have hre : (q.pullOffset g env.pullLen).returned = r.returned := by rw [← hq]; rfl
    refine h1.consume hle hinfo (by rw [← hq]; rfl) (by rw [← hqc]; rfl) (by rw [← hq]; rfl)
      (by rw [← hq]; rfl) fun id => ?_
    rw [posted_take hle, ← hpages', hst, hre]
    simp only [flatMap_append, flatMap_cons, flatMap_nil, append_nil, count_append]
    exact Nat.add_right_comm ..

def Hw (g : RqCfg) (rq : Rq) : RxAct → Prop
  | .rx _ cqe => Within g rq cqe
  | .clear cqe => Within g rq cqe
  | _ => True

/-- No packet is refused after its skb was built and no skb for a frag list is missing. -/
def Accepted (g : RqCfg) (rq : Rq) (a : RxAct) : Prop :=
  Hw g rq a ∧ match a with
    | .rx env cqe => Sound env cqe
    | _ => True

theorem Owned.act {a : RxAct} (h : Owned g rq) (ha : Accepted g rq a) : Owned g (rq.act g a) := by
  cases a with
  | rx env cqe => exact h.rx ha.1 ha.2
  | clear cqe => exact h.clear ha.1
  | refill ok => exact h.refill ok
  | free n => exact h.free n

theorem Owned.init (g : RqCfg) (mem : Nat → Nat → BitVec 8) : Owned g (Rq.init g mem) where
  ci := by
    show 0 < 65536
    decide
  pending := Nat.zero_le _
  pi := by
    have := depth_le g
    show g.depth = (0 + (g.depth - 0)) % 65536
    omega
  count id := by
    have hpost : (Rq.init g mem).posted g = List.range g.depth := by
      dsimp only [posted, Rq.init, slot]
      refine (map_congr_left fun o ho => ?_).trans (map_id _)
      have := mem_range.mp ho
      rw [Nat.zero_add, Nat.mod_eq_of_lt (by omega)]
      rfl
    rw [hpost, count_range]
    show (if id < g.depth then 1 else 0) + 0 + 0 = if id < g.depth then 1 else 0
    omega

/-- In every run whose packets pass all checks and whose frag lists find their skbs,
each page fragment ever taken from the pool is in exactly one place, once, and the
posted slots, as many as from `ci` to `pi`, hold live pages. -/
theorem pages_owned {mem : Nat → Nat → BitVec 8}
    (hs : Reach (Accepted g) (Rq.act g) (Rq.init g mem) rq) :
    (∀ id, id < rq.next → (rq.posted g).count id + (rq.stack.flatMap Packet.pages).count id +
      rq.returned.count id = 1) ∧
    (rq.pi + 65536 - rq.ci) % 65536 = (rq.posted g).length ∧
    ∀ id ∈ rq.posted g, id < rq.next ∧ id ∉ rq.returned ∧ id ∉ rq.stack.flatMap Packet.pages := by
  have h := hs.invariant (Owned.init g mem) fun s a h ha => h.act ha
  have hdep := depth_le g
  refine ⟨fun id hid => (h.count id).trans (if_pos hid), ?_, fun id hid => ?_⟩
  · have h1 := h.pi
    have h2 := h.ci
    rw [posted_length]
    omega
  · have hc := h.count id
    have hpos := count_pos_iff.mpr hid
    rw [← List.count_eq_zero, ← List.count_eq_zero]
    split at hc <;> omega

def two : RqCfg := ⟨1, 256, 17, by decide, by decide, by decide⟩

def calm : RxEnv := {}

def onePacket : List RxAct := [.rx calm { packetLen := 100, startRqeIdx := 0 }, .refill 1]

theorem onePacket_along :
    Reach.Along (Accepted two) (Rq.act two) (Rq.init two fun _ _ => 0) onePacket :=
  ⟨⟨⟨by decide, fun _ => by decide +kernel⟩, fun _ => ⟨rfl, fun _ => rfl⟩⟩, ⟨trivial, trivial⟩, trivial⟩

theorem pages_owned_onePacket :
    ((onePacket.foldl (Rq.act two) (Rq.init two fun _ _ => 0)).posted two).count 2 +
    ((onePacket.foldl (Rq.act two) (Rq.init two fun _ _ => 0)).stack.flatMap Packet.pages).count 2 +
    (onePacket.foldl (Rq.act two) (Rq.init two fun _ _ => 0)).returned.count 2 = 1 :=
  (pages_owned (Reach.init.along onePacket_along)).1 2 (by decide +kernel)

/-- A packet with `l2_err` whose page went back when it was copied: it is put back again. -/
theorem refused_returned_twice : ∃ rq, Reach (Hw two) (Rq.act two) (Rq.init two fun _ _ => 0) rq ∧
    rq.returned.count 0 = 2 :=
  ⟨[RxAct.rx calm { packetLen := 100, startRqeIdx := 0, l2Err := true }].foldl (Rq.act two)
      (Rq.init two fun _ _ => 0),
    Reach.init.along ⟨show Within _ _ _ from ⟨by decide, fun _ => by decide +kernel⟩, trivial⟩,
    by decide +kernel⟩

end Rq

end UbDkms.Unic
