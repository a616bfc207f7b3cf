import UbDkms.Unic.Tx

/-!
# Entries in the transmit ring

What the rings of blocks, sections and pages hold for an entry, at positions that do not
wrap, and that posting and reclaiming other entries leave it alone.
-/

namespace UbDkms.Unic

open Lib
open Function (update update_self update_of_ne)

namespace SqCfg

variable (g : SqCfg)

theorem depth_pos : 0 < g.depth := Nat.two_pow_pos _

theorem depth_le' : g.depth ≤ 32768 := Nat.pow_le_pow_right (n := 2) (by decide) g.depth_le

theorem depth_dvd : g.depth ∣ 65536 := pow_dvd_pow 2 (Nat.le_succ_of_le g.depth_le)

theorem mod_depth (b : Nat) : b % 65536 % g.depth = b % g.depth := Nat.mod_mod_of_dvd _ g.depth_dvd

theorem add_mod_depth (b k : Nat) : (b % 65536 + k) % g.depth = (b + k) % g.depth := by
  rw [← g.mod_depth, Nat.mod_add_mod, g.mod_depth]

end SqCfg

theorem sqebbCnt_pos (n : Nat) : 0 < sqebbCnt n := by
  unfold sqebbCnt
  omega

theorem le_sqebbCnt (n : Nat) : n + 2 ≤ 4 * sqebbCnt n := by
  unfold sqebbCnt
  omega

theorem sqebbCnt_mono {n m : Nat} (h : n ≤ m) : sqebbCnt n ≤ sqebbCnt m := by
  unfold sqebbCnt
  omega

namespace Sq

variable {g : SqCfg} {s s' : Sq} {e : TxEntry} {l : List TxEntry}

theorem used_add (b : Nat) {n : Nat} (hn : n < 65536) : used ((b + n) % 65536) (b % 65536) = n := by
  unfold used
  have := ring_add (x := b) (n := 65536) (j := n) (by decide) (by omega)
  split at this <;> split <;> omega

theorem ring_free {x o n p k : Nat} (ho : o < n) (hn : n ≤ p) (hp : p < k) : (x + o) % k ≠ (x + p) % k := by
  intro heq
  have := ring_inj (by omega) hp heq
  omega

variable (g) in
def secLen (skb : TxSkb) (n i : Nat) : Nat := if i + 1 < n then g.pageSize else skb.len - i * g.pageSize

/-- Sections from place `P` and pages from position `T` on were filled with the `n` parts of a
packet from part `i` on. -/
structure Filled (g : SqCfg) (skb : TxSkb) (n i P T : Nat) (s s' : Sq) : Prop where
  rest : s' = { s with mem := s'.mem, sge := s'.sge, txPi := (T + n) % 65536 }
  sge : ∀ j < n, s'.sge ((P + j) % (4 * g.depth)) = ((T + j) % g.pageNum, secLen g skb (i + n) (i + j))
  sge_other : ∀ a, (∀ j < n, a ≠ (P + j) % (4 * g.depth)) → s'.sge a = s.sge a
  mem : ∀ j < n, ∀ x < secLen g skb (i + n) (i + j),
    s'.mem ((T + j) % g.pageNum) x = skb.data ((i + j) * g.pageSize + x)
  mem_other : ∀ p, (∀ j < n, p ≠ (T + j) % g.pageNum) → s'.mem p = s.mem p

theorem handleSgeSection_filled (hd : g.pageNum ∣ 65536) (skb : TxSkb) (n i : Nat) {P T sqPi : Nat}
    (hP : sqPi % g.depth = P / 4 % g.depth) (hT : s.txPi = T % 65536) (hn : n ≤ 4 * g.depth)
    (hm : n ≤ g.pageNum) :
    Filled g skb n i P T s (handleSgeSection g skb n i (P % 4) sqPi s) := by
  induction n generalizing i P T sqPi s with
  | zero =>
    refine ⟨?_, by simp, fun _ _ => rfl, by simp, fun _ _ => rfl⟩
    rw [Nat.add_zero, ← hT]
    rfl
  | succ n ih =>
    have hplace : 4 * (sqPi % g.depth) + P % 4 = P % (4 * g.depth) := by
      rw [Nat.mod_mul, hP, Nat.add_comm]
    have hpage : s.txPi % g.pageNum = T % g.pageNum := by rw [hT, Nat.mod_mod_of_dvd _ hd]
    obtain ⟨s₁, hs₁⟩ : ∃ s₁ : Sq, s₁ = { s with
        mem := copy s.mem (T % g.pageNum) skb (i * g.pageSize) (secLen g skb (i + (n + 1)) i)
        sge := update s.sge (P % (4 * g.depth)) (T % g.pageNum, secLen g skb (i + (n + 1)) i)
        txPi := (T + 1) % 65536 } := ⟨_, rfl⟩
    -- The place after `P` is found in the same block or at the start of the next one.
    have hnext : ∃ sqPi', sqPi' % g.depth = (P + 1) / 4 % g.depth ∧
        handleSgeSection g skb (n + 1) i (P % 4) sqPi s =
          handleSgeSection g skb n (i + 1) ((P + 1) % 4) sqPi' s₁ := by
      have hlen : (if n ≠ 0 then g.pageSize else skb.len - i * g.pageSize) =
          secLen g skb (i + (n + 1)) i := by
        unfold secLen
        split <;> split <;> first | rfl | omega
      have htx : (s.txPi + 1) % 65536 = (T + 1) % 65536 := by rw [hT, Nat.mod_add_mod]
      rw [handleSgeSection]
      simp only [hplace, hpage, hlen, htx, ← hs₁]
      split
      next h4 =>
        refine ⟨(sqPi + 1) % 65536, ?_, by rw [show (P + 1) % 4 = 0 by omega]⟩
        rw [g.mod_depth, show (P + 1) / 4 = P / 4 + 1 by omega, Nat.add_mod, hP, ← Nat.add_mod]
      next h4 =>
        refine ⟨sqPi, ?_, by rw [show (P + 1) % 4 = P % 4 + 1 by omega]⟩
        rw [hP, show (P + 1) / 4 = P / 4 by omega]
    obtain ⟨sqPi', hP', heq⟩ := hnext
    rw [heq]
    have hf := ih (s := s₁) (i + 1) hP' (by rw [hs₁]) (by omega) (by omega)
    obtain ⟨s₂, hs₂⟩ : ∃ s₂, s₂ = handleSgeSection g skb n (i + 1) ((P + 1) % 4) sqPi' s₁ := ⟨_, rfl⟩
    rw [← hs₂] at hf ⊢
    have hin : i + 1 + n = i + (n + 1) := by omega
    have hsec : ∀ j < n, P % (4 * g.depth) ≠ (P + 1 + j) % (4 * g.depth) := by
      intro j hj
      rw [Nat.add_assoc]
      exact ring_free Nat.one_pos (Nat.le_add_right 1 j) (by omega)
    have hpg : ∀ j < n, T % g.pageNum ≠ (T + 1 + j) % g.pageNum := by
      intro j hj
      rw [Nat.add_assoc]
      exact ring_free Nat.one_pos (Nat.le_add_right 1 j) (by omega)
    refine ⟨?_, ?_, ?_, ?_, ?_⟩
    · rw [show T + (n + 1) = T + 1 + n by omega]
      exact hf.rest.trans (by rw [hs₁])
    · intro j hj
      cases j with
      | zero =>
        rw [Nat.add_zero, Nat.add_zero, Nat.add_zero, hf.sge_other _ hsec, hs₁]
        exact update_self ..
      | succ j =>
        have := hf.sge j (by omega)
        rwa [hin, Nat.add_assoc, Nat.add_comm 1 j, Nat.add_assoc, Nat.add_comm 1 j, Nat.add_assoc,
          Nat.add_comm 1 j] at this
    · intro a ha
      rw [hf.sge_other a fun j hj => ?_, hs₁]
      · exact update_of_ne (ha 0 (by omega)) _ _
      · have := ha (j + 1) (by omega)
        rwa [show P + (j + 1) = P + 1 + j by omega] at this
    · intro j hj x hx
      cases j with
      | zero =>
        rw [Nat.add_zero] at hx
        rw [Nat.add_zero, Nat.add_zero, hf.mem_other _ hpg, hs₁]
        exact if_pos ⟨rfl, hx⟩
      | succ j =>
        rw [show i + (j + 1) = i + 1 + j by omega, ← hin] at hx
        rw [show T + (j + 1) = T + 1 + j by omega, show i + (j + 1) = i + 1 + j by omega]
        exact hf.mem j (by omega) x hx
    · intro p hp
      rw [hf.mem_other p fun j hj => ?_, hs₁]
      · funext x
        exact if_neg fun h => hp 0 (by omega) h.1
      · have := hp (j + 1) (by omega)
        rwa [show T + (j + 1) = T + 1 + j by omega] at this

/-- What the rings hold for an entry at block position `b` and page position `t`. -/
structure Held (g : SqCfg) (s : Sq) (e : TxEntry) (b t : Nat) : Prop where
  start : e.start = b % 65536
  num : e.sgeNum = sgeNum g e.skb.len
  skb : s.skbs (b % g.depth) = some e.skb
  ctrl : s.ctrl (b % g.depth) = e.sgeNum
  sge : ∀ i < e.sgeNum,
    s.sge ((4 * b + 2 + i) % (4 * g.depth)) = ((t + i) % g.pageNum, secLen g e.skb e.sgeNum i)
  mem : ∀ i < e.sgeNum, ∀ x < secLen g e.skb e.sgeNum i,
    s.mem ((t + i) % g.pageNum) x = e.skb.data (i * g.pageSize + x)

/-- Two queues agree on `n` blocks from `b` and `m` pages from `t` on. -/
structure Same (g : SqCfg) (s s' : Sq) (b n t m : Nat) : Prop where
  skbs : ∀ o < n, s'.skbs ((b + o) % g.depth) = s.skbs ((b + o) % g.depth)
  ctrl : ∀ o < n, s'.ctrl ((b + o) % g.depth) = s.ctrl ((b + o) % g.depth)
  sge : ∀ o < 4 * n, s'.sge ((4 * b + o) % (4 * g.depth)) = s.sge ((4 * b + o) % (4 * g.depth))
  mem : ∀ o < m, s'.mem ((t + o) % g.pageNum) = s.mem ((t + o) % g.pageNum)

variable {b n t m : Nat}

theorem Same.left {n' m' : Nat} (h : Same g s s' b n t m) (hn : n' ≤ n) (hm : m' ≤ m) :
    Same g s s' b n' t m' where
  skbs o ho := h.skbs o (by omega)
  ctrl o ho := h.ctrl o (by omega)
  sge o ho := h.sge o (by omega)
  mem o ho := h.mem o (by omega)

theorem Same.right {c d : Nat} (h : Same g s s' b (c + n) t (d + m)) : Same g s s' (b + c) n (t + d) m where
  skbs o ho := by
    rw [Nat.add_assoc]
    exact h.skbs (c + o) (by omega)
  ctrl o ho := by
    rw [Nat.add_assoc]
    exact h.ctrl (c + o) (by omega)
  sge o ho := by
    rw [Nat.mul_add, Nat.add_assoc]
    exact h.sge (4 * c + o) (by omega)
  mem o ho := by
    rw [Nat.add_assoc]
    exact h.mem (d + o) (by omega)

theorem Held.same (h : Held g s e b t) (hs : Same g s s' b e.cnt t e.sgeNum) : Held g s' e b t where
  start := h.start
  num := h.num
  skb := (hs.skbs 0 (sqebbCnt_pos _)).trans h.skb
  ctrl := (hs.ctrl 0 (sqebbCnt_pos _)).trans h.ctrl
  sge i hi := by
    have := le_sqebbCnt e.sgeNum
    rw [Nat.add_assoc, hs.sge (2 + i) (by unfold TxEntry.cnt; omega), ← Nat.add_assoc]
    exact h.sge i hi
  mem i hi x hx := by
    rw [hs.mem i hi]
    exact h.mem i hi x hx

def blocks (l : List TxEntry) : Nat := (l.map (·.cnt)).sum

def pages (l : List TxEntry) : Nat := (l.map (·.sgeNum)).sum

@[simp] theorem blocks_cons : blocks (e :: l) = e.cnt + blocks l := by simp [blocks]

@[simp] theorem pages_cons : pages (e :: l) = e.sgeNum + pages l := by simp [pages]

@[simp] theorem blocks_push : blocks (l ++ [e]) = blocks l + e.cnt := by simp [blocks]

@[simp] theorem pages_push : pages (l ++ [e]) = pages l + e.sgeNum := by simp [pages]

/-- Entries one after the other from positions `b` and `t` on. -/
def Chain (g : SqCfg) (s : Sq) : Nat → Nat → List TxEntry → Prop
  | _, _, [] => True
  | b, t, e :: l => Held g s e b t ∧ Chain g s (b + e.cnt) (t + e.sgeNum) l

theorem Chain.same (h : Chain g s b t l) (hs : Same g s s' b (blocks l) t (pages l)) : Chain g s' b t l := by
  induction l generalizing b t with
  | nil => trivial
  | cons e l ih =>
    rw [blocks_cons, pages_cons] at hs
    exact ⟨h.1.same (hs.left (Nat.le_add_right _ _) (Nat.le_add_right _ _)), ih h.2 hs.right⟩

theorem Chain.push (h : Chain g s b t l) (he : Held g s e (b + blocks l) (t + pages l)) :
    Chain g s b t (l ++ [e]) := by
  induction l generalizing b t with
  | nil => exact ⟨he, trivial⟩
  | cons e' l ih =>
    rw [blocks_cons, pages_cons, ← Nat.add_assoc, ← Nat.add_assoc] at he
    exact ⟨h.1, ih h.2 he⟩

theorem not_cleared {c o : Nat} (b : Nat) (hc : 0 < c) (hco : c ≤ o) (ho : o < g.depth) :
    cleared g (b % g.depth) c ((b + o) % g.depth) = false := by
  have hlt := Nat.mod_lt b g.depth_pos
  have := ring_add (x := b) g.depth_pos (Nat.le_of_lt ho)
  unfold cleared
  split at this <;> split <;> simp only [decide_eq_false_iff_not] <;> omega

theorem section_block (b o : Nat) : (4 * b + o) % (4 * g.depth) / 4 = (b + o / 4) % g.depth := by
  rw [Nat.mod_mul, show (4 * b + o) / 4 = b + o / 4 by omega]
  omega

theorem reclaimSingleSqeSpace_same (b : Nat) (hc : s.ctrl (b % g.depth) = e.sgeNum)
    (hn : e.cnt + n ≤ g.depth) :
    Same g s (s.reclaimSingleSqeSpace g (b % 65536)) (b + e.cnt) n (t + e.sgeNum) m where
  skbs _ _ := rfl
  ctrl o ho := by
    show (if cleared g _ _ _ then 0 else s.ctrl _) = _
    rw [g.mod_depth, hc, Nat.add_assoc]
    have hlt : e.cnt + o < g.depth := by omega
    exact if_neg (by rw [not_cleared b (sqebbCnt_pos _) (Nat.le_add_right e.cnt o) hlt]; decide)
  sge o ho := by
    show (if cleared g _ _ _ then (0, 0) else s.sge _) = _
    rw [section_block, g.mod_depth, hc, Nat.add_assoc b]
    have hlt : e.cnt + o / 4 < g.depth := by omega
    exact if_neg (by rw [not_cleared b (sqebbCnt_pos _) (Nat.le_add_right e.cnt (o / 4)) hlt]; decide)
  mem _ _ := rfl

/-- The positions of a queue: `A` is where `ci` is, `h` blocks were reclaimed by the poll
in progress, and `T` is where the pages in use start. -/
structure Ring (g : SqCfg) (s : Sq) (A h T : Nat) : Prop where
  ci : s.ci = A % 65536
  poll : s.poll.getD s.ci = (A + h) % 65536
  idle : s.poll = none → h = 0
  pi : s.pi = (A + h + blocks s.outs) % 65536
  txCi : s.txCi = T % 65536
  txPi : s.txPi = (T + pages s.outs) % 65536
  blocks_le : h + blocks s.outs ≤ g.depth
  pages_le : pages s.outs ≤ g.pageNum
  chain : Chain g s (A + h) T s.outs

variable {A h T : Nat}

section

variable (r : Ring g s A h T)
include r

theorem Ring.used_eq : used s.pi s.ci = h + blocks s.outs := by
  have := g.depth_le'
  have := r.blocks_le
  rw [r.pi, r.ci, Nat.add_assoc]
  exact used_add A (by omega)

theorem Ring.used_page : used s.txPi s.txCi = pages s.outs := by
  have := g.num_lt
  have := r.pages_le
  rw [r.txPi, r.txCi]
  exact used_add T (by omega)

theorem Ring.spareSqebb : s.spareSqebb g + (h + blocks s.outs) = g.depth := by
  have := g.depth_le'
  have := r.blocks_le
  unfold Sq.spareSqebb
  rw [r.used_eq, show g.depth + 65536 - (h + blocks s.outs) = g.depth - (h + blocks s.outs) + 65536 by omega,
    Nat.add_mod_right, Nat.mod_eq_of_lt (by omega)]
  omega

theorem Ring.sparePage : s.sparePage g + pages s.outs = g.pageNum := by
  have := g.num_lt
  have := r.pages_le
  unfold Sq.sparePage
  rw [r.used_page, show g.pageNum + 65536 - pages s.outs = g.pageNum - pages s.outs + 65536 by omega,
    Nat.add_mod_right, Nat.mod_eq_of_lt (by omega)]
  omega

theorem Ring.same (hci : s'.ci = s.ci) (hpoll : s'.poll = s.poll) (hpi : s'.pi = s.pi)
    (htci : s'.txCi = s.txCi) (htpi : s'.txPi = s.txPi) (ho : s'.outs = s.outs)
    (hs : Same g s s' (A + h) (blocks s.outs) T (pages s.outs)) : Ring g s' A h T where
  ci := hci ▸ r.ci
  poll := by rw [hpoll, hci, r.poll]
  idle hp := r.idle (hpoll ▸ hp)
  pi := by rw [hpi, ho, r.pi]
  txCi := htci ▸ r.txCi
  txPi := by rw [htpi, ho, r.txPi]
  blocks_le := ho ▸ r.blocks_le
  pages_le := ho ▸ r.pages_le
  chain := ho ▸ r.chain.same hs

end

theorem Same.of_eq (hk : s'.skbs = s.skbs) (hc : s'.ctrl = s.ctrl) (hg : s'.sge = s.sge) (hm : s'.mem = s.mem) :
    Same g s s' b n t m where
  skbs _ _ := by rw [hk]
  ctrl _ _ := by rw [hc]
  sge _ _ := by rw [hg]
  mem _ _ := by rw [hm]

theorem Ring.reclaim (r : Ring g s A h T) (ho : s.outs = e :: l) (hpi : s'.pi = s.pi) (hci : s'.ci = s.ci)
    (htpi : s'.txPi = s.txPi) (htci : s'.txCi = (s.txCi + e.sgeNum) % 65536)
    (hpoll : s'.poll = some ((A + h + e.cnt) % 65536)) (ho' : s'.outs = l)
    (hs : Same g s s' (A + h + e.cnt) (blocks l) (T + e.sgeNum) (pages l)) :
    Ring g s' A (h + e.cnt) (T + e.sgeNum) where
  ci := hci ▸ r.ci
  poll := by rw [hpoll, Option.getD_some, Nat.add_assoc]
  idle hp := by simp [hpoll] at hp
  pi := by
    rw [hpi, r.pi, ho, ho', blocks_cons]
    congr 1
    omega
  txCi := by rw [htci, r.txCi, Nat.mod_add_mod]
  txPi := by
    rw [htpi, r.txPi, ho, ho', pages_cons]
    congr 1
    omega
  blocks_le := by
    have := r.blocks_le
    rw [ho, blocks_cons] at this
    rw [ho']
    omega
  pages_le := by
    have := r.pages_le
    rw [ho, pages_cons] at this
    rw [ho']
    omega
  chain := by
    have := r.chain
    rw [ho] at this
    rw [ho', ← Nat.add_assoc]
    exact this.2.same hs

/-- An entry of `k` sections was posted at block position `B` and page position `T`. -/
structure Posted (g : SqCfg) (skb : TxSkb) (k B T : Nat) (s s' : Sq) : Prop where
  pi : s'.pi = (B + sqebbCnt k) % 65536
  ci : s'.ci = s.ci
  poll : s'.poll = s.poll
  txPi : s'.txPi = (T + k) % 65536
  txCi : s'.txCi = s.txCi
  outs : s'.outs = s.outs ++ [{ start := B % 65536, skb, sgeNum := k }]
  skbs : s'.skbs = update s.skbs (B % g.depth) (some skb)
  ctrl : s'.ctrl = update s.ctrl (B % g.depth) k
  sge : ∀ j < k, s'.sge ((4 * B + 2 + j) % (4 * g.depth)) = ((T + j) % g.pageNum, secLen g skb k j)
  sge_other : ∀ a, (∀ j < k, a ≠ (4 * B + 2 + j) % (4 * g.depth)) → s'.sge a = s.sge a
  mem : ∀ j < k, ∀ x < secLen g skb k j, s'.mem ((T + j) % g.pageNum) x = skb.data (j * g.pageSize + x)
  mem_other : ∀ p, (∀ j < k, p ≠ (T + j) % g.pageNum) → s'.mem p = s.mem p

theorem post_posted (hd : g.pageNum ∣ 65536) (skb : TxSkb) {k B T : Nat} (hk : k = sgeNum g skb.len)
    (hpi : s.pi = B % 65536) (hT : s.txPi = T % 65536) (hn : k ≤ 4 * g.depth) (hm : k ≤ g.pageNum) :
    Posted g skb k B T s (s.post g skb) := by
  obtain ⟨s₁, hs₁⟩ : ∃ s₁ : Sq, s₁ = { s with ctrl := update s.ctrl (B % g.depth) k } := ⟨_, rfl⟩
  obtain ⟨s₂, hs₂⟩ : ∃ s₂, s₂ = handleSgeSection g skb k 0 2 s₁.pi s₁ := ⟨_, rfl⟩
  have hpid : s.pi % g.depth = B % g.depth := by rw [hpi, g.mod_depth]
  have hf : Filled g skb k 0 (4 * B + 2) T s₁ s₂ := by
    have hP : s₁.pi % g.depth = (4 * B + 2) / 4 % g.depth := by
      rw [hs₁, show (4 * B + 2) / 4 = B by omega]
      exact hpid
    have := handleSgeSection_filled (s := s₁) hd skb k 0 hP (by rw [hs₁, hT]) hn hm
    rwa [show (4 * B + 2) % 4 = 2 by omega, ← hs₂] at this
  have hpost : s.post g skb = { s₂ with
      skbs := update s₂.skbs (s₂.pi % g.depth) (some skb)
      pi := (s₂.pi + sqebbCnt k) % 65536
      outs := s₂.outs ++ [{ start := s₂.pi, skb, sgeNum := k }]
      accepted := s₂.accepted ++ [skb.id]
      completed := if s₂.flush = .no then s₂.completed else s₂.completed ++ [skb.id] } := by
    rw [hs₂, hs₁, hk, ← hpid]
    rfl
  have hrest := hf.rest
  rw [hs₁] at hrest
  have h2pi : s₂.pi = s.pi := by rw [hrest]
  have h2outs : s₂.outs = s.outs := by rw [hrest]
  have h2skbs : s₂.skbs = s.skbs := by rw [hrest]
  have hsge := hf.sge
  have hmem := hf.mem
  simp only [Nat.zero_add] at hsge hmem
  rw [hpost]
  refine ⟨?_, by rw [hrest], by rw [hrest], by rw [hrest], by rw [hrest], ?_, ?_, by rw [hrest], hsge, ?_, hmem, ?_⟩
  · rw [h2pi, hpi, Nat.mod_add_mod]
  · rw [h2outs, h2pi, hpi]
  · rw [h2pi, hpid, h2skbs]
  · intro a ha
    rw [hf.sge_other a ha, hs₁]
  · intro p hp
    rw [hf.mem_other p hp, hs₁]

theorem Posted.same {skb : TxSkb} {k : Nat} (hs : Posted g skb k (b + n) (t + m) s s') (hn : n < g.depth)
    (hk : 4 * n + 2 + k ≤ 4 * g.depth) (hm : m + k ≤ g.pageNum) : Same g s s' b n t m where
  skbs o ho := by
    rw [hs.skbs, update_of_ne]
    exact ring_free ho le_rfl hn
  ctrl o ho := by
    rw [hs.ctrl, update_of_ne]
    exact ring_free ho le_rfl hn
  sge o ho := by
    refine hs.sge_other _ fun j hj => ?_
    rw [show 4 * (b + n) + 2 + j = 4 * b + (4 * n + 2 + j) by omega]
    exact ring_free ho (by omega) (by omega)
  mem o ho := by
    refine hs.mem_other _ fun j hj => ?_
    rw [Nat.add_assoc]
    exact ring_free ho (by omega) (by omega)

theorem Posted.held {skb : TxSkb} {k : Nat} (hs : Posted g skb k b t s s') (hk : k = sgeNum g skb.len) :
    Held g s' { start := b % 65536, skb, sgeNum := k } b t where
  start := rfl
  num := hk
  skb := by rw [hs.skbs, update_self]
  ctrl := by rw [hs.ctrl, update_self]
  sge := hs.sge
  mem := hs.mem

theorem Ring.post (r : Ring g s A h T) (hd : g.pageNum ∣ 65536) (skb : TxSkb)
    (hb : sqebbCnt (sgeNum g skb.len) ≤ s.spareSqebb g) (hp : sgeNum g skb.len ≤ s.sparePage g) :
    Ring g (s.post g skb) A h T := by
  obtain ⟨k, hk⟩ : ∃ k, k = sgeNum g skb.len := ⟨_, rfl⟩
  rw [← hk] at hb hp
  have hb' := r.spareSqebb
  have hp' := r.sparePage
  have hcnt := le_sqebbCnt k
  have hs : Posted g skb k (A + h + blocks s.outs) (T + pages s.outs) s (s.post g skb) :=
    post_posted hd skb hk r.pi r.txPi (by omega) (by omega)
  have hsame : Same g s (s.post g skb) (A + h) (blocks s.outs) T (pages s.outs) :=
    hs.same (by omega) (by omega) (by omega)
  refine ⟨hs.ci.trans r.ci, ?_, ?_, ?_, hs.txCi.trans r.txCi, ?_, ?_, ?_, ?_⟩
  · rw [hs.poll, hs.ci, r.poll]
  · exact fun hn => r.idle (hs.poll ▸ hn)
  · rw [hs.outs, blocks_push, hs.pi, ← Nat.add_assoc]
    rfl
  · rw [hs.outs, pages_push, hs.txPi, ← Nat.add_assoc]
  · rw [hs.outs, blocks_push]
    show h + (blocks s.outs + sqebbCnt k) ≤ g.depth
    omega
  · rw [hs.outs, pages_push]
    show pages s.outs + k ≤ g.pageNum
    omega
  · rw [hs.outs]
    exact (r.chain.same hsame).push (hs.held hk)

end Sq

end UbDkms.Unic
