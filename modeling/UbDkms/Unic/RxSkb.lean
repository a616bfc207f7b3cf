import UbDkms.Lib.Parts
import UbDkms.Unic.RxPages

/-!
# Packets as the hardware wrote them

A packet the stack gets holds the first `packet_len` bytes of the buffers from
`start_rqe_idx` on, its lengths agree with its parts, and `pi` stays `depth` slots
ahead of the oldest slot to refill.
-/

namespace UbDkms.Unic

open Lib List

def Frag.bytes (mem : Nat → Nat → BitVec 8) (f : Frag) : List (BitVec 8) :=
  (List.range f.size).map fun x => mem f.page (f.offset + x)

def Skb.bytes (mem : Nat → Nat → BitVec 8) (s : Skb) : List (BitVec 8) :=
  s.linear ++ s.frags.flatMap (Frag.bytes mem)

/-- The linear part, the frags, then the skbs of the frag list in order. -/
def Packet.bytes (mem : Nat → Nat → BitVec 8) (k : Packet) : List (BitVec 8) :=
  k.head.bytes mem ++ k.fragList.reverse.flatMap (Skb.bytes mem)

def Skb.fragsLen (s : Skb) : Nat := (s.frags.map (·.size)).sum

structure Packet.Sized (k : Packet) : Prop where
  dataLen : k.head.dataLen = (k.frags.map (·.size)).sum
  len : k.head.len = k.head.linear.length + k.head.dataLen
  rest : ∀ s ∈ k.fragList, s.linear = [] ∧ s.len = s.fragsLen ∧ s.dataLen = s.fragsLen

namespace Packet

variable {k : Packet} {mem : Nat → Nat → BitVec 8}

theorem Sized.bytes_eq (h : k.Sized) : k.bytes mem = k.head.linear ++ k.frags.flatMap (Frag.bytes mem) := by
  have hrest : ∀ l : List Skb, (∀ s ∈ l, s.linear = []) →
      l.flatMap (Skb.bytes mem) = (l.flatMap (·.frags)).flatMap (Frag.bytes mem) := fun l hl => by
    induction l with
    | nil => rfl
    | cons s l ih =>
      rw [flatMap_cons, flatMap_cons, flatMap_append,
        ih fun t ht => hl t (mem_cons_of_mem _ ht)]
      congr 1
      unfold Skb.bytes
      rw [hl s mem_cons_self, nil_append]
  unfold Packet.bytes Packet.frags Skb.bytes
  rw [append_assoc, flatMap_append]
  congr 2
  exact hrest _ fun s hs => (h.rest s (mem_reverse.mp hs)).1

theorem Frag.bytes_length (f : Frag) : (f.bytes mem).length = f.size := by
  simp [Frag.bytes]

theorem Sized.bytes_length (h : k.Sized) (mem : Nat → Nat → BitVec 8) : (k.bytes mem).length = k.head.len := by
  rw [h.bytes_eq, length_append, h.len, h.dataLen, length_flatMap]
  simp only [Frag.bytes_length]

theorem Sized.newSkb (h : k.Sized) : ({ k with fragList := {} :: k.fragList } : Packet).Sized where
  dataLen := by rw [newSkb_frags]; exact h.dataLen
  len := h.len
  rest s hs := by
    rcases mem_cons.mp hs with rfl | hs
    · exact ⟨rfl, rfl, rfl⟩
    · exact h.rest s hs

theorem Sized.addFrag (h : k.Sized) (i : RqeInfo) (size : Nat) : (k.addFrag i size).Sized := by
  have hd := h.dataLen
  have hl := h.len
  have hf := addFrag_frags k i size
  have hsum : ((k.addFrag i size).frags.map (·.size)).sum = k.head.dataLen + size := by
    rw [hf, hd]
    simp [fragOf]
  refine ⟨?_, ?_, ?_⟩
  · rw [hsum]
    unfold Packet.addFrag
    split <;> rfl
  · unfold Packet.addFrag
    split
    · show k.head.len + size = k.head.linear.length + (k.head.dataLen + size)
      omega
    · show k.head.len + size = k.head.linear.length + (k.head.dataLen + size)
      omega
  · unfold Packet.addFrag
    split
    · exact h.rest
    next s l he =>
    intro t ht
    rcases mem_cons.mp ht with rfl | ht
    · obtain ⟨h1, h2, h3⟩ := h.rest s (he ▸ mem_cons_self)
      refine ⟨h1, ?_, ?_⟩
      · show s.len + size = Skb.fragsLen _
        rw [h2]
        simp [Skb.fragsLen, Skb.fillFrag]
      · show s.dataLen + size = Skb.fragsLen _
        rw [h3]
        simp [Skb.fragsLen, Skb.fillFrag]
    · exact h.rest t (he ▸ mem_cons_of_mem _ ht)

theorem addFrag_linear (k : Packet) (i : RqeInfo) (size : Nat) :
    (k.addFrag i size).head.linear = k.head.linear := by
  unfold Packet.addFrag
  split <;> rfl

end Packet

namespace Rq

variable {g : RqCfg} {rq : Rq} {env : RxEnv}

theorem addFragsLoop_sized (rq : Rq) (env : RxEnv) (n i fragIndex pktLen : Nat) (k : Packet) (h : k.Sized) :
    (rq.addFragsLoop g env n i fragIndex pktLen k).1.Sized ∧
    (rq.addFragsLoop g env n i fragIndex pktLen k).1.head.linear = k.head.linear := by
  induction n generalizing i fragIndex pktLen k with
  | zero => exact ⟨h, rfl⟩
  | succ n ih =>
    unfold addFragsLoop
    split
    · exact ⟨h, rfl⟩
    generalize hk : (if g.maxSkbFrags ≤ fragIndex then { k with fragList := {} :: k.fragList }
      else k) = k₁
    have hk₁ : k₁.Sized ∧ k₁.head = k.head := by
      rw [← hk]
      split
      · exact ⟨h.newSkb, rfl⟩
      · exact ⟨h, rfl⟩
    obtain ⟨h1, h2⟩ := ih (i + 1) ((if g.maxSkbFrags ≤ fragIndex then 0 else fragIndex) + 1)
      (pktLen - g.buffLen)
      (k₁.addFrag (rq.slot g (rq.ci + i)) (if n ≠ 0 then g.buffLen else pktLen - g.buffLen))
      (hk₁.1.addFrag _ _)
    refine ⟨h1, h2.trans ?_⟩
    rw [Packet.addFrag_linear, hk₁.2]

def byteAt (g : RqCfg) (rq : Rq) (x : Nat) : BitVec 8 :=
  let i := rq.slot g (rq.ci + x / g.buffLen)
  rq.mem i.page (i.pageOffset + x % g.buffLen)

theorem byteAt_mul_add (rq : Rq) {t x : Nat} (hx : x < g.buffLen) :
    rq.byteAt g (t * g.buffLen + x) = rq.mem (rq.slot g (rq.ci + t)).page
      ((rq.slot g (rq.ci + t)).pageOffset + x) := by
  have hb := g.buff_ge
  unfold byteAt
  rw [Nat.mul_comm, Nat.mul_add_div (by omega), Nat.mul_add_mod, Nat.div_eq_of_lt hx,
    Nat.mod_eq_of_lt hx, Nat.add_zero]

theorem fragOf_bytes (rq : Rq) {t size : Nat} (hs : size ≤ g.buffLen) :
    (fragOf (rq.slot g (rq.ci + t)) size).bytes rq.mem =
      (List.range size).map fun x => rq.byteAt g (t * g.buffLen + x) := by
  refine map_congr_left fun x hx => ?_
  have hx : x < size := mem_range.mp hx
  rw [byteAt_mul_add rq (by omega)]
  rfl

theorem pullOffset_slot (rq : Rq) (n : Nat) : (rq.pullOffset g n).slot g rq.ci =
    { rq.slot g rq.ci with pageOffset := (rq.slot g rq.ci).pageOffset + n } := by
  unfold pullOffset slot
  simp

theorem pullOffset_slot_ne (rq : Rq) (n : Nat) {o : Nat} (h1 : 1 ≤ o) (h2 : o < g.depth) :
    (rq.pullOffset g n).slot g (rq.ci + o) = rq.slot g (rq.ci + o) := by
  have hne : (rq.ci + o) % g.depth ≠ rq.ci % g.depth := fun he => by
    have := ring_inj h2 (depth_pos g) he
    omega
  exact Function.update_of_ne hne _ _

theorem rqeNum_spec (g : RqCfg) {p : Nat} (h : 1 ≤ p) : ∃ m r, rqeNum g p = m + 1 ∧
    p = m * g.buffLen + r ∧ 1 ≤ r ∧ r ≤ g.buffLen := by
  have hb := g.buff_ge
  exact ceil_parts (by omega) h

theorem addSkbFrags_bytes (rq : Rq) (hf : ∀ i, env.fragFails i = false) {p : Nat} (hp : 256 < p)
    (hn : rqeNum g p ≤ g.depth) :
    let k := ((rq.pullOffset g env.pullLen).addSkbFrags g env p
      { linear := rq.headBytes g env.pullLen, len := env.pullLen }).1
    k.Sized ∧ k.bytes rq.mem = (List.range p).map (rq.byteAt g) := by
  have hb := g.buff_ge
  have hpull := env.pull_le
  obtain ⟨m, r, hnum, hpr, hr1, hr2⟩ := rqeNum_spec g (show 1 ≤ p by omega)
  dsimp only [addSkbFrags]
  rw [hnum, Nat.add_sub_cancel]
  generalize hsz : (if m + 1 = 1 then p else g.buffLen) = size₀
  have hsize : env.pullLen ≤ size₀ ∧ size₀ ≤ g.buffLen := by
    rcases Nat.eq_zero_or_pos m with rfl | hm
    · rw [if_pos rfl] at hsz
      omega
    · rw [if_neg (by omega)] at hsz
      omega
  have hci : (rq.pullOffset g env.pullLen).ci = rq.ci := rfl
  rw [hci, pullOffset_slot]
  generalize hk : Packet.mk (Skb.fillFrag ⟨rq.headBytes g env.pullLen, env.pullLen, 0, []⟩
    ⟨(rq.slot g rq.ci).page, (rq.slot g rq.ci).pageOffset + env.pullLen⟩ (size₀ - env.pullLen)) [] = k₀
  have hk₀ : k₀.Sized := by
    rw [← hk]
    refine ⟨?_, ?_, nofun⟩
    · simp [Packet.frags, Skb.fillFrag]
    · simp [Skb.fillFrag, headBytes]
  obtain ⟨h1, h2⟩ := addFragsLoop_sized (rq.pullOffset g env.pullLen) env m 1 1 p k₀ hk₀
  obtain ⟨-, h3⟩ := addFragsLoop_frags (rq.pullOffset g env.pullLen) hf 1 1 p k₀
  refine ⟨h1, ?_⟩
  rw [h1.bytes_eq, h2, h3, flatMap_append, ← append_assoc]
  -- the linear part and the first fragment are the first buffer
  have hfirst : k₀.head.linear ++ k₀.frags.flatMap (Frag.bytes rq.mem) =
      (List.range size₀).map (rq.byteAt g) := by
    have hlin : k₀.head.linear = (List.range env.pullLen).map (rq.byteAt g) := by
      rw [← hk]
      refine map_congr_left fun x hx => ?_
      have hx := mem_range.mp hx
      have := byteAt_mul_add (g := g) rq (t := 0) (show x < g.buffLen by omega)
      rw [Nat.zero_mul, Nat.zero_add, Nat.add_zero] at this
      exact this.symm
    have hfr : k₀.frags.flatMap (Frag.bytes rq.mem) =
        (List.range (size₀ - env.pullLen)).map fun x => rq.byteAt g (env.pullLen + x) := by
      rw [← hk]
      simp only [Packet.frags, Skb.fillFrag, nil_append, reverse_nil, flatMap_nil,
        append_nil, flatMap_cons]
      refine map_congr_left fun x hx => ?_
      have hx : x < size₀ - env.pullLen := mem_range.mp hx
      have := byteAt_mul_add (g := g) rq (t := 0) (show env.pullLen + x < g.buffLen by omega)
      rw [Nat.zero_mul, Nat.zero_add, Nat.add_zero, ← Nat.add_assoc] at this
      exact this.symm
    rw [hlin, hfr, show size₀ = env.pullLen + (size₀ - env.pullLen) by omega, range_add,
      map_append, map_map, Nat.add_sub_cancel_left]
    rfl
  rw [hfirst]
  -- the other fragments are the other buffers
  have hrest : ((List.range m).map fun t => fragOf ((rq.pullOffset g env.pullLen).slot g (rq.ci + 1 + t))
      (if t + 1 < m then g.buffLen else p - m * g.buffLen)).flatMap (Frag.bytes rq.mem) =
      (List.range m).flatMap fun t => (List.range (if t + 1 < m then g.buffLen else r)).map
        fun x => rq.byteAt g ((t + 1) * g.buffLen + x) := by
    rw [flatMap_map]
    refine flatMap_congr fun t ht => ?_
    have ht := mem_range.mp ht
    rw [Nat.add_assoc, Nat.add_comm 1 t, pullOffset_slot_ne rq _ (by omega) (by omega),
      show p - m * g.buffLen = r by omega, fragOf_bytes rq (by split <;> omega)]
  rw [hci, hrest, hpr]
  cases m with
  | zero =>
    rw [if_pos rfl] at hsz
    rw [← hsz, hpr]
    simp
  | succ m =>
    rw [if_neg (by omega)] at hsz
    rw [← hsz]
    exact range_parts_head _ _ _ _

theorem createSkb_faithful (rq : Rq) (hh : env.headFails = false) (hf : ∀ i, env.fragFails i = false)
    {p : Nat} (hp : 1 ≤ p) (hn : rqeNum g p ≤ g.depth) :
    ∃ k, (rq.createSkb g env p).2 = some k ∧ k.Sized ∧ k.bytes rq.mem = (List.range p).map (rq.byteAt g) := by
  have hb := g.buff_ge
  rcases createSkb_cases rq hf hp with he | ⟨hle, he⟩ | ⟨hlt, he⟩
  · -- only a missing head returns nothing here
    unfold createSkb at he
    rw [if_neg (by simp [hh])] at he
    split at he
    · cases congrArg Prod.snd he
    have hadd := (addSkbFrags_pages (rq.pullOffset g env.pullLen) (g := g) hf hp
      { linear := rq.headBytes g env.pullLen, len := env.pullLen } rfl).1
    dsimp only at he
    split at he
    · next hk => rw [hk] at hadd; cases hadd
    · cases congrArg Prod.snd he
  · rw [he]
    refine ⟨_, rfl, ⟨rfl, by simp [headBytes], nofun⟩, ?_⟩
    simp only [Packet.bytes, Skb.bytes, flatMap_nil, reverse_nil, append_nil]
    refine map_congr_left fun x hx => ?_
    have hx := mem_range.mp hx
    have := byteAt_mul_add rq (t := 0) (show x < g.buffLen by omega)
    rw [Nat.zero_mul, Nat.zero_add, Nat.add_zero] at this
    exact this.symm
  · rw [he]
    exact ⟨_, rfl, addSkbFrags_bytes rq hf hlt hn⟩

structure Ringed (g : RqCfg) (rq : Rq) : Prop where
  ci : rq.ci < 65536
  pending : rq.pendingBuf ≤ g.depth
  pi : rq.pi = (rq.ci + (g.depth - rq.pendingBuf)) % 65536

theorem Ringed.consume {rq' : Rq} {n : Nat} (h : Ringed g rq) (hn : rq.pendingBuf + n ≤ g.depth)
    (hpi : rq'.pi = rq.pi) (hci : rq'.ci = (rq.ci + n) % 65536)
    (hp : rq'.pendingBuf = rq.pendingBuf + n) : Ringed g rq' where
  ci := by rw [hci]; exact Nat.mod_lt _ (by decide)
  pending := by omega
  pi := by
    rw [hpi, h.pi, hci, hp, Nat.mod_add_mod]
    congr 1
    omega

theorem Ringed.fixRqCi {cqe : Cqe} (h : Ringed g rq) (hw : Within g rq cqe) (hd : cqe.doi = false) :
    Ringed g (rq.fixRqCi g cqe) ∧ (rq.fixRqCi g cqe).ci = cqe.startRqeIdx ∧
      (rq.fixRqCi g cqe).pendingBuf + rqeNum g cqe.packetLen ≤ g.depth ∧
      (rq.fixRqCi g cqe).info = rq.info ∧ (rq.fixRqCi g cqe).mem = rq.mem := by
  obtain ⟨n, hn, hstart, heq⟩ := fixRqCi_eq h.ci h.pending hw hd
  rw [heq]
  exact ⟨h.consume (by omega) rfl hstart.symm rfl, rfl, hn, rfl, rfl⟩

theorem createSkb_ring (rq : Rq) (env : RxEnv) (p : Nat) : (rq.createSkb g env p).1.ci = rq.ci ∧
    (rq.createSkb g env p).1.pi = rq.pi ∧ (rq.createSkb g env p).1.pendingBuf = rq.pendingBuf := by
  unfold createSkb
  split
  · exact ⟨rfl, rfl, rfl⟩
  split
  · exact ⟨rfl, rfl, rfl⟩
  · dsimp only
    split <;> exact ⟨rfl, rfl, rfl⟩

theorem Ringed.rx {cqe : Cqe} (h : Ringed g rq) (hw : Within g rq cqe) : Ringed g (rq.rx g env cqe) := by
  have hdep := depth_le g
  unfold Rq.rx rxConstructSkb
  cases hd : cqe.doi with
  | true => exact h
  | false =>
    obtain ⟨h1, -, h3, -, -⟩ := h.fixRqCi hw hd
    rw [if_neg (by simp)]
    generalize rq.fixRqCi g cqe = r at h1 h3 ⊢
    dsimp only
    rw [Nat.mod_eq_of_lt (show r.pendingBuf + rqeNum g cqe.packetLen < 65536 by omega)]
    obtain ⟨hc, hp, hb⟩ := createSkb_ring
      { r with pendingBuf := r.pendingBuf + rqeNum g cqe.packetLen } env cqe.packetLen
    generalize ({ r with pendingBuf := r.pendingBuf + rqeNum g cqe.packetLen } : Rq).createSkb g env
      cqe.packetLen = q at hc hp hb ⊢
    obtain ⟨q, _ | k⟩ := q
    · dsimp only at hc hp hb ⊢
      rw [putFrags_eq _ _ (by rw [hc]; exact h1.ci)]
      exact h1.consume h3 hp (by rw [← hc]) hb
    dsimp only at hc hp hb ⊢
    by_cases hk : handleCqe cqe = true
    · rw [if_pos hk]
      exact h1.consume h3 hp (by rw [← hc]) hb
    rw [if_neg hk]
    rw [putFrags_eq _ _ (by rw [hc]; exact h1.ci)]
    exact h1.consume h3 hp (by rw [← hc]) hb

theorem Ringed.clear {cqe : Cqe} (h : Ringed g rq) (hw : Within g rq cqe) :
    Ringed g (rq.clearRqBuffers g cqe) := by
  have hdep := depth_le g
  unfold clearRqBuffers
  cases hd : cqe.doi with
  | true => exact h
  | false =>
    obtain ⟨h1, -, h3, -, -⟩ := h.fixRqCi hw hd
    rw [if_neg (by simp)]
    dsimp only
    rw [putFrags_eq _ _ h1.ci]
    have hmod := Nat.mod_eq_of_lt (show (rq.fixRqCi g cqe).pendingBuf + rqeNum g cqe.packetLen < 65536 by omega)
    exact h1.consume h3 rfl rfl hmod

theorem refillLoop_ring (rq : Rq) (n i ok : Nat) (hpi : rq.pi < 65536) : ∃ m ≤ n,
    (rq.refillLoop g n i ok).2 = i + m ∧ (rq.refillLoop g n i ok).1.ci = rq.ci ∧
    (rq.refillLoop g n i ok).1.pendingBuf = rq.pendingBuf ∧
    (rq.refillLoop g n i ok).1.pi = (rq.pi + m) % 65536 := by
  induction n generalizing rq i ok with
  | zero => exact ⟨0, le_rfl, rfl, rfl, rfl, (Nat.mod_eq_of_lt hpi).symm⟩
  | succ n ih =>
    cases ok with
    | zero => exact ⟨0, Nat.zero_le _, rfl, rfl, rfl, (Nat.mod_eq_of_lt hpi).symm⟩
    | succ ok =>
      unfold refillLoop
      obtain ⟨m, hm, h1, h2, h3, h4⟩ := ih { rq with
        info := Function.update rq.info (i % g.depth) { page := rq.next, pageOffset := 0 }
        next := rq.next + 1
        pi := (rq.pi + 1) % 65536 } (i + 1) ok (Nat.mod_lt _ (by decide))
      refine ⟨m + 1, by omega, by omega, h2, h3, h4.trans ?_⟩
      rw [Nat.mod_add_mod]
      congr 1
      omega

theorem Ringed.refill (h : Ringed g rq) (ok : Nat) : Ringed g (rq.refillRxBuffers g ok) := by
  have hci := h.ci
  have hpend := h.pending
  have hpi := h.pi
  have hdep := depth_le g
  dsimp only [refillRxBuffers]
  generalize hr : (if rq.ci < rq.pendingBuf then rq.ci + 65536 else rq.ci) = rqCi
  have hle : rq.pendingBuf ≤ rqCi := by split at hr <;> omega
  obtain ⟨m, hm, h1, h2, h3, h4⟩ := refillLoop_ring rq rq.pendingBuf (rqCi - rq.pendingBuf) ok
    (by rw [hpi]; exact Nat.mod_lt _ (by decide))
  generalize rq.refillLoop g rq.pendingBuf (rqCi - rq.pendingBuf) ok = r at h1 h2 h3 h4 ⊢
  rw [h1]
  split
  · refine ⟨h2 ▸ hci, ?_, ?_⟩
    · dsimp only
      omega
    · dsimp only
      rw [h4, hpi, h2, Nat.mod_add_mod]
      congr 1
      omega
  refine ⟨h2 ▸ hci, h3 ▸ hpend, ?_⟩
  rw [h4, hpi, h2, h3, Nat.mod_add_mod]
  congr 1
  omega

theorem Ringed.act {a : RxAct} (h : Ringed g rq) (ha : Hw g rq a) : Ringed g (rq.act g a) := by
  cases a with
  | rx env cqe => exact h.rx ha
  | clear cqe => exact h.clear ha
  | refill ok => exact h.refill ok
  | free n =>
    show Ringed g (rq.freeSkb n)
    unfold freeSkb
    split
    · exact h
    · exact ⟨h.ci, h.pending, h.pi⟩

/-- In every run `pi` is `depth` slots ahead of the oldest slot to refill, and a packet
without error flags, when both allocations succeed, has the lengths of its parts, which
are in order the first `packet_len` bytes of the buffers from `start_rqe_idx` on. -/
theorem rxConstructSkb_faithful {mem : Nat → Nat → BitVec 8} (env : RxEnv) (cqe : Cqe)
    (hs : Reach (Hw g) (Rq.act g) (Rq.init g mem) rq) :
    rq.pi = (rq.ci + 65536 - rq.pendingBuf + g.depth) % 65536 ∧
    (Within g rq cqe → cqe.doi = false → cqe.l2Err = false → cqe.trunc = false → 1 ≤ cqe.packetLen →
      env.headFails = false → (∀ i, env.fragFails i = false) →
      ∃ k, (rq.rxConstructSkb g env cqe).2 = some k ∧ k.head.len = cqe.packetLen ∧
        k.bytes rq.mem = ((List.range cqe.packetLen).map fun x =>
          let i := rq.slot g (cqe.startRqeIdx + x / g.buffLen)
          rq.mem i.page (i.pageOffset + x % g.buffLen)) ∧ k.Sized) := by
  have h : Ringed g rq := hs.invariant
    ⟨by show 0 < 65536; decide, Nat.zero_le _, by
      have := depth_le g
      show g.depth = (0 + (g.depth - 0)) % 65536
      omega⟩ fun s a h ha => h.act ha
  have hdep := depth_le g
  refine ⟨?_, fun hw hd hl ht hp hh hf => ?_⟩
  · have h1 := h.pi
    have h2 := h.ci
    have h3 := h.pending
    omega
  obtain ⟨-, h2, h3, h4, h5⟩ := h.fixRqCi hw hd
  unfold rxConstructSkb
  rw [if_neg (by simp [hd])]
  generalize rq.fixRqCi g cqe = r at h2 h3 h4 h5 ⊢
  dsimp only
  obtain ⟨k, hk, hsz, hby⟩ := createSkb_faithful (g := g)
    { r with pendingBuf := (r.pendingBuf + rqeNum g cqe.packetLen) % 65536 } hh hf hp (by omega)
  have hok : handleCqe cqe := by
    unfold handleCqe
    simp only [hl, ht, Bool.or_false, Bool.not_eq_true', beq_eq_false_iff_ne]
    omega
  have hby' : k.bytes rq.mem = (List.range cqe.packetLen).map fun x =>
      let i := rq.slot g (cqe.startRqeIdx + x / g.buffLen)
      rq.mem i.page (i.pageOffset + x % g.buffLen) := by
    rw [← h5]
    refine hby.trans (map_congr_left fun x _ => ?_)
    dsimp only [byteAt, slot]
    rw [h2, h4]
  generalize ({ r with pendingBuf := (r.pendingBuf + rqeNum g cqe.packetLen) % 65536 } : Rq).createSkb g
    env cqe.packetLen = q at hk ⊢
  obtain ⟨q, _ | k'⟩ := q
  · cases hk
  · cases hk
    dsimp only
    rw [if_pos hok]
    refine ⟨k, rfl, ?_, hby', hsz⟩
    rw [← hsz.bytes_length rq.mem, hby', length_map, length_range]

/-- A packet of 300 bytes in the two buffers of a queue. -/
theorem rxConstructSkb_faithful_two : ∃ k,
    ((Rq.init two fun _ _ => 7).rxConstructSkb two calm ⟨300, 0, false, false, false⟩).2 = some k ∧
      k.head.len = 300 :=
  have ⟨k, hk, hl, _⟩ :=
    (rxConstructSkb_faithful calm ⟨300, 0, false, false, false⟩ Reach.init).2
      ⟨by decide, fun _ => by decide⟩ rfl rfl rfl (by decide) rfl fun _ => rfl
  ⟨k, hk, hl⟩

end Rq

end UbDkms.Unic
