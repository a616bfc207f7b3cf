import UbDkms.Lib.Reach
import Mathlib.Tactic

/-!
# The target's retransmit buffer

`ubmad_datapath.c`, the side that answers connection requests. A request gets a hash
node with a running index the first time it is seen and is handed to `recv_handler`;
its response is kept in the slot of the index, and a copy of the request that comes
later is answered from there. A slot whose number is that of the request plus one is
the mark of a response that was too large to be kept.

The peer's record stays, no allocation fails, and every send succeeds. The trace
says what happened, the latest event first.
-/

namespace UbDkms.Ubcore

open Lib List
open Function (update update_self update_of_ne)

/-- `UBMAD_TGT_RTBUFFER_SIZE`. -/
def tgtRtbufferSize : Nat := 1024

/-- `UBMAD_RTBUFFER_PKTSIZE`. -/
def rtbufferPktsize : Nat := 2048

/-- `struct ubmad_tgt_rtbuffer`; the length of the data is `payload_len`. -/
structure TgtSlot where
  msn : Nat := 0
  data : List Nat := []

inductive TgtEvent where
  | handed (msn idx : Nat)
  | answered (msn idx : Nat) (data : List Nat)
  | reposted (msn : Nat) (data : List Nat)

structure TgtBuf where
  node : Nat → Option Nat := fun _ => none
  tgtIdxGen : Nat := 1
  tgtRtBuffer : Nat → TgtSlot := fun _ => {}
  /-- What the handler has accepted and not answered, with the indices. -/
  accepted : List (Nat × Nat) := []
  trace : List TgtEvent := []

inductive TgtAct where
  | recv (msn : Nat)
  | answer (n : Nat) (data : List Nat)

namespace TgtBuf

/-- `ubmad_process_conn_data` with `ubmad_try_repost_all_response`. -/
def processConnData (s : TgtBuf) (msn : Nat) : TgtBuf :=
  match s.node msn with
  | none =>
    { s with
      node := update s.node msn (some s.tgtIdxGen)
      tgtIdxGen := s.tgtIdxGen + 1
      accepted := s.accepted ++ [(msn, s.tgtIdxGen)]
      trace := .handed msn s.tgtIdxGen :: s.trace }
  | some idx =>
    let slot := s.tgtRtBuffer (idx % tgtRtbufferSize)
    if slot.msn ≠ msn then
      if slot.msn = (msn + 1) % 2 ^ 64 then
        { s with accepted := s.accepted ++ [(msn, idx)], trace := .handed msn idx :: s.trace }
      else s
    else { s with trace := .reposted msn slot.data :: s.trace }

/-- `ubmad_do_post_send_wk0_resp_data` for request `msn`; a message is prepared with 32 bits of it. -/
def postSendResp (s : TgtBuf) (msn : Nat) (data : List Nat) : TgtBuf :=
  let msn := msn % 2 ^ 32
  match s.node msn with
  | none => s
  | some idx =>
    let i := idx % tgtRtbufferSize
    if data.length ≤ rtbufferPktsize then
      if (s.tgtRtBuffer i).msn ≠ msn then
        { s with
          node := update s.node (s.tgtRtBuffer i).msn none
          tgtRtBuffer := update s.tgtRtBuffer i ⟨msn, data⟩ }
      else s
    else
      { s with
        tgtRtBuffer := update s.tgtRtBuffer i ⟨(msn + 1) % 2 ^ 64, (s.tgtRtBuffer i).data⟩ }

def next (s : TgtBuf) : TgtAct → TgtBuf
  | .recv msn => s.processConnData msn
  | .answer n data =>
    match s.accepted[n]? with
    | none => s
    | some (msn, idx) =>
      { s.postSendResp msn data with
        accepted := s.accepted.eraseIdx n
        trace := .answered msn idx data :: s.trace }

end TgtBuf

/-! ## Requests in order -/

/-- Numbers are not zero and fit into 32 bits, a new request does not take the place of one with the
next number, and requests are answered in order, with responses that fit. -/
def TgtKept (s : TgtBuf) : TgtAct → Prop
  | .recv msn =>
    0 < msn ∧ msn < 2 ^ 32 ∧
    (s.node msn = none → ∀ idx, .handed (msn + 1) idx ∈ s.trace →
      idx % tgtRtbufferSize ≠ s.tgtIdxGen % tgtRtbufferSize)
  | .answer n data => n = 0 ∧ data.length ≤ rtbufferPktsize

/-- After `a - 1` answers: `req k` is the request of index `k` and `resp k` its response. -/
structure InOrder (s : TgtBuf) (a : Nat) (req : Nat → Nat) (resp : Nat → List Nat) : Prop where
  bounds : 1 ≤ a ∧ a ≤ s.tgtIdxGen
  nums : ∀ k, 1 ≤ k → k < s.tgtIdxGen → 0 < req k ∧ req k < 2 ^ 32
  apart : ∀ j k, 1 ≤ j → j < k → k < s.tgtIdxGen → j % tgtRtbufferSize = k % tgtRtbufferSize →
    req j ≠ req k + 1
  opened : s.accepted = (List.range' a (s.tgtIdxGen - a)).map fun k => (req k, k)
  node : ∀ k, 1 ≤ k → k < s.tgtIdxGen → a ≤ k + tgtRtbufferSize → s.node (req k) = some k
  node_inv : ∀ m k, s.node m = some k → 1 ≤ k ∧ k < s.tgtIdxGen ∧ a ≤ k + tgtRtbufferSize ∧ req k = m
  slot : ∀ k, 1 ≤ k → k < a → a ≤ k + tgtRtbufferSize →
    s.tgtRtBuffer (k % tgtRtbufferSize) = ⟨req k, resp k⟩
  blank : ∀ k, a ≤ k → k ≤ tgtRtbufferSize → (s.tgtRtBuffer (k % tgtRtbufferSize)).msn = 0
  handed : ∀ m k, .handed m k ∈ s.trace ↔ 1 ≤ k ∧ k < s.tgtIdxGen ∧ req k = m
  answered : ∀ m k d, .answered m k d ∈ s.trace ↔ 1 ≤ k ∧ k < a ∧ req k = m ∧ resp k = d

/-- The events before a hand-over are of smaller indices. -/
def TgtSorted (trace : List TgtEvent) : Prop :=
  ∀ t2 m k t3, trace = t2 ++ .handed m k :: t3 → ∀ m' i d, .answered m' i d ∈ t3 → i < k

/-- Between two hand-overs of one request the next 1024 requests were answered. -/
def TgtSpaced (trace : List TgtEvent) : Prop :=
  ∀ t1 t2 t3 m k k', trace = t1 ++ .handed m k' :: (t2 ++ .handed m k :: t3) →
    ∀ i, k < i → i ≤ k + tgtRtbufferSize → ∃ m' d, .answered m' i d ∈ t2

/-- What is sent once more was the last response sent for the request. -/
def TgtFaithful (trace : List TgtEvent) : Prop :=
  ∀ t1 t2 m d, trace = t1 ++ .reposted m d :: t2 →
    ∃ k, .answered m k d ∈ t2 ∧ ∀ k' d', .answered m k' d' ∈ t2 → k' ≤ k

section Steps

variable {s : TgtBuf} {a : Nat} {req : Nat → Nat} {resp : Nat → List Nat} {m : Nat}

theorem InOrder.slot_open (h : InOrder s a req resp) {k : Nat} (hk : a ≤ k) :
    (s.tgtRtBuffer (k % tgtRtbufferSize)).msn = 0 ∨
    ∃ l, 1 ≤ l ∧ l < a ∧ a ≤ l + tgtRtbufferSize ∧ l % tgtRtbufferSize = k % tgtRtbufferSize ∧
      s.tgtRtBuffer (k % tgtRtbufferSize) = ⟨req l, resp l⟩ := by
  -- the last index below `a` with the residue of `k`
  obtain ⟨l, hl1, hl2, hl3⟩ : ∃ l, l < a + tgtRtbufferSize ∧ a ≤ l ∧
      l % tgtRtbufferSize = k % tgtRtbufferSize := by
    unfold tgtRtbufferSize
    exact ⟨a + (k - a) % 1024, by omega, by omega, by omega⟩
  by_cases hsmall : l ≤ tgtRtbufferSize
  · left
    rw [← hl3]
    exact h.blank l hl2 hsmall
  right
  have hsz : tgtRtbufferSize = 1024 := rfl
  have hres : (l - tgtRtbufferSize) % tgtRtbufferSize = k % tgtRtbufferSize := by
    rw [← hl3]
    exact (Nat.mod_eq_sub_mod (by omega)).symm
  refine ⟨l - tgtRtbufferSize, by omega, by omega, by omega, hres, ?_⟩
  rw [← hres]
  exact h.slot _ (by omega) (by omega) (by omega)

theorem InOrder.known (h : InOrder s a req resp) {k : Nat} (hk : s.node m = some k) :
    (s.tgtRtBuffer (k % tgtRtbufferSize)).msn ≠ (m + 1) % 2 ^ 64 ∧
    ((s.tgtRtBuffer (k % tgtRtbufferSize)).msn = m →
      k < a ∧ s.tgtRtBuffer (k % tgtRtbufferSize) = ⟨m, resp k⟩) := by
  obtain ⟨h1, h2, h3, hreq⟩ := h.node_inv m k hk
  obtain ⟨hpos, hlt⟩ := h.nums k h1 h2
  rw [hreq] at hpos hlt
  by_cases hka : k < a
  · have hslot := h.slot k h1 hka h3
    rw [hreq] at hslot
    rw [hslot]
    exact ⟨by dsimp only; omega, fun _ => ⟨hka, rfl⟩⟩
  rcases h.slot_open (Nat.le_of_not_lt hka) with h0 | ⟨l, hl1, hl2, hl3, hl4, hslot⟩
  · rw [h0]
    exact ⟨by omega, fun he => by omega⟩
  rw [hslot]
  have hapart := h.apart l k hl1 (by omega) h2 hl4
  rw [hreq] at hapart
  refine ⟨by dsimp only; omega, fun he => ?_⟩
  -- the slot's request has a node of its own
  have hnode := h.node l hl1 (by omega) hl3
  rw [show req l = m from he, hk] at hnode
  have := Option.some.inj hnode
  omega

theorem InOrder.init : InOrder {} 1 (fun _ => 0) fun _ => [] where
  bounds := ⟨le_rfl, le_rfl⟩
  nums k h1 h2 := absurd h2 (Nat.not_lt.mpr h1)
  apart j k h1 h2 h3 := by
    have : k < 1 := h3
    omega
  opened := rfl
  node k h1 h2 := absurd h2 (Nat.not_lt.mpr h1)
  node_inv m k hk := by cases hk
  slot k h1 h2 := absurd h2 (Nat.not_lt.mpr h1)
  blank _ _ _ := rfl
  handed m k := by
    constructor
    · intro hm
      cases hm
    · rintro ⟨h1, h2, -⟩
      exact absurd h2 (Nat.not_lt.mpr h1)
  answered m k d := by
    constructor
    · intro hm
      cases hm
    · rintro ⟨h1, h2, -⟩
      exact absurd h2 (Nat.not_lt.mpr h1)

section

variable (h : InOrder s a req resp)
include h

theorem InOrder.accept (hk : TgtKept s (.recv m)) (hm : s.node m = none) :
    InOrder (s.processConnData m) a (update req s.tgtIdxGen m) resp := by
  obtain ⟨hpos, hlt, hnew⟩ := hk
  have hb := h.bounds
  have hold : ∀ k, k < s.tgtIdxGen → update req s.tgtIdxGen m k = req k := fun k hlt =>
    update_of_ne (Nat.ne_of_lt hlt) ..
  have hgen : update req s.tgtIdxGen m s.tgtIdxGen = m := update_self ..
  have hsplit : ∀ k, k < s.tgtIdxGen + 1 → k < s.tgtIdxGen ∨ k = s.tgtIdxGen := fun k hk => by omega
  unfold TgtBuf.processConnData
  rw [hm]
  refine ⟨⟨hb.1, Nat.le_succ_of_le hb.2⟩, fun k h1 h2 => ?_, fun j k h1 h2 h3 h4 => ?_, ?_,
    fun k h1 h2 h3 => ?_, fun m' k hn => ?_, fun k h1 h2 h3 => ?_, h.blank, fun m' k => ?_, fun m' k d => ?_⟩
  · rcases hsplit k h2 with h2 | rfl
    · rw [hold k h2]
      exact h.nums k h1 h2
    · rw [hgen]
      exact ⟨hpos, hlt⟩
  · rcases hsplit k h3 with h3 | rfl
    · rw [hold k h3, hold j (by omega)]
      exact h.apart j k h1 h2 h3 h4
    rw [hgen, hold j h2]
    intro he
    exact hnew hm j ((h.handed (m + 1) j).mpr ⟨h1, h2, he⟩) h4
  · dsimp only
    rw [show s.tgtIdxGen + 1 - a = s.tgtIdxGen - a + 1 by omega, List.range'_1_concat, map_append,
      h.opened]
    congr 1
    · refine map_congr_left fun k hk => ?_
      rw [hold k (by have := mem_range'_1.mp hk; omega)]
    · rw [Nat.add_sub_cancel' hb.2, map_singleton, hgen]
  · rcases hsplit k h2 with h2 | rfl
    · have hn := h.node k h1 h2 h3
      rw [hold k h2]
      have hne : req k ≠ m := fun he => by
        rw [he, hm] at hn
        cases hn
      exact (update_of_ne hne ..).trans hn
    · rw [hgen]
      exact update_self ..
  · change update s.node m (some s.tgtIdxGen) m' = some k at hn
    by_cases hmm : m' = m
    · rw [hmm, update_self] at hn
      have hk := Option.some.inj hn
      subst hk
      exact ⟨by omega, Nat.lt_succ_self _, by omega, hgen.trans hmm.symm⟩
    · obtain ⟨h1, h2, h3, h4⟩ := h.node_inv m' k ((update_of_ne hmm ..).symm.trans hn)
      exact ⟨h1, Nat.lt_succ_of_lt h2, h3, (hold k h2).trans h4⟩
  · rw [hold k (by omega)]
    exact h.slot k h1 h2 h3
  · rw [mem_cons, h.handed]
    constructor
    · rintro (he | ⟨h1, h2, h3⟩)
      · cases he
        exact ⟨by omega, Nat.lt_succ_self _, hgen⟩
      · exact ⟨h1, Nat.lt_succ_of_lt h2, (hold k h2).trans h3⟩
    · rintro ⟨h1, h2, h3⟩
      rcases hsplit k h2 with h2 | rfl
      · exact .inr ⟨h1, h2, (hold k h2).symm.trans h3⟩
      · rw [hgen] at h3
        exact .inl (by rw [h3])
  · rw [mem_cons, h.answered]
    constructor
    · rintro (he | ⟨h1, h2, h3, h4⟩)
      · cases he
      · exact ⟨h1, h2, (hold k (by omega)).trans h3, h4⟩
    · rintro ⟨h1, h2, h3, h4⟩
      exact .inr ⟨h1, h2, (hold k (by omega)).symm.trans h3, h4⟩

theorem InOrder.postSendResp (ha : a < s.tgtIdxGen) {data : List Nat}
    (hd : data.length ≤ rtbufferPktsize) :
    ∃ old, s.postSendResp (req a) data = { s with
        node := update s.node old none
        tgtRtBuffer := update s.tgtRtBuffer (a % tgtRtbufferSize) ⟨req a, data⟩ } ∧
      (a ≤ tgtRtbufferSize ∧ old = 0 ∨ tgtRtbufferSize < a ∧ old = req (a - tgtRtbufferSize)) := by
  have hb := h.bounds
  have hnode := h.node a hb.1 ha (Nat.le_add_right _ _)
  have hne : (s.tgtRtBuffer (a % tgtRtbufferSize)).msn ≠ req a := fun he =>
    absurd ((h.known hnode).2 he).1 (lt_irrefl a)
  refine ⟨(s.tgtRtBuffer (a % tgtRtbufferSize)).msn, ?_, ?_⟩
  · unfold TgtBuf.postSendResp
    rw [Nat.mod_eq_of_lt (h.nums a hb.1 ha).2]
    dsimp only
    rw [hnode]
    dsimp only
    rw [if_pos hd, if_pos hne]
  · by_cases hsmall : a ≤ tgtRtbufferSize
    · exact .inl ⟨hsmall, h.blank a le_rfl hsmall⟩
    have hsz : tgtRtbufferSize = 1024 := rfl
    have hslot := h.slot (a - tgtRtbufferSize) (by omega) (by omega) (by omega)
    rw [← Nat.mod_eq_sub_mod (by omega)] at hslot
    exact .inr ⟨by omega, by rw [hslot]⟩

theorem InOrder.head (ha : a < s.tgtIdxGen) :
    s.accepted = (req a, a) :: (List.range' (a + 1) (s.tgtIdxGen - (a + 1))).map fun k => (req k, k) := by
  rw [h.opened, show s.tgtIdxGen - a = s.tgtIdxGen - (a + 1) + 1 by omega, List.range'_succ, map_cons]

theorem InOrder.answer (ha : a < s.tgtIdxGen) {data : List Nat}
    (hd : data.length ≤ rtbufferPktsize) :
    InOrder (s.next (.answer 0 data)) (a + 1) req (update resp a data) := by
  have hb := h.bounds
  have hsz : tgtRtbufferSize = 1024 := rfl
  obtain ⟨old, hpost, hcase⟩ := h.postSendResp ha hd
  have hresp : ∀ k, k < a → update resp a data k = resp k := fun k hk =>
    update_of_ne (Nat.ne_of_lt hk) ..
  have hsplit : ∀ k, k < a + 1 → k < a ∨ k = a := fun k hk => by omega
  dsimp only [TgtBuf.next]
  rw [h.head ha]
  dsimp only [List.getElem?_cons_zero, eraseIdx_cons_zero]
  rw [hpost]
  refine ⟨⟨by omega, ha⟩, h.nums, h.apart, rfl, fun k h1 h2 h3 => ?_, fun m' k hn => ?_,
    fun k h1 h2 h3 => ?_, fun k h1 h2 => ?_, fun m' k => ?_, fun m' k d => ?_⟩
  · have hn := h.node k h1 h2 (by omega)
    refine (update_of_ne ?_ ..).trans hn
    rcases hcase with ⟨-, rfl⟩ | ⟨hbig, rfl⟩
    · exact Nat.ne_of_gt (h.nums k h1 h2).1
    intro he
    have hl := h.node (a - tgtRtbufferSize) (by omega) (by omega) (by omega)
    rw [← he, hn] at hl
    have := Option.some.inj hl
    omega
  · change update s.node old none m' = some k at hn
    by_cases hmm : m' = old
    · rw [hmm, update_self] at hn
      cases hn
    rw [update_of_ne hmm] at hn
    obtain ⟨h1, h2, h3, h4⟩ := h.node_inv m' k hn
    refine ⟨h1, h2, ?_, h4⟩
    by_contra hlast
    have hk : k = a - tgtRtbufferSize := by omega
    rcases hcase with ⟨hsmall, -⟩ | ⟨-, rfl⟩
    · omega
    · exact hmm (h4.symm.trans (congrArg req hk))
  · rcases hsplit k h2 with h2 | rfl
    · rw [hresp k h2]
      refine (update_of_ne ?_ ..).trans (h.slot k h1 h2 (by omega))
      rw [hsz]
      omega
    · rw [update_self]
      exact update_self ..
  · refine Eq.trans (congrArg TgtSlot.msn (update_of_ne ?_ ..)) (h.blank k (by omega) h2)
    rw [hsz]
    omega
  · rw [mem_cons, h.handed]
    exact ⟨fun he => he.resolve_left nofun, .inr⟩
  · rw [mem_cons, h.answered]
    constructor
    · rintro (he | ⟨h1, h2, h3, h4⟩)
      · cases he
        exact ⟨hb.1, Nat.lt_succ_self _, rfl, update_self ..⟩
      · exact ⟨h1, Nat.lt_succ_of_lt h2, h3, (hresp k h2).trans h4⟩
    · rintro ⟨h1, h2, h3, h4⟩
      rcases hsplit k h2 with h2 | rfl
      · exact .inr ⟨h1, h2, h3, (hresp k h2).symm.trans h4⟩
      rw [update_self] at h4
      rw [h3, h4]
      exact .inl rfl

theorem InOrder.repost (d : List Nat) :
    InOrder { s with trace := .reposted m d :: s.trace } a req resp :=
  { h with
    handed := fun m' k => by
      rw [mem_cons, h.handed]
      exact ⟨fun he => he.resolve_left nofun, .inr⟩
    answered := fun m' k d => by
      rw [mem_cons, h.answered]
      exact ⟨fun he => he.resolve_left nofun, .inr⟩ }

end

/-! ## The trace -/

variable {tr : List TgtEvent} {e : TgtEvent}

theorem TgtSorted.cons (h : TgtSorted tr) (he : ∀ m k, e ≠ .handed m k) :
    TgtSorted (e :: tr) := by
  intro t2 m k t3 htr
  rcases cons_eq_append_iff.mp htr with ⟨-, heq⟩ | ⟨t2', rfl, heq⟩
  · exact absurd (List.cons.inj heq).1.symm (he m k)
  · exact h t2' m k t3 heq

theorem TgtSpaced.cons (h : TgtSpaced tr) (he : ∀ m k, e ≠ .handed m k) :
    TgtSpaced (e :: tr) := by
  intro t1 t2 t3 m k k' htr
  rcases cons_eq_append_iff.mp htr with ⟨-, heq⟩ | ⟨t1', rfl, heq⟩
  · exact absurd (List.cons.inj heq).1.symm (he m k')
  · exact h t1' t2 t3 m k k' heq

theorem TgtFaithful.cons (h : TgtFaithful tr) (he : ∀ m d, e ≠ .reposted m d) :
    TgtFaithful (e :: tr) := by
  intro t1 t2 m d htr
  rcases cons_eq_append_iff.mp htr with ⟨-, heq⟩ | ⟨t1', rfl, heq⟩
  · exact absurd (List.cons.inj heq).1.symm (he m d)
  · exact h t1' t2 m d heq

def TgtOk (s : TgtBuf) : Prop :=
  (∃ a req resp, InOrder s a req resp) ∧ TgtSorted s.trace ∧ TgtSpaced s.trace ∧ TgtFaithful s.trace

theorem InOrder.spaced (h : InOrder s a req resp) (hsort : TgtSorted s.trace) (hm : s.node m = none)
    {t2 t3 : List TgtEvent} {k : Nat} (heq : s.trace = t2 ++ .handed m k :: t3) {i : Nat} (h1 : k < i)
    (h2 : i ≤ k + tgtRtbufferSize) : ∃ m' d, .answered m' i d ∈ t2 := by
  have hmem : .handed m k ∈ s.trace := by
    rw [heq]
    exact mem_append_right _ mem_cons_self
  obtain ⟨hk1, hk2, hk3⟩ := (h.handed m k).mp hmem
  have hgone : k + tgtRtbufferSize < a := by
    by_contra hle
    have := h.node k hk1 hk2 (Nat.le_of_not_lt hle)
    rw [hk3, hm] at this
    cases this
  have hans : .answered (req i) i (resp i) ∈ s.trace :=
    (h.answered _ i _).mpr ⟨by omega, by omega, rfl, rfl⟩
  rw [heq, mem_append, mem_cons] at hans
  rcases hans with hans | hans | hans
  · exact ⟨_, _, hans⟩
  · cases hans
  · exact absurd (hsort t2 m k t3 heq _ i _ hans) (by omega)

theorem TgtOk.recv (h : TgtOk s) (hk : TgtKept s (.recv m)) : TgtOk (s.processConnData m) := by
  obtain ⟨⟨a, req, resp, hin⟩, hsort, hspace, hfaith⟩ := h
  cases hm : s.node m with
  | none =>
    have hin' := hin.accept hk hm
    refine ⟨⟨a, _, resp, hin'⟩, ?_⟩
    have htrace : (s.processConnData m).trace = .handed m s.tgtIdxGen :: s.trace := by
      unfold TgtBuf.processConnData
      rw [hm]
    rw [htrace]
    refine ⟨fun t2 m' k t3 htr m'' i d hi => ?_, fun t1 t2 t3 m' k k' htr i h1 h2 => ?_,
      hfaith.cons nofun⟩
    · rcases cons_eq_append_iff.mp htr with ⟨-, heq⟩ | ⟨t2', rfl, heq⟩
      · cases heq
        have := (hin.answered m'' i d).mp hi
        have := hin.bounds
        omega
      · exact hsort t2' m' k t3 heq m'' i d hi
    · rcases cons_eq_append_iff.mp htr with ⟨-, heq⟩ | ⟨t1', rfl, heq⟩
      · obtain ⟨he, hrest⟩ := List.cons.inj heq
        cases he
        exact hin.spaced hsort hm hrest.symm h1 h2
      · exact hspace t1' t2 t3 m' k k' heq i h1 h2
  | some k =>
    obtain ⟨hover, hslot⟩ := hin.known hm
    unfold TgtBuf.processConnData
    rw [hm]
    dsimp only
    by_cases hmsn : (s.tgtRtBuffer (k % tgtRtbufferSize)).msn = m
    · obtain ⟨hka, hdata⟩ := hslot hmsn
      obtain ⟨h1, h2, h3, h4⟩ := hin.node_inv m k hm
      rw [if_neg (not_not.mpr hmsn), hdata]
      refine ⟨⟨a, req, resp, hin.repost _⟩, hsort.cons nofun,
        hspace.cons nofun, fun t1 t2 m' d htr => ?_⟩
      rcases cons_eq_append_iff.mp htr with ⟨-, heq⟩ | ⟨t1', rfl, heq⟩
      · cases heq
        refine ⟨k, (hin.answered m k _).mpr ⟨h1, hka, h4, rfl⟩, fun k' d' hk' => ?_⟩
        obtain ⟨g1, g2, g3, -⟩ := (hin.answered m k' d').mp hk'
        by_contra hlt
        have hnode := hin.node k' g1 (by have := hin.bounds; omega) (by omega)
        rw [g3, hm] at hnode
        have := Option.some.inj hnode
        omega
      · exact hfaith t1' t2 m' d heq
    · rw [if_pos hmsn, if_neg hover]
      exact ⟨⟨a, req, resp, hin⟩, hsort, hspace, hfaith⟩

theorem TgtOk.next (h : TgtOk s) {b : TgtAct} (hk : TgtKept s b) : TgtOk (s.next b) := by
  cases b with
  | recv m => exact h.recv hk
  | answer n data =>
    obtain ⟨rfl, hd⟩ := hk
    obtain ⟨⟨a, req, resp, hin⟩, hsort, hspace, hfaith⟩ := h
    by_cases ha : a < s.tgtIdxGen
    · refine ⟨⟨a + 1, req, _, hin.answer ha hd⟩, ?_⟩
      dsimp only [TgtBuf.next]
      rw [hin.head ha]
      exact ⟨hsort.cons nofun, hspace.cons nofun,
        hfaith.cons nofun⟩
    · have hnil : s.accepted = [] := by
        rw [hin.opened, Nat.sub_eq_zero_of_le (Nat.le_of_not_lt ha)]
        rfl
      dsimp only [TgtBuf.next]
      rw [hnil]
      exact ⟨⟨a, req, resp, hin⟩, hsort, hspace, hfaith⟩

end Steps

/-- In a run that keeps the conditions, a request is handed over again only after the next 1024 were
answered, and what is sent once more for a request is the response last sent for it. -/
theorem requests_once {s : TgtBuf} (hs : Reach TgtKept TgtBuf.next {} s) :
    TgtSpaced s.trace ∧ TgtFaithful s.trace := by
  have h : TgtOk s := by
    refine hs.invariant ⟨⟨1, _, _, InOrder.init⟩, ?_, ?_, ?_⟩ fun _ _ h hk => h.next hk
    · intro t2 m k t3 heq
      exact absurd heq (by simp)
    · intro t1 t2 t3 m k k' heq
      exact absurd heq (by simp)
    · intro t1 t2 m d heq
      exact absurd heq (by simp)
  exact h.2.2

def answeredTwice : TgtBuf := [.recv 7, .answer 0 [1, 2], .recv 7].foldl TgtBuf.next {}

theorem requests_once_seven : answeredTwice.trace =
    [.reposted 7 [1, 2], .answered 7 1 [1, 2], .handed 7 1] ∧ TgtFaithful answeredTwice.trace := by
  refine ⟨rfl, (requests_once (Reach.init.along ?_)).2⟩
  refine ⟨⟨by decide, by decide, nofun⟩, ⟨rfl, by decide⟩,
    ⟨by decide, by decide, nofun⟩, trivial⟩

def zeroTwice : TgtBuf := [.recv 0, .recv 0].foldl TgtBuf.next {}

/-- Requests 8, 9, … come and are answered, `n` of them. -/
def fillActs (n : Nat) : List TgtAct := (List.range n).flatMap fun k => [.recv (8 + k), .answer 0 [k]]

theorem answer_idxGen (s : TgtBuf) (n : Nat) (data : List Nat) :
    (s.next (.answer n data)).tgtIdxGen = s.tgtIdxGen := by
  have hpost : ∀ msn, (s.postSendResp msn data).tgtIdxGen = s.tgtIdxGen := fun msn => by
    dsimp only [TgtBuf.postSendResp]
    split
    · rfl
    split
    · split <;> rfl
    · rfl
  dsimp only [TgtBuf.next]
  split
  · rfl
  · exact hpost _

theorem fill_inOrder (n : Nat) (hle : n ≤ 1024) :
    ∃ req resp, InOrder ((fillActs n).foldl TgtBuf.next {}) (n + 1) req resp ∧
      ((fillActs n).foldl TgtBuf.next {}).tgtIdxGen = n + 1 ∧ ∀ k, 1 ≤ k → k < n + 1 → req k = 7 + k := by
  induction n with
  | zero => exact ⟨_, _, InOrder.init, rfl, fun k h1 h2 => by omega⟩
  | succ n ih =>
    obtain ⟨req, resp, h, hgen, hreq⟩ := ih (by omega)
    have hacts : (fillActs (n + 1)).foldl TgtBuf.next {} =
        (((fillActs n).foldl TgtBuf.next {}).processConnData (8 + n)).next (.answer 0 [n]) := by
      unfold fillActs
      rw [range_succ, flatMap_append, foldl_append]
      rfl
    rw [hacts]
    generalize (fillActs n).foldl TgtBuf.next {} = s at h hgen
    have hnone : s.node (8 + n) = none := by
      cases hn : s.node (8 + n) with
      | none => rfl
      | some k =>
        obtain ⟨h1, h2, -, h4⟩ := h.node_inv _ k hn
        rw [hreq k h1 (by omega)] at h4
        omega
    have hkept : TgtKept s (.recv (8 + n)) := by
      refine ⟨by omega, by omega, fun _ idx hidx => ?_⟩
      obtain ⟨h1, h2, h3⟩ := (h.handed _ idx).mp hidx
      rw [hreq idx h1 (by omega)] at h3
      omega
    have hgen' : (s.processConnData (8 + n)).tgtIdxGen = n + 1 + 1 := by
      unfold TgtBuf.processConnData
      rw [hnone, hgen]
    have hanswer := (h.accept hkept hnone).answer (by omega)
      (show [n].length ≤ rtbufferPktsize from Nat.le_add_left 1 2047)
    refine ⟨_, _, hanswer, (answer_idxGen ..).trans hgen', fun k h1 h2 => ?_⟩
    rw [hgen]
    by_cases hk : k = n + 1
    · rw [hk, update_self]
      omega
    · rw [update_of_ne hk]
      exact hreq k h1 (by omega)

theorem place_taken {s : TgtBuf} {req : Nat → Nat} {resp : Nat → List Nat} (h : InOrder s 1025 req resp)
    (hgen : s.tgtIdxGen = 1025) (hreq : ∀ k, 1 ≤ k → k < 1025 → req k = 7 + k) :
    ((s.next (.recv 7)).next (.recv 7)).trace = .handed 7 1025 :: .handed 7 1025 :: s.trace := by
  have hnone : s.node 7 = none := by
    cases hn : s.node 7 with
    | none => rfl
    | some k =>
      obtain ⟨h1, h2, -, h4⟩ := h.node_inv _ k hn
      rw [hreq k h1 (by omega)] at h4
      omega
  have hslot := h.slot 1 le_rfl (by decide) (by decide)
  rw [hreq 1 le_rfl (by decide)] at hslot
  have hfirst : s.next (.recv 7) =
      { s with
        node := update s.node 7 (some 1025), tgtIdxGen := 1026
        accepted := s.accepted ++ [(7, 1025)], trace := .handed 7 1025 :: s.trace } := by
    dsimp only [TgtBuf.next, TgtBuf.processConnData]
    rw [hnone, hgen]
  rw [hfirst]
  dsimp only [TgtBuf.next, TgtBuf.processConnData]
  rw [update_self]
  dsimp only
  rw [show 1025 % tgtRtbufferSize = 1 % tgtRtbufferSize from rfl, hslot, if_pos (by simp),
    if_pos (by norm_num)]

/-- The first `n` of them are answered, then request 7 comes twice. -/
def sevenTwice (n : Nat) : TgtBuf := (fillActs n ++ [TgtAct.recv 7, .recv 7]).foldl TgtBuf.next {}

theorem sevenTwice_reach (n : Nat) : Reach (fun _ _ => True) TgtBuf.next {} (sevenTwice n) := .foldl _

theorem sevenTwice_eq (n : Nat) : sevenTwice n =
    (((fillActs n).foldl TgtBuf.next {}).next (.recv 7)).next (.recv 7) := foldl_append

/-- An empty response was sent for request 0; and after 1024 others, where it takes the place of 8,
request 7 was handed over twice in a row. -/
theorem requests_not_once :
    (Reach (fun _ _ => True) TgtBuf.next {} zeroTwice ∧ zeroTwice.trace = [.reposted 0 [], .handed 0 1]) ∧
    Reach (fun _ _ => True) TgtBuf.next {} (sevenTwice 1024) ∧
    ∃ t, (sevenTwice 1024).trace = .handed 7 1025 :: .handed 7 1025 :: t := by
  refine ⟨⟨.foldl _, rfl⟩, sevenTwice_reach 1024, ?_⟩
  obtain ⟨req, resp, h, hgen, hreq⟩ := fill_inOrder 1024 le_rfl
  rw [sevenTwice_eq]
  exact ⟨_, place_taken h hgen hreq⟩

end UbDkms.Ubcore
