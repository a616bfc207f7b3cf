import UbDkms.Lib.Recent
import UbDkms.Lib.Reach
import UbDkms.Ubcore.Trie

/-!
# Duplicate suppression of UBMAD general messages

`ubmad_check_recv_msn_duplicate` and `ubmad_process_gen_data`
(`ubmad_datapath.c`). For each sender a receiver keeps the keys of the last
`UBMAD_RECV_MSN_MAX` messages, in a hash table and in an LRU list with the
oldest first. The network delivers any posted message any number of times and
in any order; the receive work handles one packet at a time. A close request
takes the sender's jetty and its keys away.
-/

namespace UbDkms.Ubcore

open Lib List

structure MsnKey where
  msn : UInt64
  msgType : UInt32
  deriving DecidableEq

def ubmadRecvMsnMax : Nat := 4096

/-- `struct ubmad_msn_mgr` of received messages. -/
structure MsnMgr where
  hlist : Nat → List MsnKey
  lru : List MsnKey
  cnt : Nat

/-- `ubmad_init_msn_mgr`. -/
def initMsnMgr : MsnMgr := ⟨fun _ => [], [], 0⟩

def onBucket (hlist : Nat → List MsnKey) (b : Nat) (f : List MsnKey → List MsnKey) (i : Nat) :
    List MsnKey :=
  if i = b then f (hlist i) else hlist i

section Check

variable (hash : MsnKey → Nat)

def evictOldest (mgr : MsnMgr) : MsnMgr :=
  if ubmadRecvMsnMax < mgr.cnt then
    match mgr.lru with
    | [] => mgr
    | old :: lru => ⟨onBucket mgr.hlist (hash old) (·.filter (· ≠ old)), lru, mgr.cnt - 1⟩
  else mgr

/-- `ubmad_check_recv_msn_duplicate`; `alloc` is the outcome of the allocation of the new
node, whose failure is answered `false`. -/
def checkRecvMsnDuplicate (mgr : MsnMgr) (key : MsnKey) (alloc : Bool) : Bool × MsnMgr :=
  if alloc = false then (false, mgr)
  else if key ∈ mgr.hlist (hash key) then
    (true, { mgr with lru := mgr.lru.filter (· ≠ key) ++ [key] })
  else
    (false, evictOldest hash
      ⟨onBucket mgr.hlist (hash key) (key :: ·), mgr.lru ++ [key], mgr.cnt + 1⟩)

end Check

/-! ## The table and the list in step -/

/-- The manager holds the most recent keys of `hist`. -/
structure Holds (hash : MsnKey → Nat) (mgr : MsnMgr) (hist : List MsnKey) : Prop where
  lru : mgr.lru.reverse = (recent hist).take ubmadRecvMsnMax
  hlist : ∀ b k, k ∈ mgr.hlist b ↔ hash k = b ∧ k ∈ mgr.lru
  cnt : mgr.cnt = mgr.lru.length

section Holds

variable {hash : MsnKey → Nat} {mgr : MsnMgr} {hist : List MsnKey} {key k : MsnKey}

theorem Holds.mem_iff (h : Holds hash mgr hist) :
    k ∈ mgr.lru ↔ k ∈ (recent hist).take ubmadRecvMsnMax := by
  rw [← h.lru, mem_reverse]

theorem Holds.nodup (h : Holds hash mgr hist) : mgr.lru.Nodup := by
  rw [← nodup_reverse, h.lru]
  exact (recent_nodup hist).sublist (take_sublist _ _)

theorem initMsnMgr_holds : Holds hash initMsnMgr [] :=
  ⟨rfl, fun _ _ => by simp [initMsnMgr], rfl⟩

variable (h : Holds hash mgr hist)
include h

theorem Holds.duplicate_iff :
    (checkRecvMsnDuplicate hash mgr key true).1 ↔
      key ∈ (recent hist).take ubmadRecvMsnMax := by
  rw [← h.mem_iff]
  unfold checkRecvMsnDuplicate
  rw [if_neg (by decide)]
  split
  · next hk => exact ⟨fun _ => ((h.hlist _ _).mp hk).2, fun _ => rfl⟩
  · next hk => exact ⟨nofun, fun hc => absurd ((h.hlist _ _).mpr ⟨rfl, hc⟩) hk⟩

theorem Holds.hit (hk : key ∈ mgr.lru) :
    Holds hash { mgr with lru := mgr.lru.filter (· ≠ key) ++ [key] } (key :: hist) := by
  refine ⟨?_, fun b x => ?_, ?_⟩
  · rw [take_recent_hit (h.mem_iff.mp hk), ← h.lru]
    simp [filter_reverse]
  · rw [h.hlist b x]
    refine and_congr_right fun _ => ?_
    by_cases hx : x = key
    · subst hx; simp [hk]
    · simp [hx]
  · rw [length_append, h.cnt, length_singleton]
    have herase := length_erase_of_mem hk
    rw [h.nodup.erase_eq_filter] at herase
    have hpos := length_pos_of_mem hk
    have hsame : mgr.lru.filter (· ≠ key) = mgr.lru.filter (· != key) :=
      filter_congr fun x _ => by by_cases hx : x = key <;> simp [hx]
    rw [hsame, herase]
    omega

theorem Holds.miss (hk : key ∉ mgr.lru) :
    Holds hash (evictOldest hash ⟨onBucket mgr.hlist (hash key) (key :: ·), mgr.lru ++ [key],
      mgr.cnt + 1⟩) (key :: hist) := by
  have hlen : mgr.lru.length ≤ ubmadRecvMsnMax := by
    rw [← length_reverse, h.lru]
    exact length_take_le _ _
  have hrev := take_recent_miss (fun hc => hk (h.mem_iff.mpr hc))
    (show 0 < ubmadRecvMsnMax by decide)
  rw [← h.lru] at hrev
  have hadd : ∀ b x, x ∈ onBucket mgr.hlist (hash key) (key :: ·) b ↔
      hash x = b ∧ x ∈ mgr.lru ++ [key] := by
    intro b x
    unfold onBucket
    rw [mem_append, mem_singleton]
    split
    · next hb =>
      rw [mem_cons, h.hlist]
      constructor
      · rintro (rfl | hx)
        · exact ⟨hb.symm, .inr rfl⟩
        · exact ⟨hx.1, .inl hx.2⟩
      · rintro ⟨h1, h2 | h2⟩
        · exact .inr ⟨h1, h2⟩
        · exact .inl h2
    · next hb =>
      rw [h.hlist]
      refine and_congr_right fun h1 => ⟨.inl, fun h2 => h2.resolve_right fun hc => ?_⟩
      exact hb (by rw [← h1, hc])
  generalize onBucket mgr.hlist (hash key) (key :: ·) = hlist at hadd ⊢
  dsimp only [evictOldest]
  rw [h.cnt]
  split
  · next hfull =>
    have heq : mgr.lru.length = ubmadRecvMsnMax := by omega
    cases hl : mgr.lru with
    | nil => rw [hl] at heq; cases heq
    | cons old lru =>
      rw [hl] at hadd hrev heq hk
      have hnd := h.nodup
      rw [hl, nodup_cons] at hnd
      dsimp only [cons_append]
      refine ⟨?_, fun b x => ?_, ?_⟩
      · -- the full list loses its last element, the oldest
        have hlast : key :: (old :: lru).reverse = (key :: lru.reverse) ++ [old] := by simp
        rw [hrev, hlast, take_left' (by simpa using heq)]
        simp
      · dsimp only [onBucket]
        have hadd' := hadd b x
        rw [cons_append, mem_cons] at hadd'
        split
        · next hb =>
          rw [mem_filter, hadd']
          by_cases hx : x = old
          · subst hx
            have : x ∉ lru ++ [key] := by
              rw [mem_append, mem_singleton]
              rintro (hc | hc)
              · exact hnd.1 hc
              · exact hk (hc ▸ mem_cons_self)
            simp [this]
          · simp [hx]
        · next hb =>
          rw [hadd']
          refine and_congr_right fun h1 => or_iff_right fun hc => hb (by rw [← h1, hc])
      · rw [length_append, length_cons, length_singleton]
        rfl
  · next hroom =>
    refine ⟨?_, hadd, by rw [length_append, length_singleton]⟩
    rw [hrev, reverse_append, take_of_length_le]
    · rfl
    · rw [length_cons, length_reverse]
      omega

theorem Holds.check :
    Holds hash (checkRecvMsnDuplicate hash mgr key true).2 (key :: hist) := by
  unfold checkRecvMsnDuplicate
  rw [if_neg (by decide)]
  split
  · next hk => exact h.hit ((h.hlist _ _).mp hk).2
  · next hk => exact h.miss fun hc => hk ((h.hlist _ _).mpr ⟨rfl, hc⟩)

end Holds

/-! ## Receiving -/

/-- A packet at the receiver; `importOk` and `allocOk` are the outcomes of the allocations
for a new peer and for a new key. -/
structure Arrival where
  sender : Eid
  key : MsnKey
  importOk : Bool := true
  allocOk : Bool := true
  deriving DecidableEq

/-- What is in the network, and a receiver: the packets it got, the newest first, the messages
it handed to `recv_handler` and the senders of the close requests it got. -/
structure Receiver where
  posted : List (Eid × MsnKey) := []
  peer : Eid → Option MsnMgr := fun _ => none
  hist : List Arrival := []
  delivered : List (Eid × MsnKey) := []
  closed : List Eid := []

inductive MadAct where
  | post (sender : Eid) (key : MsnKey)
  | arrive (a : Arrival)
  /-- `ubmad_process_close_req`. -/
  | close (sender : Eid)

section Receive

variable (hash : MsnKey → Nat)

/-- `ubmad_process_gen_data` after the peer is found or imported; the acknowledgement it
sends first is not read again. -/
def processGenData (r : Receiver) (a : Arrival) (mgr : MsnMgr) : Receiver :=
  match checkRecvMsnDuplicate hash mgr a.key a.allocOk with
  | (dup, mgr) =>
    { r with
      peer := fun x => if x = a.sender then some mgr else r.peer x
      hist := a :: r.hist
      delivered := if dup then r.delivered else (a.sender, a.key) :: r.delivered }

def Receiver.next (r : Receiver) : MadAct → Receiver
  | .post sender key => { r with posted := (sender, key) :: r.posted }
  | .arrive a =>
    match r.peer a.sender with
    | some mgr => processGenData hash r a mgr
    | none =>
      if a.importOk then processGenData hash r a initMsnMgr else { r with hist := a :: r.hist }
  | .close sender =>
    { r with
      peer := fun x => if x = sender then none else r.peer x
      closed := sender :: r.closed }

end Receive

def Receiver.Can (r : Receiver) : MadAct → Prop
  | .arrive a => (a.sender, a.key) ∈ r.posted
  | _ => True

def keysOf (hist : List Arrival) (x : Eid) : List MsnKey :=
  (hist.filter fun a => a.sender = x).map Arrival.key

/-- Fewer than `UBMAD_RECV_MSN_MAX` other messages between two copies. -/
def Spaced (keys : List MsnKey) (key : MsnKey) : Prop :=
  ∀ a b c, keys = a ++ key :: (b ++ key :: c) → key ∉ b → b.toFinset.card < ubmadRecvMsnMax

def started (hist : List Arrival) (x : Eid) : Bool := hist.any fun a => a.sender = x ∧ a.importOk

def recorded (x : Eid) : List Arrival → List MsnKey
  | [] => []
  | a :: hist =>
    if a.sender = x ∧ a.allocOk = true ∧ (a.importOk = true ∨ started hist x = true)
      then a.key :: recorded x hist else recorded x hist

structure Receiver.Ok (hash : MsnKey → Nat) (r : Receiver) : Prop where
  absent : ∀ x ∉ r.closed, r.peer x = none → started r.hist x = false
  peers : ∀ x ∉ r.closed, ∀ mgr, r.peer x = some mgr →
    started r.hist x = true ∧ Holds hash mgr (recorded x r.hist)

section Runs

variable {hash : MsnKey → Nat} {r : Receiver} {x : Eid} {key : MsnKey} {a : Arrival}
  {hist : List Arrival} {mgr : MsnMgr}

theorem started_cons : started (a :: hist) x =
    (decide (a.sender = x ∧ a.importOk) || started hist x) := rfl

theorem keysOf_cons : keysOf (a :: hist) x =
    if a.sender = x then a.key :: keysOf hist x else keysOf hist x := by
  unfold keysOf
  by_cases h : a.sender = x
  · rw [filter_cons_of_pos (by simpa using h), map_cons, if_pos h]
  · rw [filter_cons_of_neg (by simpa using h), if_neg h]

theorem recorded_nil (h : started hist x = false) : recorded x hist = [] := by
  induction hist with
  | nil => rfl
  | cons a hist ih =>
    rw [started_cons, Bool.or_eq_false_iff, decide_eq_false_iff_not] at h
    rw [recorded, if_neg, ih h.2]
    rintro ⟨h1, -, h3 | h3⟩
    · exact h.1 ⟨h1, h3⟩
    · rw [h.2] at h3; cases h3

/-- The packet is checked against the keys recorded of its sender, if that was not closed. -/
structure Receiver.Finds (hash : MsnKey → Nat) (r : Receiver) (a : Arrival) (mgr : MsnMgr) : Prop where
  start : a.importOk = true ∨ started r.hist a.sender = true
  holds : Holds hash mgr (recorded a.sender r.hist)

theorem processGenData_ok (h : r.Ok hash) (hf : a.sender ∉ r.closed → r.Finds hash a mgr) :
    (processGenData hash r a mgr).Ok hash := by
  have hother : ∀ x, x ≠ a.sender → started (a :: r.hist) x = started r.hist x ∧
      recorded x (a :: r.hist) = recorded x r.hist := fun x hx => by
    refine ⟨?_, if_neg fun hc => hx hc.1.symm⟩
    rw [started_cons, decide_eq_false fun hc => hx hc.1.symm, Bool.false_or]
  have hmgr : a.sender ∉ r.closed → started (a :: r.hist) a.sender = true ∧
      Holds hash (checkRecvMsnDuplicate hash mgr a.key a.allocOk).2 (recorded a.sender (a :: r.hist)) := fun hx => by
    obtain ⟨hstart, hm⟩ := hf hx
    refine ⟨by rw [started_cons]; rcases hstart with h1 | h1 <;> simp [h1], ?_⟩
    cases hal : a.allocOk with
    | true =>
      rw [recorded, if_pos ⟨rfl, hal, hstart⟩]
      exact hm.check
    | false =>
      rw [recorded, if_neg fun hc => by rw [hal] at hc; cases hc.2.1]
      exact hm
  unfold processGenData
  refine ⟨fun x hcl hx => ?_, fun x hcl m hx => ?_⟩ <;> dsimp only at hx ⊢ <;> split at hx
  · cases hx
  · next hne =>
    rw [(hother x hne).1]
    exact h.absent x hcl hx
  · next heq =>
    subst heq
    obtain rfl := Option.some.inj hx
    exact hmgr hcl
  · next hne =>
    rw [(hother x hne).1, (hother x hne).2]
    exact h.peers x hcl m hx

theorem Receiver.Ok.finds_some (h : r.Ok hash) (hp : r.peer a.sender = some mgr) (hx : a.sender ∉ r.closed) :
    r.Finds hash a mgr :=
  ⟨.inr (h.peers _ hx _ hp).1, (h.peers _ hx _ hp).2⟩

theorem Receiver.Ok.finds_none (h : r.Ok hash) (hp : r.peer a.sender = none) (hi : a.importOk = true)
    (hx : a.sender ∉ r.closed) : r.Finds hash a initMsnMgr := by
  refine ⟨.inl hi, ?_⟩
  rw [recorded_nil (h.absent _ hx hp)]
  exact initMsnMgr_holds

/-- A packet of a sender that cannot be imported is not recorded. -/
theorem Receiver.Ok.recorded_lost (h : r.Ok hash) (hp : r.peer a.sender = none) (hi : ¬a.importOk = true)
    (hx : x ∉ r.closed) : recorded x (a :: r.hist) = recorded x r.hist := by
  refine if_neg fun hc => ?_
  rcases hc.2.2 with h1 | h1
  · exact hi h1
  · rw [h.absent x hx (hc.1 ▸ hp)] at h1
    cases h1

theorem Receiver.Ok.next {act : MadAct} (h : r.Ok hash) : (r.next hash act).Ok hash := by
  cases act with
  | post sender key => exact ⟨h.absent, h.peers⟩
  | arrive a =>
    dsimp only [Receiver.next]
    cases hp : r.peer a.sender with
    | some mgr => exact processGenData_ok h (h.finds_some hp)
    | none =>
      dsimp only
      split
      · next hi => exact processGenData_ok h (h.finds_none hp hi)
      next hi =>
      have hstart : ∀ x, started (a :: r.hist) x = started r.hist x := fun x => by
        rw [started_cons, decide_eq_false fun hc => hi hc.2, Bool.false_or]
      exact ⟨fun x hcl hx => by rw [hstart]; exact h.absent x hcl hx, fun x hcl m hx => by
        rw [hstart, h.recorded_lost hp hi hcl]; exact h.peers x hcl m hx⟩
  | close sender =>
    have hkeep : ∀ x ∉ sender :: r.closed, x ∉ r.closed ∧ (if x = sender then none else r.peer x) = r.peer x :=
      fun x hx => ⟨fun hc => hx (mem_cons_of_mem _ hc), if_neg fun hc : x = sender => hx (hc ▸ mem_cons_self)⟩
    exact ⟨fun x hx hp => h.absent x (hkeep x hx).1 ((hkeep x hx).2 ▸ hp),
      fun x hx m hp => h.peers x (hkeep x hx).1 m ((hkeep x hx).2 ▸ hp)⟩

/-- The last copy of a recorded key, in the packets and in the record. -/
theorem recorded_split (hal : ∀ a ∈ hist, a.sender = x → a.key = key → a.allocOk)
    (h : key ∈ recorded x hist) : ∃ b c b' c', keysOf hist x = b ++ key :: c ∧ key ∉ b ∧
      recorded x hist = b' ++ key :: c' ∧ key ∉ b' ∧ b' ⊆ b := by
  induction hist with
  | nil => cases h
  | cons a hist ih =>
    have hal' := fun y hy => hal y (mem_cons_of_mem _ hy)
    by_cases hx : a.sender = x
    · by_cases hk : a.key = key
      · -- a copy after a recorded one is recorded too
        have hrec : recorded x (a :: hist) = a.key :: recorded x hist := by
          refine if_pos ⟨hx, hal a mem_cons_self hx hk, ?_⟩
          by_contra hc
          rw [not_or, Bool.not_eq_true, Bool.not_eq_true] at hc
          rw [recorded, if_neg (by simp [hc.1, hc.2]), recorded_nil hc.2] at h
          cases h
        refine ⟨[], keysOf hist x, [], recorded x hist, ?_, not_mem_nil, ?_, not_mem_nil,
          fun _ hm => hm⟩
        · rw [keysOf_cons, if_pos hx, hk]; rfl
        · rw [hrec, hk]; rfl
      · have hin : key ∈ recorded x hist := by
          rw [recorded] at h
          split at h
          · exact (mem_cons.mp h).resolve_left fun hc => hk hc.symm
          · exact h
        obtain ⟨b, c, b', c', h1, h2, h3, h4, h5⟩ := ih hal' hin
        refine ⟨a.key :: b, c, ?_⟩
        rw [keysOf_cons, if_pos hx, h1]
        have hb : key ∉ a.key :: b := by
          rw [mem_cons, not_or]
          exact ⟨fun hc => hk hc.symm, h2⟩
        rw [recorded]
        split
        · refine ⟨a.key :: b', c', rfl, hb, by rw [h3]; rfl, ?_, cons_subset_cons _ h5⟩
          rw [mem_cons, not_or]
          exact ⟨fun hc => hk hc.symm, h4⟩
        · exact ⟨b', c', rfl, hb, h3, h4, fun y hy => mem_cons_of_mem _ (h5 hy)⟩
    · have hrec : recorded x (a :: hist) = recorded x hist := if_neg fun hc => hx hc.1
      rw [hrec] at h ⊢
      rw [keysOf_cons, if_neg hx]
      exact ih hal' h

theorem Spaced.tail {k : MsnKey} {keys : List MsnKey} (h : Spaced (k :: keys) key) : Spaced keys key :=
  fun a b c heq hb => h (k :: a) b c (by rw [heq]; rfl) hb

theorem Spaced.held (hsp : Spaced (key :: keysOf hist x) key)
    (hal : ∀ a ∈ hist, a.sender = x → a.key = key → a.allocOk)
    (h : key ∈ recorded x hist) : key ∈ (recent (recorded x hist)).take ubmadRecvMsnMax := by
  obtain ⟨b, c, b', c', h1, h2, h3, h4, h5⟩ := recorded_split hal h
  rw [h3]
  refine mem_take_recent h4 (Nat.lt_of_le_of_lt (Finset.card_le_card ?_) (hsp [] b c ?_ h2))
  · intro y hy
    exact mem_toFinset.mpr (h5 (mem_toFinset.mp hy))
  · rw [h1]; rfl

def DeliveredOk (r : Receiver) (x : Eid) (key : MsnKey) : Prop :=
  x ∉ r.closed → (∀ a ∈ r.hist, a.sender = x → a.key = key → a.allocOk = true) → Spaced (keysOf r.hist x) key →
    r.delivered.count (x, key) = if key ∈ recorded x r.hist then 1 else 0

theorem processGenData_delivered (hf : a.sender ∉ r.closed → r.Finds hash a mgr) (hd : DeliveredOk r x key) :
    DeliveredOk (processGenData hash r a mgr) x key := by
  intro hcl hal hsp
  have hal' := fun y hy => hal y (mem_cons_of_mem _ hy)
  change Spaced (keysOf (a :: r.hist) x) key at hsp
  change (if (checkRecvMsnDuplicate hash mgr a.key a.allocOk).1 then r.delivered
    else (a.sender, a.key) :: r.delivered).count (x, key) =
      if key ∈ recorded x (a :: r.hist) then 1 else 0
  rw [keysOf_cons] at hsp
  by_cases hme : a.sender = x ∧ a.key = key
  · obtain ⟨rfl, rfl⟩ := hme
    obtain ⟨hstart, hm⟩ := hf hcl
    rw [if_pos rfl] at hsp
    have halloc := hal a mem_cons_self rfl rfl
    have hold := hd hcl hal' hsp.tail
    have hrec : recorded a.sender (a :: r.hist) = a.key :: recorded a.sender r.hist :=
      if_pos ⟨rfl, halloc, hstart⟩
    rw [hrec, if_pos mem_cons_self, halloc]
    by_cases hin : a.key ∈ recorded a.sender r.hist
    · rw [if_pos (hm.duplicate_iff.mpr (hsp.held hal' hin)), hold, if_pos hin]
    · have hnew : ¬(checkRecvMsnDuplicate hash mgr a.key true).1 := fun hc =>
        hin (mem_recent.mp (mem_of_mem_take (hm.duplicate_iff.mp hc)))
      rw [if_neg hnew, count_cons_self, hold, if_neg hin]
  · have hsp' : Spaced (keysOf r.hist x) key := by
      split at hsp
      · exact hsp.tail
      · exact hsp
    have hcount : (if (checkRecvMsnDuplicate hash mgr a.key a.allocOk).1 then r.delivered
        else (a.sender, a.key) :: r.delivered).count (x, key) = r.delivered.count (x, key) := by
      split
      · rfl
      · exact count_cons_of_ne fun hc => hme ⟨congrArg Prod.fst hc, congrArg Prod.snd hc⟩
    have hrec : key ∈ recorded x (a :: r.hist) ↔ key ∈ recorded x r.hist := by
      rw [recorded]
      split
      · next hc => rw [mem_cons]; exact or_iff_right fun hk => hme ⟨hc.1, hk.symm⟩
      · rfl
    rw [hcount, hd hcl hal' hsp']
    simp only [hrec]

theorem DeliveredOk.next {act : MadAct} (h : r.Ok hash) (hd : DeliveredOk r x key) :
    DeliveredOk (r.next hash act) x key := by
  cases act with
  | post sender k => exact hd
  | arrive a =>
    dsimp only [Receiver.next]
    cases hp : r.peer a.sender with
    | some mgr => exact processGenData_delivered (h.finds_some hp) hd
    | none =>
      dsimp only
      split
      · next hi => exact processGenData_delivered (h.finds_none hp hi) hd
      next hi =>
      intro hcl hal hsp
      rw [keysOf_cons] at hsp
      rw [h.recorded_lost hp hi hcl]
      refine hd hcl (fun y hy => hal y (mem_cons_of_mem _ hy)) ?_
      split at hsp
      · exact hsp.tail
      · exact hsp
  | close sender => exact fun hcl => hd fun hc => hcl (mem_cons_of_mem _ hc)

theorem recorded_all (h : ∀ a ∈ hist, a.sender = x → a.allocOk ∧ a.importOk) :
    recorded x hist = keysOf hist x := by
  induction hist with
  | nil => rfl
  | cons a hist ih =>
    have ih := ih fun y hy => h y (mem_cons_of_mem _ hy)
    rw [recorded, keysOf_cons, ih]
    by_cases hx : a.sender = x
    · obtain ⟨h1, h2⟩ := h a mem_cons_self hx
      rw [if_pos ⟨hx, h1, .inl h2⟩, if_pos hx]
    · rw [if_neg fun hc => hx hc.1, if_neg hx]

/-- The manager a packet of `x` will be checked against. -/
def Receiver.mgrOf (r : Receiver) (x : Eid) : MsnMgr := (r.peer x).getD initMsnMgr

theorem Receiver.Ok.mgrOf_holds (h : r.Ok hash) (hx : x ∉ r.closed) : Holds hash (r.mgrOf x) (recorded x r.hist) := by
  unfold Receiver.mgrOf
  cases hp : r.peer x with
  | none =>
    rw [recorded_nil (h.absent x hx hp)]
    exact initMsnMgr_holds
  | some mgr => exact (h.peers x hx mgr hp).2

/-- In every run, for a sender of no close request: a message no copy of which failed an
allocation, and whose copies are spaced, is delivered at most once; and when no allocation for the
sender failed, the check answers duplicate exactly for the most recent distinct messages. -/
theorem recv_at_most_once (hs : Reach Receiver.Can (Receiver.next hash) {} r) (x : Eid) (hx : x ∉ r.closed) :
    (∀ key, (∀ a ∈ r.hist, a.sender = x → a.key = key → a.allocOk = true) →
        Spaced (keysOf r.hist x) key → r.delivered.count (x, key) ≤ 1) ∧
      ((∀ a ∈ r.hist, a.sender = x → a.allocOk = true ∧ a.importOk = true) →
        ∀ key, (checkRecvMsnDuplicate hash (r.mgrOf x) key true).1 = true ↔
          key ∈ (recent (keysOf r.hist x)).take ubmadRecvMsnMax) := by
  have hinv : r.Ok hash ∧ ∀ key, DeliveredOk r x key := by
    refine hs.invariant (I := fun r => r.Ok hash ∧ ∀ key, DeliveredOk r x key)
      ⟨⟨fun _ _ _ => rfl, fun _ _ => nofun⟩, fun _ _ _ _ => rfl⟩ fun t act ht _ => ⟨ht.1.next, fun key => ?_⟩
    exact (ht.2 key).next ht.1
  refine ⟨fun key hal hsp => ?_, fun hall key => ?_⟩
  · rw [hinv.2 key hx hal hsp]
    split
    · exact Nat.le_refl 1
    · exact Nat.zero_le 1
  · rw [(hinv.1.mgrOf_holds hx).duplicate_iff, recorded_all hall]

end Runs

def copyOf (allocOk : Bool) : MadAct := .arrive ⟨fun _ => 1, ⟨7, 3⟩, true, allocOk⟩

def onePosted : Receiver := Receiver.next (fun _ => 0) {} (.post (fun _ => 1) ⟨7, 3⟩)

def twoCopies (allocOk : Bool) : Receiver :=
  (onePosted.next (fun _ => 0) (copyOf allocOk)).next (fun _ => 0) (copyOf true)

theorem twoCopies_reach (allocOk : Bool) :
    Reach Receiver.Can (Receiver.next fun _ => 0) {} (twoCopies allocOk) := by
  have hpost : Reach Receiver.Can (Receiver.next fun _ => 0) {} onePosted := .next .init trivial
  refine .next (.next hpost ?_) ?_
  · exact mem_cons_self
  · cases allocOk <;> exact mem_cons_self

theorem recv_at_most_once_twoCopies :
    (twoCopies true).delivered.count (fun _ => 1, ⟨7, 3⟩) ≤ 1 ∧ (twoCopies true).hist.length = 2 := by
  refine ⟨(recv_at_most_once (twoCopies_reach true) (fun _ => 1) (by decide +kernel)).1 _ ?_ ?_, by decide +kernel⟩
  · decide +kernel
  intro a b c heq hb
  have hkeys : keysOf (twoCopies true).hist (fun _ => 1) = [⟨7, 3⟩, ⟨7, 3⟩] := by decide +kernel
  rw [hkeys] at heq
  have hlen := congrArg List.length heq
  have hsmall := toFinset_card_le b
  simp only [length_append, length_cons, length_nil] at hlen
  have : ubmadRecvMsnMax = 4096 := rfl
  omega

/-- Without memory for the first copy's key, or with a close request between them, both copies are
delivered. -/
theorem twoCopies_delivered_twice :
    Reach Receiver.Can (Receiver.next fun _ => 0) {} (twoCopies false) ∧
      keysOf (twoCopies false).hist (fun _ => 1) = [⟨7, 3⟩, ⟨7, 3⟩] ∧
      (twoCopies false).delivered.count (fun _ => 1, ⟨7, 3⟩) = 2 ∧
      ([copyOf true, .close fun _ => 1, copyOf true].foldl (Receiver.next fun _ => 0) onePosted).delivered.count
        (fun _ => 1, ⟨7, 3⟩) = 2 :=
  ⟨twoCopies_reach false, by decide +kernel, by decide +kernel, by decide +kernel⟩

section Handed

variable {hash : MsnKey → Nat} {r : Receiver} {key : MsnKey} {a : Arrival} {mgr : MsnMgr}

/-- The keys that are kept and the packets of imported senders were handed over. -/
structure Receiver.Handed (r : Receiver) : Prop where
  kept : ∀ x mgr, r.peer x = some mgr → ∀ b, ∀ k ∈ mgr.hlist b, (x, k) ∈ r.delivered
  hist : ∀ a ∈ r.hist, a.importOk = true → (a.sender, a.key) ∈ r.delivered

theorem mem_of_evictOldest {b : Nat} (h : key ∈ (evictOldest hash mgr).hlist b) : key ∈ mgr.hlist b := by
  unfold evictOldest at h
  split at h
  · split at h
    · exact h
    · unfold onBucket at h
      grind
  · exact h

theorem checkRecvMsnDuplicate_hlist {alloc : Bool} {p : Bool × MsnMgr}
    (h : checkRecvMsnDuplicate hash mgr key alloc = p) : (p.1 → key ∈ mgr.hlist (hash key)) ∧
      ∀ b, ∀ k ∈ p.2.hlist b, k = key ∨ k ∈ mgr.hlist b := by
  unfold checkRecvMsnDuplicate at h
  split at h
  · subst h
    exact ⟨by simp, fun _ _ => .inr⟩
  split at h
  · next hk =>
    subst h
    exact ⟨fun _ => hk, fun _ _ => .inr⟩
  subst h
  refine ⟨by simp, fun b k hk => ?_⟩
  have := mem_of_evictOldest hk
  unfold onBucket at this
  grind

theorem processGenData_handed (h : r.Handed) (hm : ∀ b, ∀ k ∈ mgr.hlist b, (a.sender, k) ∈ r.delivered) :
    (processGenData hash r a mgr).Handed := by
  have hcheck := checkRecvMsnDuplicate_hlist (rfl : checkRecvMsnDuplicate hash mgr a.key a.allocOk = _)
  have hkept := h.kept
  have hhist := h.hist
  unfold processGenData
  constructor <;> grind

/-- In every run a message of a sender that was imported is handed over: the check takes none for
a duplicate that was not handed over before. -/
theorem arrivals_handed (acts : List MadAct) :
    let r := acts.foldl (Receiver.next hash) {}
    ∀ a ∈ r.hist, a.importOk = true → (a.sender, a.key) ∈ r.delivered := by
  intro r
  have h : r.Handed := by
    apply (Reach.foldl acts).invariant (I := Receiver.Handed)
    · constructor <;> simp
    · intro r act h _
      cases act with
      | post sender key => exact ⟨h.kept, h.hist⟩
      | close sender => exact ⟨by grind [h.kept, Receiver.next], h.hist⟩
      | arrive a =>
        dsimp only [Receiver.next]
        split
        · next hp => exact processGenData_handed h (h.kept _ _ hp)
        · split
          · exact processGenData_handed h (by simp [initMsnMgr])
          · exact ⟨h.kept, by grind [h.hist]⟩
  exact h.hist

end Handed

end UbDkms.Ubcore
