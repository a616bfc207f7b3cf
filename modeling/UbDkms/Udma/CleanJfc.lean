import UbDkms.Lib.Ring
import Mathlib.Logic.Function.Basic
import Mathlib.Data.Nat.Bitwise
import Mathlib.Data.List.Range

/-!
# Cleaning a completion queue

`udma_jfc.c`: when a jetty, a JFS or a JFR is destroyed, `udma_clean_jfc` takes its
completions out of the queue. It looks for the end of the pending completions,
goes back from there, moves what stays over what goes, and leaves the owner bit of
every entry as it is.

Indices are `u32`; the queue has `2 ^ cqShift` entries.
-/

namespace UbDkms.Udma

open Lib List

/-- The fields of a completion that cleaning reads, and the others in `rest`. -/
structure CqeBody where
  /-- `s_r == CQE_FOR_RECEIVE`. -/
  recv : Bool
  isJetty : Bool
  entryIdx : Nat
  localNumH : Nat
  localNumL : Nat
  rest : Nat
deriving DecidableEq

def CqeBody.localId (b : CqeBody) : Nat := b.localNumH <<< 16 ||| b.localNumL

structure Cqe where
  owner : Bool
  body : CqeBody

structure Jfc where
  /-- `mode == UDMA_NORMAL_JFC_TYPE`. -/
  normal : Bool
  cqShift : Nat
  ci : Nat
  buf : Nat → Cqe

/-- The receive queue of each jetty of `jetty_table`, and of each JFR of `jfr_table`. -/
structure JettyTables where
  jetty : Nat → Option Nat
  jfr : Nat → Option Nat

/-- `udma_get_jfr`. -/
def udmaGetJfr (t : JettyTables) (b : CqeBody) : Option Nat :=
  if b.isJetty then t.jetty b.localId else t.jfr b.localId

namespace Jfc

def entryCnt (q : Jfc) : Nat := 2 ^ q.cqShift

/-- `get_buf_entry`. -/
def getBufEntry (q : Jfc) (n : Nat) : Cqe := q.buf (n % q.entryCnt)

/-- An entry is valid if its owner bit differs from the lap bit of the index. -/
def getNextCqe (q : Jfc) (n : Nat) : Option Cqe :=
  if (q.getBufEntry n).owner = n.testBit q.cqShift then none else some (q.getBufEntry n)

/-- What polling returns from index `n` on: `udma_poll_one` until the queue is empty. -/
def poll (q : Jfc) : Nat → Nat → List CqeBody
  | 0, _ => []
  | fuel + 1, n =>
    match q.getNextCqe n with
    | none => []
    | some cqe => cqe.body :: q.poll fuel ((n + 1) % 2 ^ 32)

/-- The first loop of `udma_clean_jfc`. -/
def findPi (q : Jfc) : Nat → Nat → Nat
  | 0, pi => pi
  | fuel + 1, pi =>
    match q.getNextCqe pi with
    | none => pi
    | some _ => if (q.ci + q.entryCnt) % 2 ^ 32 < pi then pi else q.findPi fuel ((pi + 1) % 2 ^ 32)

/-- The second loop changes the buffer, counts what it removes, and returns indices to receive
queues. -/
structure Clean where
  buf : Nat → Cqe
  nfreed : Nat
  returned : List (Nat × Nat)

def cleanOne (q : Jfc) (t : JettyTables) (jettyId pi : Nat) (c : Clean) : Clean :=
  let cqe := c.buf (pi % q.entryCnt)
  if cqe.body.localId = jettyId then
    { c with
      nfreed := c.nfreed + 1
      returned :=
        if cqe.body.recv then
          match udmaGetJfr t cqe.body with
          | none => c.returned
          | some jfr => c.returned ++ [(jfr, cqe.body.entryIdx)]
        else c.returned }
  else if c.nfreed ≠ 0 then
    let dest := (pi + c.nfreed) % 2 ^ 32 % q.entryCnt
    { c with buf := Function.update c.buf dest ⟨(c.buf dest).owner, cqe.body⟩ }
  else c

/-- The difference of the indices is compared as an `int`. -/
def cleanLoop (q : Jfc) (t : JettyTables) (jettyId : Nat) : Nat → Nat → Clean → Clean
  | 0, _, c => c
  | fuel + 1, pi, c =>
    let pi := (pi + 2 ^ 32 - 1) % 2 ^ 32
    if (pi + 2 ^ 32 - q.ci) % 2 ^ 32 < 2 ^ 31 then
      q.cleanLoop t jettyId fuel pi (q.cleanOne t jettyId pi c)
    else c

/-- `udma_clean_jfc`: the queue afterwards, and the indices given back with their receive queues. -/
def udmaCleanJfc (q : Jfc) (t : JettyTables) (jettyId : Nat) : Jfc × List (Nat × Nat) :=
  if q.normal = false then (q, [])
  else
    let pi := q.findPi (q.entryCnt + 2) q.ci
    let c := q.cleanLoop t jettyId (q.entryCnt + 2) pi ⟨q.buf, 0, []⟩
    ({ q with buf := c.buf, ci := (q.ci + c.nfreed) % 2 ^ 32 }, c.returned)

end Jfc

inductive ObjKind where
  | jetty
  | jfs
  | jfr
deriving DecidableEq

structure Obj where
  kind : ObjKind
  id : Nat

/-- A send completion belongs to a jetty or JFS, a receive completion to a jetty or JFR. -/
def Obj.owns (o : Obj) (b : CqeBody) : Bool :=
  b.localId == o.id &&
    match o.kind with
    | .jetty => !b.recv || b.isJetty
    | .jfs => !b.recv
    | .jfr => b.recv && !b.isJetty

def Obj.Registered (o : Obj) (t : JettyTables) : Prop :=
  match o.kind with
  | .jetty => (t.jetty o.id).isSome = true
  | .jfs => True
  | .jfr => (t.jfr o.id).isSome = true

/-- The owner bits as the hardware sets them: `p` entries from `ci` on are pending, and the others
have the bit of the lap before. -/
structure Pending (q : Jfc) (p : Nat) : Prop where
  shift : q.cqShift ≤ 31
  ci : q.ci < 2 ^ 32
  le : p ≤ q.entryCnt
  valid : ∀ k, k < q.entryCnt → ((q.getNextCqe (q.ci + k)).isSome = true ↔ k < p)

/-! ## Indices -/

section Ring

variable {q : Jfc} {p : Nat}

theorem Pending.cnt_pos (_ : Pending q p) : 0 < q.entryCnt := Nat.two_pow_pos _

theorem Pending.cnt_le (h : Pending q p) : q.entryCnt ≤ 2 ^ 31 := Nat.pow_le_pow_right (by decide) h.shift

theorem Pending.getBufEntry_wrap (h : Pending q p) (n : Nat) :
    q.getBufEntry (n % 2 ^ 32) = q.getBufEntry n := by
  have := h.shift
  unfold Jfc.getBufEntry Jfc.entryCnt
  rw [Nat.mod_mod_of_dvd n (pow_dvd_pow 2 (by omega))]

theorem Pending.getNextCqe_wrap (h : Pending q p) (n : Nat) :
    q.getNextCqe (n % 2 ^ 32) = q.getNextCqe n := by
  have := h.shift
  unfold Jfc.getNextCqe
  rw [h.getBufEntry_wrap, Nat.testBit_mod_two_pow, decide_eq_true (by omega), Bool.true_and]

theorem getNextCqe_eq_some {n : Nat} {cqe : Cqe} (h : q.getNextCqe n = some cqe) :
    cqe = q.getBufEntry n := by
  unfold Jfc.getNextCqe at h
  split at h
  · cases h
  · exact (Option.some.inj h).symm

/-- Right after the pending completions there is an entry that is not valid, also in a full queue. -/
theorem Pending.end_none (h : Pending q p) : q.getNextCqe (q.ci + p) = none := by
  have hle := h.le
  by_cases hfull : p = q.entryCnt
  · -- the entry of the first completion, one lap later
    have h0 := (h.valid 0 h.cnt_pos).mpr (hfull ▸ h.cnt_pos)
    rw [Nat.add_zero] at h0
    have hent : q.getBufEntry (q.ci + p) = q.getBufEntry q.ci := by
      unfold Jfc.getBufEntry
      rw [hfull, Nat.add_mod_right]
    have hbit : (q.ci + p).testBit q.cqShift = !q.ci.testBit q.cqShift := by
      rw [hfull, Nat.add_comm]
      exact Nat.testBit_two_pow_add_eq ..
    unfold Jfc.getNextCqe at h0 ⊢
    rw [hent, hbit]
    split at h0
    · cases h0
    next hne =>
    rw [if_pos]
    cases hb : q.ci.testBit q.cqShift <;> cases ho : (q.getBufEntry q.ci).owner <;> simp_all
  · rw [← Option.not_isSome_iff_eq_none, h.valid p (by omega)]
    omega

/-- The bodies of `l` entries from the `a`-th after `ci` on. -/
def Jfc.seg (q : Jfc) (buf : Nat → Cqe) (a l : Nat) : List CqeBody :=
  (List.range' a l).map fun j => (buf ((q.ci + j) % q.entryCnt)).body

theorem Jfc.seg_succ (buf : Nat → Cqe) (a l : Nat) :
    q.seg buf a (l + 1) = (buf ((q.ci + a) % q.entryCnt)).body :: q.seg buf (a + 1) l := by
  unfold Jfc.seg
  rw [List.range'_succ, map_cons]

/-- A queue whose pending completions start `a` entries after those of `q`, with the same owner bits:
polling returns what lies up to the end. -/
theorem Pending.poll_eq (h : Pending q p) (q' : Jfc) (hs : q'.cqShift = q.cqShift)
    (ho : ∀ n, (q'.buf n).owner = (q.buf n).owner) (l : Nat) :
    ∀ a fuel n, a + l = p → l ≤ fuel → n = (q.ci + a) % 2 ^ 32 → q'.poll fuel n = q.seg q'.buf a l := by
  have hcnt : q'.entryCnt = q.entryCnt := congrArg (2 ^ ·) hs
  have hent : ∀ n, q'.getBufEntry n = q'.buf (n % q.entryCnt) := fun n => by
    unfold Jfc.getBufEntry
    rw [hcnt]
  have hnext : ∀ n, (q'.getNextCqe n).isSome = (q.getNextCqe n).isSome := fun n => by
    unfold Jfc.getNextCqe Jfc.getBufEntry
    rw [hcnt, hs, ho]
    split <;> rfl
  induction l with
  | zero =>
    intro a fuel n ha _ hn
    have hnone : (q'.getNextCqe n).isSome = false := by
      rw [hnext, hn, h.getNextCqe_wrap, show a = p by omega, h.end_none]
      rfl
    cases fuel with
    | zero => rfl
    | succ fuel =>
      unfold Jfc.poll
      rw [Option.isNone_iff_eq_none.mp (Option.isSome_eq_false_iff.mp hnone)]
      rfl
  | succ l ih =>
    intro a fuel n ha hf hn
    have hle := h.le
    have hsome : (q'.getNextCqe n).isSome := by
      rw [hnext, hn, h.getNextCqe_wrap, h.valid a (by omega)]
      omega
    obtain ⟨cqe, hcqe⟩ := Option.isSome_iff_exists.mp hsome
    obtain ⟨fuel, rfl⟩ : ∃ f, fuel = f + 1 := ⟨fuel - 1, by omega⟩
    have hshift := h.shift
    have hslot : n % q.entryCnt = (q.ci + a) % q.entryCnt := by
      rw [hn]
      exact Nat.mod_mod_of_dvd _ (pow_dvd_pow 2 (by omega))
    rw [Jfc.seg_succ]
    unfold Jfc.poll
    rw [hcqe]
    rw [getNextCqe_eq_some hcqe, hent, hslot, ih (a + 1) fuel _ (by omega) (by omega) ?_]
    rw [hn, Nat.mod_add_mod]
    rfl

theorem Pending.poll_self (h : Pending q p) {fuel : Nat} (hf : q.entryCnt ≤ fuel) :
    q.poll fuel q.ci = q.seg q.buf 0 p := by
  have hle := h.le
  refine h.poll_eq q rfl (fun _ => rfl) p 0 fuel q.ci (Nat.zero_add p) (by omega) ?_
  rw [Nat.add_zero, Nat.mod_eq_of_lt h.ci]

/-! ## The two loops -/

theorem Pending.findPi_eq (h : Pending q p) (hw : q.ci + q.entryCnt < 2 ^ 32) (l : Nat) :
    ∀ a fuel, a + l = p → l < fuel → q.findPi fuel (q.ci + a) = q.ci + p := by
  have hle := h.le
  induction l with
  | zero =>
    intro a fuel ha hf
    obtain ⟨fuel, rfl⟩ : ∃ f, fuel = f + 1 := ⟨fuel - 1, by omega⟩
    unfold Jfc.findPi
    rw [show a = p by omega, h.end_none]
  | succ l ih =>
    intro a fuel ha hf
    obtain ⟨fuel, rfl⟩ : ∃ f, fuel = f + 1 := ⟨fuel - 1, by omega⟩
    obtain ⟨cqe, hcqe⟩ := Option.isSome_iff_exists.mp ((h.valid a (by omega)).mpr (by omega))
    unfold Jfc.findPi
    rw [hcqe]
    rw [Nat.mod_eq_of_lt hw, if_neg (by omega), Nat.mod_eq_of_lt (by omega), Nat.add_assoc]
    exact ih (a + 1) fuel (by omega) (by omega)

/-- Where the sum wraps, the first loop does not leave its first index. -/
theorem Pending.findPi_wrap (h : Pending q p) (hw : 2 ^ 32 ≤ q.ci + q.entryCnt) (fuel : Nat) :
    q.findPi fuel q.ci = q.ci := by
  have hcnt := h.cnt_le
  have hci := h.ci
  cases fuel with
  | zero => rfl
  | succ fuel =>
    unfold Jfc.findPi
    split
    · rfl
    · rw [if_pos (by omega)]

variable (t : JettyTables) (jettyId : Nat)

/-- The rounds of the second loop for the first `k` pending completions, last one first. -/
def Jfc.sweep (q : Jfc) (t : JettyTables) (jettyId : Nat) : Nat → Jfc.Clean → Jfc.Clean
  | 0, c => c
  | k + 1, c => q.sweep t jettyId k (q.cleanOne t jettyId (q.ci + k) c)

theorem Pending.cleanLoop_eq (h : Pending q p) (k : Nat) :
    ∀ fuel c, q.ci + k < 2 ^ 32 → k ≤ q.entryCnt → k < fuel →
      q.cleanLoop t jettyId fuel (q.ci + k) c = q.sweep t jettyId k c := by
  have hci := h.ci
  have hcnt := h.cnt_le
  induction k with
  | zero =>
    intro fuel c _ _ hf
    obtain ⟨fuel, rfl⟩ : ∃ f, fuel = f + 1 := ⟨fuel - 1, by omega⟩
    dsimp only [Jfc.cleanLoop]
    rw [if_neg (by omega)]
    rfl
  | succ k ih =>
    intro fuel c hw hk hf
    obtain ⟨fuel, rfl⟩ : ∃ f, fuel = f + 1 := ⟨fuel - 1, by omega⟩
    dsimp only [Jfc.cleanLoop]
    rw [show (q.ci + (k + 1) + 2 ^ 32 - 1) % 2 ^ 32 = q.ci + k by omega, if_pos (by omega)]
    exact ih fuel _ (by omega) (by omega) (by omega)

def returnOf (b : CqeBody) : List (Nat × Nat) :=
  if b.recv then
    match udmaGetJfr t b with
    | none => []
    | some jfr => [(jfr, b.entryIdx)]
  else []

/-- After the rounds down to `k`: what stays of the completions from `k` on has moved to the end. -/
structure Swept (q : Jfc) (p k : Nat) (c : Jfc.Clean) : Prop where
  owner : ∀ n, (c.buf n).owner = (q.buf n).owner
  below : ∀ j, j < k → c.buf ((q.ci + j) % q.entryCnt) = q.buf ((q.ci + j) % q.entryCnt)
  fits : k + c.nfreed ≤ p
  moved : q.seg c.buf (k + c.nfreed) (p - (k + c.nfreed)) =
    (q.seg q.buf k (p - k)).filter fun b => b.localId ≠ jettyId
  returned : c.returned =
    ((q.seg q.buf k (p - k)).filter fun b => b.localId = jettyId).reverse.flatMap (returnOf t)

variable {t jettyId} {c : Jfc.Clean} {k : Nat}

theorem Jfc.seg_update {buf : Nat → Cqe} {x : Cqe} {d a l : Nat} (hd : d < a) (hl : a + l ≤ q.entryCnt) :
    q.seg (Function.update buf ((q.ci + d) % q.entryCnt) x) a l = q.seg buf a l := by
  refine map_congr_left fun j hj => ?_
  obtain ⟨h1, h2⟩ := mem_range'_1.mp hj
  rw [Function.update_of_ne]
  exact fun he => absurd (ring_inj (by omega) (by omega) he) (by omega)

theorem Swept.cleanOne (hp : Pending q p) (hw : q.ci + q.entryCnt < 2 ^ 32)
    (h : Swept t jettyId q p (k + 1) c) :
    Swept t jettyId q p k (q.cleanOne t jettyId (q.ci + k) c) := by
  have hle := hp.le
  have hfits := h.fits
  have hat : c.buf ((q.ci + k) % q.entryCnt) = q.buf ((q.ci + k) % q.entryCnt) := h.below k (Nat.lt_succ_self k)
  have hsucc : q.seg q.buf k (p - k) =
      (q.buf ((q.ci + k) % q.entryCnt)).body :: q.seg q.buf (k + 1) (p - (k + 1)) := by
    rw [← Jfc.seg_succ]
    congr 1
    omega
  unfold Jfc.cleanOne
  rw [hat]
  dsimp only
  split
  · next hid =>
    refine ⟨h.owner, fun j hj => h.below j (by omega), by dsimp only; omega, ?_, ?_⟩
    · rw [hsucc, filter_cons_of_neg (by simpa using hid), ← h.moved]
      rw [show k + (c.nfreed + 1) = k + 1 + c.nfreed by omega]
    · rw [hsucc, filter_cons_of_pos (by simpa using hid), reverse_cons, flatMap_append,
        ← h.returned, flatMap_singleton]
      dsimp only [returnOf]
      split
      · split <;> simp
      · simp
  next hid =>
  have hkeep : (q.seg q.buf k (p - k)).filter (fun b => decide (b.localId ≠ jettyId)) =
      (q.buf ((q.ci + k) % q.entryCnt)).body ::
        q.seg c.buf (k + 1 + c.nfreed) (p - (k + 1 + c.nfreed)) := by
    rw [hsucc, filter_cons_of_pos (by simpa using hid), ← h.moved]
  have hret : c.returned =
      ((q.seg q.buf k (p - k)).filter fun b => b.localId = jettyId).reverse.flatMap (returnOf t) := by
    rw [hsucc, filter_cons_of_neg (by simpa using hid)]
    exact h.returned
  have hlen : p - (k + c.nfreed) = p - (k + 1 + c.nfreed) + 1 := by omega
  split
  · rw [show (q.ci + k + c.nfreed) % 2 ^ 32 = q.ci + (k + c.nfreed) by omega]
    refine ⟨fun n => ?_, fun j hj => ?_, by dsimp only; omega, ?_, hret⟩
    · by_cases hn : n = (q.ci + (k + c.nfreed)) % q.entryCnt
      · rw [hn, ← h.owner]
        simp only [Function.update_self]
      · simp only [Function.update_of_ne hn, h.owner]
    · rw [← h.below j (by omega)]
      refine Function.update_of_ne (fun he => ?_) ..
      exact absurd (ring_inj (by omega) (by omega) he) (by omega)
    · rw [hkeep]
      dsimp only
      rw [hlen, Jfc.seg_succ, Function.update_self, Jfc.seg_update (by omega) (by omega)]
      congr 2
      omega
  · next hzero =>
    have hzero : c.nfreed = 0 := by simpa using hzero
    refine ⟨h.owner, fun j hj => h.below j (by omega), by omega, ?_, hret⟩
    rw [hkeep, hlen, Jfc.seg_succ, hzero, Nat.add_zero, hat]

theorem Swept.sweep (hp : Pending q p) (hw : q.ci + q.entryCnt < 2 ^ 32) (k : Nat) :
    ∀ c, Swept t jettyId q p k c → Swept t jettyId q p 0 (q.sweep t jettyId k c) := by
  induction k with
  | zero => exact fun c h => h
  | succ k ih => exact fun c h => ih _ (h.cleanOne hp hw)

theorem Swept.start : Swept t jettyId q p p ⟨q.buf, 0, []⟩ where
  owner _ := rfl
  below _ _ := rfl
  fits := le_rfl
  moved := by simp [Jfc.seg]
  returned := by simp [Jfc.seg]

theorem Jfc.udmaCleanJfc_eq {pi : Nat} (hn : q.normal) (hpi : q.findPi (q.entryCnt + 2) q.ci = pi)
    (hc : q.cleanLoop t jettyId (q.entryCnt + 2) pi ⟨q.buf, 0, []⟩ = c) :
    q.udmaCleanJfc t jettyId = ({ q with buf := c.buf, ci := (q.ci + c.nfreed) % 2 ^ 32 }, c.returned) := by
  unfold Jfc.udmaCleanJfc
  rw [if_neg (by rw [hn]; exact Bool.noConfusion)]
  dsimp only
  rw [hpi, hc]

variable (t jettyId) in
theorem Pending.clean_eq (h : Pending q p) (hn : q.normal) (hw : q.ci + q.entryCnt < 2 ^ 32)
    {fuel : Nat} (hf : q.entryCnt ≤ fuel) :
    (q.udmaCleanJfc t jettyId).1.poll fuel (q.udmaCleanJfc t jettyId).1.ci =
      (q.poll fuel q.ci).filter (fun b => b.localId ≠ jettyId) ∧
    (q.udmaCleanJfc t jettyId).2 =
      ((q.poll fuel q.ci).filter fun b => b.localId = jettyId).reverse.flatMap (returnOf t) := by
  have hle := h.le
  have hpi := h.findPi_eq hw p 0 (q.entryCnt + 2) (by omega) (by omega)
  rw [Nat.add_zero] at hpi
  have hclean := h.cleanLoop_eq t jettyId p (q.entryCnt + 2) ⟨q.buf, 0, []⟩ (by omega) hle (by omega)
  have hs : Swept t jettyId q p 0 (q.sweep t jettyId p ⟨q.buf, 0, []⟩) := Swept.sweep h hw p _ Swept.start
  generalize q.sweep t jettyId p ⟨q.buf, 0, []⟩ = c at hclean hs
  have hfits := hs.fits
  have hmoved := hs.moved
  rw [Nat.zero_add, Nat.sub_zero] at hmoved
  rw [Jfc.udmaCleanJfc_eq hn hpi hclean, h.poll_self hf]
  have hpoll := h.poll_eq { q with buf := c.buf, ci := (q.ci + c.nfreed) % 2 ^ 32 } rfl hs.owner
    (p - c.nfreed) c.nfreed fuel _ (by omega) (by omega) rfl
  exact ⟨hpoll.trans hmoved, hs.returned⟩

theorem Pending.clean_none (h : Pending q p) (hn : q.normal = false ∨ 2 ^ 32 ≤ q.ci + q.entryCnt) :
    q.udmaCleanJfc t jettyId = (q, []) := by
  have hci := h.ci
  rcases Bool.eq_false_or_eq_true q.normal with hnormal | hnormal
  · have hw := hn.resolve_left (by rw [hnormal]; exact Bool.noConfusion)
    have hloop := h.cleanLoop_eq t jettyId 0 (q.entryCnt + 2) ⟨q.buf, 0, []⟩ (by omega) (by omega) (by omega)
    rw [Nat.add_zero] at hloop
    rw [Jfc.udmaCleanJfc_eq hnormal (h.findPi_wrap hw _) hloop]
    change ({ q with ci := (q.ci + 0) % 2 ^ 32 }, []) = (q, [])
    rw [Nat.add_zero, Nat.mod_eq_of_lt hci]
  · unfold Jfc.udmaCleanJfc
    rw [if_pos hnormal]

end Ring

/-! ## The object's completions -/

theorem Obj.localId_of_owns {o : Obj} {b : CqeBody} (h : o.owns b) : b.localId = o.id := by
  unfold Obj.owns at h
  rw [Bool.and_eq_true] at h
  simpa using h.1

theorem Obj.Registered.queue {o : Obj} {t : JettyTables} (hr : o.Registered t) {b : CqeBody}
    (ho : o.owns b) (hb : b.recv) : ∃ jfr, udmaGetJfr t b = some jfr := by
  have hid := Obj.localId_of_owns ho
  unfold Obj.owns at ho
  unfold Obj.Registered at hr
  unfold udmaGetJfr
  rw [hid]
  rw [hb] at ho
  cases hk : o.kind <;> rw [hk] at ho hr <;> cases hj : b.isJetty <;> rw [hj] at ho
  all_goals first
    | exact Option.isSome_iff_exists.mp hr
    | simp at ho

def withQueue (t : JettyTables) (l : List CqeBody) : List (Option Nat × Nat) :=
  (l.filter (·.recv)).map fun b => (udmaGetJfr t b, b.entryIdx)

theorem returned_all {t : JettyTables} (l : List CqeBody)
    (h : ∀ b, b ∈ l → b.recv → ∃ jfr, udmaGetJfr t b = some jfr) :
    (l.flatMap (returnOf t)).map (fun x => (some x.1, x.2)) = withQueue t l := by
  induction l with
  | nil => rfl
  | cons b l ih =>
    have ih := ih fun b hb => h b (mem_cons_of_mem _ hb)
    unfold withQueue at ih ⊢
    rw [flatMap_cons, map_append, ih]
    unfold returnOf
    by_cases hb : b.recv = true
    · obtain ⟨jfr, hj⟩ := h b mem_cons_self hb
      rw [filter_cons_of_pos (by simpa using hb), if_pos hb, hj, map_cons, map_cons, hj]
      rfl
    · rw [filter_cons_of_neg (by simpa using hb), if_neg hb]
      rfl

/-- Polling sees what was pending without the object's completions, and every receive completion of
the object gave its index back to its receive queue, once. -/
def CleansExactly (q : Jfc) (t : JettyTables) (o : Obj) : Prop :=
  ∀ fuel, q.entryCnt ≤ fuel →
    (q.udmaCleanJfc t o.id).1.poll fuel (q.udmaCleanJfc t o.id).1.ci =
      (q.poll fuel q.ci).filter (fun b => !o.owns b) ∧
    (q.udmaCleanJfc t o.id).2.map (fun x => (some x.1, x.2)) =
      withQueue t ((q.poll fuel q.ci).filter fun b => o.owns b).reverse

/-- Cleaning is exact if the index of the last entry does not wrap and no other object of the same id
has a completion pending; where it does nothing, if the object has none. -/
theorem clean_exact_iff {q : Jfc} {p : Nat} (h : Pending q p) (t : JettyTables) (o : Obj)
    (hr : o.Registered t) :
    CleansExactly q t o ↔
      if q.normal = true ∧ q.ci + q.entryCnt < 2 ^ 32
      then ∀ b, b ∈ q.poll q.entryCnt q.ci → b.localId = o.id → o.owns b = true
      else ∀ b, b ∈ q.poll q.entryCnt q.ci → o.owns b = false := by
  have hsame : ∀ fuel, q.entryCnt ≤ fuel → q.poll fuel q.ci = q.poll q.entryCnt q.ci := fun fuel hf => by
    rw [h.poll_self hf, h.poll_self le_rfl]
  split
  · next hc =>
    have hdo := fun fuel (hf : q.entryCnt ≤ fuel) => h.clean_eq t o.id hc.1 hc.2 hf
    constructor
    · intro hex b hb hid
      by_contra hno
      have hmem : b ∈ (q.poll q.entryCnt q.ci).filter (fun b => !o.owns b) :=
        mem_filter.mpr ⟨hb, by simpa using hno⟩
      rw [← (hex _ le_rfl).1, (hdo _ le_rfl).1] at hmem
      simpa [hid] using (mem_filter.mp hmem).2
    intro hown fuel hf
    obtain ⟨hpoll, hret⟩ := hdo fuel hf
    have hiff : ∀ b, b ∈ q.poll fuel q.ci → (b.localId = o.id ↔ o.owns b) := fun b hb =>
      ⟨hown b (hsame fuel hf ▸ hb), Obj.localId_of_owns⟩
    refine ⟨hpoll.trans (filter_congr fun b hb => ?_), ?_⟩
    · have := hiff b hb
      cases ho : o.owns b <;> simp_all
    rw [hret, returned_all]
    · congr 2
      refine filter_congr fun b hb => ?_
      have := hiff b hb
      cases ho : o.owns b <;> simp_all
    · intro b hb hrecv
      obtain ⟨hb, hid⟩ := mem_filter.mp (mem_reverse.mp hb)
      exact hr.queue ((hiff b hb).mp (by simpa using hid)) hrecv
  next hc =>
  have hskip : q.udmaCleanJfc t o.id = (q, []) := h.clean_none <| by
    by_cases hn : q.normal = true
    · exact .inr (Nat.le_of_not_lt fun hw => hc ⟨hn, hw⟩)
    · exact .inl (by simpa using hn)
  constructor
  · intro hex b hb
    have hpoll := (hex _ le_rfl).1
    rw [hskip] at hpoll
    rw [hpoll] at hb
    simpa using (mem_filter.mp hb).2
  · intro hnone fuel hf
    rw [hskip]
    have hnone : ∀ b, b ∈ q.poll fuel q.ci → o.owns b = false := fun b hb => hnone b (hsame fuel hf ▸ hb)
    refine ⟨(filter_eq_self.mpr fun b hb => ?_).symm, ?_⟩
    · rw [hnone b hb]
      rfl
    · rw [filter_eq_nil_iff.mpr fun b hb => by rw [hnone b hb]; exact Bool.false_ne_true]
      rfl

def recvOf (isJetty : Bool) (idx : Nat) : CqeBody := ⟨true, isJetty, idx, 0, 5, 0⟩

/-- 64 entries, the least a queue has, two of them pending: receive completions of jetty 5 and of `other`. -/
def twoPending (other : CqeBody) : Jfc :=
  ⟨true, 6, 0, fun n =>
    if n = 0 then ⟨true, recvOf true 7⟩ else if n = 1 then ⟨true, other⟩ else ⟨false, other⟩⟩

def lastLap : Jfc :=
  ⟨true, 6, 2 ^ 32 - 64, fun n => if n = 0 then ⟨false, recvOf true 7⟩ else ⟨true, recvOf true 7⟩⟩

def tablesFive : JettyTables :=
  ⟨fun id => if id = 5 then some 1 else none, fun id => if id = 5 then some 2 else none⟩

theorem clean_exact_iff_two :
    CleansExactly (twoPending ⟨false, true, 3, 0, 6, 0⟩) tablesFive ⟨.jetty, 5⟩ := by
  have h : Pending (twoPending ⟨false, true, 3, 0, 6, 0⟩) 2 :=
    ⟨by decide +kernel, by decide +kernel, by decide +kernel, by decide +kernel⟩
  refine (clean_exact_iff h tablesFive ⟨.jetty, 5⟩ rfl).mpr ?_
  rw [if_pos (by decide +kernel)]
  decide +kernel

/-- Destroying jetty 5 removes a completion of JFR 5, and near the end of the indices nothing. -/
theorem clean_inexact :
    (Pending (twoPending (recvOf false 8)) 2 ∧
      ¬ CleansExactly (twoPending (recvOf false 8)) tablesFive ⟨.jetty, 5⟩) ∧
    Pending lastLap 1 ∧ ¬ CleansExactly lastLap tablesFive ⟨.jetty, 5⟩ := by
  refine ⟨⟨⟨by decide +kernel, by decide +kernel, by decide +kernel, by decide +kernel⟩, fun h => ?_⟩,
    ⟨by decide +kernel, by decide +kernel, by decide +kernel, by decide +kernel⟩, fun h => ?_⟩
  · exact absurd (h 64 (by decide +kernel)).1 (by decide +kernel)
  · exact absurd (h 64 (by decide +kernel)).1 (by decide +kernel)

end UbDkms.Udma
