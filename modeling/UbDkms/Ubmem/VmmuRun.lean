import UbDkms.Ubmem.Vmmu

/-!
# What the vMMU requests say

Read byte by byte, the requests of a context are the pieces given for its range
(`MapCtx.Holds`). A thread has at most one context in the table, and none between two
ranges, so contexts of different attempts never mix.
-/

namespace UbDkms.Ubmem

open Lib List
open Function (update update_self update_of_ne)

/-! ## Areas read byte by byte -/

/-- The bytes of consecutive areas from `uba` on, each with where it is mapped to. -/
def laid : Nat → List Area → List (Nat × Nat)
  | _, [] => []
  | uba, a :: l =>
    (List.range a.size).map (fun i => ((uba + i) % 2 ^ 64, (a.gpa + i) % 2 ^ 64)) ++
      laid (uba + a.size) l

def areaSum (l : List Area) : Nat := (l.map Area.size).sum

@[simp] theorem areaSum_append (l l' : List Area) :
    areaSum (l ++ l') = areaSum l + areaSum l' := by
  simp [areaSum]

@[simp] theorem areaSum_single (a : Area) : areaSum [a] = a.size := by
  simp [areaSum]

theorem laid_append (uba : Nat) (l l' : List Area) :
    laid uba (l ++ l') = laid uba l ++ laid (uba + areaSum l) l' := by
  induction l generalizing uba with
  | nil => simp [laid, areaSum]
  | cons a l ih =>
    have h : areaSum (a :: l) = a.size + areaSum l := by simp [areaSum]
    rw [cons_append, laid, laid, ih, append_assoc, h, Nat.add_assoc]

theorem laid_congr {a b : Nat} (h : a % 2 ^ 64 = b % 2 ^ 64) (l : List Area) :
    laid a l = laid b l := by
  induction l generalizing a b with
  | nil => rfl
  | cons x l ih =>
    have hx : (a + x.size) % 2 ^ 64 = (b + x.size) % 2 ^ 64 := by
      rw [Nat.add_mod, h, ← Nat.add_mod]
    rw [laid, laid, ih hx]
    congr 2
    funext i
    rw [Nat.add_mod a, h, ← Nat.add_mod]

theorem laid_split (uba p a b : Nat) :
    laid uba [⟨p, a + b⟩] = laid uba [⟨p, a⟩] ++ laid (uba + a) [⟨(p + a) % 2 ^ 64, b⟩] := by
  simp only [laid, append_nil, range_add, map_append, map_map]
  congr 2
  funext i
  simp [Nat.add_assoc]

theorem laid_empty (uba p : Nat) : laid uba [⟨p, 0⟩] = [] := by
  simp [laid]

/-! ## Requests within the limits -/

structure UbmRequest.Fits (g : VmmuCfg) (r : UbmRequest) : Prop where
  opcode : r.opcode = .map
  tid : r.tid = g.tid
  size : r.size = areaSum r.areas
  le : r.size ≤ g.maxReqSize
  areas : ∀ a ∈ r.areas, pageSize4K ∣ a.size ∧ 0 < a.size

theorem dvd_areaSum {l : List Area} (h : ∀ a ∈ l, pageSize4K ∣ a.size ∧ 0 < a.size) :
    pageSize4K ∣ areaSum l := by
  refine dvd_sum fun x hx => ?_
  obtain ⟨a, ha, rfl⟩ := mem_map.mp hx
  exact (h a ha).1

namespace MapCtx

variable {g : VmmuCfg} {c : MapCtx} {uba : Nat}

def bytes (rs : List UbmRequest) : List (Nat × Nat) := rs.flatMap fun r => laid r.uba r.areas

/-- The requests fit and the last one ends at `uba`. -/
structure Good (g : VmmuCfg) (c : MapCtx) (uba : Nat) : Prop where
  fits : ∀ r ∈ c.reqs, r.Fits g
  tid : c.tid = g.tid
  stop : (c.last.uba + c.last.size) % 2 ^ 64 = uba % 2 ^ 64

theorem Good.last (h : Good g c uba) : c.last.Fits g := h.fits _ (by simp [reqs])

theorem new_good (g : VmmuCfg) (pid uba : Nat) : Good g (.new g.tid pid uba) uba := by
  refine ⟨fun r hr => ?_, rfl, rfl⟩
  obtain rfl : r = { tid := g.tid, uba } := by simpa [reqs, new] using hr
  exact ⟨rfl, rfl, rfl, Nat.zero_le _, fun _ ha => nomatch ha⟩

theorem Good.create (h : Good g c uba) : Good g (c.createMapInfo uba) uba := by
  refine ⟨fun r hr => ?_, h.tid, rfl⟩
  rcases mem_append.mp hr with hr | hr
  · exact h.fits r hr
  · obtain rfl : r = { tid := c.tid, uba } := by simpa [createMapInfo] using hr
    exact ⟨rfl, h.tid, rfl, Nat.zero_le _, fun _ ha => nomatch ha⟩

theorem bytes_create (c : MapCtx) (uba : Nat) :
    bytes (c.createMapInfo uba).reqs = bytes c.reqs := by
  simp [bytes, createMapInfo, reqs, laid]

theorem Good.addArea (h : Good g c uba) {p n : Nat} (hd : pageSize4K ∣ n) (h0 : 0 < n)
    (hn : n ≤ g.maxReqSize - c.last.size) : Good g (c.addArea p n) (uba + n) := by
  have hl := h.last
  refine ⟨fun r hr => ?_, h.tid, ?_⟩
  · rcases mem_append.mp hr with hr | hr
    · exact h.fits r (mem_append_left _ hr)
    obtain rfl := mem_singleton.mp hr
    refine ⟨hl.opcode, hl.tid, ?_, ?_, fun a ha => ?_⟩
    · simp [MapCtx.addArea, hl.size]
    · have := hl.le
      simp only [MapCtx.addArea]
      omega
    · rcases mem_append.mp ha with ha | ha
      · exact hl.areas a ha
      · obtain rfl := mem_singleton.mp ha
        exact ⟨hd, h0⟩
  · show (c.last.uba + (c.last.size + n)) % 2 ^ 64 = _
    rw [← Nat.add_assoc, Nat.add_mod, h.stop, ← Nat.add_mod]

theorem Good.bytes_addArea (h : Good g c uba) (p n : Nat) :
    bytes (c.addArea p n).reqs = bytes c.reqs ++ laid uba [⟨p, n⟩] := by
  have hstop : (c.last.uba + areaSum c.last.areas) % 2 ^ 64 = uba % 2 ^ 64 := by
    rw [← h.last.size]
    exact h.stop
  simp only [bytes, reqs, MapCtx.addArea, flatMap_append, flatMap_cons,
    flatMap_nil, append_nil, laid_append, append_assoc]
  rw [laid_congr hstop]

theorem Good.congr (h : Good g c uba) {uba' : Nat} (he : uba % 2 ^ 64 = uba' % 2 ^ 64) :
    Good g c uba' :=
  ⟨h.fits, h.tid, h.stop.trans he⟩

/-- What an `addMapInfo` of up to `need` bytes has done when `k` bytes are in. -/
structure Added (g : VmmuCfg) (c c' : MapCtx) (uba paddr k : Nat) : Prop where
  good : Good g c' (uba + k)
  bytes : bytes c'.reqs = bytes c.reqs ++ laid uba [⟨paddr, k⟩]
  pid : c'.pid = c.pid
  start : c'.ubaStart = c.ubaStart

theorem Added.trans {c₁ c₂ : MapCtx} {paddr a b : Nat} (h : Added g c c₁ uba paddr a)
    (h' : Added g (c₁.createMapInfo ((uba + a) % 2 ^ 64)) c₂ ((uba + a) % 2 ^ 64)
      ((paddr + a) % 2 ^ 64) b) : Added g c c₂ uba paddr (a + b) := by
  refine ⟨h'.good.congr ?_, ?_, h'.pid.trans h.pid, h'.start.trans h.start⟩
  · rw [← Nat.add_assoc, Nat.add_mod, Nat.mod_mod, ← Nat.add_mod]
  · rw [h'.bytes, bytes_create, h.bytes, laid_split, append_assoc,
      laid_congr (Nat.mod_mod _ _)]

theorem curMapSize_le (g : VmmuCfg) (c : MapCtx) (need : Nat) :
    c.curMapSize g need ≤ need ∧ c.curMapSize g need ≤ g.maxReqSize - c.last.size := by
  unfold curMapSize
  split <;> omega

theorem Good.dvd_curMapSize (h : Good g c uba) {need : Nat} (hd : pageSize4K ∣ need) :
    pageSize4K ∣ c.curMapSize g need := by
  unfold curMapSize
  split
  · exact hd
  refine Nat.dvd_sub (Dvd.intro_left _ rfl) ?_
  rw [h.last.size]
  exact dvd_areaSum h.last.areas

theorem Good.addMapInfo (n : Nat) {p need m : Nat} (h : Good g c uba)
    (hd : pageSize4K ∣ need) :
    ∃ k, (c.addMapInfo g n uba p need m).2 = m + k ∧
      Added g c (c.addMapInfo g n uba p need m).1 uba p k := by
  induction n generalizing c uba p need m with
  | zero =>
    unfold MapCtx.addMapInfo
    by_cases h0 : c.curMapSize g need = 0
    · refine ⟨0, by simp [h0], ?_⟩
      simpa [h0] using ⟨h, by rw [laid_empty, append_nil], rfl, rfl⟩
    refine ⟨c.curMapSize g need, by simp [h0], ?_⟩
    have hadd : Added g c (c.addArea p (c.curMapSize g need)) uba p
        (c.curMapSize g need) :=
      ⟨h.addArea (h.dvd_curMapSize hd) (by omega) (curMapSize_le g c need).2,
        h.bytes_addArea _ _, rfl, rfl⟩
    simpa [h0] using hadd
  | succ n ih =>
    unfold MapCtx.addMapInfo
    by_cases h0 : c.curMapSize g need = 0
    · -- the last request is full: the loop goes on with a new one
      obtain ⟨k, hk, ha⟩ := ih (m := m) h.create hd
      refine ⟨k, by simpa [h0] using hk, ?_⟩
      have hadd : Added g c _ uba p k :=
        ⟨ha.good, by rw [ha.bytes, bytes_create], ha.pid, ha.start⟩
      simpa [h0] using hadd
    set cur := c.curMapSize g need with hcur
    have hle := curMapSize_le g c need
    have hdc := h.dvd_curMapSize hd
    have hgood := h.addArea (p := p) hdc (by omega) hle.2
    by_cases h1 : need - cur = 0
    · refine ⟨cur, by simp [h0, h1], ?_⟩
      have hadd : Added g c (c.addArea p cur) uba p cur :=
        ⟨hgood, h.bytes_addArea _ _, rfl, rfl⟩
      simpa [h0, h1] using hadd
    obtain ⟨k, hk, ha⟩ := ih (m := m + cur)
      (hgood.congr (Nat.mod_mod _ _).symm).create (Nat.dvd_sub hd hdc)
    refine ⟨cur + k, by simpa [h0, h1, Nat.add_assoc] using hk, ?_⟩
    have hfirst : Added g c (c.addArea p cur) uba p cur :=
      ⟨hgood, h.bytes_addArea _ _, rfl, rfl⟩
    simpa [h0, h1] using hfirst.trans ha

/-- The context has exactly what was given for the range of `t`. -/
structure Holds (g : VmmuCfg) (c : MapCtx) (t : VmThread) : Prop where
  good : Good g c (t.start + t.size)
  bytes : bytes c.reqs = laid t.start t.pieces
  start : c.ubaStart = t.start

theorem Holds.fresh {t : VmThread} (pid : Nat) (hs : t.start < 2 ^ 64) (hp : t.pieces = []) :
    Holds g (.new g.tid pid t.stop) t := by
  have hsize : t.size = 0 := by simp [VmThread.size, hp]
  have hstop : t.stop = t.start := by
    rw [VmThread.stop, hsize, Nat.add_zero, Nat.mod_eq_of_lt hs]
  refine ⟨?_, by simp [MapCtx.bytes, reqs, new, laid, hp], hstop⟩
  rw [hsize, Nat.add_zero, hstop]
  exact new_good g pid t.start

theorem Holds.add {t : VmThread} {c' : MapCtx} {p : Area} (h : Holds g c t)
    (ha : Added g c c' t.stop p.gpa p.size) (pc : VmPc) (e : Nat) :
    Holds g { c' with ubaEnd := e } { t with pc, pieces := t.pieces ++ [p] } := by
  have hsize : ({ t with pc, pieces := t.pieces ++ [p] } : VmThread).size = t.size + p.size := by
    simp [VmThread.size]
  refine ⟨⟨ha.good.fits, ha.good.tid, ?_⟩, ?_, ha.start.trans h.start⟩
  · refine ha.good.stop.trans ?_
    rw [hsize, ← Nat.add_assoc, Nat.add_mod, VmThread.stop, Nat.mod_mod, ← Nat.add_mod]
  · refine ha.bytes.trans ?_
    have hlaid : laid t.stop [p] = laid (t.start + t.size) [p] := laid_congr (Nat.mod_mod _ _) _
    rw [h.bytes, laid_append, hlaid]
    rfl

end MapCtx

namespace Vmmu

variable {g : VmmuCfg} {s s' : Vmmu} {pid : Nat}

def mine (g : VmmuCfg) (s : Vmmu) (pid : Nat) : List Nat :=
  (s.bucket (g.pidHash pid)).filter fun id => (s.ctx id).pid = pid

/-- What a thread has in the table and in its hands, by where it is. -/
def ThreadOk (g : VmmuCfg) (ctx : Nat → MapCtx) (mine : List Nat) (pid : Nat) (t : VmThread) :
    Prop :=
  match t.pc with
  | .idle => mine = []
  | .ready => (t.pieces = [] ∧ mine = []) ∨
      ∃ id, mine = [id] ∧ (ctx id).Holds g t ∧ (ctx id).ubaEnd = t.stop
  | .alloc p => pageSize4K ∣ p.size ∧ t.pieces = [] ∧ mine = []
  | .link p c => pageSize4K ∣ p.size ∧ mine = [] ∧ c.Holds g t ∧ c.pid = pid
  | .add p id => pageSize4K ∣ p.size ∧ mine = [id] ∧ (ctx id).Holds g t
  | .unlink id => mine = [id]
  | .sending rest sent ret => mine = [] ∧ (∀ r ∈ sent ++ rest, r.Fits g) ∧
      (ret = 0 → MapCtx.bytes (sent ++ rest) = laid t.start t.pieces)

def SyncOk (g : VmmuCfg) (d : SyncMap) : Prop :=
  d.ret = 0 → (∀ r ∈ d.reqs, r.Fits g) ∧ MapCtx.bytes d.reqs = laid d.start d.pieces

structure Inv (g : VmmuCfg) (s : Vmmu) : Prop where
  start : ∀ q, (s.thread q).start < 2 ^ 64
  thread : ∀ q, ThreadOk g s.ctx (s.mine g q) q (s.thread q)
  bucket : ∀ b, ∀ id ∈ s.bucket b, id < s.next ∧ g.pidHash (s.ctx id).pid = b
  sent : ∀ r ∈ s.sent, r.Fits g
  done : ∀ d ∈ s.done, SyncOk g d

theorem find_mine (P : Nat → Prop) [DecidablePred P] :
    ((s.bucket (g.pidHash pid)).find? fun id => (s.ctx id).pid = pid ∧ P id) =
      (s.mine g pid).find? fun id => P id := by
  rw [mine, List.find?_filter]
  congr 1
  funext id
  simp

/-- What a step of `pid` leaves alone. -/
structure Frame (g : VmmuCfg) (s s' : Vmmu) (pid : Nat) : Prop where
  mine : ∀ q, q ≠ pid → s'.mine g q = s.mine g q
  ctx : ∀ id, (s.ctx id).pid ≠ pid → id < s.next → s'.ctx id = s.ctx id
  thread : ∀ q, q ≠ pid → s'.thread q = s.thread q

theorem mine_pid {id q : Nat} (h : id ∈ s.mine g q) : (s.ctx id).pid = q := by
  simpa using (mem_filter.mp h).2

theorem ThreadOk.congr {ctx ctx' : Nat → MapCtx} {mine : List Nat} {t : VmThread}
    (h : ThreadOk g ctx mine pid t) (hc : ∀ id ∈ mine, ctx' id = ctx id) :
    ThreadOk g ctx' mine pid t := by
  unfold ThreadOk at h ⊢
  split at h
  case h_2 =>
    rcases h with h | ⟨id, hm, h⟩
    · exact .inl h
    · exact .inr ⟨id, hm, by rwa [hc id (by simp [hm])]⟩
  case h_5 id _ =>
    exact ⟨h.1, h.2.1, by rw [hc id (by simp [h.2.1])]; exact h.2.2⟩
  all_goals exact h

theorem Inv.of_frame (i : Inv g s) (pid : Nat) (f : Frame g s s' pid) (hs : (s'.thread pid).start < 2 ^ 64)
    (ht : ThreadOk g s'.ctx (s'.mine g pid) pid (s'.thread pid))
    (hb : ∀ b, ∀ id ∈ s'.bucket b, id < s'.next ∧ g.pidHash (s'.ctx id).pid = b)
    (hsent : ∀ r ∈ s'.sent, r.Fits g) (hdone : ∀ d ∈ s'.done, SyncOk g d) : Inv g s' := by
  refine ⟨fun q => ?_, fun q => ?_, hb, hsent, hdone⟩
  · by_cases hq : q = pid
    · rw [hq]; exact hs
    · rw [f.thread q hq]; exact i.start q
  by_cases hq : q = pid
  · rw [hq]; exact ht
  rw [f.thread q hq, f.mine q hq]
  refine (i.thread q).congr fun id hid => f.ctx id ?_ ?_
  · rw [mine_pid hid]; exact hq
  · exact (i.bucket _ id (mem_of_mem_filter hid)).1

theorem Inv.setThread (i : Inv g s) {t : VmThread} (hs : t.start < 2 ^ 64)
    (ht : ThreadOk g s.ctx (s.mine g pid) pid t) : Inv g (s.setThread pid t) := by
  refine i.of_frame pid ⟨fun _ _ => rfl, fun _ _ _ => rfl, fun q hq => update_of_ne hq _ _⟩
    ?_ ?_ i.bucket i.sent i.done
  · simpa [Vmmu.setThread] using hs
  · have : (s.setThread pid t).thread pid = t := update_self ..
    rw [this]
    exact ht

theorem Inv.begin (i : Inv g s) {start : Nat} (hs : start < 2 ^ 64)
    (hpc : (s.thread pid).pc = .idle) : Inv g (s.setThread pid { pc := .ready, start }) := by
  have ht := i.thread pid
  rw [ThreadOk, hpc] at ht
  exact i.setThread hs (.inl ⟨rfl, ht⟩)

theorem Inv.mapPages (i : Inv g s) {p : Area} (hp : pageSize4K ∣ p.size)
    (hpc : (s.thread pid).pc = .ready) : Inv g (s.mapPages g pid p) := by
  have ht := i.thread pid
  rw [ThreadOk, hpc] at ht
  have hfind : s.getMapCtx g pid (s.thread pid).stop =
      (s.mine g pid).find? fun id => (s.ctx id).ubaEnd = (s.thread pid).stop := find_mine _
  dsimp only [Vmmu.mapPages]
  rcases ht with ⟨h0, hm⟩ | ⟨id, hm, hh, he⟩
  · rw [hfind, hm]
    exact i.setThread (i.start pid) ⟨hp, h0, hm⟩
  -- the only context of the thread ends where the piece begins
  rw [hfind, hm, List.find?_cons_of_pos (by simpa using he)]
  exact i.setThread (i.start pid) ⟨hp, hm, hh.good, hh.bytes, hh.start⟩

theorem Inv.allocCtx (i : Inv g s) {p : Area} (ok : Bool)
    (hpc : (s.thread pid).pc = .alloc p) : Inv g (s.allocCtx g pid p ok) := by
  have ht := i.thread pid
  rw [ThreadOk, hpc] at ht
  obtain ⟨hp, h0, hm⟩ := ht
  cases ok with
  | false => exact i.setThread (by decide) hm
  | true =>
    have hh := MapCtx.Holds.fresh (g := g) pid (i.start pid) h0
    exact i.setThread (i.start pid) ⟨hp, hm, ⟨hh.good, hh.bytes, hh.start⟩, rfl⟩

theorem filter_ctx {ctx ctx' : Nat → MapCtx} {l : List Nat} (q : Nat)
    (h : ∀ id ∈ l, (ctx' id).pid = (ctx id).pid) :
    (l.filter fun id => (ctx' id).pid = q) = l.filter fun id => (ctx id).pid = q :=
  filter_congr fun id hid => by rw [h id hid]

section

variable (i : Inv g s)
include i

theorem Inv.linkCtx {p : Area} {c : MapCtx}
    (hpc : (s.thread pid).pc = .link p c) : Inv g (s.linkCtx g pid p c) := by
  have ht := i.thread pid
  rw [ThreadOk, hpc] at ht
  obtain ⟨hp, hm, hh, hcp⟩ := ht
  have hold : ∀ b, ∀ id ∈ s.bucket b, update s.ctx s.next c id = s.ctx id :=
    fun b id hid => update_of_ne (Nat.ne_of_lt (i.bucket b id hid).1) _ _
  have hmine : ∀ q, (s.linkCtx g pid p c).mine g q =
      s.mine g q ++ if q = pid then [s.next] else [] := by
    intro q
    have hq : (s.bucket (g.pidHash q)).filter
        (fun id => (update s.ctx s.next c id).pid = q) = s.mine g q :=
      filter_ctx q fun id hid => by rw [hold _ id hid]
    show List.filter (fun id => (update s.ctx s.next c id).pid = q)
      (update s.bucket (g.pidHash pid) (s.bucket (g.pidHash pid) ++ [s.next])
        (g.pidHash q)) = _
    by_cases hb : g.pidHash q = g.pidHash pid
    · rw [hb, update_self, ← hb, filter_append, hq]
      congr 1
      by_cases hp : q = pid
      · simp [hp, hcp]
      · simp [hp, hcp, Ne.symm hp]
    · rw [update_of_ne hb, hq, if_neg (fun h => hb (by rw [h]))]
      simp [mine]
  have hthread : (s.linkCtx g pid p c).thread pid = { s.thread pid with pc := .add p s.next } :=
    update_self ..
  refine i.of_frame pid ⟨fun q hq => by rw [hmine, if_neg hq, append_nil],
    fun id _ hid => update_of_ne (Nat.ne_of_lt hid) _ _,
    fun q hq => update_of_ne hq _ _⟩ ?_ ?_ ?_ i.sent i.done
  · rw [hthread]; exact i.start pid
  · rw [hthread, hmine, if_pos rfl, hm]
    refine ⟨hp, rfl, ?_⟩
    rw [show (s.linkCtx g pid p c).ctx s.next = c from update_self ..]
    exact ⟨hh.good, hh.bytes, hh.start⟩
  intro b id hid
  change id ∈ update s.bucket (g.pidHash pid) (s.bucket (g.pidHash pid) ++ [s.next]) b
    at hid
  have hnew : id ∈ s.bucket b ∨ id = s.next ∧ b = g.pidHash pid := by
    by_cases hb : b = g.pidHash pid
    · subst hb
      simpa using hid
    · rw [update_of_ne hb] at hid
      exact .inl hid
  show id < s.next + 1 ∧ g.pidHash (update s.ctx s.next c id).pid = b
  rcases hnew with h | ⟨rfl, rfl⟩
  · rw [hold b id h]
    exact ⟨Nat.lt_succ_of_lt (i.bucket b id h).1, (i.bucket b id h).2⟩
  · rw [update_self, hcp]
    exact ⟨Nat.lt_succ_self _, rfl⟩

theorem Inv.setCtx {id : Nat} {c : MapCtx} {t : VmThread}
    (hm : s.mine g pid = [id]) (hcp : c.pid = pid) (hs : t.start < 2 ^ 64)
    (ht : ThreadOk g (update s.ctx id c) [id] pid t) :
    Inv g ({ s with ctx := update s.ctx id c }.setThread pid t) := by
  have hid : (s.ctx id).pid = pid := mine_pid (by rw [hm]; simp)
  have hpid : ∀ k, (update s.ctx id c k).pid = (s.ctx k).pid := by
    intro k
    by_cases hk : k = id
    · rw [hk, update_self, hcp, hid]
    · rw [update_of_ne hk]
  have hmine : ∀ q, ({ s with ctx := update s.ctx id c }.setThread pid t).mine g q =
      s.mine g q := fun q => filter_ctx q fun k _ => hpid k
  have hthread : ({ s with ctx := update s.ctx id c }.setThread pid t).thread pid = t :=
    update_self ..
  refine i.of_frame pid ⟨fun q _ => hmine q, fun k hk _ => update_of_ne ?_ _ _,
    fun q hq => update_of_ne hq _ _⟩ ?_ ?_ ?_ i.sent i.done
  · rintro rfl
    exact hk hid
  · rw [hthread]; exact hs
  · rw [hthread, hmine, hm]; exact ht
  · intro b k hk
    refine ⟨(i.bucket b k hk).1, ?_⟩
    show g.pidHash (update s.ctx id c k).pid = b
    rw [hpid]
    exact (i.bucket b k hk).2

theorem Inv.addPiece {p : Area} {id : Nat} (n : Nat)
    (hpc : (s.thread pid).pc = .add p id) : Inv g (s.addPiece g pid p id n) := by
  have ht := i.thread pid
  rw [ThreadOk, hpc] at ht
  obtain ⟨hp, hm, hh⟩ := ht
  have hid : (s.ctx id).pid = pid := mine_pid (by rw [hm]; simp)
  have hgood : MapCtx.Good g (s.ctx id) (s.thread pid).stop :=
    hh.good.congr (Nat.mod_mod _ _).symm
  obtain ⟨k, hk, ha⟩ := hgood.addMapInfo n hp
  rw [Nat.zero_add] at hk
  dsimp only [Vmmu.addPiece]
  split
  · exact i.setCtx hm (ha.pid.trans hid) (i.start pid) rfl
  rename_i hne
  rw [not_not, hk] at hne
  subst hne
  refine i.setCtx hm (ha.pid.trans hid) (i.start pid) (.inr ⟨id, rfl, ?_, ?_⟩)
  · rw [update_self]
    exact hh.add ha .ready _
  · rw [update_self, hk]
    simp [VmThread.stop, VmThread.size, Nat.add_assoc]

theorem Inv.listDel {id : Nat} {t : VmThread} (hm : s.mine g pid = [id])
    (hs : t.start < 2 ^ 64) (ht : ThreadOk g s.ctx [] pid t) :
    Inv g ((s.listDel g pid id).setThread pid t) := by
  have hid : (s.ctx id).pid = pid := mine_pid (by rw [hm]; simp)
  have hmine : ∀ q, ((s.listDel g pid id).setThread pid t).mine g q =
      (s.mine g q).filter (· ≠ id) := by
    intro q
    show List.filter (fun k => (s.ctx k).pid = q) (update s.bucket (g.pidHash pid)
      ((s.bucket (g.pidHash pid)).filter (· ≠ id)) (g.pidHash q)) = _
    by_cases hb : g.pidHash q = g.pidHash pid
    · rw [hb, update_self, ← hb, filter_comm]
      rfl
    rw [update_of_ne hb]
    refine (filter_eq_self.mpr fun k hk => decide_eq_true ?_).symm
    rintro rfl
    exact hb (by rw [← mine_pid hk, hid])
  have hthread : ((s.listDel g pid id).setThread pid t).thread pid = t := update_self ..
  refine i.of_frame pid ⟨fun q hq => ?_, fun _ _ _ => rfl,
    fun q hq => update_of_ne hq _ _⟩ ?_ ?_ ?_ i.sent i.done
  · rw [hmine, filter_eq_self]
    intro k hk
    refine decide_eq_true ?_
    rintro rfl
    exact hq (by rw [← mine_pid hk, hid])
  · rw [hthread]; exact hs
  · rw [hthread, hmine, hm, filter_singleton, decide_eq_false (not_not.mpr rfl)]
    exact ht
  · intro b k hk
    refine i.bucket b k ?_
    change k ∈ update s.bucket _ _ b at hk
    by_cases hb : b = g.pidHash pid
    · subst hb
      rw [update_self] at hk
      exact mem_of_mem_filter hk
    · rwa [update_of_ne hb] at hk

theorem Inv.iotlbSyncMap (unset : Int) (hpc : (s.thread pid).pc = .ready) :
    Inv g (s.iotlbSyncMap g pid unset) := by
  have ht := i.thread pid
  rw [ThreadOk, hpc] at ht
  have hfind : s.syncCtx g pid (s.thread pid).start (s.thread pid).stop =
      (s.mine g pid).find? fun id => (s.ctx id).ubaStart = (s.thread pid).start ∧
        (s.ctx id).ubaEnd = (s.thread pid).stop := find_mine _
  dsimp only [Vmmu.iotlbSyncMap]
  rcases ht with ⟨h0, hm⟩ | ⟨id, hm, hh, he⟩
  · rw [hfind, hm]
    refine i.setThread (i.start pid) ⟨hm, forall_mem_nil _, fun _ => ?_⟩
    rw [h0]
    rfl
  · rw [hfind, hm, List.find?_cons_of_pos (by simpa using ⟨hh.start, he⟩)]
    exact i.listDel hm (i.start pid) ⟨rfl, hh.good.fits, fun _ => hh.bytes⟩

theorem Inv.log {sent : List UbmRequest} {done : List SyncMap}
    (hsent : ∀ r ∈ sent, r.Fits g) (hdone : ∀ d ∈ done, SyncOk g d) :
    Inv g { s with sent, done } :=
  ⟨i.start, i.thread, i.bucket, hsent, hdone⟩

theorem Inv.send {rest sent : List UbmRequest} {ret : Int} (taken : Bool) (res : Int)
    (hpc : (s.thread pid).pc = .sending rest sent ret) :
    Inv g (s.send pid rest sent ret taken res) := by
  have ht := i.thread pid
  rw [ThreadOk, hpc] at ht
  obtain ⟨hm, hf, hb⟩ := ht
  cases rest with
  | nil =>
    rw [append_nil] at hf hb
    have hdone : ∀ d ∈ s.done ++ [SyncMap.mk (s.thread pid).start (s.thread pid).pieces ret sent],
        SyncOk g d := by
      intro d hd
      rcases mem_append.mp hd with hd | hd
      · exact i.done d hd
      · obtain rfl := mem_singleton.mp hd
        exact fun h => ⟨hf, hb h⟩
    exact (i.log i.sent hdone).setThread (by decide) hm
  | cons r rest =>
    have hrest : ∀ x ∈ sent ++ rest, x.Fits g := fun x hx => hf x <| by
      rcases mem_append.mp hx with hx | hx <;> simp [hx]
    dsimp only [Vmmu.send]
    split
    · rename_i hret
      exact i.setThread (i.start pid) ⟨hm, hrest, fun h => absurd h hret⟩
    rename_i hret
    cases taken with
    | false => exact i.setThread (i.start pid) ⟨hm, hrest, fun h => absurd h (by decide)⟩
    | true =>
      have hsent : ∀ x ∈ s.sent ++ [r], x.Fits g := by
        intro x hx
        rcases mem_append.mp hx with hx | hx
        · exact i.sent x hx
        · exact hf x (by rw [mem_singleton.mp hx]; simp)
      refine (i.log hsent i.done).setThread (i.start pid) ⟨hm, ?_, fun _ => ?_⟩
      · rwa [append_assoc]
      · rw [append_assoc]
        exact hb (not_not.mp hret)

theorem Inv.act {a : VmAct} (ha : a.Ok s) : Inv g (s.act g a) := by
  cases a with
  | begin pid start => dsimp only [Vmmu.act]; split <;> first | exact i.begin ha ‹_› | exact i
  | mapPages pid p => dsimp only [Vmmu.act]; split <;> first | exact i.mapPages ha ‹_› | exact i
  | alloc pid ok => dsimp only [Vmmu.act]; split <;> first | exact i.allocCtx ok ‹_› | exact i
  | link pid => dsimp only [Vmmu.act]; split <;> first | exact i.linkCtx ‹_› | exact i
  | add pid n => dsimp only [Vmmu.act]; split <;> first | exact i.addPiece n ‹_› | exact i
  | unlink pid =>
    dsimp only [Vmmu.act]
    split
    · rename_i hpc
      have ht := i.thread pid
      rw [ThreadOk, hpc] at ht
      exact i.listDel ht (by decide) rfl
    · exact i
  | sync pid unset =>
    dsimp only [Vmmu.act]; split <;> first | exact i.iotlbSyncMap unset ‹_› | exact i
  | send pid taken res =>
    dsimp only [Vmmu.act]; split <;> first | exact i.send taken res ‹_› | exact i

end

/-- What a call says it sent was sent, in this order. -/
structure Told (s : Vmmu) : Prop where
  thread : ∀ q rest sent ret, (s.thread q).pc = .sending rest sent ret → sent <+ s.sent
  done : ∀ d ∈ s.done, d.reqs <+ s.sent

theorem Told.setThread (h : Told s) {t : VmThread}
    (ht : ∀ rest sent ret, t.pc = .sending rest sent ret → sent <+ s.sent) : Told (s.setThread pid t) := by
  refine ⟨fun q rest sent ret hq => ?_, h.done⟩
  by_cases hp : q = pid
  · subst hp
    exact ht rest sent ret (by simpa [Vmmu.setThread] using hq)
  · exact h.thread q rest sent ret (by simpa [Vmmu.setThread, update_of_ne hp] using hq)

theorem Told.send (h : Told s) {rest sent : List UbmRequest} {ret : Int} (taken : Bool) (res : Int)
    (hpc : (s.thread pid).pc = .sending rest sent ret) : Told (s.send pid rest sent ret taken res) := by
  have hsent := h.thread pid rest sent ret hpc
  cases rest with
  | nil =>
    have hdone : Told { s with done := s.done ++ [⟨(s.thread pid).start, (s.thread pid).pieces, ret, sent⟩] } := by
      refine ⟨h.thread, fun d hd => ?_⟩
      rcases mem_append.mp hd with hd | hd
      · exact h.done d hd
      · cases mem_singleton.mp hd
        exact hsent
    exact hdone.setThread fun _ _ _ heq => by cases heq
  | cons r rest =>
    dsimp only [Vmmu.send]
    split
    · exact h.setThread fun _ _ _ heq => by cases heq; exact hsent
    split
    · have hmore : Told { s with sent := s.sent ++ [r] } :=
        ⟨fun q rest sent ret hq => (h.thread q rest sent ret hq).trans (sublist_append_left _ _),
          fun d hd => (h.done d hd).trans (sublist_append_left _ _)⟩
      exact hmore.setThread fun _ _ _ heq => by cases heq; exact hsent.append_right [r]
    · exact h.setThread fun _ _ _ heq => by cases heq; exact hsent

theorem Told.act (h : Told s) (a : VmAct) : Told (s.act g a) := by
  -- only `sync` begins to send, with nothing sent yet
  have hnew : ∀ {s' : Vmmu} {t : VmThread} {pid : Nat}, Told s' →
      (∀ rest sent ret, t.pc = .sending rest sent ret → sent = []) → Told (s'.setThread pid t) :=
    fun hs ht => hs.setThread fun rest sent ret heq => ht rest sent ret heq ▸ nil_sublist _
  cases a with
  | send pid taken res =>
    dsimp only [Vmmu.act]
    split
    · next hpc => exact h.send taken res hpc
    · exact h
  | _ =>
    dsimp only [Vmmu.act]
    split
    · try simp only [Vmmu.mapPages, Vmmu.allocCtx, Vmmu.linkCtx, Vmmu.addPiece, Vmmu.iotlbSyncMap]
      try split
      all_goals exact hnew { h with } (by simp)
    · exact h

def init (ctx : Nat → MapCtx) : Vmmu := { ctx }

theorem init_inv (ctx : Nat → MapCtx) : Inv g (init ctx) :=
  ⟨fun _ => Nat.two_pow_pos 64, fun _ => rfl, fun _ => forall_mem_nil _,
    forall_mem_nil _, forall_mem_nil _⟩

end Vmmu

end UbDkms.Ubmem
