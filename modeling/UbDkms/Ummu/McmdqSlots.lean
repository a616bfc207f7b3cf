import UbDkms.Ummu.McmdqStep

/-!
# Reserving, writing and marking slots
-/

namespace UbDkms.Ummu

open Lib McCpu

variable {N start i : Nat} {s : Mcmdq} {c : McCpu}

/-! ## Cached `cons` -/

variable {q : Nat}

theorem QueueOk.setCons {cpus : Nat → McCpu} (h : QueueOk N s start) (h1 : s.cons ≤ q)
    (h2 : q ≤ s.consReg) : QueueOk N { s with cpus, cons := q } start := by
  refine { h with cons_le := h2, prod_le := ?_ }
  have := h.prod_le
  change s.prod ≤ q + N
  omega

theorem CpuOk.setCons {cpus : Nat → McCpu} (h : CpuOk N s start c)
    (hexcl : ∀ q, c.pc ≠ .exclWrite q) : CpuOk N { s with cpus, cons := q } start c := by
  refine { h with pc := ?_ }
  have hpc := h.pc
  unfold PcOk at hpc ⊢
  cases hc : c.pc with
  | exclWrite q => exact absurd hc (hexcl q)
  | _ => rw [hc] at hpc; exact hpc

theorem McInv.exclWrite (h : McInv N s start) (hc : (s.cpus i).pc = .exclWrite q) :
    McInv N { s.goto i .exclUnlock with cons := q } start := by
  have hexcl := of_pc excl hc
  obtain ⟨hq1, hq2⟩ : s.cons ≤ q ∧ q ≤ s.consReg := (h.cpu i).at_pc hc
  obtain ⟨hholds, hone⟩ := h.alone hexcl
  have hgoto : CpuOk N s start { s.cpus i with pc := .exclUnlock } :=
    (h.cpu i).goto (by rw [hc]; simp) trivial nofun
      nofun nofun
  refine h.update rfl (h.queue.setCons hq1 hq2)
    (hgoto.setCons fun _ hh => by cases hh) (fun j hj => ?_) nofun
    (h.lock.update ?_ ?_) nofun (fun j _ hh => ?_)
    nofun nofun
    fun hothers _ => h.quiet_of (of_pc publishes hc) hothers
  · exact (h.cpu j).setCons fun q' hq' => hj (hone j i (of_pc excl hq') hexcl)
  · exact (hholds i).symm
  · exact hexcl.symm
  · rw [hholds j] at hh
    cases hh

theorem McInv.writeCons (h : McInv N s start) (hc : (s.cpus i).pc = .writeCons q) :
    McInv N { s.goto i .unlock with cons := q } start := by
  have hholds := of_pc holds hc
  have hq1 : s.cons ≤ q := above_of_pc hc rfl fun _ => h.above i hholds
  have hq2 : q ≤ s.consReg := (h.cpu i).at_pc hc
  have hnoexcl : ∀ j, (s.cpus j).excl = false := by
    have hl := h.lock
    cases hlock : s.lock with
    | shared n =>
      rw [hlock] at hl
      exact hl.1
    | exclusive =>
      rw [hlock] at hl
      rw [hl.1 i] at hholds
      cases hholds
  have hgoto : CpuOk N s start { s.cpus i with pc := .unlock } := by
    refine (h.cpu i).goto (by rw [hc]; simp) trivial (fun _ => (h.cpu i).sync hholds) (fun _ => ?_)
      nofun
    unfold reserved markFrom writtenTo
    rw [hc]
    exact ⟨rfl, rfl, rfl⟩
  refine h.update rfl (h.queue.setCons hq1 hq2)
    (hgoto.setCons fun _ hh => by cases hh) (fun j hj => ?_) (fun _ => .inl ⟨?_, rfl, rfl⟩)
    (h.lock.update ?_ ?_) (fun _ _ _ _ => trivial) (fun j hj hh _ => (h.writer j i q hj hc hh).1)
    (fun _ _ => trivial) nofun
    fun hothers _ => h.quiet_of (of_pc publishes hc) hothers
  · refine (h.cpu j).setCons fun q' hq' => ?_
    have := of_pc excl hq'
    rw [hnoexcl j] at this
    cases this
  · exact of_pc reserved hc
  · exact hholds.symm
  · exact (hnoexcl i).symm

/-! ## The pc behind the marking -/

theorem QueueOk.window (h : QueueOk N s start) : s.prod ≤ s.prodReg + N ∧ s.prod ≤ s.consReg + N ∧
    s.consReg ≤ s.prodReg ∧ s.prodReg ≤ s.prod := by
  obtain ⟨h1, h2, h3, h4, h5⟩ := And.intro h.cons_le (And.intro h.consReg_le
    (And.intro h.prodReg_le (And.intro h.start_le h.prod_le)))
  omega

variable {p : Nat}

theorem McCpu.markPc_cases (msi : Bool) (hp : p ≤ c.eprod) (hN : c.eprod ≤ p + N) (h0 : 0 < N) :
    p < c.eprod ∧ c.markPc N msi p = .mark p ∨
    p = c.eprod ∧ c.markPc N msi p = if c.owner then .waitOwner else c.syncPc msi := by
  unfold markPc
  by_cases hpe : p = c.eprod
  · right
    rw [hpe, if_pos (sameWord_self _)]
    exact ⟨rfl, rfl⟩
  left
  rw [if_neg fun hs => hpe (sameWord_eq hp (by omega) hs)]
  exact ⟨by omega, rfl⟩

theorem McCpu.syncPc_cases (msi : Bool) :
    c.sync ∧ (c.syncPc msi = .msi ∨ c.syncPc msi = .syncLoad) ∨ c.sync = false ∧ c.syncPc msi = .idle := by
  unfold syncPc
  cases c.sync with
  | false => exact .inr ⟨rfl, rfl⟩
  | true =>
    cases msi with
    | false => exact .inl ⟨rfl, .inr rfl⟩
    | true => exact .inl ⟨rfl, .inl rfl⟩

variable {msi : Bool}

theorem CpuOk.syncPc (hsome : 0 < c.all.length)
    (hrange : c.eprod ≤ s.prod ∧ ∀ j, j < c.all.length → s.issued.flatten[c.sprod + j]? = c.all[j]?)
    (hmarked : ∀ q, c.sprod ≤ q → q < c.eprod → q < s.prodReg ∨ Marked N s q) :
    CpuOk N s start { c with pc := c.syncPc msi } := by
  rcases c.syncPc_cases msi with ⟨hs, hpc | hpc⟩ | ⟨hs, hpc⟩
  · rw [hpc]
    exact ⟨trivial, fun _ => hsome, fun _ => hs, fun _ => hrange,
      fun _ q h1 h2 => absurd h1 (Nat.not_le.mpr h2), fun _ => hmarked,
      fun _ q h1 h2 => absurd h1 (Nat.not_le.mpr h2), nofun⟩
  · rw [hpc]
    exact ⟨trivial, fun _ => hsome, fun _ => hs, fun _ => hrange,
      fun _ q h1 h2 => absurd h1 (Nat.not_le.mpr h2), fun _ => hmarked,
      fun _ q h1 h2 => absurd h1 (Nat.not_le.mpr h2), nofun⟩
  rw [hpc]
  exact ⟨trivial, fun hh => absurd rfl hh, nofun,
    nofun, nofun,
    nofun, nofun,
    nofun⟩

theorem CpuOk.markPc (h0 : 0 < N) (hq : s.prod ≤ s.prodReg + N)
    (hsome : 0 < c.all.length)
    (hrange : c.eprod ≤ s.prod ∧ ∀ j, j < c.all.length → s.issued.flatten[c.sprod + j]? = c.all[j]?)
    (hp : c.sprod ≤ p ∧ p ≤ c.eprod)
    (hunmarked : ∀ q, p ≤ q → q < c.eprod → s.prodReg ≤ q ∧ ¬ Marked N s q)
    (hmarked : ∀ q, c.sprod ≤ q → q < p → q < s.prodReg ∨ Marked N s q)
    (hwritten : ∀ q, p ≤ q → q < c.eprod → s.entries (qIdx N q) = s.issued.flatten[q]?)
    (howner : c.owner → c.sprod = start ∧ s.owned) :
    CpuOk N s start { c with pc := c.markPc N msi p } := by
  have hN : c.eprod ≤ p + N := by
    rcases Nat.lt_or_ge p c.eprod with hlt | hge
    · have := (hunmarked p le_rfl hlt).1
      omega
    · omega
  rcases markPc_cases msi hp.2 hN h0 with ⟨hlt, hpc⟩ | ⟨heq, hpc⟩
  · rw [hpc]
    exact ⟨⟨hp.1, hlt⟩, fun _ => hsome, fun hh => hh, fun _ => hrange, fun _ => hunmarked,
      fun _ => hmarked, fun _ => hwritten, howner⟩
  subst heq
  rw [hpc]
  split
  · next ho =>
    exact ⟨trivial, fun _ => hsome, fun hh => hh, fun _ => hrange, fun _ => hunmarked,
      fun _ => hmarked, fun _ => hwritten, fun _ => howner ho⟩
  · exact CpuOk.syncPc hsome hrange hmarked

theorem McCpu.syncPc_attr (msi : Bool) :
    holds { c with pc := c.syncPc msi } = c.sync ∧ excl { c with pc := c.syncPc msi } = false ∧
    publishes { c with pc := c.syncPc msi } = false ∧ (∀ x, c.syncPc msi ≠ .writeCons x) ∧
    ∀ x, x ≤ c.syncProd → McCpu.Above { c with pc := c.syncPc msi } N x := by
  rcases c.syncPc_cases msi with ⟨hs, hpc | hpc⟩ | ⟨hs, hpc⟩
  · rw [hpc, hs]
    exact ⟨rfl, rfl, rfl, nofun, fun x hx => hx⟩
  · rw [hpc, hs]
    exact ⟨rfl, rfl, rfl, nofun, fun x hx => hx⟩
  · rw [hpc, hs]
    exact ⟨rfl, rfl, rfl, nofun, fun x hx => hx⟩

theorem McCpu.markPc_attr (msi : Bool) (p : Nat) :
    holds { c with pc := c.markPc N msi p } = c.sync ∧
    excl { c with pc := c.markPc N msi p } = false ∧
    publishes { c with pc := c.markPc N msi p } = false ∧ (∀ x, c.markPc N msi p ≠ .writeCons x) ∧
    ∀ x, x ≤ c.syncProd → McCpu.Above { c with pc := c.markPc N msi p } N x := by
  unfold markPc
  split
  · split
    · exact ⟨rfl, rfl, rfl, nofun, fun x hx => hx⟩
    · exact c.syncPc_attr msi
  · exact ⟨rfl, rfl, rfl, nofun, fun x hx => hx⟩

theorem McCpu.syncProd_lt (h : c.sync) : c.sprod ≤ c.syncProd ∧ c.syncProd < c.eprod := by
  unfold syncProd eprod McCpu.all
  rw [h]
  simp

/-! ## Slots of a call -/

theorem CpuOk.sprod_le_markFrom (h : CpuOk N s start c) : c.sprod ≤ c.markFrom := by
  have hpc := h.pc
  unfold PcOk at hpc
  unfold markFrom
  cases hc : c.pc with
  | mark p =>
    rw [hc] at hpc
    exact hpc.1
  | write j | lock => exact le_rfl
  | _ => exact Nat.le_add_right _ _

theorem CpuOk.markFrom_le (h : CpuOk N s start c) : c.markFrom ≤ c.eprod := by
  have hpc := h.pc
  unfold PcOk at hpc
  unfold markFrom
  cases hc : c.pc with
  | mark p =>
    rw [hc] at hpc
    exact hpc.2.le
  | write j | lock => exact Nat.le_add_right _ _
  | _ => exact le_rfl

theorem CpuOk.writtenTo_le (h : CpuOk N s start c) : c.writtenTo ≤ c.eprod := by
  have hpc := h.pc
  unfold PcOk at hpc
  unfold writtenTo
  cases hc : c.pc with
  | write j =>
    rw [hc] at hpc
    exact Nat.add_le_add_left (Nat.le_of_lt hpc) _
  | _ => exact le_rfl

/-- What a call keeps of its slots, by where it is. -/
theorem CpuOk.slots {pc : McPc} {a b : Nat} (h : CpuOk N s start c) (hc : c.pc = pc)
    (hr : reserved { c with pc }) (ha : markFrom { c with pc } = a) (hb : writtenTo { c with pc } = b) :
    c.reserved ∧ (∀ q, a ≤ q → q < c.eprod → s.prodReg ≤ q ∧ ¬ Marked N s q) ∧
    (∀ q, c.sprod ≤ q → q < a → q < s.prodReg ∨ Marked N s q) ∧
    ∀ q, a ≤ q → q < b → s.entries (qIdx N q) = s.issued.flatten[q]? := by
  subst hc ha hb
  exact ⟨hr, h.unmarked hr, h.marked hr, h.written hr⟩

theorem McInv.reserve {f : Bool} (h0 : 0 < N) (h : McInv N s start)
    (hc : (s.cpus i).pc = .reserve p q f)
    (hspace : ummuQueueHasSpace N p q (s.cpus i).all.length) (hp : sameWord N p s.prod)
    (hq : sameWord N q s.cons) (hf : f = s.owned) (c : McCpu)
    (hcall : c = { s.cpus i with sprod := s.prod, owner := !f }) :
    McInv N { s with
      prod := s.prod + c.all.length, owned := true, issued := s.issued ++ [c.all]
      cpus := Function.update s.cpus i { c with pc := c.writePc N msi 0 } } start := by
  have hQ := h.queue
  obtain ⟨hw1, hw2, hw3, hw4⟩ := hQ.window
  have hall : c.all = (s.cpus i).all := by
    rw [hcall]
    rfl
  have hsprod : c.sprod = s.prod := by rw [hcall]
  have hsome : 0 < c.all.length := by
    rw [hall]
    exact (h.cpu i).some (by rw [hc]; simp)
  have hpc : c.writePc N msi 0 = .write 0 := if_pos hsome
  have hroom : s.prod + c.all.length ≤ s.cons + N := by
    rw [ummuQueueHasSpace_congr hp hq] at hspace
    rw [hall]
    exact ummuQueueHasSpace_le h0 (hQ.cons_le.trans (hw3.trans hw4)) hQ.prod_le hspace
  have hflat : (s.issued ++ [c.all]).flatten = s.issued.flatten ++ c.all := by simp
  have hold : ∀ p, p < s.prod → (s.issued ++ [c.all]).flatten[p]? = s.issued.flatten[p]? := by
    intro p hp
    rw [hflat, List.getElem?_append_left (by rw [hQ.issued]; exact hp)]
  have hsc := hQ.cons_le
  rw [hpc]
  refine h.update (i := i) rfl ?_ ?_ (fun j hj => ?_)
    (fun _ => .inr hsprod.ge) (h.lock.update ?_ ?_) nofun
    (fun _ _ _ ha => ha) (fun _ ha => ha) nofun
    fun hothers _ => h.quiet_of (of_pc publishes hc) hothers
  · refine ⟨hQ.cons_le, hQ.consReg_le, hQ.prodReg_le, hQ.start_le.trans (Nat.le_add_right _ _), hroom, ?_,
      ?_, fun p hp => hQ.free p (by change s.prod + _ ≤ p at hp; omega), fun p hp1 hp2 hp3 => ?_,
      nofun⟩
    · rw [hflat, List.length_append, hQ.issued]
    · rw [hflat, List.take_append_of_le_length (by rw [hQ.issued]; exact hw3.trans hw4)]
      exact hQ.consumed
    change p < s.prod + c.all.length at hp2
    change p < s.prodReg ∨ Marked N s p at hp3
    have hlt : p < s.prod := by
      by_contra hge
      rcases hp3 with hp3 | hp3
      · omega
      · exact hQ.free p (by omega) (by omega) hp3
    rw [hold p hlt]
    exact hQ.full p hp1 hlt hp3
  · refine ⟨hsome, fun _ => hsome, nofun, fun _ => ⟨?_, fun j hj => ?_⟩,
      fun _ p hp1 hp2 => ?_, fun _ p hp1 hp2 => absurd hp1 (Nat.not_le.mpr hp2),
      fun _ p hp1 hp2 => absurd hp1 (Nat.not_le.mpr hp2), fun hh => ⟨?_, rfl⟩⟩
    · change c.sprod + c.all.length ≤ s.prod + c.all.length
      rw [hsprod]
    · change (s.issued ++ [c.all]).flatten[c.sprod + j]? = c.all[j]?
      rw [hflat, hsprod, ← hQ.issued, List.getElem?_append_right (Nat.le_add_right _ _),
        Nat.add_sub_cancel_left]
    · change c.sprod ≤ p at hp1
      change p < c.sprod + c.all.length at hp2
      exact ⟨by change s.prodReg ≤ p; omega, hQ.free p (by omega) (by omega)⟩
    · change c.owner = true at hh
      rw [hcall, hf] at hh
      rw [hsprod]
      exact (hQ.closed (by simpa using hh)).symm
  · have hok := h.cpu j
    refine { hok with range := fun hr => ⟨?_, fun k hk => ?_⟩, written := fun hr p hp1 hp2 => ?_, gathers := fun hg => ⟨(hok.gathers hg).1, rfl⟩ }
    · exact (hok.range hr).1.trans (Nat.le_add_right _ _)
    · have hlt : (s.cpus j).sprod + k < s.prod := by
        have := (hok.range hr).1
        unfold eprod at this
        omega
      exact (hold _ hlt).trans ((hok.range hr).2 k hk)
    · have h1 := (hok.range hr).1
      have h2 := hok.writtenTo_le
      exact (hok.written hr p hp1 hp2).trans (hold p (by omega)).symm
  · exact (of_pc holds hc).symm
  · exact (of_pc excl hc).symm

theorem McInv.slot_ne {j : Nat} (h : McInv N s start) (hij : j ≠ i) (hri : (s.cpus i).reserved)
    (hrj : (s.cpus j).reserved) (hp : (s.cpus i).sprod ≤ p) (hp' : p < (s.cpus i).eprod)
    (hq : (s.cpus j).sprod ≤ q) (hq' : q < (s.cpus j).eprod) : p ≠ q := by
  rcases h.apart i j hij.symm hri hrj with hsep | hsep <;> omega

theorem McInv.write {j : Nat} (h0 : 0 < N) (h : McInv N s start)
    (hc : (s.cpus i).pc = .write j) :
    McInv N { s.goto i ((s.cpus i).writePc N msi (j + 1)) with
      entries := Function.update s.entries (qIdx N ((s.cpus i).sprod + j)) (s.cpus i).all[j]? } start := by
  have hQ := h.queue
  obtain ⟨hw1, hw2, hw3, hw4⟩ := hQ.window
  have hok := h.cpu i
  have hj : j < (s.cpus i).all.length := hok.at_pc hc
  obtain ⟨hr, hunmarked, hmarked, hwritten⟩ :=
    hok.slots (a := (s.cpus i).sprod) (b := (s.cpus i).sprod + j) hc rfl rfl rfl
  have hsome := hok.some (by rw [hc]; simp)
  have hrange := hok.range hr
  have heprod : (s.cpus i).eprod = (s.cpus i).sprod + (s.cpus i).all.length := rfl
  obtain ⟨hpos, hnot⟩ := hunmarked ((s.cpus i).sprod + j) (Nat.le_add_right _ _) (by omega)
  -- no other slot that matters is written
  have hkeep : ∀ p, s.consReg ≤ p → p < s.prod → p ≠ (s.cpus i).sprod + j →
      Function.update s.entries (qIdx N ((s.cpus i).sprod + j)) (s.cpus i).all[j]? (qIdx N p) =
        s.entries (qIdx N p) := by
    intro p hp1 hp2 hne
    refine Function.update_of_ne (fun hidx => hne ?_) _ _
    exact slot_inj hp1 (by omega) (by omega) (by omega) hidx
  have hnew : ∀ q, (s.cpus i).sprod ≤ q → q < (s.cpus i).sprod + (j + 1) →
      Function.update s.entries (qIdx N ((s.cpus i).sprod + j)) (s.cpus i).all[j]? (qIdx N q) =
        s.issued.flatten[q]? := by
    intro q hq1 hq2
    by_cases hq : q = (s.cpus i).sprod + j
    · rw [hq, Function.update_self]
      exact (hrange.2 j hj).symm
    · rw [hkeep q (by have := (hunmarked q hq1 (by omega)).1; omega) (by omega) hq]
      exact hwritten q hq1 (by omega)
  have howner : (s.cpus i).owner → (s.cpus i).sprod = start ∧ s.owned := fun ho =>
    hok.gathers ((of_pc McCpu.gathers hc).trans ho)
  have hattr : holds { s.cpus i with pc := (s.cpus i).writePc N msi (j + 1) } = false ∧
      excl { s.cpus i with pc := (s.cpus i).writePc N msi (j + 1) } = false ∧
      publishes { s.cpus i with pc := (s.cpus i).writePc N msi (j + 1) } = false ∧
      ∀ x, (s.cpus i).writePc N msi (j + 1) ≠ .writeCons x := by
    unfold writePc
    split
    · exact ⟨rfl, rfl, rfl, nofun⟩
    split
    · exact ⟨rfl, rfl, rfl, nofun⟩
    next hs =>
    obtain ⟨h1, h2, h3, h4, -⟩ := (s.cpus i).markPc_attr msi (s.cpus i).sprod
    rw [h1]
    exact ⟨by simpa using hs, h2, h3, h4⟩
  refine h.update rfl ?_ ?_
    (fun k hk => ?_) (fun _ => .inl ⟨hr, rfl, rfl⟩) (h.lock.update ?_ ?_) ?_ (fun _ _ _ ha => ha)
    (fun _ ha => ha) (fun x hx => absurd hx (hattr.2.2.2 x))
    fun hothers _ => h.quiet_of (of_pc publishes hc) hothers
  · refine { hQ with full := fun p hp1 hp2 hp3 => ?_ }
    refine (hkeep p hp1 hp2 fun hp => ?_).trans (hQ.full p hp1 hp2 hp3)
    subst hp
    rcases hp3 with hp3 | hp3
    · exact absurd hpos (Nat.not_le.mpr hp3)
    · exact hnot hp3
  · unfold writePc
    split
    · next hlt =>
      exact ⟨hlt, fun _ => hsome, nofun, fun _ => hrange,
        fun _ => hunmarked, fun _ => hmarked, fun _ => hnew, howner⟩
    next hge =>
    have hlast : (s.cpus i).sprod + (j + 1) = (s.cpus i).eprod := by omega
    rw [hlast] at hnew
    split
    · next hs =>
      exact ⟨hs, fun _ => hsome, nofun, fun _ => hrange,
        fun _ => hunmarked, fun _ => hmarked, fun _ => hnew, howner⟩
    · exact CpuOk.markPc h0 hw1 hsome hrange ⟨le_rfl, Nat.le_add_right _ _⟩ hunmarked hmarked hnew howner
  · have hk' := h.cpu k
    refine { hk' with written := fun hrk p hp1 hp2 => ?_ }
    have h1 := hk'.writtenTo_le
    have h2 := hk'.sprod_le_markFrom
    have h3 := (hk'.unmarked hrk p hp1 (by omega)).1
    have h4 := (hk'.range hrk).1
    refine (hkeep p (by omega) (by omega) (Ne.symm ?_)).trans (hk'.written hrk p hp1 hp2)
    exact h.slot_ne hk hr hrk (Nat.le_add_right _ _) (by omega) (by omega) (by omega)
  · exact hattr.1.trans (of_pc holds hc).symm
  · exact hattr.2.1.trans (of_pc excl hc).symm
  · rw [hattr.1]
    exact nofun

theorem McInv.lockShared {n : Nat} (h0 : 0 < N) (h : McInv N s start)
    (hc : (s.cpus i).pc = .lock) (hlock : s.lock = .shared n) :
    McInv N { s.goto i ((s.cpus i).markPc N msi (s.cpus i).sprod) with lock := .shared (n + 1) } start := by
  have hok := h.cpu i
  have hQ := h.queue
  obtain ⟨hw1, hw2, hw3, hw4⟩ := hQ.window
  obtain ⟨hr, hunmarked, hmarked, hwritten⟩ :=
    hok.slots (a := (s.cpus i).sprod) (b := (s.cpus i).eprod) hc rfl rfl rfl
  have hnot : (s.cpus i).holds = false := of_pc holds hc
  obtain ⟨h1, h2, h3, h4, h5⟩ := (s.cpus i).markPc_attr msi (s.cpus i).sprod
  have hsync : (s.cpus i).sync := hok.at_pc hc
  have hl := h.lock
  rw [hlock] at hl
  obtain ⟨hexcl, S, hcard, hS⟩ := hl
  have hi : i ∉ S := by
    rw [hS, hnot]
    exact Bool.false_ne_true
  refine h.move (CpuOk.markPc h0 hw1 (hok.some (by rw [hc]; simp)) (hok.range hr)
    ⟨le_rfl, Nat.le_add_right _ _⟩ hunmarked hmarked hwritten fun ho =>
      hok.gathers ((of_pc McCpu.gathers hc).trans ho)) (fun _ => hr)
    ⟨fun j => ?_, insert i S, by rw [Finset.card_insert_of_notMem hi, hcard], fun j => ?_⟩
    (fun _ x hx _ => h5 x ?_) (fun x hx => absurd hx (h4 x)) ?_
  · by_cases hj : j = i
    · rw [hj, Function.update_self]
      exact h2
    · rw [Function.update_of_ne hj]
      exact hexcl j
  · rw [Finset.mem_insert, hS]
    by_cases hj : j = i
    · subst hj
      rw [Function.update_self]
      exact iff_of_true (.inl rfl) (h1.trans hsync)
    · rw [Function.update_of_ne hj]
      exact or_iff_right hj
  · obtain ⟨hs1, hs2⟩ := syncProd_lt hsync
    have := (hunmarked _ hs1 hs2).1
    omega
  · exact h3.trans (of_pc publishes hc).symm

/-- A round of marking changes the slots of `[p, p + r)` in the window of the queue, and only these. -/
theorem marked_flip {e : Nat} {t : Mcmdq} (hp : s.prodReg ≤ p) (he : p + mapRound N p e ≤ s.prodReg + N)
    (hidx : qIdx N p + mapRound N p e ≤ N) (hq : s.prodReg ≤ q) (hq' : q < s.prodReg + N)
    (hmap : t.validMap = fun x => xor (s.validMap x) (Mcmdq.inRound N p e x)) :
    (p ≤ q ∧ q < p + mapRound N p e → (Marked N t q ↔ ¬ Marked N s q)) ∧
    (¬ (p ≤ q ∧ q < p + mapRound N p e) → (Marked N t q ↔ Marked N s q)) := by
  have hin : Mcmdq.inRound N p e (qIdx N q) ↔ p ≤ q ∧ q < p + mapRound N p e := by
    unfold Mcmdq.inRound
    rw [Bool.and_eq_true, decide_eq_true_iff, decide_eq_true_iff]
    constructor
    · rintro ⟨h1, h2⟩
      have hadd := (qIdx_add (N := N) (p := p) (d := qIdx N q - qIdx N p) (by omega)).1
      have : q = p + (qIdx N q - qIdx N p) :=
        slot_inj hq hq' (by omega) (by omega) (by omega)
      omega
    · rintro ⟨h1, h2⟩
      have hadd := (qIdx_add (N := N) (p := p) (d := q - p) (by omega)).1
      rw [Nat.add_sub_cancel' h1] at hadd
      omega
  unfold Marked
  rw [hmap]
  dsimp only
  constructor
  · intro h
    rw [hin.mpr h]
    cases s.validMap (qIdx N q) <;> cases qWrp N q <;> decide
  · intro h
    have : Mcmdq.inRound N p e (qIdx N q) = false := by
      by_contra hc
      exact h (hin.mp (by simpa using hc))
    rw [this, Bool.xor_false]

theorem McInv.mark (h64 : bitsPerLong ∣ N) (h0 : 0 < N) (h : McInv N s start)
    (hc : (s.cpus i).pc = .mark p) :
    McInv N { s.goto i ((s.cpus i).markPc N msi (p + mapRound N p (s.cpus i).eprod)) with
      validMap := fun x => xor (s.validMap x) (Mcmdq.inRound N p (s.cpus i).eprod x) } start := by
  have hok := h.cpu i
  have hQ := h.queue
  obtain ⟨hw1, hw2, hw3, hw4⟩ := hQ.window
  obtain ⟨hp1, hp2⟩ : (s.cpus i).sprod ≤ p ∧ p < (s.cpus i).eprod := hok.at_pc hc
  obtain ⟨hr, hunmarked, hmarked, hwritten⟩ := hok.slots (a := p) (b := (s.cpus i).eprod) hc rfl rfl rfl
  have hsome := hok.some (by rw [hc]; simp)
  have hrange := hok.range hr
  have hreg := (hunmarked p le_rfl hp2).1
  obtain ⟨hr1, hr2, hr3⟩ := mapRound_spec h64 h0 hp2 (by omega)
  obtain ⟨ha1, ha2, ha3, ha4, ha5⟩ :=
    (s.cpus i).markPc_attr (N := N) msi (p + mapRound N p (s.cpus i).eprod)
  generalize hs' : ({ s.goto i ((s.cpus i).markPc N msi (p + mapRound N p (s.cpus i).eprod)) with
      validMap := fun x => xor (s.validMap x) (Mcmdq.inRound N p (s.cpus i).eprod x) } : Mcmdq) = s'
  have hflip := fun q (hq : s.prodReg ≤ q) (hq' : q < s.prodReg + N) =>
    marked_flip (s := s) (t := s') hreg (by omega) hr3 hq hq' (by rw [← hs'])
  generalize mapRound N p (s.cpus i).eprod = r at *
  subst hs'
  refine h.update (i := i) rfl ?_ ?_
    (fun k hk => ?_) (fun _ => .inl ⟨hr, rfl, rfl⟩) (h.lock.update ?_ ?_) (fun hh x hx ha => ha5 x ?_)
    (fun _ _ _ ha => ha) (fun _ ha => ha) (fun x hx => absurd hx (ha4 x))
    fun hothers _ => h.quiet_of (of_pc publishes hc) hothers
  · refine { hQ with free := fun q hq1 hq2 => ?_, full := fun q hq1 hq2 hq3 => ?_ }
    · change s.prod ≤ q at hq1
      rw [(hflip q (by omega) hq2).2 (by omega)]
      exact hQ.free q hq1 hq2
    change q < s.prod at hq2
    by_cases hin : p ≤ q ∧ q < p + r
    · exact hwritten q hin.1 (by omega)
    refine hQ.full q hq1 hq2 ?_
    rcases hq3 with hq3 | hq3
    · exact .inl hq3
    by_cases hlt : q < s.prodReg
    · exact .inl hlt
    · exact .inr (((hflip q (by omega) (by omega)).2 hin).mp hq3)
  · refine CpuOk.markPc h0 hw1 hsome hrange ⟨by omega, by omega⟩ (fun q hq1 hq2 => ?_) (fun q hq1 hq2 => ?_)
      (fun q hq1 hq2 => hwritten q (by omega) hq2) fun ho => hok.gathers ((of_pc McCpu.gathers hc).trans ho)
    · obtain ⟨h1, h2⟩ := hunmarked q (by omega) hq2
      refine ⟨h1, ?_⟩
      rw [(hflip q h1 (by omega)).2 (by omega)]
      exact h2
    · by_cases hlt : q < s.prodReg
      · exact .inl hlt
      right
      by_cases hin : p ≤ q ∧ q < p + r
      · exact ((hflip q (by omega) (by omega)).1 hin).mpr (hunmarked q hin.1 (by omega)).2
      · rw [(hflip q (by omega) (by omega)).2 hin]
        exact (hmarked q hq1 (by omega)).resolve_left hlt
  · have hk' := h.cpu k
    have hkeep : ∀ q, s.prodReg ≤ q → q < s.prodReg + N → Marked N s q →
        Marked N { s.goto i ((s.cpus i).markPc N msi (p + r)) with
          validMap := fun x => xor (s.validMap x) (Mcmdq.inRound N p (s.cpus i).eprod x) } q := by
      intro q hq1 hq2 hm
      refine ((hflip q hq1 hq2).2 fun hin => ?_).mpr hm
      exact (hunmarked q hin.1 (by omega)).2 hm
    refine { hk' with pc := ?_, unmarked := fun hrk q hq1 hq2 => ?_, marked := fun hrk q hq1 hq2 => ?_ }
    · have hpc := hk'.pc
      have hstart := hQ.start_le
      unfold PcOk at hpc ⊢
      cases hck : (s.cpus k).pc with
      | poll p' e' =>
        rw [hck] at hpc
        obtain ⟨hfix, hle, hlt, hm⟩ := hpc
        exact ⟨hfix, hle, hlt, fun q hq1 hq2 => hkeep q (by omega) (by omega) (hm q hq1 hq2)⟩
      | publish e' =>
        rw [hck] at hpc
        obtain ⟨hfix, hm⟩ := hpc
        exact ⟨hfix, fun q hq1 hq2 => hkeep q (by omega) (by omega) (hm q hq1 hq2)⟩
      | _ =>
        rw [hck] at hpc
        exact hpc
    · obtain ⟨h1, h2⟩ := hk'.unmarked hrk q hq1 hq2
      have h3 := (hk'.range hrk).1
      have h4 := hk'.sprod_le_markFrom
      refine ⟨h1, ?_⟩
      rw [(hflip q h1 (by omega)).2 fun hin => ?_]
      · exact h2
      · exact h.slot_ne hk hr hrk (p := q) (by omega) (by omega) (by omega) hq2 rfl
    · have h3 := (hk'.range hrk).1
      rcases hk'.marked hrk q hq1 hq2 with hlt | hm
      · exact .inl hlt
      by_cases hlt : q < s.prodReg
      · exact .inl hlt
      · have h4 : (s.cpus k).markFrom ≤ (s.cpus k).eprod := hk'.markFrom_le
        exact .inr (hkeep q (by omega) (by omega) hm)
  · exact ha1.trans (of_pc holds hc).symm
  · exact ha2.trans (of_pc excl hc).symm
  · exact above_of_pc hc (ha1.symm.trans hh) ha

end UbDkms.Ummu
