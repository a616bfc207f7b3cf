import UbDkms.Ummu.McmdqSlots

/-!
# Publishing and consuming

The owner of a batch waits for the one before it, closes its batch, waits until all
of it is marked, and publishes it. Two owners never start at one position, as each
has a slot of its own.
-/

namespace UbDkms.Ummu

open Lib List McCpu

variable {N start i : Nat} {s : Mcmdq} {c : McCpu}

/-! ## Owners -/

theorem McCpu.reserved_of_publishes (h : c.publishes) : c.reserved := by
  unfold publishes at h
  unfold reserved
  cases hc : c.pc <;> simp_all

theorem McCpu.reserved_of_gathers (h : c.gathers) : c.reserved := by
  unfold McCpu.gathers at h
  unfold reserved
  cases hc : c.pc <;> simp_all

section

variable (h : McInv N s start)
include h

/-- The CPU that publishes starts where the last one has ended, and ends where the batch that is
open starts. -/
theorem McInv.publisher (hp : (s.cpus i).publishes) :
    s.ownerProd = (s.cpus i).sprod ∧ (s.cpus i).eprod ≤ start ∧ start ≤ (s.cpus i).sprod + N := by
  have hpc := (h.cpu i).pc
  obtain ⟨hw1, hw2, hw3, hw4⟩ := h.queue.window
  have hstart := h.queue.start_le
  unfold publishes at hp
  unfold PcOk at hpc
  cases hc : (s.cpus i).pc with
  | poll p e | publish e =>
    rw [hc] at hpc
    obtain ⟨⟨h1, h2, h3, h4⟩, -⟩ := hpc
    exact ⟨h1, by omega, by omega⟩
  | tell e =>
    rw [hc] at hpc
    obtain ⟨⟨h1, h2, h3, h4⟩, h5⟩ := hpc
    exact ⟨h1, by omega, by omega⟩
  | _ =>
    rw [hc] at hp
    cases hp

theorem McInv.start_ne {j : Nat} (hij : j ≠ i) (hri : (s.cpus i).reserved)
    (hrj : (s.cpus j).reserved) : (s.cpus i).sprod ≠ (s.cpus j).sprod := by
  have idle : ∀ c : McCpu, c.reserved → c.pc ≠ .idle := by
    intro c hr hc
    unfold reserved at hr
    rw [hc] at hr
    cases hr
  have hi := (h.cpu i).some (idle _ hri)
  have hj := (h.cpu j).some (idle _ hrj)
  intro heq
  refine h.slot_ne hij hri hrj le_rfl ?_ heq.ge ?_ rfl
  · exact Nat.lt_add_of_pos_right hi
  · rw [heq]
    exact Nat.lt_add_of_pos_right hj

theorem McInv.no_publisher (hr : (s.cpus i).reserved)
    (hs : s.ownerProd = (s.cpus i).sprod) {j : Nat} (hj : j ≠ i) : (s.cpus j).publishes = false := by
  by_contra hne
  have hp : (s.cpus j).publishes := by simpa using hne
  exact h.start_ne hj hr (reserved_of_publishes hp) (hs.symm.trans (h.publisher hp).1)

theorem McInv.waitOwner (hc : (s.cpus i).pc = .waitOwner)
    (hsame : sameWord N s.ownerProd (s.cpus i).sprod) : McInv N (s.goto i .clear) start := by
  have hok := h.cpu i
  have hg : (s.cpus i).gathers := of_pc McCpu.gathers hc
  have hr := reserved_of_gathers hg
  obtain ⟨hstart, -⟩ := hok.gathers hg
  have howner : s.ownerProd = (s.cpus i).sprod := by
    by_cases hq : ∀ j, (s.cpus j).publishes = false
    · rw [hstart]
      exact (h.quiet hq).1
    obtain ⟨j, hj⟩ := not_forall.mp hq
    have hj : (s.cpus j).publishes := by simpa using hj
    obtain ⟨h1, h2, h3⟩ := h.publisher hj
    have h4 : (s.cpus j).sprod ≤ (s.cpus j).eprod := Nat.le_add_right _ _
    have h5 : 0 < N := by
      have := (h.cpu j).range (reserved_of_publishes hj)
      by_contra h0
      have h6 : (s.cpus j).sprod = (s.cpus i).sprod := by omega
      refine h.start_ne (fun e => ?_) hr (reserved_of_publishes hj) h6.symm
      rw [e] at hj
      cases (of_pc publishes hc).symm.trans hj
    exact sameWord_eq (by omega) (by omega) hsame
  refine h.move (hok.goto (by rw [hc]; simp) howner (fun hh => hh) (fun _ => ?_)
    (fun _ => hg)) (fun _ => hr) (h.lock.update ?_ ?_) (fun hh x hx ha => ?_) nofun ?_
  · unfold markFrom writtenTo
    rw [hc]
    exact ⟨hr, rfl, rfl⟩
  · exact (of_pc holds hc).symm
  · exact (of_pc excl hc).symm
  · have ha := above_of_pc hc hh ha
    exact ha
  · exact (of_pc publishes hc).symm

end

theorem CpuOk.publishing (pc : McPc) (h : CpuOk N s start c)
    (hattr : c.reserved ∧ c.markFrom = c.eprod ∧ c.pc ≠ .idle)
    (hattr' : publishes { c with pc }) {s' : Mcmdq} {start' : Nat}
    (hpc : PcOk N s' start' { c with pc }) (hprod : s'.prod = s.prod) (hissued : s'.issued = s.issued)
    (hmarked : ∀ q, q < s.prodReg ∨ Marked N s q → q < s'.prodReg ∨ Marked N s' q) :
    CpuOk N s' start' { c with pc } := by
  obtain ⟨hr, hm, hidle⟩ := hattr
  have hpub : markFrom { c with pc } = c.eprod ∧ writtenTo { c with pc } = c.eprod ∧
      McCpu.gathers { c with pc } = false ∧ (holds { c with pc } = true → c.sync = true) := by
    cases pc <;> first | exact ⟨rfl, rfl, rfl, fun hh => hh⟩ | cases hattr'
  obtain ⟨h1, h2, h3, h4⟩ := hpub
  have hmk := h.marked hr
  rw [hm] at hmk
  refine ⟨hpc, fun _ => h.some hidle, h4, fun _ => ?_, fun _ q hq1 hq2 => ?_, fun _ q hq1 hq2 => ?_,
    fun _ q hq1 hq2 => ?_, fun hh => ?_⟩
  · rw [hprod, hissued]
    exact h.range hr
  · rw [h1] at hq1
    exact absurd hq1 (Nat.not_le.mpr hq2)
  · rw [h1] at hq2
    exact hmarked q (hmk q hq1 hq2)
  · rw [h1] at hq1
    rw [h2] at hq2
    exact absurd hq1 (Nat.not_le.mpr hq2)
  · rw [h3] at hh
    cases hh

theorem McCpu.pollPc_cases {p e : Nat} (hp : p ≤ e) (hN : e ≤ p + N) (h0 : 0 < N) :
    p < e ∧ pollPc N p e = .poll p e ∨ p = e ∧ pollPc N p e = .publish e := by
  unfold pollPc
  by_cases hpe : p = e
  · right
    rw [hpe, if_pos (sameWord_self _)]
    exact ⟨rfl, rfl⟩
  left
  rw [if_neg fun hs => hpe (sameWord_eq hp (by omega) hs)]
  exact ⟨by omega, rfl⟩

theorem PcOk.frame {s' : Mcmdq} {start' : Nat} (h : PcOk N s start c) (hp : c.publishes = false)
    (hc : c.pc ≠ .clear) (hcons : s'.cons = s.cons) (hreg : s'.consReg = s.consReg) : PcOk N s' start' c := by
  unfold publishes at hp
  unfold PcOk at h ⊢
  cases hpc : c.pc <;> simp_all

theorem McInv.clear (h0 : 0 < N) (h : McInv N s start) (hc : (s.cpus i).pc = .clear) :
    McInv N { s.goto i (pollPc N (s.cpus i).sprod s.prod) with owned := false } s.prod := by
  have hok := h.cpu i
  have hQ := h.queue
  obtain ⟨hw1, hw2, hw3, hw4⟩ := hQ.window
  have hg : (s.cpus i).gathers := of_pc McCpu.gathers hc
  have hr := reserved_of_gathers hg
  obtain ⟨hstart, -⟩ := hok.gathers hg
  have howner : s.ownerProd = (s.cpus i).sprod := hok.at_pc hc
  have hnotpub : (s.cpus i).publishes = false := of_pc publishes hc
  have hquiet : ∀ j, (s.cpus j).publishes = false := by
    intro j
    by_cases hj : j = i
    · rw [hj]
      exact hnotpub
    · exact h.no_publisher hr howner hj
  have hreg : s.prodReg = (s.cpus i).sprod := (h.quiet hquiet).2.trans hstart.symm
  have hidle : (s.cpus i).pc ≠ .idle := by
    rw [hc]
    simp
  have hsome := hok.some hidle
  have hend := (hok.range hr).1
  have hlt : (s.cpus i).sprod < s.prod := by
    unfold eprod at hend
    omega
  have hpc : pollPc N (s.cpus i).sprod s.prod = .poll (s.cpus i).sprod s.prod := by
    rcases pollPc_cases hlt.le (by omega) h0 with ⟨-, hpc⟩ | ⟨heq, -⟩
    · exact hpc
    · omega
  rw [hpc]
  refine h.update rfl ?_ ?_
    (fun j hj => ?_) (fun _ => .inl ⟨hr, rfl, rfl⟩) (h.lock.update ?_ ?_) (fun hh x hx ha => ?_)
    (fun _ _ _ ha => ha) (fun _ ha => ha) nofun
    nofun
  · exact { hQ with prodReg_le := hw4, start_le := le_rfl, closed := fun _ => rfl }
  · refine hok.publishing (.poll (s.cpus i).sprod s.prod) ⟨hr, ?_, hidle⟩ rfl ?_ rfl rfl fun q hq => hq
    · exact of_pc markFrom hc
    · exact ⟨⟨howner, hreg, rfl, hend⟩, le_rfl, hlt, fun q hq1 hq2 => absurd hq1 (Nat.not_le.mpr hq2)⟩
  · have hj' := h.cpu j
    have hng : (s.cpus j).gathers = false := by
      by_contra hne
      have hgj : (s.cpus j).gathers := by simpa using hne
      exact h.start_ne hj hr (reserved_of_gathers hgj) (hstart.trans (hj'.gathers hgj).1.symm)
    refine { hj' with pc := hj'.pc.frame (hquiet j) (fun hcj => ?_) rfl rfl, gathers := fun hgj => ?_ }
    · cases (of_pc McCpu.gathers hcj).symm.trans hng
    · rw [hng] at hgj
      cases hgj
  · exact (of_pc holds hc).symm
  · exact (of_pc excl hc).symm
  · have ha := above_of_pc hc hh ha
    exact ha

theorem McInv.poll {p e : Nat} (h64 : bitsPerLong ∣ N) (h0 : 0 < N) (h : McInv N s start)
    (hc : (s.cpus i).pc = .poll p e)
    (hseen : (List.range (mapRound N p e)).all (fun b => s.validMap (qIdx N p + b) == !qWrp N p)) :
    McInv N (s.goto i (pollPc N (p + mapRound N p e) e)) start := by
  have hok := h.cpu i
  obtain ⟨hw1, hw2, hw3, hw4⟩ := h.queue.window
  have hstart := h.queue.start_le
  have hpc := hok.at_pc hc
  obtain ⟨hfix, hp1, hp2, hm⟩ := hpc
  have hr : (s.cpus i).reserved := of_pc reserved hc
  obtain ⟨hr1, hr2, hr3⟩ := mapRound_spec h64 h0 hp2 (by omega)
  have hnew : ∀ q, (s.cpus i).sprod ≤ q → q < p + mapRound N p e → Marked N s q := by
    intro q hq1 hq2
    by_cases hlt : q < p
    · exact hm q hq1 hlt
    obtain ⟨d, rfl⟩ := Nat.exists_eq_add_of_le (Nat.le_of_not_lt hlt)
    obtain ⟨hidx, hwrp⟩ := qIdx_add (N := N) (p := p) (d := d) (by omega)
    have := all_eq_true.mp hseen d (mem_range.mpr (by omega))
    unfold Marked
    rw [hidx, hwrp]
    exact eq_of_beq this
  have hown : ∀ pc, publishes { s.cpus i with pc } = true → PcOk N s start { s.cpus i with pc } →
      (holds { s.cpus i with pc } = (s.cpus i).sync ∧ excl { s.cpus i with pc } = false ∧
        McCpu.Above { s.cpus i with pc } N = fun x => x ≤ (s.cpus i).syncProd) →
      (∀ x, pc ≠ .writeCons x) → McInv N (s.goto i pc) start := by
    intro pc hpub hok' hattr hwr
    refine h.move (hok.publishing pc ⟨hr, ?_, by rw [hc]; simp⟩ hpub hok' rfl rfl fun _ hq => hq)
      (fun _ => hr) (h.lock.update ?_ ?_) (fun hh x hx ha => ?_) (fun x hx => absurd hx (hwr x)) ?_
    · exact of_pc markFrom hc
    · exact hattr.1.trans (of_pc holds hc).symm
    · exact hattr.2.1.trans (of_pc excl hc).symm
    · rw [hattr.1] at hh
      have ha := above_of_pc hc hh ha
      rw [hattr.2.2]
      exact ha
    · exact hpub.trans (of_pc publishes hc).symm
  rcases pollPc_cases (N := N) hr2 (by omega) h0 with ⟨hlt, hpc⟩ | ⟨heq, hpc⟩
  · rw [hpc]
    exact hown _ rfl ⟨hfix, hp1.trans (Nat.le_add_right _ _), hlt, hnew⟩ ⟨rfl, rfl, rfl⟩ nofun
  rw [hpc]
  rw [heq] at hnew
  exact hown _ rfl ⟨hfix, hnew⟩ ⟨rfl, rfl, rfl⟩ nofun

theorem McInv.publish {e : Nat} (h0 : 0 < N) (h : McInv N s start) (hc : (s.cpus i).pc = .publish e) :
    McInv N { s.goto i (.tell e) with prodReg := e } start := by
  have hok := h.cpu i
  have hQ := h.queue
  obtain ⟨hw1, hw2, hw3, hw4⟩ := hQ.window
  have hpc := hok.at_pc hc
  dsimp only [PcOk] at hpc
  obtain ⟨⟨howner, hreg, hstart, hend⟩, hm⟩ := hpc
  have hle := hQ.start_le
  have hpub : (s.cpus i).publishes := of_pc publishes hc
  have hr := reserved_of_publishes hpub
  have hfar : s.prodReg ≤ e := by
    have := hQ.prodReg_le
    omega
  refine h.update (i := i) rfl ?_ ?_ (fun j hj => ?_)
    (fun _ => .inl ⟨hr, rfl, rfl⟩) (h.lock.update ?_ ?_) (fun hh x hx ha => ?_)
    (fun _ _ _ ha => ha) (fun _ ha => ha) nofun nofun
  · refine { hQ with consReg_le := hw3.trans hfar, prodReg_le := hstart.le, free := fun p hp1 hp2 => ?_, full := fun p hp1 hp2 hp3 => hQ.full p hp1 hp2 ?_ }
    · change s.prod ≤ p at hp1
      change p < e + N at hp2
      by_cases hlt : p < s.prodReg + N
      · exact hQ.free p hp1 hlt
      -- the slot was marked in the round before
      obtain ⟨q, rfl⟩ := Nat.exists_eq_add_of_le' (Nat.le_of_add_left_le (Nat.le_of_not_lt hlt))
      have hq := hm q (by omega) (by omega)
      intro hmk
      unfold Marked at hq hmk
      rw [qIdx_add_size, qWrp_add_size h0] at hmk
      change s.validMap (qIdx N q) = _ at hmk
      rw [hq] at hmk
      cases hb : qWrp N q <;> rw [hb] at hmk <;> cases hmk
    · rcases hp3 with hp3 | hp3
      · change p < e at hp3
        by_cases hlt : p < s.prodReg
        · exact .inl hlt
        · exact .inr (hm p (by omega) hp3)
      · exact .inr hp3
  · refine hok.publishing (.tell e) ⟨hr, ?_, by rw [hc]; simp⟩ rfl ?_ rfl rfl fun q hq => ?_
    · exact of_pc markFrom hc
    · refine ⟨⟨howner, rfl, hstart, hend⟩, ?_⟩
      change e ≤ (s.cpus i).sprod + N
      omega
    · rcases hq with hq | hq
      · exact .inl (Nat.lt_of_lt_of_le hq hfar)
      · exact .inr hq
  · have hj' := h.cpu j
    refine { hj' with pc := ?_, unmarked := fun hrj q hq1 hq2 => ?_, marked := fun hrj q hq1 hq2 => ?_ }
    · have hpj := h.no_publisher hr howner hj
      have hpc := hj'.pc
      unfold publishes at hpj
      unfold PcOk at hpc ⊢
      cases hcj : (s.cpus j).pc <;> rw [hcj] at hpc hpj <;> first | exact hpc | cases hpj
    · obtain ⟨h1, h2⟩ := hj'.unmarked hrj q hq1 hq2
      refine ⟨?_, h2⟩
      change e ≤ q
      by_contra hlt
      exact h2 (hm q (by omega) (by omega))
    · rcases hj'.marked hrj q hq1 hq2 with hlt | hmk
      · exact .inl (Nat.lt_of_lt_of_le hlt hfar)
      · exact .inr hmk
  · exact (of_pc holds hc).symm
  · exact (of_pc excl hc).symm
  · have ha := above_of_pc hc hh ha
    exact ha

theorem McInv.tell {e : Nat} {msi : Bool} (h : McInv N s start) (hc : (s.cpus i).pc = .tell e) :
    McInv N { s.goto i ((s.cpus i).syncPc msi) with ownerProd := e } start := by
  have hok := h.cpu i
  have hQ := h.queue
  have hpc := hok.at_pc hc
  obtain ⟨⟨howner, hreg, hstart, hend⟩, hN⟩ := hpc
  obtain ⟨hr, -, hmarked, -⟩ := hok.slots (a := (s.cpus i).eprod) hc rfl rfl rfl
  obtain ⟨h1, h2, h3, h4, h5⟩ := (s.cpus i).syncPc_attr (N := N) msi
  refine h.update (i := i) rfl ?_ ?_ (fun j hj => ?_)
    (fun _ => .inl ⟨hr, rfl, rfl⟩) (h.lock.update ?_ ?_) (fun hh x hx ha => h5 x ?_)
    (fun _ _ _ ha => ha) (fun _ ha => ha) (fun x hx => absurd hx (h4 x)) (fun _ _ => ⟨hstart, hreg.trans hstart⟩)
  · exact { hQ with }
  · exact CpuOk.syncPc (hok.some (by rw [hc]; simp)) (hok.range hr) hmarked
  · have hj' := h.cpu j
    refine { hj' with pc := hj'.pc.frame (h.no_publisher hr howner hj) (fun hcj => ?_) rfl rfl }
    have hown : s.ownerProd = (s.cpus j).sprod := hj'.at_pc hcj
    exact h.start_ne hj hr (of_pc reserved hcj) (howner.symm.trans hown)
  · exact h1.trans (of_pc holds hc).symm
  · exact h2.trans (of_pc excl hc).symm
  · exact above_of_pc hc (h1.symm.trans hh) ha

/-! ## The hardware, and new calls -/

theorem McInv.consume {msi : Bool} (h : McInv N s start) : McInv N (s.consume N msi) start := by
  unfold Mcmdq.consume
  split
  · exact h
  next hne =>
  have hQ := h.queue
  obtain ⟨hw1, hw2, hw3, hw4⟩ := hQ.window
  have hlt : s.consReg < s.prodReg := by
    refine lt_of_le_of_ne hw3 fun heq => hne ?_
    rw [heq]
    exact sameWord_self _
  have hkeep : ∀ p, s.consReg + 1 ≤ p → p < s.prod →
      (if msi && s.entries (qIdx N s.consReg) = some .sync then
        Function.update s.entries (qIdx N s.consReg) none else s.entries) (qIdx N p) =
      s.entries (qIdx N p) := by
    intro p hp1 hp2
    split
    · refine Function.update_of_ne (fun hidx => ?_) _ _
      have := slot_inj (by omega) (by omega) le_rfl (by omega) hidx
      omega
    · rfl
  have hread := hQ.full s.consReg le_rfl (by omega) (.inl hlt)
  have hin : s.consReg < s.issued.flatten.length := by
    rw [hQ.issued]
    omega
  refine ⟨{ hQ with cons_le := hQ.cons_le.trans (Nat.le_succ _), consReg_le := hlt, consumed := ?_, full := fun p hp1 hp2 hp3 => ?_ }, fun j => ?_, h.apart, h.lock, h.above, h.writer, h.quiet⟩
  · change s.consumed ++ [s.entries (qIdx N s.consReg)] = (s.issued.flatten.take (s.consReg + 1)).map some
    rw [hread, hQ.consumed, take_add_one, map_append, List.getElem?_eq_getElem hin]
    rfl
  · exact (hkeep p hp1 hp2).trans (hQ.full p (Nat.le_of_succ_le hp1) hp2 hp3)
  have hj := h.cpu j
  refine { hj with pc := ?_, written := fun hr p hp1 hp2 => ?_ }
  · have hpc := hj.pc
    unfold PcOk at hpc ⊢
    cases hcj : (s.cpus j).pc with
    | exclWrite q =>
      rw [hcj] at hpc
      exact ⟨hpc.1, hpc.2.trans (Nat.le_succ _)⟩
    | consumed q | tryUnlock q | writeCons q =>
      rw [hcj] at hpc
      exact hpc.trans (Nat.le_succ _)
    | _ =>
      rw [hcj] at hpc
      exact hpc
  · change p < (s.cpus j).writtenTo at hp2
    have h1 := hj.writtenTo_le
    have h2 := (hj.unmarked hr p hp1 (by omega)).1
    have h3 := (hj.range hr).1
    exact (hkeep p (by omega) (by omega)).trans (hj.written hr p hp1 hp2)

theorem McInv.call {cmds : List Nat} {sync : Bool} (h : McInv N s start) (hc : (s.cpus i).pc = .idle)
    (hsome : cmds ≠ [] ∨ sync) :
    McInv N { s with cpus := Function.update s.cpus i { cmds, sync, pc := .load } } start := by
  have hQ := h.queue
  have hlen : 0 < (McCpu.all { cmds, sync, pc := .load }).length := by
    unfold McCpu.all
    rw [length_append, length_map]
    rcases hsome with hs | hs
    · exact Nat.add_pos_left (length_pos_of_ne_nil hs) _
    · rw [hs]
      exact Nat.succ_pos _
  refine h.update rfl { hQ with }
    ⟨trivial, fun _ => hlen, nofun, nofun,
      nofun, nofun,
      nofun, nofun⟩
    (fun j _ => ?_) nofun (h.lock.update ?_ ?_)
    nofun (fun _ _ _ ha => ha) (fun _ ha => ha) nofun
    fun hothers _ => h.quiet_of (of_pc publishes hc) hothers
  · have hj := h.cpu j
    exact { hj with }
  · exact (of_pc holds hc).symm
  · exact (of_pc excl hc).symm

end UbDkms.Ummu
