import UbDkms.Ummu.McmdqInv

/-!
# Steps of the command queue

Each step of a CPU and of the hardware keeps the invariant.
-/

namespace UbDkms.Ummu

open Lib
open Function (update_self update_of_ne)

variable {N start i : Nat} {s : Mcmdq} {c : McCpu} {pc : McPc}

/-! ## Steps that change the lock at most -/

theorem CpuOk.goto (h : CpuOk N s start c) (hidle : c.pc ≠ .idle)
    (hpc : PcOk N s start { c with pc })
    (hsync : McCpu.holds { c with pc } → c.sync)
    (hres : McCpu.reserved { c with pc } → c.reserved ∧
      McCpu.markFrom { c with pc } = c.markFrom ∧ McCpu.writtenTo { c with pc } = c.writtenTo)
    (hg : McCpu.gathers { c with pc } → c.gathers) : CpuOk N s start { c with pc } := by
  refine ⟨hpc, fun _ => h.some hidle, hsync, fun hr => h.range (hres hr).1, fun hr => ?_, fun hr => ?_,
    fun hr => ?_, fun hr => h.gathers (hg hr)⟩
  · obtain ⟨hr, hm, -⟩ := hres hr
    rw [hm]
    exact h.unmarked hr
  · obtain ⟨hr, hm, -⟩ := hres hr
    rw [hm]
    exact h.marked hr
  · obtain ⟨hr, hm, hw⟩ := hres hr
    rw [hm, hw]
    exact h.written hr

theorem McInv.move {l : McLock} (h : McInv N s start)
    (own : CpuOk N s start { s.cpus i with pc })
    (hres : McCpu.reserved { s.cpus i with pc } → (s.cpus i).reserved)
    (hlock : LockOk l (Function.update s.cpus i { s.cpus i with pc }))
    (habove : McCpu.holds { s.cpus i with pc } → ∀ x, x ≤ s.consReg →
      ((s.cpus i).holds → (s.cpus i).Above N x) → McCpu.Above { s.cpus i with pc } N x)
    (hwriter : ∀ x, pc = .writeCons x → ∀ j, j ≠ i → (s.cpus j).holds = false)
    (hpub : McCpu.publishes { s.cpus i with pc } = (s.cpus i).publishes) :
    McInv N { s.goto i pc with lock := l } start := by
  have hq := h.queue
  refine h.update (i := i) (c := { s.cpus i with pc }) rfl { hq with }
    { own with }
    (fun j _ => ?_) (fun hr => .inl ⟨hres hr, rfl, rfl⟩) hlock habove (fun _ _ _ ha => ha) (fun _ ha => ha)
    hwriter fun hothers hc => h.quiet fun j => ?_
  · have hj := h.cpu j
    exact { hj with }
  · by_cases hj : j = i
    · rw [hj, ← hpub]
      exact hc
    · exact hothers j hj

theorem McInv.wait (h : McInv N s start) (hidle : (s.cpus i).pc ≠ .idle)
    (hres : (s.cpus i).reserved = false) (hexcl : McCpu.excl { s.cpus i with pc } = (s.cpus i).excl)
    (hres' : McCpu.reserved { s.cpus i with pc } = false) (hpc : PcOk N s start { s.cpus i with pc }) :
    McInv N (s.goto i pc) start := by
  have attr : ∀ c : McCpu, c.reserved = false → c.holds = false ∧ c.publishes = false ∧ c.gathers = false ∧
      ∀ x, c.pc ≠ .writeCons x := by
    intro c hc
    unfold McCpu.reserved at hc
    unfold McCpu.holds McCpu.publishes McCpu.gathers
    cases hp : c.pc <;> simp_all
  obtain ⟨h1, h2, h3, h4⟩ := attr _ hres
  obtain ⟨h1', h2', h3', h4'⟩ := attr _ hres'
  refine h.move (l := s.lock) ((h.cpu i).goto hidle hpc ?_ ?_ ?_) ?_ ?_ ?_ ?_ ?_
  · rw [h1']
    exact nofun
  · rw [hres']
    exact nofun
  · rw [h3']
    exact nofun
  · rw [hres']
    exact nofun
  · exact h.lock.update (h1'.trans h1.symm) hexcl
  · rw [h1']
    exact nofun
  · exact fun x hx => absurd hx (h4' x)
  · rw [h2', h2]

/-- The call waits for its `CMD_SYNC`, or has done so. -/
def McCpu.settled (c : McCpu) : Bool :=
  match c.pc with
  | .syncLoad | .consumed _ | .msi | .tryUnlock _ | .writeCons _ | .unlock => true
  | _ => false

theorem McCpu.settled_attr (h : c.settled) : c.reserved ∧ c.holds ∧ c.excl = false ∧
    c.publishes = false ∧ c.gathers = false ∧ c.markFrom = c.eprod ∧ c.writtenTo = c.eprod ∧ c.pc ≠ .idle := by
  unfold McCpu.settled at h
  unfold McCpu.reserved McCpu.holds McCpu.excl McCpu.publishes McCpu.gathers McCpu.markFrom McCpu.writtenTo
  cases hc : c.pc <;> simp_all

variable (h : McInv N s start)
include h

theorem McInv.hold (hset : (s.cpus i).settled)
    (hset' : McCpu.settled { s.cpus i with pc }) (hpc : PcOk N s start { s.cpus i with pc })
    (habove : ∀ x, x ≤ s.consReg → (s.cpus i).Above N x → McCpu.Above { s.cpus i with pc } N x)
    (hwriter : ∀ x, pc = .writeCons x → ∀ j, j ≠ i → (s.cpus j).holds = false) :
    McInv N (s.goto i pc) start := by
  obtain ⟨h1, h2, h3, h4, -, h5, h6, hidle⟩ := McCpu.settled_attr hset
  obtain ⟨-, h2', h3', h4', h5', h6', h7', -⟩ := McCpu.settled_attr hset'
  refine h.move (l := s.lock) ((h.cpu i).goto hidle hpc (fun _ => (h.cpu i).sync h2) (fun _ => ?_) ?_)
    (fun _ => h1) (h.lock.update (h2'.trans h2.symm) (h3'.trans h3.symm))
    (fun _ x hx ha => habove x hx (ha h2)) hwriter (h4'.trans h4.symm)
  · exact ⟨h1, h6'.trans h5.symm, h7'.trans h6.symm⟩
  · rw [h5']
    exact nofun

theorem McInv.exclLock {p q : Nat} {f : Bool} (hc : (s.cpus i).pc = .reserve p q f)
    (hlock : s.lock = .shared 0) : McInv N { s.goto i .exclRead with lock := .exclusive } start := by
  have hl := h.lock
  rw [hlock] at hl
  obtain ⟨hexcl, S, hcard, hS⟩ := hl
  have hnone : ∀ j, (s.cpus j).holds = false := by
    intro j
    have hj : j ∉ S := by
      rw [Finset.card_eq_zero.mp hcard]
      exact Finset.notMem_empty j
    simpa using fun hh => hj ((hS j).mpr hh)
  refine h.move ((h.cpu i).goto (by rw [hc]; simp) trivial nofun
    nofun nofun)
    nofun ⟨fun j => ?_, fun j k hj hk => ?_⟩
    nofun (fun x hx => absurd hx (by simp)) ?_
  · by_cases hj : j = i
    · rw [hj, update_self]
      rfl
    · rw [update_of_ne hj]
      exact hnone j
  · have only : ∀ j, (Function.update s.cpus i { s.cpus i with pc := .exclRead } j).excl = true → j = i := by
      intro j hj
      by_contra hne
      rw [update_of_ne hne, hexcl j] at hj
      cases hj
    rw [only j hj, only k hk]
  · exact (McCpu.of_pc McCpu.publishes hc).symm

theorem McInv.alone (hexcl : (s.cpus i).excl) :
    (∀ j, (s.cpus j).holds = false) ∧ ∀ j k, (s.cpus j).excl → (s.cpus k).excl → j = k := by
  have hl := h.lock
  cases hlock : s.lock with
  | shared n =>
    rw [hlock] at hl
    rw [hl.1 i] at hexcl
    cases hexcl
  | exclusive =>
    rw [hlock] at hl
    exact hl

theorem McInv.exclUnlock (hc : (s.cpus i).pc = .exclUnlock) :
    McInv N { s.goto i .load with lock := .shared 0 } start := by
  have hexcl : (s.cpus i).excl := McCpu.of_pc McCpu.excl hc
  obtain ⟨hholds, hone⟩ := h.alone hexcl
  refine h.move ((h.cpu i).goto (by rw [hc]; simp) trivial nofun
    nofun nofun)
    nofun ⟨fun j => ?_, ∅, Finset.card_empty, fun j => ?_⟩
    nofun (fun x hx => absurd hx (by simp)) ?_
  · by_cases hj : j = i
    · rw [hj, update_self]
      rfl
    rw [update_of_ne hj]
    by_contra hne
    exact hj (hone j i (by simpa using hne) hexcl)
  · refine iff_of_false (Finset.notMem_empty j) ?_
    by_cases hj : j = i
    · rw [hj, update_self]
      exact Bool.false_ne_true
    · rw [update_of_ne hj, hholds j]
      exact Bool.false_ne_true
  · exact (McCpu.of_pc McCpu.publishes hc).symm

theorem McInv.unlock {n : Nat} (hc : (s.cpus i).pc = .unlock)
    (hlock : s.lock = .shared n) : McInv N { s.goto i .idle with lock := .shared (n - 1) } start := by
  have hl := h.lock
  rw [hlock] at hl
  obtain ⟨hexcl, S, hcard, hS⟩ := hl
  have hi : i ∈ S := (hS i).mpr (McCpu.of_pc McCpu.holds hc)
  refine h.move ((h.cpu i).goto (by rw [hc]; simp) trivial nofun
    nofun nofun)
    nofun
    ⟨fun j => ?_, S.erase i, by rw [Finset.card_erase_of_mem hi, hcard], fun j => ?_⟩
    nofun (fun x hx => absurd hx (by simp)) ?_
  · by_cases hj : j = i
    · rw [hj, update_self]
      rfl
    · rw [update_of_ne hj]
      exact hexcl j
  · rw [Finset.mem_erase, hS]
    by_cases hj : j = i
    · subst hj
      rw [update_self]
      exact iff_of_false (fun hh => hh.1 rfl) Bool.false_ne_true
    · rw [update_of_ne hj]
      exact and_iff_right hj
  · exact (McCpu.of_pc McCpu.publishes hc).symm

end UbDkms.Ummu
