import UbDkms.Obmm.Exact

/-!
# Counters over runs

Each operation keeps the counters exact, so every run does whose operations never
unmap or update an `O_SYNC` mapping while the ownership table exists, never map at
another granularity than the table was allocated for and never take a 16-bit or
32-bit counter past its end.
-/

namespace UbDkms.Obmm

open Lib List
open scoped List

section Mmap

variable {reg : Reg} {o : List Vma} {a : MmapArgs} {p : Nat} {reg' : Reg}

theorem MmapArgs.granu_ne (a : MmapArgs) : a.granu ≠ .none := by
  unfold MmapArgs.granu
  split <;> exact nofun

theorem Exact.pageState_granu {g : MmapGranu} (h : Exact reg o) (m : MmapMode) (c : Nat)
    (hg : reg.granu = .none ∨ reg.granu = g) :
    { reg with granu := g, mode := m, mmapCount := c }.pageState p = reg.pageState p := by
  rcases hg with hg | rfl
  · rw [h.pageState_of_init hg]
    have hunit : reg.unit = 1 := by
      unfold Reg.unit unitOf
      rw [hg]
      rfl
    have hz := h.pageState_of_init hg (p / unitOf reg.pmdShift g)
    unfold Reg.pageState Reg.ownershipPgoffToIndex at hz ⊢
    rw [hunit, Nat.div_one] at hz
    exact hz
  · rfl

theorem pageState_alloc {n : Nat} (ho : reg.ownership = none) :
    { reg with ownership := some (List.replicate n {}) }.pageState p = reg.pageState p := by
  have h0 : reg.pageState p = {} := by unfold Reg.pageState; rw [ho]
  rw [h0]
  dsimp only [Reg.pageState]
  rw [getD_eq_getElem?_getD, List.getElem?_replicate]
  split <;> rfl

theorem Reg.initOwnershipInfo_some {fails : Bool}
    (h : reg.initOwnershipInfo fails = some reg') :
    (reg.ownership.isSome ∧ reg' = reg) ∨ (reg.ownership = none ∧
      reg' = { reg with ownership := some (List.replicate (reg.memPages / reg.unit) {}) }) := by
  unfold Reg.initOwnershipInfo at h
  split at h
  · next t ht => exact .inl ⟨by rw [ht]; rfl, (Option.some.inj h).symm⟩
  next ht =>
  split at h
  · cases h
  split at h
  · cases h
  · exact .inr ⟨ht, (Option.some.inj h).symm⟩

theorem Exact.allocated {g : MmapGranu} {m : MmapMode} {fails : Bool}
    (h : Exact reg o) (hg : reg.granu = .none ∨ reg.granu = g)
    (hsame : ∀ t, reg.ownership = some t → t.length = reg.memPages / unitOf reg.pmdShift g)
    (hi : { reg with granu := g, mode := m }.initOwnershipInfo fails = some reg') :
    ∃ t, t.length = reg.memPages / unitOf reg.pmdShift g ∧
      reg' = { reg with granu := g, mode := m, ownership := some t } ∧
      ∀ p, reg'.pageState p = reg.pageState p ∧
        { reg with ownership := some t }.pageState p = reg.pageState p := by
  have hgran := fun p => h.pageState_granu (p := p) m reg.mmapCount hg
  rcases Reg.initOwnershipInfo_some hi with ⟨hs, rfl⟩ | ⟨hn, rfl⟩
  · obtain ⟨t, ht⟩ := Option.isSome_iff_exists.mp hs
    refine ⟨t, hsame t ht, ?_, fun p => ⟨hgran p, ?_⟩⟩
    · dsimp only at ht
      rw [← ht]
    · dsimp only at ht
      rw [← ht]
  · exact ⟨_, length_replicate, rfl,
      fun p => ⟨(pageState_alloc hn).trans (hgran p), pageState_alloc hn⟩⟩

theorem Reg.fits_vma (hc : reg.mmapCheck a = 0) (hmem : reg'.memPages = reg.memPages)
    (hshift : reg'.pmdShift = reg.pmdShift) (hg : reg'.granu = a.granu)
    (hm : reg'.mode = if a.file.osync then .osync else .normal)
    (hsize : ¬ (reg.memPages ≤ a.pgoff ∨ reg.memPages - a.pgoff < a.stop - a.start)) :
    a.vma.Fits reg' := by
  have hunit : reg'.unit = unitOf reg.pmdShift a.granu := by unfold Reg.unit; rw [hg, hshift]
  have hal : reg'.unit ∣ a.start ∧ reg'.unit ∣ a.stop ∧ reg'.unit ∣ a.pgoff := by
    rw [hunit]
    unfold MmapArgs.granu unitOf
    cases hp : a.pmd with
    | false => simp
    | true =>
      unfold Reg.mmapCheck at hc
      simp only [hp, Bool.true_and] at hc
      repeat' split at hc
      all_goals simp_all [Nat.dvd_iff_mod_eq_zero]
  refine ⟨hal.1, ⟨hal.2.2, Nat.dvd_sub hal.2.1 hal.1, ?_⟩, hm, hg ▸ a.granu_ne⟩
  have : a.vma.npages = a.stop - a.start := rfl
  have hv : a.vma.pgoff = a.pgoff := rfl
  omega

theorem Reg.updateVmaPermCount_mmapCount (reg : Reg) (c pgoff npages : Nat) (old new : Access) :
    ({ reg with mmapCount := c }.updateVmaPermCount pgoff npages old new).1 =
      { (reg.updateVmaPermCount pgoff npages old new).1 with mmapCount := c } := by
  dsimp only [Reg.updateVmaPermCount]
  split <;> rfl

theorem Exact.mmapLocked {m : MmapMode} (h : Exact reg o) (hc : reg.mmapCheck a = 0)
    (hg : reg.granu = .none ∨ reg.granu = a.granu)
    (hsize : ¬ (reg.memPages ≤ a.pgoff ∨ reg.memPages - a.pgoff < a.stop - a.start))
    (hm : m = if a.file.osync then .osync else .normal) (hmode : reg.mode = .init ∨ reg.mode = m)
    (hsame : ∀ t, reg.ownership = some t → t.length = reg.memPages / unitOf reg.pmdShift a.granu) :
    if ({ reg with granu := a.granu, mode := m }.mmapLocked a).2 = 0 then
      (∀ p, total (fun v => (v.counted p).toNat) (a.vma :: o) ≤ 65535) →
        Exact ({ reg with granu := a.granu, mode := m }.mmapLocked a).1 (a.vma :: o)
    else Exact { ({ reg with granu := a.granu, mode := m }.mmapLocked a).1 with
      mode := reg.mode, granu := reg.granu } o := by
  unfold Reg.mmapLocked
  by_cases hn : m = .normal
  · have hos : a.file.osync = false := by
      rw [hn] at hm
      cases ho : a.file.osync with
      | false => rfl
      | true => rw [ho] at hm; cases hm
    rw [if_pos hn]
    split
    · exact h
    next reg' hi =>
    obtain ⟨t, ht, rfl, hpage⟩ := h.allocated hg hsame hi
    split
    · -- `map_obmm_region` failed: the new table is all that is left
      rw [if_neg (show ¬ ((-14 : Int) = 0) by decide)]
      refine ⟨fun hgr t' ht' => ?_, fun _ => rfl, fun v hv ho => ?_, h.mode, h.count, fun p => ?_,
        fun p => ?_, h.bound⟩
      · obtain rfl := Option.some.inj ht'
        rw [ht, ← hg.resolve_left hgr]
        rfl
      · have hf := h.fits v hv ho
        exact ⟨hf.start, ⟨hf.whole.off, hf.whole.len, hf.whole.bound⟩, hf.mode, hf.granu⟩
      · exact (congrArg PageState.wCount (hpage p).2).trans (h.wCount p)
      · exact (congrArg PageState.rCount (hpage p).2).trans (h.rCount p)
    -- the mapping joins without access and then takes the access it asked for
    rw [if_pos rfl]
    intro hbound
    have hj : Exact { reg with
        granu := a.granu
        mode := m
        ownership := some t
        mmapCount := atomicInc reg.mmapCount } ({ a.vma with flags := {} } :: o) := by
      have hfit : a.vma.Fits { reg with
          granu := a.granu
          mode := m
          ownership := some t
          mmapCount := atomicInc reg.mmapCount } := Reg.fits_vma hc rfl rfl rfl hm hsize
      refine h.join rfl rfl rfl hmode hg (fun t' ht' => ?_) (fun _ => rfl)
        { hfit with } rfl (fun p => (hpage p).1)
        (fun p => Bool.and_false _) (fun p => Bool.and_false _) hbound
      obtain rfl := Option.some.inj ht'
      exact ht
    have hch := hj.change a.vma .noAccess (vmFlagsToAccess a.flags) rfl hos
      ⟨a.flags, {}, rfl⟩ ⟨rfl, rfl⟩ ⟨rfl, rfl⟩
    have heq := Reg.updateVmaPermCount_mmapCount
      { reg with granu := a.granu, mode := m, ownership := some t } (atomicInc reg.mmapCount)
      a.pgoff (a.stop - a.start) .noAccess (vmFlagsToAccess a.flags)
    have hsoil := (heq ▸ hch).soil a.pgoff (a.stop - a.start) (vmFlagsToAccess a.flags)
    obtain ⟨t', ht', -⟩ := Reg.updateVmaPermCount_eq
      { reg with granu := a.granu, mode := m, ownership := some t }
      a.pgoff (a.stop - a.start) .noAccess (vmFlagsToAccess a.flags)
    dsimp only
    rw [ht'] at hsoil ⊢
    exact hsoil
  · rw [if_neg hn]
    have hos : a.file.osync := by
      cases ho : a.file.osync with
      | true => rfl
      | false => rw [ho] at hm; exact absurd hm hn
    split
    · rw [if_neg (show ¬ ((-14 : Int) = 0) by decide)]
      exact h
    rw [if_pos rfl]
    intro hbound
    have hcount : ∀ p, a.vma.counted p = false := fun p => by
      unfold Vma.counted MmapArgs.vma
      rw [hos]
      rfl
    refine h.join rfl rfl rfl hmode hg (fun t ht => hsame t ht) (fun hm' => absurd hm' hn)
      (Reg.fits_vma hc rfl rfl rfl hm hsize) rfl (fun p => h.pageState_granu m _ hg)
      (fun p => by rw [hcount]; rfl) (fun p => by rw [hcount]; rfl) hbound

theorem Exact.fopsMmap (h : Exact reg o)
    (hsame : ∀ t, reg.ownership = some t → t.length = reg.memPages / unitOf reg.pmdShift a.granu) :
    if (reg.fopsMmap a).2 = 0 then
      (∀ p, total (fun v => (v.counted p).toNat) (a.vma :: o) ≤ 65535) →
        Exact (reg.fopsMmap a).1 (a.vma :: o)
    else Exact (reg.fopsMmap a).1 o := by
  unfold Reg.fopsMmap
  split
  · exact h
  next hc =>
  split
  · exact h
  next hg =>
  split
  · exact h
  next hsize =>
  split
  · exact h
  next hos =>
  have hg' : reg.granu = .none ∨ reg.granu = a.granu := by tauto
  have hm : (if reg.mode = .init then (if a.file.osync then .osync else .normal)
      else reg.mode) = if a.file.osync then MmapMode.osync else .normal := by
    cases hmode : reg.mode <;> cases ho : a.file.osync <;> simp_all
  have hmode : reg.mode = .init ∨ reg.mode =
      if reg.mode = .init then (if a.file.osync then .osync else .normal) else reg.mode := by
    by_cases hi : reg.mode = .init
    · exact .inl hi
    · exact .inr (if_neg hi).symm
  have hl := h.mmapLocked (not_not.mp hc) hg' hsize hm hmode hsame
  generalize (if reg.mode = .init then (if a.file.osync then MmapMode.osync else .normal)
    else reg.mode) = m at hl ⊢
  by_cases h0 : ({ reg with granu := a.granu, mode := m }.mmapLocked a).2 = 0
  · rw [if_pos h0] at hl
    rw [if_pos h0, if_pos h0]
    exact hl
  rw [if_neg h0] at hl
  rw [if_neg h0, if_neg h0]
  exact hl

end Mmap

section Vmas

variable {reg : Reg} {o : List Vma} {v : Vma} {addr : Nat}

theorem Exact.vmaClose (h : Exact reg (v :: o)) (hv : v.owned)
    (hos : v.osync → reg.ownership = none)
    (hfew : total (fun v => v.owned.toNat) (v :: o) ≤ 4294967296) (fails : Bool) :
    Exact (reg.vmaClose v fails) o := by
  dsimp only [Reg.vmaClose]
  cases hs : v.osync with
  | false =>
    have hch := h.change { v with flags := {} } (vmFlagsToAccess v.flags) .noAccess hv hs
      ⟨{}, v.saved, rfl⟩ ⟨rfl, rfl⟩ ⟨rfl, rfl⟩
    have hleave : ∀ reg', Exact reg' ({ v with flags := {} } :: o) → Exact { reg' with
        mmapCount := atomicDec reg'.mmapCount
        mode := if atomicDec reg'.mmapCount = 0 then .init else reg'.mode } o := fun reg' hr =>
      hr.leave hv (fun p => Bool.and_false _) (fun p => Bool.and_false _)
        ((total_head (by exact rfl) o).trans_le hfew)
    split
    · exact hleave _ (hch.flush ..)
    · exact hleave _ hch
  | true =>
    have hc : ∀ p, v.counted p = false := fun p => by unfold Vma.counted; rw [hs, hv]; rfl
    have he : reg.updateVmaPermCount v.pgoff v.npages (vmFlagsToAccess v.flags) .noAccess =
        (reg, .none) := by unfold Reg.updateVmaPermCount; rw [hos hs]
    rw [he]
    exact h.leave hv (fun p => by rw [hc]; rfl) (fun p => by rw [hc]; rfl) hfew

theorem counted_split (h1 : v.start < addr) (h2 : addr < v.stop) (b : Bool) (p : Nat) :
    ({ v with stop := addr }.counted p && b).toNat +
      ({ v with start := addr, pgoff := v.pgoff + (addr - v.start) }.counted p && b).toNat =
      (v.counted p && b).toNat := by
  have hcov : ({ v with stop := addr }.Covers p ∨
      { v with start := addr, pgoff := v.pgoff + (addr - v.start) }.Covers p) ↔ v.Covers p := by
    dsimp only [Vma.Covers, Vma.npages]
    omega
  have hdis : ¬ ({ v with stop := addr }.Covers p ∧
      { v with start := addr, pgoff := v.pgoff + (addr - v.start) }.Covers p) := by
    dsimp only [Vma.Covers, Vma.npages]
    omega
  have hor : decide (v.Covers p) = (decide ({ v with stop := addr }.Covers p) ||
      decide ({ v with start := addr, pgoff := v.pgoff + (addr - v.start) }.Covers p)) := by
    rw [← Bool.decide_or]
    exact decide_eq_decide.mpr hcov.symm
  unfold Vma.counted
  rw [hor]
  by_cases hl : { v with stop := addr }.Covers p <;>
    by_cases hh : { v with start := addr, pgoff := v.pgoff + (addr - v.start) }.Covers p
  · exact absurd ⟨hl, hh⟩ hdis
  all_goals simp [hl, hh]

theorem splitVma_some {reg' : Reg} {low high : Vma} {fails : Bool}
    (hsp : reg.splitVma v addr fails = some (reg', low, high)) :
    (v.owned → reg.isAligned addr) ∧
      reg' = (if v.owned then { reg with mmapCount := atomicInc reg.mmapCount } else reg) ∧
      low = { v with stop := addr } ∧ high = { v with start := addr, pgoff := v.pgoff + (addr - v.start) } := by
  unfold Reg.splitVma at hsp
  split at hsp
  · cases hsp
  next hal =>
  split at hsp
  · cases hsp
  simp only [Option.some.injEq, Prod.mk.injEq] at hsp
  obtain ⟨rfl, rfl, rfl⟩ := hsp
  refine ⟨fun ho => ?_, rfl, rfl, rfl⟩
  rwa [ho, Bool.true_and, Bool.not_eq_true', Bool.not_eq_false] at hal

theorem Exact.splitVma {reg' : Reg} {low high : Vma} {fails : Bool}
    (h : Exact reg (v :: o)) (hsp : reg.splitVma v addr fails = some (reg', low, high))
    (h1 : v.start < addr) (h2 : addr < v.stop) : Exact reg' (low :: high :: o) := by
  obtain ⟨hal, rfl, rfl, rfl⟩ := splitVma_some hsp
  have hparts : ∀ f : Vma → Bool, (∀ w w' : Vma, w.flags = w'.flags → f w = f w') → ∀ p,
      total (fun v => (v.counted p && f v).toNat) ({ v with stop := addr } ::
        { v with start := addr, pgoff := v.pgoff + (addr - v.start) } :: o) =
      total (fun v => (v.counted p && f v).toNat) (v :: o) := fun f hf p => by
    rw [total_cons, total_cons, total_cons, hf { v with stop := addr } v rfl,
      hf { v with start := addr, pgoff := v.pgoff + (addr - v.start) } v rfl, ← Nat.add_assoc,
      counted_split h1 h2]
  have hw := hparts Vma.writer fun w w' hww => by unfold Vma.writer; rw [hww]
  have hr := hparts Vma.reader fun w w' hww => by unfold Vma.reader; rw [hww]
  have hb := hparts (fun _ => true) fun _ _ _ => rfl
  simp only [Bool.and_true] at hb
  rcases Bool.eq_false_or_eq_true v.owned with ho | ho
  swap
  · rw [if_neg (by simp [ho])]
    exact (Exact.foreign (by exact ho)).mpr ((Exact.foreign (by exact ho)).mpr
      ((Exact.foreign ho).mp h))
  · rw [if_pos ho]
    have haddr : reg.unit ∣ addr := Nat.dvd_of_mod_eq_zero (beq_iff_eq.mp (hal ho))
    have hf := h.fits v (mem_cons_self ..) ho
    have hd := Nat.dvd_sub haddr hf.start
    have hstop : reg.unit ∣ v.stop := by
      have := Nat.dvd_add hf.whole.len hf.start
      unfold Vma.npages at this
      rwa [Nat.sub_add_cancel (by omega)] at this
    have hbd := hf.whole.bound
    unfold Vma.npages at hbd
    refine ⟨h.sized, h.table, fun w hwm how => ?_, ?_, ?_, fun p => ?_, fun p => ?_, fun p => ?_⟩
    · rcases mem_cons.mp hwm with rfl | hwm
      · exact ⟨hf.start, ⟨hf.whole.off, hd, by unfold Vma.npages; dsimp only; omega⟩, hf.mode, hf.granu⟩
      rcases mem_cons.mp hwm with rfl | hwm
      · exact ⟨haddr, ⟨Nat.dvd_add hf.whole.off hd, Nat.dvd_sub hstop haddr,
          by unfold Vma.npages; dsimp only; omega⟩, hf.mode, hf.granu⟩
      · have hfw := h.fits w (mem_cons_of_mem _ hwm) how
        exact { hfw with whole := ⟨hfw.whole.off, hfw.whole.len, hfw.whole.bound⟩ }
    · have := h.mode
      simp only [total_cons, ho, Bool.toNat_true] at this ⊢
      exact ⟨fun hm => absurd (this.mp hm) (by omega), fun h0 => absurd h0 (by omega)⟩
    · have := h.count
      simp only [total_cons, ho, Bool.toNat_true] at this ⊢
      rw [this]
      unfold atomicInc
      omega
    · exact (h.wCount p).trans (hw p).symm
    · exact (h.rCount p).trans (hr p).symm
    · exact (hb p).trans_le (h.bound p)

end Vmas

end UbDkms.Obmm
