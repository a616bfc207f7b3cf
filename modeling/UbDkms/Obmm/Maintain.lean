import UbDkms.Obmm.UpdateRange

/-!
# Inferred cache maintenance

What the operations inferred from the counters do to the caches. A page whose last
writer leaves is written back and one whose last mapping with access leaves is
invalidated. The operation of one page is done to its neighbours in the VMA too, so
an invalidate reaches a page that is still written when the pages of the VMA are not
shared alike.
-/

namespace UbDkms.Obmm

open Lib List Reg

/-- No page of the range is still written when another loses its last mapping with
access, which did not write. -/
def Flush.Even (f : Flush) : Prop :=
  ∀ p q, f.Covers p → f.Covers q → (f.before p).wCount = 0 → 0 < (f.before p).rCount →
    (f.after p).rCount = 0 → (f.after q).wCount = 0

def Reg.Settled (reg : Reg) : Prop :=
  ∀ p, reg.dirty p = true → 0 < (reg.pageState p).wCount

def Flush.Safe (f : Flush) : Prop :=
  f.op = .inval → ∀ p, f.Covers p → f.dirty p = false

structure Served (reg reg' : Reg) : Prop where
  log : ∀ f ∈ reg.flushed, f ∈ reg'.flushed
  writtenBack : ∀ p, 0 < (reg.pageState p).wCount → (reg'.pageState p).wCount = 0 →
    ∃ f ∈ reg'.flushed, f.Covers p ∧ f.op.writesBack = true
  invalidated : ∀ p, 0 < (reg.pageState p).rCount → (reg'.pageState p).rCount = 0 →
    ∃ f ∈ reg'.flushed, f.Covers p ∧ f.op.invalidates = true
  settled : reg.Settled → reg'.Settled
  safe : reg.Settled → ∀ f ∈ reg'.flushed, f ∉ reg.flushed → f.Even → f.Safe

namespace Served

variable {reg reg' reg'' : Reg}

theorem trans (h : Served reg reg') (h' : Served reg' reg'') : Served reg reg'' where
  log f hf := h'.log f (h.log f hf)
  writtenBack p hp hp' := by
    rcases Nat.eq_zero_or_pos (reg'.pageState p).wCount with h0 | h0
    · obtain ⟨f, hf, hc⟩ := h.writtenBack p hp h0
      exact ⟨f, h'.log f hf, hc⟩
    · exact h'.writtenBack p h0 hp'
  invalidated p hp hp' := by
    rcases Nat.eq_zero_or_pos (reg'.pageState p).rCount with h0 | h0
    · obtain ⟨f, hf, hc⟩ := h.invalidated p hp h0
      exact ⟨f, h'.log f hf, hc⟩
    · exact h'.invalidated p h0 hp'
  settled hs := h'.settled (h.settled hs)
  safe hs f hf hnew he := by
    by_cases hf' : f ∈ reg'.flushed
    · exact h.safe hs f hf' hnew he
    · exact h'.safe (h.settled hs) f hf hf' he

theorem same (hp : ∀ p, reg'.pageState p = reg.pageState p) (hd : reg'.dirty = reg.dirty)
    (hf : reg'.flushed = reg.flushed) : Served reg reg' where
  log f h := hf ▸ h
  writtenBack p h h' := absurd h' (by rw [hp]; omega)
  invalidated p h h' := absurd h' (by rw [hp]; omega)
  settled hs p h := by rw [hp]; exact hs p (hd ▸ h)
  safe _ f h hn := absurd (hf ▸ h) hn

theorem refl : Served reg reg :=
  .same (fun _ => rfl) rfl rfl

end Served

section Change

variable {reg : Reg} {o l : List Vma} {v v' : Vma} {new : Access}

theorem Exact.wCount_le (h : Exact reg l) (p : Nat) :
    (reg.pageState p).wCount ≤ (reg.pageState p).rCount := by
  rw [h.wCount, h.rCount]
  refine total_le (fun v => ?_) l
  unfold Vma.writer Vma.reader
  rw [accessIsWriter_vmFlagsToAccess, accessIsReader_vmFlagsToAccess]
  cases v.counted p <;> cases v.flags.read <;> cases v.flags.write <;> decide

theorem Reg.flushRange_ok {before : Nat → PageState} {pgoff npages : Nat} {op : CacheOps}
    (hb : pgoff + npages ≤ reg.memPages) (hn : 0 < npages) (hop : op ≠ .none) :
    reg.flushRange before pgoff npages op false = ({ reg with
      flushed := reg.flushed ++ [⟨pgoff, npages, op, before, reg.pageState,
        fun p => reg.dirty p || decide (0 < (reg.pageState p).wCount)⟩]
      dirty := fun p => if pgoff ≤ p ∧ p < pgoff + npages then
        decide (0 < (reg.pageState p).wCount) else reg.dirty p }, true) := by
  unfold flushRange
  rw [if_neg (by omega), if_neg hop]
  rfl

theorem Reg.npages_pos (reg : Reg) (pgoff npages : Nat) (old new : Access)
    (hop : (reg.updateVmaPermCount pgoff npages old new).2 ≠ .none) : 0 < npages := by
  rcases Nat.eq_zero_or_pos npages with rfl | hn
  · refine absurd ?_ hop
    unfold updateVmaPermCount ownershipSizeToNentries
    rw [Nat.zero_div]
    split <;> rfl
  · exact hn

/-- The region after a mapping changed its access and the inferred operation was done. -/
def Reg.infer (reg : Reg) (v : Vma) (new : Access) : Reg :=
  let r := reg.updateVmaPermCount v.pgoff v.npages (vmFlagsToAccess v.flags) new
  if r.2 ≠ .none then (r.1.flushRange reg.pageState v.pgoff v.npages r.2 false).1 else r.1

theorem Served.infer (new : Access) (h : Exact reg (v :: o)) (hv : v.owned) (hs : v.osync = false)
    (h' : Exact (reg.updateVmaPermCount v.pgoff v.npages (vmFlagsToAccess v.flags) new).1 l) :
    Served reg (reg.infer v new) := by
  have hfit := h.fits v (mem_cons_self ..) hv
  have htab := h.table (hfit.mode.trans (by rw [hs]; rfl))
  have hsz := h.sized hfit.granu
  have hpage := updateVmaPermCount_pageState hsz hfit.whole htab (vmFlagsToAccess v.flags) new
  have hwb := updateVmaPermCount_ops mergeCacheOps_writesBack rfl hsz hfit.whole htab
    (vmFlagsToAccess v.flags) new
  have hinv := updateVmaPermCount_ops mergeCacheOps_invalidates rfl hsz hfit.whole htab
    (vmFlagsToAccess v.flags) new
  obtain ⟨t, ht, -⟩ := reg.updateVmaPermCount_eq v.pgoff v.npages (vmFlagsToAccess v.flags) new
  have hbound := hfit.whole.bound
  have hpos := Reg.npages_pos reg v.pgoff v.npages
    (vmFlagsToAccess v.flags) new
  dsimp only [Reg.infer]
  generalize reg.updateVmaPermCount v.pgoff v.npages (vmFlagsToAccess v.flags) new = r at *
  obtain ⟨reg₁, ops⟩ := r
  dsimp only at *
  -- what the operation says of the pages, in terms of the counters before and after
  have hch : ∀ p, v.pgoff ≤ p → p < v.pgoff + v.npages →
      (reg.pageState p).change (vmFlagsToAccess v.flags) new = reg₁.pageState p :=
    fun p h1 h2 => ((hpage p).trans (if_pos ⟨h1, h2⟩)).symm
  have hout : ∀ p, ¬ (v.pgoff ≤ p ∧ p < v.pgoff + v.npages) → reg₁.pageState p = reg.pageState p :=
    fun p hp => (hpage p).trans (if_neg hp)
  have hwb' : ∀ p, 0 < (reg.pageState p).wCount → (reg₁.pageState p).wCount = 0 →
      (v.pgoff ≤ p ∧ p < v.pgoff + v.npages) ∧ ops.writesBack = true := fun p h1 h2 => by
    by_cases hc : v.pgoff ≤ p ∧ p < v.pgoff + v.npages
    · refine ⟨hc, hwb.mpr ⟨p, hc.1, hc.2, ?_⟩⟩
      rw [hch p hc.1 hc.2, cacheOp_writesBack]
      exact ⟨h1, h2⟩
    · rw [hout p hc] at h2
      omega
  have hinv' : ∀ p, 0 < (reg.pageState p).rCount → (reg₁.pageState p).rCount = 0 →
      (v.pgoff ≤ p ∧ p < v.pgoff + v.npages) ∧ ops.invalidates = true := fun p h1 h2 => by
    by_cases hc : v.pgoff ≤ p ∧ p < v.pgoff + v.npages
    · refine ⟨hc, hinv.mpr ⟨p, hc.1, hc.2, ?_⟩⟩
      rw [hch p hc.1 hc.2, cacheOp_invalidates]
      have := h'.wCount_le p
      exact ⟨.inr h1, by omega, h2⟩
    · rw [hout p hc] at h2
      omega
  have hfl : reg₁.flushed = reg.flushed := by rw [ht]
  have hdi : reg₁.dirty = reg.dirty := by rw [ht]
  have hmem : reg₁.memPages = reg.memPages := by rw [ht]
  by_cases hop : ops = .none
  · rw [if_neg (not_not.mpr hop)]
    subst hop
    refine ⟨fun f hf => hfl ▸ hf, fun p h1 h2 => ?_, fun p h1 h2 => ?_, fun hset p hd => ?_,
      fun _ f hf hn => absurd (hfl ▸ hf) hn⟩
    · exact absurd (hwb' p h1 h2).2 (by decide)
    · exact absurd (hinv' p h1 h2).2 (by decide)
    · rcases Nat.eq_zero_or_pos (reg₁.pageState p).wCount with h0 | h0
      · exact absurd (hwb' p (hset p (hdi ▸ hd)) h0).2 (by decide)
      · exact h0
  rw [if_pos hop]
  rw [Reg.flushRange_ok (hmem ▸ hbound) (hpos hop) hop]
  refine ⟨fun f hf => mem_append_left _ (hfl ▸ hf), fun p h1 h2 => ?_, fun p h1 h2 => ?_,
    fun hset p hd => ?_, fun hset f hf hnew he hin q hq => ?_⟩
  · exact ⟨_, mem_append_right _ (mem_singleton_self _), hwb' p h1 h2⟩
  · exact ⟨_, mem_append_right _ (mem_singleton_self _), hinv' p h1 h2⟩
  · dsimp only at hd
    split at hd
    · exact of_decide_eq_true hd
    next hc =>
    have := hset p (hdi ▸ hd)
    rwa [← hout p hc] at this
  rcases mem_append.mp hf with hf | hf
  · exact absurd (hfl ▸ hf) hnew
  obtain rfl := mem_singleton.mp hf
  subst hin
  -- some page lost its last mapping with access, which did not write
  obtain ⟨p, h1, h2, hp⟩ := hinv.mp rfl
  rw [hch p h1 h2, cacheOp_invalidates] at hp
  have hw0 : (reg.pageState p).wCount = 0 := by
    rcases Nat.eq_zero_or_pos (reg.pageState p).wCount with h0 | h0
    · exact h0
    · exact absurd (hwb' p h0 hp.2.1).2 (by decide)
  have hq0 : (reg₁.pageState q).wCount = 0 :=
    he p q ⟨h1, h2⟩ hq hw0 (hp.1.resolve_left (by omega)) hp.2.2
  refine Bool.or_eq_false_iff.mpr ⟨?_, decide_eq_false (by omega)⟩
  rw [hdi]
  by_contra hd
  exact absurd (hwb' q (hset q (by simpa using hd)) hq0).2 (by decide)

section

variable (h : Exact reg (v :: o)) (hv : v.owned = true) (hs : v.osync = false)
include h hv hs

theorem Served.soil {a : Access} (ha : accessIsWriter a = v.writer) :
    Served reg (reg.soil v.pgoff v.npages a) where
  log f hf := hf
  writtenBack p h1 h2 := absurd h2 (Nat.pos_iff_ne_zero.mp h1)
  invalidated p h1 h2 := absurd h2 (Nat.pos_iff_ne_zero.mp h1)
  settled hset p hd := by
    rcases Bool.or_eq_true .. ▸ hd with hd | hd
    · exact hset p hd
    obtain ⟨hw, hc⟩ := Bool.and_eq_true .. ▸ hd
    have hcount := h.wCount p
    have hcov : v.counted p := (Exact.counted_eq hv hs p).trans hc
    rw [total_cons, hcov, ← ha, hw, Bool.true_and, Bool.toNat_true] at hcount
    have : (reg.soil v.pgoff v.npages a).pageState p = reg.pageState p := rfl
    rw [this]
    omega
  safe _ f hf hn := absurd hf hn

theorem Served.modifyVma {u : UpdateRange} (hu : u.ops = none) (b : Bool) :
    Served reg (reg.modifyVma u v false b fun _ => false).1 := by
  have hfit := h.fits v (mem_cons_self ..) hv
  have hmode : reg.mode = .normal := hfit.mode.trans (by rw [hs]; rfl)
  have hch := h.change (setFlags { v with saved := v.flags } (accessToVmFlags u.access))
    (vmFlagsToAccess v.flags) u.access hv hs ⟨_, _, rfl⟩ ⟨rfl, rfl⟩
    ⟨(accessToVmFlags_write u.access).symm.trans (setFlags_writer ..).symm,
      (accessToVmFlags_read u.access).symm.trans (setFlags_reader ..).symm⟩
  have hserved := Served.infer u.access h hv hs hch
  have hpos := Reg.npages_pos reg v.pgoff v.npages (vmFlagsToAccess v.flags) u.access
  obtain ⟨t, ht, -⟩ := reg.updateVmaPermCount_eq v.pgoff v.npages (vmFlagsToAccess v.flags) u.access
  have hinfer : Exact (reg.infer v u.access)
      (setFlags { v with saved := v.flags } (accessToVmFlags u.access) :: o) := by
    dsimp only [Reg.infer]
    split
    · exact hch.flush ..
    · exact hch
  have hstore : ∀ r : Reg, ∀ a, r.store (fun _ => false) v.pgoff v.npages a = r := by
    simp [Reg.store]
  have heq : (reg.modifyVma u v false b fun _ => false).1 =
      (reg.infer v u.access).soil v.pgoff v.npages u.access := by
    unfold Reg.modifyVma Reg.infer flushOp
    have hm1 : (reg.updateVmaPermCount v.pgoff v.npages (vmFlagsToAccess v.flags) u.access).1.mode =
        .normal := by rw [ht]; exact hmode
    have hb1 : v.pgoff + v.npages ≤ (reg.updateVmaPermCount v.pgoff v.npages
        (vmFlagsToAccess v.flags) u.access).1.memPages := by rw [ht]; exact hfit.whole.bound
    rw [hu]
    dsimp only
    have hgeo : Vma.npages (setFlags { v with saved := v.flags } (accessToVmFlags u.access)) =
        v.npages := rfl
    have hgeo' : (setFlags { v with saved := v.flags } (accessToVmFlags u.access)).pgoff =
        v.pgoff := rfl
    have hgeo'' : Vma.npages { v with saved := v.flags } = v.npages := rfl
    rw [hgeo, hgeo', hgeo'']
    generalize reg.updateVmaPermCount v.pgoff v.npages (vmFlagsToAccess v.flags) u.access = r at *
    have hinf : (if r.2 ≠ .none ∧ r.1.mode = .normal then r.2 else .none) = r.2 := by
      by_cases hop : r.2 = .none
      · rw [if_neg fun hc => hc.1 hop, hop]
      · exact if_pos ⟨hop, hm1⟩
    rw [hinf]
    simp only [hstore]
    by_cases hop : r.2 = .none
    · rw [if_neg (not_not.mpr hop), if_neg (not_not.mpr hop)]
      cases b <;> rfl
    · rw [if_pos hop, if_pos hop, Reg.flushRange_ok hb1 (hpos hop) hop]
      cases b <;> rfl
  rw [heq]
  exact hserved.trans (Served.soil hinfer hv hs
    ((accessToVmFlags_write u.access).symm.trans (setFlags_writer ..).symm))

end

theorem Served.splitVma {reg' : Reg} {low high : Vma} {addr : Nat} {fails : Bool}
    (h : reg.splitVma v addr fails = some (reg', low, high)) : Served reg reg' := by
  obtain ⟨-, rfl, -, -⟩ := splitVma_some h
  split <;> exact .same (fun p => rfl) rfl rfl

end Change

section Walk

variable {reg : Reg} {o l low : List Vma} {v : Vma} {u : UpdateRange} {f : Faults} {k c : Nat}

theorem Served.updateFrom (low : List Vma) (h : Exact reg (v :: (low ++ o))) (hv : v.owned)
    (hs : v.osync = false) (hu : u.ops = none) (hf : ∀ k, f.flush k = false ∧ f.stores k = fun _ => false)
    (h1 : v.start < u.stop) : Served reg (reg.updateFrom u f k low v).reg := by
  unfold Reg.updateFrom
  rw [(hf k).1, (hf k).2]
  split
  · next hstop =>
    split
    · exact .refl
    next reg' v' high hsp =>
    have hsplit := h.splitVma hsp h1 hstop
    have hserved := Served.splitVma hsp
    obtain ⟨-, -, rfl, -⟩ := splitVma_some hsp
    exact hserved.trans (Served.modifyVma hsplit hv hs hu _)
  · exact Served.modifyVma h hv hs hu _

theorem Served.updateVma (h : Exact reg (v :: o)) (hm : reg.mode ≠ .osync) (hu : u.ops = none)
    (hf : ∀ k, f.flush k = false ∧ f.stores k = fun _ => false) (h2 : c < v.stop) (h3 : c < u.stop) :
    Served reg (reg.updateVma u f k c v).reg := by
  unfold Reg.updateVma
  split
  · exact .refl
  next hgap =>
  split
  · exact .refl
  next hown =>
  have hv : v.owned := by simpa using hown
  have hs : v.osync = false := h.osync_false hv hm
  split
  · next hlt =>
    split
    · exact .refl
    next reg' low v' hsp =>
    have hsplit := h.splitVma hsp hlt h2
    have hserved := Served.splitVma hsp
    obtain ⟨-, -, rfl, rfl⟩ := splitVma_some hsp
    exact hserved.trans
      (Served.updateFrom _ (hsplit.perm (List.Perm.swap ..)) hv hs hu hf (by exact h3))
  · next hge =>
    exact Served.updateFrom [] h hv hs hu hf (by omega)

theorem Served.updateVmas (h : Exact reg (o ++ l)) (hm : reg.mode ≠ .osync) (hu : u.ops = none)
    (hf : ∀ k, f.flush k = false ∧ f.stores k = fun _ => false) : Served reg (Reg.updateVmas u f k reg c c l).reg := by
  induction l generalizing k reg c o with
  | nil => exact .refl
  | cons v l ih =>
    unfold Reg.updateVmas
    split
    · exact .refl
    next hc =>
    split
    · exact ih (o := o ++ [v]) (by simpa using h) hm
    next hstop =>
    split
    · exact .refl
    have hex := h.perm perm_middle
    have hserved := Served.updateVma (k := k) hex hm hu hf (not_le.mp hstop) (not_le.mp hc)
    have ht := Turned.updateVma (f := f) (k := k) hex hm (not_le.mp hstop) (not_le.mp hc)
    generalize reg.updateVma u f k c v = t at ht hserved ⊢
    dsimp only
    split
    · exact hserved
    next hret =>
    obtain ⟨-, -, h3⟩ := ht.modified (ht.ret (not_not.mp hret))
    rw [if_pos (ht.ret (not_not.mp hret))]
    have hmode : t.reg.mode ≠ .osync := by
      rw [(ht.exact.fits t.vma (by simp) h3.owned).mode, h3.osync]
      simp
    have hnext : Exact t.reg ((t.low ++ t.vma :: t.high ++ o) ++ l) :=
      ht.exact.perm (List.Perm.of_eq (by simp))
    exact hserved.trans (ih hnext hmode)

end Walk

section Calls

variable {reg : Reg} {o : List Vma} {v : Vma} {a : MmapArgs}

theorem Served.count (reg : Reg) (c : Nat) (m : MmapMode) :
    Served reg { reg with mmapCount := c, mode := m } :=
  .same (fun _ => rfl) rfl rfl

theorem Reg.mmapLocked_ghost (reg : Reg) (a : MmapArgs) :
    (reg.mmapLocked a).1.flushed = reg.flushed ∧ ((reg.mmapLocked a).1.dirty = reg.dirty ∨
      (reg.mmapLocked a).2 = 0 ∧ (reg.mmapLocked a).1.mode = .normal ∧
      (reg.mmapLocked a).1.dirty = (reg.soil a.pgoff (a.stop - a.start) (vmFlagsToAccess a.flags)).dirty) := by
  unfold mmapLocked
  split
  · next hm =>
    split
    · exact ⟨rfl, .inl rfl⟩
    next reg' hi =>
    obtain ⟨t, rfl⟩ : ∃ t, reg' = { reg with ownership := t } := by
      rcases initOwnershipInfo_some hi with ⟨-, rfl⟩ | ⟨-, rfl⟩
      · exact ⟨_, rfl⟩
      · exact ⟨_, rfl⟩
    split
    · exact ⟨rfl, .inl rfl⟩
    obtain ⟨t', ht', -⟩ := updateVmaPermCount_eq { reg with ownership := t } a.pgoff
      (a.stop - a.start) .noAccess (vmFlagsToAccess a.flags)
    dsimp only
    rw [ht']
    exact ⟨rfl, .inr ⟨rfl, hm, rfl⟩⟩
  · split <;> exact ⟨rfl, .inl rfl⟩

theorem Reg.fopsMmap_ghost (reg : Reg) (a : MmapArgs) :
    (reg.fopsMmap a).1.flushed = reg.flushed ∧ ((reg.fopsMmap a).1.dirty = reg.dirty ∨
      (reg.fopsMmap a).2 = 0 ∧ (reg.fopsMmap a).1.mode = .normal ∧
      (reg.fopsMmap a).1.dirty = (reg.soil a.pgoff (a.stop - a.start) (vmFlagsToAccess a.flags)).dirty) := by
  unfold Reg.fopsMmap
  split
  · exact ⟨rfl, .inl rfl⟩
  split
  · exact ⟨rfl, .inl rfl⟩
  split
  · exact ⟨rfl, .inl rfl⟩
  split
  · exact ⟨rfl, .inl rfl⟩
  dsimp only
  generalize (if reg.mode = .init then (if a.file.osync then MmapMode.osync else .normal)
    else reg.mode) = m
  have hg := Reg.mmapLocked_ghost { reg with granu := a.granu, mode := m } a
  split
  · exact hg
  · next h0 => exact ⟨hg.1, hg.2.imp id fun h => absurd h.1 h0⟩

theorem Served.vmaClose (h : Exact reg (v :: o)) (hv : v.owned)
    (hos : v.osync → reg.ownership = none) : Served reg (reg.vmaClose v false) := by
  dsimp only [Reg.vmaClose]
  cases hs : v.osync with
  | false =>
    have hfit := h.fits v (mem_cons_self ..) hv
    have hmode : reg.mode = .normal := hfit.mode.trans (by rw [hs]; rfl)
    have hch := h.change { v with flags := {} } (vmFlagsToAccess v.flags) .noAccess hv hs
      ⟨{}, v.saved, rfl⟩ ⟨rfl, rfl⟩ ⟨rfl, rfl⟩
    have hserved := Served.infer .noAccess h hv hs hch
    obtain ⟨t, ht, -⟩ := reg.updateVmaPermCount_eq v.pgoff v.npages (vmFlagsToAccess v.flags) .noAccess
    have hm1 : (reg.updateVmaPermCount v.pgoff v.npages (vmFlagsToAccess v.flags) .noAccess).1.mode =
        .normal := by rw [ht]; exact hmode
    unfold Reg.infer at hserved
    by_cases hop : (reg.updateVmaPermCount v.pgoff v.npages (vmFlagsToAccess v.flags) .noAccess).2 = .none
    · rw [if_neg (not_not.mpr hop)] at hserved
      rw [if_neg fun hc => hc.1 hop]
      exact hserved.trans (.count ..)
    rw [if_pos hop] at hserved
    rw [if_pos ⟨hop, hm1⟩]
    exact hserved.trans (.count ..)
  | true =>
    have he : reg.updateVmaPermCount v.pgoff v.npages (vmFlagsToAccess v.flags) .noAccess =
        (reg, .none) := by unfold updateVmaPermCount; rw [hos hs]
    rw [he]
    exact .count ..

theorem Served.fopsMmap (h : Exact reg o) (h' : (reg.fopsMmap a).2 = 0 → Exact (reg.fopsMmap a).1 (a.vma :: o))
    (h'' : (reg.fopsMmap a).2 ≠ 0 → Exact (reg.fopsMmap a).1 o) : Served reg (reg.fopsMmap a).1 := by
  have hw : ∀ p, (reg.pageState p).wCount ≤ ((reg.fopsMmap a).1.pageState p).wCount ∧
      (reg.pageState p).rCount ≤ ((reg.fopsMmap a).1.pageState p).rCount := fun p => by
    rw [h.wCount, h.rCount]
    by_cases h0 : (reg.fopsMmap a).2 = 0
    · rw [(h' h0).wCount, (h' h0).rCount, total_cons, total_cons]
      exact ⟨Nat.le_add_left .., Nat.le_add_left ..⟩
    · rw [(h'' h0).wCount, (h'' h0).rCount]
      exact ⟨le_rfl, le_rfl⟩
  obtain ⟨hfl, hd⟩ := reg.fopsMmap_ghost a
  refine ⟨fun f hf => hfl ▸ hf, fun p h1 h2 => ?_, fun p h1 h2 => ?_, fun hset p hp => ?_,
    fun _ f hf hn => absurd (hfl ▸ hf) hn⟩
  · have := (hw p).1
    omega
  · have := (hw p).2
    omega
  rcases hd with hd | ⟨h0, hm, hd⟩
  · exact (hset p (hd ▸ hp)).trans_le (hw p).1
  rw [hd] at hp
  rcases Bool.or_eq_true .. ▸ hp with hp | hp
  · exact (hset p hp).trans_le (hw p).1
  obtain ⟨hwr, hc⟩ := Bool.and_eq_true .. ▸ hp
  have hos : a.vma.osync = false := by
    have := ((h' h0).fits a.vma (mem_cons_self ..) rfl).mode
    rw [hm] at this
    cases ho : a.vma.osync with
    | false => rfl
    | true => rw [ho] at this; cases this
  have hcov : a.vma.counted p := (Exact.counted_eq rfl hos p).trans hc
  have hcount := (h' h0).wCount p
  have hwr' : a.vma.writer := hwr
  rw [total_cons, hcov, hwr', Bool.true_and, Bool.toNat_true] at hcount
  omega

end Calls

namespace Mapping

/-- Every operation is inferred and done, pages of one VMA are shared alike, nothing is stored
between a flush and the change of the page tables, and no update is rolled back. -/
def Tidy (s : Mapping) (a : MapAct) : Prop :=
  s.Countable a ∧ (∀ f ∈ (s.act a).reg.flushed, f.Even) ∧
    match a with
    | .unmap _ _ flushFails => flushFails = false
    | .update n file u f => u.ops = none ∧ (∀ k, f.flush k = false ∧ f.stores k = fun _ => false) ∧
        ∀ l, s.spaces[n]? = some l → s.begin.reg.updateCheck file u = 0 →
          (s.begin.reg.updateRange file u f l).2.2 = 0
    | _ => True

variable {s : Mapping} {a : MapAct}

theorem served_act (h : s.Counted) (ha : s.Tidy a) : Served s.begin.reg (s.act a).reg := by
  obtain ⟨⟨hb, hl, hk⟩, -, ht⟩ := ha
  have hbeg : Exact s.begin.reg s.begin.spaces.flatten := h.exact.ghost _ _
  have hid : Served s.begin.reg s.begin.reg := .refl
  cases a with
  | spawn => exact hid
  | other n start stop =>
    change Served _ (s.begin.other n start stop).reg
    unfold other
    split
    · exact hid
    · dsimp only
      split <;> exact hid
  | split n i addr fails =>
    change Served _ (s.begin.split n i addr fails).reg
    unfold split
    split
    · exact hid
    split
    · exact hid
    split
    swap
    · exact hid
    split
    · exact hid
    · next hsp => exact Served.splitVma hsp
  | unmap n i fails =>
    change Served _ (s.begin.unmap n i fails).reg
    subst ht
    unfold unmap
    split
    · exact hid
    next l hl' =>
    split
    · exact hid
    next v hv =>
    obtain ⟨o, ho, -⟩ := flatten_space hl'
    obtain ⟨l₁, l₂, hll, -, -⟩ := getElem?_split hv
    have hv' : s.begin.spaces.flatten.Perm (v :: (o ++ (l₁ ++ l₂))) := by
      refine ho.trans ?_
      rw [hll]
      exact (perm_middle.append_left o).trans perm_middle
    dsimp only
    split
    · next hown => exact Served.vmaClose (hbeg.perm hv') hown (hk l v hl' hv hown)
    · exact hid
  | mmap n a =>
    have hcases := fun l => exact_fopsMmap (l := l) hbeg a hk hb
    change Served _ (s.begin.mmap n a).reg
    unfold mmap
    split
    · exact hid
    next l hl' =>
    split
    swap
    · exact hid
    next hfree =>
    obtain ⟨hok, hfail⟩ := hcases l hl' hfree
    have hm := Served.fopsMmap hbeg (fun h0 => (hok h0).1) hfail
    dsimp only
    split <;> exact hm
  | update n file u f =>
    change Served _ (s.begin.update n file u f).reg
    obtain ⟨hu, hf, hret⟩ := ht
    unfold update
    split
    · exact hid
    next l hl' =>
    obtain ⟨o, ho, -⟩ := flatten_space hl'
    have hw := Served.updateVmas (u := u) (f := f) (k := 0) (c := u.start) (hbeg.perm ho) hk hu hf
    have hr := hret l hl'
    dsimp only
    unfold updateRange at hr ⊢
    by_cases hc : s.begin.reg.updateCheck file u = 0
    · have hr' := hr hc
      rw [if_neg (not_not.mpr hc)] at hr' ⊢
      dsimp only at hr' ⊢
      split at hr'
      · next h0 => rw [if_pos h0]; exact hw
      · next h0 => exact absurd hr' h0
    · rw [if_pos hc]
      exact hid

theorem Settled.act (h : s.Counted) (hset : s.reg.Settled) (ha : s.Tidy a) :
    (s.act a).reg.Settled :=
  (served_act h ha).settled hset

/-- In every run whose operations are inferred, done and never rolled back, whose
counters are exact, where the pages of a VMA whose access changes are shared alike and none is
stored to between the flush and the change of the page tables, each step writes back the pages whose last writer leaves, invalidates those whose last
mapping with access leaves, and discards nothing a writer wrote. -/
theorem infer_maintains {memPages pmdShift : Nat}
    (hs : Reach Tidy act (Mapping.init memPages pmdShift) s) (ha : s.Tidy a) :
    (∀ p, 0 < s.writers p → (s.act a).writers p = 0 →
      ∃ f ∈ (s.act a).reg.flushed, f.Covers p ∧ f.op.writesBack = true) ∧
    (∀ p, 0 < s.readers p → (s.act a).readers p = 0 →
      ∃ f ∈ (s.act a).reg.flushed, f.Covers p ∧ f.op.invalidates = true) ∧
    ∀ f ∈ (s.act a).reg.flushed, f.op = .inval → ∀ p, f.Covers p → f.dirty p = false := by
  have hi := hs.invariant (I := fun s => s.Counted ∧ s.reg.Settled)
    ⟨Counted.init memPages pmdShift, nofun⟩
    fun s a h ha => ⟨h.1.act ha.1, Settled.act h.1 h.2 ha⟩
  have h' := hi.1.act ha.1
  have hserved := served_act hi.1 ha
  refine ⟨fun p h1 h2 => ?_, fun p h1 h2 => ?_, fun f hf => ?_⟩
  · exact hserved.writtenBack p ((hi.1.exact.wCount p).symm ▸ h1) ((h'.exact.wCount p).trans h2)
  · exact hserved.invalidated p ((hi.1.exact.rCount p).symm ▸ h1) ((h'.exact.rCount p).trans h2)
  · exact hserved.safe hi.2 f hf nofun (ha.2.1 f hf)

/-- The unmap of a page's only mapping, which wrote. -/
theorem infer_maintains_unmap :
    ∃ f ∈ (onePage.act (.unmap 0 0 false)).reg.flushed, f.Covers 0 ∧ f.op.writesBack = true := by
  have hone : ∀ p, (Vma.counted { start := 0, stop := 1, flags := { read := true, write := true } } p).toNat
      + 0 < 65536 := fun p => Nat.lt_of_le_of_lt (Bool.toNat_le _) (by decide)
  have hs : Reach Tidy act (Mapping.init 512 9) onePage := by
    refine Reach.init.along ⟨⟨⟨fun p => Nat.zero_lt_succ _, by decide +kernel, trivial⟩,
        nofun, trivial⟩,
      ⟨⟨hone, by decide +kernel, nofun⟩, nofun, trivial⟩, trivial⟩
  refine (infer_maintains (a := .unmap 0 0 false) hs ⟨⟨fun p => Nat.zero_lt_succ _, by decide +kernel,
    fun l v hl hv ho hos => ?_⟩, fun f hf => ?_, rfl⟩).1 0 (by decide +kernel) (by decide +kernel)
  · obtain rfl := Option.some.inj hl
    obtain rfl := Option.some.inj hv
    cases hos
  · obtain rfl := mem_singleton.mp hf
    rintro p q ⟨-, hp⟩ - h0
    have hp0 : p = 0 := by
      change p < 0 + 1 at hp
      omega
    subst hp0
    exact absurd h0 (by decide +kernel)

/-- Two pages mapped for reading by one process, the second written by another: the
unmap of the first mapping invalidates both pages. -/
theorem unmap_discards : ∃ s, Reach (fun _ _ => True) act (Mapping.init 512 9) s ∧
    s.reg.mode = .normal ∧ 0 < (s.act (.unmap 0 0 false)).writers 1 ∧
    (s.act (.unmap 0 0 false)).reg.flushed.any (fun f => decide (f.op = .inval ∧ f.pgoff ≤ 1 ∧
      1 < f.pgoff + f.npages) && f.dirty 1) = true :=
  ⟨[.spawn, .spawn, .mmap 0 { start := 0, stop := 2, flags := { read := true } },
      .mmap 1 { start := 0, stop := 1, pgoff := 1, flags := { read := true, write := true } }].foldl
      act (Mapping.init 512 9),
    .foldl _, by decide +kernel, by decide +kernel, by decide +kernel⟩

end Mapping

end UbDkms.Obmm
