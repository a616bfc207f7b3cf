import UbDkms.Obmm.Mapping

/-!
# Exact counters

The counters of a region are the numbers of its mappings. Every operation keeps
this, an unmap or update of an `O_SYNC` mapping while the ownership table exists
apart: it takes away from counters the mapping never added to.
-/

namespace UbDkms.Obmm

open Lib List
open scoped List

@[simp] theorem accessIsWriter_vmFlagsToAccess (f : VmFlags) :
    accessIsWriter (vmFlagsToAccess f) = f.write := by
  rcases f with ⟨_ | _, _ | _, _ | _⟩ <;> rfl

@[simp] theorem accessIsReader_vmFlagsToAccess (f : VmFlags) :
    accessIsReader (vmFlagsToAccess f) = (f.read || f.write) := by
  rcases f with ⟨_ | _, _ | _, _ | _⟩ <;> rfl

theorem accessToVmFlags_write (a : Access) : (accessToVmFlags a).write = accessIsWriter a := by
  cases a <;> rfl

theorem accessToVmFlags_read (a : Access) :
    ((accessToVmFlags a).read || (accessToVmFlags a).write) = accessIsReader a := by
  cases a <;> rfl

theorem total_le {f g : Vma → Nat} (h : ∀ v, f v ≤ g v) (l : List Vma) : total f l ≤ total g l := by
  induction l with
  | nil => exact le_rfl
  | cons v l ih => rw [total_cons, total_cons]; exact Nat.add_le_add (h v) ih

theorem total_head {f : Vma → Nat} {v v' : Vma} (h : f v' = f v) (l : List Vma) :
    total f (v' :: l) = total f (v :: l) := by
  rw [total_cons, total_cons, h]

/-- A VMA of the region lies in it, on whole entries, and is mapped as the region's mode says. -/
structure Vma.Fits (reg : Reg) (v : Vma) : Prop where
  start : reg.unit ∣ v.start
  whole : reg.Whole v.pgoff v.npages
  mode : reg.mode = if v.osync then .osync else .normal
  granu : reg.granu ≠ .none

structure Exact (reg : Reg) (l : List Vma) : Prop where
  sized : reg.granu ≠ .none → reg.Sized
  table : reg.mode = .normal → reg.ownership.isSome
  fits : ∀ v ∈ l, v.owned = true → v.Fits reg
  mode : reg.mode = .init ↔ total (fun v => v.owned.toNat) l = 0
  count : reg.mmapCount = total (fun v => v.owned.toNat) l % 4294967296
  wCount : ∀ p, (reg.pageState p).wCount = total (fun v => (v.counted p && v.writer).toNat) l
  rCount : ∀ p, (reg.pageState p).rCount = total (fun v => (v.counted p && v.reader).toNat) l
  bound : ∀ p, total (fun v => (v.counted p).toNat) l ≤ 65535

namespace Exact

variable {reg : Reg} {l l' o : List Vma} {v v' : Vma}

theorem total_perm (hp : l.Perm l') (f : Vma → Nat) : total f l = total f l' := (hp.map f).sum_eq

theorem perm (h : Exact reg l) (hp : l ~ l') : Exact reg l' where
  sized := h.sized
  table := h.table
  fits v hv := h.fits v (hp.mem_iff.mpr hv)
  mode := by rw [← total_perm hp]; exact h.mode
  count := by rw [← total_perm hp]; exact h.count
  wCount p := by rw [← total_perm hp]; exact h.wCount p
  rCount p := by rw [← total_perm hp]; exact h.rCount p
  bound p := by rw [← total_perm hp]; exact h.bound p

theorem ghost (h : Exact reg l) (d : Nat → Bool) (fl : List Flush) :
    Exact { reg with dirty := d, flushed := fl } l :=
  ⟨h.sized, h.table, fun v hv ho => ⟨(h.fits v hv ho).start,
    ⟨(h.fits v hv ho).whole.off, (h.fits v hv ho).whole.len, (h.fits v hv ho).whole.bound⟩,
    (h.fits v hv ho).mode, (h.fits v hv ho).granu⟩, h.mode, h.count, h.wCount, h.rCount, h.bound⟩

theorem soil (h : Exact reg l) (pgoff npages : Nat) (a : Access) :
    Exact (reg.soil pgoff npages a) l := h.ghost _ _

theorem store (h : Exact reg l) (stores : Nat → Bool) (pgoff npages : Nat) (a : Access) :
    Exact (reg.store stores pgoff npages a) l := h.ghost _ _

theorem flush (h : Exact reg l) (before : Nat → PageState) (pgoff npages : Nat) (op : CacheOps)
    (fail : Bool) : Exact (reg.flushRange before pgoff npages op fail).1 l := by
  obtain ⟨d, fl, he⟩ := reg.flushRange_eq pgoff npages before op fail
  rw [he]
  exact h.ghost d fl

theorem counted_le (f : Vma → Bool) (p : Nat) (l : List Vma) :
    total (fun v => (v.counted p && f v).toNat) l ≤ total (fun v => (v.counted p).toNat) l :=
  total_le (fun v => by cases v.counted p <;> cases f v <;> decide) l

theorem count16_total (f f' : Vma → Bool) {p : Nat} {c : Bool} (hc : v.counted p = c)
    (hc' : v'.counted p = c) (hb : total (fun v => (v.counted p).toNat) (v :: o) ≤ 65535)
    (ho : total (fun v => (v.counted p && f v).toNat) o =
      total (fun v => (v.counted p && f' v).toNat) o) :
    (if c = true then count16 (total (fun v => (v.counted p && f v).toNat) (v :: o)) (f v) (f' v')
      else total (fun v => (v.counted p && f v).toNat) (v :: o)) =
      total (fun v => (v.counted p && f' v).toNat) (v' :: o) := by
  have hle := counted_le f p o
  rw [total_cons, hc] at hb
  rw [total_cons, total_cons, hc, hc', ← ho]
  cases c with
  | false => simp
  | true =>
    rw [if_pos rfl, Bool.true_and, Bool.true_and]
    rw [Bool.toNat_true] at hb
    have h1 : (f v).toNat ≤ 1 := Bool.toNat_le _
    have h2 : (f' v').toNat ≤ 1 := Bool.toNat_le _
    have := count16_eq ((f v).toNat + total (fun v => (v.counted p && f v).toNat) o)
      (f v) (f' v') (by omega) (by omega) (by omega)
    omega

theorem counted_eq (hv : v.owned) (hs : v.osync = false) (p : Nat) :
    v.counted p = decide (v.Covers p) := by
  unfold Vma.counted
  rw [hv, hs]
  rfl

theorem change (h : Exact reg (v :: o)) (v' : Vma) (old new : Access) (hv : v.owned)
    (hs : v.osync = false) (hgeo : ∃ fl sv, v' = { v with flags := fl, saved := sv })
    (hold : accessIsWriter old = v.writer ∧ accessIsReader old = v.reader)
    (hnew : accessIsWriter new = v'.writer ∧ accessIsReader new = v'.reader) :
    Exact (reg.updateVmaPermCount v.pgoff v.npages old new).1 (v' :: o) := by
  have hfit := h.fits v (mem_cons_self ..) hv
  have hmode : reg.mode = .normal := by rw [hfit.mode, hs]; rfl
  have hpage := Reg.updateVmaPermCount_pageState (h.sized hfit.granu) hfit.whole (h.table hmode) old new
  have hcov : ∀ p, v'.counted p = v.counted p := by
    obtain ⟨fl, sv, rfl⟩ := hgeo
    exact fun p => rfl
  have howned : v'.owned = v.owned := by
    obtain ⟨fl, sv, rfl⟩ := hgeo
    rfl
  have hif : ∀ p (a b : PageState), (if v.pgoff ≤ p ∧ p < v.pgoff + v.npages then a else b) =
      if v.counted p = true then a else b := fun p a b =>
    if_congr (by rw [counted_eq hv hs]; exact decide_eq_true_iff.symm) rfl rfl
  obtain ⟨t, ht, hlen⟩ := reg.updateVmaPermCount_eq v.pgoff v.npages old new
  have hfits : ∀ w ∈ v :: o, w.owned → w.Fits { reg with ownership := t } := fun w hw ho =>
    ⟨(h.fits w hw ho).start, ⟨(h.fits w hw ho).whole.off, (h.fits w hw ho).whole.len,
      (h.fits w hw ho).whole.bound⟩, (h.fits w hw ho).mode, (h.fits w hw ho).granu⟩
  constructor
  · rw [ht]
    intro hg t' ht'
    subst ht'
    obtain ⟨t₀, ht₀⟩ := Option.isSome_iff_exists.mp (h.table hmode)
    rw [ht₀] at hlen
    exact (Option.some.inj hlen).trans (h.sized hg t₀ ht₀)
  · intro _
    rw [ht]
    have := h.table hmode
    cases t with
    | none => cases hreg : reg.ownership <;> simp_all
    | some t => rfl
  · intro w hw ho
    rw [ht]
    rcases mem_cons.mp hw with rfl | hw
    · obtain ⟨fl, sv, rfl⟩ := hgeo
      have hf := hfits v (mem_cons_self ..) hv
      exact { hf with }
    · exact hfits w (mem_cons_of_mem _ hw) ho
  · rw [ht, total_head (congrArg Bool.toNat howned)]
    exact h.mode
  · rw [ht, total_head (congrArg Bool.toNat howned)]
    exact h.count
  · intro p
    rw [hpage, hif, apply_ite PageState.wCount]
    refine Eq.trans ?_ (count16_total Vma.writer Vma.writer rfl (hcov p) (h.bound p) rfl)
    rw [← h.wCount p, ← hold.1, ← hnew.1]
    rfl
  · intro p
    rw [hpage, hif, apply_ite PageState.rCount]
    refine Eq.trans ?_ (count16_total Vma.reader Vma.reader rfl (hcov p) (h.bound p) rfl)
    rw [← h.rCount p, ← hold.2, ← hnew.2]
    rfl
  · intro p
    rw [total_head (congrArg Bool.toNat (hcov p))]
    exact h.bound p

theorem leave (h : Exact reg (v :: o)) (hv : v.owned)
    (hw : ∀ p, (v.counted p && v.writer) = false) (hr : ∀ p, (v.counted p && v.reader) = false)
    (hfew : total (fun v => v.owned.toNat) (v :: o) ≤ 4294967296) :
    Exact { reg with
      mmapCount := atomicDec reg.mmapCount
      mode := if atomicDec reg.mmapCount = 0 then .init else reg.mode } o := by
  have hcount : atomicDec reg.mmapCount = total (fun v => v.owned.toNat) o := by
    rw [total_cons, hv, Bool.toNat_true] at hfew
    unfold atomicDec
    rw [h.count, total_cons, hv, Bool.toNat_true]
    omega
  have hmode : reg.mode ≠ .init := fun hm => by
    have := h.mode.mp hm
    rw [total_cons, hv, Bool.toNat_true] at this
    omega
  rw [hcount]
  constructor
  · exact h.sized
  · intro hm
    dsimp only at hm ⊢
    split at hm
    · cases hm
    · exact h.table hm
  · intro w hw ho
    have hf := h.fits w (mem_cons_of_mem _ hw) ho
    have hpos : total (fun v => v.owned.toNat) o ≠ 0 := fun h0 => by
      obtain ⟨l₁, l₂, rfl⟩ := append_of_mem hw
      rw [total_append, total_cons, ho, Bool.toNat_true] at h0
      omega
    exact ⟨hf.start, ⟨hf.whole.off, hf.whole.len, hf.whole.bound⟩,
      (if_neg hpos).trans hf.mode, hf.granu⟩
  · dsimp only
    constructor
    · intro hm
      by_contra hne
      rw [if_neg hne] at hm
      exact hmode hm
    · exact fun h0 => if_pos h0
  · rw [total_cons, hv, Bool.toNat_true] at hfew
    have hlt : total (fun v => v.owned.toNat) o < 4294967296 := by omega
    exact (Nat.mod_eq_of_lt hlt).symm
  · intro p
    refine (h.wCount p).trans ?_
    rw [total_cons, hw, Bool.toNat_false, Nat.zero_add]
  · intro p
    refine (h.rCount p).trans ?_
    rw [total_cons, hr, Bool.toNat_false, Nat.zero_add]
  · intro p
    have := h.bound p
    rw [total_cons] at this
    omega

theorem pageState_of_init (h : Exact reg o) (hg : reg.granu = .none) (p : Nat) :
    reg.pageState p = {} := by
  have hnone : ∀ v ∈ o, v.counted p = false := fun v hv => by
    cases ho : v.owned with
    | false => unfold Vma.counted; rw [ho]; rfl
    | true => exact absurd hg (h.fits v hv ho).granu
  have hzero : total (fun v => (v.counted p).toNat) o = 0 := by
    clear h
    induction o with
    | nil => rfl
    | cons v o ih =>
      rw [total_cons, hnone v (mem_cons_self ..), ih fun w hw => hnone w (mem_cons_of_mem _ hw)]
      rfl
  have h1 := h.wCount p
  have h2 := h.rCount p
  have h3 := counted_le Vma.writer p o
  have h4 := counted_le Vma.reader p o
  have hw : (reg.pageState p).wCount = 0 := by omega
  have hr : (reg.pageState p).rCount = 0 := by omega
  rcases hs : reg.pageState p with ⟨r, w⟩
  rw [hs] at hw hr
  exact congrArg₂ PageState.mk hr hw

theorem join {reg' : Reg} (h : Exact reg o) (hv : v.owned)
    (hmem : reg'.memPages = reg.memPages) (hshift : reg'.pmdShift = reg.pmdShift)
    (hmode : reg.mode = .init ∨ reg.mode = reg'.mode)
    (hgranu : reg.granu = .none ∨ reg.granu = reg'.granu) (hsized : reg'.Sized)
    (htable : reg'.mode = .normal → reg'.ownership.isSome) (hfits : v.Fits reg')
    (hcount : reg'.mmapCount = atomicInc reg.mmapCount)
    (hpage : ∀ p, reg'.pageState p = reg.pageState p)
    (hw : ∀ p, (v.counted p && v.writer) = false) (hr : ∀ p, (v.counted p && v.reader) = false)
    (hbound : ∀ p, total (fun v => (v.counted p).toNat) (v :: o) ≤ 65535) :
    Exact reg' (v :: o) := by
  have hmode' : reg'.mode ≠ .init := fun hm => by
    have := hfits.mode
    rw [hm] at this
    split at this <;> cases this
  constructor
  · exact fun _ => hsized
  · exact htable
  · intro w hw ho
    rcases mem_cons.mp hw with rfl | hw
    · exact hfits
    have hf := h.fits w hw ho
    have hgr : reg'.granu = reg.granu := (hgranu.resolve_left hf.granu).symm
    have hunit : reg'.unit = reg.unit := by
      unfold Reg.unit
      rw [hgr, hshift]
    have hm : reg.mode = reg'.mode := hmode.resolve_left fun hi => by
      have := hf.mode
      rw [hi] at this
      split at this <;> cases this
    exact ⟨hunit ▸ hf.start, ⟨hunit ▸ hf.whole.off, hunit ▸ hf.whole.len, hmem ▸ hf.whole.bound⟩,
      hm ▸ hf.mode, hgr ▸ hf.granu⟩
  · refine iff_of_false hmode' ?_
    rw [total_cons, hv, Bool.toNat_true]
    omega
  · rw [hcount, total_cons, hv, Bool.toNat_true, h.count]
    unfold atomicInc
    omega
  · intro p
    rw [hpage, h.wCount, total_cons, hw, Bool.toNat_false, Nat.zero_add]
  · intro p
    rw [hpage, h.rCount, total_cons, hr, Bool.toNat_false, Nat.zero_add]
  · exact hbound

theorem foreign (hv : v.owned = false) : Exact reg (v :: o) ↔ Exact reg o := by
  have hc : ∀ p, v.counted p = false := fun p => by unfold Vma.counted; rw [hv]; rfl
  have ht : ∀ f : Vma → Bool, f v = false → total (fun v => (f v).toNat) (v :: o) =
      total (fun v => (f v).toNat) o := fun f hf => by
    rw [total_cons, hf, Bool.toNat_false, Nat.zero_add]
  have hcw : ∀ (f : Vma → Bool) p, (v.counted p && f v) = false := fun f p => by rw [hc]; rfl
  constructor
  · intro h
    refine ⟨h.sized, h.table, fun w hw => h.fits w (mem_cons_of_mem _ hw), ?_, ?_, fun p => ?_,
      fun p => ?_, fun p => ?_⟩
    · exact (ht (·.owned) hv) ▸ h.mode
    · exact (ht (·.owned) hv) ▸ h.count
    · exact (h.wCount p).trans (ht (fun v => v.counted p && v.writer) (hcw _ p))
    · exact (h.rCount p).trans (ht (fun v => v.counted p && v.reader) (hcw _ p))
    · exact (ht (·.counted p) (hc p)) ▸ h.bound p
  · intro h
    refine ⟨h.sized, h.table, fun w hw ho => ?_, ?_, ?_, fun p => ?_, fun p => ?_, fun p => ?_⟩
    · rcases mem_cons.mp hw with rfl | hw
      · rw [hv] at ho
        cases ho
      · exact h.fits w hw ho
    · exact (ht (·.owned) hv).symm ▸ h.mode
    · exact (ht (·.owned) hv).symm ▸ h.count
    · exact (h.wCount p).trans (ht (fun v => v.counted p && v.writer) (hcw _ p)).symm
    · exact (h.rCount p).trans (ht (fun v => v.counted p && v.reader) (hcw _ p)).symm
    · exact (ht (·.counted p) (hc p)).symm ▸ h.bound p

end Exact

end UbDkms.Obmm
