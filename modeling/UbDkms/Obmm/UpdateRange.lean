import UbDkms.Obmm.Counters

/-!
# Ownership updates

`obmm_shm_update_range` changes the counters VMA by VMA; when it fails the rollback
finds the VMAs it had changed and no other. With this every operation keeps the
counters exact.
-/

namespace UbDkms.Obmm

open Lib List
open scoped List

theorem setFlags_writer (v : Vma) (f : VmFlags) : (Reg.setFlags v f).writer = f.write :=
  accessIsWriter_vmFlagsToAccess _

theorem setFlags_reader (v : Vma) (f : VmFlags) :
    (Reg.setFlags v f).reader = (f.read || f.write) :=
  accessIsReader_vmFlagsToAccess _

structure Modified (u : UpdateRange) (v : Vma) : Prop where
  owned : v.owned = true
  osync : v.osync = false
  writer : accessIsWriter u.access = v.writer
  reader : accessIsReader u.access = v.reader

/-- From address `c` to address `e` the list consists of modified VMAs, end to start. -/
inductive Trail (u : UpdateRange) : Nat → Nat → List Vma → Prop where
  | stop (c : Nat) (l : List Vma) : Trail u c c l
  | skip {c e : Nat} {v : Vma} {l : List Vma} : v.stop ≤ c → Trail u c e l → Trail u c e (v :: l)
  | turn {c e : Nat} {v : Vma} {l : List Vma} : v.start ≤ c → c < v.stop → Modified u v →
      Trail u v.stop e l → Trail u c e (v :: l)

theorem Trail.low {u : UpdateRange} {c e : Nat} {l : List Vma} (h : Trail u c e l) :
    ∀ {low : List Vma}, (∀ v ∈ low, v.stop ≤ c) → Trail u c e (low ++ l)
  | [], _ => h
  | v :: _, hl => .skip (hl v (mem_cons_self ..))
      (h.low fun w hw => hl w (mem_cons_of_mem _ hw))

section Turns

variable {reg : Reg} {o l low : List Vma} {v : Vma} {u : UpdateRange} {f : Faults} {k c : Nat}

theorem Exact.modifyVma (h : Exact reg (v :: o)) (hv : v.owned) (hs : v.osync = false)
    (b b' : Bool) (st : Nat → Bool) :
    Exact (reg.modifyVma u v b b' st).1 ((reg.modifyVma u v b b' st).2.1 :: o) ∧
      Modified u (reg.modifyVma u v b b' st).2.1 ∧
      (reg.modifyVma u v b b' st).2.1.start = v.start ∧ (reg.modifyVma u v b b' st).2.1.stop = v.stop := by
  have hm : Modified u (Reg.setFlags { v with saved := v.flags } (accessToVmFlags u.access)) := by
    refine ⟨hv, hs, ?_, ?_⟩
    · exact (accessToVmFlags_write u.access).symm.trans (setFlags_writer ..).symm
    · exact (accessToVmFlags_read u.access).symm.trans (setFlags_reader ..).symm
  have hch := h.change (Reg.setFlags { v with saved := v.flags } (accessToVmFlags u.access))
    (vmFlagsToAccess v.flags) u.access hv hs ⟨_, _, rfl⟩ ⟨rfl, rfl⟩ ⟨hm.writer, hm.reader⟩
  dsimp only [Reg.modifyVma]
  generalize hr : (if Reg.flushOp _ u _ ≠ CacheOps.none then Reg.flushRange _ _ _ _ _ b
    else (_, true)) = r
  have hfl : Exact r.1 (Reg.setFlags { v with saved := v.flags } (accessToVmFlags u.access) :: o) := by
    rw [← hr]
    split
    · exact hch.flush ..
    · exact hch
  split
  · exact ⟨hfl, hm, rfl, rfl⟩
  split <;> exact ⟨(hfl.store ..).soil .., hm, rfl, rfl⟩

structure Turned (u : UpdateRange) (c : Nat) (o : List Vma) (t : Turn) : Prop where
  exact : Exact t.reg (t.low ++ t.vma :: (t.high ++ o))
  low : ∀ w ∈ t.low, w.stop ≤ c
  high : t.high = [] ∨ u.stop ≤ t.vma.stop
  modified : t.modified = true → t.vma.start ≤ c ∧ c < t.vma.stop ∧ Modified u t.vma
  ret : t.ret = 0 → t.modified = true

theorem Exact.osync_false (h : Exact reg (v :: o)) (hv : v.owned) (hm : reg.mode ≠ .osync) :
    v.osync = false := by
  cases hos : v.osync with
  | false => rfl
  | true => exact absurd ((h.fits v (mem_cons_self ..) hv).mode.trans (if_pos hos)) hm

theorem Turned.updateFrom (low : List Vma) (h : Exact reg (v :: (low ++ o))) (hv : v.owned)
    (hs : v.osync = false) (hlow : ∀ w ∈ low, w.stop ≤ c) (h1 : v.start = c) (h2 : c < v.stop)
    (h3 : c < u.stop) : Turned u c o (reg.updateFrom u f k low v) := by
  unfold Reg.updateFrom
  split
  · next hstop =>
    split
    · exact ⟨h.perm perm_middle.symm, hlow, .inl rfl, nofun, nofun⟩
    next reg' v' high hsp =>
    have hsplit := h.splitVma hsp (by omega) hstop
    obtain ⟨-, -, rfl, -⟩ := splitVma_some hsp
    have hm := hsplit.modifyVma (u := u) hv hs (f.flush k) (f.walk k) (f.stores k)
    refine ⟨hm.1.perm ?_, hlow, .inr hm.2.2.2.ge, fun _ => ⟨?_, ?_, hm.2.1⟩, fun _ => rfl⟩
    · exact (perm_middle.trans (perm_middle.cons _)).symm
    · exact hm.2.2.1.le.trans h1.le
    · exact h3.trans_eq hm.2.2.2.symm
  · have hm := h.modifyVma (u := u) hv hs (f.flush k) (f.walk k) (f.stores k)
    refine ⟨hm.1.perm perm_middle.symm, hlow, .inl rfl, fun _ => ⟨?_, ?_, hm.2.1⟩, fun _ => rfl⟩
    · exact hm.2.2.1.le.trans h1.le
    · exact h2.trans_eq hm.2.2.2.symm

theorem Turned.updateVma (h : Exact reg (v :: o)) (hm : reg.mode ≠ .osync) (h2 : c < v.stop)
    (h3 : c < u.stop) : Turned u c o (reg.updateVma u f k c v) := by
  unfold Reg.updateVma
  split
  · exact ⟨h, nofun, .inl rfl, nofun, nofun⟩
  next hgap =>
  split
  · exact ⟨h, nofun, .inl rfl, nofun, nofun⟩
  next hown =>
  have hv : v.owned := by simpa using hown
  have hs : v.osync = false := h.osync_false hv hm
  split
  · next hlt =>
    split
    · exact ⟨h, nofun, .inl rfl, nofun, nofun⟩
    next reg' low v' hsp =>
    have hsplit := h.splitVma hsp hlt h2
    obtain ⟨-, -, rfl, rfl⟩ := splitVma_some hsp
    refine Turned.updateFrom _ (hsplit.perm (List.Perm.swap ..)) hv hs ?_ rfl h2 h3
    intro w hw
    obtain rfl := mem_singleton.mp hw
    exact le_rfl
  · next hge =>
    exact Turned.updateFrom [] h hv hs nofun (by omega) h2 h3

theorem Turned.place {t : Turn} (ht : Turned u c (o ++ l) t) :
    Exact t.reg (o ++ (t.low ++ t.vma :: (t.high ++ l))) := by
  have h1 : t.low ++ t.vma :: (t.high ++ (o ++ l)) = (t.low ++ t.vma :: t.high) ++ (o ++ l) := by
    simp
  have h2 : o ++ (t.low ++ t.vma :: (t.high ++ l)) = o ++ ((t.low ++ t.vma :: t.high) ++ l) := by
    simp
  rw [h2, ← append_assoc]
  refine ht.exact.perm ?_
  rw [h1, ← append_assoc]
  exact perm_append_comm.append_right _

theorem Turned.goes_on {t : Turn} (ht : Turned u c (o ++ l) t) (hret : t.ret = 0) :
    t.reg.mode ≠ .osync ∧ Exact t.reg ((o ++ (t.low ++ t.vma :: t.high)) ++ l) := by
  obtain ⟨-, -, h3⟩ := ht.modified (ht.ret hret)
  refine ⟨?_, by simpa using ht.place⟩
  rw [(ht.exact.fits t.vma (by simp) h3.owned).mode, h3.osync]
  exact nofun

/-- The traversal keeps the counters exact and leaves a trail of modified VMAs. -/
theorem Exact.updateVmas (h : Exact reg (o ++ l)) (hm : reg.mode ≠ .osync) :
    Exact (Reg.updateVmas u f k reg c c l).reg (o ++ (Reg.updateVmas u f k reg c c l).vmas) ∧
      Trail u c (Reg.updateVmas u f k reg c c l).modifiedEnd (Reg.updateVmas u f k reg c c l).vmas := by
  induction l generalizing k reg c o with
  | nil => exact ⟨h, .stop ..⟩
  | cons v l ih =>
    unfold Reg.updateVmas
    split
    · exact ⟨h, .stop ..⟩
    next hc =>
    split
    · next hskip =>
      have hi := ih (o := o ++ [v]) (k := k + 1) (c := c) (by simpa using h) hm
      refine ⟨?_, .skip hskip hi.2⟩
      have := hi.1
      rwa [append_assoc] at this
    next hstop =>
    split
    · exact ⟨h, .stop ..⟩
    have ht := Turned.updateVma (u := u) (f := f) (k := k) (h.perm perm_middle) hm
      (not_le.mp hstop) (not_le.mp hc)
    generalize reg.updateVma u f k c v = t at ht ⊢
    dsimp only
    split
    · refine ⟨ht.place, Trail.low ?_ ht.low⟩
      split
      · next hmod =>
        obtain ⟨h1, h2, h3⟩ := ht.modified hmod
        exact .turn h1 h2 h3 (.stop ..)
      · exact .stop ..
    next hret =>
    have hmod := ht.ret (not_not.mp hret)
    obtain ⟨h1, h2, h3⟩ := ht.modified hmod
    rw [if_pos hmod]
    obtain ⟨hmode, hex⟩ := ht.goes_on (not_not.mp hret)
    have hi := ih (k := k + 1) (c := t.vma.stop) hex hmode
    refine ⟨?_, Trail.low (.turn h1 h2 h3 ?_) ht.low⟩
    · have := hi.1
      simpa using this
    rcases ht.high with hh | hh
    · rw [hh]
      exact hi.2
    have hend : Reg.updateVmas u f (k + 1) t.reg t.vma.stop t.vma.stop l =
        { reg := t.reg, vmas := l, cursor := t.vma.stop, modifiedEnd := t.vma.stop } := by
      cases l with
      | nil => rfl
      | cons w l => unfold Reg.updateVmas; exact if_pos hh
    rw [hend]
    exact .stop ..

theorem Exact.restoreVma (h : Exact reg (v :: o)) (hm : Modified u v) :
    Exact (reg.restoreVma u v).1 ((reg.restoreVma u v).2 :: o) := by
  refine (h.change (Reg.setFlags v v.saved) u.access (vmFlagsToAccess v.saved) hm.owned hm.osync
    ⟨_, _, rfl⟩ ⟨hm.writer, hm.reader⟩ ⟨?_, ?_⟩).soil ..
  · exact (accessIsWriter_vmFlagsToAccess _).trans (setFlags_writer ..).symm
  · exact (accessIsReader_vmFlagsToAccess _).trans (setFlags_reader ..).symm

theorem Exact.rollback {e : Nat} (h : Exact reg (o ++ l)) (ht : Trail u c e l) :
    Exact (Reg.rollback u e reg c l).1 (o ++ (Reg.rollback u e reg c l).2) := by
  induction ht generalizing reg o with
  | stop c l =>
    cases l with
    | nil => exact h
    | cons v l => unfold Reg.rollback; rw [if_pos le_rfl]; exact h
  | @skip c e v l hskip _ ih =>
    unfold Reg.rollback
    split
    · exact h
    · have := ih (o := o ++ [v]) (by simpa using h)
      rwa [append_assoc] at this
  | @turn c e v l h1 h2 h3 _ ih =>
    unfold Reg.rollback
    split
    · exact h
    rw [if_neg (not_le.mpr h2), if_neg (not_lt.mpr h1)]
    have := ih (o := o ++ [(reg.restoreVma u v).2])
      (((h.perm perm_middle).restoreVma h3).perm (perm_middle.symm.trans (.of_eq (by simp))))
    rwa [append_assoc] at this

theorem Exact.updateRange (h : Exact reg (o ++ l)) (hm : reg.mode ≠ .osync) (file : ShmFile) :
    Exact (reg.updateRange file u f l).1 (o ++ (reg.updateRange file u f l).2.1) := by
  unfold Reg.updateRange
  split
  · exact h
  have hw := h.updateVmas (u := u) (f := f) (k := 0) (c := u.start) hm
  dsimp only
  split
  · exact hw.1
  · exact hw.1.rollback hw.2

end Turns

namespace Mapping

/-- The step neither unmaps nor updates an `O_SYNC` mapping while the ownership table
exists, maps at the granularity of the table, and leaves every number of mappings
within its counter. -/
def Countable (s : Mapping) (a : MapAct) : Prop :=
  (∀ p, (s.act a).coverers p < 65536) ∧ (s.act a).live < 4294967296 ∧
    match a with
    | .mmap _ a => ∀ t, s.reg.ownership = some t →
        t.length = s.reg.memPages / unitOf s.reg.pmdShift a.granu
    | .unmap n i _ => ∀ l v, s.spaces[n]? = some l → l[i]? = some v → v.owned = true →
        v.osync = true → s.reg.ownership = none
    | .update _ _ _ _ => s.reg.mode ≠ .osync
    | _ => True

structure Counted (s : Mapping) : Prop where
  exact : Exact s.reg s.spaces.flatten
  few : s.live < 4294967296

section Run

variable {s : Mapping} {n : Nat} {l : List Vma}

theorem flatten_space {spaces : List (List Vma)} (h : spaces[n]? = some l) :
    ∃ o, spaces.flatten ~ o ++ l ∧ ∀ l', (spaces.set n l').flatten ~ o ++ l' := by
  obtain ⟨l₁, l₂, hl, hset, -⟩ := getElem?_split h
  have hp : ∀ l', (l₁ ++ l' :: l₂).flatten ~ (l₁.flatten ++ l₂.flatten) ++ l' := fun l' => by
    rw [flatten_append, flatten_cons, append_assoc]
    exact perm_append_comm.append_left _
  exact ⟨_, hl ▸ hp l, fun l' => hset l' ▸ hp l'⟩

theorem insertVma_perm (v : Vma) (l : List Vma) : insertVma v l ~ v :: l := by
  refine perm_middle.trans ?_
  rw [takeWhile_append_dropWhile]

section

variable (h : Exact s.reg s.spaces.flatten) (a : MmapArgs)
  (hsame : ∀ t, s.reg.ownership = some t → t.length = s.reg.memPages / unitOf s.reg.pmdShift a.granu)
  (hb : ∀ p, (s.mmap n a).coverers p < 65536)
include h a hsame hb

theorem exact_fopsMmap (hl : s.spaces[n]? = some l)
    (hfree : free a.vma l) :
    ((s.reg.fopsMmap a).2 = 0 → Exact (s.reg.fopsMmap a).1 (a.vma :: s.spaces.flatten) ∧
      (s.spaces.set n (insertVma a.vma l)).flatten ~ a.vma :: s.spaces.flatten) ∧
    ((s.reg.fopsMmap a).2 ≠ 0 → Exact (s.reg.fopsMmap a).1 s.spaces.flatten) := by
  obtain ⟨o, ho, hset⟩ := flatten_space hl
  have hm := h.fopsMmap hsame
  have hp : (s.spaces.set n (insertVma a.vma l)).flatten ~ a.vma :: s.spaces.flatten :=
    ((hset _).trans ((insertVma_perm _ _).append_left o)).trans
      (perm_middle.trans (ho.symm.cons _))
  refine ⟨fun h0 => ⟨?_, hp⟩, fun h0 => ?_⟩
  · rw [if_pos h0] at hm
    refine hm fun p => ?_
    have hbp := hb p
    unfold mmap at hbp
    rw [hl] at hbp
    dsimp only at hbp
    rw [if_pos hfree, if_pos h0] at hbp
    rw [← Exact.total_perm hp]
    exact Nat.le_of_lt_succ hbp
  · rwa [if_neg h0] at hm

theorem exact_mmap :
    Exact (s.mmap n a).reg (s.mmap n a).spaces.flatten := by
  unfold mmap
  split
  · exact h
  next l hl =>
  split
  swap
  · exact h
  next hfree =>
  obtain ⟨hok, hfail⟩ := exact_fopsMmap h a hsame hb hl hfree
  dsimp only
  split
  · next h0 => exact (hok h0).1.perm (hok h0).2.symm
  · next h0 => exact hfail h0

end

section

variable (h : Exact s.reg s.spaces.flatten)
include h

theorem exact_split (i addr : Nat) (fails : Bool) :
    Exact (s.split n i addr fails).reg (s.split n i addr fails).spaces.flatten := by
  unfold split
  split
  · exact h
  next l hl =>
  split
  · exact h
  next v hv =>
  split
  swap
  · exact h
  next hin =>
  split
  · exact h
  next reg low high hsp =>
  obtain ⟨o, ho, hset⟩ := flatten_space hl
  obtain ⟨l₁, l₂, hll, -, herase⟩ := getElem?_split hv
  have htake : l.take i ++ low :: high :: l.drop (i + 1) ~ low :: high :: (l₁ ++ l₂) := by
    rw [← herase, eraseIdx_eq_take_drop_succ]
    exact perm_middle.trans (perm_middle.cons _)
  have hv' : s.spaces.flatten ~ v :: (o ++ (l₁ ++ l₂)) := by
    refine ho.trans ?_
    rw [hll]
    exact (perm_middle.append_left o).trans perm_middle
  refine ((h.perm hv').splitVma hsp hin.1 hin.2).perm ?_
  refine ((hset _).trans ((htake.append_left o).trans ?_)).symm
  exact perm_middle.trans (perm_middle.cons _)

theorem exact_unmap (hfew : s.live < 4294967296) (i : Nat)
    (fails : Bool) (hos : ∀ l v, s.spaces[n]? = some l → l[i]? = some v → v.owned →
      v.osync → s.reg.ownership = none) :
    Exact (s.unmap n i fails).reg (s.unmap n i fails).spaces.flatten := by
  unfold unmap
  split
  · exact h
  next l hl =>
  split
  · exact h
  next v hv =>
  obtain ⟨o, ho, hset⟩ := flatten_space hl
  obtain ⟨l₁, l₂, hll, -, herase⟩ := getElem?_split hv
  have hv' : s.spaces.flatten ~ v :: (o ++ l.eraseIdx i) := by
    refine ho.trans ?_
    rw [herase, hll]
    exact (perm_middle.append_left o).trans perm_middle
  have hex := h.perm hv'
  refine Exact.perm ?_ (hset _).symm
  split
  · next hown =>
    refine hex.vmaClose hown (hos l v hl hv hown) ?_ fails
    rw [← Exact.total_perm hv']
    exact hfew.le
  · next hown => exact (Exact.foreign (Bool.eq_false_iff.mpr hown)).mp hex

theorem exact_update (hm : s.reg.mode ≠ .osync)
    (file : ShmFile) (u : UpdateRange) (f : Faults) :
    Exact (s.update n file u f).reg (s.update n file u f).spaces.flatten := by
  unfold update
  split
  · exact h
  next l hl =>
  obtain ⟨o, ho, hset⟩ := flatten_space hl
  exact ((h.perm ho).updateRange hm file).perm (hset _).symm

theorem exact_other (start stop : Nat) :
    Exact (s.other n start stop).reg (s.other n start stop).spaces.flatten := by
  unfold other
  split
  · exact h
  next l hl =>
  obtain ⟨o, ho, hset⟩ := flatten_space hl
  dsimp only
  split
  · refine Exact.perm ((Exact.foreign (v := { start := start, stop := stop, owned := false })
      rfl).mpr (h.perm ho)) ?_
    exact (((hset _).trans ((insertVma_perm _ _).append_left o)).trans perm_middle).symm
  · exact h

end

theorem Counted.act {a : MapAct} (h : s.Counted) (ha : s.Countable a) : (s.act a).Counted := by
  obtain ⟨hb, hl, hk⟩ := ha
  have hbeg : Exact s.begin.reg s.begin.spaces.flatten := h.exact.ghost _ _
  refine ⟨?_, hl⟩
  cases a with
  | spawn =>
    refine hbeg.perm (List.Perm.of_eq ?_)
    exact ((flatten_append ..).trans (append_nil _)).symm
  | mmap n a => exact exact_mmap hbeg a hk hb
  | other n start stop => exact exact_other hbeg start stop
  | split n i addr fails => exact exact_split hbeg i addr fails
  | unmap n i fails => exact exact_unmap hbeg h.few i fails hk
  | update n file u f => exact exact_update hbeg hk file u f

theorem Counted.init (memPages pmdShift : Nat) : (init memPages pmdShift).Counted where
  exact := by
    refine ⟨nofun, nofun, nofun, iff_of_true rfl rfl, rfl, fun p => rfl, fun p => rfl, fun p => ?_⟩
    exact Nat.zero_le _
  few := by
    have : (Mapping.init memPages pmdShift).live = 0 := rfl
    omega

/-- In every run that never unmaps or updates an `O_SYNC` mapping while the ownership
table exists, never maps at another granularity than the table has and keeps the
numbers of mappings within the counters, all counters are exact. -/
theorem counters_exact {memPages pmdShift : Nat}
    (hs : Reach Countable act (Mapping.init memPages pmdShift) s) :
    (∀ p, (s.reg.pageState p).wCount = s.writers p ∧ (s.reg.pageState p).rCount = s.readers p) ∧
      s.reg.mmapCount = s.live ∧ (s.reg.mode = .init ↔ s.live = 0) := by
  have h := hs.invariant (Counted.init memPages pmdShift) fun s a hs ha => hs.act ha
  exact ⟨fun p => ⟨h.exact.wCount p, h.exact.rCount p⟩,
    h.exact.count.trans (Nat.mod_eq_of_lt h.few), h.exact.mode⟩

/-- One page of a region mapped for writing. -/
def onePage : Mapping :=
  [.spawn, .mmap 0 { start := 0, stop := 1, flags := { read := true, write := true } }].foldl
    act (Mapping.init 512 9)

theorem counters_exact_mapped :
    Reach Countable act (Mapping.init 512 9) onePage ∧ (onePage.reg.pageState 0).wCount = 1 := by
  have hs : Reach Countable act (Mapping.init 512 9) onePage := by
    refine Reach.init.along ⟨⟨fun p => ?_, by decide +kernel, trivial⟩,
      ⟨fun p => ?_, by decide +kernel, nofun⟩, trivial⟩
    · exact Nat.zero_lt_succ _
    · have h : (Vma.counted { start := 0, stop := 1, flags := { read := true, write := true } } p).toNat
          + 0 ≤ 1 := Bool.toNat_le _
      exact Nat.lt_of_le_of_lt h (by decide)
  exact ⟨hs, ((counters_exact hs).1 0).1.trans (by decide +kernel)⟩

/-- A page mapped and unmapped, then mapped and unmapped with `O_SYNC`: its counters
are below zero. -/
theorem osync_close_wraps : ∃ s, Reach (fun _ _ => True) act (Mapping.init 512 9) s ∧
    (s.reg.pageState 0).wCount = 65535 ∧ s.writers 0 = 0 :=
  ⟨[.spawn, .mmap 0 { start := 0, stop := 1, flags := { read := true, write := true } },
      .unmap 0 0 false,
      .mmap 0 { file := { osync := true }, start := 0, stop := 1, flags := { write := true } },
      .unmap 0 0 false].foldl act (Mapping.init 512 9),
    .foldl _, by decide +kernel, by decide +kernel⟩

end Run

end Mapping

end UbDkms.Obmm
