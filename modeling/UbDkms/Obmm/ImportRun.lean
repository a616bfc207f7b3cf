import UbDkms.Obmm.ImportOwner

/-!
# Imported addresses have one owner

Every step of an import, an unimport or a preimport keeps the tree, the counts and the
bits equal to what the threads hold, as long as the release that undoes a failed
registration succeeds.
-/

namespace UbDkms.Obmm

open Lib ImpRegion List
open Function (update update_self update_of_ne)

namespace Imports

variable {blockSize : Nat} {s : Imports} {i : Nat} {r : ImpRegion}

theorem mem_bitsOf {p : Ppr} {sp : Span} {b : Nat} :
    b ∈ bitsOf blockSize p sp ↔ touches blockSize p sp b := by
  unfold bitsOf
  rw [mem_filter, mem_range]
  refine ⟨fun h => h.2, fun h => ⟨?_, h⟩⟩
  have := (of_decide_eq_true h).2
  omega

/-! ## Taking and giving a preimport range -/

variable {id : Nat}

theorem Inv.entry {p : Ppr} (h : Inv blockSize s) (hp : s.ppr id = some p) :
    (⟨p.span, .preimport (some id)⟩ : PaRange) ∈ s.ranges := by
  have hm : (s.ppr id).map (·.span) = some p.span := by
    rw [hp]
    rfl
  have := h.ready p.span id
  rw [if_pos hm] at this
  exact count_pos_iff.mp (by omega)

section

variable (h : Inv blockSize s) (hi : s.regions[i]? = some r)
include h hi

theorem Inv.getPpr {s' : Imports}
    (hst : r.stage = .setupPa) (hpre : r.preimport) (hg : s.getPpr r.span.lo = some (s', id)) :
    Inv blockSize (s'.goto i r (.commit id)) := by
  unfold Imports.getPpr at hg
  split at hg
  · cases hg
  next k hk =>
  split at hg
  · cases hg
  next p hp =>
  cases hg
  have h0 : r.hold = .nothing := by simp [hold, hst, hpre]
  have h1 : ({ r with stage := .commit id } : ImpRegion).hold = .user id := rfl
  refine h.move { p with useCount := p.useCount + 1 } _ hi hp rfl rfl (by simp [h0]) (by simp [h1])
    ?_ (fun b => ?_) (fun k hk => ?_) (fun hb => ?_) hpre
  · simp [uses, h0, h1]
  · simp [block, h0, h1, bit]
  · simp [h0, h1, Ne.symm hk]
  · rw [h1] at hb
    cases hb

theorem Inv.put {stage : ImpStage}
    (hh : r.hold = .user id) (h1 : ({ r with stage } : ImpRegion).hold = .nothing)
    (ho : ({ r with stage } : ImpRegion).Ok) : Inv blockSize ((s.putPpr id).goto i r stage) := by
  have hm := mem_of_getElem? hi
  obtain ⟨p, hp, -⟩ := h.held r hm id (by simp [uses, hh])
  have hpos : 1 ≤ p.useCount := by
    rw [h.users id p hp]
    obtain ⟨l₁, l₂, hl, -, -⟩ := getElem?_split hi
    rw [hl]
    simp only [total_append, total_cons]
    have : uses id r = 1 := by simp [uses, hh]
    omega
  unfold putPpr
  rw [hp]
  refine h.move { p with useCount := p.useCount - 1 } _ hi hp rfl rfl (by simp [hh]) (by simp [h1])
    ?_ (fun b => ?_) (fun k hk => ?_) (fun hb => ?_) ho
  · have e1 : uses id r = 1 := by simp [uses, hh]
    have e2 : uses id { r with stage } = 0 := by simp [uses, h1]
    rw [e1, e2]
    show p.useCount - 1 + 1 = p.useCount + 0
    omega
  · simp [block, hh, h1, bit]
  · simp [hh, h1, Ne.symm hk]
  · rw [h1] at hb
    cases hb

theorem Inv.commitBlocks
    (hst : r.stage = .commit id) (hpre : r.preimport) : Inv blockSize (s.commitBlocks blockSize i r id) := by
  have hh : r.hold = .user id := by simp [hold, hst]
  have hfail : Inv blockSize (s.goto i r (.putPpr id)) := h.goto hi (by rw [hh]; rfl) hpre
  unfold Imports.commitBlocks
  split
  · exact hfail
  next p hp =>
  split
  · exact hfail
  next p' ho =>
  unfold occupyPprBlocks at ho
  split at ho
  · cases ho
  next hin =>
  split at ho
  · cases ho
  next hany =>
  cases ho
  have h1 : ({ r with handle := id, stage := .setupNuma } : ImpRegion).hold = .blocks id := by
    simp [hold, hpre]
  have hfree : ∀ b, touches blockSize p r.span b → p.bitmap b = false := fun b hb => by
    have := (any_eq_false.mp (by simpa using hany)) b (mem_bitsOf.mpr hb)
    simpa using this
  refine h.move { p with bitmap := fun b => p.bitmap b || touches blockSize p r.span b }
    { r with handle := id, stage := .setupNuma } hi hp rfl rfl
    (by simp [hh]) (by simp [h1]) ?_ (fun b => ?_) (fun k hk => ?_) (fun _ => by omega) trivial
  · simp [uses, hh, h1]
  · have e1 : block blockSize p id b r = 0 := by simp [block, hh]
    rw [e1]
    unfold block bit
    rw [h1]
    rcases Bool.eq_false_or_eq_true (touches blockSize p r.span b) with ht | ht
    · simp [ht, hfree b ht]
    · simp [ht]
  · simp [hh, h1, Ne.symm hk]

theorem Inv.uncommit {next fail : ImpStage}
    (hh : r.hold = .blocks r.handle) (h1 : ({ r with stage := next } : ImpRegion).hold = .user r.handle)
    (ho : ({ r with stage := next } : ImpRegion).Ok) : Inv blockSize (s.uncommit blockSize i r next fail) := by
  have hm := mem_of_getElem? hi
  obtain ⟨p, hp, hin⟩ := h.held r hm r.handle (by simp [uses, hh])
  have hin := hin hh
  have hset : ∀ b, touches blockSize p r.span b → p.bitmap b := fun b hb => by
    have hbit := h.bits r.handle p b hp
    obtain ⟨l₁, l₂, hl, -, -⟩ := getElem?_split hi
    have e1 : block blockSize p r.handle b r = 1 := by simp [block, hh, hb]
    rw [hl] at hbit
    simp only [total_append, total_cons, e1] at hbit
    unfold bit at hbit
    by_contra hf
    rw [if_neg hf] at hbit
    omega
  unfold Imports.uncommit
  rw [hp]
  dsimp only
  have hfree : freePprBlocks blockSize p r.span = some { p with
      bitmap := fun b => p.bitmap b && !touches blockSize p r.span b } := by
    unfold freePprBlocks
    rw [if_neg (by omega), if_pos (all_eq_true.mpr fun b hb => hset b (mem_bitsOf.mp hb))]
  rw [hfree]
  refine h.move _ _ hi hp rfl rfl (by simp [hh]) (by simp [h1]) ?_ (fun b => ?_) (fun k hk => ?_) (fun hb => ?_) ho
  · simp [uses, hh, h1]
  · have e2 : block blockSize p r.handle b { r with stage := next } = 0 := by simp [block, h1]
    rw [e2]
    unfold block bit
    rw [hh]
    rcases Bool.eq_false_or_eq_true (touches blockSize p r.span b) with ht | ht
    · simp [ht, hset b ht]
    · simp [ht]
  · simp [hh, h1, Ne.symm hk]
  · rw [h1] at hb
    cases hb

end

/-! ## Direct imports -/

section

variable (h : Inv blockSize s)
include h

theorem Inv.direct_swap {l olds news : List ImpRegion} {t : List PaRange}
    (hsw : Swap s.regions l olds news) (hd : t.Pairwise fun a b => a.span.Disjoint b.span)
    (hr : ∀ span, t.count ⟨span, .direct⟩ + total (occupies span) olds =
      s.ranges.count ⟨span, .direct⟩ + total (occupies span) news)
    (hp : ∀ span d, t.count ⟨span, .preimport d⟩ = s.ranges.count ⟨span, .preimport d⟩)
    (holds : ∀ r ∈ olds, r.hold = .range ∨ r.hold = .nothing)
    (hnews : ∀ r ∈ news, (r.hold = .range ∨ r.hold = .nothing) ∧ r.Ok) :
    Inv blockSize { s with ranges := t, regions := l } := by
  have hu0 : ∀ id r, r.hold = .range ∨ r.hold = .nothing → uses id r = 0 := fun id r hr => by
    rcases hr with hr | hr <;> simp [uses, hr]
  have hb0 : ∀ p id b r, r.hold = .range ∨ r.hold = .nothing → block blockSize p id b r = 0 :=
    fun p id b r hr => by
      rcases hr with hr | hr <;> simp [block, hr]
  refine ⟨hd, fun span => ?_, fun span => ?_, fun span id => ?_, h.fresh, fun id p hp' => ?_,
    fun id p b hp' => ?_, fun r hr' id hu => ?_, fun r hr' => ?_⟩
  · have h1 := hsw.total (occupies span)
    have h2 := hr span
    have h3 := h.direct span
    show t.count _ = total (occupies span) l
    omega
  · exact (hp span none).trans (h.pending span)
  · exact (hp span (some id)).trans (h.ready span id)
  · have h1 := hsw.total (uses id)
    rw [total_eq_zero.mpr fun r hr => hu0 id r (holds r hr),
      total_eq_zero.mpr fun r hr => hu0 id r (hnews r hr).1] at h1
    exact (h.users id p hp').trans h1.symm
  · have h1 := hsw.total (block blockSize p id b)
    rw [total_eq_zero.mpr fun r hr => hb0 p id b r (holds r hr),
      total_eq_zero.mpr fun r hr => hb0 p id b r (hnews r hr).1] at h1
    exact (h.bits id p b hp').trans h1.symm
  · rcases hsw.mem hr' with hr' | hr'
    · exact h.held r hr' id hu
    · rw [hu0 id r (hnews r hr').1] at hu
      cases hu
  · rcases hsw.mem hr' with hr' | hr'
    · exact h.ok r hr'
    · exact (hnews r hr').2

theorem Inv.range_mem (hi : s.regions[i]? = some r) (hh : r.hold = .range) :
    (⟨r.span, .direct⟩ : PaRange) ∈ s.ranges := by
  have hc := h.direct r.span
  obtain ⟨l₁, l₂, hl, -, -⟩ := getElem?_split hi
  have e1 : occupies r.span r = 1 := by simp [occupies, hh]
  rw [hl] at hc
  simp only [total_append, total_cons, e1] at hc
  exact count_pos_iff.mp (by omega)

theorem Inv.freeAddr (hi : s.regions[i]? = some r) (hh : r.hold = .range) :
    (freePaRange s.ranges r.span).2 ∧
      Inv blockSize (({ s with ranges := (freePaRange s.ranges r.span).1 }).drop i) := by
  obtain ⟨h1, h2, h3⟩ := freePaRange_eq h.disjoint (h.range_mem hi hh)
  refine ⟨h1, h.direct_swap (Swap.eraseIdx hi) h2 (fun span => ?_) (fun span d => ?_)
    (fun q hq => .inl (by rw [mem_singleton.mp hq, hh])) nofun⟩
  · have := h3 ⟨span, .direct⟩
    have e1 : total (occupies span) [r] = if (⟨span, .direct⟩ : PaRange) = ⟨r.span, .direct⟩ then 1 else 0 := by
      simp [total, occupies, hh, eq_comm]
    rw [e1]
    simp only [total_nil]
    omega
  · have := h3 ⟨span, .preimport d⟩
    rw [if_neg (by simp)] at this
    omega

/-! ## The steps -/

theorem Inv.stepRegion (hi : s.regions[i]? = some r) (hu : r.stage ≠ .relFailed true)
    (ok : Bool) : Inv blockSize (s.stepRegion blockSize i r ok) := by
  have hok := h.ok r (mem_of_getElem? hi)
  unfold Imports.stepRegion
  cases hst : r.stage with
  | setupPa =>
    dsimp only
    have hrb : Inv blockSize (s.goto i r .rbAddr) := h.goto hi (by simp [hold, hst]) trivial
    split
    · exact hrb
    split
    · next hpre =>
      split
      · exact hrb
      · next s' id hg => exact h.getPpr hi hst hpre hg
    · next hpre => exact h.goto hi (by simp [hold, hst, hpre]) trivial
  | commit id =>
    have hpre : r.preimport := by simpa [Ok, hst] using hok
    dsimp only
    split
    · exact h.commitBlocks hi hst hpre
    · exact h.goto hi (by simp [hold, hst]) hpre
  | putPpr id | rbPut | relPut b =>
    have hpre : r.preimport := by simpa [Ok, hst] using hok
    exact h.put hi (by simp [hold, hst]) (by simp [hold, hpre]) trivial
  | setupNuma | setupIomem | register | relIomem b | relNuma b | relFlush b | relSetupNuma b =>
    dsimp only
    split <;> exact h.goto hi (by simp [hold, hst]) trivial
  | live | rbNuma | relSetupIomem b => exact h.goto hi (by simp [hold, hst]) trivial
  | rbPa =>
    dsimp only
    split
    · next hpre => exact h.uncommit hi (by simp [hold, hst, hpre]) rfl hpre
    · next hpre => exact h.goto hi (by simp [hold, hst, hpre]) trivial
  | rbAddr =>
    dsimp only
    split
    · next hpre => exact h.drop hi (by simp [hold, hst, hpre])
    · next hpre => exact (h.freeAddr hi (by simp [hold, hst, hpre])).2
  | relPa b =>
    dsimp only
    split
    · next hpre => exact h.uncommit hi (by simp [hold, hst, hpre]) rfl hpre
    · next hpre =>
      split <;> exact h.goto hi (by simp [hold, hst, hpre]) trivial
  | relAddr b =>
    dsimp only
    split
    · next hpre => exact h.drop hi (by simp [hold, hst, hpre])
    next hpre =>
    obtain ⟨h1, h2⟩ := h.freeAddr hi (by simp [hold, hst, hpre])
    rw [if_pos h1]
    exact h2
  | relSetupPa b => simp [Ok, hst] at hok
  | relFailed b =>
    cases b with
    | true => exact absurd hst hu
    | false => exact h.goto hi (by simp [hold, hst]) trivial

theorem Inv.importStart (span : Span) (pre numa ok : Bool) :
    Inv blockSize (s.importStart span pre numa ok) := by
  dsimp only [Imports.importStart]
  split
  · next hpre =>
    refine h.swap (Swap.push _) ?_ ?_ ?_ ?_ ?_
    · simp [total, occupies, hold, hpre]
    · simp [total, uses, hold, hpre]
    · simp [total, block, hold, hpre]
    · intro r hr id hu
      rw [mem_singleton.mp hr] at hu
      simp [uses, hold, hpre] at hu
    · intro r hr
      rw [mem_singleton.mp hr]
      trivial
  next hpre =>
  split
  · exact h
  next l hl =>
  obtain ⟨h1, h2⟩ := occupyPaRange_eq h.disjoint hl
  refine h.direct_swap (Swap.push _) h1 (fun sp => ?_) (fun sp d => ?_) (by simp) fun r hr => ?_
  · rw [h2]
    simp [total, occupies, hold, hpre, eq_comm]
  · rw [h2, if_neg (by simp)]
    rfl
  · rw [mem_singleton.mp hr]
    exact ⟨.inl (by simp [hold, hpre]), trivial⟩

/-! ## Preimport ranges -/

theorem Inv.preimportStart (span : Span) (ok : Bool) :
    Inv blockSize (s.preimportStart span ok) := by
  unfold Imports.preimportStart
  split
  · exact h
  next l hl =>
  obtain ⟨h1, h2⟩ := occupyPaRange_eq h.disjoint hl
  refine ⟨h1, fun sp => ?_, fun sp => ?_, fun sp id => ?_, h.fresh, h.users, h.bits, h.held, h.ok⟩
  · show l.count _ = _
    rw [h2, if_neg (by simp)]
    exact h.direct sp
  · show l.count _ = (s.preCalls ++ [span]).count sp
    rw [h2, h.pending sp, count_append, count_singleton]
    rcases eq_or_ne sp span with he | he
    · simp [he]
    · simp [he, Ne.symm he]
  · show l.count _ = _
    rw [h2, if_neg (by simp)]
    exact h.ready sp id

end

variable {span : Span}

theorem Inv.pending_mem (h : Inv blockSize s) (hi : s.preCalls[i]? = some span) :
    (⟨span, .preimport none⟩ : PaRange) ∈ s.ranges := by
  have hc := h.pending span
  have := count_pos_iff.mpr (mem_of_getElem? hi)
  exact count_pos_iff.mp (by omega)

theorem count_eraseIdx {l : List Span} (hi : l[i]? = some span) (sp : Span) :
    (l.eraseIdx i).count sp + (if sp = span then 1 else 0) = l.count sp := by
  obtain ⟨l₁, l₂, hl, -, he⟩ := getElem?_split hi
  rw [he, hl, count_append, count_append, count_cons]
  by_cases h : sp = span
  · simp [h]
    omega
  · have : (span == sp) = false := beq_eq_false_iff_ne.mpr (Ne.symm h)
    simp [h, this]

theorem Inv.unused (h : Inv blockSize s) (hp : s.ppr id = none) : ∀ r ∈ s.regions, uses id r = 0 :=
  fun r hr => by
    by_contra hne
    have h1 : uses id r = 1 := by
      unfold uses at hne ⊢
      split at hne
      · next hc => exact if_pos hc
      · exact absurd rfl hne
    obtain ⟨p, hp', -⟩ := h.held r hr id h1
    rw [hp] at hp'
    cases hp'

theorem block_le_uses (p : Ppr) (id b : Nat) (r : ImpRegion) : block blockSize p id b r ≤ uses id r := by
  unfold block uses
  split
  · next hc => exact Nat.le_of_eq (if_pos (.inr hc.1)).symm
  · exact Nat.zero_le _

section

variable (h : Inv blockSize s)
include h

theorem Inv.preimportFail (hi : s.preCalls[i]? = some span) :
    Inv blockSize { s with ranges := (freePaRange s.ranges span).1, preCalls := s.preCalls.eraseIdx i } := by
  obtain ⟨-, h2, h3⟩ := freePaRange_eq h.disjoint (h.pending_mem hi)
  refine ⟨h2, fun sp => ?_, fun sp => ?_, fun sp id => ?_, h.fresh, h.users, h.bits, h.held, h.ok⟩
  · have := h3 ⟨sp, .direct⟩
    rw [if_neg (by simp)] at this
    exact this.trans (h.direct sp)
  · have h4 := h3 ⟨sp, .preimport none⟩
    have h5 := count_eraseIdx hi sp
    have h6 := h.pending sp
    have h7 : (if (⟨sp, .preimport none⟩ : PaRange) = ⟨span, .preimport none⟩ then 1 else 0) =
        if sp = span then 1 else 0 := by simp
    show (freePaRange s.ranges span).1.count _ = (s.preCalls.eraseIdx i).count sp
    dsimp only at h4
    omega
  · have := h3 ⟨sp, .preimport (some id)⟩
    rw [if_neg (by simp)] at this
    exact this.trans (h.ready sp id)

theorem Inv.preimportEnd (i : Nat) (ok : Bool) : Inv blockSize (s.preimportEnd i ok) := by
  unfold Imports.preimportEnd
  split
  · exact h
  next span hi =>
  split
  · exact h.preimportFail hi
  have hf := findRange_eq h.disjoint (h.pending_mem hi) ⟨Nat.le_refl _, span.le⟩
  have hperm := eraseRange_perm hf
  have hnew := h.fresh s.nextPpr (Nat.le_refl _)
  have hzero := h.unused hnew
  unfold updatePaRange
  rw [hf]
  have hcount : ∀ e, (eraseRange s.ranges span.lo).count e +
      (if e = (⟨span, .preimport none⟩ : PaRange) then 1 else 0) = s.ranges.count e := fun e => by
    rw [hperm.count_eq, count_cons, beq_comm_if]
  have hppr : ∀ k, update s.ppr s.nextPpr (some { span }) k =
      if k = s.nextPpr then some ({ span } : Ppr) else s.ppr k := fun k => by
    by_cases hk : k = s.nextPpr
    · rw [hk, update_self, if_pos rfl]
    · rw [update_of_ne hk, if_neg hk]
  refine ⟨?_, fun sp => ?_, fun sp => ?_, fun sp id => ?_, fun id hid => ?_, fun id p hp => ?_,
    fun id p b hp => ?_, fun r hr id hu => ?_, h.ok⟩
  · have hd : ((⟨span, .preimport none⟩ : PaRange) :: eraseRange s.ranges span.lo).Pairwise
        fun a b => a.span.Disjoint b.span :=
      (hperm.pairwise_iff (fun {a b} h => h.symm)).mp h.disjoint
    exact pairwise_cons.mpr (pairwise_cons.mp hd)
  · show List.count _ (_ :: _) = _
    have := hcount ⟨sp, .direct⟩
    rw [if_neg (by simp)] at this
    rw [count_cons, beq_comm_if, if_neg (by simp)]
    exact this.trans (h.direct sp)
  · show List.count _ (_ :: _) = (s.preCalls.eraseIdx i).count sp
    have h4 := hcount ⟨sp, .preimport none⟩
    have h5 := count_eraseIdx hi sp
    have h6 := h.pending sp
    have h7 : (if (⟨sp, .preimport none⟩ : PaRange) = ⟨span, .preimport none⟩ then 1 else 0) =
        if sp = span then 1 else 0 := by simp
    rw [count_cons, beq_comm_if, if_neg (by simp)]
    omega
  · show List.count _ (_ :: _) = if (update s.ppr s.nextPpr (some { span }) id).map _ = _ then 1 else 0
    have h4 := hcount ⟨sp, .preimport (some id)⟩
    rw [if_neg (by simp)] at h4
    have h5 := h.ready sp id
    rw [count_cons, beq_comm_if]
    simp only [hppr]
    by_cases hid : id = s.nextPpr
    · rw [if_pos hid]
      rw [hid, hnew, if_neg (by simp)] at h5
      rw [hid] at h4 ⊢
      have h7 : (if (⟨sp, .preimport (some s.nextPpr)⟩ : PaRange) =
          ⟨span, .preimport (some s.nextPpr)⟩ then 1 else 0) = if span = sp then 1 else 0 := by
        simp [eq_comm]
      rw [h7]
      simp only [Option.map_some, Option.some.injEq]
      omega
    · rw [if_neg hid, if_neg (by simp [hid])]
      omega
  · show update s.ppr s.nextPpr (some { span }) id = none
    have hid : s.nextPpr + 1 ≤ id := hid
    rw [hppr, if_neg (by omega)]
    exact h.fresh id (by omega)
  · have hp : update s.ppr s.nextPpr (some { span }) id = some p := hp
    rw [hppr] at hp
    split at hp
    · next hid =>
      cases hp
      rw [hid]
      exact (total_eq_zero.mpr hzero).symm
    · exact h.users id p hp
  · have hp : update s.ppr s.nextPpr (some { span }) id = some p := hp
    rw [hppr] at hp
    split at hp
    · next hid =>
      cases hp
      rw [hid]
      refine (total_eq_zero.mpr fun r hr => ?_).symm
      exact Nat.le_zero.mp (hzero r hr ▸ block_le_uses _ _ _ r)
    · exact h.bits id p b hp
  · obtain ⟨p, hp, hin⟩ := h.held r hr id hu
    refine ⟨p, ?_, hin⟩
    show update s.ppr s.nextPpr (some { span }) id = some p
    rw [hppr, if_neg fun he => ?_]
    · exact hp
    · rw [he, hnew] at hp
      cases hp

theorem Inv.preimportRelease (span : Span) (ok : Bool) :
    Inv blockSize (s.preimportRelease span ok) := by
  unfold Imports.preimportRelease
  split
  · exact h
  next id hid =>
  split
  · exact h
  next p hp =>
  split
  · exact h
  next hc =>
  simp only [not_or, not_not, ne_eq] at hc
  obtain ⟨hsp, huse, -⟩ := hc
  have hmem : (⟨span, .preimport (some id)⟩ : PaRange) ∈ s.ranges := hsp ▸ h.entry hp
  obtain ⟨-, h2, h3⟩ := freePaRange_eq h.disjoint hmem
  have hzero : ∀ r ∈ s.regions, uses id r = 0 := total_eq_zero.mp ((h.users id p hp).symm.trans huse)
  have hppr : ∀ k, update s.ppr id none k = if k = id then none else s.ppr k := fun k => by
    by_cases hk : k = id
    · rw [hk, update_self, if_pos rfl]
    · rw [update_of_ne hk, if_neg hk]
  refine ⟨h2, fun sp => ?_, fun sp => ?_, fun sp k => ?_, fun k hk => ?_, fun k q hq => ?_,
    fun k q b hq => ?_, fun r hr k hu => ?_, h.ok⟩
  · have := h3 ⟨sp, .direct⟩
    rw [if_neg (by simp)] at this
    exact this.trans (h.direct sp)
  · have := h3 ⟨sp, .preimport none⟩
    rw [if_neg (by simp)] at this
    exact this.trans (h.pending sp)
  · show (freePaRange s.ranges span).1.count _ = if (update s.ppr id none k).map _ = _ then 1 else 0
    have h4 := h3 ⟨sp, .preimport (some k)⟩
    have h5 := h.ready sp k
    simp only [hppr]
    by_cases hk : k = id
    · rw [if_pos hk, if_neg (by simp)]
      rw [hk] at h4 h5 ⊢
      rw [hp] at h5
      have h7 : (if (⟨sp, .preimport (some id)⟩ : PaRange) = ⟨span, .preimport (some id)⟩ then 1 else 0) =
          if Option.map (fun x => x.span) (some p) = some sp then 1 else 0 := by
        simp [hsp, eq_comm]
      dsimp only at h4
      omega
    · rw [if_neg hk]
      rw [if_neg (by simp [hk])] at h4
      exact h4.trans h5
  · show update s.ppr id none k = none
    rw [hppr]
    split
    · rfl
    · exact h.fresh k hk
  · have hq : update s.ppr id none k = some q := hq
    rw [hppr] at hq
    split at hq
    · cases hq
    · exact h.users k q hq
  · have hq : update s.ppr id none k = some q := hq
    rw [hppr] at hq
    split at hq
    · cases hq
    · exact h.bits k q b hq
  · obtain ⟨q, hq, hin⟩ := h.held r hr k hu
    refine ⟨q, ?_, hin⟩
    show update s.ppr id none k = some q
    rw [hppr, if_neg fun he => ?_]
    · exact hq
    · rw [he, hzero r hr] at hu
      cases hu

theorem Inv.act {a : Act} (ha : Undone s a) : Inv blockSize (s.act blockSize a) := by
  cases a with
  | importStart span pre numa ok => exact h.importStart span pre numa ok
  | step i ok =>
    unfold Imports.act
    dsimp only
    split
    · exact h
    · next r hr => exact h.stepRegion hr (ha r hr) ok
  | preimportStart span ok => exact h.preimportStart span ok
  | preimportEnd i ok => exact h.preimportEnd i ok
  | preimportRelease span ok => exact h.preimportRelease span ok

end

theorem Inv.init : Inv blockSize Imports.init where
  disjoint := .nil
  direct _ := rfl
  pending _ := rfl
  ready _ _ := rfl
  fresh _ _ := rfl
  users _ _ := nofun
  bits _ _ _ := nofun
  held := nofun
  ok := nofun

/-! ## The results -/

def Holding (r : ImpRegion) : Prop := r.hold = .range ∨ ∃ id, r.hold = .blocks id

theorem live_holding (h : r.stage = .live) : Holding r := by
  unfold Holding hold
  rw [h]
  cases r.preimport
  · exact .inl rfl
  · exact .inr ⟨_, rfl⟩

theorem disjoint_of_blocks (blockSize : Nat) {p : Ppr} {a b : Span} (ha : p.span.lo ≤ a.lo)
    (hb : p.span.lo ≤ b.lo)
    (h : ∀ k, ¬ (touches blockSize p a k ∧ touches blockSize p b k)) : a.Disjoint b := by
  unfold Span.Disjoint
  by_contra hc
  have hal := a.le
  have hbl := b.le
  -- the block of the larger of the two first addresses is touched by both
  have hmono : ∀ x y : Nat, x ≤ y → x / blockSize ≤ y / blockSize := fun x y hxy => Nat.div_le_div_right hxy
  refine h ((max a.lo b.lo - p.span.lo) / blockSize) ⟨decide_eq_true ⟨hmono _ _ ?_, hmono _ _ ?_⟩,
    decide_eq_true ⟨hmono _ _ ?_, hmono _ _ ?_⟩⟩ <;> omega

theorem Inv.disjoint_pair {a b : ImpRegion} (h : Inv blockSize s) (ha : a ∈ s.regions) (hb : b ∈ s.regions)
    (hr : ∀ span, occupies span a + occupies span b ≤ 1)
    (hk : ∀ p id k, s.ppr id = some p → block blockSize p id k a + block blockSize p id k b ≤ 1)
    (hha : Holding a) (hhb : Holding b) : a.span.Disjoint b.span := by
  have hsym : Std.Symm fun a b : PaRange => a.span.Disjoint b.span := ⟨fun a b h => h.symm⟩
  -- the entry of the tree that covers the addresses of a thread
  have hent : ∀ c ∈ s.regions, Holding c → (c.hold = .range ∧ (⟨c.span, .direct⟩ : PaRange) ∈ s.ranges) ∨
      ∃ id p, c.hold = .blocks id ∧ s.ppr id = some p ∧ p.span.lo ≤ c.span.lo ∧ c.span.hi ≤ p.span.hi ∧
        (⟨p.span, .preimport (some id)⟩ : PaRange) ∈ s.ranges := fun c hc hh => by
    rcases hh with hh | ⟨id, hh⟩
    · obtain ⟨j, hj, hcj⟩ := mem_iff_getElem.mp hc
      exact .inl ⟨hh, h.range_mem (List.getElem?_eq_some_iff.mpr ⟨hj, hcj⟩) hh⟩
    · obtain ⟨p, hp, hin⟩ := h.held c hc id (by simp [uses, hh])
      exact .inr ⟨id, p, hh, hp, (hin hh).1, (hin hh).2, h.entry hp⟩
  rcases hent a ha hha with ⟨ea, ma⟩ | ⟨ia, pa, ea, qa, la, ua, ma⟩
  · rcases hent b hb hhb with ⟨eb, mb⟩ | ⟨ib, pb, eb, qb, lb, ub, mb⟩
    · have hne : a.span ≠ b.span := fun he => by
        have := hr a.span
        simp [occupies, ea, eb, he] at this
      exact h.disjoint.forall ma mb (by simp [hne])
    rcases h.disjoint.forall ma mb (by simp) with hd | hd
    · exact .inl (Nat.lt_of_lt_of_le hd lb)
    · exact .inr (Nat.lt_of_le_of_lt ub hd)
  rcases hent b hb hhb with ⟨eb, mb⟩ | ⟨ib, pb, eb, qb, lb, ub, mb⟩
  · rcases h.disjoint.forall ma mb (by simp) with hd | hd
    · exact .inl (Nat.lt_of_le_of_lt ua hd)
    · exact .inr (Nat.lt_of_lt_of_le hd la)
  by_cases hid : ia = ib
  · subst hid
    rw [qa] at qb
    cases qb
    refine disjoint_of_blocks blockSize la lb fun k hk' => ?_
    have := hk pa ia k qa
    simp [block, ea, eb, hk'.1, hk'.2] at this
  rcases h.disjoint.forall ma mb (by simp [hid]) with hd | hd
  · exact .inl (Nat.lt_of_le_of_lt ua (Nat.lt_of_lt_of_le hd lb))
  · exact .inr (Nat.lt_of_le_of_lt ub (Nat.lt_of_lt_of_le hd la))

theorem bit_le_one (p : Ppr) (b : Nat) : bit p b ≤ 1 := by
  unfold bit
  split <;> omega

theorem Inv.pairwise (h : Inv blockSize s) :
    s.regions.Pairwise fun a b => Holding a → Holding b → a.span.Disjoint b.span := by
  have h1 := pairwise_of_total fun span => by
    rw [← h.direct span]
    exact count_le_one h.disjoint _
  have h2 := pairwise_of_total
    (f := fun (q : { q : Nat × Ppr × Nat // s.ppr q.1 = some q.2.1 }) => block blockSize q.1.2.1 q.1.1 q.1.2.2)
    fun q => by
      rw [← h.bits q.1.1 q.1.2.1 q.1.2.2 q.2]
      exact bit_le_one _ _
  refine List.Pairwise.imp_of_mem (fun {a b} ha hb hab => ?_) (h1.and h2)
  exact h.disjoint_pair ha hb hab.1 fun p id k hp => hab.2 ⟨(id, p, k), hp⟩

theorem Inv.determined {s' : Imports} (h : Inv blockSize s) (h' : Inv blockSize s')
    (hr : s'.regions.Perm s.regions) (hc : s'.preCalls.Perm s.preCalls)
    (hp : ∀ id, (s'.ppr id).map (·.span) = (s.ppr id).map (·.span)) :
    s'.ranges.Perm s.ranges ∧ ∀ id, s'.ppr id = s.ppr id := by
  have htot : ∀ f : ImpRegion → Nat, total f s'.regions = total f s.regions := fun f => (hr.map f).sum_eq
  refine ⟨perm_iff_count.mpr fun e => ?_, fun id => ?_⟩
  · obtain ⟨span, user⟩ := e
    cases user with
    | direct => rw [h.direct, h'.direct, htot]
    | preimport d =>
      cases d with
      | none => rw [h.pending, h'.pending, hc.count_eq]
      | some id =>
        rw [h.ready, h'.ready]
        simp only [hp]
  cases he : s.ppr id with
  | none =>
    have := hp id
    rw [he] at this
    exact Option.map_eq_none_iff.mp this
  | some p =>
    have hm := hp id
    rw [he] at hm
    obtain ⟨p', hp', hs⟩ := Option.map_eq_some_iff.mp hm
    rw [hp']
    have hu := (h'.users id p' hp').trans ((htot _).trans (h.users id p he).symm)
    have hbits : p'.bitmap = p.bitmap := by
      funext b
      have hfun : block blockSize p' id b = block blockSize p id b := by
        funext r
        unfold block touches
        rw [hs]
      have hb := h'.bits id p' b hp'
      rw [hfun, htot, ← h.bits id p b he] at hb
      unfold bit at hb
      cases e1 : p'.bitmap b <;> cases e2 : p.bitmap b <;> simp [e1, e2] at hb <;> rfl
    obtain ⟨_, _, _⟩ := p'
    dsimp only at hs hu hbits
    rw [hs, hu, hbits]

theorem total_uses_live (l : List ImpRegion) (hl : ∀ r ∈ l, r.stage = .live) :
    total (uses id) l = l.countP fun r => r.preimport && r.handle == id := by
  induction l with
  | nil => rfl
  | cons r l ih =>
    have hr := hl r mem_cons_self
    rw [total_cons, countP_cons, ih fun q hq => hl q (mem_cons_of_mem _ hq), Nat.add_comm]
    congr 1
    unfold uses hold
    rw [hr]
    cases r.preimport <;> simp

/-- In every run in which the release that undoes a failed registration succeeds: live
regions have disjoint addresses, a direct import overlaps no preimport range, counts and
bits of a preimport range are those of the regions in it, it stays while it is used, and
calls that leave the regions as they were leave everything they occupy as it was. -/
theorem one_owner (hs : Reach Undone (Imports.act blockSize) Imports.init s) :
    (s.regions.Pairwise fun a b => Holding a → Holding b → a.span.Disjoint b.span) ∧
    (∀ r ∈ s.regions, r.stage = .live → Holding r) ∧
    (∀ r ∈ s.regions, r.hold = .range → ∀ e ∈ s.ranges, e.user ≠ .direct → e.span.Disjoint r.span) ∧
    (∀ id p, s.ppr id = some p → p.useCount = total (uses id) s.regions ∧
      ((∀ r ∈ s.regions, r.stage = .live) →
        p.useCount = s.regions.countP fun r => r.preimport && r.handle == id) ∧
      ∀ b, p.bitmap b = true ↔ ∃ r ∈ s.regions, r.hold = .blocks id ∧ touches blockSize p r.span b = true) ∧
    (∀ r ∈ s.regions, ∀ id, r.hold = .user id ∨ r.hold = .blocks id →
      ∃ p, s.ppr id = some p ∧ (⟨p.span, .preimport (some id)⟩ : PaRange) ∈ s.ranges) ∧
    ∀ s', Reach Undone (Imports.act blockSize) s s' → s'.regions.Perm s.regions →
      s'.preCalls.Perm s.preCalls → (∀ id, (s'.ppr id).map (·.span) = (s.ppr id).map (·.span)) →
      s'.ranges.Perm s.ranges ∧ ∀ id, s'.ppr id = s.ppr id := by
  have h := hs.invariant Inv.init fun s a h ha => h.act ha
  refine ⟨h.pairwise, fun r _ hr => live_holding hr, fun r hr hh e he hu => ?_, fun id p hp => ⟨h.users id p hp,
    fun hl => (h.users id p hp).trans (total_uses_live _ hl), fun b => ?_⟩, fun r hr id hh => ?_,
    fun s' hs' hr hc hp => ?_⟩
  · have hsym : Std.Symm fun a b : PaRange => a.span.Disjoint b.span := ⟨fun a b h => h.symm⟩
    obtain ⟨j, hj, hcj⟩ := mem_iff_getElem.mp hr
    have hm := h.range_mem (List.getElem?_eq_some_iff.mpr ⟨hj, hcj⟩) hh
    exact h.disjoint.forall he hm fun heq => hu (by rw [heq])
  · have hb := h.bits id p b hp
    unfold bit at hb
    constructor
    · intro hbit
      rw [if_pos hbit] at hb
      by_contra hno
      have hz : total (block blockSize p id b) s.regions = 0 := total_eq_zero.mpr fun r hr => by
        unfold block
        rw [if_neg fun hc => hno ⟨r, hr, hc⟩]
      omega
    · rintro ⟨r, hr, hc⟩
      have hle := le_total (f := block blockSize p id b) hr
      have h1 : block blockSize p id b r = 1 := if_pos hc
      by_contra hno
      rw [if_neg hno] at hb
      omega
  · obtain ⟨p, hp, -⟩ := h.held r hr id (by simp [uses, hh])
    exact ⟨p, hp, h.entry hp⟩
  · exact h.determined (hs'.invariant h fun s a h ha => h.act ha) hr hc hp

/-- One memory block, of 128M, is preimported, and imported up to the registration. -/
def imported : List Act :=
  [.preimportStart ⟨2 ^ 27, 2 ^ 28 - 1, by decide⟩ true, .preimportEnd 0 true,
    .importStart ⟨2 ^ 27, 2 ^ 28 - 1, by decide⟩ true true true, .step 0 true, .step 0 true, .step 0 true,
    .step 0 true]

def oneLive : List Act := imported ++ [.step 0 true]

theorem oneLive_along : Reach.Along Undone (Imports.act (2 ^ 27)) Imports.init oneLive := by
  refine ⟨trivial, trivial, trivial, fun r hr => ?_, fun r hr => ?_, fun r hr => ?_, fun r hr => ?_,
    fun r hr => ?_, trivial⟩ <;> cases hr <;> decide

theorem one_owner_oneLive :
    ((oneLive.foldl (Imports.act (2 ^ 27)) Imports.init).ppr 0).map (·.useCount) = some 1 ∧
    (oneLive.foldl (Imports.act (2 ^ 27)) Imports.init).regions.Pairwise
      fun a b => Holding a → Holding b → a.span.Disjoint b.span :=
  ⟨by decide +kernel, (one_owner (Reach.init.along oneLive_along)).1⟩

def unregistered : List Act := imported ++ [.step 0 false, .step 0 false, .step 0 true]

/-- It is gone and its preimport range still has a user. -/
theorem failed_import_leaks : ∃ s, Reach (fun _ _ => True) (Imports.act (2 ^ 27)) Imports.init s ∧
    s.regions = [] ∧ (s.ppr 0).map (·.useCount) = some 1 ∧ (s.ppr 0).map (·.bitmap 0) = some true :=
  ⟨unregistered.foldl (Imports.act (2 ^ 27)) Imports.init, .foldl _, by decide +kernel, by decide +kernel,
    by decide +kernel⟩

end Imports

end UbDkms.Obmm
