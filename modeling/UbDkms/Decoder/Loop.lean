import UbDkms.Decoder.Range

/-!
# Whole map and unmap calls

One iteration of `handle_table` advances a map call by one page or by a range,
and so does the unmap; the loop covers the call's pages.
-/

namespace UbDkms.Decoder

open Lib

def taken (own : Nat → Option MapInfo) (c : DecoderCfg) (m : MapInfo) (n Q : Nat) : Option MapInfo :=
  if m.first c ≤ Q ∧ Q < m.first c + n then some m else own Q

def given (own : Nat → Option MapInfo) (c : DecoderCfg) (m : MapInfo) (n Q : Nat) : Option MapInfo :=
  if m.first c ≤ Q ∧ Q < m.first c + n then none else own Q

variable {d d' : UbDecoder} {own : Nat → Option MapInfo} {m info : MapInfo} {n : Nat}

theorem size_eq {c : DecoderCfg} (h : Placed c m) : m.size.toNat = m.pages * sz1M :=
  (Nat.div_mul_cancel (Nat.dvd_of_mod_eq_zero h.sized)).symm

section Map

def Advanced (d : UbDecoder) (own : Nat → Option MapInfo) (m : MapInfo) (n : Nat)
    (r : Nat × UbDecoder) : Prop :=
  ∃ n', n < n' ∧ n' ≤ m.pages ∧ r.1 = n' * sz1M ∧ r.2.toDecoderCfg = d.toDecoderCfg ∧
    Rep r.2 (paint own (m.first d.toDecoderCfg + n) (m.first d.toDecoderCfg + n' - 1) m) ∧
    ∀ P, m.first d.toDecoderCfg + n ≤ P → P < m.first d.toDecoderCfg + n' → own P = none

theorem paint_one {P : Nat} : paint own P P m = put own P m := by
  funext Q
  unfold paint put
  by_cases h : Q = P
  · rw [if_pos h, if_pos (by omega)]
  · rw [if_neg h, if_neg (by omega)]

theorem advanced_one {k : Nat} (h : Rep d own) (hn : n < m.pages)
    (hk : (m.first d.toDecoderCfg + n) / 32768 = k) (ht : Touches d d' k) (hd : DmaOk d')
    (hnone : own (m.first d.toDecoderCfg + n) = none)
    (hs : SlotRep d' (put own (m.first d.toDecoderCfg + n) m) k) :
    Advanced d own m n ((n + 1) * sz1M, d') := by
  refine ⟨n + 1, Nat.lt_succ_self n, hn, rfl, ht.cfg, ?_, fun P h1 h2 => ?_⟩
  · rw [show m.first d.toDecoderCfg + (n + 1) - 1 = m.first d.toDecoderCfg + n by omega, paint_one]
    refine h.step ht hd hs fun Q hQ => if_neg ?_
    rintro rfl
    exact hQ hk
  · rwa [show P = m.first d.toDecoderCfg + n by omega]

variable (h : Rep d own) (hm : Placed d.toDecoderCfg m) (hn : n < m.pages)
include h hm hn

theorem handlePageTable_map {k : Nat} (hk : (m.first d.toDecoderCfg + n) / 32768 = k) (hp : PageForm d own k) :
    Outcome (handlePageTable d (n * sz1M) m true) (Advanced d own m n) fun _ _ => True := by
  obtain ⟨h1, -, -, h4, h5, -⟩ := hm.index hn
  unfold handlePageTable
  simp only [h1, h5, if_true]
  have hP : m.first d.toDecoderCfg + n = 32768 * k +
      4096 * ((m.first d.toDecoderCfg + n) / 4096 % 8) + (m.first d.toDecoderCfg + n) % 4096 := by omega
  have hmap := hp.map (j := (m.first d.toDecoderCfg + n) / 4096 % 8) h.dma
    (by omega) (Nat.mod_lt _ (by omega)) h4 (by rw [← hP, Nat.add_sub_cancel_left])
  rw [hk]
  generalize pgtlbMapToPage d k ((m.first d.toDecoderCfg + n) / 4096 % 8) m (n * sz1M) = r at hmap ⊢
  rcases r with ⟨_ | e, d'⟩
  · obtain ⟨hnone, hp', ht, hd'⟩ := hmap
    rw [← hP] at hnone hp'
    rw [show n * sz1M + sz1M = (n + 1) * sz1M by rw [Nat.add_mul, Nat.one_mul]]
    exact advanced_one h hn hk ht hd' hnone (.page hp')
  · trivial

theorem handleRangeTable_map {k b e : Nat} {m' : MapInfo}
    (hk : (m.first d.toDecoderCfg + n) / 32768 = k) (hr : RangeForm d own k m' b e) :
    Outcome (handleRangeTable d (n * sz1M) m true) (Advanced d own m n) fun _ _ => True := by
  obtain ⟨h1, h2, -, -, -, -⟩ := hm.index hn
  unfold handleRangeTable rgtlbMap
  simp only [h1, if_true]
  have hP : m.first d.toDecoderCfg + n = 32768 * k + (m.first d.toDecoderCfg + n) % 32768 := by omega
  have hcov : m.Covers d.toDecoderCfg (m.first d.toDecoderCfg + n) := ⟨by omega, by omega⟩
  have hmap := hr.map h.dma (Nat.mod_lt _ (by omega)) h2
    (by rw [← hP]; exact hcov) (by rw [← hP, Nat.add_sub_cancel_left])
  rw [hk]
  generalize rgtlbMapPage d k m (n * sz1M) = r at hmap ⊢
  rcases r with ⟨_ | e, d'⟩
  · obtain ⟨hnone, hr', ht, hd'⟩ := hmap
    rw [← hP] at hnone hr'
    rw [show n * sz1M + sz1M = (n + 1) * sz1M by rw [Nat.add_mul, Nat.one_mul]]
    exact advanced_one h hn hk ht hd' hnone (.range hr')
  · trivial

theorem handlePgrgTable_map {k : Nat} (hk : (m.first d.toDecoderCfg + n) / 32768 = k) (hp : PageForm d own k)
    (hprev : ∀ P, m.first d.toDecoderCfg ≤ P → P < m.first d.toDecoderCfg + n → own P = some m) :
    Outcome (handlePgrgTable d (n * sz1M) m true) (Advanced d own m n) fun _ _ => True := by
  unfold handlePgrgTable
  simp only [(hm.index hn).1, hk, Bool.true_eq_false, if_false]
  split
  · exact handlePageTable_map h hm hn hk hp
  split
  · exact handlePageTable_map h hm hn hk hp
  next hany =>
  have hnext : ∀ j < 8, d.get k (ptNextLvAddr j) = d.invalidPageDma := fun j hj => by
    by_contra hc
    exact hany (List.any_eq_true.mpr ⟨j, List.mem_range.mpr hj, decide_eq_true hc⟩)
  have hfree := hp.free hnext
  have hP : m.first d.toDecoderCfg + n =
    32768 * k + (m.first d.toDecoderCfg + n) % 32768 := by omega
  -- the page before, if it were in this slot, would be one of the call's
  have hstart : n = 0 ∨ (m.first d.toDecoderCfg + n) % 32768 = 0 := by
    by_contra hc
    have hmine := hprev (m.first d.toDecoderCfg + n - 1) (by omega) (by omega)
    have hnone := hfree ((m.first d.toDecoderCfg + n) % 32768 - 1) (by omega)
    rw [show 32768 * k + ((m.first d.toDecoderCfg + n) % 32768 - 1) =
      m.first d.toDecoderCfg + n - 1 by omega, hmine] at hnone
    cases hnone
  obtain ⟨d', heq, hr, ht, hdma⟩ := hp.open h.invalid hnext hm hn hP (Nat.mod_lt _ (by omega))
    hstart
  rw [heq]
  generalize hb : (m.first d.toDecoderCfg + n) % 32768 = b at *
  generalize he : min 32767 (b + (m.pages - n) - 1) = e at *
  have hrange : m.first d.toDecoderCfg + (n + (e - b + 1)) - 1 = 32768 * k + e := by omega
  refine ⟨n + (e - b + 1), by omega, by omega, rfl, ht.cfg, ?_, fun P h1 h2 => ?_⟩
  · rw [hrange, hP]
    refine h.step ht (fun i => ?_) (.range hr) fun Q hQ => if_neg (by omega)
    rw [hdma, ht.cfg]
    exact h.dma i
  · have := hfree (P - 32768 * k) (by omega)
    rwa [show 32768 * k + (P - 32768 * k) = P by omega] at this

theorem tableStep_map
    (hprev : ∀ P, m.first d.toDecoderCfg ≤ P → P < m.first d.toDecoderCfg + n → own P = some m) :
    Outcome (tableStep m true (n * sz1M) d) (Advanced d own m n) fun _ _ => True := by
  obtain ⟨h1, -, -, -, -, hlt⟩ := hm.index hn
  unfold tableStep
  simp only [h1]
  cases h.slot _ hlt with
  | page hp =>
    rw [if_neg (by rw [hp.type]; decide)]
    split
    · exact handlePgrgTable_map h hm hn rfl hp hprev
    · exact handlePageTable_map h hm hn rfl hp
  | range hr =>
    rw [if_pos hr.type]
    exact handleRangeTable_map h hm hn rfl hr

end Map

section Unmap

def wipe (own : Nat → Option MapInfo) (lo hi Q : Nat) : Option MapInfo :=
  if lo ≤ Q ∧ Q ≤ hi then none else own Q

def Retreated (d : UbDecoder) (own : Nat → Option MapInfo) (m : MapInfo) (n : Nat)
    (r : Ret × Nat × UbDecoder) : Prop :=
  ∃ n' d', r = (none, n' * sz1M, d') ∧ n < n' ∧ n' ≤ m.pages ∧ d'.toDecoderCfg = d.toDecoderCfg ∧
    Rep d' (wipe own (m.first d.toDecoderCfg + n) (m.first d.toDecoderCfg + n' - 1))

theorem wipe_one {P : Nat} : wipe own P P = cut own P := by
  funext Q
  unfold wipe cut
  by_cases h : Q = P
  · rw [if_pos h, if_pos (by omega)]
  · rw [if_neg h, if_neg (by omega)]

theorem retreated_one {k : Nat} (h : Rep d own) (hn : n < m.pages)
    (hk : (m.first d.toDecoderCfg + n) / 32768 = k) (ht : Touches d d' k) (hd : DmaOk d')
    (hs : SlotRep d' (cut own (m.first d.toDecoderCfg + n)) k) :
    Retreated d own m n (none, n * sz1M + sz1M, d') := by
  refine ⟨n + 1, d', by rw [Nat.add_mul, Nat.one_mul], Nat.lt_succ_self n, hn, ht.cfg, ?_⟩
  rw [show m.first d.toDecoderCfg + (n + 1) - 1 = m.first d.toDecoderCfg + n by omega, wipe_one]
  refine h.step ht hd hs fun Q hQ => if_neg ?_
  rintro rfl
  exact hQ hk

variable (h : Rep d own) (hm : Placed d.toDecoderCfg m) (hpa : info.pa = m.pa)
include h hm hpa

theorem handlePageTable_unmap {k : Nat} (hn : n < m.pages) (hk : (m.first d.toDecoderCfg + n) / 32768 = k)
    (hp : PageForm d own k) (hused : own (m.first d.toDecoderCfg + n) = some m) :
    Retreated d own m n (handlePageTable d (n * sz1M) info false) := by
  obtain ⟨h1, -, -, h4, h5, -⟩ := hm.index hn
  rw [← hpa] at h1 h4 h5
  unfold handlePageTable
  simp only [h1, h5, hk, Bool.false_eq_true, if_false]
  have hP : m.first d.toDecoderCfg + n = 32768 * k +
      4096 * ((m.first d.toDecoderCfg + n) / 4096 % 8) + (m.first d.toDecoderCfg + n) % 4096 := by omega
  obtain ⟨d', heq, hp', ht, hd'⟩ := hp.unmap (j := (m.first d.toDecoderCfg + n) / 4096 % 8) h.dma
    h.invalid (by omega) (Nat.mod_lt _ (by omega)) h4 (by rw [← hP, hused]; nofun)
  rw [heq]
  rw [← hP] at hp'
  exact retreated_one h hn hk ht hd' (.page hp')

theorem handleRangeTable_unmap {k b e : Nat} {m' : MapInfo} (hsz : info.size = m.size)
    (hn : n < m.pages) (hk : (m.first d.toDecoderCfg + n) / 32768 = k)
    (hr : RangeForm d own k m' b e)
    (hgone : ∀ P, m.first d.toDecoderCfg ≤ P → P < m.first d.toDecoderCfg + n → own P ≠ some m)
    (hused : own (m.first d.toDecoderCfg + n) = some m) :
    Retreated d own m n (handleRangeTable d (n * sz1M) info false) := by
  obtain ⟨h1, h2, h3, -, -, -⟩ := hm.index hn
  rw [← hpa] at h1 h2 h3
  have hle := hr.le
  have hlt := hr.lt
  have hP : m.first d.toDecoderCfg + n = 32768 * k + (m.first d.toDecoderCfg + n) % 32768 := by omega
  have hi : (m.first d.toDecoderCfg + n) % 32768 < 32768 := Nat.mod_lt _ (by omega)
  unfold handleRangeTable rgtlbUnmap
  simp only [h1, h2, h3, hk, hr.memBase, hr.memLimit, Bool.false_eq_true, if_false]
  by_cases hmm : m' = m
  · subst hmm
    -- the range is this call's: the iteration is at its first page
    have hin := (hr.held _ hi).mp (by rw [← hP]; exact hused)
    have hfirst : (m'.first d.toDecoderCfg + n) % 32768 = b := by
      by_contra hc
      have hcov := (hr.part b (by omega)).mpr ⟨Nat.le_refl b, hle⟩
      exact hgone (32768 * k + b) hcov.1 (by omega) ((hr.held b (by omega)).mpr ⟨Nat.le_refl b, hle⟩)
    have hcov := (hr.part e hlt).mpr ⟨hle, Nat.le_refl e⟩
    have hend : n + (e - b + 1) ≤ m'.pages := by
      have := hcov.2
      omega
    have hsize : (e + 2 ^ 64 - b + 1) % 2 ^ 64 = e - b + 1 := by omega
    have hfit : n * sz1M + (e - b + 1) * sz1M ≤ info.size.toNat := by
      rw [hsz, size_eq hm, ← Nat.add_mul]
      exact Nat.mul_le_mul_right _ hend
    obtain ⟨d', heq, hp', ht, hd'⟩ := hr.close h.dma h.invalid
    rw [if_pos hfirst, hsize, if_pos hfit, heq]
    refine ⟨n + (e - b + 1), d', by rw [Nat.add_mul n], by omega, hend, ht.cfg, ?_⟩
    refine h.step ht hd' (.page ⟨hp'.type, fun j hj => (hp'.sub j hj).congr fun i hi => ?_⟩)
      fun Q hQ => if_neg (by omega)
    have hheld := hr.held (4096 * j + i) (by omega)
    rw [← Nat.add_assoc] at hheld
    unfold wipe beside
    by_cases ho : own (32768 * k + 4096 * j + i) = some m'
    · have := hheld.mp ho
      rw [if_pos ho, if_pos (by omega)]
    · have : ¬(b ≤ 4096 * j + i ∧ 4096 * j + i ≤ e) := fun hc => ho (hheld.mpr hc)
      rw [if_neg ho, if_neg (by omega)]
  · have hne : own (32768 * k + (m.first d.toDecoderCfg + n) % 32768) ≠ some m' := by
      rw [← hP, hused]
      exact fun hc => hmm (Option.some.inj hc).symm
    have hb : (m.first d.toDecoderCfg + n) % 32768 ≠ b := fun hc =>
      hne ((hr.held _ hi).mpr ⟨by omega, by omega⟩)
    obtain ⟨d', heq, hr', ht, hd'⟩ := hr.unmapPage h.dma h.invalid hi hne (by rw [← hP, hused]; nofun)
    rw [if_neg hb, heq]
    rw [← hP] at hr'
    exact retreated_one h hn hk ht hd' (.range hr')

theorem tableStep_unmap
    (hsz : info.size = m.size) (hn : n < m.pages)
    (hgone : ∀ P, m.first d.toDecoderCfg ≤ P → P < m.first d.toDecoderCfg + n → own P ≠ some m)
    (hused : own (m.first d.toDecoderCfg + n) = some m) :
    Retreated d own m n (tableStep info false (n * sz1M) d) := by
  obtain ⟨h1, -, -, -, -, hlt⟩ := hm.index hn
  rw [← hpa] at h1
  unfold tableStep
  simp only [h1]
  cases h.slot _ hlt with
  | page hp =>
    rw [if_neg (by rw [hp.type]; decide)]
    split
    · unfold handlePgrgTable
      simp only [if_true]
      exact handlePageTable_unmap h hm hpa hn rfl hp hused
    · exact handlePageTable_unmap h hm hpa hn rfl hp hused
  | range hr =>
    rw [if_pos hr.type]
    exact handleRangeTable_unmap h hm hpa hsz hn rfl hr hgone hused

end Unmap

/-! ## The loops -/

section Calls

variable {c : DecoderCfg}

theorem ite_grow {A n' Q : Nat} {x y : Option MapInfo} (hn : n < n') :
    (if A + n ≤ Q ∧ Q ≤ A + n' - 1 then x else if A ≤ Q ∧ Q < A + n then x else y) =
      if A ≤ Q ∧ Q < A + n' then x else y := by
  by_cases h1 : A + n ≤ Q ∧ Q ≤ A + n' - 1
  · rw [if_pos h1, if_pos (by omega)]
  rw [if_neg h1]
  by_cases h2 : A ≤ Q ∧ Q < A + n
  · rw [if_pos h2, if_pos (by omega)]
  · rw [if_neg h2, if_neg (by omega)]

theorem paint_taken {n' : Nat} (hn : n < n') :
    paint (taken own c m n) (m.first c + n) (m.first c + n' - 1) m = taken own c m n' :=
  funext fun _ => ite_grow hn

theorem wipe_given {n' : Nat} (hn : n < n') :
    wipe (given own c m n) (m.first c + n) (m.first c + n' - 1) = given own c m n' :=
  funext fun _ => ite_grow hn

/-- A map call from its page `n` on: without an error it enters all its pages, which were free. -/
theorem tableLoop_map (hm : Placed c m) :
    ∀ {fuel n : Nat} {d : UbDecoder}, d.toDecoderCfg = c → Rep d (taken own c m n) → n ≤ m.pages →
      m.pages - n ≤ fuel → Outcome (tableLoop m true fuel (n * sz1M) d)
        (fun r => r.2.toDecoderCfg = c ∧ Rep r.2 (taken own c m m.pages) ∧
          ∀ P, m.first c + n ≤ P → P < m.first c + m.pages → own P = none) fun _ _ => True
  | 0, n, d, hc, h, hn, hf => by
    obtain rfl : n = m.pages := by omega
    exact ⟨hc, h, fun P h1 h2 => absurd h1 (by omega)⟩
  | fuel + 1, n, d, hc, h, hn, hf => by
    unfold tableLoop
    rw [size_eq hm]
    split
    · next hlt =>
      have hlt : n < m.pages := Nat.lt_of_mul_lt_mul_right hlt
      have hstep := tableStep_map h (hc ▸ hm) hlt fun P h1 h2 => if_pos (hc ▸ ⟨h1, h2⟩)
      generalize tableStep m true (n * sz1M) d = r at hstep ⊢
      obtain ⟨_ | e, off, d'⟩ := r
      · obtain ⟨n', h1, h2, rfl, h4, h5, h6⟩ := hstep
        rw [hc] at h4 h5 h6
        rw [paint_taken h1] at h5
        refine (tableLoop_map hm h4 h5 h2 (by omega)).mono (fun r hr => ?_) fun _ _ => id
        refine ⟨hr.1, hr.2.1, fun P hP hP' => ?_⟩
        rcases Nat.lt_or_ge P (m.first c + n') with hl | hl
        · have := h6 P hP hl
          rwa [taken, if_neg (by omega)] at this
        · exact hr.2.2 P hl hP'
      · trivial
    · next hge =>
      obtain rfl : n = m.pages :=
        Nat.le_antisymm hn (Nat.le_of_mul_le_mul_right (Nat.not_lt.mp hge) (by decide))
      exact ⟨hc, h, fun P h1 h2 => absurd h1 (by omega)⟩

/-- The unmap of a live map call from its page `n` on succeeds and gives back its pages. -/
theorem tableLoop_unmap (hm : Placed c m) (hpa : info.pa = m.pa) (hsz : info.size = m.size)
    (hown : ∀ P, m.Covers c P → own P = some m) :
    ∀ {fuel n : Nat} {d : UbDecoder}, d.toDecoderCfg = c → Rep d (given own c m n) → n ≤ m.pages →
      m.pages - n ≤ fuel → ∃ off d', tableLoop info false fuel (n * sz1M) d = (none, off, d') ∧
        d'.toDecoderCfg = c ∧ Rep d' (given own c m m.pages)
  | 0, n, d, hc, h, hn, hf => by
    obtain rfl : n = m.pages := by omega
    exact ⟨_, d, rfl, hc, h⟩
  | fuel + 1, n, d, hc, h, hn, hf => by
    unfold tableLoop
    rw [hsz, size_eq hm]
    split
    · next hlt =>
      have hlt : n < m.pages := Nat.lt_of_mul_lt_mul_right hlt
      obtain ⟨n', d', heq, h1, h2, h3, h4⟩ := tableStep_unmap h (hc ▸ hm) hpa hsz hlt
        (fun P hP hP' => by rw [given, if_pos (hc ▸ ⟨hP, hP'⟩)]; nofun)
        (by rw [hc, given, if_neg (by omega)]; exact hown _ ⟨by omega, by omega⟩)
      rw [hc] at h3 h4
      rw [wipe_given h1] at h4
      rw [heq]
      exact tableLoop_unmap hm hpa hsz hown h3 h4 h2 (by omega)
    · next hge =>
      obtain rfl : n = m.pages :=
        Nat.le_antisymm hn (Nat.le_of_mul_le_mul_right (Nat.not_lt.mp hge) (by decide))
      exact ⟨_, d, rfl, hc, h⟩

end Calls

end UbDkms.Decoder
