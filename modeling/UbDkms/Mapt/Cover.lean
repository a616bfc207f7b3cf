import UbDkms.Mapt.Ops

/-!
# Segments over the tree

The walks visit the nodes that meet a segment from left to right. `sweep T v y`
is the table in which the nodes of `T` that start below the address `y` have
been given the value `v`; a walk moves `y` from the start of a level block to its
end. `SegInv` is what ties the nodes to the recorded segments: every node holds
a recorded segment that meets it and does not fill its parent, and every
address of a segment lies in exactly one node that holds it.
-/

namespace UbDkms.Mapt

open Lib

/-! ## Arithmetic of the levels -/

def bspan (l : Nat) : Nat := 512 * span l

theorem span_values : span 0 = 549755813888 ∧ span 1 = 1073741824 ∧ span 2 = 2097152 ∧
    span 3 = 4096 := by decide

theorem span_pos (l : Nat) : 0 < span l := Nat.two_pow_pos _

variable {l : Nat}

theorem bspan_succ (h : l + 1 ≤ 3) : bspan (l + 1) = span l := by
  obtain rfl | rfl | rfl : l = 0 ∨ l = 1 ∨ l = 2 := by omega
  all_goals decide

def Meets (s : SegInfo) (l p : Nat) : Prop := s.startAddr < (p + 1) * span l ∧ p * span l ≤ s.last

def Fills (s : SegInfo) (l p : Nat) : Prop := s.startAddr ≤ p * span l ∧ (p + 1) * span l ≤ s.last + 1

def blockBase (s : SegInfo) (l q : Nat) : Nat := s.startAddr - q * bspan l

def blockLimit (s : SegInfo) (l q : Nat) : Nat := min (s.last - q * bspan l) (bspan l - 1)

def MeetsBlock (s : SegInfo) (l q : Nat) : Prop :=
  s.startAddr < (q + 1) * bspan l ∧ q * bspan l ≤ s.last

variable {s : SegInfo} {p : Nat}

theorem meetsBlock_child (h : l + 1 ≤ 3) :
    MeetsBlock s (l + 1) p ↔ Meets s l p := by
  rw [MeetsBlock, bspan_succ h]; rfl

theorem blockBase_child (h : l + 1 ≤ 3) :
    blockBase s (l + 1) p = nodeBase s l p := by rw [blockBase, bspan_succ h]; rfl

theorem blockLimit_child (h : l + 1 ≤ 3) :
    blockLimit s (l + 1) p = nodeLimit s l p := by rw [blockLimit, bspan_succ h]; rfl

/-- Where the loop over a level block starts and ends, and what it passes down. -/
structure LoopIdx (s : SegInfo) (l q b e : Nat) : Prop where
  le : b ≤ e
  lt : e < 512
  base : ∀ {i}, b ≤ i → i ≤ e →
    (if i = b then blockBase s l q % span l else 0) = nodeBase s l (512 * q + i)
  limit : ∀ {i}, b ≤ i → i ≤ e →
    (if i = e then blockLimit s l q % span l else getLevelRangeMask l) = nodeLimit s l (512 * q + i)
  meets : ∀ {i}, b ≤ i → i ≤ e → Meets s l (512 * q + i)
  fills : ∀ {i}, b < i → i < e → Fills s l (512 * q + i)
  before : (512 * q + b) * span l ≤ max s.startAddr (q * bspan l)
  after : min s.last ((q + 1) * bspan l - 1) < (512 * q + e + 1) * span l

theorem loopIdx {q : Nat} (h : MeetsBlock s l q) :
    LoopIdx s l q (getLevelBlockIndex (blockBase s l q) l)
      (getLevelBlockIndex (blockLimit s l q) l) := by
  have hle : s.startAddr ≤ s.last := Nat.le_add_right _ _
  have hw := span_pos l
  have hbs : q * bspan l = 512 * q * span l := by rw [bspan]; ring
  have hbs' : (q + 1) * bspan l = 512 * q * span l + 512 * span l := by rw [bspan]; ring
  have hnode : ∀ i, (512 * q + i) * span l = 512 * q * span l + i * span l := fun i => by ring
  obtain ⟨h1, h2⟩ := h
  rw [hbs'] at h1
  rw [hbs] at h2
  -- both ends lie inside the block, so the index needs no reduction
  have hidx : ∀ x, x < 512 * span l → getLevelBlockIndex x l = x / span l ∧ x / span l < 512 ∧
      x / span l * span l ≤ x ∧ x < x / span l * span l + span l ∧
      x % span l = x - x / span l * span l := fun x hx => by
    have hlt : x / span l < 512 := Nat.div_lt_of_lt_mul (by rwa [Nat.mul_comm])
    have hdm := Nat.div_add_mod' x (span l)
    have hm := Nat.mod_lt x hw
    exact ⟨Nat.mod_eq_of_lt hlt, hlt, by omega, by omega, by omega⟩
  have hx : blockBase s l q < 512 * span l := by rw [blockBase, hbs]; omega
  have hy : blockLimit s l q < 512 * span l := by rw [blockLimit, hbs, bspan]; omega
  obtain ⟨bi, b512, blo, bhi, bmod⟩ := hidx _ hx
  obtain ⟨ei, e512, elo, ehi, emod⟩ := hidx _ hy
  have hxy : blockBase s l q ≤ blockLimit s l q := by rw [blockBase, blockLimit, hbs, bspan]; omega
  have hbe := Nat.div_le_div_right (c := span l) hxy
  have hlt : ∀ {i j}, i < j → i * span l + span l ≤ j * span l := fun {i j} hij => by
    have := Nat.mul_le_mul_right (span l) (Nat.succ_le_of_lt hij)
    rwa [Nat.succ_mul] at this
  rw [bi, ei]
  have hsucc : ∀ i, (512 * q + i + 1) * span l = 512 * q * span l + i * span l + span l :=
    fun i => by ring
  generalize blockBase s l q / span l = b at *
  generalize blockLimit s l q / span l = e at *
  rw [blockBase, hbs] at bmod blo bhi
  rw [blockLimit, hbs, bspan] at emod elo ehi
  refine ⟨hbe, e512, fun {i} hi he => ?_, fun {i} hi he => ?_, fun {i} hi he => ?_,
    fun {i} hi he => ?_, ?_, ?_⟩
  · rw [nodeBase, hnode]
    split
    · next hib => subst hib; rw [blockBase, hbs, bmod]; omega
    · have := hlt (show b < i by omega); omega
  · rw [nodeLimit, hnode]
    split
    · next hie => subst hie; have := hlt e512; rw [blockLimit, hbs, bspan, emod]; omega
    · have := hlt (show i < e by omega); rw [getLevelRangeMask]; omega
  · rw [Meets, hnode, hsucc]
    rcases Nat.eq_or_lt_of_le hi with rfl | hi <;> rcases Nat.eq_or_lt_of_le he with rfl | he
    · omega
    · have := hlt he; omega
    · have := hlt hi; omega
    · have := hlt he; have := hlt hi; omega
  · rw [Fills, hnode, hsucc]
    have := hlt he; have := hlt hi; omega
  · rw [hnode, hbs]; omega
  · rw [hsucc, hbs']; omega

variable {l' : Nat}

theorem span_dvd (h : l ≤ l') : span l' ∣ span l := by
  refine Nat.pow_dvd_pow 2 ?_
  rcases l with _ | _ | _ | l <;> rcases l' with _ | _ | _ | l' <;>
    simp only [gMaptRangeBits] <;> omega

theorem bspan_dvd (h : l' < l) (hl : l ≤ 3) : bspan l ∣ span l' := by
  obtain ⟨k, rfl⟩ : ∃ k, l = k + 1 := ⟨l - 1, by omega⟩
  rw [bspan_succ hl]
  exact span_dvd (by omega)

theorem eq_of_dvd {w x y : Nat} (hx : w ∣ x) (hy : w ∣ y) (h1 : y ≤ x) (h2 : x < y + w) : x = y := by
  obtain ⟨a, rfl⟩ := hx
  obtain ⟨b, rfl⟩ := hy
  have hlt : a < b + 1 := Nat.lt_of_mul_lt_mul_left (a := w) (by rw [Nat.mul_add, Nat.mul_one]; exact h2)
  have hw : 0 < w := by omega
  have hle : b ≤ a := Nat.le_of_mul_le_mul_left h1 hw
  rw [show a = b by omega]

theorem add_le_of_dvd {w x y : Nat} (hx : w ∣ x) (hy : w ∣ y) (h : x < y) : x + w ≤ y := by
  by_contra hc
  have := eq_of_dvd hy hx (Nat.le_of_lt h) (by omega)
  omega

theorem range_le {p' : Nat} (h : l ≤ l') (hp : p' * span l' / span l = p) :
    p * span l ≤ p' * span l' ∧ (p' + 1) * span l' ≤ (p + 1) * span l := by
  have hw := span_pos l
  subst hp
  refine ⟨Nat.div_mul_le_self _ _, ?_⟩
  have hlt : p' * span l' < (p' * span l' / span l + 1) * span l := by
    rw [Nat.add_mul, Nat.one_mul]; exact Nat.lt_div_mul_add hw
  rw [Nat.add_mul p', Nat.one_mul]
  exact add_le_of_dvd (Nat.dvd_mul_left _ _) ((span_dvd h).mul_left _) hlt

theorem prefix_self (l p : Nat) : p * span l / span l = p := Nat.mul_div_cancel _ (span_pos l)

theorem prefix_block (h : l' < l) (hl : l ≤ 3) :
    p * span l / span l' = p / 512 * bspan l / span l' := by
  obtain ⟨k, hk⟩ := bspan_dvd h hl
  have hb : 0 < bspan l := Nat.mul_pos (by decide) (span_pos l)
  rw [hk, ← Nat.div_div_eq_div_mul, ← Nat.div_div_eq_div_mul, Nat.mul_div_cancel _ hb, bspan,
    Nat.mul_comm 512, ← Nat.div_div_eq_div_mul, prefix_self]

/-! ## Sweeping -/

open Classical in
noncomputable def sweep (use0 : Nat → Nat → Option SegInfo) (T : Nat → Nat → Prop)
    (v : Option SegInfo) (y : Nat) : Nat → Nat → Option SegInfo :=
  fun l p => if T l p ∧ p * span l < y then v else use0 l p

/-- The nodes a walk for `s` is to change: they meet `s` and none lies under another. -/
structure Plan (s : SegInfo) (T : Nat → Nat → Prop) : Prop where
  meets : ∀ {l p}, T l p → Meets s l p
  anti : ∀ {l p l' p'}, T l p → T l' p' → l < l' → p' * span l' / span l ≠ p

section Sweep

variable {use0 : Nat → Nat → Option SegInfo} {T : Nat → Nat → Prop} {v : Option SegInfo}
  {s : SegInfo} {l p q b e y y' : Nat}

theorem sweep_le (h : y ≤ p * span l) : sweep use0 T v y l p = use0 l p :=
  if_neg fun hc => by omega

theorem sweep_not (h : ¬T l p) : sweep use0 T v y l p = use0 l p := if_neg fun hc => h hc.1

theorem sweep_in (h : T l p) (hy : p * span l < y) : sweep use0 T v y l p = v := if_pos ⟨h, hy⟩

theorem sweep_cases (use0 : Nat → Nat → Option SegInfo) (T : Nat → Nat → Prop)
    (v : Option SegInfo) : sweep use0 T v y l p = v ∧ T l p ∧ p * span l < y ∨
    sweep use0 T v y l p = use0 l p := by
  by_cases h : T l p ∧ p * span l < y
  · exact .inl ⟨if_pos h, h⟩
  · exact .inr (if_neg h)

theorem sweep_congr (h : T l p → (p * span l < y ↔ p * span l < y')) :
    sweep use0 T v y l p = sweep use0 T v y' l p := by
  by_cases ht : T l p
  · by_cases hy : p * span l < y
    · rw [sweep_in ht hy, sweep_in ht ((h ht).mp hy)]
    · rw [sweep_le (by omega), sweep_le (by have := (h ht).not.mp hy; omega)]
  · rw [sweep_not ht, sweep_not ht]

theorem sweep_skip (hy : y ≤ y') (h : ∀ l p, T l p → y ≤ p * span l → y' ≤ p * span l) :
    sweep use0 T v y = sweep use0 T v y' := by
  funext l p
  refine sweep_congr fun ht => ⟨fun _ => by omega, fun _ => ?_⟩
  by_contra hc
  have := h l p ht (by omega)
  omega

theorem Plan.sweep_start (P : Plan s T) (hl : l ≤ 3) (hi : LoopIdx s l q b e)
    (hno : ∀ l', l' < l → ¬T l' (q * bspan l / span l')) :
    sweep use0 T v (q * bspan l) = sweep use0 T v ((512 * q + b) * span l) := by
  have hle : q * bspan l ≤ (512 * q + b) * span l := by
    rw [bspan, ← Nat.mul_assoc]
    exact Nat.mul_le_mul_right _ (by omega)
  refine sweep_skip hle fun l' p' ht hge => ?_
  by_contra hlt
  by_cases hll : l' < l
  · have hb : (512 * q + b) * span l < q * bspan l + bspan l := by
      have := hi.le; have := hi.lt
      rw [bspan, ← Nat.mul_assoc, ← Nat.add_mul]
      exact Nat.mul_lt_mul_of_pos_right (by omega) (span_pos l)
    have hx := eq_of_dvd ((bspan_dvd hll hl).mul_left p') (Nat.dvd_mul_left _ q) hge (by omega)
    exact hno l' hll (by rw [← hx, prefix_self]; exact ht)
  have h1 := add_le_of_dvd (Nat.dvd_mul_left (span l') p')
    ((span_dvd (show l ≤ l' by omega)).mul_left _) (Nat.lt_of_not_le hlt)
  have h2 := (P.meets ht).1
  have h3 := hi.before
  have := span_pos l'
  rw [Nat.add_mul, Nat.one_mul] at h2
  omega

theorem Plan.sweep_end (P : Plan s T) (hl : l ≤ 3) (hi : LoopIdx s l q b e) :
    sweep use0 T v ((512 * q + (e + 1)) * span l) = sweep use0 T v ((q + 1) * bspan l) := by
  have hbs : (q + 1) * bspan l = (512 * q + 512) * span l := by rw [bspan]; ring
  have hlt := hi.lt
  refine sweep_skip (by rw [hbs]; exact Nat.mul_le_mul_right _ (by omega)) fun l' p' ht hge => ?_
  by_contra hc
  have hafter := hi.after
  rw [Nat.add_assoc] at hafter
  by_cases hll : l' < l
  · have hpos := span_pos l
    have h1 : q * bspan l < p' * span l' := by
      refine Nat.lt_of_lt_of_le ?_ hge
      rw [bspan, ← Nat.mul_assoc]
      exact Nat.mul_lt_mul_of_pos_right (by omega) hpos
    have h2 := add_le_of_dvd (Nat.dvd_mul_left _ q) ((bspan_dvd hll hl).mul_left p') h1
    rw [Nat.add_mul, Nat.one_mul] at hc
    omega
  · have := (P.meets ht).2
    omega

theorem Plan.sweep_node (P : Plan s T) (hl : l ≤ 3) (ht : T l p) :
    set2 (sweep use0 T v (p * span l)) l p v = sweep use0 T v ((p + 1) * span l) := by
  have hpos := span_pos l
  have hsucc : (p + 1) * span l = p * span l + span l := by ring
  funext l' p'
  by_cases hlp : l' = l ∧ p' = p
  · obtain ⟨rfl, rfl⟩ := hlp
    rw [set2_self, sweep_in ht (by omega)]
  rw [set2_ne hlp]
  refine sweep_congr fun ht' => ⟨fun _ => by omega, fun hlt => ?_⟩
  by_contra hc
  rcases Nat.lt_trichotomy l' l with hll | rfl | hll
  · have hx := eq_of_dvd ((span_dvd (Nat.le_of_lt hll)).mul_left p') (Nat.dvd_mul_left _ p)
      (by omega) (by omega)
    exact P.anti ht' ht hll (by rw [← hx, prefix_self])
  · have := Nat.lt_of_mul_lt_mul_right hlt
    have := Nat.le_of_mul_le_mul_right (Nat.not_lt.mp hc) hpos
    exact hlp ⟨rfl, by omega⟩
  · exact P.anti ht ht' hll (Nat.div_eq_of_lt_le (by omega) hlt)

end Sweep

end UbDkms.Mapt
