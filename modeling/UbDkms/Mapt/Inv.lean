import UbDkms.Mapt.Cover

/-!
# Invariants of the tree

`Tidy`: a valid node holds a segment or has a child block, and a level block
other than the root holds a valid node. Inside a walk one node or one block may
be exempt. `SegInv` ties the nodes to the recorded segments.
-/

namespace UbDkms.Mapt

/-! ## Prefixes, one level at a time -/

theorem span_succ {k : Nat} (h : k + 1 ≤ 3) : span k = span (k + 1) * 512 := by
  rw [Nat.mul_comm]; exact (bspan_succ h).symm

theorem prefix_succ {k : Nat} (h : k + 1 ≤ 3) (a : Nat) : a / span k = a / span (k + 1) / 512 := by
  rw [span_succ h, Nat.div_div_eq_div_mul]

theorem prefix_trans {l k a p : Nat} (h : l ≤ k) (hp : a / span k = p) :
    p * span k / span l = a / span l := by
  obtain ⟨m, hm⟩ := span_dvd h
  subst hp
  rw [hm, ← Nat.div_div_eq_div_mul, prefix_self, ← Nat.div_div_eq_div_mul]

/-! ## Tidiness -/

def never (_ _ : Nat) : Prop := False

def only (l q l' q' : Nat) : Prop := l' = l ∧ q' = q

structure Tidy (G : Ghost) (node block : Nat → Nat → Prop) : Prop where
  full : ∀ {l p}, ¬node l p → G.valid l p = true → (G.use l p).isSome ∨ (G.loc (l + 1) p).isSome
  bare : ∀ {l q}, 0 < l → ¬block l q → (G.loc l q).isSome → ¬G.Bare l q

theorem Tidy.mono {G : Ghost} {n b n' b' : Nat → Nat → Prop} (h : Tidy G n b)
    (hn : ∀ l p, n l p → n' l p) (hb : ∀ l q, b l q → b' l q) : Tidy G n' b' :=
  ⟨fun hx => h.full fun hc => hx (hn _ _ hc), fun h0 hx => h.bare h0 fun hc => hx (hb _ _ hc)⟩

theorem not_bare {G : Ghost} {l p : Nat} (h : G.valid l p) : ¬G.Bare l (p / 512) := fun hc => by
  have := hc (p % 512) (Nat.mod_lt _ (by omega))
  rw [show 512 * (p / 512) + p % 512 = p by omega] at this
  exact Bool.false_ne_true (this.symm.trans h)

theorem Tidy.of_valid {G : Ghost} {n : Nat → Nat → Prop} {l p : Nat}
    (h : Tidy G n (only l (p / 512))) (hv : G.valid l p) : Tidy G n never := by
  refine ⟨h.full, fun {l' q'} h0 _ hs => ?_⟩
  by_cases hx : only l (p / 512) l' q'
  · obtain ⟨rfl, rfl⟩ := hx; exact not_bare hv
  · exact h.bare h0 hx hs

section Tree

variable {fb : Bool} {c : TableCtx} {G : Ghost}

theorem Maps.valid_up (hm : Maps fb c G) {l : Nat} :
    ∀ {k p : Nat}, G.valid (l + k) p → l + k ≤ 3 →
      G.valid l (p * span (l + k) / span l) = true
  | 0, p, h, _ => by rw [Nat.add_zero, prefix_self]; exact h
  | k + 1, p, h, hk => by
    have hp := hm.child (l := l + k) (p := p / 512) (hm.placed h)
    have ih := Maps.valid_up hm hp (by omega)
    rwa [prefix_trans (a := p * span (l + k + 1)) (Nat.le_add_right _ _)] at ih
    rw [prefix_succ (by omega), prefix_self]

theorem exists_used_below (hm : Maps fb c G)
    (full : ∀ {l p}, G.valid l p → (G.use l p).isSome ∨ (G.loc (l + 1) p).isSome) :
    ∀ {n k p : Nat}, k + 1 + n = 4 →
      (∀ {l q}, k < l → (G.loc l q).isSome → ¬G.Bare l q) → (G.loc (k + 1) p).isSome →
      ∃ l' p', k < l' ∧ p' * span l' / span k = p ∧ (G.use l' p').isSome
  | 0, k, p, hk, _, hs => by
    obtain ⟨id, hid⟩ := Option.isSome_iff_exists.mp hs
    have := (hm.bound hid).2.1
    omega
  | n + 1, k, p, hk, bare, hs => by
    have hb := bare (Nat.lt_succ_self k) hs
    simp only [Ghost.Bare, not_forall, Bool.not_eq_false] at hb
    obtain ⟨i, hi, hv⟩ := hb
    have hpre : (512 * p + i) * span (k + 1) / span k = p := by
      rw [prefix_succ (by omega), prefix_self]; omega
    rcases full hv with hu | hc
    · exact ⟨k + 1, 512 * p + i, Nat.lt_succ_self k, hpre, hu⟩
    obtain ⟨l', p', hl, hp', hu⟩ := exists_used_below hm full (n := n) (by omega)
      (fun h => bare (by omega)) hc
    refine ⟨l', p', by omega, ?_, hu⟩
    rw [← hpre, prefix_trans (Nat.le_succ k) hp']

end Tree

/-! ## Segments -/

/-- The segments recorded: page-aligned, in the address space, in order and apart. -/
structure SegsOk (S : List SegInfo) : Prop where
  aligned : ∀ {s}, s ∈ S → s.startAddr % 4096 = 0
  bound : ∀ {s}, s ∈ S → s.last < 2 ^ 48
  sorted : S.Pairwise fun s t => s.last < t.startAddr

structure SegInv (S : List SegInfo) (use : Nat → Nat → Option SegInfo) : Prop where
  mem : ∀ {l p s}, use l p = some s → s ∈ S
  meets : ∀ {l p s}, use l p = some s → Meets s l p
  level : ∀ {l p s}, use l p = some s → l ≤ 3
  coarse : ∀ {l p s}, use (l + 1) p = some s → ¬Fills s l (p / 512)
  cover : ∀ {s a}, s ∈ S → s.startAddr ≤ a → a ≤ s.last → ∃ l, use l (a / span l) = some s
  anti : ∀ {l p l' p' s}, use l p = some s → use l' p' = some s → l < l' → p' * span l' / span l ≠ p

theorem SegsOk.apart {S : List SegInfo} (h : SegsOk S) {s t : SegInfo} (hs : s ∈ S) (ht : t ∈ S)
    (hne : s ≠ t) : s.last < t.startAddr ∨ t.last < s.startAddr := by
  let R (s t : SegInfo) : Prop := s.last < t.startAddr ∨ t.last < s.startAddr
  have : Std.Symm R := ⟨fun _ _ => Or.symm⟩
  exact (h.sorted.imp (S := R) .inl).forall hs ht hne

theorem SegInfo.le_last (s : SegInfo) : s.startAddr ≤ s.last := Nat.le_add_right _ _

theorem meets_fills {s t : SegInfo} {l p : Nat} (hs : Meets s l p) (ht : Fills t l p) :
    ¬(s.last < t.startAddr ∨ t.last < s.startAddr) := by
  obtain ⟨h1, h2⟩ := hs
  obtain ⟨h3, h4⟩ := ht
  omega

theorem mem_range {s : SegInfo} {a l : Nat} (h1 : s.startAddr ≤ a) (h2 : a ≤ s.last) :
    Meets s l (a / span l) := by
  have hw := span_pos l
  have := Nat.lt_div_mul_add (a := a) hw
  have := Nat.div_mul_le_self a (span l)
  constructor
  · rw [Nat.add_mul, Nat.one_mul]; omega
  · omega

end UbDkms.Mapt
