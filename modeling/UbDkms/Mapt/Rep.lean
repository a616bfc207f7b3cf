import UbDkms.Mapt.Books

/-!
# The table as a tree

A node is named by its level `l` and its address prefix `p`: it covers the
addresses `a` with `a / span l = p`. The level block `(l, q)` holds the nodes
`(l, 512 * q + i)`; the child block of node `(l, p)` is `(l + 1, p)`. A `Ghost`
says for every node whether it is valid and which segment it holds, and for
every level block where it lies. `Rep` ties a state of the table functions to a
ghost; the lemmas after it say what each single write does to the ghost.
-/

namespace UbDkms.Mapt

open Lib

def set2 {α : Type} (f : Nat → Nat → α) (l p : Nat) (v : α) : Nat → Nat → α :=
  fun l' p' => if l' = l ∧ p' = p then v else f l' p'

@[simp] theorem set2_self {α : Type} (f : Nat → Nat → α) (l p : Nat) (v : α) :
    set2 f l p v l p = v := if_pos ⟨rfl, rfl⟩

theorem set2_ne {α : Type} {f : Nat → Nat → α} {l p l' p' : Nat} {v : α} (h : ¬(l' = l ∧ p' = p)) :
    set2 f l p v l' p' = f l' p' := if_neg h

structure Ghost where
  use : Nat → Nat → Option SegInfo
  valid : Nat → Nat → Bool
  loc : Nat → Nat → Option Nat

def Ghost.setCell (G : Ghost) (l p : Nat) (u : Option SegInfo) (v : Bool) : Ghost :=
  { G with use := set2 G.use l p u, valid := set2 G.valid l p v }

def Ghost.setLoc (G : Ghost) (l q : Nat) (id : Option Nat) : Ghost :=
  { G with loc := set2 G.loc l q id }

section Fields

variable (G : Ghost) (l p : Nat) (u : Option SegInfo) (v : Bool) (id : Option Nat)

@[simp] theorem setCell_use : (G.setCell l p u v).use = set2 G.use l p u := rfl
@[simp] theorem setCell_valid : (G.setCell l p u v).valid = set2 G.valid l p v := rfl
@[simp] theorem setCell_loc : (G.setCell l p u v).loc = G.loc := rfl
@[simp] theorem setLoc_use : (G.setLoc l p id).use = G.use := rfl
@[simp] theorem setLoc_valid : (G.setLoc l p id).valid = G.valid := rfl
@[simp] theorem setLoc_loc : (G.setLoc l p id).loc = set2 G.loc l p id := rfl

end Fields

def Ghost.Bare (G : Ghost) (l q : Nat) : Prop := ∀ i, i < 512 → G.valid l (512 * q + i) = false

/-! ## Nodes -/

def nodeBase (s : SegInfo) (l p : Nat) : Nat := s.startAddr - p * span l

def nodeLimit (s : SegInfo) (l p : Nat) : Nat := min (s.last - p * span l) (span l - 1)

structure Holds (nd : TableNode) (s : SegInfo) (l p : Nat) : Prop where
  base : nd.base = nodeBase s l p
  limit : nd.limit = nodeLimit s l p
  permission : nd.permission = some s.permission
  eBit : nd.eBit = s.eBit
  tokenCheck : nd.tokenCheck = s.tokenCheck
  fBit : nd.fBit = false
  token : s.tokenCheck = true →
    nd.nonce = s.tokenCount ∧ nd.tokenVal0 = s.tokenVal0 ∧ nd.tokenVal1 = s.tokenVal1

def IsFreed (fb : Bool) (nd : TableNode) : Prop :=
  if fb then nd.fBit = true else nd.base = invalidAddr ∧ nd.limit = invalidAddr

def Links (nd : TableNode) : Option Nat → Prop
  | none => nd.type = true
  | some id => nd.type = false ∧ nd.nextLvIndex = id / 4 ∧ nd.nextLvOffset = 512 * (id % 4)

structure NodeRep (fb : Bool) (l p : Nat) (use : Option SegInfo) (valid : Bool)
    (child : Option Nat) (nd : TableNode) : Prop where
  zero : valid = false → nd = .zero
  isValid : valid = true → nd.valid = true
  links : valid = true → Links nd child
  held : ∀ s, valid = true → use = some s → Holds nd s l p
  freed : valid = true → use = none → IsFreed fb nd

theorem NodeRep.valid_eq {fb : Bool} {l p : Nat} {use : Option SegInfo} {valid : Bool}
    {child : Option Nat} {nd : TableNode} (h : NodeRep fb l p use valid child nd) :
    nd.valid = valid := by
  cases hv : valid with
  | true => exact h.isValid hv
  | false => rw [h.zero hv]; rfl

/-! ## Representation -/

structure Maps (fb : Bool) (c : TableCtx) (G : Ghost) : Prop where
  root : G.loc 0 0 = some 0
  bound : ∀ {l q id}, G.loc l q = some id → id < 2048 ∧ l ≤ 3 ∧ (l = 0 → q = 0)
  inj : ∀ {l q l' q' id}, G.loc l q = some id → G.loc l' q' = some id → l' = l ∧ q' = q
  bit : ∀ {id}, c.levelBlockBitmap id = true ↔ ∃ l q, G.loc l q = some id
  node : ∀ {l q id i}, G.loc l q = some id → i < 512 →
    NodeRep fb l (512 * q + i) (G.use l (512 * q + i)) (G.valid l (512 * q + i))
      (G.loc (l + 1) (512 * q + i)) (c.slot id i)
  placed : ∀ {l p}, G.valid l p = true → (G.loc l (p / 512)).isSome
  child : ∀ {l p}, (G.loc (l + 1) p).isSome → G.valid l p = true
  used : ∀ {l p}, (G.use l p).isSome → G.valid l p = true

namespace Maps

variable {fb : Bool} {c c' : TableCtx} {G : Ghost} {l p q id : Nat} {nd : TableNode}

theorem setCell {u : Option SegInfo} {v : Bool} (h : Maps fb c G) (nd : TableNode)
    (hloc : G.loc l (p / 512) = some id) (hbit : c'.levelBlockBitmap = c.levelBlockBitmap)
    (hslot : ∀ {id' i}, i < 512 →
      c'.slot id' i = if id' = id ∧ i = p % 512 then nd else c.slot id' i)
    (hnd : NodeRep fb l p u v (G.loc (l + 1) p) nd) (hu : u.isSome → v)
    (hv : (G.loc (l + 1) p).isSome → v) :
    Maps fb c' (G.setCell l p u v) := by
  refine ⟨h.root, h.bound, h.inj, by rw [hbit]; exact h.bit, fun {l' q' id' i} hl hi => ?_,
    fun {l' p'} hvalid => ?_, fun {l' p'} hc => ?_, fun {l' p'} hus => ?_⟩
  · rw [setCell_loc] at hl
    rw [hslot hi, setCell_use, setCell_valid, setCell_loc]
    by_cases hlp : l' = l ∧ 512 * q' + i = p
    · obtain ⟨rfl, rfl⟩ := hlp
      have hq : (512 * q' + i) / 512 = q' := by omega
      rw [hq, hl, Option.some.injEq] at hloc
      simpa [hloc, show (512 * q' + i) % 512 = i by omega] using hnd
    rw [if_neg, set2_ne hlp, set2_ne hlp]
    · exact h.node hl hi
    · rintro ⟨rfl, rfl⟩
      obtain ⟨rfl, rfl⟩ := h.inj hloc hl
      exact hlp ⟨rfl, by omega⟩
  · rw [setCell_valid] at hvalid
    rw [setCell_loc]
    by_cases hlp : l' = l ∧ p' = p
    · obtain ⟨rfl, rfl⟩ := hlp; rw [hloc]; rfl
    · rw [set2_ne hlp] at hvalid; exact h.placed hvalid
  · rw [setCell_loc] at hc
    rw [setCell_valid]
    by_cases hlp : l' = l ∧ p' = p
    · obtain ⟨rfl, rfl⟩ := hlp; rw [set2_self]; exact hv hc
    · rw [set2_ne hlp]; exact h.child hc
  · rw [setCell_use] at hus
    rw [setCell_valid]
    by_cases hlp : l' = l ∧ p' = p
    · obtain ⟨rfl, rfl⟩ := hlp; rw [set2_self] at hus ⊢; exact hu hus
    · rw [set2_ne hlp] at hus ⊢; exact h.used hus

theorem not_valid_of_loc (h : Maps fb c G) (hloc : G.loc l (p / 512) = none) : G.valid l p = false := by
  by_contra hv
  have := h.placed (l := l) (p := p) (by simpa using hv)
  rw [hloc] at this; cases this

theorem openBlock {id' : Nat} (h : Maps fb c G) (nd : TableNode) (hloc : G.loc l (p / 512) = some id)
    (hnone : G.loc (l + 1) p = none) (hvalid : G.valid l p) (hl : l + 1 ≤ 3)
    (hid : id' < 2048) (hfree : c.levelBlockBitmap id' = false)
    (hzero : ∀ i, i < 512 → c.slot id' i = .zero)
    (hbit : c'.levelBlockBitmap = setBit c.levelBlockBitmap id' true)
    (hslot : ∀ {k i}, i < 512 → c'.slot k i = if k = id ∧ i = p % 512 then nd else c.slot k i)
    (hnd : NodeRep fb l p (G.use l p) true (some id') nd) : Maps fb c' (G.setLoc (l + 1) p (some id')) := by
  have hfresh : ∀ {l q}, G.loc l q ≠ some id' := fun {l q} hc => by
    have := h.bit.mpr ⟨l, q, hc⟩
    rw [hfree] at this; cases this
  have hid' : id' ≠ id := fun he => hfresh (he ▸ hloc)
  refine ⟨?_, fun {l' q' k} hk => ?_, fun {l1 q1 l2 q2 k} h1 h2 => ?_, fun {k} => ?_,
    fun {l' q' k i} hk hi => ?_, fun {l' p'} hv => ?_, fun {l' p'} hc => ?_, h.used⟩
  · rw [setLoc_loc, set2_ne (by omega)]; exact h.root
  · by_cases hlp : l' = l + 1 ∧ q' = p
    · obtain ⟨rfl, rfl⟩ := hlp
      simp only [setLoc_loc, set2_self, Option.some.injEq] at hk
      exact ⟨hk ▸ hid, hl, by omega⟩
    · simp only [setLoc_loc, set2_ne hlp] at hk; exact h.bound hk
  · by_cases hlp1 : l1 = l + 1 ∧ q1 = p <;> by_cases hlp2 : l2 = l + 1 ∧ q2 = p
    · exact ⟨hlp2.1.trans hlp1.1.symm, hlp2.2.trans hlp1.2.symm⟩
    · obtain ⟨rfl, rfl⟩ := hlp1
      simp only [setLoc_loc, set2_self, set2_ne hlp2, Option.some.injEq] at h1 h2
      exact absurd (h1 ▸ h2) hfresh
    · obtain ⟨rfl, rfl⟩ := hlp2
      simp only [setLoc_loc, set2_self, set2_ne hlp1, Option.some.injEq] at h1 h2
      exact absurd (h2 ▸ h1) hfresh
    · simp only [setLoc_loc, set2_ne hlp1, set2_ne hlp2] at h1 h2; exact h.inj h1 h2
  · rw [hbit]
    by_cases hk : k = id'
    · subst hk
      simp only [setBit, if_true, true_iff]
      exact ⟨l + 1, p, set2_self ..⟩
    simp only [setBit, hk, if_false, h.bit]
    constructor
    · rintro ⟨l', q', hlq⟩
      refine ⟨l', q', (set2_ne fun hlp => ?_).trans hlq⟩
      rw [hlp.1, hlp.2, hnone] at hlq; cases hlq
    rintro ⟨l', q', hlq⟩
    by_cases hlp : l' = l + 1 ∧ q' = p
    · obtain ⟨rfl, rfl⟩ := hlp
      simp only [setLoc_loc, set2_self, Option.some.injEq] at hlq
      exact absurd hlq.symm hk
    · simp only [setLoc_loc, set2_ne hlp] at hlq; exact ⟨l', q', hlq⟩
  · rw [hslot hi]
    by_cases hlq : l' = l + 1 ∧ q' = p
    · -- the new block: all its nodes are invalid and zero
      obtain ⟨rfl, rfl⟩ := hlq
      simp only [setLoc_loc, set2_self, Option.some.injEq] at hk
      subst hk
      have hv : G.valid (l + 1) (512 * q' + i) = false :=
        h.not_valid_of_loc (by rw [show (512 * q' + i) / 512 = q' by omega]; exact hnone)
      rw [if_neg (by tauto), hzero i hi]
      simp only [setLoc_valid, hv]
      exact ⟨fun _ => rfl, by simp, by simp, by simp, by simp⟩
    simp only [setLoc_loc, set2_ne hlq] at hk
    by_cases hlp : l' = l ∧ 512 * q' + i = p
    · obtain ⟨rfl, rfl⟩ := hlp
      have hq : (512 * q' + i) / 512 = q' := by omega
      rw [hq, hk, Option.some.injEq] at hloc
      rw [if_pos ⟨hloc, by omega⟩]
      simpa [setLoc_loc, hvalid] using hnd
    rw [if_neg]
    · simp only [setLoc_use, setLoc_valid, setLoc_loc]
      rw [set2_ne (by omega)]
      exact h.node hk hi
    · rintro ⟨rfl, rfl⟩
      obtain ⟨rfl, rfl⟩ := h.inj hloc hk
      exact hlp ⟨rfl, by omega⟩
  · have := h.placed hv
    by_cases hlp : l' = l + 1 ∧ p' / 512 = p
    · rw [hlp.1, hlp.2]; simp
    · simpa only [setLoc_loc, set2_ne hlp] using this
  · by_cases hlp : l' + 1 = l + 1 ∧ p' = p
    · obtain ⟨h1, rfl⟩ := hlp
      obtain rfl : l' = l := by omega
      exact hvalid
    · simp only [setLoc_loc, set2_ne hlp] at hc; exact h.child hc

theorem closeBlock {pid : Nat} (h : Maps fb c G) (nd : TableNode) (hpid : G.loc l (p / 512) = some pid)
    (hloc : G.loc (l + 1) p = some id) (hbare : G.Bare (l + 1) p)
    (hbit : c'.levelBlockBitmap = setBit c.levelBlockBitmap id false)
    (hslot : ∀ {k i}, i < 512 → c'.slot k i = if k = pid ∧ i = p % 512 then nd else c.slot k i)
    (hnd : NodeRep fb l p (G.use l p) true none nd) : Maps fb c' (G.setLoc (l + 1) p none) := by
  have hvalid := h.child (l := l) (p := p) (by rw [hloc]; rfl)
  refine ⟨by rw [setLoc_loc, set2_ne (by omega)]; exact h.root, fun {l' q' k} hk => ?_,
    fun {l1 q1 l2 q2 k} h1 h2 => ?_, fun {k} => ?_, fun {l' q' k i} hk hi => ?_,
    fun {l' p'} hv => ?_, fun {l' p'} hc => ?_, h.used⟩
  · by_cases hlp : l' = l + 1 ∧ q' = p
    · obtain ⟨rfl, rfl⟩ := hlp; simp at hk
    · simp only [setLoc_loc, set2_ne hlp] at hk; exact h.bound hk
  · by_cases hlp1 : l1 = l + 1 ∧ q1 = p
    · obtain ⟨rfl, rfl⟩ := hlp1; simp at h1
    by_cases hlp2 : l2 = l + 1 ∧ q2 = p
    · obtain ⟨rfl, rfl⟩ := hlp2; simp at h2
    · simp only [setLoc_loc, set2_ne hlp1, set2_ne hlp2] at h1 h2; exact h.inj h1 h2
  · rw [hbit]
    by_cases hk : k = id
    · subst hk
      simp only [setBit, if_true, Bool.false_eq_true, false_iff]
      rintro ⟨l', q', hlq⟩
      by_cases hlp : l' = l + 1 ∧ q' = p
      · obtain ⟨rfl, rfl⟩ := hlp; simp at hlq
      · simp only [setLoc_loc, set2_ne hlp] at hlq; exact hlp (h.inj hloc hlq)
    simp only [setBit, hk, if_false, h.bit]
    constructor
    · rintro ⟨l', q', hlq⟩
      refine ⟨l', q', (set2_ne fun hlp => hk ?_).trans hlq⟩
      rw [hlp.1, hlp.2, hloc] at hlq
      exact (Option.some.inj hlq).symm
    · rintro ⟨l', q', hlq⟩
      by_cases hlp : l' = l + 1 ∧ q' = p
      · obtain ⟨rfl, rfl⟩ := hlp; simp at hlq
      · simp only [setLoc_loc, set2_ne hlp] at hlq; exact ⟨l', q', hlq⟩
  · by_cases hlq : l' = l + 1 ∧ q' = p
    · obtain ⟨rfl, rfl⟩ := hlq; simp at hk
    simp only [setLoc_loc, set2_ne hlq] at hk
    rw [hslot hi]
    by_cases hlp : l' = l ∧ 512 * q' + i = p
    · obtain ⟨rfl, rfl⟩ := hlp
      have hq : (512 * q' + i) / 512 = q' := by omega
      rw [hq, hk, Option.some.injEq] at hpid
      rw [if_pos ⟨hpid, by omega⟩]
      simpa [setLoc_loc, hvalid] using hnd
    rw [if_neg]
    · simp only [setLoc_use, setLoc_valid, setLoc_loc]
      rw [set2_ne (by omega)]
      exact h.node hk hi
    · rintro ⟨rfl, rfl⟩
      obtain ⟨rfl, rfl⟩ := h.inj hpid hk
      exact hlp ⟨rfl, by omega⟩
  · have := h.placed hv
    by_cases hlp : l' = l + 1 ∧ p' / 512 = p
    · obtain ⟨rfl, rfl⟩ := hlp
      have := hbare (p' % 512) (Nat.mod_lt _ (by omega))
      rw [show 512 * (p' / 512) + p' % 512 = p' by omega] at this
      exact absurd (this.symm.trans hv) Bool.false_ne_true
    · simpa only [setLoc_loc, set2_ne hlp] using this
  · by_cases hlp : l' + 1 = l + 1 ∧ p' = p
    · obtain ⟨h1, rfl⟩ := hlp
      simp only [setLoc_loc, h1, set2_self] at hc; cases hc
    · simp only [setLoc_loc, set2_ne hlp] at hc; exact h.child hc

end Maps

end UbDkms.Mapt
