import UbDkms.Errno
import Mathlib.Data.Fintype.Pi
import Mathlib.Tactic

/-!
# The Patricia tries

`ubcore_eid_trie.c` and `ubcore_host_trie.c` are one text over two value types.
A trie is `NULL`, a leaf or an internal node; the pointer the C code replaces
(`trie->root` or `parent->child[p_bit]`) is the result of the recursive call.
Writers hold the trie's lock, so an operation is one step.
-/

namespace UbDkms.Ubcore

abbrev Eid := Fin 16 → UInt8

def Eid.raw (a : Eid) (i : Nat) : UInt8 := if h : i < 16 then a ⟨i, h⟩ else 0

/-- `ubcore_eid_get_bit`: bit `n`, bit 0 the most significant. -/
def eidGetBit (a : Eid) (n : Nat) : Bool := (a.raw (n / 8)).toNat.testBit (7 - n % 8)

/-- `ubcore_eid_diff_bit`: the first bit of the first byte that differs. -/
def eidDiffBit (a b : Eid) : Nat :=
  match (List.range 16).find? fun i => a.raw i != b.raw i with
  | none => 128
  | some i =>
    match (List.range 8).find? fun j => (a.raw i ^^^ b.raw i).toNat.testBit (7 - j) with
    | none => 128
    | some j => i * 8 + j

/-- `struct ubcore_eid_trie_node`, or `NULL`; `is_leaf` is the constructor. -/
inductive Trie (V : Type) where
  | null
  | leaf (pfx : Eid) (prefixLen : Nat) (value : V)
  | internal (pfx : Eid) (prefixLen : Nat) (child0 child1 : Trie V)

namespace Trie

variable {V : Type}

/-- `ubcore_eid_trie_lookup`; `none` is `-ENOENT`. -/
def lookup (key : Eid) : Trie V → Option V
  | null => none
  | leaf pfx len value => if eidDiffBit key pfx < len then none else some value
  | internal pfx len child0 child1 =>
    if eidDiffBit key pfx < len then none
    else if eidGetBit key len then lookup key child1 else lookup key child0

/-- A new internal node over `node`, whose prefix is `pfx`, and a new leaf. The leaf is
assigned last. -/
def split (key : Eid) (value : V) (pfx : Eid) (node : Trie V) : Trie V :=
  let diff := eidDiffBit key pfx
  let newLeaf := leaf key 128 value
  let child (b : Bool) : Trie V :=
    if b = eidGetBit key diff then newLeaf else if b = eidGetBit pfx diff then node else null
  internal key diff (child false) (child true)

/-- The walk of an insertion, the leaf being allocated; `alloc` is the outcome of the
second allocation, of the updated leaf or of the internal node. `none` is `-ENOMEM`. -/
def insertAt (key : Eid) (value : V) (alloc : Bool) : Trie V → Option (Trie V)
  | null => some (leaf key 128 value)
  | leaf pfx len old =>
    if alloc = false then none
    else if eidDiffBit key pfx < len then some (split key value pfx (leaf pfx len old))
    else some (leaf pfx len value)
  | internal pfx len child0 child1 =>
    if eidDiffBit key pfx < len then
      if alloc = false then none
      else some (split key value pfx (internal pfx len child0 child1))
    else if eidGetBit key len then
      match insertAt key value alloc child1 with
      | none => none
      | some t => some (internal pfx len child0 t)
    else
      match insertAt key value alloc child0 with
      | none => none
      | some t => some (internal pfx len t child1)

/-- `ubcore_eid_trie_insert`; `leafOk` and `nodeOk` are the outcomes of its allocations. -/
def insert (t : Trie V) (key : Eid) (value : V) (leafOk nodeOk : Bool) : Ret × Trie V :=
  if leafOk = false then (some .enomem, t)
  else
    match insertAt key value nodeOk t with
    | none => (some .enomem, t)
    | some t' => (none, t')

def isLeaf : Trie V → Bool
  | leaf .. => true
  | _ => false

/-- The walk of a deletion. A leaf goes with its parent, which its sibling replaces;
`none` is `-ENOENT`. -/
def deleteAt (key : Eid) : Trie V → Option (Trie V)
  | null => none
  | leaf pfx len _ => if eidDiffBit key pfx < len then none else some null
  | internal pfx len child0 child1 =>
    if eidDiffBit key pfx < len then none
    else if eidGetBit key len then
      match deleteAt key child1 with
      | none => none
      | some t => some (if child1.isLeaf then child0 else internal pfx len child0 t)
    else
      match deleteAt key child0 with
      | none => none
      | some t => some (if child0.isLeaf then child1 else internal pfx len t child1)

/-- `ubcore_eid_trie_delete`. -/
def delete (t : Trie V) (key : Eid) : Ret × Trie V :=
  match deleteAt key t with
  | none => (some .enoent, t)
  | some t' => (none, t')

end Trie

/-! ## Bits of keys -/

section Bits

variable {a b c : Eid} {n m : Nat}

def Agree (a b : Eid) (n : Nat) : Prop := ∀ i < n, eidGetBit a i = eidGetBit b i

instance : Decidable (Agree a b n) := inferInstanceAs (Decidable (∀ i < n, _))

theorem Agree.refl : Agree a a n := fun _ _ => rfl

theorem Agree.symm (h : Agree a b n) : Agree b a n := fun i hi => (h i hi).symm

theorem Agree.trans (h : Agree a b n) (h' : Agree b c n) : Agree a c n :=
  fun i hi => (h i hi).trans (h' i hi)

theorem Agree.mono (h : Agree a b n) (hm : m ≤ n) : Agree a b m := fun i hi => h i (by omega)

theorem raw_ext (h : ∀ i < 16, a.raw i = b.raw i) : a = b := by
  funext i
  have := h i i.isLt
  unfold Eid.raw at this
  rwa [dif_pos i.isLt, dif_pos i.isLt] at this

theorem byte_ext {x y : UInt8} (h : ∀ j < 8, x.toNat.testBit (7 - j) = y.toNat.testBit (7 - j)) :
    x = y := by
  refine UInt8.toNat_inj.mp (Nat.eq_of_testBit_eq fun k => ?_)
  rcases Nat.lt_or_ge k 8 with hk | hk
  · have := h (7 - k) (by omega)
    rwa [show 7 - (7 - k) = k by omega] at this
  · have hx : ∀ z : UInt8, z.toNat.testBit k = false := fun z =>
      Nat.testBit_lt_two_pow (Nat.lt_of_lt_of_le z.toNat_lt (Nat.pow_le_pow_right (by omega) hk))
    rw [hx, hx]

theorem eidGetBit_byte {i j : Nat} (hj : j < 8) :
    eidGetBit a (i * 8 + j) = (a.raw i).toNat.testBit (7 - j) := by
  unfold eidGetBit
  rw [show (i * 8 + j) / 8 = i by omega, show (i * 8 + j) % 8 = j by omega]

theorem agree_all (h : Agree a b 128) : a = b := by
  refine raw_ext fun i hi => byte_ext fun j hj => ?_
  rw [← eidGetBit_byte hj, ← eidGetBit_byte hj]
  exact h _ (by omega)

theorem xor_testBit {x y : UInt8} {k : Nat} :
    (x ^^^ y).toNat.testBit k = (x.toNat.testBit k != y.toNat.testBit k) := by
  rw [UInt8.toNat_xor, Nat.testBit_xor]

theorem eidDiffBit_spec (a b : Eid) :
    Agree a b (eidDiffBit a b) ∧ (eidDiffBit a b < 128 ∧
      eidGetBit a (eidDiffBit a b) ≠ eidGetBit b (eidDiffBit a b) ∨ eidDiffBit a b = 128) := by
  unfold eidDiffBit
  cases hi : (List.range 16).find? fun i => a.raw i != b.raw i with
  | none =>
    have hall : a = b := raw_ext fun i h16 => by
      simpa using List.find?_eq_none.mp hi i (List.mem_range.mpr h16)
    exact ⟨fun _ _ => by rw [hall], .inr rfl⟩
  | some i =>
    obtain ⟨hne, h16, hbefore⟩ := List.find?_range_eq_some.mp hi
    have h16 := List.mem_range.mp h16
    have hsame : ∀ i' < i, a.raw i' = b.raw i' := fun i' h => by simpa using hbefore i' h
    dsimp only
    cases hj : (List.range 8).find? fun j => (a.raw i ^^^ b.raw i).toNat.testBit (7 - j) with
    | none =>
      -- a byte that differs has a bit that differs
      have heq : a.raw i = b.raw i := byte_ext fun j h8 => by
        have := List.find?_eq_none.mp hj j (List.mem_range.mpr h8)
        simpa [xor_testBit] using this
      rw [heq] at hne
      simp at hne
    | some j =>
      obtain ⟨hbit, h8, hb⟩ := List.find?_range_eq_some.mp hj
      have h8 := List.mem_range.mp h8
      dsimp only
      refine ⟨fun n hn => ?_, .inl ⟨by omega, ?_⟩⟩
      · rw [show n = n / 8 * 8 + n % 8 by omega, eidGetBit_byte (by omega), eidGetBit_byte (by omega)]
        rcases Nat.lt_or_ge (n / 8) i with h | h
        · rw [hsame _ h]
        have heq : n / 8 = i := by omega
        have := hb (n % 8) (by omega)
        rw [heq]
        simpa [xor_testBit] using this
      · rw [eidGetBit_byte h8, eidGetBit_byte h8]
        simpa [xor_testBit] using hbit

theorem eidDiffBit_lt_iff (hn : n ≤ 128) : eidDiffBit a b < n ↔ ¬Agree a b n := by
  obtain ⟨hag, hd⟩ := eidDiffBit_spec a b
  constructor
  · intro hlt hc
    rcases hd with ⟨-, hne⟩ | h128
    · exact hne (hc _ hlt)
    · omega
  · intro hna
    by_contra hc
    exact hna (hag.mono (by omega))

end Bits

/-! ## Well-formed tries -/

namespace Trie

variable {V : Type} {t t' : Trie V} {key k p pfx : Eid} {v value : V} {len n : Nat} {bit : Bool}

def pfxOf : Trie V → Eid
  | null => fun _ => 0
  | leaf pfx .. => pfx
  | internal pfx .. => pfx

def lenOf : Trie V → Nat
  | null => 0
  | leaf _ len _ => len
  | internal _ len .. => len

/-- A child: longer than its parent, whose bits it continues with `bit`. -/
structure Extends (t : Trie V) (pfx : Eid) (len : Nat) (bit : Bool) : Prop where
  longer : len < t.lenOf
  agree : Agree t.pfxOf pfx len
  turn : eidGetBit t.pfxOf len = bit

/-- A trie below a non-`NULL` pointer. -/
def Wf : Trie V → Prop
  | null => False
  | leaf _ len _ => len = 128
  | internal pfx len child0 child1 =>
    (Wf child0 ∧ child0.Extends pfx len false) ∧ Wf child1 ∧ child1.Extends pfx len true

def RootWf (t : Trie V) : Prop := t = null ∨ t.Wf

theorem Wf.lenOf_le : ∀ {t : Trie V}, t.Wf → t.lenOf ≤ 128
  | leaf _ _ _, h => Nat.le_of_eq h
  | internal _ _ _ child1, h => by
    have h1 := h.2.2.longer
    have h2 := Wf.lenOf_le h.2.1
    exact Nat.le_of_lt (Nat.lt_of_lt_of_le h1 h2)

theorem lookup_leaf : lookup k (leaf pfx 128 v) = if k = pfx then some v else none := by
  unfold lookup
  by_cases h : k = pfx
  · rw [if_pos h, if_neg]
    rw [eidDiffBit_lt_iff (Nat.le_refl _), not_not, h]
    exact fun _ _ => rfl
  rw [if_neg h, if_pos]
  rw [eidDiffBit_lt_iff (Nat.le_refl _)]
  exact fun hc => h (agree_all hc)

def childFor (k : Eid) (len : Nat) (child0 child1 : Trie V) : Trie V :=
  if eidGetBit k len then child1 else child0

variable {child0 child1 : Trie V}

theorem lookup_internal (hlen : len ≤ 128) (h : Agree k pfx len) :
    lookup k (internal pfx len child0 child1) = lookup k (childFor k len child0 child1) := by
  rw [lookup, if_neg (by rw [eidDiffBit_lt_iff hlen, not_not]; exact h)]
  unfold childFor
  split <;> rfl

theorem lookup_of_not_agree (hwf : t.Wf) (h : ¬Agree k t.pfxOf t.lenOf) : lookup k t = none := by
  have hlt := (eidDiffBit_lt_iff hwf.lenOf_le).mpr h
  cases t with
  | null => rfl
  | leaf pfx len v | internal pfx len child0 child1 => exact if_pos hlt

theorem Extends.lookup_none (hx : t.Extends pfx len bit) (hwf : t.Wf)
    (h : ¬Agree k pfx len ∨ eidGetBit k len ≠ bit) : lookup k t = none := by
  refine lookup_of_not_agree hwf fun hc => ?_
  rcases h with h | h
  · exact h ((hc.mono (Nat.le_of_lt hx.longer)).trans hx.agree)
  · exact h ((hc len hx.longer).trans hx.turn)

theorem lookup_child (hwf : (internal pfx len child0 child1).Wf) :
    lookup k (internal pfx len child0 child1) =
      if Agree k pfx len then lookup k (childFor k len child0 child1) else none := by
  split
  · next h => exact lookup_internal hwf.lenOf_le h
  · next h => exact lookup_of_not_agree hwf h

/-! ## Insertion -/

structure Inserted (t t' : Trie V) (key : Eid) (value : V) : Prop where
  wf : t'.Wf
  lookup : ∀ k, t'.lookup k = if k = key then some value else t.lookup k
  child : ∀ {pfx len bit}, t.Extends pfx len bit → Agree key pfx len → eidGetBit key len = bit →
    t'.Extends pfx len bit

theorem split_eq (value : V) (h : eidGetBit key (eidDiffBit key pfx) ≠ eidGetBit pfx (eidDiffBit key pfx)) :
    split key value pfx t = if eidGetBit key (eidDiffBit key pfx)
      then internal key (eidDiffBit key pfx) t (leaf key 128 value)
      else internal key (eidDiffBit key pfx) (leaf key 128 value) t := by
  unfold split
  cases h1 : eidGetBit key (eidDiffBit key pfx) <;> cases h2 : eidGetBit pfx (eidDiffBit key pfx) <;>
    simp_all

theorem split_inserted (hwf : t.Wf) (h : eidDiffBit key t.pfxOf < t.lenOf) :
    Inserted t (split key value t.pfxOf t) key value := by
  obtain ⟨hag, ⟨hlt, hne⟩ | h128⟩ := eidDiffBit_spec key t.pfxOf
  · have hleaf : (leaf key 128 value).Extends key (eidDiffBit key t.pfxOf)
        (eidGetBit key (eidDiffBit key t.pfxOf)) := ⟨hlt, fun _ _ => rfl, rfl⟩
    have hnode : t.Extends key (eidDiffBit key t.pfxOf) (!eidGetBit key (eidDiffBit key t.pfxOf)) :=
      ⟨h, hag.symm, by revert hne; cases eidGetBit key _ <;> cases eidGetBit t.pfxOf _ <;> simp⟩
    have hsplit := split_eq (t := t) value hne
    have hwf' : (split key value t.pfxOf t).Wf := by
      rw [hsplit]
      split
      · next hb => rw [hb] at hleaf hnode; exact ⟨⟨hwf, hnode⟩, rfl, hleaf⟩
      · next hb => rw [Bool.not_eq_true] at hb; rw [hb] at hleaf hnode; exact ⟨⟨rfl, hleaf⟩, hwf, hnode⟩
    refine ⟨hwf', fun k => ?_, fun {pfx len bit} hx hk hbit => ?_⟩
    · -- on the way to the new leaf only the key itself is found, elsewhere the old node decides
      have hchild : (split key value t.pfxOf t).lookup k = if Agree k key (eidDiffBit key t.pfxOf) then
          (if eidGetBit k (eidDiffBit key t.pfxOf) = eidGetBit key (eidDiffBit key t.pfxOf)
            then (leaf key 128 value).lookup k else t.lookup k) else none := by
        rw [hsplit] at hwf' ⊢
        cases hb : eidGetBit key (eidDiffBit key t.pfxOf) <;> rw [hb] at hwf' <;>
          simp only [Bool.false_eq_true, if_false, if_true] at hwf' ⊢ <;>
          rw [lookup_child hwf'] <;> unfold childFor <;>
          cases eidGetBit k (eidDiffBit key t.pfxOf) <;> rfl
      rw [hchild, lookup_leaf]
      by_cases hkey : k = key
      · subst hkey
        rw [if_pos .refl, if_pos rfl, if_pos rfl, if_pos rfl]
      rw [if_neg hkey, if_neg hkey]
      split
      · split
        · next hb => rw [hnode.lookup_none hwf (.inr (by rw [hb]; cases eidGetBit key _ <;> simp))]
        · rfl
      · next hna => rw [hnode.lookup_none hwf (.inl hna)]
    · -- both the key and the old prefix take the turn, so they part below it
      have hlong : len < eidDiffBit key t.pfxOf := by
        by_contra hc
        rcases Nat.lt_or_eq_of_le (Nat.not_lt.mp hc) with hl | hl
        · exact hne ((hk _ hl).trans (hx.agree _ hl).symm)
        · exact hne (by rw [hl, hbit, hx.turn])
      have hout : (split key value t.pfxOf t).lenOf = eidDiffBit key t.pfxOf ∧
          (split key value t.pfxOf t).pfxOf = key := ⟨rfl, rfl⟩
      exact ⟨by rw [hout.1]; exact hlong, by rw [hout.2]; exact hk, by rw [hout.2]; exact hbit⟩
  · exact absurd h (by have := hwf.lenOf_le; omega)

variable {c : Trie V}

theorem lookup_replaced {k : Eid}
    (hwf : (if eidGetBit key len then Trie.internal pfx len child0 c
      else Trie.internal pfx len c child1).Wf) :
    (if eidGetBit key len then Trie.internal pfx len child0 c
      else Trie.internal pfx len c child1).lookup k = if Agree k pfx len then
        (if eidGetBit k len = eidGetBit key len then c.lookup k
          else (childFor k len child0 child1).lookup k) else none := by
  cases hb : eidGetBit key len <;> rw [hb] at hwf <;>
    simp only [Bool.false_eq_true, if_false, if_true] at hwf ⊢ <;>
    rw [lookup_child hwf] <;> unfold childFor <;> cases eidGetBit k len <;> rfl

theorem Inserted.internal (hwf : (internal pfx len child0 child1).Wf)
    (hk : Agree key pfx len) (h : Inserted (childFor key len child0 child1) c key value) :
    Inserted (internal pfx len child0 child1)
      (if eidGetBit key len then internal pfx len child0 c else internal pfx len c child1)
      key value := by
  have hwf' : (if eidGetBit key len then Trie.internal pfx len child0 c
      else Trie.internal pfx len c child1).Wf := by
    unfold childFor at h
    split
    · next hb =>
      rw [if_pos hb] at h
      exact ⟨hwf.1, h.wf, h.child hwf.2.2 hk hb⟩
    next hb =>
    rw [if_neg hb] at h
    exact ⟨⟨h.wf, h.child hwf.1.2 hk (by simpa using hb)⟩, hwf.2⟩
  refine ⟨hwf', fun k => ?_, fun hx hk' hbit => ?_⟩
  · rw [lookup_replaced hwf', lookup_child hwf]
    by_cases hkey : k = key
    · subst hkey
      rw [if_pos hk, if_pos rfl, if_pos rfl, h.lookup, if_pos rfl]
    rw [if_neg hkey]
    split
    · split
      · next hb =>
        rw [h.lookup, if_neg hkey]
        unfold childFor
        rw [hb]
      · rfl
    · rfl
  · split <;> exact ⟨hx.longer, hx.agree, hx.turn⟩

theorem insertAt_inserted {alloc : Bool} : ∀ {t t' : Trie V}, t.Wf →
    insertAt key value alloc t = some t' → Inserted t t' key value
  | leaf pfx len old, t', hwf, h => by
    unfold insertAt at h
    split at h
    · cases h
    split at h
    · next hlt =>
      obtain rfl := Option.some.inj h
      exact split_inserted (t := leaf pfx len old) hwf hlt
    next hge =>
    obtain rfl := Option.some.inj h
    obtain rfl : len = 128 := hwf
    rw [eidDiffBit_lt_iff (Nat.le_refl _), not_not] at hge
    obtain rfl := agree_all hge
    refine ⟨rfl, fun k => ?_, fun hx _ _ => ⟨hx.longer, hx.agree, hx.turn⟩⟩
    rw [lookup_leaf, lookup_leaf]
    split <;> rfl
  | internal pfx len child0 child1, t', hwf, h => by
    unfold insertAt at h
    split at h
    · next hlt =>
      split at h
      · cases h
      · obtain rfl := Option.some.inj h
        exact split_inserted (t := internal pfx len child0 child1) hwf hlt
    next hge =>
    have hlen : len ≤ 128 := hwf.lenOf_le
    rw [eidDiffBit_lt_iff hlen, not_not] at hge
    split at h
    · next hb =>
      split at h
      · cases h
      next c hc =>
      obtain rfl := Option.some.inj h
      have := Inserted.internal hwf hge
        (by rw [childFor, if_pos hb]; exact insertAt_inserted hwf.2.1 hc)
      rwa [if_pos hb] at this
    next hb =>
    split at h
    · cases h
    next c hc =>
    obtain rfl := Option.some.inj h
    have := Inserted.internal hwf hge
      (by rw [childFor, if_neg hb]; exact insertAt_inserted hwf.1.1 hc)
    rwa [if_neg hb] at this

/-! ## Deletion -/

theorem deleteAt_none_iff : ∀ {t : Trie V}, deleteAt key t = none ↔ lookup key t = none
  | null => ⟨fun _ => rfl, fun _ => rfl⟩
  | leaf pfx len v => by
    unfold deleteAt lookup
    split
    · exact ⟨fun _ => rfl, fun _ => rfl⟩
    · exact ⟨nofun, nofun⟩
  | internal pfx len child0 child1 => by
    unfold deleteAt lookup
    split
    · exact ⟨fun _ => rfl, fun _ => rfl⟩
    split
    · rw [← deleteAt_none_iff]
      split
      · next h => rw [h]
      · next h => rw [h]; exact ⟨nofun, nofun⟩
    rw [← deleteAt_none_iff]
    split
    · next h => rw [h]
    · next h => rw [h]; exact ⟨nofun, nofun⟩

structure Deleted (t t' : Trie V) (key : Eid) : Prop where
  wf : t'.Wf
  lookup : ∀ k, t'.lookup k = if k = key then none else t.lookup k
  child : ∀ {pfx len bit}, t.Extends pfx len bit → t'.Extends pfx len bit

theorem lookup_of_deleted_leaf (hwf : t.Wf) (hl : t.isLeaf) (h : deleteAt key t = some t') :
    t' = null ∧ ∀ k, k ≠ key → t.lookup k = none := by
  cases t with
  | null | internal pfx len child0 child1 => cases hl
  | leaf pfx len v =>
    obtain rfl : len = 128 := hwf
    unfold deleteAt at h
    split at h
    · cases h
    next hge =>
    rw [eidDiffBit_lt_iff (Nat.le_refl _), not_not] at hge
    obtain rfl := agree_all hge
    refine ⟨(Option.some.inj h).symm, fun k hk => ?_⟩
    rw [lookup_leaf, if_neg hk]

theorem Deleted.sibling {sib : Trie V} (hwf : (internal pfx len child0 child1).Wf)
    (hs : sib = childFor key len child1 child0) (hk : Agree key pfx len)
    (hgone : ∀ k, k ≠ key → (childFor key len child0 child1).lookup k = none) :
    Deleted (internal pfx len child0 child1) sib key := by
  have hsib : sib.Wf ∧ sib.Extends pfx len (!eidGetBit key len) := by
    rw [hs]
    unfold childFor
    split
    · next hb => rw [hb]; exact hwf.1
    · next hb => rw [Bool.not_eq_true] at hb; rw [hb]; exact hwf.2
  refine ⟨hsib.1, fun k => ?_, fun {q n b} hx => ?_⟩
  · split
    · next hkey =>
      subst hkey
      exact hsib.2.lookup_none hsib.1 (.inr (by cases eidGetBit k len <;> simp))
    next hkey =>
    rw [lookup_child hwf]
    split
    · by_cases hb : eidGetBit k len = eidGetBit key len
      · have hnone : (childFor k len child0 child1).lookup k = none := by
          unfold childFor at hgone ⊢
          rw [hb]
          exact hgone k hkey
        rw [hnone]
        exact hsib.2.lookup_none hsib.1 (.inr (by rw [hb]; cases eidGetBit key len <;> simp))
      rw [hs]
      unfold childFor
      cases h1 : eidGetBit k len <;> cases h2 : eidGetBit key len <;> simp_all
    · next hna => exact hsib.2.lookup_none hsib.1 (.inl hna)
  · -- above the parent the sibling looks like the parent
    refine ⟨Nat.lt_trans hx.longer hsib.2.longer, ?_, ?_⟩
    · exact (hsib.2.agree.mono (Nat.le_of_lt hx.longer)).trans hx.agree
    · exact (hsib.2.agree _ hx.longer).trans hx.turn

theorem Deleted.internal (hwf : (internal pfx len child0 child1).Wf)
    (hk : Agree key pfx len) (h : Deleted (childFor key len child0 child1) c key) :
    Deleted (internal pfx len child0 child1)
      (if eidGetBit key len then internal pfx len child0 c else internal pfx len c child1) key := by
  have hwf' : (if eidGetBit key len then Trie.internal pfx len child0 c
      else Trie.internal pfx len c child1).Wf := by
    unfold childFor at h
    split
    · next hb =>
      rw [if_pos hb] at h
      exact ⟨hwf.1, h.wf, h.child hwf.2.2⟩
    next hb =>
    rw [if_neg hb] at h
    exact ⟨⟨h.wf, h.child hwf.1.2⟩, hwf.2⟩
  refine ⟨hwf', fun k => ?_, fun hx => ?_⟩
  · rw [lookup_replaced hwf', lookup_child hwf]
    by_cases hkey : k = key
    · subst hkey
      rw [if_pos hk, if_pos rfl, if_pos rfl, h.lookup, if_pos rfl]
    rw [if_neg hkey]
    split
    · split
      · next hb =>
        rw [h.lookup, if_neg hkey]
        unfold childFor
        rw [hb]
      · rfl
    · rfl
  · split <;> exact ⟨hx.longer, hx.agree, hx.turn⟩

theorem deleteAt_deleted : ∀ {t t' : Trie V}, t.Wf → t.isLeaf = false → deleteAt key t = some t' →
    Deleted t t' key
  | internal pfx len child0 child1, t', hwf, _, h => by
    unfold deleteAt at h
    split at h
    · cases h
    next hge =>
    have hlen : len ≤ 128 := hwf.lenOf_le
    rw [eidDiffBit_lt_iff hlen, not_not] at hge
    split at h
    · next hb =>
      split at h
      · cases h
      next c hc =>
      obtain rfl := Option.some.inj h
      split
      · next hl =>
        refine Deleted.sibling hwf (by rw [childFor, if_pos hb]) hge ?_
        rw [childFor, if_pos hb]
        exact (lookup_of_deleted_leaf hwf.2.1 hl hc).2
      next hl =>
      rw [Bool.not_eq_true] at hl
      have := Deleted.internal hwf hge
        (by rw [childFor, if_pos hb]; exact deleteAt_deleted hwf.2.1 hl hc)
      rwa [if_pos hb] at this
    next hb =>
    split at h
    · cases h
    next c hc =>
    obtain rfl := Option.some.inj h
    split
    · next hl =>
      refine Deleted.sibling hwf (by rw [childFor, if_neg hb]) hge ?_
      rw [childFor, if_neg hb]
      exact (lookup_of_deleted_leaf hwf.1.1 hl hc).2
    next hl =>
    rw [Bool.not_eq_true] at hl
    have := Deleted.internal hwf hge
      (by rw [childFor, if_neg hb]; exact deleteAt_deleted hwf.1.1 hl hc)
    rwa [if_neg hb] at this

/-! ## The tries as maps -/

theorem RootWf.insert {leafOk nodeOk : Bool} (h : t.RootWf)
    (hi : t.insert key value leafOk nodeOk = (none, t')) :
    t'.RootWf ∧ ∀ k, t'.lookup k = if k = key then some value else t.lookup k := by
  unfold Trie.insert at hi
  split at hi
  · cases hi
  split at hi
  · cases hi
  next t'' ht =>
  obtain rfl := (Prod.mk.inj hi).2
  rcases h with rfl | h
  · obtain rfl := Option.some.inj ht
    exact ⟨.inr rfl, fun k => lookup_leaf⟩
  · have := insertAt_inserted h ht
    exact ⟨.inr this.wf, this.lookup⟩

theorem insertAt_isSome (t : Trie V) : (insertAt key value true t).isSome := by
  induction t with
  | null => rfl
  | leaf pfx len old => by_cases h : eidDiffBit key pfx < len <;> simp [insertAt, h]
  | internal pfx len child0 child1 ih0 ih1 =>
    obtain ⟨t0, h0⟩ := Option.isSome_iff_exists.mp ih0
    obtain ⟨t1, h1⟩ := Option.isSome_iff_exists.mp ih1
    by_cases h : eidDiffBit key pfx < len <;> cases hb : eidGetBit key len <;>
      simp [insertAt, h, hb, h0, h1]

theorem insert_fail {leafOk nodeOk : Bool} {e : Errno}
    (h : (t.insert key value leafOk nodeOk).1 = some e) :
    t.insert key value leafOk nodeOk = (some .enomem, t) := by
  unfold Trie.insert at h ⊢
  split
  · rfl
  next hl =>
  rw [if_neg hl] at h
  cases ht : insertAt key value nodeOk t with
  | none => rfl
  | some t' => rw [ht] at h; cases h

theorem insert_allocs {leafOk nodeOk : Bool} (h : (t.insert key value leafOk nodeOk).1 ≠ none) :
    leafOk = false ∨ nodeOk = false := by
  by_contra hc
  obtain ⟨rfl, rfl⟩ : leafOk = true ∧ nodeOk = true := by simpa using hc
  obtain ⟨t', ht⟩ := Option.isSome_iff_exists.mp (@insertAt_isSome _ key value t)
  exact h (by simp [Trie.insert, ht])

theorem RootWf.delete (h : t.RootWf) (hd : t.delete key = (none, t')) :
    t'.RootWf ∧ ∀ k, t'.lookup k = if k = key then none else t.lookup k := by
  unfold Trie.delete at hd
  split at hd
  · cases hd
  next t'' ht =>
  obtain rfl := (Prod.mk.inj hd).2
  rcases h with rfl | h
  · cases ht
  cases hl : t.isLeaf with
  | true =>
    obtain ⟨rfl, hgone⟩ := lookup_of_deleted_leaf h hl ht
    refine ⟨.inl rfl, fun k => ?_⟩
    split
    · rfl
    · next hk => exact (hgone k hk).symm
  | false =>
    have := deleteAt_deleted h hl ht
    exact ⟨.inr this.wf, this.lookup⟩

theorem delete_fail_iff : (t.delete key).1 = some .enoent ↔ t.lookup key = none := by
  rw [← deleteAt_none_iff]
  unfold Trie.delete
  cases deleteAt key t with
  | none => exact ⟨fun _ => rfl, fun _ => rfl⟩
  | some t' => exact ⟨nofun, nofun⟩

theorem delete_fail {e : Errno} (h : (t.delete key).1 = some e) :
    t.delete key = (some .enoent, t) := by
  unfold Trie.delete at h ⊢
  cases hd : deleteAt key t with
  | none => rfl
  | some t' => rw [hd] at h; cases h

end Trie

/-! ## Sequences of calls -/

/-- The host trie's value, `struct ubcore_host_info`, over the type of the CNA. -/
structure HostInfo (NetAddr : Type) where
  eid : Eid
  cna : NetAddr

abbrev EidTrie := Trie Eid
abbrev HostTrie (NetAddr : Type) := Trie (HostInfo NetAddr)

inductive TrieOp (V : Type) where
  | insert (key : Eid) (value : V) (leafOk nodeOk : Bool)
  | delete (key : Eid)

/-- A trie and the calls made on it, the last one first, with their results. -/
structure Session (V : Type) where
  trie : Trie V
  log : List (TrieOp V × Ret)

section Session

variable {V : Type}

def Session.call (s : Session V) : TrieOp V → Ret × Trie V
  | .insert key value leafOk nodeOk => s.trie.insert key value leafOk nodeOk
  | .delete key => s.trie.delete key

def Session.next (s : Session V) (op : TrieOp V) : Session V :=
  ⟨(s.call op).2, (op, (s.call op).1) :: s.log⟩

def Session.run (ops : List (TrieOp V)) : Session V := ops.foldl Session.next ⟨.null, []⟩

/-- The value of the last successful insert of `key` that no successful delete follows. -/
def lastValue (key : Eid) : List (TrieOp V × Ret) → Option V
  | [] => none
  | (.insert k value _ _, none) :: log => if key = k then some value else lastValue key log
  | (.delete k, none) :: log => if key = k then none else lastValue key log
  | (_, some _) :: log => lastValue key log

def Session.Ok (s : Session V) : Prop :=
  s.trie.RootWf ∧ ∀ key, s.trie.lookup key = lastValue key s.log

theorem Session.Ok.next {s : Session V} (h : s.Ok) (op : TrieOp V) : (s.next op).Ok := by
  obtain ⟨hwf, hmap⟩ := h
  unfold Session.next Session.call
  cases op with
  | insert key value leafOk nodeOk =>
    dsimp only
    rcases hr : s.trie.insert key value leafOk nodeOk with ⟨_ | e, t⟩
    · obtain ⟨hwf', hlook⟩ := hwf.insert hr
      refine ⟨hwf', fun k => ?_⟩
      rw [hlook, hmap]
      rfl
    have := Trie.insert_fail (by rw [hr])
    obtain ⟨-, rfl⟩ := Prod.mk.inj (hr.symm.trans this)
    exact ⟨hwf, hmap⟩
  | delete key =>
    dsimp only
    rcases hr : s.trie.delete key with ⟨_ | e, t⟩
    · obtain ⟨hwf', hlook⟩ := hwf.delete hr
      refine ⟨hwf', fun k => ?_⟩
      rw [hlook, hmap]
      rfl
    have := Trie.delete_fail (by rw [hr])
    obtain ⟨-, rfl⟩ := Prod.mk.inj (hr.symm.trans this)
    exact ⟨hwf, hmap⟩

theorem Session.run_ok (ops : List (TrieOp V)) : (Session.run ops).Ok := by
  have hall : ∀ (ops : List (TrieOp V)) (s : Session V), s.Ok → (ops.foldl Session.next s).Ok := by
    intro ops
    induction ops with
    | nil => exact fun _ h => h
    | cons op ops ih => exact fun s h => ih _ (h.next op)
  exact hall ops _ ⟨.inl rfl, fun _ => rfl⟩

/-- After any calls: lookups are those of the map the successful calls describe, a call
that fails changes nothing and fails for want of memory or of the key, and every node
is well formed. -/
theorem trie_refines_map (ops : List (TrieOp V)) :
    (∀ key, (Session.run ops).trie.lookup key = lastValue key (Session.run ops).log) ∧
      (∀ key value leafOk nodeOk e,
        ((Session.run ops).trie.insert key value leafOk nodeOk).1 = some e →
          (Session.run ops).trie.insert key value leafOk nodeOk = (some .enomem, (Session.run ops).trie)) ∧
      (∀ key, ((Session.run ops).trie.delete key).1 = some .enoent ↔
        lastValue key (Session.run ops).log = none) ∧
      (∀ key e, ((Session.run ops).trie.delete key).1 = some e →
        (Session.run ops).trie.delete key = (some .enoent, (Session.run ops).trie)) ∧
      (Session.run ops).trie.RootWf := by
  obtain ⟨hwf, hmap⟩ := Session.run_ok ops
  refine ⟨hmap, fun _ _ _ _ _ h => Trie.insert_fail h, fun key => ?_, fun _ _ h => Trie.delete_fail h,
    hwf⟩
  rw [← hmap, Trie.delete_fail_iff]

end Session

end UbDkms.Ubcore
