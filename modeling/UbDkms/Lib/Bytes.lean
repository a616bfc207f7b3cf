import Mathlib.Tactic

/-!
# Bytes of a 32-bit word

`pack f n` is the little-endian word of the bytes `f 0 .. f (n - 1)`, the rest zero;
`byteOf x i` is byte `i` of a word.
-/

namespace UbDkms.Lib

def pack (f : Nat → BitVec 8) : Nat → BitVec 32
  | 0 => 0
  | n + 1 => pack f n ||| ((f n).setWidth 32 <<< (8 * n))

def byteOf (x : BitVec 32) (i : Nat) : BitVec 8 := (x >>> (8 * i)).setWidth 8

theorem pack_getLsbD (f : Nat → BitVec 8) {i j : Nat} (hi : i < 4) (hj : j < 8) (n : Nat) :
    (pack f n).getLsbD (8 * i + j) = (decide (i < n) && (f i).getLsbD j) := by
  induction n with
  | zero => simp [pack]
  | succ n ih =>
    unfold pack
    rw [BitVec.getLsbD_or, ih, BitVec.getLsbD_shiftLeft, BitVec.getLsbD_setWidth]
    rcases Nat.lt_trichotomy i n with h | h | h
    · have h1 : 8 * i + j < 8 * n := by omega
      simp [h1, h, Nat.lt_succ_of_lt h]
    · subst h
      have h1 : 8 * i + j < 32 := by omega
      have h2 : j < 32 := by omega
      simp [h1, h2]
    have h1 : ¬ i < n := by omega
    have h2 : ¬ i < n + 1 := by omega
    have h3 : (f n).getLsbD (8 * i + j - 8 * n) = false := BitVec.getLsbD_of_ge _ _ (by omega)
    simp [h1, h2, h3]

theorem byteOf_getLsbD (x : BitVec 32) (i : Nat) {j : Nat} (hj : j < 8) :
    (byteOf x i).getLsbD j = x.getLsbD (8 * i + j) := by
  unfold byteOf
  rw [BitVec.getLsbD_setWidth, BitVec.getLsbD_ushiftRight]
  simp [hj]

theorem byteOf_pack (f : Nat → BitVec 8) {i : Nat} (hi : i < 4) (n : Nat) :
    byteOf (pack f n) i = if i < n then f i else 0 := by
  refine BitVec.eq_of_getLsbD_eq fun j hj => ?_
  rw [byteOf_getLsbD _ _ hj, pack_getLsbD f hi hj]
  by_cases h : i < n
  · simp [h]
  · simp [h]

@[simp] theorem byteOf_and (x y : BitVec 32) (i : Nat) :
    byteOf (x &&& y) i = byteOf x i &&& byteOf y i := by
  refine BitVec.eq_of_getLsbD_eq fun j hj => ?_
  rw [byteOf_getLsbD _ _ hj, BitVec.getLsbD_and, BitVec.getLsbD_and, byteOf_getLsbD _ _ hj,
    byteOf_getLsbD _ _ hj]

@[simp] theorem byteOf_or (x y : BitVec 32) (i : Nat) :
    byteOf (x ||| y) i = byteOf x i ||| byteOf y i := by
  refine BitVec.eq_of_getLsbD_eq fun j hj => ?_
  rw [byteOf_getLsbD _ _ hj, BitVec.getLsbD_or, BitVec.getLsbD_or, byteOf_getLsbD _ _ hj,
    byteOf_getLsbD _ _ hj]

theorem byteOf_not (x : BitVec 32) {i : Nat} (hi : i < 4) : byteOf (~~~x) i = ~~~byteOf x i := by
  refine BitVec.eq_of_getLsbD_eq fun j hj => ?_
  have h : 8 * i + j < 32 := by omega
  rw [byteOf_getLsbD _ _ hj, BitVec.getLsbD_not, BitVec.getLsbD_not, byteOf_getLsbD _ _ hj,
    decide_eq_true h, decide_eq_true hj]

@[simp] theorem byteOf_zero (i : Nat) : byteOf 0 i = 0 := by simp [byteOf]

theorem pack_eq_zero (f : Nat → BitVec 8) {n : Nat} (hn : n ≤ 4) :
    pack f n = 0 ↔ ∀ i < n, f i = 0 := by
  constructor
  · intro h i hi
    have := byteOf_pack f (show i < 4 by omega) n
    rw [h, if_pos hi, byteOf_zero] at this
    exact this.symm
  intro h
  clear hn
  induction n with
  | zero => rfl
  | succ n ih =>
    unfold pack
    rw [ih fun i hi => h i (by omega), h n (by omega)]
    simp

end UbDkms.Lib
