import Mathlib.Data.Nat.ModEq
import Mathlib.Tactic.Ring

/-!
# Bit fields in an array of words

`getBits w lo n` is the field of `n` bits at bit `lo` of the word `w`, `setBits`
replaces it. A `Field` is such a field of a record laid out over several words
of a memory; two fields that lie apart do not disturb each other, and a list of
writes to fields apart leaves every value it wrote.
-/

namespace UbDkms.Lib

def getBits (w lo n : Nat) : Nat := w / 2 ^ lo % 2 ^ n

def setBits (w lo n v : Nat) : Nat :=
  (w / 2 ^ (lo + n) * 2 ^ n + v % 2 ^ n) * 2 ^ lo + w % 2 ^ lo

section Bits

variable {w lo n v lo' n' : Nat}

theorem setBits_div : setBits w lo n v / 2 ^ lo = w / 2 ^ (lo + n) * 2 ^ n + v % 2 ^ n := by
  have hpos := Nat.two_pow_pos lo
  rw [setBits, Nat.mul_comm, Nat.mul_add_div hpos, Nat.div_eq_of_lt (Nat.mod_lt _ hpos), Nat.add_zero]

theorem setBits_mod : setBits w lo n v % 2 ^ lo = w % 2 ^ lo := by
  rw [setBits, Nat.mul_comm, Nat.mul_add_mod, Nat.mod_mod]

theorem getBits_setBits : getBits (setBits w lo n v) lo n = v % 2 ^ n := by
  rw [getBits, setBits_div, Nat.mul_comm, Nat.mul_add_mod, Nat.mod_mod]

theorem getBits_mod (h : lo' + n' ≤ lo) : getBits (w % 2 ^ lo) lo' n' = getBits w lo' n' := by
  unfold getBits
  obtain ⟨k, rfl⟩ := Nat.exists_eq_add_of_le h
  rw [Nat.add_assoc, Nat.pow_add, Nat.mod_mul_right_div_self, Nat.pow_add, Nat.mod_mul_right_mod]

/-- A field is read off the bits from its start on. -/
theorem getBits_div (h : lo ≤ lo') : getBits w lo' n' = getBits (w / 2 ^ lo) (lo' - lo) n' := by
  unfold getBits
  rw [Nat.div_div_eq_div_mul, ← Nat.pow_add, Nat.add_sub_cancel' h]

theorem getBits_setBits_apart (h : lo + n ≤ lo' ∨ lo' + n' ≤ lo) :
    getBits (setBits w lo n v) lo' n' = getBits w lo' n' := by
  rcases h with h | h
  · have hdiv : setBits w lo n v / 2 ^ (lo + n) = w / 2 ^ (lo + n) := by
      rw [Nat.pow_add, ← Nat.div_div_eq_div_mul, setBits_div, ← Nat.pow_add, Nat.mul_comm,
        Nat.mul_add_div (Nat.two_pow_pos n), Nat.div_eq_of_lt (Nat.mod_lt _ (Nat.two_pow_pos n)),
        Nat.add_zero]
    rw [getBits_div h, hdiv, ← getBits_div h]
  · rw [← getBits_mod h, setBits_mod, getBits_mod h]

end Bits

/-! ## Records of fields -/

structure Field where
  word : Nat
  lo : Nat
  width : Nat
  deriving DecidableEq

namespace Field

variable {f g : Field} {m : Nat → Nat} {base v : Nat}

def get (f : Field) (m : Nat → Nat) (base : Nat) : Nat := getBits (m (base + f.word)) f.lo f.width

def set (f : Field) (m : Nat → Nat) (base v : Nat) : Nat → Nat :=
  fun w => if w = base + f.word then setBits (m w) f.lo f.width v else m w

def Apart (f g : Field) : Prop := f.word ≠ g.word ∨ f.lo + f.width ≤ g.lo ∨ g.lo + g.width ≤ f.lo

instance : Decidable (Apart f g) := inferInstanceAs (Decidable (_ ∨ _ ∨ _))

theorem get_set_self : f.get (f.set m base v) base = v % 2 ^ f.width := by
  rw [get, set, if_pos rfl, getBits_setBits]

theorem get_set_apart (h : f.Apart g) : g.get (f.set m base v) base = g.get m base := by
  unfold get set
  split
  · next heq =>
    rcases h with h | h
    · exact absurd (Nat.add_left_cancel heq).symm h
    · rw [getBits_setBits_apart h]
  · rfl

theorem set_other {w : Nat} (h : w ≠ base + f.word) : f.set m base v w = m w := if_neg h

end Field

def setAll (m : Nat → Nat) (base : Nat) : List (Field × Nat) → Nat → Nat
  | [] => m
  | (f, v) :: fs => setAll (f.set m base v) base fs

section SetAll

variable {m : Nat → Nat} {base : Nat} {f g : Field} {v : Nat}

theorem get_setAll_apart : ∀ {fs : List (Field × Nat)} {m : Nat → Nat},
    (∀ p ∈ fs, p.1.Apart g) → g.get (setAll m base fs) base = g.get m base
  | [], _, _ => rfl
  | (f, v) :: fs, m, h => by
    rw [setAll, get_setAll_apart fun p hp => h p (.tail _ hp)]
    exact Field.get_set_apart (h (f, v) List.mem_cons_self)

theorem get_setAll : ∀ {fs : List (Field × Nat)} {m : Nat → Nat},
    fs.Pairwise (fun p q => q.1.Apart p.1) → (f, v) ∈ fs →
      f.get (setAll m base fs) base = v % 2 ^ f.width
  | (g, u) :: fs, m, hp, hm => by
    obtain ⟨h1, h2⟩ := List.pairwise_cons.mp hp
    rw [setAll]
    rcases List.mem_cons.mp hm with heq | hm
    · obtain ⟨rfl, rfl⟩ := Prod.mk.inj heq
      rw [get_setAll_apart h1, Field.get_set_self]
    · exact get_setAll h2 hm

theorem setAll_other {w : Nat} : ∀ {fs : List (Field × Nat)} {m : Nat → Nat},
    (∀ p ∈ fs, w ≠ base + p.1.word) → setAll m base fs w = m w
  | [], _, _ => rfl
  | (f, v) :: fs, m, h => by
    rw [setAll, setAll_other fun p hp => h p (.tail _ hp)]
    exact Field.set_other (h (f, v) List.mem_cons_self)

end SetAll

end UbDkms.Lib
