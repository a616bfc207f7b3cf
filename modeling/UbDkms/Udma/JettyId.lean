import UbDkms.Lib.Reach
import Mathlib.Data.List.Count
import Mathlib.Tactic

/-!
# Jetty ids

`udma_common.c`, `udma_jetty.c` and `udma_jetty_group.c`: single jetties and groups
of 32 take their ids from one bitmap, in which a set bit is a free id. A search
starts where the last one ended and, if it finds nothing, once more at the first
id.

The ids are `u32`; an access outside the bitmap is a fault.
-/

namespace UbDkms.Udma

open Lib List

/-- The range of the bitmap, `bitmap_table->min` and `->max`. -/
structure IdRange where
  min : Nat
  max : Nat

namespace IdRange

variable (r : IdRange)

def nBits : Nat := (r.max + 1 - r.min) % 2 ^ 32

/-- `ALIGN(n_bits, NUM_JETTY_PER_GROUP) / NUM_JETTY_PER_GROUP`. -/
def bitmapCnt : Nat := (r.nBits + 31) % 2 ^ 32 / 32

def offset (id : Nat) : Nat := (id + 2 ^ 32 - r.min) % 2 ^ 32

end IdRange

/-- A loop that counts up from `i` while `p` holds, for at most `fuel` rounds. -/
def countUp (p : Nat → Bool) : Nat → Nat → Nat
  | 0, i => i
  | fuel + 1, i => if p i then countUp p fuel (i + 1) else i

/-- The bitmap as one row of bits: bit `b` of `bit[i]` is at `32 * i + b`. -/
abbrev Bits := Nat → Bool

def emptyFrom (free : Bits) (i b : Nat) : Bool :=
  (List.range 32).all fun x => decide (x < b) || !free (32 * i + x)

def fullWord (free : Bits) (i : Nat) : Bool := (List.range 32).all fun x => free (32 * i + x)

def setWord (free : Bits) (i : Nat) (v : Bool) (k : Nat) : Bool := if k / 32 = i then v else free k

inductive IdAlloc where
  | fault
  | none
  | id (start : Nat) (free : Bits)

/-- `udma_adv_id_alloc`. -/
def udmaAdvIdAlloc (r : IdRange) (free : Bits) (isGrp : Bool) (next : Nat) : IdAlloc :=
  let nextBlock := r.offset next / 32
  let nextBit := r.offset next % 32
  let cnt := r.bitmapCnt
  -- the second test of the loop reads `bit[next_block]` in any case
  if cnt ≤ nextBlock then .fault
  else
    let i := if emptyFrom free nextBlock nextBit
      then countUp (fun i => emptyFrom free i 0) (cnt - (nextBlock + 1)) (nextBlock + 1) else nextBlock
    if i = cnt then .none
    else if isGrp then
      let i := countUp (fun i => !fullWord free i) (cnt - i) i
      if i = cnt ∨ r.nBits < (i + 1) * 32 then .none
      else .id ((i * 32 + r.min) % 2 ^ 32) (setWord free i false)
    else
      let bit := countUp (fun b => !free (32 * i + b)) 32 (if i = nextBlock then nextBit else 0)
      .id ((r.min + i * 32 + bit) % 2 ^ 32) (Function.update free (32 * i + bit) false)

def allocTwice (r : IdRange) (free : Bits) (isGrp : Bool) (next : Nat) : IdAlloc :=
  match udmaAdvIdAlloc r free isGrp next with
  | .none => udmaAdvIdAlloc r free isGrp r.min
  | x => x

/-- The bitmap and where the next searches start; `singles` and `groups` are the ids of the live
jetties and the first ids of the live groups. -/
structure JettyIds where
  free : Bits
  nextIdx : Nat
  grpNext : Nat
  singles : List Nat
  groups : List Nat
  fault : Bool

/-- `udma_init_group_table`; `next_idx` of `caps.jetty` starts at the first id as well. -/
def JettyIds.init (r : IdRange) : JettyIds where
  free k := decide (k < r.nBits)
  nextIdx := r.min
  grpNext := r.min
  singles := []
  groups := []
  fault := false

inductive IdAct where
  /-- `udma_alloc_jetty_id` for `caps.jetty`. -/
  | alloc
  | specify (id : Nat)
  | free (id : Nat)
  /-- `udma_create_jetty_grp`, with the outcomes of its steps after the block was taken. -/
  | createGrp (idOk xaOk mboxOk : Bool)
  | deleteGrp (start : Nat) (mboxOk : Bool)

/-- `udma_adv_id_free`. -/
def udmaAdvIdFree (r : IdRange) (free : Bits) (id : Nat) (isGrp : Bool) : Bits :=
  let k := r.offset id
  if r.bitmapCnt ≤ k / 32 then free
  else if isGrp then setWord free (k / 32) true else Function.update free k true

def JettyIds.next (r : IdRange) (s : JettyIds) : IdAct → JettyIds
  | .alloc =>
    match allocTwice r s.free false s.nextIdx with
    | .fault => { s with fault := true }
    | .none => s
    | .id id free =>
      { s with
        free, singles := id :: s.singles
        nextIdx := if r.max < (id + 1) % 2 ^ 32 then r.min else (id + 1) % 2 ^ 32 }
  | .specify id =>
    -- the callers check the range
    if r.min ≤ id ∧ id ≤ r.max then
      if s.free (r.offset id) then
        { s with free := Function.update s.free (r.offset id) false, singles := id :: s.singles }
      else s
    else s
  | .free id =>
    if id ∈ s.singles then
      { s with free := udmaAdvIdFree r s.free id false, singles := s.singles.erase id }
    else s
  | .createGrp idOk xaOk mboxOk =>
    match allocTwice r s.free true s.grpNext with
    | .fault => { s with fault := true }
    | .none => s
    | .id start free =>
      let s := { s with
        free, grpNext := if r.max < (start + 32) % 2 ^ 32 then r.min else (start + 32) % 2 ^ 32 }
      if idOk = false then { s with free := udmaAdvIdFree r s.free start true }
      -- the two other error exits keep the block
      else if xaOk = false then s
      else if mboxOk = false then s
      else { s with groups := start :: s.groups }
  | .deleteGrp start mboxOk =>
    if start ∈ s.groups ∧ mboxOk = true then
      { s with free := udmaAdvIdFree r s.free start true, groups := s.groups.erase start }
    else s

/-! ## Searches -/

theorem countUp_spec (p : Nat → Bool) (fuel i : Nat) :
    i ≤ countUp p fuel i ∧ countUp p fuel i ≤ i + fuel ∧
    (∀ x, i ≤ x → x < countUp p fuel i → p x) ∧
    (countUp p fuel i < i + fuel → p (countUp p fuel i) = false) := by
  induction fuel generalizing i with
  | zero =>
    exact ⟨le_rfl, le_rfl, fun x h1 h2 => absurd h1 (Nat.not_le.mpr h2), fun h => absurd h (lt_irrefl _)⟩
  | succ fuel ih =>
    unfold countUp
    split
    · next hp =>
      obtain ⟨h1, h2, h3, h4⟩ := ih (i + 1)
      refine ⟨by omega, by omega, fun x hx1 hx2 => ?_, fun h => h4 (by omega)⟩
      by_cases hx : x = i
      · rw [hx]
        exact hp
      · exact h3 x (by omega) hx2
    · next hp =>
      refine ⟨le_rfl, Nat.le_add_right _ _, fun x h1 h2 => absurd h1 (Nat.not_le.mpr h2), fun _ => ?_⟩
      simpa using hp

theorem emptyFrom_iff {free : Bits} {i b : Nat} :
    emptyFrom free i b ↔ ∀ x, b ≤ x → x < 32 → free (32 * i + x) = false := by
  unfold emptyFrom
  rw [all_eq_true]
  constructor
  · intro h x hx1 hx2
    have := h x (mem_range.mpr hx2)
    simpa [Nat.not_lt.mpr hx1] using this
  · intro h x hx
    by_cases hb : x < b
    · simp [hb]
    · rw [h x (Nat.le_of_not_lt hb) (mem_range.mp hx)]
      simp

theorem fullWord_iff {free : Bits} {i : Nat} :
    fullWord free i ↔ ∀ x, x < 32 → free (32 * i + x) := by
  unfold fullWord
  rw [all_eq_true]
  exact ⟨fun h x hx => h x (mem_range.mpr hx), fun h x hx => h x (mem_range.mp hx)⟩

/-- A range of ids that leaves room for the sums of the code in a `u32`. -/
structure IdRange.Ok (r : IdRange) : Prop where
  le : r.min ≤ r.max
  lt : r.max + 32 < 2 ^ 32

section Alloc

variable {r : IdRange} {free : Bits} {next : Nat}

theorem IdRange.Ok.nBits_eq (h : r.Ok) : r.nBits = r.max + 1 - r.min := by
  have := h.lt
  unfold IdRange.nBits
  omega

theorem IdRange.Ok.bitmapCnt_spec (h : r.Ok) :
    r.nBits ≤ 32 * r.bitmapCnt ∧ 32 * r.bitmapCnt < r.nBits + 32 := by
  have h1 := h.nBits_eq
  have := h.lt
  unfold IdRange.bitmapCnt
  omega

theorem IdRange.Ok.offset_eq (h : r.Ok) {id : Nat} (h1 : r.min ≤ id) (h2 : id ≤ r.max) :
    r.offset id = id - r.min := by
  have := h.lt
  unfold IdRange.offset
  omega

def Tight (r : IdRange) (free : Bits) : Prop := ∀ k, r.nBits ≤ k → free k = false

/-- Where the first loop ends, and from which bit on a free one is looked for. -/
theorem skip_spec (free : Bits) {off cnt : Nat} (hoff : off / 32 < cnt) : ∃ i b,
    (if emptyFrom free (off / 32) (off % 32) = true then
      countUp (fun i => emptyFrom free i 0) (cnt - (off / 32 + 1)) (off / 32 + 1) else off / 32) = i ∧ i ≤ cnt ∧
    (∀ k, off ≤ k → k < 32 * i + b → free k = false) ∧
    b = (if i = off / 32 then off % 32 else 0) ∧ b < 32 ∧ (i < cnt → emptyFrom free i b = false) := by
  split
  · next hempty =>
    obtain ⟨h1, h2, h3, h4⟩ := countUp_spec (fun i => emptyFrom free i 0) (cnt - (off / 32 + 1)) (off / 32 + 1)
    refine ⟨_, 0, rfl, by omega, fun k hk1 hk2 => ?_, ?_, by omega, fun hlt => h4 (by omega)⟩
    · by_cases hk : k / 32 = off / 32
      · have := emptyFrom_iff.mp hempty (k % 32) (by omega) (by omega)
        rwa [← hk, Nat.div_add_mod] at this
      · have := emptyFrom_iff.mp (h3 (k / 32) (by omega) (by omega)) (k % 32) (by omega) (by omega)
        rwa [Nat.div_add_mod] at this
    · rw [if_neg (by omega)]
  · next hempty =>
    refine ⟨_, off % 32, rfl, by omega, fun k hk1 hk2 => by omega, ?_, by omega, fun _ => ?_⟩
    · rw [if_pos rfl]
    · simpa using hempty

variable (h : r.Ok) (ht : Tight r free) (h1 : r.min ≤ next) (h2 : next ≤ r.max)
include h ht h1 h2

/-- A search for one id that starts in the range finds the next free one, if there is any. -/
theorem alloc_single :
    (udmaAdvIdAlloc r free false next = .none ∧ ∀ k, next - r.min ≤ k → free k = false) ∨
    ∃ k, free k ∧ udmaAdvIdAlloc r free false next = .id (r.min + k) (Function.update free k false) := by
  obtain ⟨hc1, hc2⟩ := h.bitmapCnt_spec
  have hn := h.nBits_eq
  have hoff := h.offset_eq h1 h2
  have hlt := h.lt
  have hle := h.le
  unfold udmaAdvIdAlloc
  rw [hoff]
  dsimp only
  generalize hcnt : r.bitmapCnt = cnt at hc1 hc2
  generalize hnb : r.nBits = n at hc1 hc2 hn
  rw [if_neg (by omega)]
  obtain ⟨i, b, hi, hcntle, hskip, hfound⟩ := skip_spec free (show (next - r.min) / 32 < cnt by omega)
  obtain ⟨hb, hb32, hfound⟩ := hfound
  rw [hi]
  by_cases hend : i = cnt
  · left
    rw [if_pos hend]
    refine ⟨rfl, fun k hk => ?_⟩
    by_cases hlast : k < 32 * i + b
    · exact hskip k hk hlast
    · exact ht k (by omega)
  right
  rw [if_neg hend, if_neg Bool.false_ne_true, ← hb]
  obtain ⟨g1, g2, g3, g4⟩ := countUp_spec (fun b => !free (32 * i + b)) 32 b
  generalize countUp (fun b => !free (32 * i + b)) 32 b = x at g1 g2 g3 g4
  -- the word has a free bit at `b` or above, and the search stops there
  have hne := hfound (by omega)
  obtain ⟨y, hy1, hy2, hy3⟩ : ∃ y, b ≤ y ∧ y < 32 ∧ free (32 * i + y) = true := by
    by_contra hno
    rw [emptyFrom_iff.mpr fun y hy1 hy2 => by
      by_contra hy
      exact hno ⟨y, hy1, hy2, by simpa using hy⟩] at hne
    cases hne
  have hxy : x ≤ y := by
    by_contra hlt
    have := g3 y hy1 (by omega)
    rw [hy3] at this
    cases this
  have hx : free (32 * i + x) := by simpa using g4 (by omega)
  refine ⟨32 * i + x, hx, ?_⟩
  have hin : 32 * i + x < n := by
    by_contra hout
    rw [ht _ (by omega)] at hx
    cases hx
  rw [Nat.mod_eq_of_lt (by omega), Nat.mul_comm i 32, Nat.add_assoc]

/-- A search for a block finds one that is entirely free, if there is any from the start on. -/
theorem alloc_group :
    (udmaAdvIdAlloc r free true next = .none ∧
      ∀ i, (next - r.min + 31) / 32 ≤ i → ∃ b, b < 32 ∧ free (32 * i + b) = false) ∨
    ∃ i, (∀ b, b < 32 → free (32 * i + b)) ∧ 32 * i + 32 ≤ r.nBits ∧
      udmaAdvIdAlloc r free true next = .id (r.min + 32 * i) (setWord free i false) := by
  obtain ⟨hc1, hc2⟩ := h.bitmapCnt_spec
  have hn := h.nBits_eq
  have hoff := h.offset_eq h1 h2
  have hlt := h.lt
  have hle := h.le
  have hbeyond : ∀ i, r.bitmapCnt ≤ i → ∃ b, b < 32 ∧ free (32 * i + b) = false :=
    fun i hi => ⟨0, by omega, ht _ (by omega)⟩
  unfold udmaAdvIdAlloc
  rw [hoff]
  dsimp only
  generalize hcnt : r.bitmapCnt = cnt at hc1 hc2 hbeyond
  rw [if_neg (by omega)]
  obtain ⟨i, b₀, hi, hige, hfirst, -⟩ := skip_spec free (show (next - r.min) / 32 < cnt by omega)
  have hskip : ∀ x, (next - r.min + 31) / 32 ≤ x → x < i → ∃ b, b < 32 ∧ free (32 * x + b) = false :=
    fun x hx1 hx2 => ⟨0, by omega, hfirst (32 * x) (by omega) (by omega)⟩
  rw [hi]
  by_cases hend : i = cnt
  · left
    rw [if_pos hend]
    refine ⟨rfl, fun x hx => ?_⟩
    by_cases hxc : x < i
    · exact hskip x hx hxc
    · exact hbeyond x (by omega)
  rw [if_neg hend, if_pos rfl]
  obtain ⟨g1, g2, g3, g4⟩ := countUp_spec (fun i => !fullWord free i) (cnt - i) i
  generalize countUp (fun i => !fullWord free i) (cnt - i) i = y at g1 g2 g3 g4
  have hpart : ∀ x, (next - r.min + 31) / 32 ≤ x → x < y → ∃ b, b < 32 ∧ free (32 * x + b) = false := by
    intro x hx1 hx2
    by_cases hxi : x < i
    · exact hskip x hx1 hxi
    have hnot : ¬ fullWord free x := by simpa using g3 x (by omega) hx2
    rw [fullWord_iff, not_forall] at hnot
    obtain ⟨b, hb⟩ := hnot
    rw [Classical.not_imp] at hb
    exact ⟨b, hb.1, by simpa using hb.2⟩
  by_cases hy : y = cnt
  · left
    rw [if_pos (.inl hy)]
    refine ⟨rfl, fun x hx => ?_⟩
    by_cases hxc : x < y
    · exact hpart x hx hxc
    · exact hbeyond x (by omega)
  right
  have hfull := fullWord_iff.mp (by simpa using g4 (by omega))
  have hin : 32 * y + 32 ≤ r.nBits := by
    by_contra hout
    have := hfull 31 (by omega)
    rw [ht _ (by omega)] at this
    cases this
  refine ⟨y, hfull, hin, ?_⟩
  rw [if_neg (by omega), Nat.mod_eq_of_lt (by omega), Nat.mul_comm y 32, Nat.add_comm]

end Alloc

end UbDkms.Udma
