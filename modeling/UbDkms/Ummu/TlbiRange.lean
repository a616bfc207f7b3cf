import Mathlib.Tactic

/-!
# Range invalidation of the TLB

`__ummu_tlbi_range` cuts a range into commands of `num + 1` blocks of `2 ^ scale`
pages, or steps by the granule where the hardware has no range commands.
-/

namespace UbDkms.Ummu

/-- `struct ummu_tlb_range`. -/
structure TlbRange where
  iova : Nat
  size : Nat
  granule : Nat

/-- The fields of `cmd->tlbi` a range sets. -/
structure TlbiCmd where
  addr : Nat
  num : Nat := 0
  scale : Nat := 0
  tl : Nat := 0
  gs : Nat := 0
  deriving DecidableEq, Repr

/-- What of the device and of the domain decides how a range is cut:
`UMMU_FEAT_RANGE_INV`, `UMMU_OPT_TLBI_LIMIT_SCALE` and `pgsize_bitmap`. -/
structure TlbiCaps where
  rangeInv : Bool
  limitScale : Bool
  pgsizeBitmap : Nat

def add64 (a b : Nat) : Nat := (a + b) % 18446744073709551616

def sub64 (a b : Nat) : Nat := (a + 18446744073709551616 - b) % 18446744073709551616

def shl64 (a b : Nat) : Nat := a * 2 ^ b % 18446744073709551616

/-- `__ffs`, which the source never asks of zero. -/
def ffs (x : Nat) : Nat := ((List.range 64).find? x.testBit).getD 64

/-- `granule_to_lvl` as stored in the byte `tl`; the quotient is one of `unsigned long`. -/
def granuleToLvl (granule tg : Nat) : Nat :=
  let bits := (((Nat.log2 granule : Int) - 3) % 18446744073709551616) / ((tg : Int) - 3)
  ((4 - bits) % 256).toNat

/-- The loop of `ummu_range_tlbi_nofeat`; `none` if it still runs after `fuel` rounds. -/
def nofeatLoop (granule rgEnd : Nat) : Nat → Nat → Option (List TlbiCmd)
  | 0, _ => none
  | fuel + 1, rgStart =>
    if rgStart < rgEnd then
      (nofeatLoop granule rgEnd fuel (add64 rgStart granule)).map (⟨rgStart, 0, 0, 0, 0⟩ :: ·)
    else some []

/-- `num` of a round, before one is taken off. -/
def roundNum (numPages scale : Nat) : Nat :=
  let num := numPages / 2 ^ scale % 32
  if num = 0 then 31 else num

/-- The loop of `__ummu_tlbi_range`; `none` if it still runs after `fuel` rounds. -/
def tlbiLoop (maxScale gs tl rgEnd : Nat) : Nat → Nat → Nat → Option (List TlbiCmd)
  | 0, _, _ => none
  | fuel + 1, rgStart, numPages =>
    if rgStart < rgEnd then
      let scale := min (ffs numPages) maxScale
      let num := roundNum numPages scale
      let cmd := ⟨rgStart, (num - 1) % 256, scale % 256, tl, sub64 gs 10 / 2 % 256⟩
      let ranged := shl64 num (scale + gs)
      (tlbiLoop maxScale gs tl rgEnd fuel (add64 rgStart ranged)
        (sub64 numPages (shl64 num scale))).map (cmd :: ·)
    else some []

def maxScale (d : TlbiCaps) : Nat := if d.limitScale then 15 else 31

/-- `__ummu_tlbi_range`: the commands of the batch. -/
def tlbiRange (d : TlbiCaps) (r : TlbRange) : Option (List TlbiCmd) :=
  if r.iova = 18446744073709551615 ∨ r.size = 0 then some []
  else
    let rgEnd := add64 r.iova r.size
    if d.rangeInv then
      let gs := ffs d.pgsizeBitmap
      let numPages := r.size / 2 ^ gs
      tlbiLoop (maxScale d) gs (granuleToLvl r.granule gs) rgEnd (numPages + 1) r.iova numPages
    else nofeatLoop r.granule rgEnd (r.size + 1) r.iova

/-- Each command covers `len` bytes from its address on; the first starts at `lo`, each
next one where the one before ends, and the last ends at `hi`. -/
def Abut (len : TlbiCmd → Nat) : List TlbiCmd → Nat → Nat → Prop
  | [], lo, hi => lo = hi
  | c :: cs, lo, hi => c.addr = lo ∧ Abut len cs (lo + len c) hi

def TlbiCmd.len (gs : Nat) (c : TlbiCmd) : Nat := (c.num + 1) * 2 ^ (c.scale + gs)

theorem two_pow_ffs_le {x : Nat} (h0 : x ≠ 0) (h : x < 18446744073709551616) :
    2 ^ ffs x ≤ x := by
  obtain ⟨i, hi⟩ := Nat.exists_testBit_of_ne_zero h0
  have hlt : i < 64 := by
    by_contra hge
    have := Nat.ge_two_pow_of_testBit hi
    have := Nat.pow_le_pow_right (n := 2) (by omega) (Nat.le_of_not_lt hge)
    omega
  obtain ⟨k, hk⟩ : ∃ k, (List.range 64).find? x.testBit = some k := by
    rw [← Option.isSome_iff_exists, List.find?_isSome]
    exact ⟨i, List.mem_range.mpr hlt, hi⟩
  unfold ffs
  rw [hk]
  exact Nat.ge_two_pow_of_testBit (List.find?_some hk)

theorem roundNum_spec {n scale : Nat} (h : 2 ^ scale ≤ n) :
    0 < roundNum n scale ∧ roundNum n scale ≤ 31 ∧ roundNum n scale * 2 ^ scale ≤ n := by
  have hone : 1 ≤ n / 2 ^ scale := Nat.div_pos h (Nat.two_pow_pos _)
  have hle : roundNum n scale ≤ n / 2 ^ scale ∧ 0 < roundNum n scale ∧ roundNum n scale ≤ 31 := by
    unfold roundNum
    dsimp only
    split <;> omega
  refine ⟨hle.2.1, hle.2.2, ?_⟩
  calc roundNum n scale * 2 ^ scale ≤ n / 2 ^ scale * 2 ^ scale := Nat.mul_le_mul_right _ hle.1
    _ ≤ n := Nat.div_mul_le_self ..

/-- The loop keeps `rg_end - rg_start = num_pages << gs`, and every round takes pages off. -/
theorem tlbiLoop_abut {mx rgEnd : Nat} (gs tl : Nat) (hmx : mx ≤ 31) (hend : rgEnd < 18446744073709551616) :
    ∀ (fuel lo n : Nat), n < fuel → lo + n * 2 ^ gs = rgEnd →
      ∃ cs, tlbiLoop mx gs tl rgEnd fuel lo n = some cs ∧ Abut (TlbiCmd.len gs) cs lo rgEnd ∧
        ∀ c ∈ cs, c.num < 32 ∧ c.scale ≤ mx
  | 0, _, _, h, _ => absurd h (Nat.not_lt_zero _)
  | fuel + 1, lo, n, hn, he => by
    unfold tlbiLoop
    have hgs := Nat.two_pow_pos gs
    by_cases hlt : lo < rgEnd
    · rw [if_pos hlt]
      have hn0 : n ≠ 0 := by
        rintro rfl
        omega
      have hnle : n ≤ n * 2 ^ gs := Nat.le_mul_of_pos_right _ hgs
      have hffs := two_pow_ffs_le hn0 (by omega)
      dsimp only
      generalize hs : min (ffs n) mx = scale
      have hscale : 2 ^ scale ≤ n :=
        (Nat.pow_le_pow_right (by omega) (hs ▸ Nat.min_le_left ..)).trans hffs
      have hsm : scale ≤ mx := hs ▸ Nat.min_le_right ..
      obtain ⟨h1, h2, h3⟩ := roundNum_spec hscale
      generalize roundNum n scale = num at h1 h2 h3
      have hpos : 0 < num * 2 ^ scale := Nat.mul_pos h1 (Nat.two_pow_pos _)
      have hlen : num * 2 ^ (scale + gs) + (n - num * 2 ^ scale) * 2 ^ gs = n * 2 ^ gs := by
        rw [Nat.pow_add, ← Nat.mul_assoc, ← Nat.add_mul, Nat.add_sub_cancel' h3]
      have e1 : shl64 num (scale + gs) = num * 2 ^ (scale + gs) := Nat.mod_eq_of_lt (by omega)
      have e2 : shl64 num scale = num * 2 ^ scale := Nat.mod_eq_of_lt (by omega)
      have e3 : add64 lo (num * 2 ^ (scale + gs)) = lo + num * 2 ^ (scale + gs) :=
        Nat.mod_eq_of_lt (by omega)
      have e4 : sub64 n (num * 2 ^ scale) = n - num * 2 ^ scale := by
        unfold sub64
        omega
      rw [e1, e2, e3, e4]
      obtain ⟨cs, hc, ha, hb⟩ := tlbiLoop_abut gs tl hmx hend fuel (lo + num * 2 ^ (scale + gs))
        (n - num * 2 ^ scale) (by omega) (by rw [Nat.add_assoc, hlen, he])
      have hnum : (num - 1) % 256 + 1 = num := by omega
      have hsc : scale % 256 = scale := by omega
      rw [hc, Option.map_some]
      refine ⟨_, rfl, ⟨rfl, ?_⟩, ?_⟩
      · unfold TlbiCmd.len
        dsimp only
        rwa [hnum, hsc]
      · rw [List.forall_mem_cons]
        exact ⟨⟨by dsimp only; omega, by dsimp only; omega⟩, hb⟩
    · rw [if_neg hlt]
      have : n * 2 ^ gs = 0 ∨ 0 < n * 2 ^ gs := Nat.eq_zero_or_pos _
      exact ⟨[], rfl, show lo = rgEnd by omega, by simp⟩

theorem nofeatLoop_abut {g rgEnd : Nat} (hg : 0 < g) (hend : rgEnd < 18446744073709551616) :
    ∀ (fuel lo n : Nat), n < fuel → lo + n * g = rgEnd →
      ∃ cs, nofeatLoop g rgEnd fuel lo = some cs ∧ Abut (fun _ => g) cs lo rgEnd
  | 0, _, _, h, _ => absurd h (Nat.not_lt_zero _)
  | fuel + 1, lo, n, hn, he => by
    unfold nofeatLoop
    cases n with
    | zero =>
      rw [if_neg (by omega)]
      exact ⟨[], rfl, show lo = rgEnd by omega⟩
    | succ n =>
      rw [Nat.succ_mul] at he
      rw [if_pos (by omega)]
      have e : add64 lo g = lo + g := Nat.mod_eq_of_lt (by omega)
      obtain ⟨cs, hc, ha⟩ := nofeatLoop_abut hg hend fuel (lo + g) n (by omega) (by omega)
      rw [e, hc, Option.map_some]
      exact ⟨_, rfl, rfl, ha⟩

/-- The loop ends and its commands abut from `iova` to `iova + size`; with range
commands `num` fits its five bits and `scale` its limit. -/
theorem tlbiRange_covers (d : TlbiCaps) (r : TlbRange) (hs : 0 < r.size)
    (hend : r.iova + r.size < 18446744073709551616)
    (hg : if d.rangeInv then 2 ^ ffs d.pgsizeBitmap ∣ r.size else 0 < r.granule ∧ r.granule ∣ r.size) :
    ∃ cs, tlbiRange d r = some cs ∧
      let len := if d.rangeInv then TlbiCmd.len (ffs d.pgsizeBitmap) else fun _ => r.granule
      Abut len cs r.iova (r.iova + r.size) ∧
      (d.rangeInv = true → ∀ c ∈ cs, c.num < 32 ∧ c.scale ≤ maxScale d) := by
  have he : add64 r.iova r.size = r.iova + r.size := Nat.mod_eq_of_lt hend
  unfold tlbiRange
  rw [if_neg (by omega), he]
  cases hd : d.rangeInv <;> rw [hd] at hg
  · obtain ⟨h1, n, hn⟩ := hg
    have hle : n ≤ r.size := hn ▸ Nat.le_mul_of_pos_left _ h1
    obtain ⟨cs, hc, ha⟩ := nofeatLoop_abut h1 hend (r.size + 1) r.iova n (by omega)
      (by rw [hn, Nat.mul_comm])
    exact ⟨cs, hc, ha, nofun⟩
  · have hmx : maxScale d ≤ 31 := by
      unfold maxScale
      split <;> omega
    obtain ⟨cs, hc, ha, hb⟩ := tlbiLoop_abut (ffs d.pgsizeBitmap)
      (granuleToLvl r.granule (ffs d.pgsizeBitmap)) hmx hend _ r.iova _ (Nat.lt_succ_self _)
      (by rw [Nat.div_mul_cancel hg])
    exact ⟨cs, hc, ha, fun _ => hb⟩

/-- 35 pages of 4 KiB: three pages, then one block of 32. -/
theorem tlbiRange_covers_35 :
    ∃ cs, tlbiRange ⟨true, false, 4096⟩ ⟨4096, 143360, 4096⟩ = some cs ∧
      Abut (TlbiCmd.len 12) cs 4096 147456 := by
  obtain ⟨cs, hc, ha, -⟩ := tlbiRange_covers ⟨true, false, 4096⟩ ⟨4096, 143360, 4096⟩ (by decide)
    (by decide) (by decide)
  exact ⟨cs, hc, ha⟩

end UbDkms.Ummu
