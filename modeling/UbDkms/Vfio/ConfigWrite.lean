import UbDkms.Vfio.Config

/-!
# Confinement of configuration writes

Which bits a write of the guest changes: of the hardware those that are writable and
not virtual, of the virtual copy those that are both, in bytes this entity may write.
-/

namespace UbDkms.Vfio

open Lib BitVec

/-- The bits of `b` that `m` selects, the others of `a`. -/
def mix (a b m : BitVec 8) : BitVec 8 := (a &&& ~~~m) ||| (b &&& m)

@[simp] theorem mix_zero (a b : BitVec 8) : mix a b 0 = a := by
  simp only [mix, and_zero, or_zero, ofNat_eq_ofNat, not_zero]
  exact and_allOnes

theorem mix_getLsbD (a b m : BitVec 8) (j : Nat) :
    (mix a b m).getLsbD j = if m.getLsbD j = true then b.getLsbD j else a.getLsbD j := by
  unfold mix
  rw [getLsbD_or, getLsbD_and, getLsbD_and, getLsbD_not]
  by_cases hj : j < 8
  · cases h : m.getLsbD j <;> simp [hj]
  · rw [getLsbD_of_ge m j (by omega), getLsbD_of_ge a j (by omega)]
    simp

namespace PermBits

variable (p : PermBits) (u : Uent)

def hwMask (off : Nat) : BitVec 8 :=
  if p.writable u off then p.write off &&& ~~~p.virt off else 0

def virtMask (off : Nat) : BitVec 8 :=
  if p.writable u off then p.write off &&& p.virt off else 0

end PermBits

namespace Vdev

variable {d : Vdev} {c : Cfg} {pos count : Nat} {val : BitVec 32}

theorem defaultConfigWrite_hw (hn : count ≤ 4) (k : Nat) :
    (d.defaultConfigWrite c pos count val).hw k =
      if pos ≤ k ∧ k < pos + count then
        mix (c.hw k) (byteOf val (k - pos)) ((d.findCapPerm (posToCap pos)).hwMask d.uent
          (pos - capToPos (posToCap pos) + (k - pos)))
      else c.hw k := by
  dsimp only [defaultConfigWrite]
  generalize hp : d.findCapPerm (posToCap pos) = p
  generalize ho : pos - capToPos (posToCap pos) = off
  -- a mask without bits changes nothing
  have hnone : (∀ i, i < count → p.write (off + i) &&& ~~~p.virt (off + i) = 0) → c.hw k =
      if pos ≤ k ∧ k < pos + count then mix (c.hw k) (byteOf val (k - pos))
        (p.hwMask d.uent (off + (k - pos))) else c.hw k := fun hz => by
    split
    · next hk =>
      have hm : p.hwMask d.uent (off + (k - pos)) = 0 := by
        unfold PermBits.hwMask
        rw [hz _ (by omega)]
        split <;> rfl
      rw [hm, mix_zero]
    · rfl
  split
  · next hw =>
    refine hnone fun i hi => ?_
    rw [(pack_eq_zero _ hn).mp hw i hi]
    exact zero_and
  dsimp only
  split
  · next hwv =>
    refine hnone fun i hi => ?_
    have := congrArg (byteOf · i) hwv
    simp only [byteOf_and, byteOf_zero] at this
    rwa [byteOf_not _ (by omega), byteOf_pack _ (by omega), byteOf_pack _ (by omega), if_pos hi,
      if_pos hi] at this
  rw [userConfigWrite_apply _ _ hn, hp, ho]
  by_cases hk : pos ≤ k ∧ k < pos + count
  · rw [if_pos hk]
    have hi : k - pos < count := by omega
    have h4 : k - pos < 4 := by omega
    unfold PermBits.hwMask
    by_cases hw : p.writable d.uent (off + (k - pos)) = true
    · rw [if_pos ⟨hk.1, hk.2, hw⟩, if_pos hw]
      have hr := PermBits.readable_of_writable hw
      have hread := byteOf_userConfigRead d pos c.hw hn hi
      rw [hp, ho, if_pos hr, Nat.add_sub_cancel' hk.1] at hread
      rw [byteOf_or, byteOf_and, byteOf_and, byteOf_not _ h4, byteOf_and, byteOf_not _ h4, hread,
        byteOf_pack _ h4, byteOf_pack _ h4, if_pos hi, if_pos hi]
      rfl
    · rw [if_neg (fun h => hw h.2.2), if_neg hw, mix_zero]
  · rw [if_neg hk, if_neg (fun h => hk ⟨h.1, h.2.1⟩)]

theorem defaultConfigWrite_buf (hn : count ≤ 4) (cap k : Nat) :
    (d.defaultConfigWrite c pos count val).buf cap k =
      if cap = posToCap pos ∧ pos - capToPos (posToCap pos) ≤ k ∧
        k < pos - capToPos (posToCap pos) + count then
        mix (c.buf cap k) (byteOf val (k - (pos - capToPos (posToCap pos))))
          ((d.findCapPerm (posToCap pos)).virtMask d.uent k)
      else c.buf cap k := by
  dsimp only [defaultConfigWrite, getVirtWriteMask]
  generalize hp : d.findCapPerm (posToCap pos) = p
  generalize ho : pos - capToPos (posToCap pos) = off
  have hnone : (∀ i, i < count → p.write (off + i) &&& p.virt (off + i) = 0) → c.buf cap k =
      if cap = posToCap pos ∧ off ≤ k ∧ k < off + count then mix (c.buf cap k) (byteOf val (k - off))
        (p.virtMask d.uent k) else c.buf cap k := fun hz => by
    split
    · next hk =>
      have hm : p.virtMask d.uent k = 0 := by
        have := hz (k - off) (by omega)
        rw [Nat.add_sub_cancel' hk.2.1] at this
        unfold PermBits.virtMask
        rw [this]
        split <;> rfl
      rw [hm, mix_zero]
    · rfl
  split
  · next hw =>
    refine hnone fun i hi => ?_
    rw [(pack_eq_zero _ hn).mp hw i hi]
    exact zero_and
  dsimp only
  split
  · next hwv =>
    refine hnone fun i hi => ?_
    have := congrArg (byteOf · i) hwv
    simp only [byteOf_and, byteOf_zero] at this
    rwa [byteOf_pack _ (by omega), byteOf_pack _ (by omega), if_pos hi, if_pos hi] at this
  by_cases hc : cap = posToCap pos
  · subst hc
    rw [Function.update_self]
    unfold copyBytes
    by_cases hk : off ≤ k ∧ k < off + count
    · rw [if_pos hk, if_pos ⟨rfl, hk⟩]
      have hi : k - off < count := by omega
      have h4 : k - off < 4 := by omega
      have hk' : off + (k - off) = k := Nat.add_sub_cancel' hk.1
      rw [byteOf_or, byteOf_and, byteOf_and, byteOf_not _ h4, byteOf_and, byteOf_and,
        byteOf_pack _ h4, byteOf_pack _ h4, byteOf_pack _ h4, byteOf_pack _ h4, if_pos hi,
        if_pos hi, if_pos hi, if_pos hi, hk']
      unfold PermBits.virtMask mix
      split
      · rw [show (0xff : BitVec 8) = allOnes 8 from rfl, and_allOnes]
      · simp
    · rw [if_neg hk, if_neg (fun h => hk h.2)]
  · rw [Function.update_of_ne hc, if_neg (fun h => hc h.1)]

def zone (d : Vdev) (k : Nat) : Bool :=
  match d.usedSize (posToCap k) with
  | none => false
  | some used => decide (k < capToPos (posToCap k) + used)

def hwBit (d : Vdev) (k j : Nat) : Bool :=
  let p := d.findCapPerm (posToCap k)
  d.zone k && p.writefn.isSome && p.writable d.uent (k % 1024) &&
    (p.write (k % 1024)).getLsbD j && !(p.virt (k % 1024)).getLsbD j

def virtBit (d : Vdev) (k j : Nat) : Bool :=
  let p := d.findCapPerm (posToCap k)
  d.zone k && p.writefn.isSome && p.writable d.uent (k % 1024) &&
    (p.write (k % 1024)).getLsbD j && (p.virt (k % 1024)).getLsbD j

def ElrBit (d : Vdev) (cap off j : Nat) : Prop := (cap, off) = d.elr ∧ d.elrBit.getLsbD j = true

/-- The space after the first `n` bytes of `data` were written at `pos`. -/
structure Written (d : Vdev) (data : Nat → BitVec 8) (pos n : Nat) (c c' : Cfg) : Prop where
  hw : ∀ k j, (c'.hw k).getLsbD j =
    if pos ≤ k ∧ k < pos + n ∧ d.hwBit k j = true then (data (k - pos)).getLsbD j
    else (c.hw k).getLsbD j
  buf : ∀ cap off j, ¬ d.ElrBit cap off j → (c'.buf cap off).getLsbD j =
    if off < 1024 ∧ pos ≤ cap * 1024 + off ∧ cap * 1024 + off < pos + n ∧
      d.virtBit (cap * 1024 + off) j = true then (data (cap * 1024 + off - pos)).getLsbD j
    else (c.buf cap off).getLsbD j

section Pieces

variable {c' c'' : Cfg} {data : Nat → BitVec 8} {n m : Nat}

theorem zone_lt {k : Nat} (h : d.zone k) : capToPos (posToCap k) = posToCap k * 1024 := by
  unfold zone at h
  split at h
  · cases h
  next used hu =>
  have hle := d.used_le _ _ hu
  have hlt := of_decide_eq_true h
  unfold capToPos posToCap sliceSz at *
  omega

theorem Written.refl (hz : ∀ k, pos ≤ k → k < pos + n → ¬ (d.zone k ∧
    (d.findCapPerm (posToCap k)).writefn.isSome)) : Written d data pos n c c where
  hw k j := by
    rw [if_neg]
    rintro ⟨h1, h2, h3⟩
    unfold hwBit at h3
    simp only [Bool.and_eq_true] at h3
    exact hz k h1 h2 ⟨h3.1.1.1.1, h3.1.1.1.2⟩
  buf cap off j _ := by
    rw [if_neg]
    rintro ⟨-, h1, h2, h3⟩
    unfold virtBit at h3
    simp only [Bool.and_eq_true] at h3
    exact hz _ h1 h2 ⟨h3.1.1.1.1, h3.1.1.1.2⟩

theorem Written.zero : Written d data pos 0 c c := .refl fun k h1 h2 => by omega

theorem Written.trans (h : Written d data pos n c c')
    (h' : Written d (fun i => data (n + i)) (pos + n) m c' c'') :
    Written d data pos (n + m) c c'' where
  hw k j := by
    rw [h'.hw, h.hw]
    by_cases hb : d.hwBit k j = true
    · by_cases h1 : pos + n ≤ k ∧ k < pos + n + m
      · rw [if_pos ⟨h1.1, h1.2, hb⟩, if_pos ⟨by omega, by omega, hb⟩]
        congr 2
        omega
      rw [if_neg (fun hc => h1 ⟨hc.1, hc.2.1⟩)]
      refine if_congr ?_ rfl rfl
      constructor <;> exact fun hc => ⟨hc.1, by omega, hb⟩
    · rw [if_neg (fun hc => hb hc.2.2), if_neg (fun hc => hb hc.2.2), if_neg (fun hc => hb hc.2.2)]
  buf cap off j he := by
    rw [h'.buf _ _ _ he, h.buf _ _ _ he]
    by_cases hb : off < 1024 ∧ d.virtBit (cap * 1024 + off) j = true
    · by_cases h1 : pos + n ≤ cap * 1024 + off ∧ cap * 1024 + off < pos + n + m
      · rw [if_pos ⟨hb.1, h1.1, h1.2, hb.2⟩, if_pos ⟨hb.1, by omega, by omega, hb.2⟩]
        congr 2
        omega
      rw [if_neg (fun hc => h1 ⟨hc.2.1, hc.2.2.1⟩)]
      refine if_congr ?_ rfl rfl
      constructor <;> exact fun hc => ⟨hc.1, hc.2.1, by omega, hb.2⟩
    · rw [if_neg (fun hc => hb ⟨hc.1, hc.2.2.2⟩), if_neg (fun hc => hb ⟨hc.1, hc.2.2.2⟩),
        if_neg (fun hc => hb ⟨hc.1, hc.2.2.2⟩)]

theorem Written.default (c : Cfg) (data : Nat → BitVec 8) (hn : n ≤ 4)
    (hz : ∀ k, pos ≤ k → k < pos + n → d.zone k ∧
      posToCap k = posToCap pos) (hcap : capToPos (posToCap pos) = posToCap pos * 1024)
    (hfn : (d.findCapPerm (posToCap pos)).writefn.isSome) :
    Written d data pos n c (d.defaultConfigWrite c pos n (pack data n)) where
  hw k j := by
    rw [defaultConfigWrite_hw hn]
    by_cases hk : pos ≤ k ∧ k < pos + n
    · obtain ⟨hzk, hck⟩ := hz k hk.1 hk.2
      have hoff : pos - capToPos (posToCap pos) + (k - pos) = k % 1024 := by
        rw [hcap]
        unfold posToCap at *
        omega
      have hi : k - pos < n := by omega
      rw [if_pos hk, mix_getLsbD, hoff, byteOf_pack _ (by omega), if_pos hi]
      refine if_congr ?_ rfl rfl
      dsimp only [hwBit, PermBits.hwMask]
      rw [hzk, hck, hfn]
      cases hw : (d.findCapPerm (posToCap pos)).writable d.uent (k % 1024) with
      | false => simp
      | true =>
        simp only [Bool.true_and, if_true, hk, true_and]
        by_cases hj : j < 8
        · simp [hj]
        · rw [getLsbD_of_ge _ j (by omega), getLsbD_of_ge _ j (by omega)]
          simp
    · rw [if_neg hk, if_neg (fun h => hk ⟨h.1, h.2.1⟩)]
  buf cap off j _ := by
    rw [defaultConfigWrite_buf hn]
    by_cases hk : off < 1024 ∧ pos ≤ cap * 1024 + off ∧ cap * 1024 + off < pos + n
    · obtain ⟨hzk, hck⟩ := hz _ hk.2.1 hk.2.2
      have hcap' : posToCap (cap * 1024 + off) = cap := by unfold posToCap; omega
      have hmod : (cap * 1024 + off) % 1024 = off := by omega
      rw [hcap'] at hck
      subst hck
      have hle : posToCap pos * 1024 ≤ pos := by unfold posToCap; omega
      have hidx : off - (pos - posToCap pos * 1024) = posToCap pos * 1024 + off - pos := by omega
      have hi : posToCap pos * 1024 + off - pos < n := by omega
      rw [if_pos ⟨rfl, by rw [hcap]; omega, by rw [hcap]; omega⟩, mix_getLsbD, hcap, hidx,
        byteOf_pack _ (by omega), if_pos hi]
      refine if_congr ?_ rfl rfl
      dsimp only [virtBit, PermBits.virtMask]
      rw [hzk, hcap', hmod, hfn]
      cases hw : (d.findCapPerm (posToCap pos)).writable d.uent off with
      | false => simp
      | true => simp [hk]
    rw [if_neg (c := off < 1024 ∧ _) fun h => hk ⟨h.1, h.2.1, h.2.2.1⟩, if_neg]
    rintro ⟨rfl, h1, h2⟩
    rw [hcap] at h1 h2
    obtain ⟨-, hlast⟩ := hz (pos + n - 1) (by omega) (by omega)
    refine hk ⟨?_, ?_, ?_⟩
    all_goals
      unfold posToCap at *
      omega

theorem Written.writefn {fn : WriteFn} {f : Faults} {val : BitVec 32}
    (h : Written d data pos n c (d.defaultConfigWrite c pos n val)) :
    Written d data pos n c (d.writefn fn c pos n val f).1 := by
  unfold Vdev.writefn
  cases fn with
  | default => exact h
  | cfg1Basic =>
    dsimp only
    split
    · exact h
    split
    · exact h
    refine ⟨h.hw, fun cap off j he => ?_⟩
    rw [← h.buf cap off j he]
    dsimp only
    by_cases hc : cap = d.elr.1
    · subst hc
      rw [Function.update_self]
      by_cases ho : off = d.elr.2
      · subst ho
        have hj : d.elrBit.getLsbD j = false := by
          by_contra hj
          exact he ⟨rfl, by simpa using hj⟩
        rw [Function.update_self, getLsbD_and, getLsbD_not, hj]
        by_cases h8 : j < 8
        · simp [h8]
        · rw [getLsbD_of_ge _ j (by omega)]
          rfl
      · rw [Function.update_of_ne ho]
    · rw [Function.update_of_ne hc]

theorem pieceSize_spec (pos m : Nat) (hc : 0 < count) (hl : 0 < m) :
    0 < pieceSize pos count m ∧ pieceSize pos count m ≤ count ∧ pieceSize pos count m ≤ m ∧
      pieceSize pos count m ≤ 4 := by
  dsimp only [pieceSize]
  split
  · omega
  · split <;> omega

theorem piece_used {used : Nat} (hu : d.usedSize (posToCap pos) = some used)
    (hlt : pos < capToPos (posToCap pos) + used) (hc : 0 < count) :
    let n := pieceSize pos count (capToPos (posToCap pos) + used - pos)
    0 < n ∧ n ≤ count ∧ n ≤ capToPos (posToCap pos) + used - pos ∧ n ≤ 4 ∧
      capToPos (posToCap pos) = posToCap pos * 1024 ∧
      ∀ k, pos ≤ k → k < pos + n → d.zone k = true ∧ posToCap k = posToCap pos := by
  have hzone : d.zone pos := by
    unfold zone
    rw [hu]
    exact decide_eq_true hlt
  have hcap := zone_lt hzone
  have hused := d.used_le _ _ hu
  obtain ⟨hn0, hnc, hnm, hn4⟩ := pieceSize_spec pos (capToPos (posToCap pos) + used - pos) hc
    (by omega)
  dsimp only
  generalize pieceSize pos count (capToPos (posToCap pos) + used - pos) = n at *
  refine ⟨hn0, hnc, hnm, hn4, hcap, fun k h1 h2 => ?_⟩
  have hk : posToCap k = posToCap pos := by
    rw [hcap] at hnm
    unfold posToCap sliceSz at *
    omega
  refine ⟨?_, hk⟩
  unfold zone
  rw [hk, hu]
  exact decide_eq_true (by omega)

/-- A piece outside the used part of a slice ends with the slice; past 4 GiB, where
`UB_CFG_CAP_TO_POS` wraps, no slice is in use. -/
theorem piece_unused (hb : pos < 9223372036854775808) (hc : 0 < count) (hs : count ≤ sliceSz)
    (hu : ∀ used, d.usedSize (posToCap pos) = some used → ¬ pos < capToPos (posToCap pos) + used) :
    0 < min count (subSize (capToPos (posToCap pos) + sliceSz) pos) ∧
    ∀ k, pos ≤ k → k < pos + min count (subSize (capToPos (posToCap pos) + sliceSz) pos) →
      ¬ d.zone k := by
  unfold subSize sliceSz at *
  constructor
  · unfold capToPos posToCap
    omega
  · intro k h1 h2 hz
    have hk := zone_lt hz
    have hcap : posToCap k = posToCap pos := by
      unfold capToPos posToCap at *
      omega
    unfold zone at hz
    rw [hcap] at hz
    cases hused : d.usedSize (posToCap pos) with
    | none =>
      rw [hused] at hz
      cases hz
    | some used =>
      rw [hused] at hz
      exact hu used hused (lt_of_le_of_lt h1 (of_decide_eq_true hz))

theorem configDoRw_spec (d : Vdev) (c : Cfg) (data : Nat → BitVec 8) (pos count : Nat)
    (hb : sliceSz < count ∨ pos < 9223372036854775808) (hc : 0 < count) (f : Faults) :
    ∃ m ≤ count, Written d data pos m c (d.configDoRw c data pos count f).1 ∧
      ∀ n, (d.configDoRw c data pos count f).2 = some n → m = n ∧ 0 < n := by
  unfold configDoRw
  split
  · exact ⟨0, Nat.zero_le _, .zero, nofun⟩
  next hlim =>
  have hs : count ≤ sliceSz := by omega
  have hpiece := fun hu => piece_unused (d := d) (hb.resolve_left (by omega)) hc hs hu
  have hunused : ∀ {r : Option Nat}, r = some (min count (subSize (capToPos (posToCap pos) + sliceSz) pos)) →
      (∀ used, d.usedSize (posToCap pos) = some used → ¬ pos < capToPos (posToCap pos) + used) →
      ∃ m ≤ count, Written d data pos m c c ∧ ∀ n, r = some n → m = n ∧ 0 < n := by
    rintro _ rfl hu
    obtain ⟨hpos, hz⟩ := hpiece hu
    refine ⟨_, min_le_left .., .refl fun k h1 h2 h => hz k h1 h2 h.1, fun n hn => ?_⟩
    obtain rfl := Option.some.inj hn
    exact ⟨rfl, hpos⟩
  dsimp only
  split
  · next hu => exact hunused rfl fun used h => by rw [hu] at h; cases h
  next used hu =>
  split
  · next hlt =>
    obtain ⟨hn0, hnc, -, hn4, hcap, hz⟩ := piece_used hu hlt hc
    generalize pieceSize pos count (capToPos (posToCap pos) + used - pos) = n at *
    split
    · next hfn =>
      refine ⟨n, hnc, .refl fun k h1 h2 hzk => ?_, fun n' hn' => ⟨Option.some.inj hn', ?_⟩⟩
      · rw [(hz k h1 h2).2, hfn] at hzk
        cases hzk.2
      · rw [← Option.some.inj hn']
        exact hn0
    next fn hfn =>
    split
    · exact ⟨0, Nat.zero_le _, .zero, nofun⟩
    have hw := Written.default c data hn4 hz hcap (by rw [hfn]; rfl)
    refine ⟨n, hnc, hw.writefn, fun n' hn' => ?_⟩
    split at hn'
    · obtain rfl := Option.some.inj hn'
      exact ⟨rfl, hn0⟩
    · cases hn'
  · next hge =>
    refine hunused rfl fun used' h => ?_
    rw [hu] at h
    rwa [← Option.some.inj h]

/-- The loop writes a first part of the data, all of it without an error. -/
theorem configRwLoop_spec (d : Vdev) (f : Nat → Faults) {fuel : Nat} (c : Cfg)
    (data : Nat → BitVec 8) (pos count : Nat) (hf : count ≤ fuel)
    (hb : sliceSz < count ∨ pos + count < 9223372036854775808) :
    ∃ m ≤ count, Written d data pos m c (d.configRwLoop f fuel c data pos count).1 ∧
      ((d.configRwLoop f fuel c data pos count).2 → m = count) := by
  induction fuel generalizing c data pos count with
  | zero => exact ⟨0, Nat.zero_le _, .zero, fun _ => by omega⟩
  | succ fuel ih =>
    unfold configRwLoop
    split
    · next h0 => exact ⟨0, Nat.zero_le _, .zero, fun _ => h0.symm⟩
    next h0 =>
    obtain ⟨m, hm, hw, hn⟩ := configDoRw_spec d c data pos count
      (hb.imp id (by omega)) (Nat.pos_of_ne_zero h0) (f pos)
    have hlarge : sliceSz < count → d.configDoRw c data pos count (f pos) = (c, none) := fun hl =>
      if_pos (.inr (.inr hl))
    generalize d.configDoRw c data pos count (f pos) = r at hw hn hlarge ⊢
    obtain ⟨c', n⟩ := r
    cases n with
    | none => exact ⟨m, hm, hw, nofun⟩
    | some n =>
      obtain ⟨rfl, hpos⟩ := hn n rfl
      obtain ⟨m', hm', hw', hok⟩ := ih c' (fun i => data (m + i)) (pos + m)
        (count - m) (by omega) (.inr (by
          have := hb.resolve_left fun hl => by cases hlarge hl
          omega))
      exact ⟨m + m', by omega, hw.trans hw', fun h => by have := hok h; omega⟩

/-- A write of the guest changes only bits it may write, and when it succeeds every
such bit of its range has the guest's value. -/
theorem configRw_confined (d : Vdev) (c : Cfg) (data : Nat → BitVec 8) (ppos count : Nat)
    (f : Nat → Faults) :
    (∀ k j, ((d.configRw c data ppos count f).1.hw k).getLsbD j ≠ (c.hw k).getLsbD j →
      offsetMask ppos ≤ k ∧ k < offsetMask ppos + count ∧ d.hwBit k j = true) ∧
    (∀ cap off j, ¬ d.ElrBit cap off j →
      ((d.configRw c data ppos count f).1.buf cap off).getLsbD j ≠ (c.buf cap off).getLsbD j →
      off < 1024 ∧ offsetMask ppos ≤ cap * 1024 + off ∧ cap * 1024 + off < offsetMask ppos + count ∧
        d.virtBit (cap * 1024 + off) j = true) ∧
    ((d.configRw c data ppos count f).2 = true → ∀ i < count, ∀ j,
      (d.hwBit (offsetMask ppos + i) j = true →
        ((d.configRw c data ppos count f).1.hw (offsetMask ppos + i)).getLsbD j = (data i).getLsbD j) ∧
      (d.virtBit (offsetMask ppos + i) j = true →
        ¬ d.ElrBit (posToCap (offsetMask ppos + i)) ((offsetMask ppos + i) % 1024) j →
        ((d.configRw c data ppos count f).1.buf (posToCap (offsetMask ppos + i))
          ((offsetMask ppos + i) % 1024)).getLsbD j = (data i).getLsbD j)) := by
  obtain ⟨m, hm, hw, hok⟩ := configRwLoop_spec d f c data (offsetMask ppos) count
    (le_refl count) (by unfold offsetMask sliceSz; omega)
  unfold configRw
  generalize d.configRwLoop f count c data (offsetMask ppos) count = r at hw hok ⊢
  generalize offsetMask ppos = pos at *
  refine ⟨fun k j hne => ?_, fun cap off j he hne => ?_, fun hr i hi j => ⟨fun hb => ?_, fun hb he => ?_⟩⟩
  · rw [hw.hw] at hne
    split at hne
    · next h => exact ⟨h.1, by omega, h.2.2⟩
    · exact absurd rfl hne
  · rw [hw.buf _ _ _ he] at hne
    split at hne
    · next h => exact ⟨h.1, h.2.1, by omega, h.2.2.2⟩
    · exact absurd rfl hne
  · have := hok hr
    rw [hw.hw, if_pos ⟨by omega, by omega, hb⟩, Nat.add_sub_cancel_left]
  · have := hok hr
    have hk : posToCap (pos + i) * 1024 + (pos + i) % 1024 = pos + i := by unfold posToCap; omega
    rw [hw.buf _ _ _ he, hk, if_pos ⟨by omega, by omega, by omega, hb⟩, Nat.add_sub_cancel_left]

def oneSlice : Vdev where
  uent := ⟨.controller, false, 1⟩
  capPerms _ := ⟨fun _ => 0, fun _ => 0xff, fun _ => 0, fun _ => 0, fun _ => 0, some .default, fun _ => .inl rfl⟩
  portBasicPerms := ⟨fun _ => 0, fun _ => 0, fun _ => 0, fun _ => 0, fun _ => 0, none, fun _ => .inl rfl⟩
  usedSize cap := if cap = 0 then some 16 else none
  routeTableSliceStart := 4096
  accessEn := 2048
  elr := (2, 0)
  elrBit := 1
  supported := ⟨nofun, rfl⟩
  used_le cap used h := by
    split at h
    · rw [← Option.some.inj h]
      decide
    · cases h

theorem configRw_confined_oneSlice :
    ((oneSlice.configRw ⟨fun _ => 0, fun _ _ => 0⟩ (fun _ => 0xa5) 4 2 fun _ => {}).1.hw 5).getLsbD 7 =
      true :=
  (((configRw_confined oneSlice ⟨fun _ => 0, fun _ _ => 0⟩ (fun _ => 0xa5) 4 2 fun _ => {}).2.2
    (by decide +kernel) 1 (by decide) 7).1 (by decide +kernel)).trans (by decide)

end Pieces

end Vdev

end UbDkms.Vfio
