import UbDkms.Vfio.ConfigWrite

/-!
# Configuration reads of a guest

A read is cut into the same pieces as a write; each is answered from the virtual copy
and the hardware as `virt` says, or with zeros.
-/

namespace UbDkms.Vfio.Vdev

open Lib

/-- A piece of a read: its place in the caller's buffer, its length, and the slice and the
offset at which the virtual copy and the permission tables are read. -/
structure Piece where
  done : Nat
  len : Nat
  slice : Option (Nat × Nat)

section Read

variable (d : Vdev) (readfn : Nat → Bool) (c : Cfg)

/-- `vfio_ub_default_config_read` of a slice the device has. -/
def defaultConfigRead (pos count : Nat) : BitVec 32 :=
  let cap := posToCap pos
  let off := pos - capToPos cap
  let val := pack (fun i => c.buf cap (off + i)) count
  let virt := pack (fun i => (d.findCapPerm cap).virt (off + i)) count
  if BitVec.allOnes 32 >>> (32 - count * 8) ≠ virt then
    (d.userConfigRead c.hw pos count &&& ~~~virt) ||| (val &&& virt)
  else val

/-- `vfio_ub_config_do_rw` for a read; `readfn` tells the slices that have one. -/
def configDoRead (pos count done : Nat) : Option (List (BitVec 8) × Piece) :=
  if d.routeTableSliceStart ≤ pos ∨ d.routeTableSliceStart < pos + count ∨ sliceSz < count then none
  else
    let cap := posToCap pos
    let unused := min count (subSize (capToPos cap + sliceSz) pos)
    match d.usedSize cap with
    | none => some (List.replicate unused 0, ⟨done, unused, none⟩)
    | some used =>
      if pos < capToPos cap + used then
        let n := pieceSize pos count (capToPos cap + used - pos)
        let val := if readfn cap then d.defaultConfigRead c pos n else 0
        some ((List.range n).map (byteOf val), ⟨done, n, some (cap, pos - capToPos cap)⟩)
      else some (List.replicate unused 0, ⟨done, unused, none⟩)

def configReadLoop : Nat → Nat → Nat → Nat → Option (List (BitVec 8) × List Piece)
  | 0, _, _, _ => some ([], [])
  | fuel + 1, pos, count, done =>
    if count = 0 then some ([], [])
    else
      match d.configDoRead readfn c pos count done with
      | none => none
      | some (bs, p) =>
        (configReadLoop fuel (pos + p.len) (count - p.len) (done + p.len)).map fun r =>
          (bs ++ r.1, p :: r.2)

/-- `vfio_ub_config_rw` for a read: the bytes copied to the caller and the pieces. -/
def configRead (ppos count : Nat) : Option (List (BitVec 8) × List Piece) :=
  d.configReadLoop readfn c count (offsetMask ppos) count 0

def readByte (k : Nat) : BitVec 8 :=
  let p := d.findCapPerm (posToCap k)
  if d.zone k && readfn (posToCap k) then
    mix (if p.readable d.uent (k % 1024) then c.hw k else 0) (c.buf (posToCap k) (k % 1024))
      (p.virt (k % 1024))
  else 0

/-- The piece stays in the caller's buffer of `count` bytes, and in the slice and its tables. -/
def Piece.Inside (p : Piece) (count : Nat) : Prop :=
  p.done + p.len ≤ count ∧
    ∀ cap off, p.slice = some (cap, off) → ∃ used ≤ sliceSz, d.usedSize cap = some used ∧ off + p.len ≤ used

end Read

variable {d : Vdev} {readfn : Nat → Bool} {c : Cfg} {pos count done : Nat}

theorem byteOf_defaultConfigRead (hn : count ≤ 4) {i : Nat} (hi : i < count) :
    byteOf (d.defaultConfigRead c pos count) i =
      let p := d.findCapPerm (posToCap pos)
      let off := pos - capToPos (posToCap pos) + i
      mix (if p.readable d.uent off then c.hw (pos + i) else 0) (c.buf (posToCap pos) off) (p.virt off) := by
  have h4 : i < 4 := by omega
  dsimp only [defaultConfigRead]
  split
  · rw [byteOf_or, byteOf_and, byteOf_and, byteOf_not _ h4, byteOf_userConfigRead d pos c.hw hn hi,
      byteOf_pack _ h4, byteOf_pack _ h4, if_pos hi, if_pos hi]
    rfl
  · next h =>
    -- all bits are virtual
    have hones : ∀ n ≤ 4, ∀ i < n, byteOf (BitVec.allOnes 32 >>> (32 - n * 8)) i = 0xff := by decide
    have hv := congrArg (byteOf · i) (not_not.mp h)
    rw [hones _ hn i hi, byteOf_pack _ h4, if_pos hi] at hv
    rw [byteOf_pack _ h4, if_pos hi, ← hv]
    unfold mix
    rw [show (0xff : BitVec 8) = BitVec.allOnes 8 from rfl, BitVec.not_allOnes, BitVec.and_allOnes,
      BitVec.and_zero, BitVec.zero_or]

def Answers (d : Vdev) (readfn : Nat → Bool) (c : Cfg) (pos count done : Nat)
    (r : Option (List (BitVec 8) × Piece)) : Prop :=
  ∃ p, r = some ((List.range p.len).map fun i => d.readByte readfn c (pos + i), p) ∧ 0 < p.len ∧
    p.len ≤ count ∧ p.Inside d (done + count)

theorem answers_unused (hb : pos < 9223372036854775808) (hc : 0 < count) (hs : count ≤ sliceSz)
    (hu : ∀ used, d.usedSize (posToCap pos) = some used → ¬ pos < capToPos (posToCap pos) + used) :
    let n := min count (subSize (capToPos (posToCap pos) + sliceSz) pos)
    Answers d readfn c pos count done (some (List.replicate n 0, ⟨done, n, none⟩)) := by
  obtain ⟨h0, hz⟩ := piece_unused hb hc hs hu
  have hle := min_le_left count (subSize (capToPos (posToCap pos) + sliceSz) pos)
  generalize min count (subSize (capToPos (posToCap pos) + sliceSz) pos) = n at *
  refine ⟨⟨done, n, none⟩, ?_, h0, hle, Nat.add_le_add_left hle _, nofun⟩
  congr 2
  refine (List.eq_replicate_iff.mpr ⟨by simp, fun b hb => ?_⟩).symm
  obtain ⟨i, hi, rfl⟩ := List.mem_map.mp hb
  have := hz (pos + i) (by omega) (Nat.add_lt_add_left (List.mem_range.mp hi) _)
  unfold readByte
  rw [Bool.eq_false_iff.mpr this]
  rfl

theorem configDoRead_answers (hlim : pos + count ≤ d.routeTableSliceStart)
    (hb : pos < 9223372036854775808) (hc : 0 < count) (hs : count ≤ sliceSz) :
    Answers d readfn c pos count done (d.configDoRead readfn c pos count done) := by
  unfold configDoRead
  rw [if_neg (by omega)]
  dsimp only
  split
  · next hu => exact answers_unused hb hc hs fun used h => by rw [hu] at h; cases h
  next used hu =>
  split
  · next hlt =>
    obtain ⟨h0, hle, hm, hn4, hcap, hz⟩ := piece_used hu hlt hc
    generalize pieceSize pos count (capToPos (posToCap pos) + used - pos) = n at *
    refine ⟨⟨done, n, some (posToCap pos, pos - capToPos (posToCap pos))⟩, ?_, h0, hle,
      Nat.add_le_add_left hle _, ?_⟩
    · congr 2
      refine List.map_congr_left fun i hi => ?_
      have hi := List.mem_range.mp hi
      obtain ⟨hzi, hci⟩ := hz (pos + i) (by omega) (by omega)
      have hoff : pos - capToPos (posToCap pos) + i = (pos + i) % 1024 := by
        rw [hcap]
        unfold posToCap at *
        omega
      unfold readByte
      rw [hzi, hci, Bool.true_and]
      split
      · rw [byteOf_defaultConfigRead hn4 hi, hoff]
      · exact byteOf_zero i
    · rintro cap off ⟨⟩
      have hge : posToCap pos * 1024 ≤ pos := Nat.div_mul_le_self ..
      exact ⟨used, d.used_le _ _ hu, hu, by dsimp only; omega⟩
  · next hge =>
    refine answers_unused hb hc hs fun used' h => ?_
    rw [hu] at h
    rwa [← Option.some.inj h]

theorem configReadLoop_eq {fuel : Nat} (readfn : Nat → Bool) (c : Cfg) (pos count done : Nat)
    (hlim : pos + count ≤ d.routeTableSliceStart) (hb : pos + count < 9223372036854775808) (hs : count ≤ sliceSz) (hf : count ≤ fuel) :
    ∃ ps, d.configReadLoop readfn c fuel pos count done =
      some ((List.range count).map fun i => d.readByte readfn c (pos + i), ps) ∧
      ∀ p ∈ ps, p.Inside d (done + count) := by
  induction fuel generalizing pos count done with
  | zero =>
    obtain rfl : count = 0 := by omega
    exact ⟨[], rfl, nofun⟩
  | succ fuel ih =>
    unfold configReadLoop
    by_cases h0 : count = 0
    · subst h0
      exact ⟨[], rfl, nofun⟩
    rw [if_neg h0]
    have hone : Answers d readfn c pos count done _ :=
      configDoRead_answers hlim (by omega) (Nat.pos_of_ne_zero h0) hs
    obtain ⟨p, hr, hp, hle, hin⟩ := hone
    obtain ⟨ps, hps, hall⟩ := ih (pos + p.len) (count - p.len) (done + p.len) (by omega) (by omega)
      (by omega) (by omega)
    rw [hr]
    dsimp only
    rw [hps, Option.map_some]
    refine ⟨p :: ps, ?_, List.forall_mem_cons.mpr ⟨hin, ?_⟩⟩
    · obtain ⟨m, rfl⟩ := Nat.exists_eq_add_of_le hle
      simp only [List.range_add, List.map_append, List.map_map, Function.comp_def, Nat.add_assoc,
        Nat.add_sub_cancel_left]
    · rwa [show done + p.len + (count - p.len) = done + count by omega] at hall

/-- A read of the guest returns the bytes that reads of one byte each return, and stays in
the slice buffers, the permission tables and the caller's buffer. -/
theorem configRead_uncut (d : Vdev) (readfn : Nat → Bool) (c : Cfg) (ppos count : Nat)
    (hs : count ≤ sliceSz) (hlim : offsetMask ppos + count ≤ d.routeTableSliceStart)
    (hmask : d.routeTableSliceStart ≤ 1099511627776) :
    ∃ bs ps, d.configRead readfn c ppos count = some (bs, ps) ∧ bs.length = count ∧
      (∀ p ∈ ps, p.Inside d count) ∧
      ∀ i (hi : i < bs.length), ∃ q, d.configRead readfn c (ppos + i) 1 = some ([bs[i]], q) ∧
        ∀ p ∈ q, p.Inside d 1 := by
  obtain ⟨ps, hps, hall⟩ := configReadLoop_eq readfn c _ count 0 hlim (by omega) hs (Nat.le_refl count)
  rw [Nat.zero_add] at hall
  refine ⟨_, ps, hps, by simp, hall, fun i hi => ?_⟩
  have hi' : i < count := by simpa using hi
  have hpos : offsetMask (ppos + i) = offsetMask ppos + i := by
    unfold offsetMask at *
    omega
  obtain ⟨q, hq, hqs⟩ := configReadLoop_eq (d := d) readfn c (offsetMask (ppos + i)) 1 0 (by omega)
    (by omega) (by decide) (Nat.le_refl 1)
  refine ⟨q, hq.trans ?_, hqs⟩
  simp [hpos]

theorem configRead_uncut_oneSlice : ∃ bs ps,
    oneSlice.configRead (fun _ => true) ⟨fun k => BitVec.ofNat 8 k, fun _ _ => 0⟩ 14 4 = some (bs, ps) ∧
      bs.length = 4 ∧ ∀ p ∈ ps, p.Inside oneSlice 4 := by
  obtain ⟨bs, ps, h, hl, hp, -⟩ := configRead_uncut oneSlice (fun _ => true)
    ⟨fun k => BitVec.ofNat 8 k, fun _ _ => 0⟩ 14 4 (by decide) (by decide) (by decide)
  exact ⟨bs, ps, h, hl, hp⟩

theorem Written.readByte {data : Nat → BitVec 8} {n j k : Nat} {c' : Cfg} (readfn : Nat → Bool)
    (h : Written d data pos n c c') (he : ¬ d.ElrBit (posToCap k) (k % 1024) j) :
    (d.readByte readfn c' k).getLsbD j =
      if pos ≤ k ∧ k < pos + n ∧ readfn (posToCap k) ∧ (d.hwBit k j ∨ d.virtBit k j) then
        (data (k - pos)).getLsbD j
      else (d.readByte readfn c k).getLsbD j := by
  have hk : posToCap k * 1024 + k % 1024 = k := by unfold posToCap; omega
  have hb := h.buf _ _ _ he
  have hr := @PermBits.readable_of_writable d.uent (d.findCapPerm (posToCap k)) (k % 1024)
  have hhw := h.hw k j
  unfold Vdev.readByte
  by_cases hz : d.zone k && readfn (posToCap k)
  · simp only [hz, if_true, mix_getLsbD, hb]
    unfold hwBit virtBit at *
    grind
  · unfold hwBit virtBit at *
    grind

/-- The write reaches neither the enable register nor the reset register, and no reset is due. -/
structure Quiet (d : Vdev) (c : Cfg) (pos n : Nat) : Prop where
  enable : d.accessEn < pos ∨ pos + n ≤ d.accessEn
  reset : d.elr.1 * 1024 + d.elr.2 < pos ∨ pos + n ≤ d.elr.1 * 1024 + d.elr.2
  clear : c.buf d.elr.1 d.elr.2 &&& d.elrBit = 0

theorem writefn_quiet {fn : WriteFn} {val : BitVec 32} {f : Faults}
    (h : (d.defaultConfigWrite c pos count val).buf d.elr.1 d.elr.2 &&& d.elrBit = 0) :
    d.writefn fn c pos count val f = Vdev.writefn { d with elrBit := 0 } fn c pos count val f ∧
      (d.writefn fn c pos count val f).1 = d.defaultConfigWrite c pos count val := by
  cases fn with
  | default => exact ⟨rfl, rfl⟩
  | cfg1Basic =>
    unfold writefn
    dsimp only
    have hnone : ∀ b : BitVec 8, b &&& 0 = 0 := fun _ => BitVec.and_zero
    rw [if_pos h, if_pos (hnone _)]
    split <;> exact ⟨rfl, rfl⟩

/-- Such a write is one of a device without a reset bit. -/
theorem configDoRw_quiet (data : Nat → BitVec 8) (hq : d.Quiet c pos count) (hc : 0 < count) (f : Faults) :
    d.configDoRw c data pos count f = Vdev.configDoRw { d with elrBit := 0 } c data pos count f ∧
      (d.configDoRw c data pos count f).1.buf d.elr.1 d.elr.2 = c.buf d.elr.1 d.elr.2 := by
  unfold configDoRw
  dsimp only
  split
  · exact ⟨rfl, rfl⟩
  split
  · exact ⟨rfl, rfl⟩
  next used hu =>
  split
  swap
  · exact ⟨rfl, rfl⟩
  next hlt =>
  obtain ⟨-, hnc, -, hn4, hcap, -⟩ := piece_used hu hlt hc
  generalize pieceSize pos count (capToPos (posToCap pos) + used - pos) = n at *
  have hbuf : (d.defaultConfigWrite c pos n (pack data n)).buf d.elr.1 d.elr.2 = c.buf d.elr.1 d.elr.2 := by
    rw [defaultConfigWrite_buf hn4, if_neg]
    rintro ⟨h1, h2, h3⟩
    have := hq.reset
    unfold posToCap at *
    omega
  have hperm : { d with elrBit := 0 }.findCapPerm (posToCap pos) = d.findCapPerm (posToCap pos) := rfl
  rw [hperm]
  split
  · exact ⟨rfl, rfl⟩
  split
  · exact ⟨rfl, rfl⟩
  obtain ⟨h1, h2⟩ := writefn_quiet (hbuf.symm ▸ hq.clear)
  rw [← h1, h2]
  exact ⟨rfl, hbuf⟩

theorem configRwLoop_quiet {data : Nat → BitVec 8} {f : Nat → Faults} {fuel : Nat}
    (hq : d.Quiet c pos count) :
    d.configRwLoop f fuel c data pos count = Vdev.configRwLoop { d with elrBit := 0 } f fuel c data pos count := by
  induction fuel generalizing c data pos count with
  | zero => rfl
  | succ fuel ih =>
    unfold configRwLoop
    split
    · rfl
    next h0 =>
    obtain ⟨heq, hbuf⟩ := configDoRw_quiet data hq (Nat.pos_of_ne_zero h0) (f pos)
    rw [← heq]
    generalize d.configDoRw c data pos count (f pos) = r at hbuf
    obtain ⟨c', n⟩ := r
    cases n with
    | none => rfl
    | some n =>
      have he := hq.enable
      have hr := hq.reset
      exact ih ⟨by omega, by omega, (congrArg (· &&& d.elrBit) hbuf).trans hq.clear⟩

/-- A read after a write that does not reach the enable and reset registers, of the same place or
another: it returns the guest's value of the bits the guest may write, of a failed write those of a
first part, and of all others what it returned before. -/
theorem read_after_write (d : Vdev) (readfn : Nat → Bool) (c : Cfg) (data : Nat → BitVec 8)
    (f : Nat → Faults) (wpos wcount ppos count : Nat) (hq : d.Quiet c (offsetMask wpos) wcount)
    (hs : count ≤ sliceSz) (hlim : offsetMask ppos + count ≤ d.routeTableSliceStart)
    (hmask : d.routeTableSliceStart ≤ 1099511627776) :
    let w := d.configRw c data wpos wcount f
    ∃ bs bs' ps ps' n, d.configRead readfn c ppos count = some (bs, ps) ∧
      d.configRead readfn w.1 ppos count = some (bs', ps') ∧ n ≤ wcount ∧ (w.2 = true → n = wcount) ∧
      ∀ i < count, ∀ k j, k = offsetMask ppos + i →
        (bs'.getD i 0).getLsbD j =
          if offsetMask wpos ≤ k ∧ k < offsetMask wpos + n ∧ readfn (posToCap k) ∧
            (d.hwBit k j ∨ d.virtBit k j) then (data (k - offsetMask wpos)).getLsbD j
          else (bs.getD i 0).getLsbD j := by
  intro w
  have hloop : w = Vdev.configRwLoop { d with elrBit := 0 } f wcount c data (offsetMask wpos) wcount :=
    configRwLoop_quiet hq
  obtain ⟨n, hn, hw, hok⟩ := configRwLoop_spec { d with elrBit := 0 } f c data (offsetMask wpos) wcount
    le_rfl (by unfold offsetMask sliceSz; omega)
  rw [← hloop] at hw hok
  obtain ⟨ps, hps, -⟩ := configReadLoop_eq readfn c _ count 0 hlim (by omega) hs le_rfl
  obtain ⟨ps', hps', -⟩ := configReadLoop_eq readfn w.1 _ count 0 hlim (by omega) hs le_rfl
  refine ⟨_, _, ps, ps', n, hps, hps', hn, hok, fun i hi k j hk => ?_⟩
  subst hk
  have he : ¬ElrBit { d with elrBit := 0 } (posToCap (offsetMask ppos + i)) ((offsetMask ppos + i) % 1024) j :=
    fun h => by simpa using h.2
  simp only [List.getD_eq_getElem?_getD, List.getElem?_map, List.getElem?_range hi, Option.map_some,
    Option.getD_some]
  exact hw.readByte readfn he

theorem read_after_write_oneSlice :
    let w := oneSlice.configRw ⟨fun _ => 0, fun _ _ => 0⟩ (fun _ => 0xa5) 4 2 fun _ => {}
    ∃ bs ps, oneSlice.configRead (fun _ => true) w.1 4 2 = some (bs, ps) ∧
      (bs.getD 1 0).getLsbD 7 = true := by
  obtain ⟨bs, bs', ps, ps', n, -, h, -, hn, hall⟩ := read_after_write oneSlice (fun _ => true)
    ⟨fun _ => 0, fun _ _ => 0⟩ (fun _ => 0xa5) (fun _ => {}) 4 2 4 2
    ⟨by decide, by decide, by decide⟩ (by decide) (by decide) (by decide)
  refine ⟨bs', ps', h, ?_⟩
  rw [hall 1 (by decide) 5 7 rfl, hn (by decide), if_pos (by decide)]
  decide

end UbDkms.Vfio.Vdev
