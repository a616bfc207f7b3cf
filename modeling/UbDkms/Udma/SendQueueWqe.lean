import UbDkms.Udma.SendQueue

/-!
# What a WQE says of its request

The number of blocks and the length that flushing reads from a WQE are those of the request
it was made for, whatever follows the blocks of the WQE in the buffer.
-/

namespace UbDkms.Udma

open List

namespace JfsWr

def localSges (wr : JfsWr) : List LocalSge :=
  match wr.opcode with
  | .read => wr.dst
  | .cas => wr.src.take 1
  | .fadd => wr.src.take 1
  | .nop => []
  | .other => []
  | _ => wr.src

def localLen (wr : JfsWr) : Nat := (wr.localSges.map LocalSge.len).sum

def completionLen (wr : JfsWr) : Nat := min wr.localLen (2 ^ 32 - 1)

def nonempty (xs : List LocalSge) : List LocalSge := xs.filter fun x => x.len != 0

def payload (wr : JfsWr) : Nat := if wr.inlineFlag then wr.localLen else 16 * (nonempty wr.localSges).length

def blocks (wr : JfsWr) : Nat :=
  match wr.opcode with
  | .cas => 2
  | .fadd => 2
  | .writeAtomic => 1
  | .nop => 1
  | .other => 1
  | .writeImm => (64 + wr.payload + 63) / 64
  | _ => (48 + wr.payload + 63) / 64

def inlineLimit (wr : JfsWr) (maxInlineSize : Nat) : Nat :=
  match wr.opcode with
  | .writeImm => min 192 maxInlineSize
  | .writeAtomic => min 8 maxInlineSize
  | _ => maxInlineSize

/-- No sum of the loop over an inline request's elements exceeds 32 bits. -/
def NoWrap (max : Nat) : Nat → List LocalSge → Prop
  | _, [] => True
  | total, x :: xs => total + x.len < 2 ^ 32 ∧ (total + x.len ≤ max → NoWrap max (total + x.len) xs)

/-- The request is read back right: inline sums do not wrap, only sends and writes are inline, and an
atomic write that is not inline is empty. -/
structure Fine (maxInlineSize : Nat) (wr : JfsWr) : Prop where
  noWrap : wr.inlineFlag = true → NoWrap (wr.inlineLimit maxInlineSize) 0 wr.src
  inlined : wr.inlineFlag = true → wr.opcode ≠ .read ∧ wr.opcode ≠ .cas ∧ wr.opcode ≠ .fadd
  atomic : wr.opcode = .writeAtomic → wr.inlineFlag = false → wr.localLen = 0

end JfsWr

open JfsWr (nonempty NoWrap)

section Sges

variable {m m' : Nat → Nat} {xs : List LocalSge}

theorem readSges_congr {n : Nat} : ∀ {pos : Nat}, (∀ i, i < n → m (pos + 4 * i) = m' (pos + 4 * i)) →
    readSges m pos n = readSges m' pos n := by
  induction n with
  | zero => intros; rfl
  | succ n ih =>
    intro pos h
    have hrest : readSges m (pos + 4) n = readSges m' (pos + 4) n := by
      refine ih fun i hi => ?_
      have := h (i + 1) (by omega)
      rwa [show pos + 4 * (i + 1) = pos + 4 + 4 * i by omega] at this
    have h0 : m pos = m' pos := h 0 (by omega)
    unfold readSges
    rw [hrest, h0]

namespace Scratch

variable {s : Scratch} {pos num w : Nat} {x : LocalSge}

theorem putSge_word_lt (h : w < pos) : (s.putSge pos x).word w = s.word w := by
  dsimp only [putSge, put]
  rw [Function.update_of_ne (by omega), Function.update_of_ne (by omega), Function.update_of_ne (by omega)]

theorem putSge_word_self : (s.putSge pos x).word pos = x.len := by
  dsimp only [putSge, put]
  rw [Function.update_of_ne (by omega), Function.update_of_ne (by omega), Function.update_self]

theorem putSge_fault (h : pos + 4 ≤ 64) : (s.putSge pos x).fault = s.fault := by
  dsimp only [putSge, put]
  rw [decide_eq_false (by omega), decide_eq_false (by omega), decide_eq_false (by omega), Bool.or_false,
    Bool.or_false, Bool.or_false]

theorem fillSges_num : ∀ {s : Scratch} {pos num : Nat},
    (s.fillSges pos num xs).2 = num + (nonempty xs).length := by
  induction xs with
  | nil => intros; rfl
  | cons x xs ih =>
    intro s pos num
    unfold fillSges nonempty
    by_cases hx : x.len = 0
    · rw [if_pos hx, filter_cons_of_neg (by simp [hx])]
      exact ih
    rw [if_neg hx, filter_cons_of_pos (by simp [hx]), length_cons, ih]
    unfold nonempty
    omega

theorem fillSges_word_lt : ∀ {s : Scratch} {pos num : Nat}, w < pos →
    (s.fillSges pos num xs).1.word w = s.word w := by
  induction xs with
  | nil => intros; rfl
  | cons x xs ih =>
    intro s pos num hw
    unfold fillSges
    split
    · exact ih hw
    · rw [ih (by omega), putSge_word_lt hw]

theorem fillSges_fault : ∀ {s : Scratch} {pos num : Nat}, pos + 4 * (nonempty xs).length ≤ 64 →
    (s.fillSges pos num xs).1.fault = s.fault := by
  induction xs with
  | nil => intros; rfl
  | cons x xs ih =>
    intro s pos num h
    unfold fillSges
    unfold nonempty at h
    by_cases hx : x.len = 0
    · rw [filter_cons_of_neg (by simp [hx])] at h
      rw [if_pos hx]
      exact ih h
    · rw [filter_cons_of_pos (by simp [hx]), length_cons] at h
      rw [if_neg hx, ih (by unfold nonempty; omega), putSge_fault (by omega)]

theorem readSges_fillSges : ∀ {s : Scratch} {pos num : Nat}, pos + 4 * (nonempty xs).length ≤ 64 →
    readSges (s.fillSges pos num xs).1.word pos (nonempty xs).length = ((xs.map LocalSge.len).sum, false) := by
  induction xs with
  | nil => intros; rfl
  | cons x xs ih =>
    intro s pos num h
    unfold fillSges nonempty
    unfold nonempty at h
    by_cases hx : x.len = 0
    · rw [filter_cons_of_neg (by simp [hx])] at h ⊢
      rw [if_pos hx, map_cons, sum_cons, hx, Nat.zero_add]
      exact ih h
    rw [filter_cons_of_pos (by simp [hx]), length_cons] at h ⊢
    have hrest : readSges ((s.putSge pos x).fillSges (pos + 4) (num + 1) xs).1.word (pos + 4)
        (nonempty xs).length = _ := ih (by unfold nonempty; omega)
    unfold nonempty at hrest
    rw [if_neg hx, readSges, hrest, fillSges_word_lt (by omega), putSge_word_self, map_cons, sum_cons,
      decide_eq_false (by omega)]
    rfl

theorem fillInline_spec {data : Nat → Nat} {off max : Nat} (hmax : off + max ≤ 256) :
    ∀ {s r : Scratch} {total len : Nat}, total ≤ max → NoWrap max total xs →
      s.fillInline data off max total xs = some (r, len) →
      len = total + (xs.map LocalSge.len).sum ∧ len ≤ max ∧ r.fault = s.fault := by
  induction xs with
  | nil =>
    intro s r total len ht _ h
    cases h
    exact ⟨rfl, ht, rfl⟩
  | cons x xs ih =>
    intro s r total len ht hw h
    obtain ⟨hlt, hw⟩ := hw
    unfold fillInline at h
    rw [Nat.mod_eq_of_lt hlt] at h
    split at h
    next => cases h
    next hle =>
      obtain ⟨h1, h2, h3⟩ := ih (Nat.not_lt.mp hle) (hw (Nat.not_lt.mp hle)) h
      refine ⟨by rw [h1, map_cons, sum_cons]; omega, h2, h3.trans ?_⟩
      dsimp only [copy]
      rw [decide_eq_false (by omega), Bool.or_false]

end Scratch

end Sges

section Ctl

variable {wr : JfsWr} {owner inl : Bool} {opcode il sn wl : Nat} {s : Scratch} {m : Nat → Nat}

theorem setCtl_fields (ho : opcode < 2 ^ 8) (hl : il < 2 ^ 10) (hs : sn < 2 ^ 8)
    (hm : ∀ i, i < 3 → m i = (wr.setCtl owner opcode inl il sn wl s).word i) :
    inlineEn m = inl.toNat ∧ sqeOpcode m = opcode ∧ inlineMsgLen m = il ∧ sgeNum m = sn := by
  have h0 : m 0 = wr.low % 2 ^ 22 + inl.toNat * 2 ^ 22 + wr.high % 2 ^ 8 * 2 ^ 23 + owner.toNat * 2 ^ 31 :=
    hm 0 (by omega)
  have h1 : m 1 = wr.targetHint % 2 ^ 8 + opcode * 2 ^ 8 + il % 2 ^ 10 * 2 ^ 22 := hm 1 (by omega)
  have h2 : m 2 = wr.tpn % 2 ^ 24 + sn % 2 ^ 8 * 2 ^ 24 := hm 2 (by omega)
  have hb := Bool.toNat_le inl
  unfold inlineEn sqeOpcode inlineMsgLen sgeNum
  rw [h0, h1, h2]
  refine ⟨by omega, by omega, by omega, by omega⟩

theorem setCtl_word_ge {w : Nat} (h4 : 4 ≤ w) (h : getCtlLen opcode / 4 ≤ w) :
    (wr.setCtl owner opcode inl il sn wl s).word w = s.word w := by
  dsimp only [JfsWr.setCtl]
  rw [if_neg (by omega), if_neg (by omega), if_neg (by omega), if_neg (by omega), if_neg (by omega)]

end Ctl

/-- Flushing reads the request's blocks and length from the WQE `s`, whatever follows it. -/
structure Reads (s : Scratch) (wr : JfsWr) : Prop where
  fault : s.fault = false
  pos : 1 ≤ wr.blocks
  le : wr.blocks ≤ 4
  back : ∀ m : Nat → Nat, (∀ i, i < 16 * wr.blocks → m i = s.word i) →
    getWqebbNum m = wr.blocks ∧ fillCrBySqeCtl m = (wr.completionLen, false)

section Reads

variable {wr : JfsWr} {owner : Bool} {opcode max : Nat} {s : Scratch}

theorem getCtlLen_cases (opcode : Nat) :
    opcode = 0x4 ∧ getCtlLen opcode = 64 ∨ opcode = 0x19 ∧ getCtlLen opcode = 56 ∨
      opcode ≠ 0x4 ∧ opcode ≠ 0x19 ∧ getCtlLen opcode = 48 := by
  unfold getCtlLen
  split
  next h => exact .inl ⟨h, rfl⟩
  next h =>
    split
    next h' => exact .inr (.inl ⟨h', rfl⟩)
    next h' => exact .inr (.inr ⟨h, h', rfl⟩)

theorem nonempty_length_le (xs : List LocalSge) : (nonempty xs).length ≤ xs.length := length_filter_le ..

theorem ite_min (n m : Nat) : min n m = if n < m then n else m := by
  split <;> omega

theorem capped (n : Nat) : (if 2 ^ 32 - 1 < n then 2 ^ 32 - 1 else n) = min n (2 ^ 32 - 1) := by
  split <;> omega

theorem inline_len (hin : wr.inlineFlag) (hsrc : wr.localSges = wr.src)
    (hmax : getCtlLen opcode + max ≤ 256) (hw : NoWrap max 0 wr.src)
    (h : wr.fillSwSge owner opcode max = some s) : ∃ r : Scratch,
      s = wr.setCtl owner opcode true wr.localLen 0 0 r ∧ wr.localLen ≤ max ∧ r.fault = false := by
  unfold JfsWr.fillSwSge at h
  rw [if_pos hin] at h
  obtain ⟨⟨r, len⟩, hr, rfl⟩ := Option.map_eq_some_iff.mp h
  obtain ⟨hlen, hle, hf⟩ := Scratch.fillInline_spec hmax (Nat.zero_le _) hw hr
  have hlocal : len = wr.localLen := by
    unfold JfsWr.localLen
    rw [hsrc, hlen, Nat.zero_add]
  subst hlocal
  exact ⟨r, rfl, hle, hf⟩

theorem reads_inline (hop : opcode ≤ 0x4) (hin : wr.inlineFlag) (hsrc : wr.localSges = wr.src)
    (hb : wr.blocks = (getCtlLen opcode + wr.payload + 63) / 64) (hmax : getCtlLen opcode + max ≤ 256)
    (hw : NoWrap max 0 wr.src) (h : wr.fillSwSge owner opcode max = some s) : Reads s wr := by
  obtain ⟨r, rfl, hle, hf⟩ := inline_len hin hsrc hmax hw h
  have hp : wr.payload = wr.localLen := if_pos hin
  have hctl := getCtlLen_cases opcode
  refine ⟨hf, by omega, by omega, fun m hm => ?_⟩
  obtain ⟨f1, f2, f3, f4⟩ := setCtl_fields (by omega) (by omega) (by omega) fun i hi => hm i (by omega)
  have hone : inlineEn m = 1 := f1
  constructor
  · unfold getWqebbNum
    rw [f2, if_pos ⟨hop, hone⟩, f3]
    omega
  · unfold fillCrBySqeCtl JfsWr.completionLen
    rw [if_pos hone, f3, Nat.min_eq_left (by omega)]

theorem reads_sges {xs : List LocalSge} (hop : opcode ≤ 0x6) (hin : wr.inlineFlag = false)
    (hsrc : wr.localSges = xs) (hb : wr.blocks = (getCtlLen opcode + wr.payload + 63) / 64)
    (hn : getCtlLen opcode + 16 * xs.length ≤ 256)
    (hs : s = wr.setCtl owner opcode false 0 (({} : Scratch).fillSges (getCtlLen opcode / 4) 0 xs).2 0
      (({} : Scratch).fillSges (getCtlLen opcode / 4) 0 xs).1) : Reads s wr := by
  have hctl := getCtlLen_cases opcode
  have hlen := nonempty_length_le xs
  have hp : wr.payload = 16 * (nonempty xs).length := by
    unfold JfsWr.payload
    rw [hin, hsrc]
    rfl
  rw [Scratch.fillSges_num, Nat.zero_add] at hs
  subst hs
  refine ⟨Scratch.fillSges_fault (by omega), by omega, by omega, fun m hm => ?_⟩
  obtain ⟨f1, f2, f3, f4⟩ := setCtl_fields (m := m) (by omega) (by omega) (by omega) fun i hi => hm i (by omega)
  have hzero : inlineEn m ≠ 1 := by rw [f1]; decide
  constructor
  · unfold getWqebbNum
    unfold opcCas opcFaa opcWriteWithAtomicstoreAdd opcNop
    rw [if_neg fun hh => hzero hh.2, f2, f4, if_neg (by omega), if_neg (by omega), if_neg (by omega)]
    unfold sqCalWqebbNum
    omega
  unfold fillCrBySqeCtl JfsWr.completionLen
  have hcongr : readSges m (getCtlLen opcode / 4) (nonempty xs).length =
      readSges (({} : Scratch).fillSges (getCtlLen opcode / 4) 0 xs).1.word (getCtlLen opcode / 4)
        (nonempty xs).length := by
    refine readSges_congr fun i hi => ?_
    rw [hm _ (by omega), setCtl_word_ge (by omega) (by omega)]
  have hread : readSges m (getCtlLen opcode / 4) (nonempty xs).length = (wr.localLen, false) := by
    unfold JfsWr.localLen
    rw [hcongr, hsrc]
    exact Scratch.readSges_fillSges (by omega)
  rw [if_neg hzero, f2, f4]
  dsimp only
  rw [hread, capped]

theorem localLen_le (wr : JfsWr) {n : Nat} (h : wr.localLen = n) (hn : n < 2 ^ 32) : wr.completionLen = n := by
  unfold JfsWr.completionLen
  omega

theorem reads_atomic {x : LocalSge} {operands : Nat} (hop : opcode = opcCas ∨ opcode = opcFaa)
    (hin : wr.inlineFlag = false) (hb : wr.blocks = 2) (hx : wr.localLen = x.len)
    (hlen : operands * x.len ≤ 192)
    (hs : s = wr.setCtl owner opcode wr.inlineFlag 0 1 0
      ((({} : Scratch).putSge 12 x).copy 64 (operands * x.len) wr.data)) : Reads s wr := by
  subst hs
  unfold opcCas opcFaa at hop
  have hctl := getCtlLen_cases opcode
  have hpos : getCtlLen opcode / 4 = 12 := by omega
  rw [hin]
  refine ⟨?_, by omega, by omega, fun m hm => ?_⟩
  · dsimp only [JfsWr.setCtl, Scratch.copy]
    rw [Scratch.putSge_fault (by omega), decide_eq_false (by omega)]
    rfl
  obtain ⟨f1, f2, f3, f4⟩ := setCtl_fields (m := m) (by omega) (by omega) (by omega) fun i hi => hm i (by omega)
  have hzero : inlineEn m ≠ 1 := by rw [f1]; decide
  have h12 : m 12 = x.len := by
    rw [hm 12 (by omega), setCtl_word_ge (by omega) (by omega)]
    dsimp only [Scratch.copy]
    rw [if_neg (by omega), Scratch.putSge_word_self]
  constructor
  · unfold getWqebbNum
    rw [if_neg fun hh => hzero hh.2, f2, if_pos hop, hb]
  unfold fillCrBySqeCtl JfsWr.completionLen
  rw [if_neg hzero, f2, f4, hpos]
  dsimp only
  unfold readSges readSges
  rw [h12, hx, capped]
  rfl

theorem reads_empty {wr' : JfsWr} {il wl : Nat} (hop : opcode = opcNop ∨ opcode = opcWriteWithAtomicstoreAdd)
    (hb : wr.blocks = 1) (hx : wr.localLen = 0) {r : Scratch} (hr : r.fault = false)
    (hil : il < 2 ^ 10) (hs : s = wr'.setCtl owner opcode false il 0 wl r) : Reads s wr := by
  subst hs
  refine ⟨hr, by omega, by omega, fun m hm => ?_⟩
  have hlt : opcode < 2 ^ 8 := by rcases hop with rfl | rfl <;> decide
  obtain ⟨f1, f2, f3, f4⟩ := setCtl_fields hlt hil (by omega) fun i hi => hm i (by omega)
  have hzero : inlineEn m ≠ 1 := by rw [f1]; decide
  constructor
  · unfold getWqebbNum
    rw [if_neg fun hh => hzero hh.2, f2, hb]
    rcases hop with rfl | rfl <;> rfl
  · unfold fillCrBySqeCtl
    rw [if_neg hzero, f4, localLen_le wr hx (by omega)]
    rfl

theorem reads_atomic_write (hin : wr.inlineFlag) (hsrc : wr.localSges = wr.src) (hb : wr.blocks = 1)
    (hmax : max ≤ 8) (hw : NoWrap max 0 wr.src)
    (h : wr.fillSwSge owner opcWriteWithAtomicstoreAdd max = some s) : Reads s wr := by
  have hctl : getCtlLen opcWriteWithAtomicstoreAdd = 56 := rfl
  obtain ⟨r, rfl, hle, hf⟩ := inline_len hin hsrc (by omega) hw h
  refine ⟨hf, by omega, by omega, fun m hm => ?_⟩
  obtain ⟨f1, f2, f3, f4⟩ := setCtl_fields (by decide) (by omega) (by omega) fun i hi => hm i (by omega)
  have hone : inlineEn m = 1 := f1
  constructor
  · unfold getWqebbNum
    rw [f2, hb]
    rfl
  · unfold fillCrBySqeCtl
    rw [if_pos hone, f3, localLen_le wr rfl (by omega)]

theorem reads_sw (hop : opcode ≤ 0x4) (hne : wr.opcode ≠ .writeAtomic) (hsrc : wr.localSges = wr.src)
    (hb : wr.blocks = (getCtlLen opcode + wr.payload + 63) / 64) (hmax : getCtlLen opcode + max ≤ 256)
    (hn : getCtlLen opcode + 16 * wr.src.length ≤ 256) (hw : wr.inlineFlag → NoWrap max 0 wr.src)
    (h : wr.fillSwSge owner opcode max = some s) : Reads s wr := by
  cases hin : wr.inlineFlag with
  | true => exact reads_inline hop hin hsrc hb hmax (hw hin) h
  | false =>
    unfold JfsWr.fillSwSge at h
    rw [hin, if_neg Bool.false_ne_true, if_pos hne] at h
    exact reads_sges (by omega) hin hsrc hb hn (Option.some.inj h).symm

theorem reads_normal (hop : opcode < 0x4) (hne : wr.opcode ≠ .writeAtomic) (hsrc : wr.localSges = wr.src)
    (hb : wr.blocks = (48 + wr.payload + 63) / 64) (hmax : max ≤ 208) (hn : wr.src.length ≤ 13)
    (hw : wr.inlineFlag → NoWrap max 0 wr.src) (h : wr.fillSwSge owner opcode max = some s) :
    Reads s wr := by
  have hctl := getCtlLen_cases opcode
  have h48 : getCtlLen opcode = 48 := by omega
  rw [← h48] at hb
  exact reads_sw (by omega) hne hsrc hb (by omega) (by omega) hw h

theorem reads_write_atomic (hat : wr.opcode = .writeAtomic) (hmax : max ≤ 8)
    (hw : wr.inlineFlag → NoWrap max 0 wr.src) (hlen : wr.inlineFlag = false → wr.localLen = 0)
    (hone : wr.src.length = 1) (h : wr.fillSwSge owner opcWriteWithAtomicstoreAdd max = some s) : Reads s wr := by
  have hsrc : wr.localSges = wr.src := by
    unfold JfsWr.localSges
    rw [hat]
  have hb : wr.blocks = 1 := by
    unfold JfsWr.blocks
    rw [hat]
  cases hin : wr.inlineFlag with
  | true => exact reads_atomic_write hin hsrc hb hmax (hw hin) h
  | false =>
    obtain ⟨x, hx⟩ := length_eq_one_iff.mp hone
    have hzero : x.len = 0 := by
      have := hlen hin
      unfold JfsWr.localLen at this
      rw [hsrc, hx] at this
      exact this
    unfold JfsWr.fillSwSge at h
    rw [hin, if_neg Bool.false_ne_true, if_neg (not_not.mpr hat), hx] at h
    dsimp only at h
    rw [hzero, if_neg (by omega)] at h
    exact reads_empty (.inr rfl) hb (hlen hin) rfl (by omega) (Option.some.inj h).symm

theorem reads_fillAtomic {operands : Nat} (hop : opcode = opcCas ∨ opcode = opcFaa)
    (hin : wr.inlineFlag = false) (hb : wr.blocks = 2) (hsrc : wr.localSges = wr.src.take 1) (hops : operands ≤ 2)
    (h : wr.fillAtomicSqe owner opcode operands = some s) : Reads s wr := by
  unfold JfsWr.fillAtomicSqe at h
  split at h
  next => cases h
  next x xs hx =>
    split at h
    next hlen =>
      have hlocal : wr.localLen = x.len := by
        unfold JfsWr.localLen
        rw [hsrc, hx]
        rfl
      have h16 : operands * x.len ≤ 2 * 16 := Nat.mul_le_mul hops (by omega)
      exact reads_atomic hop hin hb hlocal (by omega) (Option.some.inj h).symm
    next => cases h

/-- `udma_k_set_sqe` makes a WQE from which the request is read back. -/
theorem setSqe_reads {atomicAddEn : Bool} {maxSgeNum maxInlineSize : Nat}
    (hop : udmaGetJfsOpcode atomicAddEn wr.opcode = some opcode) (hsge : wr.checkSgeNum maxSgeNum = false)
    (hms : maxSgeNum ≤ 13) (hmi : maxInlineSize ≤ 208) (hfine : wr.Fine maxInlineSize)
    (h : wr.setSqe owner opcode maxInlineSize = some s) : Reads s wr := by
  obtain ⟨hwrap, hinl, hat⟩ := hfine
  unfold JfsWr.setSqe at h
  unfold JfsWr.checkSgeNum at hsge
  unfold JfsWr.inlineLimit at hwrap
  have hnot : wr.opcode = .read ∨ wr.opcode = .cas ∨ wr.opcode = .fadd → wr.inlineFlag = false := by
    intro hr
    refine Bool.eq_false_of_not_eq_true fun hin => ?_
    obtain ⟨h1, h2, h3⟩ := hinl hin
    rcases hr with hr | hr | hr
    · exact h1 hr
    · exact h2 hr
    · exact h3 hr
  cases ho : wr.opcode <;>
    simp only [ho, udmaGetJfsOpcode, Option.some.injEq, Bool.or_eq_false_iff, decide_eq_false_iff_not,
      Nat.not_lt, reduceCtorEq] at hop hsge h hwrap
  case send | sendImm | sendInvalidate | write =>
    subst hop
    exact reads_normal (by decide) (by rw [ho]; decide) (by unfold JfsWr.localSges; rw [ho])
      (by unfold JfsWr.blocks; rw [ho]) hmi (by omega) hwrap h
  case writeImm =>
    subst hop
    have hctl : getCtlLen opcWriteWithImm = 64 := rfl
    rw [← ite_min] at h
    exact reads_sw (by decide) (by rw [ho]; decide) (by unfold JfsWr.localSges; rw [ho])
      (by unfold JfsWr.blocks; rw [ho]; rfl) (by omega) (by omega) hwrap h
  case writeAtomic =>
    split at hop
    next =>
      cases hop
      rw [← ite_min] at h
      exact reads_write_atomic ho (by omega) hwrap (hat ho) (by omega) h
    next => cases hop
  case read =>
    subst hop
    have hin := hnot (.inl ho)
    have hs := h.symm
    unfold JfsWr.fillReadSqe at hs
    rw [hin] at hs
    exact reads_sges (by decide) hin (by unfold JfsWr.localSges; rw [ho])
      (by unfold JfsWr.blocks; rw [ho]; rfl) (by rw [show getCtlLen opcRead = 48 from rfl]; omega) hs
  case cas =>
    exact reads_fillAtomic (.inl hop.symm) (hnot (.inr (.inl ho))) (by unfold JfsWr.blocks; rw [ho])
      (by unfold JfsWr.localSges; rw [ho]) (by omega) h
  case fadd =>
    exact reads_fillAtomic (.inr hop.symm) (hnot (.inr (.inr ho))) (by unfold JfsWr.blocks; rw [ho])
      (by unfold JfsWr.localSges; rw [ho]) (by omega) h
  case nop =>
    refine reads_empty (.inl hop.symm) (by unfold JfsWr.blocks; rw [ho]) ?_ rfl (by decide) h.symm
    unfold JfsWr.localLen JfsWr.localSges
    rw [ho]
    rfl

end Reads

end UbDkms.Udma
