import UbDkms.Lib.Reach
import Mathlib.Tactic

/-!
# The response slots of the vMMU

`ubmem_vmmu_handle_req_vm`: under the lock a request takes the first free slot, is copied to
the ring and rings the doorbell; then it polls the slot. At the doorbell the host takes the
request and clears the state of the slot; it writes the result later. A request that timed out
gives its slot back all the same.
-/

namespace UbDkms.Ubmem

open Lib Function

/-- The bytes `ubmem_vmmu_init_device_resource` allocates for the bitmap, a `u32`:
`BITS_TO_COMPAT_LONGS` counts words of 32 bits. -/
def bitmapSize (slotNum : Nat) : Nat := (slotNum + 31) % 2 ^ 64 / 32 % 2 ^ 32

/-- Where the ring begins behind the first slot, a `u32` too. -/
def slotSize (slotNum : Nat) : Nat := 8 * slotNum % 2 ^ 32

/-- The end of the bytes that `set_bit` and `clear_bit` access. -/
def bitEnd (slot : Nat) : Nat := 8 * (slot / 64) + 8

/-- The word of the bit is allocated, and the slot lies before the ring. -/
def Inside (slotNum slot : Nat) : Prop := bitEnd slot ≤ bitmapSize slotNum ∧ 8 * slot + 8 ≤ slotSize slotNum

/-- Where a request is; the result is nothing for `-ETIMEDOUT`. -/
inductive SlotReq where
  | start
  | waiting (slot : Nat)
  | polled (slot : Nat) (res : Option Nat)
  | returned (res : Option Nat)
  deriving DecidableEq

/-- The device and the host: `state` has the result of a slot whose state is not 0, and `owed`
the slot of a request that the host has not answered. -/
structure Slots where
  slotNum : Nat
  bitmap : Nat → Bool := fun _ => false
  state : Nat → Option Nat := fun _ => none
  req : Nat → SlotReq := fun _ => .start
  owed : Nat → Option Nat := fun _ => none

/-- `last` tells that the attempt to find a slot is the last one. -/
inductive SlotAct where
  | take (r : Nat) (last : Bool)
  | answer (r : Nat)
  | poll (r : Nat) (timeout : Bool)
  | release (r : Nat)
  /-- Memory behind the bitmap is written by its owner. -/
  | other (i : Nat) (bit : Bool)

namespace Slots

def findFirstZeroBit (s : Slots) : Option Nat := (List.range s.slotNum).find? (!s.bitmap ·)

/-- `res r` is what the host answers to request `r`. -/
def step (res : Nat → Nat) (s : Slots) : SlotAct → Slots
  | .take r last =>
    match s.req r, s.findFirstZeroBit with
    | .start, some i =>
      { s with
        bitmap := update s.bitmap i true
        state := update s.state i none
        req := update s.req r (.waiting i)
        owed := update s.owed r (some i) }
    | .start, none => if last then { s with req := update s.req r (.returned none) } else s
    | _, _ => s
  | .answer r =>
    match s.owed r with
    | some i => { s with state := update s.state i (some (res r)), owed := update s.owed r none }
    | none => s
  | .poll r timeout =>
    match s.req r with
    | .waiting i =>
      if (s.state i).isSome ∨ timeout then { s with req := update s.req r (.polled i (s.state i)) }
      else s
    | _ => s
  | .release r =>
    match s.req r with
    | .polled i v =>
      { s with bitmap := update s.bitmap i false, req := update s.req r (.returned v) }
    | _ => s
  | .other i bit => if bitEnd i ≤ bitmapSize s.slotNum then s else { s with bitmap := update s.bitmap i bit }

/-- A slot is looked for while one inside is free. -/
def Room (s : Slots) : SlotAct → Prop
  | .take .. => ∃ i < s.slotNum, Inside s.slotNum i ∧ s.bitmap i = false
  | _ => True

/-- Besides, the host has answered a request, also one that timed out, when its slot is given
back. -/
def Prompt (s : Slots) (a : SlotAct) : Prop := s.Room a ∧ ∀ r, a = .release r → s.owed r = none

/-- The slot of a request that has not returned. -/
def slotOf (s : Slots) (r : Nat) : Option Nat :=
  match s.req r with
  | .waiting i | .polled i _ => some i
  | _ => none

/-- Who has the slots, whatever the host does. -/
structure Owned (n : Nat) (s : Slots) : Prop where
  num : s.slotNum = n
  inside : ∀ r i, s.slotOf r = some i → Inside n i
  bits : ∀ i, Inside n i → (s.bitmap i = true ↔ ∃ r, s.slotOf r = some i)
  sole : ∀ r r' i, s.slotOf r = some i → s.slotOf r' = some i → r = r'

/-- What the host owes and what the requests have got. -/
structure Served (res : Nat → Nat) (s : Slots) : Prop where
  owed : ∀ r i, s.owed r = some i → s.slotOf r = some i ∧ s.state i = none
  answered : ∀ r i, s.req r = .waiting i → s.owed r = some i ∨ s.state i = some (res r)
  polled : ∀ r i v, s.req r = .polled i (some v) → v = res r
  returned : ∀ r v, s.req r = .returned (some v) → v = res r

variable {res : Nat → Nat} {s : Slots} {n : Nat} {a : SlotAct}

theorem inside_mono {i j : Nat} (h : Inside n j) (hij : i ≤ j) : Inside n i := by
  unfold Inside bitEnd at *
  omega

/-- The first free slot is inside and nobody's. -/
theorem Owned.first (h : s.Owned n) {r i : Nat} {last : Bool} (ha : s.Room (.take r last))
    (hi : s.findFirstZeroBit = some i) : Inside n i ∧ s.bitmap i = false ∧ ∀ r, s.slotOf r ≠ some i := by
  obtain ⟨j, -, hj, hjf⟩ := ha
  rw [h.num] at hj
  have hfree : s.bitmap i = false := by simpa using List.find?_some hi
  have hle : i ≤ j := by
    by_contra hlt
    simpa [hjf] using (List.find?_range_eq_some.mp hi).2.2 j (by omega)
  have hin := inside_mono hj hle
  refine ⟨hin, hfree, fun r hr => ?_⟩
  rw [(h.bits i hin).mpr ⟨r, hr⟩] at hfree
  cases hfree

theorem Owned.step (h : s.Owned n) (ha : s.Room a) : (s.step res a).Owned n := by
  obtain ⟨h1, h2, h3, h4⟩ := id h
  simp only [slotOf] at h2 h3 h4
  cases a with
  | take r last =>
    unfold Slots.step
    dsimp only
    split
    · next i hr hi =>
      obtain ⟨hin, hfree, hno⟩ := h.first ha hi
      constructor <;> simp only [slotOf, update_apply] <;> grind
    · split
      · constructor <;> simp only [slotOf, update_apply] <;> grind
      · exact h
    · exact h
  | answer r =>
    unfold Slots.step
    dsimp only
    split <;> exact ⟨h1, h2, h3, h4⟩
  | poll r timeout =>
    unfold Slots.step
    dsimp only
    split
    · split
      · constructor <;> simp only [slotOf, update_apply] <;> grind
      · exact h
    · exact h
  | release r =>
    unfold Slots.step
    dsimp only
    split
    · constructor <;> simp only [slotOf, update_apply] <;> grind
    · exact h
  | other i bit =>
    unfold Slots.step
    dsimp only
    split
    · exact h
    · next hout =>
      refine ⟨h1, h2, fun j hj => ?_, h4⟩
      have hne : j ≠ i := fun hji => hout (hji ▸ h1.symm ▸ hj.1)
      simp only [update_of_ne hne]
      exact h.bits j hj

theorem Served.step (h : s.Served res) (ho : s.Owned n) (ha : s.Prompt a) : (s.step res a).Served res := by
  obtain ⟨h1, h2, h3, h4⟩ := id h
  have hsole := ho.sole
  simp only [slotOf] at h1 hsole
  cases a with
  | take r last =>
    unfold Slots.step
    dsimp only
    split
    · next i hr hi =>
      -- so clearing its state concerns no other request
      obtain ⟨-, -, hno⟩ := ho.first ha.1 hi
      simp only [slotOf] at hno
      constructor <;> simp only [slotOf, update_apply] <;> grind
    · split
      · constructor <;> simp only [slotOf, update_apply] <;> grind
      · exact h
    · exact h
  | answer r =>
    unfold Slots.step
    dsimp only
    split
    · constructor <;> simp only [slotOf, update_apply] <;> grind
    · exact h
  | poll r timeout =>
    unfold Slots.step
    dsimp only
    split
    · split
      · constructor <;> simp only [slotOf, update_apply] <;> grind
      · exact h
    · exact h
  | release r =>
    have hr : s.owed r = none := ha.2 r rfl
    unfold Slots.step
    dsimp only
    split
    · constructor <;> simp only [slotOf, update_apply] <;> grind
    · exact h
  | other i bit =>
    unfold Slots.step
    dsimp only
    split <;> exact ⟨h1, h2, h3, h4⟩

theorem owned_init : Owned n { slotNum := n } := by
  constructor <;> simp [slotOf]

/-- Bits are accessed in the bytes allocated only, a slot serves one unanswered request, and
what a request returns is the host's result for it. -/
theorem slots_serve (h : Reach Prompt (step res) { slotNum := n } s) :
    (∀ r i, s.slotOf r = some i → Inside n i) ∧
    (∀ r r' i, s.owed r = some i → s.owed r' = some i → r = r') ∧
    ∀ r v, s.req r = .returned (some v) → v = res r := by
  have hs : s.Owned n ∧ s.Served res := by
    apply h.invariant (I := fun s => s.Owned n ∧ s.Served res)
    · exact ⟨owned_init, by constructor <;> simp⟩
    · exact fun _ _ hs ha => ⟨hs.1.step ha.1, hs.2.step hs.1 ha⟩
  refine ⟨hs.1.inside, fun r r' i hr hr' => ?_, hs.2.returned⟩
  apply hs.1.sole r r' i
  · exact (hs.2.owed r i hr).1
  · exact (hs.2.owed r' i hr').1

def oneServed : List SlotAct := [.take 0 false, .answer 0, .poll 0 false, .release 0]

theorem oneServed_prompt : Reach.Along Prompt (step (· + 5)) { slotNum := 256 } oneServed := by
  have hroom : ∃ i < 256, Inside 256 i ∧ false = false := ⟨0, by decide, ⟨by decide, by decide⟩, rfl⟩
  exact ⟨⟨hroom, nofun⟩, ⟨trivial, nofun⟩, ⟨trivial, nofun⟩, ⟨trivial, fun r hr => by cases hr; rfl⟩, trivial⟩

theorem slots_serve_one :
    (oneServed.foldl (step (· + 5)) { slotNum := 256 }).req 0 = .returned (some 5) ∧ 5 = 0 + 5 :=
  ⟨by decide, (slots_serve (Reach.init.along oneServed_prompt)).2.2 0 5 (by decide)⟩

/-- The bitmap of 64 slots has two bytes; and request 1 returns the result of request 0, which
timed out in the same slot. -/
theorem late_answer_taken : bitmapSize 64 < bitEnd 0 ∧
    ([.take 0 false, .poll 0 true, .release 0, .take 1 false, .answer 0, .poll 1 false,
      .release 1].foldl (step id) { slotNum := 64 }).req 1 = .returned (some 0) := by
  decide

/-- In every run in which a slot is looked for while one inside is free, also with time-outs,
late answers and anything behind the bitmap: the requests in progress have slots inside, each one
of its own; the bits of these slots are those that are set; and one inside is found iff one has no
request. -/
theorem slots_owned (h : Reach Room (step res) { slotNum := n } s) :
    (∀ r i, s.slotOf r = some i → Inside n i) ∧
    (∀ r r' i, s.slotOf r = some i → s.slotOf r' = some i → r = r') ∧
    (∀ i, Inside n i → (s.bitmap i = true ↔ ∃ r, s.slotOf r = some i)) ∧
    ((∃ i, s.findFirstZeroBit = some i ∧ Inside n i) ↔
      ∃ i < n, Inside n i ∧ ∀ r, s.slotOf r ≠ some i) := by
  have ho : s.Owned n := h.invariant owned_init fun _ _ ho ha => ho.step ha
  have hbit : ∀ i, Inside n i → (s.bitmap i = false ↔ ∀ r, s.slotOf r ≠ some i) := fun i hi => by
    rw [← Bool.not_eq_true, ho.bits i hi, not_exists]
  refine ⟨ho.inside, ho.sole, ho.bits, fun ⟨i, hi, hin⟩ => ?_, fun ⟨i, hlt, hin, hno⟩ => ?_⟩
  · obtain ⟨hfree, hlt, -⟩ := List.find?_range_eq_some.mp hi
    rw [List.mem_range, ho.num] at hlt
    exact ⟨i, hlt, hin, (hbit i hin).mp (by simpa using hfree)⟩
  · have hroom : s.Room (.take 0 true) := by
      unfold Room
      rw [ho.num]
      exact ⟨i, hlt, hin, (hbit i hin).mpr hno⟩
    have hsome : s.findFirstZeroBit.isSome := by
      rw [findFirstZeroBit, List.find?_isSome, ho.num]
      exact ⟨i, List.mem_range.mpr hlt, by simp [(hbit i hin).mpr hno]⟩
    obtain ⟨j, hj⟩ := Option.isSome_iff_exists.mp hsome
    exact ⟨j, hj, (ho.first hroom hj).1⟩

theorem slots_owned_one :
    (oneServed.foldl (step (· + 5)) { slotNum := 256 }).bitmap 0 = false ∧
    ∃ i, (oneServed.foldl (step (· + 5)) { slotNum := 256 }).findFirstZeroBit = some i ∧ Inside 256 i := by
  have h := slots_owned ((Reach.init.along oneServed_prompt).mono fun _ _ h => h.1)
  have hin : Inside 256 0 := ⟨by decide, by decide⟩
  refine ⟨by decide, h.2.2.2.mpr ⟨0, by decide, hin, fun r hr => ?_⟩⟩
  exact absurd ((h.2.2.1 0 hin).mpr ⟨r, hr⟩) (by decide)

end Slots

end UbDkms.Ubmem
