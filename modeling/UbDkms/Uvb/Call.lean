import UbDkms.Uvb.UbMessage

/-!
# Calls through a UVB window

`cis_info_process.c` and `uvb_info_process.c`: the caller lays its input into the buffer of a
window, says in the window where the output is to go, waits for the peer's answer and copies
the output from the buffer; the server that polls the window takes its sizes from there. A
server that finds its id in the window clears it, and complements the message id when the status
is there; the caller waits for that.

Addresses of the buffer are offsets from its start. What the caller reads of the window after
its request is given read by read (`Seen`), so that the peer may change it in between.
-/

namespace UbDkms.Uvb

open Lib List

abbrev Mem := Nat → BitVec 8

def align8 (n : Nat) : Nat := (n + 7) % 2 ^ 32 / 8 * 8

/-- `checksum32`: the sum of the words, the last one without the bytes behind the data. -/
def checksum32 (data : Mem) (size : Nat) : Nat :=
  (((List.range (size / 4)).map (word data)).sum +
    (pack (fun j => data (4 * (size / 4) + j)) (size % 4)).toNat) % 2 ^ 32

def checksumSpan (off size : Nat) : Span := ⟨off, 4 * ((size + 3) / 4)⟩

/-- The message in `struct udfi_para`. A pointer that may be null is an option; of the output
pointer only that is kept. -/
structure Para where
  messageId : BitVec 32 := 0
  receiverId : Nat := 1
  input : Option Mem
  inputSize : Nat
  output : Bool
  outputSize : Option Nat

/-- `check_msg_vaild`. -/
def checkMsgVaild (p : Para) : Bool :=
  !(p.input.isSome && p.inputSize == 0) && !(p.input.isNone && p.inputSize != 0) &&
    !(p.output && p.outputSize.getD 0 == 0) && !(!p.output && p.outputSize.getD 0 != 0)

abbrev outputSizeNull : Nat := 0xffffffff

/-- `struct uvb_window` without what no function here reads; an address of 0 is `none`. -/
structure Window where
  messageId : BitVec 32 := 0
  receiverId : Nat := 0
  inputAddr : Option Nat
  inputSize : Nat
  inputChecksum : Nat
  outputAddr : Option Nat
  outputSize : Nat
  outputChecksum : Nat
  returnedStatus : BitVec 32

inductive CallErr where
  | eopnotsupp | eoverflow | ebusy | enomem | einval | etimedout
  | status (s : BitVec 32)

/-! ## The caller -/

/-- What the caller's part before the answer leaves: the window and the buffer, the spans of
the buffer it wrote, and `io_params->output`. -/
structure Filled where
  window : Window
  buffer : Mem
  writes : List Span
  ioOutput : Option Nat

/-- `fill_uvb_window_with_buffer`. `remapOk` is the result of `memremap`. The output address is
computed from the mapped input, which is null without an input. -/
def fillUvbWindowWithBuffer (size : Nat) (remapOk : Bool) (w : Window) (buffer : Mem) (p : Para) :
    Except CallErr Filled :=
  if p.outputSize.any fun o => decide (size < o + p.inputSize) then .error .eoverflow
  else
    match p.input with
    | none => .ok ⟨{ w with
        inputAddr := none, inputSize := p.inputSize, outputAddr := none
        outputSize := p.outputSize.getD outputSizeNull }, buffer, [], none⟩
    | some data =>
      if size < p.inputSize then .error .eoverflow
      else if remapOk = false then .error .enomem
      else
        let ioOutput := if p.output then some (align8 p.inputSize) else none
        .ok ⟨{ w with
          inputAddr := some 0, inputSize := p.inputSize
          inputChecksum := checksum32 data p.inputSize
          outputAddr := ioOutput, outputSize := p.outputSize.getD outputSizeNull },
          fun i => if i < p.inputSize then data i else buffer i, [⟨0, p.inputSize⟩], ioOutput⟩

/-- `uvb_fill_window`: the receiver is written when all else is there. -/
def uvbFillWindow (size : Nat) (remapOk : Bool) (w : Window) (buffer : Mem) (p : Para) :
    Except CallErr Filled :=
  (fillUvbWindowWithBuffer size remapOk { w with messageId := p.messageId } buffer p).map fun l =>
    { l with window := { l.window with receiverId := p.receiverId } }

/-- What the caller sees of the window and the buffer, in the order of its reads. -/
structure Seen where
  outputAddr : Option Nat
  size : Nat
  checksum : Nat
  sizeSum : Nat
  atSum : Mem
  sizeCopy : Nat
  atCopy : Mem
  sizeLast : Nat

/-- What a call did. `copied` is what it wrote into the caller's output, `nullCopy` that it
copied from the null pointer. -/
structure Called where
  ret : Option CallErr := none
  spans : List Span := []
  told : Option Span := none
  copied : Option (Nat × Mem) := none
  outputSize : Option Nat := none
  nullCopy : Bool := false

/-- `uvb_get_output_data`; the checksum of a null pointer is `(u32)-1`. -/
def uvbGetOutputData (v : Seen) (ioOutput : Option Nat) (p : Para) : Called :=
  if p.output = false ∨ p.outputSize.getD 0 = 0 then {}
  else if v.outputAddr = none ∨ v.size = outputSizeNull then {}
  else
    match ioOutput with
    | none =>
      if v.checksum = 2 ^ 32 - 1 then
        { copied := some (v.sizeCopy, fun _ => 0), outputSize := some v.sizeLast, nullCopy := true }
      else { ret := some .einval }
    | some off =>
      if v.checksum = checksum32 (fun i => v.atSum (off + i)) v.sizeSum then
        { spans := [checksumSpan off v.sizeSum, ⟨off, v.sizeCopy⟩]
          copied := some (v.sizeCopy, fun i => v.atCopy (off + i)), outputSize := some v.sizeLast }
      else { ret := some .einval, spans := [checksumSpan off v.sizeSum] }

/-- What a call meets: whether the UVB and the index are there, the window it occupies (its
buffer, if it has one, by the size), the allocations, the window and the buffer as they are,
the answer (`none` is the time-out) and what is seen after it. -/
structure CallEnv where
  supported : Bool
  indexOk : Bool
  wd : Option (Option Nat)
  windowOk : Bool
  remapOk : Bool
  window : Window
  buffer : Mem
  answer : Option (BitVec 32)
  seen : Seen

/-- The two calls; `ioOk` is whether there is an `io_param`. -/
def callUvb (ioOk : Bool) (e : CallEnv) (p : Para) : Called :=
  if e.supported = false then { ret := some .eopnotsupp }
  else if e.indexOk = false then { ret := some .eoverflow }
  else
    match e.wd with
    | none => { ret := some .ebusy }
    | some none => { ret := some .eopnotsupp }
    | some (some size) =>
      if ioOk = false ∨ e.windowOk = false then { ret := some .enomem }
      else
        match uvbFillWindow size e.remapOk e.window e.buffer p with
        | .error err => { ret := some err }
        | .ok f =>
          let told := f.window.outputAddr.map fun off => ⟨off, f.window.outputSize⟩
          match e.answer with
          | none => { ret := some .etimedout, spans := f.writes, told }
          | some s =>
            if s ≠ 0 then { ret := some (.status s), spans := f.writes, told }
            else
              let g := uvbGetOutputData e.seen f.ioOutput p
              { g with spans := f.writes ++ g.spans, told }

/-- `cis_call_uvb` allocates its `io_param`. -/
def cisCallUvb (kzallocOk : Bool) (e : CallEnv) (p : Para) : Called := callUvb kzallocOk e p

/-- `cis_call_uvb_sync` has a global one. -/
def cisCallUvbSync (e : CallEnv) (p : Para) : Called := callUvb true e p

/-! ## Staying inside the buffers -/

/-- The call stayed inside the buffer of `size` bytes and inside the caller's output. -/
structure Called.Inside (r : Called) (size : Nat) (p : Para) : Prop where
  spans : ∀ s ∈ r.spans, s.Inside size
  told : ∀ s, r.told = some s → s.Inside size ∧ p.inputSize ≤ s.off
  copied : ∀ n m, r.copied = some (n, m) → n ≤ p.outputSize.getD 0
  noNull : r.nullCopy = false

/-- The message passes the checks of the sizes. -/
structure Para.Accepted (p : Para) (size : Nat) (remapOk : Bool) : Prop where
  sizes : ∀ o, p.outputSize = some o → o + p.inputSize ≤ size
  input : p.input.isSome → p.inputSize ≤ size ∧ remapOk = true

/-- The call is not refused before the message is laid into the window. -/
structure Para.Reaches (p : Para) (ioOk : Bool) (e : CallEnv) (size : Nat) : Prop where
  env : e.supported = true ∧ e.indexOk = true ∧ ioOk = true ∧ e.windowOk = true
  accepted : p.Accepted size e.remapOk

/-- The output fits behind the rounded input. The code checks the two sizes only. -/
def Para.Fits (p : Para) (size : Nat) : Prop :=
  p.output = true → p.input.isSome → p.inputSize ≤ align8 p.inputSize ∧
    align8 p.inputSize + p.outputSize.getD 0 ≤ size

/-- What the caller meets when it reads an output: the words it sums are in the buffer, and what
it copies is in the buffer and fits the caller's output; without an input the checksum is not that
of the null pointer. -/
structure Seen.Kept (v : Seen) (p : Para) (size : Nat) : Prop where
  null : p.input = none → v.checksum ≠ 2 ^ 32 - 1
  sum : p.input.isSome → (checksumSpan (align8 p.inputSize) v.sizeSum).Inside size
  copy : p.input.isSome →
    v.checksum = checksum32 (fun i => v.atSum (align8 p.inputSize + i)) v.sizeSum →
    align8 p.inputSize + v.sizeCopy ≤ size ∧ v.sizeCopy ≤ p.outputSize.getD 0

/-- An output is read. -/
def CallEnv.Reads (e : CallEnv) (p : Para) : Prop :=
  e.answer = some 0 ∧ p.output = true ∧ e.seen.outputAddr ≠ none ∧ e.seen.size ≠ outputSizeNull

section Inside

variable {size : Nat} {p : Para} {e : CallEnv}

theorem checkMsgVaild_sizes (h : checkMsgVaild p) : (p.input = none → p.inputSize = 0) ∧
    (p.output = false → p.outputSize.getD 0 = 0) ∧
    (p.output → ∃ o, p.outputSize = some o ∧ o ≠ 0) := by
  refine ⟨fun hi => ?_, fun ho => ?_, fun ho => ?_⟩
  · simp_all [checkMsgVaild]
  · simp_all [checkMsgVaild]
  · cases hs : p.outputSize with
    | none => simp [checkMsgVaild, ho, hs] at h
    | some o => exact ⟨o, rfl, fun hz => by simp [checkMsgVaild, ho, hs, hz] at h⟩

/-- The output area as the caller sets it. -/
def areaOf (p : Para) : Option Nat :=
  if p.output && p.input.isSome then some (align8 p.inputSize) else none

def laid (p : Para) (b : Mem) : Mem :=
  (p.input.map fun d i => if i < p.inputSize then d i else b i).getD b

def requested (p : Para) (w : Window) : Window :=
  { w with
    messageId := p.messageId, receiverId := p.receiverId
    inputAddr := p.input.map fun _ => 0, inputSize := p.inputSize
    inputChecksum := (p.input.map (checksum32 · p.inputSize)).getD w.inputChecksum
    outputAddr := areaOf p, outputSize := p.outputSize.getD outputSizeNull }

theorem getOutput_inside {v : Seen} (hmsg : checkMsgVaild p) {g : Called}
    (hg : uvbGetOutputData v (areaOf p) p = g) :
    ((∀ s ∈ g.spans, s.Inside size) ∧
      (∀ n m, g.copied = some (n, m) → n ≤ p.outputSize.getD 0) ∧ g.nullCopy = false) ↔
    (p.output = true → v.outputAddr ≠ none → v.size ≠ outputSizeNull → v.Kept p size) := by
  subst hg
  unfold uvbGetOutputData
  cases hout : p.output with
  | false => simp
  | true =>
    obtain ⟨o, ho, ho0⟩ := (checkMsgVaild_sizes hmsg).2.2 hout
    by_cases hread : v.outputAddr = none ∨ v.size = outputSizeNull
    · rw [if_neg (by simp [ho, ho0]), if_pos hread]
      exact iff_of_true (by simp) fun _ h1 h2 => absurd hread (not_or.mpr ⟨h1, h2⟩)
    rw [if_neg (by simp [ho, ho0]), if_neg hread]
    have hread' := not_or.mp hread
    simp only [forall_const, ne_eq, hread', not_false_eq_true]
    cases hin : p.input with
    | none =>
      simp only [areaOf, hout, hin, Option.isSome_none, Bool.and_false, Bool.false_eq_true, if_false]
      split
      · next hc => exact iff_of_false (by simp) fun h => h.null hin hc
      · next hc => exact iff_of_true (by simp) ⟨fun _ => hc, by simp [hin], by simp [hin]⟩
    | some d =>
      have hsome : p.input.isSome := by rw [hin]; rfl
      simp only [areaOf, hout, hin, Option.isSome_some, Bool.and_true, if_true]
      split
      · next hc =>
        refine ⟨fun ⟨h1, h2, _⟩ => ⟨by simp [hin], fun _ => h1 _ (by simp),
          fun _ _ => ⟨h1 ⟨align8 p.inputSize, v.sizeCopy⟩ (by simp), ?_⟩⟩,
          fun h => ⟨?_, ?_, rfl⟩⟩
        · exact h2 _ _ rfl
        · intro s hs
          rcases mem_pair.mp hs with rfl | rfl
          · exact h.sum hsome
          · exact (h.copy hsome hc).1
        · rintro n m ⟨⟩
          exact (h.copy hsome hc).2
      · next hc =>
        refine ⟨fun ⟨h1, _⟩ => ⟨by simp [hin], fun _ => h1 _ (by simp), fun _ h => absurd h hc⟩,
          fun h => ⟨fun s hs => ?_, nofun, rfl⟩⟩
        obtain rfl := mem_singleton.mp hs
        exact h.sum hsome

structure Filled.Laid (f : Filled) (size : Nat) (p : Para) (w : Window) (b : Mem) : Prop where
  window : f.window = requested p w
  buffer : f.buffer = laid p b
  io : f.ioOutput = areaOf p
  writes : ∀ s ∈ f.writes, s.Inside size

theorem fill_cases (size : Nat) (remapOk : Bool) (w : Window) (b : Mem) (p : Para) :
    (p.Accepted size remapOk ∧ ∃ f, uvbFillWindow size remapOk w b p = .ok f ∧ f.Laid size p w b) ∨
    ¬p.Accepted size remapOk ∧ ∃ err, uvbFillWindow size remapOk w b p = .error err := by
  unfold uvbFillWindow fillUvbWindowWithBuffer
  have hany : (p.outputSize.any fun o => decide (size < o + p.inputSize)) = true ↔
      ¬∀ o, p.outputSize = some o → o + p.inputSize ≤ size := by
    cases p.outputSize <;> simp
  split
  · next h => exact .inr ⟨fun hc => hany.mp h hc.sizes, _, rfl⟩
  next h =>
  have hsz := not_not.mp (mt hany.mpr h)
  split
  · next hi =>
    exact .inl ⟨⟨hsz, by simp [hi]⟩, _, rfl, by simp [requested, areaOf, hi], by simp [laid, hi],
      by simp [areaOf, hi], nofun⟩
  next data hi =>
  have hsome : p.input.isSome := by rw [hi]; rfl
  split
  · next hlt => exact .inr ⟨fun hc => by have := (hc.input hsome).1; omega, _, rfl⟩
  next hle =>
  split
  · next hr => exact .inr ⟨fun hc => absurd (hc.input hsome).2 (by rw [hr]; decide), _, rfl⟩
  next hr =>
  refine .inl ⟨⟨hsz, fun _ => ⟨not_lt.mp hle, by simpa using hr⟩⟩, _, rfl,
    by simp [requested, areaOf, hi], by simp [laid, hi], by simp [areaOf, hi], fun s hs => ?_⟩
  obtain rfl := mem_singleton.mp hs
  show 0 + p.inputSize ≤ size
  omega

/-- The area that the window tells the peer is in the buffer and behind the input just where both
parts fit. -/
theorem told_iff_fits (hmsg : checkMsgVaild p) {v w : Window} (hv : v = requested p w) :
    (∀ s, (v.outputAddr.map fun off => (⟨off, v.outputSize⟩ : Span)) = some s →
      s.Inside size ∧ p.inputSize ≤ s.off) ↔ p.Fits size := by
  rw [hv]
  unfold requested areaOf Para.Fits
  cases hout : p.output with
  | false => simp
  | true =>
    obtain ⟨o, ho, -⟩ := (checkMsgVaild_sizes hmsg).2.2 hout
    cases p.input <;> simp [ho, Span.Inside, and_comm]

/-- The call stays inside the buffer and the caller's output, of either kind, exactly when it is
refused, or its output fits with the rounding and, where an output is read, the peer kept to what
it was told. -/
theorem call_stays_inside (kzallocOk : Bool) (hmsg : checkMsgVaild p = true)
    (hwd : e.wd = some (some size)) :
    ((cisCallUvb kzallocOk e p).Inside size p ↔
      (p.Reaches kzallocOk e size → p.Fits size ∧ (e.Reads p → e.seen.Kept p size))) ∧
    ((cisCallUvbSync e p).Inside size p ↔
      (p.Reaches true e size → p.Fits size ∧ (e.Reads p → e.seen.Kept p size))) := by
  suffices h : ∀ ioOk, (callUvb ioOk e p).Inside size p ↔
      (p.Reaches ioOk e size → p.Fits size ∧ (e.Reads p → e.seen.Kept p size)) from ⟨h _, h _⟩
  intro ioOk
  have hrefused : ∀ {r : Called}, (∃ err, r = { ret := some err }) → ¬p.Reaches ioOk e size →
      (r.Inside size p ↔ (p.Reaches ioOk e size → p.Fits size ∧ (e.Reads p → e.seen.Kept p size))) := by
    rintro _ ⟨err, rfl⟩ hnot
    exact iff_of_true ⟨nofun, nofun, nofun, rfl⟩ fun h => absurd h hnot
  unfold callUvb
  rw [hwd]
  split
  · next hs => exact hrefused ⟨_, rfl⟩ fun h => by rw [h.env.1] at hs; cases hs
  split
  · next hi => exact hrefused ⟨_, rfl⟩ fun h => by rw [h.env.2.1] at hi; cases hi
  dsimp only
  split
  · next hio => exact hrefused ⟨_, rfl⟩ fun h => by simp [h.env.2.2.1, h.env.2.2.2] at hio
  next hs hi hio =>
  obtain ⟨hacc, f, hf, hl⟩ | ⟨hno, err, hf⟩ := fill_cases size e.remapOk e.window e.buffer p
  swap
  · rw [hf]
    exact hrefused ⟨_, rfl⟩ fun h => hno h.accepted
  have hreach : p.Reaches ioOk e size := by
    refine ⟨⟨by simpa using hs, by simpa using hi, ?_⟩, hacc⟩
    simpa [not_or] using hio
  rw [forall_prop_of_true hreach, hf]
  dsimp only
  have htold : _ ↔ p.Fits size := told_iff_fits hmsg hl.window
  have hquiet : ∀ {r : Called}, (r.spans, r.copied, r.nullCopy) = (f.writes, none, false) → ¬e.Reads p →
      r.told = (f.window.outputAddr.map fun off => ⟨off, f.window.outputSize⟩) →
      (r.Inside size p ↔ p.Fits size ∧ (e.Reads p → e.seen.Kept p size)) := by
    intro r hr hno ht
    obtain ⟨h1, h2, h3⟩ : r.spans = f.writes ∧ r.copied = none ∧ r.nullCopy = false := by simpa using hr
    rw [← htold, ← ht]
    exact ⟨fun h => ⟨h.told, fun h => absurd h hno⟩,
      fun h => ⟨by rw [h1]; exact hl.writes, h.1, by rw [h2]; exact nofun, h3⟩⟩
  split
  · next ha => exact hquiet rfl (fun h => nomatch ha.symm.trans h.1) rfl
  next st ha =>
  split
  · next hst => exact hquiet rfl (fun h => hst (Option.some.inj (ha.symm.trans h.1))) rfl
  next hst =>
  have hread : e.Reads p ↔ p.output = true ∧ e.seen.outputAddr ≠ none ∧ e.seen.size ≠ outputSizeNull := by
    unfold CallEnv.Reads
    rw [ha, not_not.mp hst]
    simp
  have hget := @getOutput_inside size p e.seen hmsg _ rfl
  rw [hl.io, ← htold, hread]
  simp only [and_imp]
  rw [← hget]
  refine ⟨fun h => ⟨h.told, fun s hs => h.spans s (mem_append_right _ hs), h.copied, h.noNull⟩,
    fun ⟨h1, h2, h3, h4⟩ => ⟨fun s hs => ?_, h1, h3, h4⟩⟩
  exact (mem_append.mp hs).elim (hl.writes s) (h2 s)

def idle : CallEnv :=
  ⟨true, true, some (some 16), true, true, ⟨0, 0, none, 0, 0, none, 0, 0, 0⟩, fun _ => 0, none,
    ⟨none, 0, 0, 0, fun _ => 0, 0, fun _ => 0, 0⟩⟩

def oneByte (n : Nat) : Para := ⟨0xc0000001, 3, some fun _ => 7, 1, true, some n⟩

theorem call_stays_inside_oneByte : (cisCallUvbSync idle (oneByte 8)).Inside 16 (oneByte 8) :=
  (call_stays_inside (e := idle) (p := oneByte 8) true rfl rfl).2.mpr fun _ =>
    ⟨fun _ _ => by decide, fun h => by cases h.1⟩

/-- Where the output takes the rest of the buffer, the peer is told an area that ends seven bytes
behind it. -/
theorem told_area_past_buffer : checkMsgVaild (oneByte 15) = true ∧
    (cisCallUvb true idle (oneByte 15)).told = some ⟨8, 15⟩ ∧ ¬(Span.mk 8 15).Inside 16 :=
  ⟨rfl, rfl, by decide⟩

end Inside

/-! ## The server -/

/-- `is_address_exceed`. -/
def isAddressExceed (size : Nat) (input : Option Nat) (inputSize : Nat) (output : Option Nat)
    (outputSize : Option Nat) : Bool :=
  input.any (fun a => decide (size ≤ a + inputSize)) ||
    output.any fun a => outputSize.any fun n => decide (a < inputSize ∨ size ≤ a + n)

/-- `struct cis_message` as the server fills it. -/
structure CisMessage where
  input : Option Nat
  inputSize : Nat
  output : Option Nat
  outputSize : Option Nat

/-- `uvb_get_input_data` with a buffer that can be mapped. -/
def uvbGetInputData (size : Nat) (w : Window) (buffer : Mem) : Except CallErr CisMessage :=
  let msg : CisMessage :=
    { input := w.inputAddr.map fun _ => 0
      inputSize := w.inputSize
      output := w.outputAddr.map fun _ => align8 w.inputSize
      outputSize := if w.outputSize = outputSizeNull then none else some w.outputSize }
  if isAddressExceed size msg.input msg.inputSize msg.output msg.outputSize then .error .eoverflow
  else if msg.inputSize ≠ 0 ∧ w.inputChecksum ≠
    (if msg.input.isSome then checksum32 buffer msg.inputSize else 2 ^ 32 - 1) then .error .einval
  else .ok msg

/-- `struct cis_func_node`. -/
structure CisFuncNode where
  callId : BitVec 32
  receiverId : Nat
  func : MsgHandler

def searchLocalReceiverId (nodes : List CisFuncNode) (receiverId : Nat) : Bool :=
  nodes.any fun c => c.receiverId == receiverId

def searchLocalCisFunc (nodes : List CisFuncNode) (callId : BitVec 32) (receiverId : Nat) :
    Option MsgHandler :=
  (nodes.find? fun c => c.callId == callId && c.receiverId == receiverId).map (·.func)

def CallErr.code : CallErr → BitVec 32
  | .eoverflow => 0xffffffb5
  | .eopnotsupp => 0xffffffa1
  | _ => 0xffffffea

def uvbReturnStatus (w : Window) (status : BitVec 32) : Window :=
  { w with returnedStatus := status, messageId := ~~~w.messageId }

/-- The window, the buffer and what handlers were run on. -/
structure Polled where
  window : Window
  buffer : Mem
  ran : List (Mem × Nat × Option Nat) := []

/-- The branch of `uvb_polling_window` for a function found. The output is given to the handler
when there are both an address and a size. -/
def Polled.runFunc (s : Polled) (f : MsgHandler) (msg : CisMessage) : Polled :=
  let capacity := msg.output.bind fun _ => msg.outputSize
  let r := f.run s.buffer msg.inputSize capacity
  let off := msg.output.getD 0
  let buffer : Mem := fun i =>
    if off ≤ i ∧ i < off + capacity.getD 0 then r.output (i - off) else s.buffer i
  let outputSize := if capacity.isSome then r.outputSize else s.window.outputSize
  let outputChecksum := if r.err = 0 ∧ capacity.isSome ∧ outputSize ≠ 0 then
    checksum32 (fun i => buffer (off + i)) outputSize else s.window.outputChecksum
  ⟨uvbReturnStatus { s.window with outputSize, outputChecksum } r.err, buffer,
    s.ran ++ [(s.buffer, msg.inputSize, capacity)]⟩

/-- `uvb_polling_window` of a server that forwards nothing. -/
def uvbPollingWindow (size : Nat) (nodes : List CisFuncNode) (s : Polled) : Polled :=
  if searchLocalReceiverId nodes s.window.receiverId = false then s
  else
    let w := { s.window with receiverId := 0 }
    match uvbGetInputData size w s.buffer with
    | .error err => { s with window := uvbReturnStatus w err.code }
    | .ok msg =>
      match searchLocalCisFunc nodes w.messageId s.window.receiverId with
      | none => { s with window := uvbReturnStatus w (CallErr.code .eopnotsupp) }
      | some f => { s with window := w }.runFunc f msg

/-- The window as the caller sees it when nobody changes it any more. -/
def Seen.ofPolled (r : Polled) : Seen :=
  ⟨r.window.outputAddr, r.window.outputSize, r.window.outputChecksum, r.window.outputSize, r.buffer,
    r.window.outputSize, r.buffer, r.window.outputSize⟩

/-- What `n` polls make of the caller's request. -/
def polledAfter (size : Nat) (nodes : List CisFuncNode) (e : CallEnv) (p : Para) (n : Nat) :
    Option Polled :=
  (uvbFillWindow size true e.window e.buffer p).toOption.map fun l =>
    (uvbPollingWindow size nodes)^[n] ⟨l.window, l.buffer, []⟩

/-- `uvb_poll_window_call` waits for the complement of its message id. -/
def answered (size : Nat) (r : Polled) (e : CallEnv) (p : Para) : CallEnv :=
  { e with
    supported := true, indexOk := true, wd := some (some size), windowOk := true, remapOk := true
    answer := if r.window.messageId = ~~~p.messageId then some r.window.returnedStatus else none
    seen := .ofPolled r }

def capacityOf (p : Para) : Option Nat := if p.output then p.outputSize else none

/-- The call, with `n` polls before the caller looks, is a call of the handler `f`: that is run
once, on the caller's input and with the capacity of the caller's output, and the caller gets its
status and, if that is 0, its output. -/
def IsRpc (size : Nat) (nodes : List CisFuncNode) (f : MsgHandler) (e : CallEnv) (p : Para) (n : Nat) :
    Prop :=
  ∃ r m, polledAfter size nodes e p n = some r ∧ r.ran = [(m, p.inputSize, capacityOf p)] ∧
    (∀ d, p.input = some d → ∀ i, i < p.inputSize → m i = d i) ∧
    let ran := f.run m p.inputSize (capacityOf p)
    let c := cisCallUvb true (answered size r e p) p
    (c.ret = if ran.err = 0 then none else some (.status ran.err)) ∧
      (ran.err = 0 → p.output = true → c.outputSize = some ran.outputSize ∧
        ∃ m', c.copied = some (ran.outputSize, m') ∧
          ∀ i, i < ran.outputSize → m' i = ran.output i)

/-- The message fits the window for the server, too: it does not take an area that ends at the
end of the buffer, and an output only behind an input. -/
structure Para.Served (p : Para) (size : Nat) : Prop where
  input : p.input.isSome → p.inputSize < size
  output : p.output = true → p.input.isSome ∧ p.inputSize ≤ align8 p.inputSize ∧
    align8 p.inputSize + p.outputSize.getD 0 < size

section Server

variable {size : Nat} {p : Para} {f : MsgHandler} {w : Window} {b : Mem} {nodes : List CisFuncNode}
  {s : Polled} {e : CallEnv}

theorem pack_congr {f g : Nat → BitVec 8} {n : Nat} (h : ∀ j, j < n → f j = g j) :
    pack f n = pack g n := by
  induction n with
  | zero => rfl
  | succ n ih => rw [pack, pack, ih fun j hj => h j (by omega), h n (by omega)]

theorem checksum32_congr {a b : Mem} {n : Nat} (h : ∀ i, i < n → a i = b i) :
    checksum32 a n = checksum32 b n := by
  unfold checksum32
  rw [pack_congr fun j hj => h (4 * (n / 4) + j) (by omega)]
  rw [map_congr_left fun i hi => ?_]
  have := mem_range.mp hi
  unfold word
  rw [pack_congr fun j hj => h (4 * i + j) (by omega)]

theorem laid_input {d : Mem} (hin : p.input = some d) : ∀ i, i < p.inputSize → laid p b i = d i := by
  intro i hi
  simp [laid, hin, hi]

/-- What the server takes the message to be. -/
def messageOf (p : Para) : CisMessage :=
  { input := p.input.map fun _ => 0
    inputSize := p.inputSize
    output := areaOf p
    outputSize := if p.outputSize.getD outputSizeNull = outputSizeNull then none else p.outputSize }

def exceeds (size : Nat) (msg : CisMessage) : Bool :=
  isAddressExceed size msg.input msg.inputSize msg.output msg.outputSize

theorem getInput_requested (hmsg : checkMsgVaild p) {r : Nat} :
    uvbGetInputData size { requested p w with receiverId := r } (laid p b) =
      if exceeds size (messageOf p) then .error .eoverflow else .ok (messageOf p) := by
  have hout : ((requested p w).outputAddr.map fun _ => align8 p.inputSize) = (messageOf p).output := by
    simp only [messageOf, requested, areaOf]
    split <;> rfl
  have hsize : (if p.outputSize.getD outputSizeNull = outputSizeNull then none
      else some (p.outputSize.getD outputSizeNull)) = (messageOf p).outputSize := by
    unfold messageOf
    cases p.outputSize <;> rfl
  have hin : ((requested p w).inputAddr.map fun _ => 0) = (messageOf p).input := by
    simp only [messageOf, requested, Option.map_map]
    rfl
  have hsum : ¬(p.inputSize ≠ 0 ∧ (requested p w).inputChecksum ≠
      (if (messageOf p).input.isSome then checksum32 (laid p b) p.inputSize else 2 ^ 32 - 1)) := by
    rintro ⟨hne, hc⟩
    cases hi : p.input with
    | none => exact hne ((checkMsgVaild_sizes hmsg).1 hi)
    | some d =>
      apply hc
      rw [checksum32_congr (laid_input hi)]
      simp [requested, messageOf, hi]
  unfold uvbGetInputData
  simp only [show (requested p w).inputSize = p.inputSize from rfl, hout, hin, hsize,
    show (requested p w).outputSize = p.outputSize.getD outputSizeNull from rfl]
  rw [if_neg hsum]
  rfl

/-- The server takes the message as the caller meant it iff it is one it can serve. -/
theorem served_iff (hsize : size < 2 ^ 32) (hmsg : checkMsgVaild p) :
    p.Served size ↔ exceeds size (messageOf p) = false ∧
      ((messageOf p).output.bind fun _ => (messageOf p).outputSize) = capacityOf p := by
  have hdef : p.Served size ↔ _ ∧ _ := ⟨fun h => ⟨h.input, h.output⟩, fun h => ⟨h.1, h.2⟩⟩
  rw [hdef]
  unfold exceeds isAddressExceed messageOf capacityOf areaOf
  cases hout : p.output with
  | false => cases hin : p.input <;> simp
  | true =>
    obtain ⟨o, ho, -⟩ := (checkMsgVaild_sizes hmsg).2.2 hout
    cases hin : p.input with
    | none => simp [ho]
    | some d =>
      by_cases hnull : o = outputSizeNull
      · have : outputSizeNull = 2 ^ 32 - 1 := rfl
        simp [ho, hnull]
        omega
      · simp [ho, hnull]

theorem Para.Served.accepted (hmsg : checkMsgVaild p) (h : p.Served size) : p.Accepted size true := by
  obtain ⟨hnone, hzero, -⟩ := checkMsgVaild_sizes hmsg
  have hin : p.inputSize ≤ size := by
    cases hi : p.input with
    | none => exact hnone hi ▸ Nat.zero_le _
    | some d => exact (h.input (by rw [hi]; rfl)).le
  refine ⟨fun o ho => ?_, fun _ => ⟨hin, rfl⟩⟩
  rw [ho, Option.getD_some] at hzero
  cases hout : p.output with
  | true =>
    obtain ⟨-, h1, h2⟩ := h.output hout
    rw [ho, Option.getD_some] at h2
    omega
  | false =>
    have := hzero hout
    omega

/-- The first poll clears the receiver, so the later ones do nothing. -/
theorem polls_once (h0 : searchLocalReceiverId nodes 0 = false) (n : Nat) :
    (uvbPollingWindow size nodes)^[n + 1] s = uvbPollingWindow size nodes s := by
  have hidle : ∀ {t : Polled}, searchLocalReceiverId nodes t.window.receiverId = false →
      uvbPollingWindow size nodes t = t := fun h => if_pos h
  rw [Function.iterate_succ_apply]
  refine Function.iterate_fixed (hidle ?_) n
  unfold uvbPollingWindow
  split
  · assumption
  · dsimp only
    split
    · exact h0
    · split <;> exact h0

theorem searchLocalReceiverId_of_func {callId : BitVec 32} {r : Nat}
    (h : searchLocalCisFunc nodes callId r = some f) : searchLocalReceiverId nodes r = true := by
  obtain ⟨c, hc, -⟩ := Option.map_eq_some_iff.mp h
  have hm := find?_some hc
  exact any_eq_true.mpr ⟨c, mem_of_find?_eq_some hc, (Bool.and_eq_true_iff.mp hm).2⟩

theorem polled_requested (hmsg : checkMsgVaild p)
    (hf : searchLocalCisFunc nodes p.messageId p.receiverId = some f) :
    uvbPollingWindow size nodes ⟨requested p w, laid p b, []⟩ =
      if exceeds size (messageOf p) then
        ⟨uvbReturnStatus { requested p w with receiverId := 0 } (CallErr.code .eoverflow), laid p b, []⟩
      else Polled.runFunc ⟨{ requested p w with receiverId := 0 }, laid p b, []⟩ f (messageOf p) := by
  unfold uvbPollingWindow
  rw [if_neg (by simp [requested, searchLocalReceiverId_of_func hf])]
  dsimp only
  rw [getInput_requested hmsg]
  cases exceeds size (messageOf p) with
  | true => rfl
  | false =>
    simp only [Bool.false_eq_true, if_false]
    rw [show searchLocalCisFunc nodes (requested p w).messageId (requested p w).receiverId = some f
      from hf]

theorem runFunc_some {msg : CisMessage} {off o : Nat} {ran : Ran} (hout : msg.output = some off)
    (hsize : msg.outputSize = some o) (hran : f.run s.buffer msg.inputSize (some o) = ran)
    (herr : ran.err = 0) {r : Polled} (hr : s.runFunc f msg = r) :
    r.window.outputSize = ran.outputSize ∧
      (r.window.outputChecksum = if ran.outputSize ≠ 0 then
        checksum32 (fun i => r.buffer (off + i)) ran.outputSize else s.window.outputChecksum) ∧
      ∀ i, i < o → r.buffer (off + i) = ran.output i := by
  subst hr
  simp +contextual [Polled.runFunc, hout, hsize, hran, herr, uvbReturnStatus]

/-- The caller finds the sum of the output, unless the output has no bytes and an older sum stands
in the window. -/
theorem checksum_iff (old : Nat) {sum n : Nat} {m : Mem}
    (h : sum = if n ≠ 0 then checksum32 m n else old) :
    sum = checksum32 m n ↔ (n = 0 → old = 0) := by
  rw [h]
  by_cases hz : n = 0
  · rw [if_neg (not_not.mpr hz), hz, forall_prop_of_true rfl]
    rfl
  · rw [if_pos hz]
    exact iff_of_true rfl fun h => absurd h hz

/-- What the caller makes of a window in which the handler was run. -/
theorem call_after_run (hmsg : checkMsgVaild p) (hs : p.Served size) (hsize : size < 2 ^ 32)
    (hcap : ((messageOf p).output.bind fun _ => (messageOf p).outputSize) = capacityOf p) {r : Polled}
    (hr : Polled.runFunc ⟨{ requested p e.window with receiverId := 0 }, laid p e.buffer, []⟩ f
      (messageOf p) = r) {ran : Ran} (hran : f.run (laid p e.buffer) p.inputSize (capacityOf p) = ran)
    {c : Called} (hc : cisCallUvb true (answered size r e p) p = c) :
    ((c.ret = if ran.err = 0 then none else some (.status ran.err)) ∧
      (ran.err = 0 → p.output = true → c.outputSize = some ran.outputSize ∧
        ∃ m', c.copied = some (ran.outputSize, m') ∧ ∀ i, i < ran.outputSize → m' i = ran.output i)) ↔
      (p.output = true → ran.err = 0 → ran.outputSize = 0 → e.window.outputChecksum = 0) := by
  obtain ⟨-, l, hl, hlaid⟩ | ⟨hno, -⟩ := fill_cases size true e.window e.buffer p
  swap
  · exact absurd (hs.accepted hmsg) hno
  have hid : r.window.messageId = ~~~p.messageId := by rw [← hr]; rfl
  have hstatus : r.window.returnedStatus = ran.err := by
    rw [← hr, ← hran, ← hcap]
    rfl
  simp only [cisCallUvb, callUvb, answered, hid, hl, hlaid.io, hstatus, Bool.true_eq_false, if_false,
    or_self, if_true] at hc
  by_cases herr : ran.err = 0
  swap
  · rw [if_pos herr] at hc
    subst hc
    exact iff_of_true ⟨(if_neg herr).symm, fun h => absurd h herr⟩ fun _ h => absurd h herr
  rw [if_neg (not_not.mpr herr)] at hc
  cases hout : p.output with
  | false =>
    have hg : ∀ v io, uvbGetOutputData v io p = {} := fun _ _ => if_pos (.inl hout)
    subst hc
    simp [hg, herr]
  | true =>
    obtain ⟨o, ho, ho0⟩ := (checkMsgVaild_sizes hmsg).2.2 hout
    obtain ⟨hin, hoff, hroom⟩ := hs.output hout
    rw [ho, Option.getD_some] at hroom
    have harea : areaOf p = some (align8 p.inputSize) := by simp [areaOf, hout, hin]
    have hcapo : capacityOf p = some o := by simp [capacityOf, hout, ho]
    have hle : ran.outputSize ≤ o := by
      rw [← hran, hcapo]
      exact f.lowers
    have hcap' : (messageOf p).outputSize = some o := by
      rw [show (messageOf p).output = some (align8 p.inputSize) from harea] at hcap
      exact hcap.trans hcapo
    obtain ⟨hsz, hchk, hbuf⟩ := runFunc_some harea hcap' (hcapo ▸ hran) herr hr
    have hsum := checksum_iff e.window.outputChecksum hchk
    have hnull : ran.outputSize ≠ outputSizeNull := by
      have : outputSizeNull = 2 ^ 32 - 1 := rfl
      omega
    have haddr : r.window.outputAddr = some (align8 p.inputSize) := by
      rw [← hr]
      exact harea
    have hg : ¬(p.output = false ∨ p.outputSize.getD 0 = 0) := by simp [hout, ho, ho0]
    subst hc
    simp only [uvbGetOutputData, if_neg hg, Seen.ofPolled, hsz, haddr, harea, hnull, or_self, if_false,
      reduceCtorEq, herr, if_true, forall_const]
    rw [← hsum]
    split
    · next h => exact iff_of_true ⟨rfl, rfl, _, rfl, fun i hi => hbuf i (hi.trans_le hle)⟩ h
    · next h => exact iff_of_false (fun hc => by cases hc.1) h

/-- A call is a call of the handler exactly when the server can take the message and, where the
handler leaves an output of no bytes, the window had no checksum: the server writes none then. -/
theorem call_is_rpc (n : Nat) (hsize : size < 2 ^ 32) (hmsg : checkMsgVaild p = true)
    (hf : searchLocalCisFunc nodes p.messageId p.receiverId = some f)
    (h0 : searchLocalReceiverId nodes 0 = false) :
    IsRpc size nodes f e p (n + 1) ↔ p.Served size ∧
      let ran := f.run (laid p e.buffer) p.inputSize (capacityOf p)
      (p.output = true → ran.err = 0 → ran.outputSize = 0 → e.window.outputChecksum = 0) := by
  unfold IsRpc polledAfter
  obtain ⟨hacc, l, hl, h⟩ | ⟨hno, err, hl⟩ := fill_cases size true e.window e.buffer p
  swap
  · refine iff_of_false ?_ fun h => hno (h.1.accepted hmsg)
    rintro ⟨r, m, hr, -⟩
    rw [hl] at hr
    cases hr
  rw [hl]
  simp only [Except.toOption, Option.map_some, Option.some.injEq, polls_once h0, h.window, h.buffer,
    polled_requested hmsg hf]
  have hiff := served_iff hsize hmsg
  cases hex : exceeds size (messageOf p) with
  | true =>
    refine iff_of_false ?_ fun h => absurd (hiff.mp h.1).1 (by rw [hex]; decide)
    rintro ⟨r, m, rfl, hran, -⟩
    cases hran
  | false =>
    simp only [Bool.false_eq_true, if_false]
    constructor
    · rintro ⟨r, m, hr, hran, -, hrest⟩
      have heq : [(laid p e.buffer, p.inputSize,
          (messageOf p).output.bind fun _ => (messageOf p).outputSize)] =
          [(m, p.inputSize, capacityOf p)] := by rw [← hran, ← hr]; rfl
      simp only [cons.injEq, Prod.mk.injEq, true_and, and_true] at heq
      obtain ⟨rfl, hcap⟩ := heq
      have hs := hiff.mpr ⟨hex, hcap⟩
      exact ⟨hs, (call_after_run hmsg hs hsize hcap hr rfl rfl).mp hrest⟩
    · rintro ⟨hs, hsum⟩
      have hcap := (hiff.mp hs).2
      refine ⟨_, laid p e.buffer, rfl, ?_, fun d hd => laid_input hd,
        (call_after_run hmsg hs hsize hcap rfl rfl rfl).mpr hsum⟩
      simp only [Polled.runFunc, nil_append, hcap]
      rfl

def oneFunc (f : MsgHandler) (p : Para) : List CisFuncNode := [⟨p.messageId, p.receiverId, f⟩]

theorem call_is_rpc_oneByte : IsRpc 16 (oneFunc reader (oneByte 4)) reader idle (oneByte 4) 3 :=
  (call_is_rpc 2 (by decide) rfl rfl rfl).mpr ⟨⟨by decide, by decide⟩, fun _ _ _ => rfl⟩

/-- An input that fills the buffer is refused, and an output without an input is never given to
the handler. -/
theorem served_refusals :
    let full : Para := ⟨0xc0000001, 3, some fun _ => 7, 16, false, none⟩
    let noInput : Para := ⟨0xc0000001, 3, none, 0, true, some 4⟩
    (∃ r, polledAfter 16 (oneFunc reader full) idle full 1 = some r ∧ r.ran = []) ∧
      ∃ r m, polledAfter 16 (oneFunc reader noInput) idle noInput 1 = some r ∧ r.ran = [(m, 0, none)] :=
  ⟨⟨_, rfl, rfl⟩, _, _, rfl, rfl⟩

end Server

end UbDkms.Uvb
