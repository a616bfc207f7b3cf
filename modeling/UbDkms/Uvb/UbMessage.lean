import UbDkms.Lib.Bytes

/-!
# UVB messages from the UB command queue

`cis_ub.c`: `uvb_handle_cmdq_event` takes a packet that another node sent, looks up the local
function for its call id, runs it on the packet's data and sends the response back. Every
access to the packet and to the response is recorded as a span of bytes, so that one outside
its buffer can be named; the bytes behind the packet are whatever lies there.
-/

namespace UbDkms.Uvb

open Lib List

/-- Bytes `off .. off + size - 1` of a buffer. -/
structure Span where
  off : Nat
  size : Nat
deriving DecidableEq

abbrev Span.Inside (s : Span) (n : Nat) : Prop := s.off + s.size ≤ n

def Span.shift (k : Nat) (s : Span) : Span := { s with off := k + s.off }

/-- `struct msg_pkt_header` without the reserved fields and those that no function here uses.
`status` is the union of `output_buffer_size` and `returned_status`. -/
structure MsgPktHeader where
  cfg : Nat := 0
  dcna : Nat := 0
  scna : Nat := 0
  nthNlp : Nat := 0
  mm : Nat := 0
  seidH : Nat := 0
  upi : Nat := 0
  ctphNlp : Nat := 0
  tpOpcode : Nat := 0
  deid : Nat := 0
  seidL : Nat := 0
  iniTassn : Nat := 0
  ee : Nat := 0
  taOpcode : Nat := 0
  iniRcId : Nat := 0
  plen : Nat := 0
  rsp : Nat := 0
  msgCode : Nat := 0
  subMsgCode : Nat := 0
  type : Nat := 0
  version : Nat := 0
  messageId : Nat := 0
  senderId : Nat := 0
  receiverId : Nat := 0
  status : Nat := 0
  dataTotalSize : Nat := 0

abbrev sizeofHeader : Nat := 56
abbrev sizeofPayload : Nat := 24

def word (data : Nat → BitVec 8) (i : Nat) : Nat := (pack (fun j => data (4 * i + j)) 4).toNat

def bits (w lo n : Nat) : Nat := w / 2 ^ lo % 2 ^ n

/-- The packet read as a header, as far as the functions read it. -/
def MsgPktHeader.ofBytes (data : Nat → BitVec 8) : MsgPktHeader where
  dcna := bits (word data 1) 0 16
  scna := bits (word data 1) 16 16
  seidH := bits (word data 3) 0 8
  upi := bits (word data 3) 8 16
  deid := bits (word data 4) 0 20
  seidL := bits (word data 4) 20 12
  iniTassn := bits (word data 5) 0 16
  ee := bits (word data 5) 20 2
  iniRcId := bits (word data 6) 0 20
  plen := bits (word data 7) 0 12
  messageId := word data 9
  senderId := word data 10
  receiverId := word data 11
  status := word data 12
  dataTotalSize := word data 13

def seidHigh (eid : Nat) : Nat := eid / 2 ^ 12 % 2 ^ 8
def seidLow (eid : Nat) : Nat := eid % 2 ^ 12
def eidGen (eidH eidL : Nat) : Nat := eidH * 2 ^ 12 + eidL

/-- `ub_msg_header_init`. -/
def ubMsgHeaderInit (h : MsgPktHeader) : MsgPktHeader :=
  { h with
    cfg := 6, nthNlp := 0, mm := 0, ctphNlp := 2, tpOpcode := 0, taOpcode := 0x10
    msgCode := 3, subMsgCode := 1, type := 1, version := 1 }

/-- `setup_resp_pkt`. -/
def setupRespPkt (resp rcv : MsgPktHeader) : MsgPktHeader :=
  { ubMsgHeaderInit resp with
    upi := rcv.upi
    messageId := 2 ^ 32 - 1 - rcv.messageId
    senderId := rcv.senderId
    receiverId := rcv.receiverId
    dcna := rcv.scna
    deid := eidGen rcv.seidH rcv.seidL
    scna := rcv.dcna
    seidL := seidLow rcv.deid
    seidH := seidHigh rcv.deid
    rsp := 1
    iniTassn := rcv.iniTassn
    iniRcId := rcv.iniRcId
    ee := rcv.ee }

/-- The words of the packet that `setup_resp_pkt` reads. -/
def setupReads : List Span := [3, 9, 10, 11, 1, 4, 5, 6].map fun i => ⟨4 * i, 4⟩

/-- `check_pload_valid`; `UBIOS_GET_MESSAGE_FLAG` is the top two bits of the message id. -/
def checkPloadValid (h : MsgPktHeader) (len : Nat) : Bool :=
  !(h.senderId == 0 || h.receiverId == 0) && h.messageId / 2 ^ 30 == 3 &&
    !(decide (sizeofHeader < len) && h.dataTotalSize == 0) &&
    !(len == sizeofHeader && h.dataTotalSize != 0)

/-! ## Handlers -/

/-- What a run of a handler did: its result, the spans of the input it read, the spans of the
output it touched, what it left there and the output size it left. -/
structure Ran where
  err : BitVec 32
  reads : List Span
  touched : List Span
  output : Nat → BitVec 8
  outputSize : Nat

/-- A registered function that stays inside its two areas and does not raise the output size.
It gets the input, its size and, if there is an output, the size of that. -/
structure MsgHandler where
  run : (Nat → BitVec 8) → Nat → Option Nat → Ran
  reads : ∀ {data n o}, ∀ s ∈ (run data n o).reads, s.Inside n
  touched : ∀ {data n o}, ∀ s ∈ (run data n o).touched, s.Inside (o.getD 0)
  lowers : ∀ {data n m}, (run data n (some m)).outputSize ≤ m

/-! ## The event -/

inductive CmdqErr where
  | einval | eopnotsupp | enomem | send

/-- What is given to `ubase_cmd_send_in`. -/
structure Sent where
  dataSize : Nat
  header : MsgPktHeader
  output : Nat → BitVec 8

structure Handled where
  ret : Option CmdqErr
  reads : List Span
  alloc : Option Nat := none
  touched : List Span := []
  sent : Option Sent := none

/-- `output_size`: `UVB_OUTPUT_SIZE_NULL` stands for none. -/
def outputSizeOf (h : MsgPktHeader) : Nat := if h.status = 0xffffffff then 0 else h.status

/-- The output size the handler leaves; without an output there is none to leave. -/
def leftSize (f : MsgHandler) (h : MsgPktHeader) (data : Nat → BitVec 8) : Nat :=
  if outputSizeOf h = 0 then 0
  else (f.run (fun i => data (sizeofHeader + i)) h.dataTotalSize (some (outputSizeOf h))).outputSize

/-- `uvb_handle_cmdq_event`. `search` is `search_local_cis_func`; `allocOk` and `sendOk` are the
results of `kzalloc` and `ubase_cmd_send_in`. -/
def uvbHandleCmdqEvent (search : Nat → Nat → Option MsgHandler) (allocOk sendOk : Bool)
    (data : Nat → BitVec 8) (len : Nat) : Handled :=
  let h := MsgPktHeader.ofBytes data
  let outputSize := outputSizeOf h
  let reads : List Span := [⟨48, 4⟩, ⟨52, 4⟩, ⟨28, 4⟩]
  -- the subtraction is one of `size_t`
  if (h.plen + 2 ^ 64 - sizeofPayload) % 2 ^ 64 < h.dataTotalSize then { ret := some .einval, reads }
  else
    let reads := reads ++ [⟨40, 4⟩, ⟨44, 4⟩, ⟨36, 4⟩]
    if checkPloadValid h len = false then { ret := some .einval, reads }
    else
      match search h.messageId h.receiverId with
      | none => { ret := some .eopnotsupp, reads }
      | some f =>
        if allocOk = false then { ret := some .enomem, reads }
        else
          let ran := f.run (fun i => data (sizeofHeader + i)) h.dataTotalSize
            (if outputSize = 0 then none else some outputSize)
          let left := leftSize f h data
          let resp := setupRespPkt { dataTotalSize := left } h
          let dataSize := (sizeofHeader + left) % 2 ^ 32
          { ret := if sendOk then none else some .send
            reads := reads ++ ran.reads.map (Span.shift sizeofHeader) ++ setupReads
            alloc := some (sizeofHeader + outputSize)
            touched := ⟨0, sizeofHeader⟩ :: ran.touched.map (Span.shift sizeofHeader) ++ [⟨0, dataSize⟩]
            sent := some
              { dataSize
                header := { resp with
                  plen := (left + sizeofPayload) % 2 ^ 12, status := ran.err.toNat }
                output := ran.output } }

/-- A response carries the output size the handler left, in its data size and in its payload length
of 12 bits, and goes back to where `h` came from. -/
structure Sent.Answers (p : Sent) (h : MsgPktHeader) (left : Nat) : Prop where
  size : p.dataSize = sizeofHeader + left
  total : p.header.dataTotalSize = left
  plen : p.header.plen = left + sizeofPayload
  dcna : p.header.dcna = h.scna
  deid : p.header.deid = eidGen h.seidH h.seidL

/-- Every access is inside its buffer, and a response that is sent answers the packet. -/
structure Handled.Safe (r : Handled) (search : Nat → Nat → Option MsgHandler) (h : MsgPktHeader)
    (data : Nat → BitVec 8) (len : Nat) : Prop where
  reads : ∀ s ∈ r.reads, s.Inside len
  touched : ∀ s ∈ r.touched, ∃ n, r.alloc = some n ∧ s.Inside n
  answer : ∀ p, r.sent = some p →
    ∃ f, search h.messageId h.receiverId = some f ∧ p.Answers h (leftSize f h data)

/-- The checks of the packet. Its data size is compared with a difference of `size_t`. -/
def MsgPktHeader.Accepted (h : MsgPktHeader) (len : Nat) : Prop :=
  ¬(h.plen + 2 ^ 64 - sizeofPayload) % 2 ^ 64 < h.dataTotalSize ∧ checkPloadValid h len = true

section Safe

variable {search : Nat → Nat → Option MsgHandler} {h : MsgPktHeader} {data : Nat → BitVec 8}
  {len : Nat}

theorem leftSize_le (f : MsgHandler) (h : MsgPktHeader) (data : Nat → BitVec 8) :
    leftSize f h data ≤ outputSizeOf h := by
  unfold leftSize
  split
  · exact Nat.zero_le _
  · exact f.lowers

theorem inside_header {reads : List Span} (hr : ∀ s ∈ reads, s.Inside sizeofHeader)
    (hlen : sizeofHeader ≤ len) : ∀ s ∈ reads, s.Inside len := fun s hs => (hr s hs).trans hlen

theorem Handled.Safe.refused {e : CmdqErr} {reads : List Span}
    (hr : ∀ s ∈ reads, s.Inside sizeofHeader) (hlen : sizeofHeader ≤ len) :
    ({ ret := some e, reads } : Handled).Safe search h data len :=
  ⟨inside_header hr hlen, nofun, nofun⟩

theorem inside_shift {spans : List Span} {n m : Nat} (h : ∀ s ∈ spans, s.Inside n)
    (hn : sizeofHeader + n ≤ m) : ∀ s ∈ spans.map (Span.shift sizeofHeader), s.Inside m := by
  intro s hs
  obtain ⟨t, ht, rfl⟩ := mem_map.mp hs
  have := h t ht
  simp only [Span.Inside, Span.shift] at this ⊢
  omega

/-- A handler that reads its whole input and leaves the output size as it is. -/
def reader : MsgHandler where
  run _ n o := ⟨0, [⟨0, n⟩], [], fun _ => 0, o.getD 0⟩
  reads := by simp
  touched := nofun
  lowers := Nat.le_refl _

theorem leftSize_reader (h : MsgPktHeader) (data : Nat → BitVec 8) :
    leftSize reader h data = outputSizeOf h := by
  unfold leftSize
  split
  · next h0 => exact h0.symm
  · simp only [reader, Option.getD_some]

/-- The size of the data is read in every case. -/
theorem Handled.Safe.header_le {allocOk sendOk : Bool}
    (h : (uvbHandleCmdqEvent search allocOk sendOk data len).Safe search (.ofBytes data) data len) :
    sizeofHeader ≤ len := by
  have hmem : ∀ spans, (⟨52, 4⟩ : Span) ∈ ⟨48, 4⟩ :: ⟨52, 4⟩ :: spans := fun _ =>
    mem_cons_of_mem _ mem_cons_self
  unfold uvbHandleCmdqEvent at h
  dsimp only at h
  split at h
  · exact h.reads _ (hmem _)
  split at h
  · exact h.reads _ (hmem _)
  split at h
  · exact h.reads _ (hmem _)
  split at h <;> exact h.reads _ (hmem _)

/-- With every handler that keeps to its areas the function stays inside the packet and the
response, and the response carries the output size, exactly when the header was received and, for a
packet that passes the checks, so was the data it announces, and the payload length has room for
the output it asks for. Neither is compared. -/
theorem cmdq_event_safe (allocOk sendOk : Bool) (data : Nat → BitVec 8) (len : Nat) :
    (∀ search, (uvbHandleCmdqEvent search allocOk sendOk data len).Safe search (.ofBytes data) data
      len) ↔ sizeofHeader ≤ len ∧ ((MsgPktHeader.ofBytes data).Accepted len → allocOk = true →
        sizeofHeader + (MsgPktHeader.ofBytes data).dataTotalSize ≤ len ∧
          outputSizeOf (.ofBytes data) + sizeofPayload < 2 ^ 12) := by
  constructor
  · intro hsafe
    refine ⟨(hsafe fun _ _ => none).header_le, fun hacc hal => ?_⟩
    have h := hsafe fun _ _ => some reader
    unfold uvbHandleCmdqEvent at h
    generalize MsgPktHeader.ofBytes data = hd at hacc h ⊢
    dsimp only at h
    rw [if_neg hacc.1, if_neg (by rw [hacc.2]; decide), if_neg (by rw [hal]; decide)] at h
    obtain ⟨f, hf, hans⟩ := h.answer _ rfl
    obtain rfl := Option.some.inj hf
    have hplen : (leftSize reader hd data + sizeofPayload) % 2 ^ 12 =
        leftSize reader hd data + sizeofPayload := hans.plen
    rw [leftSize_reader] at hplen
    refine ⟨h.reads ⟨sizeofHeader + 0, hd.dataTotalSize⟩ ?_, by omega⟩
    exact mem_append_left _ (mem_append_right _ (mem_map.mpr ⟨_, mem_singleton.mpr rfl, rfl⟩))
  rintro ⟨hlen, hfits⟩ search
  unfold uvbHandleCmdqEvent
  generalize MsgPktHeader.ofBytes data = h at hfits ⊢
  dsimp only
  split
  · exact .refused (by decide) hlen
  next hplen =>
  split
  · exact .refused (by decide) hlen
  next hvalid =>
  split
  · exact .refused (by decide) hlen
  next f hf =>
  split
  · exact .refused (by decide) hlen
  next hal =>
  obtain ⟨hdata, hroom⟩ := hfits ⟨hplen, by simpa using hvalid⟩ (by simpa using hal)
  have hleft := leftSize_le f h data
  refine ⟨fun s hs => ?_, fun s hs => ⟨_, rfl, ?_⟩, fun p hp => ⟨f, hf, ?_⟩⟩
  · rcases mem_append.mp hs with hs | hs
    · rcases mem_append.mp hs with hs | hs
      · exact inside_header (by decide) hlen s hs
      · exact inside_shift f.reads hdata s hs
    · exact inside_header (by decide) hlen s hs
  · rcases mem_append.mp hs with hs | hs
    · rcases mem_cons.mp hs with rfl | hs
      · exact Nat.le_add_right _ _
      · refine inside_shift f.touched ?_ s hs
        split <;> simp [*]
    · obtain rfl := mem_singleton.mp hs
      simp only [Span.Inside]
      omega
  · obtain rfl := Option.some.inj hp
    have hsize : sizeofHeader = 56 := rfl
    exact ⟨Nat.mod_eq_of_lt (by omega), rfl, Nat.mod_eq_of_lt (by omega), rfl, rfl⟩

/-- A packet of 57 bytes, one of them data, with the given payload length and data size. -/
def smallPacket (plen size : BitVec 8) (i : Nat) : BitVec 8 :=
  if i = 28 then plen else if i = 39 then 0xc0 else if i = 40 ∨ i = 44 then 1
  else if i = 52 then size else 0

def smallEvent (plen size : BitVec 8) : Handled :=
  uvbHandleCmdqEvent (fun _ _ => some reader) true true (smallPacket plen size) 57

/-- A packet that says it has 100 bytes of data has them read, whether its payload length agrees
or is too small for the payload header, where the subtraction wraps; and an output of 4072 bytes
goes out with a payload length of 0. -/
theorem cmdq_event_reads_past_packet : (∃ s ∈ (smallEvent 124 100).reads, ¬s.Inside 57) ∧
    (∃ s ∈ (smallEvent 0 100).reads, ¬s.Inside 57) ∧
    let data i := if i = 48 then 0xe8 else if i = 49 then 0x0f else smallPacket 25 1 i
    (uvbHandleCmdqEvent (fun _ _ => some reader) true true data 57).sent.map
      (fun p => (p.header.dataTotalSize, p.header.plen)) = some (4072, 0) := by
  decide +kernel

end Safe

end UbDkms.Uvb
