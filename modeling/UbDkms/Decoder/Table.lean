import UbDkms.Errno
import UbDkms.Lib.Bits
import UbDkms.Lib.Loop
import Mathlib.Data.Nat.Count

/-!
# The decoder table

`hisi-decoder.c`. The first level is an array of 64-bit words, eight for each
32 GiB slot: either eight page-table entries, one for each 4 GiB, or one range
entry laid over them. The `pt` and `rg` fields are the bit fields of the two
layouts. A descriptor holds the second-level page of a page-table entry (4096
page entries of 1 MiB) or of a range entry (32768 of them).

`dma` are the outcomes of the coherent allocations still to come: `none` for a
failure, else the bus address of the zeroed memory. `hi_decoder_cmd_request`
touches no table and is its return code only.
-/

namespace UbDkms.Decoder

open Lib

/-- `struct decoder_map_info`. -/
structure MapInfo where
  pa : UInt64
  uba : UInt64 := 0
  size : UInt64
  tpgNum : UInt32 := 0
  orderId : UInt8 := 0
  orderType : UInt8 := 0
  eidLow : UInt64 := 0
  eidHigh : UInt64 := 0
  tokenId : UInt32 := 0
  tokenValue : UInt32 := 0
  upi : UInt32 := 0
  srcEid : UInt32 := 0
  deriving DecidableEq

/-- `enum entry_type`. -/
inductive EntryType where
  | invalidEntry | pageTable | page | rangeTable
  deriving DecidableEq, Repr

def EntryType.code : EntryType → Nat
  | .invalidEntry => 0
  | .pageTable => 1
  | .page => 2
  | .rangeTable => 3

/-- `struct page_entry`. -/
structure PageEntry where
  entryType : EntryType := .invalidEntry
  tokenVld : Nat := 0
  ubAddr : Nat := 0
  tpgNum : Nat := 0
  orderType : Nat := 0
  orderId : Nat := 0
  dstEidLow : Nat := 0
  dstEidHigh : Nat := 0
  tokenId : Nat := 0
  tokenValue : Nat := 0
  upi : Nat := 0
  srcEid : Nat := 0
  deriving DecidableEq

def PageEntry.isPage (e : PageEntry) : Bool := decide (e.entryType = .page)

/-- `struct page_table_desc`; the page is the memory at `page_base`. -/
structure PageTableDesc where
  pageBase : Option (Nat → PageEntry) := none
  pageDma : Nat := 0
  count : Nat := 0

/-! `struct page_table_entry`, entry `j` of a slot. -/

def ptEntryType (j : Nat) : Field := ⟨j, 0, 2⟩
def ptNextLvAddr (j : Nat) : Field := ⟨j, 12, 36⟩
def ptPgtlbAttr (j : Nat) : Field := ⟨j, 56, 8⟩

/-! `struct range_table_entry`. -/

def rgEntryType : Field := ⟨0, 0, 2⟩
def rgTokenVld : Field := ⟨0, 8, 1⟩
def rgNextLvAddr : Field := ⟨0, 12, 36⟩
def rgPageTableAttr : Field := ⟨0, 56, 8⟩
def rgMemBase : Field := ⟨1, 0, 15⟩
def rgMemLimit : Field := ⟨1, 16, 15⟩
def rgUbAddr : Field := ⟨2, 12, 52⟩
def rgTpgNum : Field := ⟨3, 32, 20⟩
def rgOrderType : Field := ⟨3, 52, 2⟩
def rgOrderId : Field := ⟨3, 54, 8⟩
def rgDstEidLow : Field := ⟨4, 0, 64⟩
def rgDstEidHigh : Field := ⟨5, 0, 64⟩
def rgTokenId : Field := ⟨6, 0, 20⟩
def rgTokenValue : Field := ⟨6, 32, 32⟩
def rgUpi : Field := ⟨7, 0, 16⟩
def rgSrcEid : Field := ⟨7, 32, 20⟩

def rgtlbToPgtlb : Nat := 8
def decoderPageSize : Nat := 4096
def memLmtMax : Nat := 0x7FFF
def pgtlbAttrDefault : Nat := 0b110101

/-- `SZ_1M`. -/
def sz1M : Nat := 2 ^ 20

/-- What map and unmap read of `struct ub_decoder` and never change; `tokenVld` is the
token bit of `ubc_feature`. -/
structure DecoderCfg where
  mmioBaseAddr : UInt64
  mmioEndAddr : UInt64
  rgSize : Nat
  createMatt : Bool
  tokenVld : Bool
  invalidPageDma : Nat

/-- `struct ub_decoder`. -/
structure UbDecoder extends DecoderCfg where
  pgtlb : Nat → Nat
  desc : Nat → PageTableDesc
  dma : Nat → Option Nat

section Access

variable (d : UbDecoder)

def UbDecoder.get (k : Nat) (f : Field) : Nat := f.get d.pgtlb (8 * k)

def UbDecoder.set (k : Nat) (fs : List (Field × Nat)) : UbDecoder :=
  { d with pgtlb := setAll d.pgtlb (8 * k) fs }

def UbDecoder.setDesc (n : Nat) (x : PageTableDesc) : UbDecoder :=
  { d with desc := fun i => if i = n then x else d.desc i }

/-- `dmam_alloc_coherent`. -/
def UbDecoder.alloc : Option Nat × UbDecoder := (d.dma 0, { d with dma := fun n => d.dma (n + 1) })

end Access

/-- A bus address as a page number (`DECODER_PGTBL_PGPRT_MASK`). -/
def pageNo (dma : Nat) : Nat := dma / 2 ^ 12 % 2 ^ 36

section Index

variable (c : DecoderCfg)

def DecoderCfg.rel (pa : Nat) : Nat := (pa + (2 ^ 64 - c.mmioBaseAddr.toNat)) % 2 ^ 64

def getPgtlbIdx (pa : Nat) : Nat := c.rel pa / 2 ^ 35 % 512
def getRgtlbAddr (pa : Nat) : Nat := c.rel pa / 2 ^ 20 % 32768
def getRgtlbPageIdx (pa : Nat) : Nat := c.rel pa / 2 ^ 20 % 32768
def getPageIdx (pa : Nat) : Nat := c.rel pa / 2 ^ 20 % 4096
def getPgtlbSubIdx (pa : Nat) : Nat := c.rel pa / 2 ^ 32 % 8

end Index

/-! ## Second-level pages -/

def fillPageEntry (c : DecoderCfg) (info : MapInfo) (offset : Nat) : PageEntry where
  entryType := .page
  tokenVld := c.tokenVld.toNat
  ubAddr := (info.uba.toNat + offset) % 2 ^ 64 / 2 ^ 12
  tpgNum := info.tpgNum.toNat % 2 ^ 20
  orderType := info.orderType.toNat % 2 ^ 2
  orderId := info.orderId.toNat
  dstEidLow := info.eidLow.toNat
  dstEidHigh := info.eidHigh.toNat
  tokenId := info.tokenId.toNat % 2 ^ 20
  tokenValue := info.tokenValue.toNat
  upi := info.upi.toNat % 2 ^ 16
  srcEid := info.srcEid.toNat % 2 ^ 20

/-- Allocate the page of entry `j` of slot `k`, with its first contents, and name
it in the entry. -/
def allocPage (d : UbDecoder) (k j : Nat) (entry : List (Field × Nat)) (page : Nat → PageEntry)
    (count : Nat) : Ret × UbDecoder :=
  match d.alloc with
  | (none, d) => (some .enomem, d)
  | (some dma, d) =>
    (none, (d.setDesc (8 * k + j) ⟨some page, dma, count⟩).set k
      (entry ++ [(ptNextLvAddr j, pageNo dma), (ptPgtlbAttr j, pgtlbAttrDefault)]))

def rgtlbAllocPage (d : UbDecoder) (k : Nat) : Ret × UbDecoder := allocPage d k 0 [] (fun _ => {}) 0

def pgtlbAllocPage (d : UbDecoder) (k j : Nat) : Ret × UbDecoder :=
  allocPage d k j [(ptEntryType j, EntryType.pageTable.code)] (fun _ => {}) 0

def freePage (d : UbDecoder) (k j : Nat) (entry : List (Field × Nat)) : UbDecoder :=
  (d.set k ((ptNextLvAddr j, d.invalidPageDma) :: entry)).setDesc (8 * k + j)
    { d.desc (8 * k + j) with pageBase := none, pageDma := 0 }

def rgtlbFreePage (d : UbDecoder) (k : Nat) : UbDecoder := freePage d k 0 []

def pgtlbFreePage (d : UbDecoder) (k j : Nat) : UbDecoder :=
  freePage d k j [(ptEntryType j, EntryType.pageTable.code)]

/-- Fill entry `index` of a page, when it is free. Every caller has allocated the
page; the null pointer is `-EFAULT`. -/
def mapToPage (d : UbDecoder) (n index : Nat) (info : MapInfo) (offset : Nat) : Ret × UbDecoder :=
  match (d.desc n).pageBase with
  | none => (some .efault, d)
  | some page =>
    if (page index).entryType ≠ .invalidEntry then (some .einval, d)
    else (none, d.setDesc n { d.desc n with
      pageBase := some fun i => if i = index then fillPageEntry d.toDecoderCfg info offset else page i
      count := ((d.desc n).count + 1) % 2 ^ 32 })

/-- Invalidate entry `index` of a page, and release the page with its last entry. -/
def unmapToPage (d : UbDecoder) (n index : Nat) (free : UbDecoder → UbDecoder) : Ret × UbDecoder :=
  match (d.desc n).pageBase with
  | none => (some .efault, d)
  | some page =>
    if (page index).entryType ≠ .page then (some .einval, d)
    else
      let d := d.setDesc n { d.desc n with
        pageBase := some fun i =>
          if i = index then { page i with entryType := .invalidEntry } else page i
        count := ((d.desc n).count + (2 ^ 32 - 1)) % 2 ^ 32 }
      (none, if (d.desc n).count = 0 then free d else d)

/-! ## Slots in range form -/

def rgtlbMapPage (d : UbDecoder) (k : Nat) (info : MapInfo) (offset : Nat) : Ret × UbDecoder :=
  let addr := getRgtlbAddr d.toDecoderCfg (info.pa.toNat + offset)
  let index := getRgtlbPageIdx d.toDecoderCfg (info.pa.toNat + offset)
  if d.get k rgMemBase ≤ addr ∧ addr ≤ d.get k rgMemLimit then (some .einval, d)
  else
    match if (d.desc (8 * k)).pageBase.isSome then (none, d) else rgtlbAllocPage d k with
    | (some e, d) => (some e, d)
    | (none, d) => mapToPage d (8 * k) index info offset

def rgtlbMap (d : UbDecoder) (k : Nat) (info : MapInfo) (offset : Nat) : Ret × Nat × UbDecoder :=
  match rgtlbMapPage d k info offset with
  | (ret, d) => (ret, offset + sz1M, d)

def copyRgToPg (d : UbDecoder) (k : Nat) (rgBase : Nat → PageEntry) (idx : Nat) : Ret × UbDecoder :=
  let rentry := fun i => rgBase (idx * decoderPageSize + i)
  allocPage d k idx [(ptEntryType idx, EntryType.pageTable.code)]
    (fun i => if (rentry i).isPage ∧ i < decoderPageSize then rentry i else {})
    (Nat.count (fun i => (rentry i).isPage) decoderPageSize)

def emptyEntries (invalidPageDma : Nat) : List (Field × Nat) :=
  (List.range rgtlbToPgtlb).flatMap fun i =>
    [(ptEntryType i, EntryType.pageTable.code), (ptNextLvAddr i, invalidPageDma),
      (ptPgtlbAttr i, pgtlbAttrDefault)]

/-- Page table `i` of the range's page has an entry in use. -/
@[irreducible] def rgPageUsed (rgBase : Nat → PageEntry) (i : Nat) : Bool :=
  (List.range decoderPageSize).any fun j =>
    decide ((rgBase (i * decoderPageSize + j)).entryType ≠ .invalidEntry)

def splitRgPage (k : Nat) (rgBase : Nat → PageEntry) (i : Nat) (d : UbDecoder) : Ret × UbDecoder :=
  if rgPageUsed rgBase i then copyRgToPg d k rgBase i else (none, d)

def rgtlbUnmapToRange (d : UbDecoder) (k : Nat) : Ret × UbDecoder :=
  let d := (d.set k [(rgTokenValue, 0)]).set k (emptyEntries d.invalidPageDma)
  match (d.desc (8 * k)).pageBase with
  | none => (none, d)
  | some rgBase =>
    forRange (splitRgPage k rgBase) 0 rgtlbToPgtlb (d.setDesc (8 * k) {})

def rgtlbUnmapToPage (d : UbDecoder) (k index : Nat) : Ret × UbDecoder :=
  unmapToPage d (8 * k) index (rgtlbFreePage · k)

def rgtlbUnmap (d : UbDecoder) (k : Nat) (info : MapInfo) (offset : Nat) : Ret × Nat × UbDecoder :=
  let begin' := getRgtlbAddr d.toDecoderCfg (info.pa.toNat + offset)
  let size := (d.get k rgMemLimit + 2 ^ 64 - d.get k rgMemBase + 1) % 2 ^ 64 * sz1M
  if begin' = d.get k rgMemBase then
    if offset + size ≤ info.size.toNat then
      match rgtlbUnmapToRange d k with
      | (ret, d) => (ret, offset + size, d)
    else (some .einval, offset + size, d)
  else
    match rgtlbUnmapToPage d k (getRgtlbPageIdx d.toDecoderCfg (info.pa.toNat + offset)) with
    | (ret, d) => (ret, offset + sz1M, d)

def handleRangeTable (d : UbDecoder) (offset : Nat) (info : MapInfo) (isMap : Bool) :
    Ret × Nat × UbDecoder :=
  let k := getPgtlbIdx d.toDecoderCfg (info.pa.toNat + offset)
  if isMap then rgtlbMap d k info offset else rgtlbUnmap d k info offset

/-! ## Slots in page form -/

def pgtlbMapToPage (d : UbDecoder) (k j : Nat) (info : MapInfo) (offset : Nat) : Ret × UbDecoder :=
  match if (d.desc (8 * k + j)).pageBase.isSome then (none, d) else pgtlbAllocPage d k j with
  | (some e, d) => (some e, d)
  | (none, d) => mapToPage d (8 * k + j) (getPageIdx d.toDecoderCfg (info.pa.toNat + offset)) info offset

def pgtlbUnmapToPage (d : UbDecoder) (k j : Nat) (info : MapInfo) (offset : Nat) : Ret × UbDecoder :=
  if d.get k (ptNextLvAddr j) = d.invalidPageDma then (some .einval, d)
  else unmapToPage d (8 * k + j) (getPageIdx d.toDecoderCfg (info.pa.toNat + offset)) (pgtlbFreePage · k j)

def handlePageTable (d : UbDecoder) (offset : Nat) (info : MapInfo) (isMap : Bool) :
    Ret × Nat × UbDecoder :=
  let k := getPgtlbIdx d.toDecoderCfg (info.pa.toNat + offset)
  let j := getPgtlbSubIdx d.toDecoderCfg (info.pa.toNat + offset)
  match if isMap then pgtlbMapToPage d k j info offset else pgtlbUnmapToPage d k j info offset with
  | (ret, d) => (ret, offset + sz1M, d)

/-- The last 1 MiB index of the range a map opens at `offset`. When the map ends
inside the slot, its end is past `memBase`, so the subtraction does not wrap. -/
def rangeLimit (c : DecoderCfg) (info : MapInfo) (offset : Nat) : Nat :=
  let memBase := getRgtlbAddr c (info.pa.toNat + offset)
  if (memLmtMax - memBase + 1) * sz1M ≤ info.size.toNat - offset then memLmtMax
  else getRgtlbAddr c (info.pa.toNat + info.size.toNat) - 1

/-- `RANGE_UBA_LOW_MASK` and `RANGE_UBA_HIGH_MASK` have no bit in common. -/
def rangeUba (uba : Nat) : Nat := uba / 2 ^ 35 * 2 ^ 35 + uba / 2 ^ 20 % 2 ^ 15 * 2 ^ 20

/-- The fields `fill_range_table` writes, in order. -/
def rangeEntry (c : DecoderCfg) (info : MapInfo) (offset memBase memLimit : Nat) :
    List (Field × Nat) :=
  [(rgEntryType, EntryType.rangeTable.code),
    (rgNextLvAddr, c.invalidPageDma),
    (rgPageTableAttr, pgtlbAttrDefault),
    (rgTokenVld, c.tokenVld.toNat),
    (rgMemBase, memBase),
    (rgMemLimit, memLimit),
    (rgUbAddr, rangeUba ((info.uba.toNat + offset) % 2 ^ 64) / 2 ^ 12),
    (rgTpgNum, info.tpgNum.toNat),
    (rgOrderId, info.orderId.toNat),
    (rgOrderType, info.orderType.toNat),
    (rgDstEidLow, info.eidLow.toNat),
    (rgDstEidHigh, info.eidHigh.toNat),
    (rgTokenId, info.tokenId.toNat),
    (rgTokenValue, info.tokenValue.toNat),
    (rgUpi, info.upi.toNat),
    (rgSrcEid, info.srcEid.toNat)]

def fillRangeTable (d : UbDecoder) (k : Nat) (info : MapInfo) (offset : Nat) : Nat × UbDecoder :=
  let memBase := getRgtlbAddr d.toDecoderCfg (info.pa.toNat + offset)
  let memLimit := rangeLimit d.toDecoderCfg info offset
  (offset + (memLimit - memBase + 1) * sz1M,
    d.set k (rangeEntry d.toDecoderCfg info offset memBase memLimit))

def handlePgrgTable (d : UbDecoder) (offset : Nat) (info : MapInfo) (isMap : Bool) :
    Ret × Nat × UbDecoder :=
  let k := getPgtlbIdx d.toDecoderCfg (info.pa.toNat + offset)
  if isMap = false then handlePageTable d offset info isMap
  else if getPgtlbSubIdx d.toDecoderCfg (info.pa.toNat + offset) ≠ 0 ∨ info.size.toNat - offset < d.rgSize then
    handlePageTable d offset info isMap
  else if (List.range rgtlbToPgtlb).any
      (fun i => decide (d.get k (ptNextLvAddr i) ≠ d.invalidPageDma)) then
    handlePageTable d offset info isMap
  else
    match fillRangeTable d k info offset with
    | (offset, d) => (none, offset, d)

/-! ## Map and unmap -/

/-- One iteration of `handle_table`. -/
def tableStep (info : MapInfo) (isMap : Bool) (offset : Nat) (d : UbDecoder) : Ret × Nat × UbDecoder :=
  let k := getPgtlbIdx d.toDecoderCfg (info.pa.toNat + offset)
  if d.get k rgEntryType = EntryType.rangeTable.code then handleRangeTable d offset info isMap
  else if d.get k rgNextLvAddr = d.invalidPageDma then handlePgrgTable d offset info isMap
  else handlePageTable d offset info isMap

/-- The loop of `handle_table`; an iteration advances by 1 MiB or more, so `size / 1 MiB`
of them are enough. An error comes with the offset before the iteration. -/
def tableLoop (info : MapInfo) (isMap : Bool) : Nat → Nat → UbDecoder → Ret × Nat × UbDecoder
  | 0, offset, d => (none, offset, d)
  | n + 1, offset, d =>
    if offset < info.size.toNat then
      match tableStep info isMap offset d with
      | (none, offset, d) => tableLoop info isMap n offset d
      | (some e, _, d) => (some e, offset, d)
    else (none, offset, d)

/-- `ALIGN(size, SZ_1M)`. -/
def alignSz1M (size : UInt64) : UInt64 :=
  UInt64.ofNat ((size.toNat + (sz1M - 1)) % 2 ^ 64 / sz1M * sz1M)

/-- `cmdRet` is what `hi_decoder_cmd_request` returns. -/
def hiDecoderUnmap (d : UbDecoder) (addr size : UInt64) (cmdRet : Ret) : Ret × UbDecoder :=
  let info : MapInfo := { pa := addr, size := alignSz1M size }
  if d.createMatt then
    match tableLoop info false (info.size.toNat / sz1M) 0 d with
    | (some e, _, d) => (some e, d)
    | (none, _, d) => (cmdRet, d)
  else (cmdRet, d)

/-- `handle_table` for a map: an error undoes the iterations before it. -/
def handleTableMap (d : UbDecoder) (info : MapInfo) : Ret × UbDecoder :=
  match tableLoop info true (info.size.toNat / sz1M) 0 d with
  | (some e, offset, d) => (some e, (hiDecoderUnmap d info.pa (UInt64.ofNat offset) none).2)
  | (none, _, d) => (none, d)

def hiDecoderMap (d : UbDecoder) (info : MapInfo) : Ret × UbDecoder :=
  let info := { info with size := alignSz1M info.size }
  let last := (info.pa.toNat + info.size.toNat + (2 ^ 64 - 1)) % 2 ^ 64
  if info.pa < d.mmioBaseAddr ∨ d.mmioEndAddr.toNat < last ∨ last < info.pa.toNat then
    (some .einval, d)
  else if d.createMatt then handleTableMap d info
  else (none, d)

/-! ## Creation -/

def emptyEntry (invalidPageDma w : Nat) : Nat :=
  let w := setBits w 0 2 EntryType.pageTable.code
  let w := setBits w 12 36 invalidPageDma
  setBits w 56 8 pgtlbAttrDefault

def ubDecoderInitPageTable (d : UbDecoder) : UbDecoder :=
  { d with pgtlb := fun w =>
      if w < 4096 then emptyEntry d.invalidPageDma (d.pgtlb w) else d.pgtlb w }

/-- `kzallocOk` is the outcome of the allocation of the descriptors. -/
def hiCreateDecoderTable (d : UbDecoder) (kzallocOk : Bool) : Ret × UbDecoder :=
  match d.alloc with
  | (none, d) => (some .enomem, d)
  | (some _, d) =>
    if kzallocOk = false then (some .enomem, d)
    else
      match d.alloc with
      | (none, d) => (some .enomem, d)
      | (some dma, d) =>
        (none, ubDecoderInitPageTable
          { d with pgtlb := fun _ => 0, desc := fun _ => {}, invalidPageDma := pageNo dma })

end UbDkms.Decoder
