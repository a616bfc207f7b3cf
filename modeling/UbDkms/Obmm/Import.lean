import UbDkms.Lib.Agents
import UbDkms.Lib.Reach

/-!
# Owners of imported physical addresses

`obmm_import.c`, `obmm_preimport_prefilled.c` and `obmm_addr_check.c`: a direct import
and a preimport occupy a range of the tree `pa_ranges`; an import into a preimport range
occupies memory blocks of it and counts as a user. Every call in progress is a thread
whose sections under a mutex or a spinlock are single steps; external calls return what
they like.
-/

namespace UbDkms.Obmm

/-- Addresses from `lo` to `hi`, both included. -/
structure Span where
  lo : Nat
  hi : Nat
  le : lo ≤ hi
  deriving DecidableEq, Repr

def Span.Disjoint (a b : Span) : Prop := a.hi < b.lo ∨ b.hi < a.lo

instance (a b : Span) : Decidable (a.Disjoint b) := inferInstanceAs (Decidable (_ ∨ _))

/-- `struct obmm_addr_info`: the user, with the preimport range once it is ready. -/
inductive PaUser where
  | direct
  | preimport (data : Option Nat)
  deriving DecidableEq, Repr

/-- `struct obmm_pa_range`. -/
structure PaRange where
  span : Span
  user : PaUser
  deriving DecidableEq, Repr

/-- `struct prefilled_preimport_range`. -/
structure Ppr where
  span : Span
  useCount : Nat := 0
  bitmap : Nat → Bool := fun _ => false

/-- How far a call is; in `rel` stages the flag says that the release is the rollback of
an import that could not be registered. -/
inductive ImpStage where
  | setupPa
  | commit (id : Nat)
  | putPpr (id : Nat)
  | setupNuma
  | setupIomem
  | register
  | live
  | rbNuma
  | rbPa
  | rbPut
  | rbAddr
  | relIomem (rollback : Bool)
  | relNuma (rollback : Bool)
  | relFlush (rollback : Bool)
  | relPa (rollback : Bool)
  | relPut (rollback : Bool)
  | relAddr (rollback : Bool)
  | relSetupPa (rollback : Bool)
  | relSetupNuma (rollback : Bool)
  | relSetupIomem (rollback : Bool)
  | relFailed (rollback : Bool)
  deriving DecidableEq, Repr

/-- `struct obmm_import_region` with the call working on it. -/
structure ImpRegion where
  span : Span
  preimport : Bool
  numaRemote : Bool
  handle : Nat := 0
  stage : ImpStage
  deriving DecidableEq, Repr

/-- `pa_ranges`, the preimport ranges that are allocated, preimport calls in progress. -/
structure Imports where
  ranges : List PaRange := []
  ppr : Nat → Option Ppr := fun _ => none
  nextPpr : Nat := 0
  preCalls : List Span := []
  regions : List ImpRegion := []

namespace Imports

/-- `mt_find` of one address. -/
def findRange (l : List PaRange) (addr : Nat) : Option PaRange :=
  l.find? fun r => decide (r.span.lo ≤ addr ∧ addr ≤ r.span.hi)

/-- `mtree_erase`. -/
def eraseRange (l : List PaRange) (addr : Nat) : List PaRange :=
  l.eraseP fun r => decide (r.span.lo ≤ addr ∧ addr ≤ r.span.hi)

/-- `occupy_pa_range`; `ok` is false when memory is missing. -/
def occupyPaRange (l : List PaRange) (r : PaRange) (ok : Bool) : Option (List PaRange) :=
  if ok ∧ ∀ e ∈ l, e.span.Disjoint r.span then some (r :: l) else none

/-- `free_pa_range`: the tree and whether it returned 0. -/
def freePaRange (l : List PaRange) (s : Span) : List PaRange × Bool :=
  match findRange l s.lo with
  | none => (l, false)
  | some e => (eraseRange l s.lo, e.span == s)

/-- `update_pa_range`; the order of the list is not that of the tree. -/
def updatePaRange (l : List PaRange) (addr : Nat) (user : PaUser) : Option (List PaRange) :=
  match findRange l addr with
  | none => none
  | some e => some ({ e with user } :: eraseRange l addr)

/-- `get_pa_mapping`. -/
def getPaMapping (s : Imports) (addr : Nat) : Option Nat :=
  match findRange s.ranges addr with
  | some ⟨_, .preimport (some id)⟩ => some id
  | _ => none

variable (blockSize : Nat)

def touches (p : Ppr) (s : Span) (bit : Nat) : Bool :=
  decide ((s.lo - p.span.lo) / blockSize ≤ bit ∧ bit ≤ (s.hi - p.span.lo) / blockSize)

/-- The bits the loops of `occupy_ppr_blocks` and `free_ppr_blocks` run over. -/
def bitsOf (p : Ppr) (s : Span) : List Nat :=
  (List.range ((s.hi - p.span.lo) / blockSize + 1)).filter (touches blockSize p s)

/-- `occupy_ppr_blocks`. -/
def occupyPprBlocks (p : Ppr) (s : Span) : Option Ppr :=
  if s.lo < p.span.lo ∨ p.span.hi < s.hi then none
  else if (bitsOf blockSize p s).any p.bitmap then none
  else some { p with bitmap := fun b => p.bitmap b || touches blockSize p s b }

/-- `free_ppr_blocks`. -/
def freePprBlocks (p : Ppr) (s : Span) : Option Ppr :=
  if s.lo < p.span.lo ∨ p.span.hi < s.hi then none
  else if (bitsOf blockSize p s).all p.bitmap then
    some { p with bitmap := fun b => p.bitmap b && !touches blockSize p s b }
  else none

def setPpr (s : Imports) (id : Nat) (p : Option Ppr) : Imports :=
  { s with ppr := Function.update s.ppr id p }

/-- `get_ppr`. -/
def getPpr (s : Imports) (addr : Nat) : Option (Imports × Nat) :=
  match s.getPaMapping addr with
  | none => none
  | some id => match s.ppr id with
    | none => none
    | some p => some (s.setPpr id (some { p with useCount := p.useCount + 1 }), id)

/-- `put_ppr`. -/
def putPpr (s : Imports) (id : Nat) : Imports :=
  match s.ppr id with
  | none => s
  | some p => s.setPpr id (some { p with useCount := p.useCount - 1 })

def goto (s : Imports) (i : Nat) (r : ImpRegion) (stage : ImpStage) : Imports :=
  { s with regions := s.regions.set i { r with stage } }

def drop (s : Imports) (i : Nat) : Imports := { s with regions := s.regions.eraseIdx i }

/-- `free_ppr_blocks` of a region, `next` when it succeeds. -/
def uncommit (s : Imports) (i : Nat) (r : ImpRegion) (next fail : ImpStage) : Imports :=
  match s.ppr r.handle with
  | none => s.goto i r fail
  | some p => match freePprBlocks blockSize p r.span with
    | none => s.goto i r fail
    | some p => (s.setPpr r.handle (some p)).goto i r next

/-- `occupy_ppr_blocks` of a region. -/
def commitBlocks (s : Imports) (i : Nat) (r : ImpRegion) (id : Nat) : Imports :=
  match s.ppr id with
  | none => s.goto i r (.putPpr id)
  | some p => match occupyPprBlocks blockSize p r.span with
    | none => s.goto i r (.putPpr id)
    | some p => (s.setPpr id (some p)).goto i { r with handle := id } .setupNuma

/-- One step of `prepare_import_memory`, of the registration or of
`release_import_memory`; `ok` is what the external call returns. -/
def stepRegion (s : Imports) (i : Nat) (r : ImpRegion) (ok : Bool) : Imports :=
  match r.stage with
  | .setupPa =>
    if !ok then s.goto i r .rbAddr
    else if r.preimport then
      match s.getPpr r.span.lo with
      | none => s.goto i r .rbAddr
      | some (s, id) => s.goto i r (.commit id)
    else s.goto i r .setupNuma
  | .commit id => if ok then s.commitBlocks blockSize i r id else s.goto i r (.putPpr id)
  | .putPpr id => (s.putPpr id).goto i r .rbAddr
  | .setupNuma => if r.numaRemote && !ok then s.goto i r .rbPa else s.goto i r .setupIomem
  | .setupIomem => if ok then s.goto i r .register else s.goto i r .rbNuma
  | .register => if ok then s.goto i r .live else s.goto i r (.relIomem true)
  -- `obmm_unimport` begins
  | .live => s.goto i r (.relIomem false)
  | .rbNuma => s.goto i r .rbPa
  | .rbPa => if r.preimport then s.uncommit blockSize i r .rbPut .rbAddr else s.goto i r .rbAddr
  | .rbPut => (s.putPpr r.handle).goto i r .rbAddr
  | .rbAddr =>
    if r.preimport then s.drop i else ({ s with ranges := (freePaRange s.ranges r.span).1 }).drop i
  | .relIomem b => if ok then s.goto i r (.relNuma b) else s.goto i r (.relFailed b)
  | .relNuma b => if r.numaRemote && !ok then s.goto i r (.relSetupIomem b) else s.goto i r (.relFlush b)
  | .relFlush b => if ok then s.goto i r (.relPa b) else s.goto i r (.relSetupNuma b)
  | .relPa b =>
    if r.preimport then s.uncommit blockSize i r (.relPut b) (.relSetupNuma b)
    else if ok then s.goto i r (.relAddr b)
    else s.goto i r (.relSetupNuma b)
  | .relPut b => (s.putPpr r.handle).goto i r (.relAddr b)
  | .relAddr b =>
    if r.preimport then s.drop i
    else
      let f := freePaRange s.ranges r.span
      if f.2 then ({ s with ranges := f.1 }).drop i
      else ({ s with ranges := f.1 }).goto i r (.relSetupPa b)
  | .relSetupPa b => if ok then s.goto i r (.relSetupNuma b) else s.goto i r (.relFailed b)
  | .relSetupNuma b =>
    if r.numaRemote && !ok then s.goto i r (.relFailed b) else s.goto i r (.relSetupIomem b)
  | .relSetupIomem b => s.goto i r (.relFailed b)
  -- the region of a failed import is freed, that of a failed unimport is activated again
  | .relFailed b => if b then s.drop i else s.goto i r .live

/-- `obmm_import` up to `occupy_addr_range`. -/
def importStart (s : Imports) (span : Span) (preimport numaRemote ok : Bool) : Imports :=
  let r : ImpRegion := { span, preimport, numaRemote, stage := .setupPa }
  if preimport then { s with regions := s.regions ++ [r] }
  else match occupyPaRange s.ranges ⟨span, .direct⟩ ok with
    | none => s
    | some l => { s with ranges := l, regions := s.regions ++ [r] }

/-- `preimport_prepare_prefilled` up to `occupy_pa_range`. -/
def preimportStart (s : Imports) (span : Span) (ok : Bool) : Imports :=
  match occupyPaRange s.ranges ⟨span, .preimport none⟩ ok with
  | none => s
  | some l => { s with ranges := l, preCalls := s.preCalls ++ [span] }

def preimportEnd (s : Imports) (i : Nat) (ok : Bool) : Imports :=
  match s.preCalls[i]? with
  | none => s
  | some span =>
    let fail : Imports :=
      { s with ranges := (freePaRange s.ranges span).1, preCalls := s.preCalls.eraseIdx i }
    if !ok then fail
    else match updatePaRange s.ranges span.lo (.preimport (some s.nextPpr)) with
      | none => fail
      | some l =>
        { s with
          ranges := l
          ppr := Function.update s.ppr s.nextPpr (some { span })
          nextPpr := s.nextPpr + 1
          preCalls := s.preCalls.eraseIdx i }

/-- `preimport_release_prefilled`: `preimport_mutex` is held; `ok` is what
`preimport_release_common` returns. -/
def preimportRelease (s : Imports) (span : Span) (ok : Bool) : Imports :=
  match s.getPaMapping span.lo with
  | none => s
  | some id => match s.ppr id with
    | none => s
    | some p =>
      if p.span ≠ span ∨ p.useCount ≠ 0 ∨ ok = false then s
      else { s with ranges := (freePaRange s.ranges span).1, ppr := Function.update s.ppr id none }

inductive Act where
  | importStart (span : Span) (preimport numaRemote ok : Bool)
  | step (i : Nat) (ok : Bool)
  | preimportStart (span : Span) (ok : Bool)
  | preimportEnd (i : Nat) (ok : Bool)
  | preimportRelease (span : Span) (ok : Bool)

def act (s : Imports) : Act → Imports
  | .importStart span pre numa ok => s.importStart span pre numa ok
  | .step i ok => match s.regions[i]? with
    | none => s
    | some r => s.stepRegion blockSize i r ok
  | .preimportStart span ok => s.preimportStart span ok
  | .preimportEnd i ok => s.preimportEnd i ok
  | .preimportRelease span ok => s.preimportRelease span ok

def init : Imports := {}

/-- The release made to undo an import that could not be registered does not fail. -/
def Undone (s : Imports) : Act → Prop
  | .step i _ => ∀ r, s.regions[i]? = some r → r.stage ≠ .relFailed true
  | _ => True

end Imports

end UbDkms.Obmm
