import SegregatedFit.FreeList

/-!
# Inspecting a heap

`validate` goes through the blocks in address order and then through each free
list, and reports the first violation it meets. Every word is known to lie in the
heap before it is read, so an inspection is safe whatever the heap holds; and as
every list member is required to link back to the member before it, a list with
a cycle is found out as well.
-/

namespace SegregatedFit

abbrev Inspection := ExceptT Violation Query

def report {α : Type} (v : Violation) : Inspection α := throwThe Violation v

def require (p : Prop) [Decidable p] (v : Violation) : Inspection Unit :=
  if p then pure () else report v

/-- What a walk remembers of the blocks behind it. The prologue counts as
allocated. -/
structure Progress where
  prevAlloc : Bool := true
  lastFree : Option Block := none
  stats : Stats := {}

def Progress.step (p : Progress) (b : Block) (t : Tag) : Progress where
  prevAlloc := t.isAlloc
  lastFree := if t.isAlloc then none else some b
  stats :=
    if t.isAlloc then
      { p.stats with
        allocatedBlocks := p.stats.allocatedBlocks + 1
        allocatedSize := p.stats.allocatedSize + t.size }
    else
      { p.stats with
        freeBlocks := p.stats.freeBlocks + 1
        freeSize := p.stats.freeSize + t.size }

def PossibleBlock (b : Block) (size : Nat) : Prop :=
  b.payload % alignment = 0 ∧ minBlock ≤ size ∧ size % alignment = 0

instance (b : Block) (size : Nat) : Decidable (PossibleBlock b size) :=
  inferInstanceAs (Decidable (_ ∧ _))

def checkHeader (prevAlloc : Bool) (b : Block) : Inspection Tag := do
  require (← inHeap b.headerAddr wordSize) (.outOfBounds b.payload)
  let t ← b.header
  require (t.prevAlloc = prevAlloc) (.prevAllocMismatch b.payload)
  return t

def checkEpilogue (b : Block) (t : Tag) : Inspection Unit := do
  let source := (← read).source
  let top ← checkedAdd source.lo source.size
  require (t.isAlloc ∧ b.headerAddr + wordSize = top) (.misplacedEpilogue b.payload)

def checkBlock (lastFree : Option Block) (b : Block) (t : Tag) : Inspection Unit := do
  require (PossibleBlock b t.size) (.badBlock b.payload t.size)
  require (← inHeap b.headerAddr t.size) (.outOfBounds b.payload)
  require ((← b.footer) = t) (.tagMismatch b.payload)
  if t.isAlloc then
    let next := b.after t.size
    let footerEnd ← checkedAdd (b.footerAddr t.size) wordSize
    require (footerEnd ≤ next.headerAddr) (.overlap b.payload next.payload)
  else
    lastFree.forM fun f => report (.adjacentFree f.payload b.payload)

/-- Checks the blocks from `b` to the epilogue. A step that does not go up in
address has left the words, and with them the heap. -/
def inspectBlocksFrom (b : Block) (p : Progress) : Inspection Stats := do
  let t ← checkHeader p.prevAlloc b
  if t.size = 0 then
    checkEpilogue b t
    return p.stats
  else
    checkBlock p.lastFree b t
    if _h : b.payload < (b.after t.size).payload ∧ (b.after t.size).payload < wordLimit then
      inspectBlocksFrom (b.after t.size) (p.step b t)
    else
      report (.outOfBounds (b.after t.size).payload)
termination_by wordLimit - b.payload
decreasing_by omega

def checkMember (c : SizeClass) (before : Option Block) (b : Block) : Inspection Unit := do
  require (← inHeap b.headerAddr wordSize) (.invalidFreeLink c b.payload)
  let t ← b.header
  require (t.size ≠ 0) (.invalidFreeLink c b.payload)
  require (← inHeap b.headerAddr t.size) (.invalidFreeLink c b.payload)
  require (PossibleBlock b t.size) (.badBlock b.payload t.size)
  require (t.isAlloc = false) (.allocatedInFreeList c b.payload)
  require (SizeClass.ofSize t.size = c) (.wrongClass c b.payload t.size)
  require ((← b.prevFree) = before) (.brokenBackLink c b.payload)

def inspectChain (c : SizeClass) : Nat → Option Block → Option Block → Inspection Nat
  | _, _, none => return 0
  | 0, _, some _ => throwThe Fault .endlessWalk
  | n + 1, before, some b => do
    checkMember c before b
    return (← inspectChain c n (some b) (← b.nextFree)) + 1

def inspectList (c : SizeClass) : Inspection Nat := do
  inspectChain c wordLimit none (← FreeList.head c)

def validate : Inspection Stats := do
  let stats ← inspectBlocksFrom (← read).first {}
  let listed := (← SizeClass.all.mapM inspectList).foldl (· + ·) 0
  require (listed = stats.freeBlocks) (.freeCountMismatch stats.freeBlocks listed)
  return { stats with heapSize := (← read).source.size }

def check (line : Option Nat) : Action Bool := do
  match ← validate.run with
  | .ok _ => return true
  | .error v =>
    let source := (← get).source
    record (.checkFailed line v source.lo source.hi source.size)
    return false

end SegregatedFit
