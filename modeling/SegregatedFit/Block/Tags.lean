import SegregatedFit.Heap

/-!
# The tags and links of blocks

What the memory of a heap says about a block, and how it is made to say
something else. A footer is found through the size in the header, so a header is
always written before its footer.
-/

namespace SegregatedFit.Block

def header (b : Block) : Query Tag := do
  return ⟨← load b.headerAddr⟩

def footer (b : Block) : Query Tag := do
  return ⟨← load (b.footerAddr (← b.header).size)⟩

def size (b : Block) : Query Nat := do
  return (← b.header).size

def payloadSize (b : Block) : Query Nat := do
  return (← b.size) - overhead

def next (b : Block) : Query Block := do
  return b.after (← b.size)

def prev (b : Block) : Query Block := do
  return b.before (Tag.size ⟨← load b.precedingFooterAddr⟩)

def asFree (b : Block) : Query (Option Block) := do
  return if (← b.header).isAlloc then none else some b

def freeBefore (b : Block) : Query (Option Block) := do
  if (← b.header).prevAlloc then return none else (← b.prev).asFree

def freeAfter (b : Block) : Query (Option Block) := do
  (← b.next).asFree

def setHeader (b : Block) (t : Tag) : Action Unit :=
  store b.headerAddr t.bits

def setFooter (b : Block) (t : Tag) : Action Unit := do
  store (b.footerAddr (← b.header).size) t.bits

def setTags (b : Block) (t : Tag) : Action Unit := do
  b.setHeader t
  b.setFooter t

def formatAllocated (b : Block) (size : Nat) (prevAlloc : Bool) : Action Unit :=
  b.setTags (.pack size true prevAlloc)

def formatFree (b : Block) (size : Nat) (prevAlloc : Bool) : Action Unit := do
  demand (minBlock ≤ size) (.blockTooSmall size)
  b.setTags (.pack size false prevAlloc)

/-- The epilogue is a lone header: an allocated block of size 0. -/
def formatEpilogue (b : Block) (prevAlloc : Bool) : Action Unit :=
  b.setHeader (.pack 0 true prevAlloc)

def setPrevAlloc (b : Block) (prevAlloc : Bool) : Action Unit := do
  let t := (← b.header).withPrevAlloc prevAlloc
  b.setHeader t
  if t.size ≠ 0 then b.setFooter t

def nextFree (b : Block) : Query (Option Block) := do
  return ofLinkWord (← load b.nextLinkAddr)

def prevFree (b : Block) : Query (Option Block) := do
  return ofLinkWord (← load b.prevLinkAddr)

def setNextFree (b : Block) (link : Option Block) : Action Unit :=
  store b.nextLinkAddr (linkWord link)

def setPrevFree (b : Block) (link : Option Block) : Action Unit :=
  store b.prevLinkAddr (linkWord link)

end SegregatedFit.Block
