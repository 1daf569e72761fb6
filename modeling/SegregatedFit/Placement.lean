import SegregatedFit.FreeList

/-!
# Finding, splitting and merging blocks

No two free blocks are ever left side by side: a block that becomes free is
merged with its free neighbours at once. A request takes the best fit, and gives
back what it does not need if that can be a block of its own.
-/

namespace SegregatedFit

/-- The size of the block that serves a request of `n` bytes, unless no word can
hold it. -/
def blockSize (n : Nat) : Option Nat :=
  if n + overhead < wordLimit then alignUp (n + overhead) else none

def sizeOrZero : Option Block → Query Nat
  | none => return 0
  | some b => b.size

def coalesce (b : Block) : Action Block := do
  let prev ← b.freeBefore
  let next ← b.freeAfter
  if prev.isNone ∧ next.isNone then return b
  else
    FreeList.remove b
    prev.forM FreeList.remove
    next.forM FreeList.remove
    let start := prev.getD b
    let own ← b.size
    let below ← sizeOrZero prev
    let above ← sizeOrZero next
    let total ← checkedAdd (← checkedAdd below own) above
    record (.coalesced b own start total)
    start.formatFree total (← start.header).prevAlloc
    FreeList.insert start
    return start

/-- Grows the heap by at least `n` bytes. The new space starts at the old
epilogue, whose header knows the state of the block before it, and is merged with
that block if it is free. -/
def extend (n : Nat) : Action (Except GrowthError Block) := do
  let bytes := alignUpOrMax n
  match ← growHeap bytes with
  | .error e => return .error e
  | .ok base =>
    let b : Block := ⟨base⟩
    b.formatFree bytes (← b.header).prevAlloc
    (← b.next).formatEpilogue false
    record (.extended bytes b (← get).source.size)
    FreeList.insert b
    return .ok (← coalesce b)

/-- The best fit for a block of `n` bytes. Every block of a smaller class than
that of `n` is too small, and every block of a larger one is too large to beat a
fit in a class before it. -/
def findFit (n : Nat) : Query (Option Block) :=
  FreeList.firstFit n (SizeClass.ofSizeOrMore n)

/-- Makes the `total` bytes of the unlisted block `b` an allocated block of `n`
bytes and a free block of the rest, or of all `total` bytes if the rest is too
small for a block. -/
def carve (b : Block) (total n : Nat) : Action Unit := do
  let prevAlloc := (← b.header).prevAlloc
  let left ← checkedSub total n
  if minBlock ≤ left then
    b.formatAllocated n prevAlloc
    let rest ← b.next
    rest.formatFree left true
    (← rest.next).setPrevAlloc false
    record (.split b total n rest)
    FreeList.insert rest
    let _ ← coalesce rest
  else
    b.formatAllocated total prevAlloc
    (← b.next).setPrevAlloc true

def allocateIn (b : Block) (n : Nat) : Action Unit := do
  let total ← b.size
  FreeList.remove b
  carve b total n

/-- Gives an allocated block `n` bytes where it is, of its own or with those of a
free block after it. `false` if these do not suffice. -/
def resize (b : Block) (n : Nat) : Action Bool := do
  let current ← b.size
  if n ≤ current then
    carve b current n
    return true
  else
    match ← b.freeAfter with
    | none => return false
    | some next =>
      let total ← checkedAdd current (← next.size)
      if total < n then return false
      else
        FreeList.remove next
        carve b total n
        return true

end SegregatedFit
