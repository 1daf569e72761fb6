import SegregatedFit.Inspection
import SegregatedFit.Placement

/-!
# The allocator

The heap starts with a padding word and the prologue, an allocated block without
payload, and ends with the epilogue, so that every block between them has
neighbours. Clients see payload addresses; `none` is the null pointer, and as a
result it says that a request is refused.
-/

namespace SegregatedFit

/-- Padding, the prologue's two tags, and the epilogue. -/
abbrev initialSize : Nat := 4 * wordSize

abbrev defaultChunkSize : Nat := 4096

def selfCheck : Action Unit := do
  if (← get).checks then
    demand (← check none) .inconsistent

/-- Lays out a heap that grows by at least `chunk` bytes at a time, with a first
chunk of free space. -/
def layOut (chunk : Nat) : Action (Except GrowthError Unit) := do
  let chunkSize := max (alignUpOrMax chunk) minBlock
  match ← growHeap initialSize with
  | .error e => return .error e
  | .ok base =>
    demand (base % alignment = 0) .misalignedHeap
    let prologue : Block := ⟨wrapAdd base (2 * wordSize)⟩
    prologue.formatAllocated alignment true
    store base 0
    let first ← prologue.next
    first.formatEpilogue true
    modify fun h => { h with first, chunkSize, heads := Vector.replicate classCount none }
    match ← extend chunkSize with
    | .error e => return .error e
    | .ok _ =>
      selfCheck
      return .ok ()

def findOrExtend (n : Nat) : Action (Option Block) := do
  match ← findFit n with
  | some b => return some b
  | none =>
    let bytes := max n (← get).chunkSize
    match ← extend bytes with
    | .ok b => return some b
    | .error e =>
      record (.notExtended bytes e)
      return none

def malloc (n : Nat) : Action (Option Nat) := do
  if n = 0 then return none
  else
    match blockSize n with
    | none => return none
    | some size =>
      match ← findOrExtend size with
      | none => return none
      | some b =>
        allocateIn b size
        record (.allocated n b (← b.header))
        selfCheck
        return some b.payload

def free (pointer : Option Nat) : Action Unit := do
  match pointer with
  | none => return ()
  | some p =>
    let b : Block := ⟨p⟩
    let t ← b.header
    demand t.isAlloc (.notAllocated b t)
    record (.released b t)
    b.formatFree t.size t.prevAlloc
    (← b.next).setPrevAlloc false
    FreeList.insert b
    let _ ← coalesce b
    selfCheck

/-- Resizes an allocation, which may move it. The bytes that fit into the new
size are kept, and a refused request leaves the allocation as it was. Without an
allocation this is `malloc`, and for no bytes it is `free`. -/
def realloc (pointer : Option Nat) (n : Nat) : Action (Option Nat) := do
  match pointer with
  | none => malloc n
  | some p =>
    if n = 0 then
      free (some p)
      return none
    else
      match blockSize n with
      | none => return none
      | some size =>
        let b : Block := ⟨p⟩
        if ← resize b size then
          record (.resized p n)
          selfCheck
          return some p
        else
          match ← malloc n with
          | none => return none
          | some q =>
            let kept := min n (← b.payloadSize)
            storeBytes q (← loadBytes p kept)
            free (some p)
            record (.moved p n q)
            return some q

def calloc (count n : Nat) : Action (Option Nat) := do
  let bytes := count * n
  if wordLimit ≤ bytes then return none
  else
    match ← malloc bytes with
    | none => return none
    | some p =>
      storeBytes p (List.replicate bytes 0)
      return some p

def usableSize (p : Nat) : Query Nat :=
  Block.payloadSize ⟨p⟩

end SegregatedFit
