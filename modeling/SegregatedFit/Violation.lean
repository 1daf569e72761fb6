import SegregatedFit.Block

/-!
# Violations

The ways in which a heap can be found broken, and the figures of a heap that is
not. Blocks are given by their payload addresses and classes by their numbers.
-/

namespace SegregatedFit

inductive Violation where
  | allocatedInFreeList (cls block : Nat)
  | freeCountMismatch (heap lists : Nat)
  | invalidFreeLink (cls block : Nat)
  | overlap (block next : Nat)
  | outOfBounds (block : Nat)
  | adjacentFree (block next : Nat)
  | tagMismatch (block : Nat)
  | prevAllocMismatch (block : Nat)
  | badBlock (block size : Nat)
  | wrongClass (cls block size : Nat)
  | brokenBackLink (cls block : Nat)
  | misplacedEpilogue (block : Nat)
deriving DecidableEq

namespace Violation

def name : Violation → String
  | .allocatedInFreeList .. => "AllocatedInFreeList"
  | .freeCountMismatch .. => "FreeCountMismatch"
  | .invalidFreeLink .. => "InvalidFreeLink"
  | .overlap .. => "Overlap"
  | .outOfBounds .. => "OutOfBounds"
  | .adjacentFree .. => "AdjacentFree"
  | .tagMismatch .. => "TagMismatch"
  | .prevAllocMismatch .. => "PrevAllocMismatch"
  | .badBlock .. => "BadBlock"
  | .wrongClass .. => "WrongClass"
  | .brokenBackLink .. => "BrokenBackLink"
  | .misplacedEpilogue .. => "MisplacedEpilogue"

def fields : Violation → List (String × Nat)
  | .allocatedInFreeList c b => [("class", c), ("block", b)]
  | .freeCountMismatch h l => [("heap", h), ("lists", l)]
  | .invalidFreeLink c b => [("class", c), ("block", b)]
  | .overlap b n => [("block", b), ("next", n)]
  | .outOfBounds b => [("block", b)]
  | .adjacentFree b n => [("block", b), ("next", n)]
  | .tagMismatch b => [("block", b)]
  | .prevAllocMismatch b => [("block", b)]
  | .badBlock b s => [("block", b), ("size", s)]
  | .wrongClass c b s => [("class", c), ("block", b), ("size", s)]
  | .brokenBackLink c b => [("class", c), ("block", b)]
  | .misplacedEpilogue b => [("block", b)]

def text : Violation → String
  | .allocatedInFreeList c b => s!"free list {c} holds allocated block {hex b}"
  | .freeCountMismatch h l => s!"heap has {h} free blocks but the free lists have {l}"
  | .invalidFreeLink c b => s!"free list {c} has invalid pointer {hex b}"
  | .overlap b n => s!"block {hex b} overlaps the next block {hex n}"
  | .outOfBounds b => s!"heap walk reached {hex b}, outside the heap"
  | .adjacentFree b n => s!"free blocks {hex b} and {hex n} were not coalesced"
  | .tagMismatch b => s!"block {hex b} has a footer unlike its header"
  | .prevAllocMismatch b =>
    s!"block {hex b} disagrees with its predecessor's allocation state"
  | .badBlock b s => s!"block {hex b} has invalid size {s}"
  | .wrongClass c b s => s!"block {hex b} of size {s} is in free list {c}"
  | .brokenBackLink c b =>
    s!"block {hex b} in free list {c} does not link back to its predecessor"
  | .misplacedEpilogue b => s!"epilogue at {hex b} is not at the top of the heap"

def details (v : Violation) : String :=
  v.name ++ " \x7b " ++
    ", ".intercalate (v.fields.map fun f => f.1 ++ ": " ++ toString f.2) ++ " \x7d"

end Violation

/-- What a walk over an intact heap adds up. `heapSize` counts every byte of the
heap, the two ends included. -/
structure Stats where
  heapSize : Nat := 0
  allocatedBlocks : Nat := 0
  allocatedSize : Nat := 0
  freeBlocks : Nat := 0
  freeSize : Nat := 0
deriving DecidableEq

end SegregatedFit
