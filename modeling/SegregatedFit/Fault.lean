import SegregatedFit.Block

/-!
# Faults

A fault ends a computation on the heap: the heap, or the way it is used, is
beyond what the allocator can answer for. A request that is merely refused is
no fault.
-/

namespace SegregatedFit

inductive Fault where
  /-- A sum or a difference of sizes is not a word. -/
  | arithmetic
  | noSuchClass
  | notListHead
  | blockTooSmall (size : Nat)
  | notAllocated (block : Block) (header : Tag)
  | misalignedHeap
  | inconsistent
  | outside (addr len : Nat)
  /-- A walk has visited more blocks than there are addresses. -/
  | endlessWalk
deriving DecidableEq

def Fault.text : Fault → String
  | .arithmetic => "size out of range"
  | .noSuchClass => "no such size class"
  | .notListHead => "block is not the head of its list"
  | .blockTooSmall size => s!"free block of {size} bytes"
  | .notAllocated block header => s!"releasing unallocated block {block.text header}"
  | .misalignedHeap => "misaligned heap"
  | .inconsistent => "heap consistency check failed"
  | .outside addr len => s!"access to {len} bytes at {hex addr}, outside the heap"
  | .endlessWalk => "endless walk"

def checkedAdd (a b : Nat) : Except Fault Nat :=
  if a + b < wordLimit then .ok (a + b) else .error .arithmetic

def checkedSub (a b : Nat) : Except Fault Nat :=
  if b ≤ a then .ok (a - b) else .error .arithmetic

theorem checkedAdd_of_lt {a b : Nat} (h : a + b < wordLimit) : checkedAdd a b = .ok (a + b) :=
  if_pos h

theorem checkedSub_of_le {a b : Nat} (h : b ≤ a) : checkedSub a b = .ok (a - b) :=
  if_pos h

end SegregatedFit
