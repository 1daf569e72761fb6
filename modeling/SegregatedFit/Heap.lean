import SegregatedFit.Memory
import SegregatedFit.Journal
import SegregatedFit.SizeClass

/-!
# The heap

A heap is a memory, the source it grows from, and the heads of its free lists.
What only looks at a heap is a `Query`; what changes it is an `Action`, which
keeps the heap it has reached when a fault ends it. All memory is reached through
`load`, `store`, `loadBytes` and `storeBytes`. On a guarded heap these fault
outside the bytes that the source has granted.
-/

namespace SegregatedFit

structure Heap where
  memory : Memory := .zero
  source : Source
  heads : Vector (Option Block) classCount := Vector.replicate classCount none
  first : Block := ⟨0⟩
  /-- The least number of bytes to grow by. -/
  chunkSize : Nat := 0
  checks : Bool := false
  /-- Whether accesses outside the heap are faults. -/
  guarded : Bool := false
  journal : Array Event := #[]

abbrev Query := ReaderT Heap (Except Fault)

abbrev Action := EStateM Fault Heap

instance : MonadLift Query Action where
  monadLift q := fun h =>
    match q.run h with
    | .ok a => .ok a h
    | .error f => .error f h

def demand (p : Prop) [Decidable p] (f : Fault) : Action Unit :=
  if p then pure () else throw f

def Heap.permits (h : Heap) (addr len : Nat) : Bool :=
  !h.guarded || (h.source.lo ≤ addr && addr + len ≤ h.source.lo + h.source.size)

def load (addr : Nat) : Query Nat := fun h =>
  if h.permits addr wordSize then .ok (h.memory.word addr)
  else .error (.outside addr wordSize)

def store (addr word : Nat) : Action Unit := fun h =>
  if h.permits addr wordSize then .ok () { h with memory := h.memory.setWord addr word }
  else .error (.outside addr wordSize) h

def loadBytes (addr len : Nat) : Query (List UInt8) := fun h =>
  if h.permits addr len then .ok (h.memory.read addr len)
  else .error (.outside addr len)

def storeBytes (addr : Nat) (bytes : List UInt8) : Action Unit := fun h =>
  if h.permits addr bytes.length then .ok () { h with memory := h.memory.write addr bytes }
  else .error (.outside addr bytes.length) h

def inHeap (addr len : Nat) : Query Bool := fun h => h.source.contains addr len

def record (e : Event) : Action Unit :=
  modify fun h => { h with journal := h.journal.push e }

def growHeap (n : Nat) : Action (Except GrowthError Nat) := do
  let source := (← get).source
  let (granted, grown) ← source.grow n
  modify fun h => { h with source := grown }
  (source.reservedSince grown).forM fun (bytes, base) => record (.reserved bytes base)
  return granted

end SegregatedFit
