import SegregatedFit.Allocator
import SegregatedFit.Proofs.Growth

/-!
# Clients

A client lays out a heap and then makes calls, with pointers that are null or live,
and writes to the payloads of live pointers. Beside the heap it keeps books: which
pointers are live, what was asked for them, and which of their bytes it knows.
-/

namespace SegregatedFit

/-- A live allocation: the size last asked for, and the bytes that are known. -/
structure Grant where
  pointer : Nat
  request : Nat
  known : Nat → Option UInt8 := fun _ => none

structure Client where
  heap : Heap
  live : List Grant := []

inductive Call where
  | malloc (n : Nat)
  | calloc (count n : Nat)
  | realloc (pointer : Option Nat) (n : Nat)
  | free (pointer : Option Nat)

namespace Call

def pointer : Call → Option Nat
  | .realloc p _ | .free p => p
  | .malloc _ | .calloc .. => none

def run : Call → Action (Option Nat)
  | .malloc n => SegregatedFit.malloc n
  | .calloc count n => SegregatedFit.calloc count n
  | .realloc p n => SegregatedFit.realloc p n
  | .free p => do
    SegregatedFit.free p
    return none

/-- The grant that a call gives with the pointer `q`. Of the `usable` bytes of the
old grant, those that fit into the new size are kept. -/
def grant (q usable : Nat) (old : Option Grant) : Call → Grant
  | .calloc count n =>
    { pointer := q, request := count * n, known := fun i => if i < count * n then some 0 else none }
  | .realloc _ n =>
    { pointer := q, request := n, known := fun i => if i < min usable n then old.bind (·.known i) else none }
  | .malloc n => { pointer := q, request := n }
  | .free _ => { pointer := q, request := 0 }

def ends (r : Option Nat) : Call → Bool
  | .free _ => true
  | .realloc _ n => n == 0 || r.isSome
  | .malloc _ | .calloc .. => false

end Call

def dropGrant (p : Option Nat) (live : List Grant) : List Grant :=
  live.filter fun g => some g.pointer != p

def Grant.write (g : Grant) (i : Nat) (bytes : List UInt8) : Grant :=
  { g with known := fun j => if i ≤ j ∧ j < i + bytes.length then bytes[j - i]? else g.known j }

def Client.write (c : Client) (p i : Nat) (bytes : List UInt8) : Client where
  heap := { c.heap with memory := c.heap.memory.write (p + i) bytes }
  live := c.live.map fun g => if g.pointer = p then g.write i bytes else g

inductive Move where
  | call (a : Call)
  | write (pointer i : Nat) (bytes : List UInt8)

def Move.pointer : Move → Option Nat
  | .call a => a.pointer
  | .write p _ _ => some p

def Heap.usableAt (h : Heap) (p : Nat) : Nat := (usableSize p h).toOption.getD 0

def Client.Owns (c : Client) (p : Nat) : Prop := ∃ g ∈ c.live, g.pointer = p

instance (c : Client) (p : Nat) : Decidable (c.Owns p) :=
  inferInstanceAs (Decidable (∃ g ∈ c.live, g.pointer = p))

def Client.book (c : Client) (a : Call) (r : Option Nat) : List Grant :=
  let old := c.live.find? fun g => some g.pointer == a.pointer
  let kept := if a.ends r then dropGrant a.pointer c.live else c.live
  match r with
  | some q => a.grant q (c.heap.usableAt (a.pointer.getD 0)) old :: kept
  | none => kept

inductive Step : Client → Move → Client → Prop
  | call {c : Client} {a : Call} {r : Option Nat} {h' : Heap} (hlegal : ∀ p ∈ a.pointer, c.Owns p)
      (hrun : a.run c.heap = .ok r h') : Step c (.call a) ⟨h', c.book a r⟩
  | write {c : Client} {p i : Nat} {bytes : List UInt8} (hp : c.Owns p)
      (hfit : i + bytes.length ≤ c.heap.usableAt p) : Step c (.write p i bytes) (c.write p i bytes)

inductive Reachable : Client → Prop
  | start {h h' : Heap} {chunk : Nat} (hs : h.source.Fresh) (hrun : layOut chunk h = .ok (.ok ()) h') :
      Reachable { heap := h' }
  | step {c c' : Client} {m : Move} (hc : Reachable c) (hm : Step c m c') : Reachable c'

theorem Reachable.invariant {P : Client → Prop}
    (hstart : ∀ {h h' : Heap} {chunk : Nat}, h.source.Fresh → layOut chunk h = .ok (.ok ()) h' →
      P { heap := h' })
    (hstep : ∀ {c c' : Client} {m : Move}, P c → Step c m c' → P c') {c : Client} (hc : Reachable c) :
    P c := by
  induction hc with
  | start hs hrun => exact hstart hs hrun
  | step _ hm ih => exact hstep ih hm

/-! ## Clients that run -/

def Heap.after {α : Type} (h : Heap) (x : Action α) : Heap :=
  match x h with
  | .ok _ h' | .error _ h' => h'

def Client.call (c : Client) (a : Call) : Client :=
  match a.run c.heap with
  | .ok r h' => ⟨h', c.book a r⟩
  | .error _ _ => c

def Client.result (c : Client) (a : Call) : Option Nat :=
  match a.run c.heap with
  | .ok r _ => r
  | .error _ _ => none

end SegregatedFit
