import SegregatedFit.Fault

/-!
# Sources of heap memory

The heap is one stretch of addresses that grows at its upper end. Its memory
comes from a buffer of fixed extent, or from a region that is reserved whole
when the heap first grows and of which ever more is then used. Either way a
growth is granted in full or refused, and a refusal leaves the heap as it was.
-/

namespace SegregatedFit

structure Buffer where
  base : Nat
  capacity : Nat
  size : Nat := 0
deriving DecidableEq

/-- The usable part of the `len` bytes at `start`: bytes before the first
aligned address are skipped. -/
def Buffer.ofBytes (start len : Nat) : Buffer :=
  let skip := min ((alignment - start % alignment) % alignment) len
  { base := start + skip, capacity := len - skip }

structure Errno where
  code : Nat
  description : String
deriving DecidableEq

/-- The system below the heap: how large its pages are, and where it places a
new region of so many bytes. -/
structure AddressSpace where
  pageSize : Nat
  page_pos : 0 < pageSize
  map : Nat → Except Errno Nat

namespace AddressSpace

variable (sys : AddressSpace)

def wholePages (n : Nat) : Nat :=
  (n + (sys.pageSize - 1)) / sys.pageSize * sys.pageSize

/-- A new region of `n` bytes is placed at `site` and ends within the words. -/
structure Provides (n site : Nat) : Prop where
  map_eq : sys.map n = .ok site
  end_lt : site + n < wordLimit

/-- A new region of `n` bytes, if there is one, begins with a page, which is
not the one at address 0; and pages begin aligned. -/
structure Paged (n : Nat) : Prop where
  page_mod : sys.pageSize % alignment = 0
  placed : ∀ site, sys.map n = .ok site → 0 < site ∧ site % sys.pageSize = 0 ∧ sys.Provides n site

end AddressSpace

/-- A region that is reserved on first use; until then `base` is `none` and
`capacity` is what will be asked for. -/
structure Reservation where
  base : Option Nat := none
  capacity : Nat := 256 * 1024 * 1024
  size : Nat := 0
  growths : Nat := 0
  system : AddressSpace

inductive GrowthError where
  | overflow (requested available : Nat)
  | exhausted (requested available : Nat)
  | refused (reason : Errno)
deriving DecidableEq

private def shortageText (name : String) (requested available : Nat) : String :=
  name ++ " \x7b requested: " ++ toString requested ++
    ", available: " ++ toString available ++ " \x7d"

def GrowthError.text : GrowthError → String
  | .overflow requested available => shortageText "ToyHeapOverflowError" requested available
  | .exhausted requested available => shortageText "Exhausted" requested available
  | .refused reason =>
    "Mmap(Errno \x7b code: " ++ toString reason.code ++
      ", description: Some(\"" ++ reason.description ++ "\") \x7d)"

def Reservation.reserve (r : Reservation) (requested : Nat) :
    Except GrowthError (Nat × Reservation) :=
  match r.base with
  | some base => .ok (base, r)
  | none =>
    if wordLimit ≤ r.capacity + (r.system.pageSize - 1) then .error (.exhausted requested 0)
    else
      let capacity := r.system.wholePages r.capacity
      match r.system.map capacity with
      | .error reason => .error (.refused reason)
      | .ok site => .ok (site, { r with base := some site, capacity })

inductive Source where
  | buffer (b : Buffer)
  | reservation (r : Reservation)

namespace Source

def lo : Source → Nat
  | .buffer b => b.base
  | .reservation r => r.base.getD 0

def size : Source → Nat
  | .buffer b => b.size
  | .reservation r => r.size

def capacity : Source → Nat
  | .buffer b => b.capacity
  | .reservation r => r.capacity

def hi (s : Source) : Nat :=
  wrapSub (wrapAdd s.lo s.size) 1

def contains (s : Source) (addr len : Nat) : Except Fault Bool :=
  if addr + len < wordLimit ∧ s.lo ≤ addr then
    (checkedAdd s.lo s.size).map (addr + len ≤ ·)
  else .ok false

/-- Extends the heap by `n` bytes and gives the address of the first of them.
A refused growth may still have put the region in place. -/
def grow (s : Source) (n : Nat) : Except Fault (Except GrowthError Nat × Source) :=
  match s with
  | .buffer b => do
    let available ← checkedSub b.capacity b.size
    if available < n then
      return (.error (.overflow n available), s)
    else
      return (.ok (wrapAdd b.base b.size), .buffer { b with size := b.size + n })
  | .reservation r =>
    match r.reserve n with
    | .error e => .ok (.error e, s)
    | .ok (base, r) => do
      let available ← checkedSub r.capacity r.size
      if available < n then
        return (.error (.exhausted n available), .reservation r)
      else
        let growths ← checkedAdd r.growths 1
        return (.ok (wrapAdd base r.size), .reservation { r with size := r.size + n, growths })

def reservedSince : Source → Source → Option (Nat × Nat)
  | .reservation { base := none, .. }, .reservation { base := some base, capacity, .. } =>
    some (capacity, base)
  | _, _ => none

end Source

end SegregatedFit
