import SegregatedFit.Block.Tags

/-!
# Free lists

Each size class has a doubly linked list of free blocks, the most recently
inserted first. The heap holds the heads; the links are in the blocks. Walks
follow the links lazily and carry a bound that no list without a cycle reaches.
-/

namespace SegregatedFit.FreeList

def head (c : SizeClass) : Query (Option Block) := do
  return (← read).heads[c]

def setHead (c : SizeClass) (link : Option Block) : Action Unit :=
  modify fun h => { h with heads := h.heads.set c link }

def chain : Nat → Option Block → Query (List Block)
  | _, none => return []
  | 0, some _ => throw .endlessWalk
  | n + 1, some b => return b :: (← chain n (← b.nextFree))

def members (c : SizeClass) : Query (List Block) := do
  chain wordLimit (← head c)

def insert (b : Block) : Action Unit := do
  let c := SizeClass.ofSize (← b.size)
  let old ← head c
  b.setNextFree old
  b.setPrevFree none
  old.forM (·.setPrevFree (some b))
  setHead c (some b)

/-- Makes `next` the successor of `prev`, which is the predecessor of `b`, or the
head of the list if `b` is that. -/
def bypass (c : SizeClass) (b : Block) (next : Option Block) : Option Block → Action Unit
  | some p => p.setNextFree next
  | none => do
    demand ((← head c) = some b) .notListHead
    setHead c next

def remove (b : Block) : Action Unit := do
  let c := SizeClass.ofSize (← b.size)
  let prev ← b.prevFree
  let next ← b.nextFree
  bypass c b next prev
  next.forM (·.setPrevFree prev)

/-- The best of `best` and the blocks from `link` on: the least that has at least
`n` bytes, and the first of equals. An exact fit ends the search. -/
def bestFitFrom (n : Nat) : Nat → Option (Block × Nat) → Option Block → Query (Option Block)
  | _, best, none => return best.map (·.1)
  | 0, _, some _ => throw .endlessWalk
  | k + 1, best, some b => do
    let size ← b.size
    if size = n then return some b
    else if size < n ∨ best.any (·.2 ≤ size) then bestFitFrom n k best (← b.nextFree)
    else bestFitFrom n k (some (b, size)) (← b.nextFree)

def bestFit (c : SizeClass) (n : Nat) : Query (Option Block) := do
  bestFitFrom n wordLimit none (← head c)

def firstFit (n : Nat) : List SizeClass → Query (Option Block)
  | [] => return none
  | c :: cs => do
    match ← bestFit c n with
    | some b => return some b
    | none => firstFit n cs

def length : Query Nat := do
  return (← SizeClass.all.mapM members).foldl (· + ·.length) 0

def isEmpty : Query Bool := do
  return (← read).heads.all Option.isNone

def contents : Query (List (SizeClass × List (Block × Nat))) := do
  let lists ← SizeClass.all.mapM fun c => do
    return (c, ← (← members c).mapM fun b => return (b, ← b.size))
  return lists.filter (!·.2.isEmpty)

private def memberText (m : Block × Nat) : String :=
  s!"{hex m.1.payload}:{m.2}"

private def listText (l : SizeClass × List (Block × Nat)) : String :=
  s!"{l.1.val}: [" ++ ", ".intercalate (l.2.map memberText) ++ "]"

def text : Query String := do
  return "SegList(" ++ ", ".intercalate ((← contents).map listText) ++ ")"

end SegregatedFit.FreeList
