import SegregatedFit.Block.Tags

/-!
# Blocks in address order

The blocks of a heap lie end to end from the first block to the epilogue, whose
size is 0. A walk goes where the headers say; addresses wrap, so headers that were
overwritten may lead it down. Like a walk along a free list it carries a bound that
no walk without a cycle reaches.
-/

namespace SegregatedFit

def blocksFrom : Nat → Block → Query (List (Block × Tag))
  | 0, _ => throw .endlessWalk
  | n + 1, b => do
    let t ← b.header
    if t.size = 0 then return []
    else return (b, t) :: (← blocksFrom n (b.after t.size))

def blocks : Query (List (Block × Tag)) := do
  blocksFrom wordLimit (← read).first

end SegregatedFit
