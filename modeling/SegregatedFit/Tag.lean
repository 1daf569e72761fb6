import SegregatedFit.Word

/-!
# Boundary tags

A tag is one word: bit 0 says whether the block is allocated, bit 1 whether the
block before it is, and the rest, with the low four bits cleared, is the size.
A tag read from memory keeps its bits 2 and 3; a packed one has them clear.
-/

namespace SegregatedFit

@[ext] structure Tag where
  bits : Nat
deriving DecidableEq, Inhabited

namespace Tag

def size (t : Tag) : Nat := t.bits / alignment * alignment

def isAlloc (t : Tag) : Bool := t.bits % 2 == 1

def prevAlloc (t : Tag) : Bool := t.bits / 2 % 2 == 1

/-- The tag of a block of `size` bytes; `size` is first rounded down to the
alignment. -/
def pack (size : Nat) (alloc prevAlloc : Bool) : Tag :=
  ⟨size / alignment * alignment + (alloc.toNat + 2 * prevAlloc.toNat)⟩

def withPrevAlloc (t : Tag) (prevAlloc : Bool) : Tag :=
  pack t.size t.isAlloc prevAlloc

theorem size_mod (t : Tag) : t.size % 16 = 0 := by
  simp only [size, alignment]; omega

theorem size_le (t : Tag) : t.size ≤ t.bits := by
  simp only [size, alignment]; omega

@[simp] theorem size_pack (n : Nat) (a p : Bool) : (pack n a p).size = n / 16 * 16 := by
  cases a <;> cases p <;> simp only [pack, size, Bool.toNat_true, Bool.toNat_false] <;>
    simp [alignment] <;> omega

@[simp] theorem isAlloc_pack (n : Nat) (a p : Bool) : (pack n a p).isAlloc = a := by
  cases a <;> cases p <;> simp only [pack, isAlloc, Bool.toNat_true, Bool.toNat_false] <;>
    simp [alignment] <;> omega

@[simp] theorem prevAlloc_pack (n : Nat) (a p : Bool) : (pack n a p).prevAlloc = p := by
  cases a <;> cases p <;> simp only [pack, prevAlloc, Bool.toNat_true, Bool.toNat_false] <;>
    simp [alignment] <;> omega

theorem bits_pack_lt {n : Nat} (h : n < wordLimit) (a p : Bool) :
    (pack n a p).bits < wordLimit := by
  simp only [wordLimit] at *
  cases a <;> cases p <;> simp only [pack, Bool.toNat_true, Bool.toNat_false] <;> simp [alignment] <;> omega

private def stateText (alloc : Bool) : String :=
  if alloc then "alloc" else "free"

def text (t : Tag) : String :=
  s!"Tag({t.size}, {stateText t.isAlloc}, prev {stateText t.prevAlloc})"

end Tag

end SegregatedFit
