import SegregatedFit.Fault

/-!
# Size classes

Free blocks are filed by size in twelve classes. Each class but the last has a
limit, twice the one before it, and holds the blocks that exceed every smaller
limit but not this one; the last class takes all larger blocks.
-/

namespace SegregatedFit

abbrev classCount : Nat := 12

abbrev SizeClass := Fin classCount

namespace SizeClass

def limits : List Nat := (List.range (classCount - 1)).map (32 <<< ·)

/-- A block is filed under the number of limits it exceeds. -/
def ofSize (n : Nat) : SizeClass :=
  ⟨limits.countP (· < n), Nat.lt_succ_of_le (List.countP_le_length (l := limits))⟩

def ofIndex (i : Nat) : Except Fault SizeClass :=
  if h : i < classCount then .ok ⟨i, h⟩ else .error .noSuchClass

def all : List SizeClass := List.finRange classCount

def ofSizeOrMore (n : Nat) : List SizeClass := all.drop (ofSize n)

theorem ofSize_mono {a b : Nat} (h : a ≤ b) : ofSize a ≤ ofSize b := by
  show limits.countP (· < a) ≤ limits.countP (· < b)
  refine List.countP_mono_left fun x _ hx => ?_
  simp only [decide_eq_true_eq] at *
  omega

end SizeClass

end SegregatedFit
