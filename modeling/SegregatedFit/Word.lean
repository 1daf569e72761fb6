/-!
# Words and addresses

Sizes, addresses and machine words are natural numbers below `wordLimit`.
Address arithmetic wraps around at `wordLimit`; sizes that do not fit are an
error or a refusal, never a wrapped value.
-/

namespace SegregatedFit

@[simp] abbrev wordLimit : Nat := 0x10000000000000000

@[simp] abbrev wordSize : Nat := 8

/-- Every payload address and every block size is a multiple of this. -/
@[simp] abbrev alignment : Nat := 16

@[simp] abbrev overhead : Nat := 16

/-- The least block that holds a header, a footer and two links. -/
@[simp] abbrev minBlock : Nat := 32

def wrapAdd (a b : Nat) : Nat :=
  if a + b < wordLimit then a + b else a + b - wordLimit

def wrapSub (a b : Nat) : Nat :=
  if b ≤ a then a - b else a + wordLimit - b

theorem wrapAdd_of_lt {a b : Nat} (h : a + b < wordLimit) : wrapAdd a b = a + b :=
  if_pos h

theorem wrapSub_of_le {a b : Nat} (h : b ≤ a) : wrapSub a b = a - b :=
  if_pos h

theorem wrapAdd_lt {a b : Nat} (ha : a < wordLimit) (hb : b < wordLimit) :
    wrapAdd a b < wordLimit := by
  unfold wrapAdd; split <;> omega

theorem wrapSub_lt {a b : Nat} (ha : a < wordLimit) (hb : b < wordLimit) :
    wrapSub a b < wordLimit := by
  unfold wrapSub; split <;> omega

theorem wrapSub_wrapAdd {a b : Nat} (ha : a < wordLimit) (hb : b < wordLimit) :
    wrapSub (wrapAdd a b) b = a := by
  unfold wrapSub wrapAdd; split <;> split <;> omega

/-- The least multiple of `alignment` that is at least `n`, if it is found by
adding to `n` without leaving the words. -/
def alignUp (n : Nat) : Option Nat :=
  if n + (alignment - 1) < wordLimit then
    some ((n + (alignment - 1)) / alignment * alignment)
  else none

def alignUpOrMax (n : Nat) : Nat :=
  (alignUp n).getD (wordLimit - alignment)

theorem alignUp_eq_some {n m : Nat} :
    alignUp n = some m ↔ n + 15 < wordLimit ∧ m % 16 = 0 ∧ n ≤ m ∧ m < n + 16 := by
  unfold alignUp
  simp only [wordLimit, alignment]
  split
  · rw [Option.some.injEq]; omega
  · simp; omega

theorem alignUp_eq_none {n : Nat} : alignUp n = none ↔ wordLimit ≤ n + 15 := by
  unfold alignUp
  simp only [wordLimit, alignment]
  split <;> simp <;> omega

theorem alignUpOrMax_lt (n : Nat) : alignUpOrMax n < wordLimit := by
  unfold alignUpOrMax
  cases h : alignUp n with
  | none => decide
  | some m => have := alignUp_eq_some.mp h; simp only [Option.getD_some]; omega

theorem alignUpOrMax_mod (n : Nat) : alignUpOrMax n % 16 = 0 := by
  unfold alignUpOrMax
  cases h : alignUp n with
  | none => rfl
  | some m => exact (alignUp_eq_some.mp h).2.1

def hex (a : Nat) : String :=
  "0x" ++ String.ofList (Nat.toDigits 16 a)

end SegregatedFit
