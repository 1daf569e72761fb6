import Std.Data.TreeMap.Lemmas
import SegregatedFit.Word

/-!
# Memory

A memory gives every address a byte. It remembers the bytes written to it and
takes all others from its initial content. A word is eight bytes, the least
significant first. `byte` is the view in which every store is described: it
changes the bytes of its own range and no other.
-/

namespace SegregatedFit

/-- The number whose base-256 digits, the least significant first, are the bytes. -/
def wordOfBytes : List UInt8 → Nat
  | [] => 0
  | b :: bs => b.toNat + 256 * wordOfBytes bs

def bytesOfWord : Nat → Nat → List UInt8
  | 0, _ => []
  | n + 1, w => UInt8.ofNat w :: bytesOfWord n (w / 256)

@[simp] theorem length_bytesOfWord : ∀ n w, (bytesOfWord n w).length = n
  | 0, _ => rfl
  | n + 1, w => by simp [bytesOfWord, length_bytesOfWord n]

/-- How many numbers have at most `n` base-256 digits. -/
def byteRange : Nat → Nat
  | 0 => 1
  | n + 1 => 256 * byteRange n

theorem wordOfBytes_bytesOfWord : ∀ n w, wordOfBytes (bytesOfWord n w) = w % byteRange n
  | 0, w => by simp [bytesOfWord, wordOfBytes, byteRange, Nat.mod_one]
  | n + 1, w => by
    rw [bytesOfWord, wordOfBytes, wordOfBytes_bytesOfWord n, byteRange, Nat.mod_mul]
    simp

theorem wordOfBytes_lt : ∀ bs : List UInt8, wordOfBytes bs < byteRange bs.length
  | [] => by simp [wordOfBytes, byteRange]
  | b :: bs => by
    have := wordOfBytes_lt bs
    have := b.toNat_lt
    rw [wordOfBytes, List.length_cons, byteRange]
    omega

structure Memory where
  initial : Nat → UInt8
  written : Std.TreeMap Nat UInt8 := ∅

namespace Memory

def zero : Memory := ⟨fun _ => 0, ∅⟩

def filled (a n : Nat) (b : UInt8) : Memory :=
  ⟨fun x => if a ≤ x ∧ x < a + n then b else 0, ∅⟩

def byte (m : Memory) (a : Nat) : UInt8 :=
  match m.written[a]? with
  | some b => b
  | none => m.initial a

def setByte (m : Memory) (a : Nat) (b : UInt8) : Memory :=
  { m with written := m.written.insert a b }

def read (m : Memory) (a n : Nat) : List UInt8 :=
  (List.range' a n).map m.byte

def write (m : Memory) (a : Nat) : List UInt8 → Memory
  | [] => m
  | b :: bs => (m.setByte a b).write (a + 1) bs

def word (m : Memory) (a : Nat) : Nat :=
  wordOfBytes (m.read a wordSize)

def setWord (m : Memory) (a : Nat) (w : Nat) : Memory :=
  m.write a (bytesOfWord wordSize w)

theorem byte_setByte (m : Memory) (a : Nat) (v : UInt8) (b : Nat) :
    (m.setByte a v).byte b = if a = b then v else m.byte b := by
  unfold byte setByte
  rw [Std.TreeMap.getElem?_insert]
  by_cases h : a = b <;> simp [h]

theorem byte_write_outside : ∀ (bs : List UInt8) (m : Memory) (a b : Nat),
    b < a ∨ a + bs.length ≤ b → (m.write a bs).byte b = m.byte b
  | [], _, _, _, _ => rfl
  | v :: bs, m, a, b, h => by
    have h : b < a ∨ a + (bs.length + 1) ≤ b := h
    have hb : a ≠ b := by omega
    rw [write, byte_write_outside bs _ _ _ (by omega), byte_setByte, if_neg hb]

theorem byte_write_inside : ∀ (bs : List UInt8) (m : Memory) (a i : Nat) (h : i < bs.length),
    (m.write a bs).byte (a + i) = bs[i]
  | v :: bs, m, a, 0, _ => by
    rw [write, byte_write_outside bs _ _ _ (by omega), byte_setByte, if_pos (by omega)]
    rfl
  | v :: bs, m, a, i + 1, h => by
    have := byte_write_inside bs (m.setByte a v) (a + 1) i (Nat.lt_of_succ_lt_succ h)
    rw [write, show a + (i + 1) = a + 1 + i by omega, this]
    rfl

@[simp] theorem length_read (m : Memory) (a n : Nat) : (m.read a n).length = n := by
  simp [read]

theorem getElem_read (m : Memory) (a n i : Nat) (h : i < (m.read a n).length) :
    (m.read a n)[i] = m.byte (a + i) := by
  simp [read]

theorem read_congr {m m' : Memory} {a n : Nat}
    (h : ∀ x, a ≤ x → x < a + n → m.byte x = m'.byte x) : m.read a n = m'.read a n := by
  refine List.map_congr_left fun x hx => h x ?_ ?_ <;> simp [List.mem_range'_1] at hx <;> omega

theorem read_write_same (m : Memory) (a : Nat) (bs : List UInt8) :
    (m.write a bs).read a bs.length = bs := by
  refine List.ext_getElem (by simp) fun i h h' => ?_
  rw [getElem_read, byte_write_inside _ _ _ _ h']

theorem read_write_disjoint (m : Memory) {a b n : Nat} {bs : List UInt8}
    (h : a + bs.length ≤ b ∨ b + n ≤ a) : (m.write a bs).read b n = m.read b n :=
  read_congr fun x _ _ => byte_write_outside bs m a x (by omega)

theorem word_congr {m m' : Memory} {a : Nat}
    (h : ∀ x, a ≤ x → x < a + 8 → m.byte x = m'.byte x) : m.word a = m'.word a := by
  unfold word; rw [read_congr h]

theorem word_lt (m : Memory) (a : Nat) : m.word a < wordLimit := by
  have := wordOfBytes_lt (m.read a wordSize)
  rwa [length_read] at this

theorem word_setWord_same (m : Memory) (a : Nat) {w : Nat} (h : w < wordLimit) :
    (m.setWord a w).word a = w := by
  have := read_write_same m a (bytesOfWord wordSize w)
  rw [length_bytesOfWord] at this
  rw [word, setWord, this, wordOfBytes_bytesOfWord]
  exact Nat.mod_eq_of_lt h

theorem word_setWord_disjoint (m : Memory) {a b : Nat} (w : Nat) (h : a + 8 ≤ b ∨ b + 8 ≤ a) :
    (m.setWord a w).word b = m.word b := by
  unfold word setWord
  rw [read_write_disjoint m (by simpa using h)]

theorem byte_setWord_outside (m : Memory) {a b : Nat} (w : Nat) (h : b < a ∨ a + 8 ≤ b) :
    (m.setWord a w).byte b = m.byte b :=
  byte_write_outside _ _ _ _ (by simpa using h)

end Memory

end SegregatedFit
