import Mathlib.Algebra.GroupWithZero.Nat
import SegregatedFit.Block

/-!
# Cells

A cell is a block together with its size and its state: what a walk over the
heap meets, freed from the memory in which it is written. Cells that lie end to
end keep apart, and each address is held by at most one of them.
-/

namespace SegregatedFit

@[ext] structure Cell where
  addr : Nat
  size : Nat
  alloc : Bool
  addr_mod : addr % 16 = 0 := by omega
  size_mod : size % 16 = 0 := by omega
  le_size : 32 ≤ size := by omega
deriving DecidableEq

namespace Cell

def block (c : Cell) : Block := ⟨c.addr⟩

def tag (c : Cell) (prevAlloc : Bool) : Tag := .pack c.size c.alloc prevAlloc

def Holds (c : Cell) (x : Nat) : Prop := c.addr ≤ x ∧ x + 16 < c.addr + c.size

def TagByte (c : Cell) (x : Nat) : Prop :=
  (c.addr ≤ x + 8 ∧ x < c.addr) ∨ (c.addr + c.size ≤ x + 16 ∧ x + 8 < c.addr + c.size)

theorem Holds.not_tagByte {c : Cell} {x : Nat} (hx : c.Holds x) : ¬ c.TagByte x := by
  have := hx.1; have := hx.2
  unfold TagByte; omega

theorem not_tagByte_of_outside {c : Cell} {x : Nat} (hx : x + 8 < c.addr ∨ c.addr + c.size ≤ x + 8) :
    ¬ c.TagByte x := by
  have := c.le_size
  unfold TagByte; omega

theorem size_tag (c : Cell) (p : Bool) : (c.tag p).size = c.size := by
  have := c.size_mod
  rw [tag, Tag.size_pack]; omega

@[simp] theorem isAlloc_tag (c : Cell) (p : Bool) : (c.tag p).isAlloc = c.alloc :=
  Tag.isAlloc_pack ..

@[simp] theorem prevAlloc_tag (c : Cell) (p : Bool) : (c.tag p).prevAlloc = p :=
  Tag.prevAlloc_pack ..

theorem withPrevAlloc_tag (c : Cell) (p q : Bool) : (c.tag p).withPrevAlloc q = c.tag q := by
  rw [Tag.withPrevAlloc, size_tag, isAlloc_tag]; rfl

theorem bits_tag_lt (c : Cell) (p : Bool) (h : c.size < wordLimit) : (c.tag p).bits < wordLimit :=
  Tag.bits_pack_lt h ..

theorem ne_of_alloc {c d : Cell} (hc : c.alloc = false) (hd : d.alloc = true) : c ≠ d := by
  rintro rfl
  simp [hd] at hc

theorem block_inj {c d : Cell} : c.block = d.block ↔ c.addr = d.addr := by
  simp [block]

end Cell

/-! ## End to end -/

def Abut : Nat → List Cell → Nat → Prop
  | a, [], e => a = e
  | a, c :: cs, e => c.addr = a ∧ Abut (a + c.size) cs e

theorem abut_append : ∀ {xs ys : List Cell} {a e : Nat},
    Abut a (xs ++ ys) e ↔ ∃ b, Abut a xs b ∧ Abut b ys e
  | [], ys, a, e => by simp [Abut]
  | c :: xs, ys, a, e => by
    rw [List.cons_append, Abut, abut_append]
    simp only [Abut]
    constructor
    · intro hr
      obtain ⟨hc, b, hb, he⟩ := hr
      exact ⟨b, ⟨hc, hb⟩, he⟩
    · intro hr
      obtain ⟨b, ⟨hc, hb⟩, he⟩ := hr
      exact ⟨hc, b, hb, he⟩

namespace Abut

theorem replace {xs ys ys' zs : List Cell} {a e : Nat} (h : Abut a (xs ++ ys ++ zs) e)
    (hy : ∀ {b d : Nat}, Abut b ys d → Abut b ys' d) : Abut a (xs ++ ys' ++ zs) e := by
  obtain ⟨d, hxy, hz⟩ := abut_append.mp h
  obtain ⟨b, hx, hy'⟩ := abut_append.mp hxy
  exact abut_append.mpr ⟨d, abut_append.mpr ⟨b, hx, hy hy'⟩, hz⟩

theorem le : ∀ {w : List Cell} {a e : Nat}, Abut a w e → a ≤ e
  | [], _, _, h => Nat.le_of_eq h
  | _ :: _, _, _, h => by have := h.2.le; omega

theorem bounds : ∀ {w : List Cell} {a e : Nat}, Abut a w e → ∀ c ∈ w, a ≤ c.addr ∧ c.addr + c.size ≤ e
  | d :: w, a, e, ⟨hd, hw⟩, c, hc => by
    have hle := hw.le
    rcases List.mem_cons.mp hc with rfl | hm
    · omega
    · have := hw.bounds c hm; omega

theorem end_eq : ∀ {w : List Cell} {a e : Nat}, Abut a w e → e = a + (w.map Cell.size).sum
  | [], _, _, h => h.symm
  | c :: w, a, e, ⟨_, hw⟩ => by
    rw [hw.end_eq, List.map_cons, List.sum_cons, Nat.add_assoc]

theorem length_le {w : List Cell} {a e : Nat} (h : Abut a w e) : a + 32 * w.length ≤ e := by
  induction w generalizing a with
  | nil => exact Nat.le_of_eq h
  | cons c w ih =>
    have := c.le_size
    have := ih h.2
    rw [List.length_cons]; omega

theorem sum_le {xs ys zs : List Cell} {a e : Nat} (h : Abut a (xs ++ ys ++ zs) e) :
    a + (ys.map Cell.size).sum ≤ e := by
  have := h.end_eq
  simp only [List.map_append, List.sum_append] at this
  omega

theorem last_end : ∀ {w : List Cell} {a e : Nat}, Abut a w e →
    ∀ c ∈ w.getLast?, c.addr + c.size = e
  | [d], a, e, ⟨hd, he⟩, c, hc => by
    obtain rfl : d = c := by simpa using hc
    rw [hd]; exact he
  | _ :: d :: w, _, _, ⟨_, hw⟩, c, hc => hw.last_end c (by rwa [List.getLast?_cons_cons] at hc)

theorem end_mod : ∀ {w : List Cell} {a e : Nat}, Abut a w e → a % 16 = 0 → e % 16 = 0
  | [], _, _, h, ha => h ▸ ha
  | c :: _, _, _, ⟨_, hw⟩, ha => by
    have := c.size_mod
    exact hw.end_mod (by omega)

theorem pairwise : ∀ {w : List Cell} {a e : Nat}, Abut a w e →
    w.Pairwise fun c d => c.addr + c.size ≤ d.addr
  | [], _, _, _ => List.Pairwise.nil
  | c :: w, a, e, ⟨hc, hw⟩ => by
    refine List.Pairwise.cons (fun d hd => ?_) hw.pairwise
    have := hw.bounds d hd; omega

theorem apart {w : List Cell} {a e : Nat} (h : Abut a w e) {c d : Cell} (hc : c ∈ w) (hd : d ∈ w) :
    c = d ∨ c.addr + c.size ≤ d.addr ∨ d.addr + d.size ≤ c.addr := by
  induction w generalizing a with
  | nil => cases hc
  | cons b w ih =>
    rcases List.mem_cons.mp hc with hcb | hcw <;> rcases List.mem_cons.mp hd with hdb | hdw
    · exact .inl (hcb.trans hdb.symm)
    · subst hcb; have := h.2.bounds d hdw; have := h.1; omega
    · subst hdb; have := h.2.bounds c hcw; have := h.1; omega
    · exact ih h.2 hcw hdw

theorem eq_of_addr {w : List Cell} {a e : Nat} (h : Abut a w e) {c d : Cell} (hc : c ∈ w)
    (hd : d ∈ w) (he : c.addr = d.addr) : c = d := by
  have := c.le_size; have := d.le_size
  rcases h.apart hc hd with rfl | h | h
  · rfl
  · omega
  · omega

theorem nodup {w : List Cell} {a e : Nat} (h : Abut a w e) : (w.map Cell.addr).Nodup := by
  rw [List.Nodup, List.pairwise_map]
  refine h.pairwise.imp fun {c d} hcd => ?_
  have := c.le_size; omega

theorem nodup_blocks {w : List Cell} {a e : Nat} (h : Abut a w e) : (w.map Cell.block).Nodup := by
  have hnd := h.nodup
  rw [List.Nodup, List.pairwise_map] at hnd ⊢
  exact hnd.imp fun hne he => hne (Cell.block_inj.mp he)

end Abut

end SegregatedFit
