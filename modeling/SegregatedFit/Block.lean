import SegregatedFit.Tag

/-!
# Blocks

A block is named by the address of its payload. One word before the payload is
its header; its last word, the footer, ends `overhead` bytes before the payload
of the block that follows. A free block keeps its links to the next and the
previous block of its list in the first two words of the payload.
-/

namespace SegregatedFit

@[ext] structure Block where
  payload : Nat
deriving DecidableEq, Inhabited

namespace Block

def headerAddr (b : Block) : Nat := wrapSub b.payload wordSize

def footerAddr (b : Block) (size : Nat) : Nat := wrapSub (wrapAdd b.payload size) overhead

def after (b : Block) (size : Nat) : Block := ⟨wrapAdd b.payload size⟩

def before (b : Block) (size : Nat) : Block := ⟨wrapSub b.payload size⟩

def precedingFooterAddr (b : Block) : Nat := wrapSub b.payload overhead

def nextLinkAddr (b : Block) : Nat := b.payload

def prevLinkAddr (b : Block) : Nat := wrapAdd b.payload wordSize

/-- The word that stands for a link: a payload address, or 0 for none. -/
def linkWord : Option Block → Nat
  | none => 0
  | some b => b.payload

def ofLinkWord (w : Nat) : Option Block :=
  if w = 0 then none else some ⟨w⟩

@[simp] theorem ofLinkWord_zero : ofLinkWord 0 = none := rfl

theorem ofLinkWord_linkWord {o : Option Block} (h : ∀ b ∈ o, b.payload ≠ 0) :
    ofLinkWord (linkWord o) = o := by
  cases o with
  | none => rfl
  | some b => exact if_neg (h b rfl)

theorem linkWord_ofLinkWord (w : Nat) : linkWord (ofLinkWord w) = w := by
  unfold ofLinkWord; split <;> simp_all [linkWord]

theorem ofLinkWord_inj {v w : Nat} (h : ofLinkWord v = ofLinkWord w) : v = w := by
  rw [← linkWord_ofLinkWord v, h, linkWord_ofLinkWord]

theorem before_after {b : Block} {n : Nat} (hb : b.payload < wordLimit) (hn : n < wordLimit) :
    (b.after n).before n = b := by
  simp only [after, before, wrapSub_wrapAdd hb hn]

def text (b : Block) (header : Tag) : String :=
  s!"Block({hex b.payload}, {header.text})"

def freeText (b : Block) (size : Nat) : String :=
  s!"FreeBlock({hex b.payload}, {size})"

end Block

end SegregatedFit
