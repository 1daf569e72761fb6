import SegregatedFit.Proofs.Tracking

/-!
# Intact heaps

A heap is intact when its blocks tile it up to the epilogue and its lists link the
free ones, both as the allocator's own operations find them. Sound heaps are
intact, and with them the heaps of all clients.
-/

namespace SegregatedFit

structure Block.Whole (b : Block) (t : Tag) (h : Heap) : Prop where
  header : b.header h = .ok t
  footer : b.footer h = .ok t
  aligned : b.payload % alignment = 0
  size_mod : t.size % alignment = 0
  le_size : minBlock ≤ t.size

/-- The blocks from `b` on lie end to end up to the epilogue, which is the last word of
the heap; `p` is the state of the block before `b`. -/
def Tiled (h : Heap) : Bool → Block → List (Block × Tag) → Prop
  | p, b, [] => ∃ t, b.header h = .ok t ∧ t.size = 0 ∧ t.isAlloc = true ∧ t.prevAlloc = p ∧
      b.headerAddr + wordSize = h.top
  | p, b, (d, t) :: bs => d = b ∧ b.Whole t h ∧ t.prevAlloc = p ∧
      ∃ e, b.next h = .ok e ∧ e.payload = b.payload + t.size ∧ e.prev h = .ok b ∧ Tiled h t.isAlloc e bs

def DoublyLinked (h : Heap) : Option Block → List Block → Prop
  | _, [] => True
  | prev, b :: bs => b.nextFree h = .ok bs.head? ∧ b.prevFree h = .ok prev ∧ DoublyLinked h (some b) bs

structure Intact (h : Heap) (bs : List (Block × Tag)) (l : Lists) : Prop where
  walk : blocks h = .ok bs
  first : h.first = ⟨h.source.lo + initialSize⟩
  tiled : Tiled h true h.first bs
  parted : bs.IsChain fun b d => b.2.isAlloc = true ∨ d.2.isAlloc = true
  members : ∀ k, FreeList.members k h = .ok (l k)
  heads : ∀ k, FreeList.head k h = .ok (l k).head?
  linked : ∀ k, DoublyLinked h none (l k)
  filed : ∀ k, ∀ b ∈ l k, ∃ t, (b, t) ∈ bs ∧ SizeClass.ofSize t.size = k
  free : l.flat.Perm ((bs.filter fun b => !b.2.isAlloc).map Prod.fst)

variable {h : Heap} {w : List Cell} {l : Lists} {c : Cell} {p : Bool}

theorem Cell.Stands.whole (hc : c.Stands h p) : c.block.Whole (c.tag p) h :=
  ⟨hc.header, hc.footer, c.addr_mod, by rw [c.size_tag]; exact c.size_mod,
    by rw [c.size_tag]; exact c.le_size⟩

theorem Tiles.tiled {addr : Nat} (ht : Tiles h.memory h.top addr p w) (hlo : h.source.lo + 8 ≤ addr)
    (htop : h.top < wordLimit) : Tiled h p ⟨addr⟩ (taggedCells p w) := by
  induction w generalizing addr p with
  | nil =>
    obtain ⟨hh, rfl⟩ := ht.run_epilogue hlo
    refine ⟨_, hh, by simp, Tag.isAlloc_pack .., Tag.prevAlloc_pack .., ?_⟩
    rw [Block.headerAddr_eq (by simp only; omega)]
    simp only [wordSize]; omega
  | cons c w ih =>
    have hst := ht.stands hlo htop
    have hsz := c.le_size
    obtain ⟨rfl, -, hw⟩ := tiles_cons.mp ht
    refine ⟨rfl, hst.whole, c.prevAlloc_tag p, ⟨c.addr + c.size⟩, hst.next, ?_, hst.prev, ?_⟩
    · rw [c.size_tag]
    · rw [c.isAlloc_tag]
      exact ih hw (by omega)

theorem Threaded.doublyLinked (hl : Threaded h l) {bs : List Block} {prev : Option Block}
    (ht : Threads h.memory none prev bs) (hprev : ∀ b ∈ prev, l.Has b) (hbs : ∀ b ∈ bs, l.Has b) :
    DoublyLinked h prev bs := by
  induction bs generalizing prev with
  | nil => trivial
  | cons b bs ih =>
    have hb := hbs b (by simp)
    refine ⟨hl.run_next ht hbs, ?_, ih ht.2.2 (by rintro _ ⟨⟩; exact hb) fun d hd => hbs d (by simp [hd])⟩
    rw [(hl.node hb).run_prevFree, ht.2.1, hl.ofLinkWord hprev]

theorem Intact.of_sound (hS : Sound h w l) : Intact h (taggedCells true w) l where
  walk := hS.run_blocks
  first := hS.founded.first
  tiled := by
    rw [hS.founded.first]
    exact hS.tiles.tiled (by omega) hS.founded.top_lt
  parted := hS.parted.tagged
  members := hS.linked.run_members
  heads := run_head hS.linked.toThreaded
  linked k := hS.linked.doublyLinked (hS.linked.threads k) (by simp) fun b hb => ⟨k, hb⟩
  filed k b hb := by
    obtain ⟨c, hc, rfl, -, hk⟩ := hS.filed k b hb
    obtain ⟨q, hq⟩ := mem_taggedCells (p := true) hc
    exact ⟨_, hq, by rwa [c.size_tag]⟩
  free := by
    rw [filter_taggedCells]
    exact hS.perm_flat

/-- Whatever its clients do, a heap stays intact. -/
theorem Reachable.intact {c : Client} (hc : Reachable c) : ∃ bs l, Intact c.heap bs l := by
  obtain ⟨w, l, hT⟩ := hc.tracked
  exact ⟨_, l, .of_sound hT.sound⟩

theorem smallRun_intact : Reachable smallRun ∧ ∃ bs l, Intact smallRun.heap bs l :=
  ⟨reachable_smallRun, Reachable.intact reachable_smallRun⟩

end SegregatedFit
