import SegregatedFit.Proofs.Fitting

/-!
# Coalescing

A block that is freed becomes one block with those of its neighbours that are free. In a walk
over the heap the one block takes the place of all of these, and no other block notices but
the next one. In the lists the neighbours are gone, the one block is the head of its own list,
and all others are in the order in which they were.
-/

namespace SegregatedFit

/-! ## A block and what is around it -/

def tellFirst (prevAlloc : Bool) : List (Block × Tag) → List (Block × Tag)
  | [] => []
  | (b, t) :: bs => (b, t.withPrevAlloc prevAlloc) :: bs

/-- A block in a walk; the blocks before and after it are `below` and `above` if they are free. -/
structure Vicinity where
  pre : List (Block × Tag)
  below : Option (Block × Tag)
  block : Block
  tag : Tag
  above : Option (Block × Tag)
  post : List (Block × Tag)

namespace Vicinity

def run (v : Vicinity) : List (Block × Tag) := v.below.toList ++ (v.block, v.tag) :: v.above.toList

def walk (v : Vicinity) : List (Block × Tag) := v.pre ++ (v.run ++ v.post)

def start (v : Vicinity) : Block := (v.below.getD (v.block, v.tag)).1

def total (v : Vicinity) : Nat := (v.run.map fun b => b.2.size).sum

def fused (v : Vicinity) : List (Block × Tag) :=
  v.pre ++ (v.start, .pack v.total false true) :: tellFirst false v.post

def refiled (v : Vicinity) (l : Lists) : Lists := fun k =>
  let others := (l k).filter (· ∉ v.run.map Prod.fst)
  if k = SizeClass.ofSize v.total then v.start :: others else others

structure Closed (v : Vicinity) : Prop where
  tag : v.tag.isAlloc = true
  below : ∀ b ∈ v.below, b.2.isAlloc = false
  above : ∀ b ∈ v.above, b.2.isAlloc = false
  pre : ∀ b ∈ v.pre.getLast?, b.2.isAlloc = true
  post : ∀ b ∈ v.post.head?, b.2.isAlloc = true

end Vicinity

variable {c : Client} {h : Heap} {w xs ys lo hi : List Cell} {l : Lists} {d : Cell} {below above : Option Cell}
  {p q : Bool} {pointer : Nat}

/-! ## The walk -/

theorem tellFirst_tagged : tellFirst q (taggedCells p w) = taggedCells q w := by
  cases w with
  | nil => rfl
  | cons c w => rw [taggedCells, tellFirst, c.withPrevAlloc_tag, taggedCells]

theorem taggedCells_append : taggedCells p (xs ++ ys) =
    taggedCells p xs ++ taggedCells ((xs.getLast?.map Cell.alloc).getD p) ys := by
  induction xs generalizing p with
  | nil => rfl
  | cons c xs ih =>
    have hlast : ((c :: xs).getLast?.map Cell.alloc).getD p = (xs.getLast?.map Cell.alloc).getD c.alloc := by
      rw [List.getLast?_cons]
      cases xs.getLast? <;> rfl
    rw [List.cons_append, taggedCells, ih, hlast, taggedCells, List.cons_append]

theorem getLast?_tagged (hlo : ∀ d ∈ w.getLast?, d.alloc = q) : ∀ b ∈ (taggedCells p w).getLast?, b.2.isAlloc = q := by
  intro b hb
  rcases List.eq_nil_or_concat w with rfl | ⟨w, d, rfl⟩
  · cases hb
  · rw [List.concat_eq_append] at hb hlo
    rw [taggedCells_append, taggedCells, taggedCells, List.getLast?_concat] at hb
    cases hb
    rw [d.isAlloc_tag]
    exact hlo d List.getLast?_concat

theorem head?_tagged (hhi : ∀ d ∈ w.head?, d.alloc = q) : ∀ b ∈ (taggedCells p w).head?, b.2.isAlloc = q := by
  intro b hb
  cases w with
  | nil => cases hb
  | cons d w =>
    cases hb
    rw [d.isAlloc_tag]
    exact hhi d rfl

def Cell.vicinity (lo : List Cell) (below : Option Cell) (d : Cell) (above : Option Cell) (hi : List Cell) :
    Vicinity where
  pre := taggedCells true lo
  below := below.map fun c => (c.block, c.tag true)
  block := d.block
  tag := d.tag below.isNone
  above := above.map fun c => (c.block, c.tag true)
  post := taggedCells above.isNone hi

namespace Fenced

theorem last_alloc (hf : Fenced lo below above hi) : (lo.getLast?.map Cell.alloc).getD true = true := by
  cases hlast : lo.getLast? with
  | none => rfl
  | some d => exact hf.lo d hlast

theorem walk_vicinity (hf : Fenced lo below above hi) (hd : d.alloc = true) :
    (Cell.vicinity lo below d above hi).walk = taggedCells true (lo ++ below.toList ++ d :: (above.toList ++ hi)) := by
  rw [List.append_assoc, taggedCells_append, hf.last_alloc]
  cases below with
  | none =>
    cases above with
    | none => simp [Vicinity.walk, Vicinity.run, Cell.vicinity, taggedCells, hd]
    | some e => simp [Vicinity.walk, Vicinity.run, Cell.vicinity, taggedCells, hd, hf.above e rfl]
  | some b =>
    have hb := hf.below b rfl
    cases above with
    | none => simp [Vicinity.walk, Vicinity.run, Cell.vicinity, taggedCells, hd, hb]
    | some e => simp [Vicinity.walk, Vicinity.run, Cell.vicinity, taggedCells, hd, hb, hf.above e rfl]

theorem closed (hf : Fenced lo below above hi) (hd : d.alloc = true) : (Cell.vicinity lo below d above hi).Closed := by
  refine ⟨?_, ?_, ?_, getLast?_tagged hf.lo, head?_tagged hf.hi⟩
  · rw [Cell.vicinity, d.isAlloc_tag, hd]
  · intro b hb
    obtain ⟨c, hc, rfl⟩ := Option.mem_map.mp hb
    rw [c.isAlloc_tag, hf.below c hc]
  · intro b hb
    obtain ⟨c, hc, rfl⟩ := Option.mem_map.mp hb
    rw [c.isAlloc_tag, hf.above c hc]

end Fenced

theorem Cell.start_vicinity : (Cell.vicinity lo below d above hi).start = (Cell.merge below d above).block := by
  cases below <;> rfl

theorem Cell.total_vicinity : (Cell.vicinity lo below d above hi).total = (Cell.merge below d above).size := by
  cases below with
  | none =>
    cases above with
    | none => simp [Vicinity.total, Vicinity.run, vicinity, merge, sizeOf, size_tag]
    | some e => simp [Vicinity.total, Vicinity.run, vicinity, merge, sizeOf, size_tag]
  | some b =>
    cases above with
    | none => simp [Vicinity.total, Vicinity.run, vicinity, merge, sizeOf, size_tag]
    | some e => simp [Vicinity.total, Vicinity.run, vicinity, merge, sizeOf, size_tag, Nat.add_assoc]

theorem Fenced.fused_vicinity (hf : Fenced lo below above hi) :
    (Cell.vicinity lo below d above hi).fused = taggedCells true (lo ++ Cell.merge below d above :: hi) := by
  rw [Vicinity.fused, Cell.start_vicinity, Cell.total_vicinity, taggedCells_append, hf.last_alloc, taggedCells]
  exact congrArg (_ ++ _ :: ·) tellFirst_tagged

/-! ## The lists -/

theorem Lists.drop_eq {k : SizeClass} (hn : (l k).Nodup) (o : Option Cell) :
    l.drop o k = (l k).filter (· ∉ o.toList.map Cell.block) := by
  cases o with
  | none => simp
  | some c =>
    rw [drop_some, without, hn.erase_eq_filter]
    apply List.filter_congr
    intro b _
    simp [bne, beq_eq_decide]

theorem Cell.run_vicinity : (Cell.vicinity lo below d above hi).run.map Prod.fst =
    below.toList.map block ++ d.block :: above.toList.map block := by
  cases below <;> cases above <;> rfl

theorem Sound.refiled_vicinity (hS : Sound h w l) (hd : ¬ l.Has d.block) :
    ((l.drop below).drop above).file (Cell.merge below d above) =
      (Cell.vicinity lo below d above hi).refiled l := by
  funext k
  have hothers : (l.drop below).drop above k =
      (l k).filter (· ∉ (Cell.vicinity lo below d above hi).run.map Prod.fst) := by
    have hn := hS.linked.nodup k
    rw [Lists.drop_eq ((Lists.drop_eq hn below).symm ▸ hn.filter _), Lists.drop_eq hn, List.filter_filter,
      Cell.run_vicinity]
    apply List.filter_congr
    intro b hb
    have hne : b ≠ d.block := by
      rintro rfl
      exact hd ⟨k, hb⟩
    simp only [List.mem_append, List.mem_cons, hne, false_or, not_or, Bool.decide_and]
    exact Bool.and_comm _ _
  rw [Vicinity.refiled, ← hothers, Cell.start_vicinity, Cell.total_vicinity]
  rfl

/-- What is true after the block of a vicinity is freed: it was allocated, and it has become one
block with its free neighbours, which were in the lists `l`. -/
structure Heap.Coalesces (h : Heap) (v : Vicinity) (l : Lists) (h' : Heap) : Prop where
  closed : v.Closed
  before : blocks h = .ok v.walk
  after : blocks h' = .ok v.fused
  listed : ∀ k, FreeList.members k h = .ok (l k)
  neighbours : ∀ b, b ∈ v.below ∨ b ∈ v.above → b.1 ∈ l (SizeClass.ofSize b.2.size)
  relisted : ∀ k, FreeList.members k h' = .ok (v.refiled l k)
  source : h'.source = h.source

theorem Sound.coalesces (hS : Sound h w l) (hd : d ∈ w) (hal : d.alloc = true) :
    ∃ v : Vicinity, v.block = d.block ∧ Ends (free (some d.addr)) h fun _ => h.Coalesces v l := by
  obtain ⟨pre, post, rfl⟩ := List.append_of_mem hd
  obtain ⟨lo, below, above, hi, rfl, rfl, hf⟩ := hS.parted.fence
  have hlisted : ∀ e, e ∈ below ∨ e ∈ above → e.block ∈ l (SizeClass.ofSize e.size) := by
    intro e he
    have hew : e ∈ lo ++ below.toList ++ d :: (above.toList ++ hi) := by
      rcases he with he | he <;> simp [Option.mem_def.mp he]
    exact (hS.mem_of_has hew (hS.full e hew (he.elim (hf.below e) (hf.above e)))).2
  refine ⟨Cell.vicinity lo below d above hi, rfl, (hS.ends_free hal hf).mono ?_⟩
  intro _ h' hr
  obtain ⟨hS', hb, -⟩ := hr
  rw [hS.refiled_vicinity (hS.unlisted hd hal)] at hS'
  refine ⟨hf.closed hal, ?_, ?_, hS.linked.run_members, ?_, hS'.linked.run_members, source_of_bare hb⟩
  · rw [hf.walk_vicinity hal, hS.run_blocks]
  · rw [hf.fused_vicinity, hS'.run_blocks]
  · intro b hb
    rcases hb with hb | hb
    · obtain ⟨e, he, rfl⟩ := Option.mem_map.mp hb
      rw [e.size_tag]
      exact hlisted e (.inl he)
    · obtain ⟨e, he, rfl⟩ := Option.mem_map.mp hb
      rw [e.size_tag]
      exact hlisted e (.inr he)

/-- In every heap of a client, freeing a live pointer makes its block one with its free neighbours
and changes nothing else in the walk or in the lists. -/
theorem Reachable.free_coalesces (hc : Reachable c) (hp : c.Owns pointer) : ∃ (v : Vicinity) (l : Lists),
    v.block = ⟨pointer⟩ ∧ Ends (free (some pointer)) c.heap fun _ => c.heap.Coalesces v l := by
  obtain ⟨w, l, hT⟩ := hc.tracked
  obtain ⟨d, hd, hal, rfl⟩ := hT.cell hp
  obtain ⟨v, hv, hfree⟩ := hT.sound.coalesces hd hal
  exact ⟨v, l, hv, hfree⟩

theorem tieRun_free_coalesces : tieRun.Owns 4176 ∧ ∃ (v : Vicinity) (l : Lists),
    v.block = ⟨4176⟩ ∧ Ends (free (some 4176)) tieRun.heap fun _ => tieRun.heap.Coalesces v l := by
  have howns : tieRun.Owns 4176 := by decide +kernel
  exact ⟨howns, Reachable.free_coalesces reachable_tieRun howns⟩

end SegregatedFit
