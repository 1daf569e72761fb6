import SegregatedFit.Proofs.Halting

/-!
# What an accepted heap agrees on

`validate` compares the number of listed blocks with the number of free blocks of the walk,
and looks at each listed block on its own. That settles which blocks are listed only as far
as these are blocks of the walk: a listed block that begins inside another block is a free
block like any other to the checks, and can stand for one that is in no list.
-/

namespace SegregatedFit

open Block

variable {h : Heap} {b d : Block} {t : Tag} {p : Bool} {k : SizeClass} {bs : List (Block × Tag)} {l : Lists}

/-! ## The blocks of a chain -/

namespace Chained

theorem liesIn (hc : Chained h p b bs) : ∀ d ∈ bs, d.1.LiesIn d.2 h := by
  induction bs generalizing p b with
  | nil => exact fun d hd => absurd hd List.not_mem_nil
  | cons d bs ih =>
    obtain ⟨d, t⟩ := d
    obtain ⟨rfl, hl, -, -, hc⟩ := hc
    exact List.forall_mem_cons.mpr ⟨hl, ih hc⟩

theorem footed (hc : Chained h p b bs) (hd : (d, t) ∈ bs) :
    h.memory.word (d.payload + t.size - overhead) = t.bits := by
  induction bs generalizing p b with
  | nil => cases hd
  | cons e bs ih =>
    obtain ⟨e, u⟩ := e
    obtain ⟨rfl, -, -, hfoot, hc⟩ := hc
    rcases List.mem_cons.mp hd with he | hd
    · cases he
      exact hfoot
    · exact ih hc hd

theorem cover (hc : Chained h p b bs) {x : Nat} (hlo : b.payload ≤ x) (hhi : x < h.top) :
    ∃ d ∈ bs, d.1.payload ≤ x ∧ x < d.1.payload + d.2.size := by
  induction bs generalizing p b with
  | nil =>
    obtain ⟨t, -, -, -, -, htop⟩ := hc
    omega
  | cons d bs ih =>
    obtain ⟨d, t⟩ := d
    obtain ⟨rfl, -, -, -, hc⟩ := hc
    by_cases hx : x < d.payload + t.size
    · exact ⟨(d, t), List.mem_cons_self, hlo, hx⟩
    · obtain ⟨e, he, hin⟩ := ih hc (Nat.le_of_not_lt hx)
      exact ⟨e, List.mem_cons_of_mem _ he, hin⟩

theorem tag_eq (hc : Chained h p b bs) {u : Tag} (hd : (d, t) ∈ bs) (hu : d.Bears u h) : t = u :=
  Tag.ext ((hc.liesIn _ hd).word.symm.trans hu.word)

end Chained

theorem Strung.run_chain {prev link : Option Block} {ds : List Block} (hs : Strung h k prev link ds) {n : Nat}
    (hn : ds.length ≤ n) : FreeList.chain n link h = .ok ds := by
  induction ds generalizing prev link n with
  | nil =>
    obtain rfl : link = none := hs
    cases n <;> rfl
  | cons d ds ih =>
    obtain ⟨rfl, hd, -, hs⟩ := hs
    obtain ⟨n, rfl⟩ : ∃ m, n = m + 1 := ⟨n - 1, by simp only [List.length_cons] at hn; omega⟩
    rw [FreeList.chain, query_bind hd.nextFree, query_bind (ih hs (Nat.le_of_succ_le_succ hn))]
    rfl

theorem Strung.run_members {ds : List Block} (hs : Strung h k none (h.heads.get k) ds) (htop : h.top < wordLimit) :
    FreeList.members k h = .ok ds := by
  have hhead : FreeList.head k h = .ok (h.heads.get k) := rfl
  rw [FreeList.members, query_bind hhead]
  exact hs.run_chain (Nat.le_of_lt (hs.accepts.length_lt htop))

/-! ## Lists and walk -/

def freeBlocks (bs : List (Block × Tag)) : List Block := (bs.filter fun b => !b.2.isAlloc).map Prod.fst

theorem mem_freeBlocks : b ∈ freeBlocks bs ↔ ∃ t, (b, t) ∈ bs ∧ t.isAlloc = false := by
  simp [freeBlocks]

theorem length_freeBlocks (bs : List (Block × Tag)) : (freeBlocks bs).length = bs.countP (!·.2.isAlloc) := by
  rw [freeBlocks, List.length_map, List.countP_eq_length_filter]

structure Heap.Agrees (h : Heap) (bs : List (Block × Tag)) (l : Lists) : Prop where
  walk : blocks h = .ok bs
  members : ∀ k, FreeList.members k h = .ok (l k)
  free : l.flat.Perm (freeBlocks bs)

/-- The block is not one of the walk, and it begins before these or inside one of them, behind
its header. -/
def Heap.Hides (h : Heap) (bs : List (Block × Tag)) (b : Block) : Prop :=
  (∀ t, (b, t) ∉ bs) ∧ (b.payload < h.first.payload ∨
    ∃ d ∈ bs, d.1.payload + alignment ≤ b.payload ∧ b.payload < d.1.payload + d.2.size)

/-- What is true of the walk `bs` and the lists `l` of an accepted heap. -/
structure Heap.Accepted (h : Heap) (bs : List (Block × Tag)) (l : Lists) : Prop where
  walk : blocks h = .ok bs
  members : ∀ k, FreeList.members k h = .ok (l k)
  once : l.flat.Nodup
  listable : ∀ k, ∀ b ∈ l k, b.Listable k h
  count : l.flat.length = (freeBlocks bs).length
  found : ∀ b ∈ l.flat, b ∈ freeBlocks bs ∨ h.Hides bs b
  agrees : h.Agrees bs l ↔ ∀ b ∈ l.flat, ¬ h.Hides bs b

/-- A free block that lies in the heap is a block of the walk, or it is hidden. -/
theorem Chained.found (hc : Chained h true h.first bs) (hb : b.Listable k h) :
    b ∈ freeBlocks bs ∨ h.Hides bs b := by
  obtain ⟨u, hl, hfree, -⟩ := hb
  by_cases hmem : ∃ t, (b, t) ∈ bs
  · obtain ⟨t, ht⟩ := hmem
    refine .inl (mem_freeBlocks.mpr ⟨t, ht, ?_⟩)
    rw [hc.tag_eq ht hl.toBears, hfree]
  refine .inr ⟨not_exists.mp hmem, ?_⟩
  by_cases hlow : b.payload < h.first.payload
  · exact .inl hlow
  have hs := hl.le_size
  have he := hl.end_le
  simp only [minBlock, wordSize] at hs he
  obtain ⟨⟨d, t⟩, hd, hle, hlt⟩ := hc.cover (Nat.le_of_not_lt hlow) (show b.payload < h.top by omega)
  have hne : d.payload ≠ b.payload := fun heq => hmem ⟨t, Block.ext heq ▸ hd⟩
  have hmod := hl.aligned
  have hmod' := (hc.liesIn _ hd).aligned
  refine .inr ⟨(d, t), hd, ?_, hlt⟩
  simp only [alignment] at *
  omega

namespace Heap.Valid

variable (hv : h.Valid bs l)
include hv

theorem nodup_flat : l.flat.Nodup :=
  nodup_flat_of_accepts fun k => ⟨none, (hv.strung k).accepts⟩

theorem listable (k : SizeClass) : ∀ b ∈ l k, b.Listable k h := (hv.strung k).accepts.listable

theorem found : ∀ b ∈ l.flat, b ∈ freeBlocks bs ∨ h.Hides bs b := by
  intro b hb
  obtain ⟨k, hk⟩ := Lists.mem_flat.mp hb
  exact hv.chained.found (hv.listable k b hk)

theorem count_eq : l.flat.length = (freeBlocks bs).length := by
  rw [hv.count, length_freeBlocks]

theorem perm_freeBlocks (hn : ∀ b ∈ l.flat, ¬ h.Hides bs b) : l.flat.Perm (freeBlocks bs) := by
  -- they are all free blocks, distinct, and as many as there are
  have hsub : l.flat ⊆ freeBlocks bs := fun b hb => (hv.found b hb).resolve_right (hn b hb)
  exact (List.subperm_of_subset hv.nodup_flat hsub).perm_of_length_le (Nat.le_of_eq hv.count_eq.symm)

theorem accepted (htop : h.top < wordLimit) : h.Accepted bs l where
  walk := hv.chained.run_blocks htop
  members k := (hv.strung k).run_members htop
  once := hv.nodup_flat
  listable := hv.listable
  count := hv.count_eq
  found := hv.found
  agrees := by
    constructor
    · intro ha b hb hh
      obtain ⟨t, ht, -⟩ := mem_freeBlocks.mp (ha.free.mem_iff.mp hb)
      exact hh.1 t ht
    · intro hn
      exact ⟨hv.chained.run_blocks htop, fun k => (hv.strung k).run_members htop, hv.perm_freeBlocks hn⟩

end Heap.Valid

theorem valid_of_validate (htop : h.top < wordLimit) {s : Stats} (hr : validate h = .ok (.ok s)) :
    ∃ bs l, h.Valid bs l := by
  obtain ⟨_, hread, hr⟩ := ok_bind_iff.mp hr
  cases hread
  obtain ⟨_, hwalk, hr⟩ := ok_bind_iff.mp hr
  obtain ⟨bs, hc, hs, -, rfl⟩ := chained_of_inspectBlocksFrom htop hwalk
  obtain ⟨_, hlists, hr⟩ := ok_bind_iff.mp hr
  obtain ⟨l, hl, rfl⟩ := (inspectLists_iff htop).mp hlists
  obtain ⟨hcount, -⟩ := ok_guard_iff.mp hr
  rw [← List.sum_eq_foldl] at hcount
  exact ⟨bs, l, hc, hs, hl, by simpa [Stats.count, Lists.flat, List.length_flatMap] using hcount⟩

/-- Of a heap that is accepted, the lists and the walk agree up to listed blocks that hide. -/
theorem validate_accepted (htop : h.top < wordLimit) {s : Stats} (hr : validate h = .ok (.ok s)) :
    ∃ bs l, h.Accepted bs l := by
  obtain ⟨bs, l, hv⟩ := valid_of_validate htop hr
  exact ⟨bs, l, hv.accepted htop⟩

/-- In the heap of a run, a word in the payload of the live block at 4208 is made the header of a
free block at 4224, and that block is listed in place of the one at 4288. -/
def disguisedHeap : Heap where
  __ := smallRun.heap
  memory := smallRun.heap.memory.setWord 4216 32
  heads := (smallRun.heap.heads.set 0 (some ⟨4224⟩)).set 2 none

theorem run_disguisedHeap : disguisedHeap.top < wordLimit ∧
    validate disguisedHeap = .ok (.ok ⟨288, 2, 112, 2, 144⟩) ∧
    (blocks disguisedHeap).map freeBlocks = .ok [⟨4128⟩, ⟨4288⟩] ∧
    FreeList.members 0 disguisedHeap = .ok [⟨4224⟩] := by decide +kernel

theorem disguisedHeap_accepted : disguisedHeap.top < wordLimit ∧
    (∃ s, validate disguisedHeap = .ok (.ok s)) ∧ ∃ bs l, disguisedHeap.Accepted bs l := by
  obtain ⟨htop, hr, -⟩ := run_disguisedHeap
  exact ⟨htop, ⟨_, hr⟩, validate_accepted htop hr⟩

/-- The heap is accepted though its lists and its walk do not agree. -/
theorem disguisedHeap_disagrees : Reachable smallRun ∧
    (∃ m hs, disguisedHeap = { smallRun.heap with memory := m, heads := hs }) ∧
    (∃ s, validate disguisedHeap = .ok (.ok s)) ∧ ¬ ∃ bs l, disguisedHeap.Agrees bs l := by
  obtain ⟨-, hr, hfreed, hlisted⟩ := run_disguisedHeap
  refine ⟨reachable_smallRun, ⟨_, _, rfl⟩, ⟨_, hr⟩, ?_⟩
  intro ha
  obtain ⟨bs, l, hwalk, hmembers, hfree⟩ := ha
  rw [hwalk] at hfreed
  rw [hmembers] at hlisted
  have hb : ⟨4224⟩ ∈ l.flat :=
    Lists.mem_flat.mpr ⟨0, Except.ok.inj hlisted ▸ List.mem_singleton_self _⟩
  have hmem := hfree.mem_iff.mp hb
  rw [Except.ok.inj hfreed] at hmem
  exact absurd hmem (by decide)

end SegregatedFit
