import SegregatedFit.Proofs.Intact
import SegregatedFit.Proofs.Releasing

/-!
# What requests do to the blocks

A served request cuts its block from one free block, which it has found or made by growing
the heap. A block is resized in place whenever it has the bytes, by itself or with the free
block after it, and else it moves to where a new request would be served. No other block
changes.
-/

namespace SegregatedFit

variable {c : Client} {h h' : Heap} {w w' pre post : List Cell} {l : Lists} {d e : Cell}
  {above o : Option Cell} {n a g p : Nat}

/-! ## New blocks -/

/-- What is true after `n` bytes are served at `p`. The free block from which `a` bytes are
taken is the only one that changes, and the epilogue is the last word of the heap. -/
structure Heap.Serves (h : Heap) (w : List Cell) (n p : Nat) (h' : Heap) (a : Nat) (w' : List Cell) (g : Nat) :
    Prop where
  fits : blockSize n = some a
  placed : h.Places w a p w' g
  grown : h.source.Grown g h'.source
  walk : blocks h' = .ok (taggedCells true w')
  tiled : Tiled h' true h'.first (taggedCells true w')
  usable : ∃ u, usableSize p h' = .ok u ∧ n ≤ u ∧ u ≤ n + 31

theorem Heap.Places.usable (hp : h.Places w a p w' g) (ha : blockSize n = some a) (hS : Sound h' w' l) :
    ∃ u, usableSize p h' = .ok u ∧ n ≤ u ∧ u ≤ n + 31 := by
  obtain ⟨c, rfl, -, hle, hlt, hperm⟩ := hp.exists_cell
  obtain ⟨-, hmod, hmin, hmax⟩ := blockSize_eq_some.mp ha
  have hcw := (mem_allocs.mp (hperm.mem_iff.mpr List.mem_cons_self)).1
  have hsize := c.size_mod
  exact ⟨c.size - 16, Tracked.run_usableSize hS.toLaid hcw, by omega, by omega⟩

/-- In every heap of a client, a request that is served cuts its block from the free block
that is found or made, and leaves all other blocks as they are. -/
theorem Reachable.malloc_serves (hc : Reachable c) (n : Nat) : ∃ w, blocks c.heap = .ok (taggedCells true w) ∧
    Ends (malloc n) c.heap fun r h' => ∀ p ∈ r, ∃ a w' g, c.heap.Serves w n p h' a w' g := by
  obtain ⟨w, l, hT⟩ := hc.tracked
  refine ⟨w, hT.sound.run_blocks, (hT.sound.malloc_placed n).mono ?_⟩
  intro r h' hr p hp
  obtain rfl := Option.mem_def.mp hp
  obtain ⟨a, w', g, l', ha, hplaced, hS, hg, -, -⟩ := hr
  exact ⟨a, w', g, ha, hplaced, hg.source, hS.run_blocks, (Intact.of_sound hS).tiled, hplaced.usable ha hS⟩

theorem smallRun_malloc_serves : ∃ w h' a w' g, blocks smallRun.heap = .ok (taggedCells true w) ∧
    malloc 100 smallRun.heap = .ok (some 4288) h' ∧ smallRun.heap.Serves w 100 4288 h' a w' g := by
  obtain ⟨w, hw, r, h', hrun, hserved⟩ := Reachable.malloc_serves reachable_smallRun 100
  have hr : smallRun.result (.malloc 100) = some 4288 := by decide +kernel
  rw [Client.result, show (Call.malloc 100).run smallRun.heap = .ok r h' from hrun] at hr
  obtain ⟨a, w', g, hs⟩ := hserved 4288 hr
  exact ⟨w, h', a, w', g, hw, hrun.trans (congrArg (EStateM.Result.ok · h') hr), hs⟩

/-! ## Resized blocks -/

structure Around (w : List Cell) (p : Nat) (pre : List Cell) (d : Cell) (above : Option Cell) (post : List Cell) :
    Prop where
  cells : w = pre ++ d :: (above.toList ++ post)
  addr : d.addr = p
  alloc : d.alloc = true
  above : ∀ f ∈ above, f.alloc = false
  post : ∀ e ∈ post.head?, e.alloc = true

/-- The `total` bytes at `p` become a block for `a` bytes and, if enough is left over, a free
block, between `pre` and `post`; the heap does not grow. `rest` tells what that free block is
in the end. -/
def Heap.Recuts (h : Heap) (p total a : Nat) (pre : List Cell) (rest : Option Cell → Option Cell) (post : List Cell)
    (h' : Heap) : Prop :=
  h'.source = h.source ∧ ∃ e o, Cut p total a e o ∧
    blocks h' = .ok (taggedCells true (pre ++ e :: ((rest o).toList ++ post)))

/-- What comes of `realloc` when `malloc` gives `r` and leaves `h₁`: nothing, or the block at `p`
is released and merged with its free neighbours. -/
def Heap.Moves (h h₁ : Heap) (p : Nat) (h' : Heap) : Option Nat → Prop
  | none => h.Idle h'
  | some q => q ≠ p ∧ h'.source = h₁.source ∧ ∃ w₁, blocks h₁ = .ok (taggedCells true w₁) ∧
      blocks h' = .ok (taggedCells true (fuse (w₁.map (Cell.release [p]))))

structure Heap.Resizes (h : Heap) (p n a : Nat) (pre : List Cell) (d : Cell) (above : Option Cell)
    (post : List Cell) : Prop where
  shrinks : a ≤ d.size → Ends (realloc (some p) n) h fun r h' => r = some p ∧
    h.Recuts p d.size a pre (Cell.absorb · above) post h'
  expands : ∀ f ∈ above, d.size < a → a ≤ d.size + f.size → Ends (realloc (some p) n) h fun r h' => r = some p ∧
    h.Recuts p (d.size + f.size) a pre id post h'
  moves : d.size + Cell.sizeOf above < a → ∃ r h₁, malloc n h = .ok r h₁ ∧
    Ends (realloc (some p) n) h fun r' h' => r' = r ∧ h.Moves h₁ p h' r

theorem Parted.exists_around (hp : Parted w) (hd : d ∈ w) (hal : d.alloc = true) :
    ∃ pre above post, Around w d.addr pre d above post := by
  obtain ⟨pre, post, rfl⟩ := List.append_of_mem hd
  obtain ⟨above, post, rfl, habove, hpost⟩ := hp.right.tail.above
  exact ⟨pre, above, post, rfl, rfl, hal, habove, hpost⟩

namespace Sound

theorem realloc_recuts {total : Nat} {rest : Option Cell → Option Cell} {Q : Heap → Prop} (hn : n ≠ 0)
    (ha : blockSize n = some a) (hcut : Cut d.addr total a e o)
    (hr : Ends (resize d.block a) h fun r h₁ => r = true ∧ Sound h₁ (pre ++ e :: ((rest o).toList ++ post)) l ∧
      h₁.bare = h.bare ∧ Q h₁) :
    Ends (realloc (some d.addr) n) h fun r h' => r = some d.addr ∧ h.Recuts d.addr total a pre rest post h' := by
  refine (realloc_resized hn ha hr fun h' hq => ⟨_, _, hq.1⟩).mono ?_
  intro _ h' hr
  obtain ⟨rfl, h₁, ⟨hS₁, hb, -⟩, hi⟩ := hr
  exact ⟨rfl, source_of_bare (hi.bare.trans hb), e, o, hcut, (hS₁.idle hi).run_blocks⟩

variable (hS : Sound h w l) (hd : Around w p pre d above post) (hn : n ≠ 0) (ha : blockSize n = some a)
include hS hd hn ha

theorem realloc_shrinks (hle : a ≤ d.size) : Ends (realloc (some p) n) h fun r h' => r = some p ∧
    h.Recuts p d.size a pre (Cell.absorb · above) post h' := by
  obtain ⟨rfl, rfl, hal, habove, hpost⟩ := hd
  obtain ⟨-, hmod, hmin, -⟩ := blockSize_eq_some.mp ha
  obtain ⟨e, o, hcut⟩ := exists_cut d.addr_mod d.size_mod hmod (by omega) hle
  exact realloc_recuts hn ha hcut (hS.resizeDown hal habove hpost hcut)

theorem realloc_expands {f : Cell} (hf : f ∈ above) (hlt : d.size < a) (hle : a ≤ d.size + f.size) :
    Ends (realloc (some p) n) h fun r h' => r = some p ∧ h.Recuts p (d.size + f.size) a pre id post h' := by
  obtain rfl := Option.mem_def.mp hf
  obtain ⟨rfl, rfl, hal, habove, hpost⟩ := hd
  obtain ⟨-, hmod, hmin, -⟩ := blockSize_eq_some.mp ha
  have hsum : (d.size + f.size) % 16 = 0 := by have := d.size_mod; have := f.size_mod; omega
  obtain ⟨e, o, hcut⟩ := exists_cut d.addr_mod hsum hmod (by omega) hle
  exact realloc_recuts hn ha hcut (hS.resizeUp hal (habove f rfl) hlt hcut)

theorem realloc_moves (hlt : d.size + Cell.sizeOf above < a) : ∃ r h₁, malloc n h = .ok r h₁ ∧
    Ends (realloc (some p) n) h fun r' h' => r' = r ∧ h.Moves h₁ p h' r := by
  obtain ⟨rfl, rfl, hal, habove, hpost⟩ := hd
  have hdw : d ∈ allocs (pre ++ d :: (above.toList ++ post)) := mem_allocs.mpr ⟨by simp, hal⟩
  obtain ⟨r, h₁, hrun, hr⟩ := hS.ends_malloc n
  refine ⟨r, h₁, hrun, realloc_stuck hn ha (hS.resizeStuck habove hpost hlt) ⟨r, h₁, hrun, ?_⟩⟩
  cases r with
  | none => exact ⟨rfl, hr.2⟩
  | some q =>
    obtain ⟨w₁, l₁, e, hS₁, -, rfl, hea, hsize, hperm, -⟩ := hr
    obtain ⟨hew, hdw₁⟩ : e ∈ w₁ ∧ d ∈ w₁ :=
      ⟨(mem_allocs.mp (hperm.mem_iff.mpr List.mem_cons_self)).1,
        (mem_allocs.mp (hperm.mem_iff.mpr (List.mem_cons_of_mem _ hdw))).1⟩
    -- the new cell was not allocated before
    have hne : e.addr ≠ d.addr := fun he => by
      have hnd := hperm.nodup_iff.mp (nodup_allocs hS₁.toLaid)
      exact (List.nodup_cons.mp hnd).1 (hS₁.abut.eq_of_addr hew hdw₁ he ▸ hdw)
    refine (hS₁.move (Q := fun h' => h'.bare = h₁.bare ∧
      ∃ l', Sound h' (fuse (w₁.map (Cell.release [d.addr]))) l') hew hea hdw₁ hsize fun h₂ hS₂ hb₂ _ _ => ?_).mono ?_
    · refine (hS₂.ends_free_fused hdw₁ hal).mono ?_
      exact fun _ h₃ hr => ⟨hr.2.1.trans hb₂, hr.1⟩
    · intro r' h' hr
      obtain ⟨rfl, h₃, ⟨hb₃, l', hS₃⟩, hi⟩ := hr
      exact ⟨rfl, hne, source_of_bare (hi.bare.trans hb₃), w₁, hS₁.run_blocks, (hS₃.idle hi).run_blocks⟩

theorem realloc_resizes : h.Resizes p n a pre d above post :=
  ⟨hS.realloc_shrinks hd hn ha, fun _ => hS.realloc_expands hd hn ha, hS.realloc_moves hd hn ha⟩

end Sound

/-- In every heap of a client, a live block is resized in place if it has the bytes or gets them
from the free block after it, and then no other block changes; otherwise it moves as a new
request would be served, and stays as it is if that would be refused. -/
theorem Reachable.realloc_stays_or_moves (hc : Reachable c) (hp : c.Owns p) (hn : 0 < n)
    (ha : blockSize n = some a) : ∃ w pre d above post, blocks c.heap = .ok (taggedCells true w) ∧
      Around w p pre d above post ∧ c.heap.Resizes p n a pre d above post := by
  obtain ⟨w, l, hT⟩ := hc.tracked
  obtain ⟨d, hd, hal, rfl⟩ := hT.cell hp
  obtain ⟨pre, above, post, haround⟩ := hT.sound.parted.exists_around hd hal
  exact ⟨w, pre, d, above, post, hT.sound.run_blocks, haround,
    hT.sound.realloc_resizes haround (Nat.ne_of_gt hn) ha⟩

theorem smallRun_realloc_stays : ∃ w pre d above post, blocks smallRun.heap = .ok (taggedCells true w) ∧
    Around w 4208 pre d above post ∧ Ends (realloc (some 4208) 16) smallRun.heap fun r h' =>
      r = some 4208 ∧ smallRun.heap.Recuts 4208 d.size 32 pre (Cell.absorb · above) post h' := by
  have howns : smallRun.Owns 4208 := by decide +kernel
  obtain ⟨w, pre, d, above, post, hw, hd, hresized⟩ :=
    Reachable.realloc_stays_or_moves reachable_smallRun howns (by decide : 0 < 16) (by decide : blockSize 16 = some 32)
  exact ⟨w, pre, d, above, post, hw, hd, hresized.shrinks d.le_size⟩

end SegregatedFit
