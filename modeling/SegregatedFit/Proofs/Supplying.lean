import SegregatedFit.Proofs.Fitting
import SegregatedFit.Proofs.Intact

/-!
# Supplying bytes

A request fails only if no block could hold it, or if no free block does and the source
has no room left. The heap grows only where no free block is large enough, and then by
what is asked for or by a chunk. As free blocks never lie side by side, no space is
overlooked that is spread over several of them.
-/

namespace SegregatedFit

variable {h h' : Heap} {w : List Cell} {l : Lists} {c : Client} {n a : Nat} {bs xs run ys : List (Block × Tag)}

structure Heap.Answers (h : Heap) (bs : List (Block × Tag)) (n : Nat) (r : Option Nat) (h' : Heap) : Prop where
  refused : r = none ↔ n = 0 ∨ wordLimit ≤ footprint n ∨ (NoneFits bs (footprint n) ∧
    h.source.capacity < h.source.size + max (footprint n) h.chunkSize)
  grows : h'.source.size ≠ h.source.size ↔ 0 < n ∧ footprint n < wordLimit ∧ NoneFits bs (footprint n) ∧
    h.source.size + max (footprint n) h.chunkSize ≤ h.source.capacity
  growth : h'.source.size ≠ h.source.size → h'.source.size = h.source.size + max (footprint n) h.chunkSize

theorem Heap.Answers.served {r : Option Nat} (hr : h.Answers bs n r h') (hpos : 0 < n) (hfits : footprint n < wordLimit)
    (hroomy : ¬ NoneFits bs (footprint n)) : r ≠ none ∧ h'.source.size = h.source.size := by
  constructor
  · intro hnone
    rcases hr.refused.mp hnone with hz | hbig | ⟨hn, -⟩
    · omega
    · omega
    · exact hroomy hn
  · exact Decidable.byContradiction fun hne => hroomy (hr.grows.mp hne).2.2.1

theorem Heap.Refuses.answers (hr : h.Refuses w n) (hi : h.Idle h') : h.Answers (taggedCells true w) n none h' := by
  have hsize : h'.source.size = h.source.size := by rw [source_of_bare hi.bare]
  refine ⟨⟨fun _ => ?_, fun _ => rfl⟩, ⟨fun hg => absurd hsize hg, fun hg => ?_⟩, fun hg => absurd hsize hg⟩
  · rwa [noneFits_tagged]
  · obtain ⟨hpos, hfits, -, hroom⟩ := hg
    rcases hr with hz | hbig | ⟨-, hfull⟩
    · exact absurd hz (Nat.ne_of_gt hpos)
    · exact absurd hfits (Nat.not_lt_of_le hbig)
    · exact absurd hroom (Nat.not_le_of_lt hfull)

theorem footprint_pos (n : Nat) : 0 < footprint n :=
  Nat.lt_of_lt_of_le (Nat.lt_of_lt_of_le (by decide) (Nat.le_add_left overhead n)) (footprint_isLeast n).1.2

theorem Heap.Supplies.answers (hs : h.Supplies w n h') (p : Nat) :
    h.Answers (taggedCells true w) n (some p) h' := by
  have hpos := hs.pos
  have hfits := hs.fits
  have hgrowth : 0 < max (footprint n) h.chunkSize := Nat.lt_of_lt_of_le (footprint_pos n) (Nat.le_max_left _ _)
  rcases hs.bytes with ⟨hroomy, hg⟩ | ⟨htight, hroom, hg⟩
  · have hsize : h'.source.size = h.source.size := hg.source.size
    refine ⟨⟨fun hr => ?_, fun hr => ?_⟩, ⟨fun hne => absurd hsize hne, fun hr => ?_⟩, fun hne => absurd hsize hne⟩
    · cases hr
    · rw [noneFits_tagged] at hr
      rcases hr with hz | hbig | ⟨htight, -⟩
      · omega
      · omega
      · exact absurd htight hroomy
    · exact absurd (noneFits_tagged.mp hr.2.2.1) hroomy
  · have hsize := hg.source.size
    refine ⟨⟨fun hr => ?_, fun hr => ?_⟩, ⟨fun _ => ?_, fun _ => ?_⟩, fun _ => hsize⟩
    · cases hr
    · rcases hr with hz | hbig | ⟨-, hfull⟩
      · omega
      · omega
      · exact absurd hroom (Nat.not_le_of_lt hfull)
    · exact ⟨hpos, hfits, noneFits_tagged.mpr htight, hroom⟩
    · omega

namespace Sound

theorem answers_malloc (hS : Sound h w l) (n : Nat) : Ends (malloc n) h (h.Answers (taggedCells true w) n) := by
  refine (hS.ends_malloc n).mono ?_
  intro r h' hr
  cases r with
  | none => exact hr.1.answers hr.2
  | some p =>
    obtain ⟨-, -, -, -, hsupply, -⟩ := hr
    exact hsupply.answers p

theorem answers_calloc (hS : Sound h w l) (count n : Nat) :
    Ends (calloc count n) h (h.Answers (taggedCells true w) (count * n)) := by
  refine (hS.ends_calloc count n).mono ?_
  intro r h' hr
  cases r with
  | none => exact hr.1.answers hr.2
  | some p =>
    obtain ⟨-, -, -, -, hsupply, -⟩ := hr
    exact hsupply.answers p

theorem one_free (hS : Sound h w l) (hrun : taggedCells true w = xs ++ run ++ ys)
    (hfree : ∀ b ∈ run, b.2.isAlloc = false) : run = [] ∨ ∃ b, run = [b] := by
  have hparted := Parted.tagged (p := true) hS.parted
  rw [hrun, List.append_assoc] at hparted
  cases run with
  | nil => exact .inl rfl
  | cons b run =>
    cases run with
    | nil => exact .inr ⟨b, rfl⟩
    | cons d run =>
      have hbd := (List.isChain_cons_cons.mp (List.IsChain.right_of_append hparted)).1
      have hb := hfree b (by simp)
      have hd := hfree d (by simp)
      rcases hbd with hal | hal
      · simp [hb] at hal
      · simp [hd] at hal

/-- A stretch of free bytes is in one block, and no block is larger than words can tell. -/
theorem fits_of_run (hS : Sound h w l) (hrun : taggedCells true w = xs ++ run ++ ys)
    (hfree : ∀ b ∈ run, b.2.isAlloc = false) (ha : 0 < a) (hsum : a ≤ (run.map fun b => b.2.size).sum) :
    a < wordLimit ∧ ¬ NoneFits (taggedCells true w) a := by
  rcases hS.one_free hrun hfree with rfl | ⟨b, rfl⟩
  · simp at hsum
    omega
  · simp only [List.map_cons, List.map_nil, List.sum_cons, List.sum_nil, Nat.add_zero] at hsum
    have hmem : b ∈ taggedCells true w := by rw [hrun]; simp
    refine ⟨?_, fun hn => Nat.not_le_of_lt (hn b hmem (hfree b (by simp))) hsum⟩
    obtain ⟨c, hc, -, q, ht⟩ := exists_cell_of_tagged hmem
    rw [ht, c.size_tag] at hsum
    have hbound := hS.abut.bounds c hc
    have htop := hS.founded.top_lt
    omega

end Sound

structure Client.Supplied (c : Client) (bs : List (Block × Tag)) : Prop where
  walk : blocks c.heap = .ok bs
  malloc : ∀ n, Ends (malloc n) c.heap (c.heap.Answers bs n)
  calloc : ∀ count n, Ends (calloc count n) c.heap (c.heap.Answers bs (count * n))
  calloc_huge : ∀ count n, wordLimit ≤ count * n → SegregatedFit.calloc count n c.heap = .ok none c.heap
  free : ∀ p, (∀ q ∈ p, c.Owns q) → Ends (SegregatedFit.free p) c.heap fun _ h' => h'.source.size = c.heap.source.size
  run : ∀ n xs run ys, bs = xs ++ run ++ ys → (∀ b ∈ run, b.2.isAlloc = false) → 0 < n →
    footprint n ≤ (run.map fun b => b.2.size).sum →
    Ends (SegregatedFit.malloc n) c.heap fun r h' => r ≠ none ∧ h'.source.size = c.heap.source.size

/-- Exactly when a client is refused a request, and exactly when its heap grows. -/
theorem Reachable.supplied (hc : Reachable c) : ∃ bs, c.Supplied bs := by
  obtain ⟨w, l, hT⟩ := hc.tracked
  have hS := hT.sound
  refine ⟨taggedCells true w, hS.run_blocks, hS.answers_malloc, hS.answers_calloc, ?_, ?_, ?_⟩
  · intro count n hbig
    unfold calloc
    exact congrFun (if_pos hbig) c.heap
  · intro p hlegal
    cases p with
    | none => exact Ends.pure rfl
    | some p =>
      obtain ⟨d, hd, hal, rfl⟩ := hT.cell (hlegal p rfl)
      refine (hS.ends_release hd hal).mono ?_
      intro _ h' hr
      obtain ⟨-, -, -, hb, -⟩ := hr
      rw [source_of_bare hb]
  · intro n xs run ys hrun hfree hpos hsum
    obtain ⟨hfits, hroomy⟩ := hS.fits_of_run hrun hfree (footprint_pos n) hsum
    exact (hS.answers_malloc n).mono fun _ _ hr => hr.served hpos hfits hroomy

/-- 224 bytes are more than any block has and more than the buffer can still give; for 100
bytes the heap grows by a chunk. -/
theorem smallRun_supplied : Ends (malloc 224) smallRun.heap (fun r _ => r = none) ∧
    Ends (malloc 100) smallRun.heap fun _ h' => h'.source.size = smallRun.heap.source.size + 128 := by
  obtain ⟨bs, hs⟩ := Reachable.supplied reachable_smallRun
  have hnone : (match blocks smallRun.heap with
    | .ok bs => decide (NoneFits bs 128)
    | .error _ => false) = true := by decide +kernel
  rw [hs.walk] at hnone
  have htight : NoneFits bs 128 := of_decide_eq_true hnone
  have hsource : smallRun.heap.source.size = 288 ∧ smallRun.heap.source.capacity = 512 ∧
      smallRun.heap.chunkSize = 128 := by decide +kernel
  obtain ⟨hsize, hcapacity, hchunk⟩ := hsource
  constructor
  · refine (hs.malloc 224).mono fun r _ hr => hr.refused.mpr (.inr (.inr ⟨?_, ?_⟩))
    · exact fun d hd hf => Nat.lt_trans (htight d hd hf) (by decide)
    · rw [hsize, hcapacity, hchunk]
      decide
  · refine (hs.malloc 100).mono fun _ h' hr => ?_
    have hgrows := hr.grows.mpr ⟨by decide, by decide, htight, by rw [hsize, hcapacity, hchunk]; decide⟩
    rw [hr.growth hgrows, hchunk]
    rfl

end SegregatedFit
