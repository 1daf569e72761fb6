import SegregatedFit.Proofs.Tracking

/-!
# Validation

Whatever a heap holds, `validate` accepts it if and only if the blocks chain up from
the first one to the epilogue, each list is a chain of free blocks of its class that
link back, and the lists have as many members as there are free blocks.
-/

namespace SegregatedFit

variable {h : Heap}

/-- `validate` accepts a heap if and only if it holds what it has to, and then gives its
figures; all that is asked of the heap is to end within the words. -/
theorem validate_iff (htop : h.top < wordLimit) (s : Stats) :
    validate h = .ok (.ok s) ↔
      ∃ bs l, h.Valid bs l ∧ s = { Stats.count {} bs with heapSize := h.source.size } := by
  have hrun : validate h = (do
      let stats ← inspectBlocksFrom h.first {}
      let listed := (← SizeClass.all.mapM inspectList).foldl (· + ·) 0
      require (listed = stats.freeBlocks) (.freeCountMismatch stats.freeBlocks listed)
      return { stats with heapSize := (← read).source.size } : Inspection Stats) h :=
    inspection_bind (a := h) rfl
  have hend : ∀ s' : Stats, (do return { s' with heapSize := (← read).source.size } : Inspection Stats) h =
      .ok (.ok { s' with heapSize := h.source.size }) := fun _ => inspection_bind (a := h) rfl
  rw [hrun, ok_bind_iff]
  constructor
  · intro hr
    obtain ⟨_, hwalk, hr⟩ := hr
    obtain ⟨bs, hc, hs, -, rfl⟩ := chained_of_inspectBlocksFrom htop hwalk
    obtain ⟨_, hlists, hr⟩ := ok_bind_iff.mp hr
    obtain ⟨l, hl, rfl⟩ := (inspectLists_iff htop).mp hlists
    rw [ok_guard_iff, hend] at hr
    obtain ⟨hcount, hr⟩ := hr
    cases hr
    refine ⟨bs, l, ⟨hc, hs, hl, ?_⟩, rfl⟩
    rw [← List.sum_eq_foldl] at hcount
    simpa [Stats.count, Lists.flat, List.length_flatMap] using hcount
  · intro hr
    obtain ⟨bs, l, hv, rfl⟩ := hr
    rw [← ok_bind_iff, ← hrun]
    exact hv.run_validate htop

/-- The heap of a run is accepted, but not once its lists are emptied: its free blocks are missing there. -/
theorem smallRun_valid : smallRun.heap.top < wordLimit ∧
    (∃ bs l, smallRun.heap.Valid bs l) ∧
    ¬ ∃ bs l, Heap.Valid { smallRun.heap with heads := .replicate classCount none } bs l := by
  have htop : smallRun.heap.top < wordLimit := by decide +kernel
  obtain ⟨w, l, hT⟩ := reachable_smallRun.tracked
  refine ⟨htop, ?_, ?_⟩
  · obtain ⟨bs, l, hv, -⟩ := (validate_iff htop _).mp hT.sound.run_validate
    exact ⟨bs, l, hv⟩
  · intro hr
    obtain ⟨bs, l, hv⟩ := hr
    have hrun := (validate_iff (h := { smallRun.heap with heads := .replicate classCount none })
      htop _).mpr ⟨bs, l, hv, rfl⟩
    have hrejected : validate { smallRun.heap with heads := .replicate classCount none } =
        .ok (.error (.freeCountMismatch 2 0)) := by decide +kernel
    rw [hrun] at hrejected
    cases hrejected

end SegregatedFit
