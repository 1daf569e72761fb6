import SegregatedFit.Proofs.Fitting
import SegregatedFit.Proofs.Fusing
import SegregatedFit.Proofs.Supplying

/-!
# Releasing several allocations

In which order live pointers are freed does not matter. The heap that is left has the
blocks of the old one, with those that were freed marked free and every run of free ones
merged; what else can be seen of it follows, but for the order in its lists. Once all
pointers are freed, the heap is one free block.
-/

namespace SegregatedFit

variable {h h' : Heap} {w xs : List Cell} {l : Lists} {c d : Cell} {ps qs : List Nat}

def releaseAll (ps : List Nat) : Action Unit := ps.forM fun p => free (some p)

theorem Cell.release_perm (hq : qs.Perm ps) : Cell.release qs = Cell.release ps := by
  funext c
  ext
  · rfl
  · rfl
  · simp [release, hq.mem_iff]

theorem map_release_others (hx : ∀ d ∈ xs, d.addr ∉ ps) : xs.map (Cell.release ps) = xs := by
  induction xs with
  | nil => rfl
  | cons d xs ih =>
    obtain ⟨hd, hx⟩ := List.forall_mem_cons.mp hx
    rw [List.map_cons, Cell.release_other hd, ih hx]

namespace Sound

/-! ## One after the other -/

theorem ends_free_fused (hS : Sound h w l) (hc : c ∈ w) (hal : c.alloc = true) :
    Ends (free (some c.addr)) h fun _ h' => (∃ l', Sound h' (fuse (w.map (Cell.release [c.addr]))) l') ∧
      h'.bare = h.bare ∧ Keeps (fuse (w.map (Cell.release [c.addr]))) h h' := by
  have hnd := hS.abut.nodup
  obtain ⟨pre, post, rfl⟩ := List.append_of_mem hc
  rw [List.map_append, List.map_cons] at hnd
  obtain ⟨-, hpost, hpre⟩ := List.nodup_append.mp hnd
  have hpre' : ∀ d ∈ pre, d.addr ∉ [c.addr] := fun d hd he =>
    hpre _ (List.mem_map_of_mem hd) _ List.mem_cons_self (List.mem_singleton.mp he)
  have hpost' : ∀ d ∈ post, d.addr ∉ [c.addr] := fun d hd he =>
    (List.nodup_cons.mp hpost).1 (List.mem_singleton.mp he ▸ List.mem_map_of_mem hd)
  rw [List.map_append, List.map_cons, map_release_others hpre', map_release_others hpost',
    Cell.release_freed List.mem_cons_self]
  obtain ⟨lo, below, above, hi, rfl, rfl, hf⟩ := hS.parted.fence
  rw [fuse_around rfl hf hS.parted.left.left hS.parted.right.tail.right, Cell.merge_freed]
  refine (hS.ends_free hal hf).mono ?_
  intro _ h' hr
  obtain ⟨hS', hb, hk⟩ := hr
  exact ⟨⟨_, hS'⟩, hb, hk.insert_free rfl⟩

theorem ends_releaseAll (hS : Sound h w l) (hps : ps.Nodup) (hal : ∀ p ∈ ps, ∃ c ∈ allocs w, c.addr = p) :
    Ends (releaseAll ps) h fun _ h' => (∃ l', Sound h' (fuse (w.map (Cell.release ps))) l') ∧
      h'.bare = h.bare ∧ Keeps (fuse (w.map (Cell.release ps))) h h' := by
  induction ps generalizing h w l with
  | nil =>
    rw [map_release_others (by simp), fuse_parted hS.parted]
    exact Ends.pure ⟨⟨l, hS⟩, rfl, fun _ _ => rfl⟩
  | cons p ps ih =>
    obtain ⟨hp, hnd⟩ := List.nodup_cons.mp hps
    obtain ⟨⟨c, hc, rfl⟩, hals⟩ := List.forall_mem_cons.mp hal
    obtain ⟨hcw, hca⟩ := mem_allocs.mp hc
    refine Ends.bind (hS.ends_free_fused hcw hca) ?_
    intro _ h₁ hr
    obtain ⟨⟨l₁, hS₁⟩, hb₁, hk₁⟩ := hr
    have hrest : ∀ q ∈ ps, ∃ d ∈ allocs (fuse (w.map (Cell.release [c.addr]))), d.addr = q := by
      intro q hq
      obtain ⟨d, hd, rfl⟩ := hals q hq
      have hne : d.addr ∉ [c.addr] := fun he => hp (List.mem_singleton.mp he ▸ hq)
      refine ⟨d, ?_, rfl⟩
      rw [allocs_fuse, allocs_map_release]
      exact List.mem_filter.mpr ⟨hd, decide_eq_true hne⟩
    refine (ih hS₁ hnd hrest).mono ?_
    intro _ h₂ hr
    have hcomp : fuse ((fuse (w.map (Cell.release [c.addr]))).map (Cell.release ps)) =
        fuse (w.map (Cell.release (c.addr :: ps))) := by
      rw [fuse_map_release, List.map_map]
      congr 2
      funext d
      exact Cell.release_cons c.addr ps d
    rw [hcomp] at hr
    obtain ⟨hS₂, hb₂, hk₂⟩ := hr
    refine ⟨hS₂, hb₂.trans hb₁, (hk₁.mono fun d hd hda => ?_).trans hk₂⟩
    -- what is still allocated in the end was allocated all the time
    have hd := mem_allocs.mpr ⟨hd, hda⟩
    rw [← hcomp, allocs_fuse, allocs_map_release] at hd
    exact (mem_allocs.mp (List.mem_of_mem_filter hd)).1

/-! ## What is left -/

theorem perm_list (hS : Sound h w l) (k : SizeClass) :
    (l k).Perm ((w.filter fun c => !c.alloc && SizeClass.ofSize c.size == k).map Cell.block) := by
  have hnd : ((w.filter fun c => !c.alloc && SizeClass.ofSize c.size == k).map Cell.block).Nodup :=
    hS.abut.nodup_blocks.sublist (List.filter_sublist.map _)
  refine (List.perm_ext_iff_of_nodup (hS.linked.nodup k) hnd).mpr fun b => ?_
  rw [List.mem_map]
  constructor
  · intro hb
    obtain ⟨c, hc, hcb, hf, hk⟩ := hS.filed k b hb
    exact ⟨c, List.mem_filter.mpr ⟨hc, by simp [hf, hk]⟩, hcb⟩
  · intro hr
    obtain ⟨c, hc, rfl⟩ := hr
    obtain ⟨hcw, hc⟩ := List.mem_filter.mp hc
    simp only [Bool.and_eq_true, Bool.not_eq_true', beq_iff_eq] at hc
    exact hc.2 ▸ (hS.mem_of_has hcw (hS.full c hcw hc.1)).2

end Sound

structure Heap.Whole (h : Heap) : Prop where
  walk : blocks h = .ok [(h.first, .pack (h.source.size - initialSize) false true)]
  members : ∀ k, FreeList.members k h =
    .ok (if k = SizeClass.ofSize (h.source.size - initialSize) then [h.first] else [])
  malloc : ∀ n a, 0 < n → blockSize n = some a → a ≤ h.source.size - initialSize →
    Ends (malloc n) h fun r h' => r ≠ none ∧ h'.source.size = h.source.size

theorem Sound.whole (hS : Sound h [d] l) (hf : d.alloc = false) : h.Whole := by
  have habut := hS.abut
  have haddr : d.addr = h.source.lo + 32 := habut.1
  have hend : h.source.lo + 32 + d.size = h.source.lo + h.source.size := habut.2
  have hsize : h.source.size - initialSize = d.size := by
    simp only [initialSize, wordSize]
    omega
  have hfirst : h.first = d.block := by
    rw [hS.founded.first, Cell.block, haddr]
  have hwalk := hS.run_blocks
  rw [taggedCells, taggedCells, Cell.tag, hf] at hwalk
  refine ⟨?_, fun k => ?_, fun n a hn ha hle => ?_⟩
  · rw [hwalk, hfirst, hsize]
  · have hperm := hS.perm_list k
    rw [hS.linked.run_members, hfirst, hsize]
    by_cases hk : k = SizeClass.ofSize d.size
    · rw [if_pos hk]
      rw [List.filter_cons_of_pos (by simp [hf, hk])] at hperm
      rw [List.perm_singleton.mp hperm]
    · rw [if_neg hk]
      rw [List.filter_cons_of_neg (by simp [hf, Ne.symm hk])] at hperm
      rw [List.perm_nil.mp hperm]
  · obtain ⟨rfl, hfits⟩ := blockSize_eq_footprint.mp ha
    refine (hS.answers_malloc n).mono fun _ _ hr => hr.served hn hfits ?_
    rw [noneFits_tagged]
    intro ht
    exact Nat.not_le_of_lt (ht d List.mem_cons_self hf) (hsize ▸ hle)

structure Client.Released (c : Client) (ps : List Nat) (w : List Cell) (h' : Heap) : Prop where
  source : h'.source = c.heap.source
  walk : blocks h' = .ok (taggedCells true w)
  members : ∀ k, ∃ bs, FreeList.members k h' = .ok bs ∧
    bs.Perm ((w.filter fun d => !d.alloc && SizeClass.ofSize d.size == k).map Cell.block)
  figures : validate h' = .ok (.ok (figures c.heap w))
  usable : ∀ g ∈ c.live, g.pointer ∉ ps → usableSize g.pointer h' = usableSize g.pointer c.heap
  payload : ∀ g ∈ c.live, g.pointer ∉ ps → ∀ i < c.heap.usableAt g.pointer,
    h'.memory.byte (g.pointer + i) = c.heap.memory.byte (g.pointer + i)

variable {cl : Client}

theorem Tracked.released (hT : Tracked cl w l) {l' : Lists} (hS : Sound h' (fuse (w.map (Cell.release ps))) l')
    (hb : h'.bare = cl.heap.bare) (hk : Keeps (fuse (w.map (Cell.release ps))) cl.heap h') :
    cl.Released ps (fuse (w.map (Cell.release ps))) h' := by
  have hkept : ∀ g ∈ cl.live, g.pointer ∉ ps → ∃ d ∈ w, d.addr = g.pointer ∧ d.alloc = true ∧
      d ∈ fuse (w.map (Cell.release ps)) := by
    intro g hg hgp
    obtain ⟨d, hd, hb⟩ := hT.backed g hg
    have hdp : d ∈ allocs (fuse (w.map (Cell.release ps))) := by
      rw [allocs_fuse, allocs_map_release]
      exact List.mem_filter.mpr ⟨hd, by simpa [hb.addr] using hgp⟩
    exact ⟨d, (mem_allocs.mp hd).1, hb.addr, mem_allocs.mp hdp |>.2, (mem_allocs.mp hdp).1⟩
  refine ⟨source_of_bare hb, hS.run_blocks, fun k => ⟨l' k, hS.linked.run_members k, hS.perm_list k⟩, ?_, ?_, ?_⟩
  · rw [hS.run_validate, SegregatedFit.figures, SegregatedFit.figures, source_of_bare hb]
  · intro g hg hgp
    obtain ⟨d, hd, hda, -, hd'⟩ := hkept g hg hgp
    rw [← hda, Tracked.run_usableSize hS.toLaid hd', Tracked.run_usableSize hT.sound.toLaid hd]
  · intro g hg hgp i hi
    obtain ⟨d, hd, hda, hal, hd'⟩ := hkept g hg hgp
    rw [← hda, hT.usableAt_cell hd] at hi
    rw [← hda]
    exact hk.cell hd' hal _ ⟨by omega, by omega⟩

theorem Reachable.roomy (hc : Reachable cl) : initialSize + minBlock ≤ cl.heap.source.size := by
  have hinv : (∃ w l, Tracked cl w l) ∧ initialSize + minBlock ≤ cl.heap.source.size := by
    refine hc.invariant (P := fun c => (∃ w l, Tracked c w l) ∧ initialSize + minBlock ≤ c.heap.source.size) ?_ ?_
    · intro h h' chunk hs hrun
      refine ⟨Tracked.start hs hrun, ?_⟩
      obtain ⟨-, -, d, -, -, -, hS⟩ := (layOut_fresh hs chunk).of_run hrun
      have habut := hS.abut
      have hend : h'.source.lo + 32 + d.size = h'.source.lo + h'.source.size := habut.2
      have hle := d.le_size
      simp only [initialSize, wordSize, minBlock]
      omega
    · intro c c' m hr hm
      obtain ⟨⟨w, l, hT⟩, hroom⟩ := hr
      obtain ⟨w', l', hT', ⟨n, hn⟩, -⟩ := hT.step hm
      refine ⟨⟨w', l', hT'⟩, ?_⟩
      rw [hn.source.size]
      exact Nat.le_trans hroom (Nat.le_add_right _ _)
  exact hinv.2

theorem Tracked.fuse_all (hT : Tracked cl w l) (hw : w ≠ []) (hall : ∀ g ∈ cl.live, g.pointer ∈ ps) :
    ∃ d, fuse (w.map (Cell.release ps)) = [d] ∧ d.alloc = false := by
  have hfree : ∀ d ∈ w.map (Cell.release ps), d.alloc = false := by
    intro d hd
    obtain ⟨e, he, rfl⟩ := List.mem_map.mp hd
    by_cases hea : e.alloc = true
    · have hmem := hT.pointers.mem_iff.mpr (List.mem_map_of_mem (mem_allocs.mpr ⟨he, hea⟩))
      obtain ⟨g, hg, hge⟩ := List.mem_map.mp hmem
      rw [Cell.release_freed (hge ▸ hall g hg)]
      rfl
    · have hea : e.alloc = false := by simpa using hea
      rwa [Cell.release_free hea]
  obtain ⟨c, w, rfl⟩ := List.exists_cons_of_ne_nil hw
  rw [List.map_cons] at hfree ⊢
  obtain ⟨d, hd, -, hdf⟩ := fuse_all_free hfree
  exact ⟨d, hd, hdf⟩

/-- Live pointers may be freed in any order: the blocks that are left are the old ones with
runs of free ones merged. Freeing all of them leaves one block. -/
theorem Reachable.releases_commute (hc : Reachable cl) : ∃ w, blocks cl.heap = .ok (taggedCells true w) ∧
    ∀ ps : List Nat, ps.Nodup → (∀ p ∈ ps, cl.Owns p) → ∃ w', Merged (w.map (Cell.release ps)) w' ∧
      ∀ qs, qs.Perm ps → Ends (releaseAll qs) cl.heap fun _ h' => cl.Released ps w' h' ∧
        ((∀ g ∈ cl.live, g.pointer ∈ ps) → h'.Whole) := by
  obtain ⟨w, l, hT⟩ := hc.tracked
  refine ⟨w, hT.sound.run_blocks, fun ps hps howns => ⟨_, merged_fuse _, fun qs hq => ?_⟩⟩
  have hal : ∀ q ∈ qs, ∃ d ∈ allocs w, d.addr = q := by
    intro q hqs
    obtain ⟨d, hd, hda, rfl⟩ := hT.cell (howns q (hq.mem_iff.mp hqs))
    exact ⟨d, mem_allocs.mpr ⟨hd, hda⟩, rfl⟩
  refine (hT.sound.ends_releaseAll (hq.nodup_iff.mpr hps) hal).mono ?_
  intro _ h' hr
  rw [Cell.release_perm hq] at hr
  obtain ⟨⟨l', hS⟩, hb, hk⟩ := hr
  refine ⟨hT.released hS hb hk, fun hall => ?_⟩
  have hw : w ≠ [] := by
    rintro rfl
    have habut : cl.heap.source.lo + 32 = cl.heap.source.lo + cl.heap.source.size := hT.sound.abut
    have hroom := hc.roomy
    simp only [initialSize, wordSize, minBlock] at hroom
    omega
  obtain ⟨d, hd, hdf⟩ := hT.fuse_all hw hall
  exact Sound.whole (hd ▸ hS) hdf

theorem tieRun_releases_commute : ∃ w, ∀ qs ∈ [[4176, 4272], [4272, 4176]],
    Ends (releaseAll qs) tieRun.heap fun _ h' => tieRun.Released [4176, 4272] w h' ∧ h'.Whole := by
  obtain ⟨v, -, hcommute⟩ := Reachable.releases_commute reachable_tieRun
  obtain ⟨w, -, hw⟩ := hcommute [4176, 4272] (by decide) (by decide +kernel)
  have hall : ∀ g ∈ tieRun.live, g.pointer ∈ [4176, 4272] := by decide +kernel
  refine ⟨w, fun qs hq => (hw qs ?_).mono fun _ _ hr => ⟨hr.1, hr.2 hall⟩⟩
  simp only [List.mem_cons, List.not_mem_nil, or_false] at hq
  rcases hq with rfl | rfl
  · exact .refl _
  · exact .swap _ _ _

end SegregatedFit
