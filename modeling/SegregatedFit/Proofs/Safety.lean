import SegregatedFit.Proofs.Tracking

/-!
# Safety

Neither laying out a heap nor anything that a client may ask of it meets a fault.
This holds of guarded heaps too, so no word is read or written outside the heap.
-/

namespace SegregatedFit

variable {h : Heap} {w : List Cell} {l : Lists} {c : Client}

def Client.guard (c : Client) (guarded : Bool) : Client :=
  { c with heap := { c.heap with guarded } }

theorem Sound.guard (hS : Sound h w l) (g : Bool) : Sound { h with guarded := g } w l where
  founded :=
    ⟨hS.founded.source, hS.founded.first, hS.founded.le_chunk, hS.founded.chunk_mod, hS.founded.chunk_lt⟩
  tiles := hS.tiles
  linked :=
    { heads := hS.linked.heads
      threads := hS.linked.threads
      nodup := hS.linked.nodup
      once := hS.linked.once
      apart := hS.linked.apart
      node := fun hb => by
        obtain ⟨c, hc, rfl, -⟩ := hS.cell hb
        exact Tiles.node (h := { h with guarded := g }) hS.tiles hS.founded.top_lt hc
      dated := hS.linked.dated }
  filed := hS.filed
  full := hS.full
  parted := hS.parted

theorem Tracked.guard (hT : Tracked c w l) (g : Bool) : Tracked (c.guard g) w l :=
  ⟨hT.sound.guard g, hT.pointers, fun f hf => by
    obtain ⟨d, hd, hb⟩ := hT.backed f hf
    exact ⟨d, hd, hb.keep fun _ _ => rfl⟩⟩

theorem Laid.figures_le (hL : Laid h w l) : (figures h w).allocatedSize + (figures h w).freeSize + initialSize =
    h.source.size ∧ 32 * ((figures h w).allocatedBlocks + (figures h w).freeBlocks) ≤ h.source.size := by
  have hend := hL.abut.end_eq
  have hlen := hL.abut.length_le
  have hsize := Stats.add_size {} w
  have hblocks := Stats.add_blocks {} w
  unfold Heap.top at hend hlen
  simp only [figures, initialSize, wordSize] at *
  omega

structure Client.Safe (c : Client) : Prop where
  call : ∀ a : Call, (∀ p ∈ a.pointer, c.Owns p) → ∃ r h', a.run c.heap = .ok r h'
  usableSize : ∀ p, c.Owns p → ∃ n, usableSize p c.heap = .ok n
  findFit : ∀ n, ∃ o, findFit n c.heap = .ok o
  blocks : ∃ bs, blocks c.heap = .ok bs
  validate : ∃ s, validate c.heap = .ok (.ok s) ∧ s.heapSize < wordLimit ∧
    s.allocatedSize + s.freeSize + initialSize = s.heapSize ∧
    32 * (s.allocatedBlocks + s.freeBlocks) ≤ s.heapSize

theorem Tracked.safe (hT : Tracked c w l) : c.Safe where
  call a hlegal := by
    obtain ⟨r, h', hrun, -⟩ := hT.ends_call a hlegal
    exact ⟨r, h', hrun⟩
  usableSize p hp := ⟨_, hT.usableAt hp⟩
  findFit n := by
    obtain ⟨o, ho, -⟩ := hT.sound.run_findFit n
    exact ⟨_, ho⟩
  blocks := ⟨_, hT.sound.run_blocks⟩
  validate := by
    have htop := hT.sound.founded.top_lt
    unfold Heap.top at htop
    exact ⟨_, hT.sound.run_validate, Nat.lt_of_le_of_lt (Nat.le_add_left _ _) htop, hT.sound.figures_le⟩

/-- Laying out a heap is answered, and so is all that a client may ask of it afterwards. -/
theorem no_fault : (∀ (h : Heap) (chunk : Nat), h.source.Fresh → ∃ r h', layOut chunk h = .ok r h') ∧
    ∀ c, Reachable c → ∀ guarded, (c.guard guarded).Safe := by
  refine ⟨fun h chunk hs => ?_, fun c hc guarded => ?_⟩
  · obtain ⟨r, h', hrun, -⟩ := layOut_fresh hs chunk
    exact ⟨r, h', hrun⟩
  · obtain ⟨w, l, hT⟩ := hc.tracked
    exact (hT.guard guarded).safe

theorem smallRun_safe : Reachable smallRun ∧ (smallRun.guard true).Safe :=
  ⟨reachable_smallRun, no_fault.2 smallRun reachable_smallRun true⟩

end SegregatedFit
