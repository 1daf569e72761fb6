import SegregatedFit.Proofs.Tracking

/-!
# Live allocations

What a client can rely on: its allocations remember what is written to them,
whatever is done to others; and they are what the allocator's own figures count,
aligned, large enough and apart from each other.
-/

namespace SegregatedFit

variable {c c' : Client} {w w' : List Cell} {l : Lists} {m : Move} {f g : Grant} {d : Cell}

namespace Tracked

theorem exists_backs (hT : Tracked c w l) (hg : g ∈ c.live) :
    ∃ d ∈ w, d.alloc = true ∧ d.Backs c.heap g ∧ c.heap.usableAt g.pointer = d.size - 16 := by
  obtain ⟨d, hd, hb⟩ := hT.backed g hg
  obtain ⟨hdw, hal⟩ := mem_allocs.mp hd
  exact ⟨d, hdw, hal, hb, hb.addr ▸ hT.usableAt_cell hdw⟩

end Tracked

/-! ## Memory -/

theorem Call.result_free {p r : Option Nat} {h h' : Heap} (hr : (Call.free p).run h = .ok r h') :
    r = none := by
  change EStateM.bind (SegregatedFit.free p) (fun _ => EStateM.pure none) h = _ at hr
  unfold EStateM.bind at hr
  split at hr <;> cases hr
  rfl

theorem Step.keeps_grant (hm : Step c m c') (hg : g ∈ c.live) (hne : m.pointer ≠ some g.pointer) :
    g ∈ c'.live := by
  cases hm with
  | @call a r h' _ _ =>
    have hkept : g ∈ dropGrant a.pointer c.live :=
      List.mem_filter.mpr ⟨hg, by simpa using fun he => hne he.symm⟩
    simp only [Client.book]
    cases r with
    | none => dsimp only; split <;> assumption
    | some q => exact List.mem_cons_of_mem _ (by split <;> assumption)
  | write =>
    refine List.mem_map.mpr ⟨g, hg, if_neg fun he => hne ?_⟩
    rw [he]; rfl

theorem Tracked.keeps_payload (hT : Tracked c w l) (hm : Step c m c') (hg : g ∈ c.live)
    (hne : m.pointer ≠ some g.pointer) : c'.heap.usableAt g.pointer = c.heap.usableAt g.pointer ∧
      ∀ i < c.heap.usableAt g.pointer,
        c'.heap.memory.byte (g.pointer + i) = c.heap.memory.byte (g.pointer + i) := by
  obtain ⟨d, hd, hal, hb, hsize⟩ := hT.exists_backs hg
  obtain ⟨w', l', hT', -, hspares⟩ := hT.step hm
  obtain ⟨hd', hbytes⟩ := hspares d (mem_allocs.mpr ⟨hd, hal⟩) fun he => hne (he ▸ hb.addr ▸ rfl)
  have hsize' := hT'.usableAt_cell (mem_allocs.mp hd').1
  rw [hb.addr] at hsize'
  refine ⟨hsize'.trans hsize.symm, fun i hi => hbytes _ ⟨?_, ?_⟩⟩ <;> rw [hb.addr] <;> omega

theorem Tracked.keeps_usable (hT : Tracked c w l) (hm : Step c m c') (hg : g ∈ c.live) (hf : f ∈ c'.live)
    (hfg : f.pointer = g.pointer) (hne : ∀ n, m ≠ .call (.realloc (some g.pointer) n)) :
    c'.heap.usableAt g.pointer = c.heap.usableAt g.pointer := by
  by_cases hp : m.pointer = some g.pointer
  · cases hm with
    | @call a r h' _ hrun =>
      cases a with
      | malloc | calloc => cases hp
      | realloc p n =>
        obtain rfl : p = some g.pointer := hp
        exact absurd rfl (hne n)
      | free p =>
        obtain rfl : p = some g.pointer := hp
        obtain rfl := Call.result_free hrun
        exact absurd hfg (mem_dropGrant.mp hf).2
    | write howns hfit =>
      obtain ⟨d, hd, -, hb, -⟩ := hT.exists_backs hg
      rw [← hb.addr, (hT.write howns hfit).1.usableAt_cell hd, hT.usableAt_cell hd]
  · exact (hT.keeps_payload hm hg hp).1

structure Client.Remembers (c : Client) (g : Grant) : Prop where
  usable : usableSize g.pointer c.heap = .ok (c.heap.usableAt g.pointer)
  known : ∀ i v, g.known i = some v → i < c.heap.usableAt g.pointer ∧
    c.heap.memory.byte (g.pointer + i) = v

structure Move.Leaves (m : Move) (c c' : Client) (g : Grant) : Prop where
  kept : m.pointer ≠ some g.pointer → g ∈ c'.live
  bytes : m.pointer ≠ some g.pointer → ∀ i < c.heap.usableAt g.pointer,
    c'.heap.memory.byte (g.pointer + i) = c.heap.memory.byte (g.pointer + i)
  usable : ∀ f ∈ c'.live, f.pointer = g.pointer → (∀ n, m ≠ .call (.realloc (some g.pointer) n)) →
    c'.heap.usableAt g.pointer = c.heap.usableAt g.pointer

/-- Allocations are memory: what is known of one is there, and no move that is about
another changes it. -/
theorem Reachable.remembers (hc : Reachable c) : (∀ g ∈ c.live, c.Remembers g) ∧
    ∀ m c', Step c m c' → ∀ g ∈ c.live, m.Leaves c c' g := by
  obtain ⟨w, l, hT⟩ := hc.tracked
  refine ⟨fun g hg => ⟨hT.usableAt ⟨g, hg, rfl⟩, fun i v hv => ?_⟩, fun m c' hm g hg => ⟨?_, ?_, ?_⟩⟩
  · obtain ⟨d, -, -, hb, hsize⟩ := hT.exists_backs hg
    obtain ⟨hi, hbyte⟩ := hb.known i v hv
    exact ⟨by omega, hbyte⟩
  · exact hm.keeps_grant hg
  · exact fun hne => (hT.keeps_payload hm hg hne).2
  · exact fun f hf hfg hne => hT.keeps_usable hm hg hf hfg hne

theorem smallRun_remembers : ∃ g ∈ smallRun.live,
    g.pointer = 4208 ∧ g.known 0 = some 7 ∧ smallRun.Remembers g := by
  have hfind : ∃ g ∈ smallRun.live, g.pointer = 4208 ∧ g.known 0 = some 7 := by decide +kernel
  obtain ⟨g, hg, hp, hk⟩ := hfind
  exact ⟨g, hg, hp, hk, (Reachable.remembers reachable_smallRun).1 g hg⟩

/-! ## Figures -/

/-- What the walk and the figures of a heap say of the live allocations. -/
structure Client.Accounted (c : Client) (bs : List (Block × Tag)) (s : Stats) : Prop where
  walk : blocks c.heap = .ok bs
  figures : validate c.heap = .ok (.ok s)
  live : ((bs.filter fun b => b.2.isAlloc).map fun b => b.1.payload).Perm (c.live.map Grant.pointer)
  allocatedBlocks : s.allocatedBlocks = c.live.length
  allocatedSize : s.allocatedSize = (c.live.map fun g => c.heap.usableAt g.pointer + 16).sum
  usable : ∀ g ∈ c.live, usableSize g.pointer c.heap = .ok (c.heap.usableAt g.pointer)
  aligned : ∀ g ∈ c.live, g.pointer % alignment = 0
  inside : ∀ g ∈ c.live, c.heap.source.lo ≤ g.pointer ∧
    g.pointer + c.heap.usableAt g.pointer ≤ c.heap.top
  enough : ∀ g ∈ c.live, g.request ≤ c.heap.usableAt g.pointer
  apart : c.live.Pairwise fun f g => f.pointer + c.heap.usableAt f.pointer ≤ g.pointer ∨
    g.pointer + c.heap.usableAt g.pointer ≤ f.pointer

theorem Tracked.sum_usable (hT : Tracked c w l) :
    (c.live.map fun g => c.heap.usableAt g.pointer + 16).sum = ((allocs w).map Cell.size).sum := by
  have hperm := hT.pointers.map fun p => c.heap.usableAt p + 16
  rw [List.map_map, List.map_map] at hperm
  refine hperm.sum_nat.trans (congrArg List.sum (List.map_congr_left fun d hd => ?_))
  have hle := d.le_size
  rw [Function.comp_apply, hT.usableAt_cell (mem_allocs.mp hd).1]
  omega

theorem Tracked.apart (hT : Tracked c w l) : c.live.Pairwise fun f g =>
    f.pointer + c.heap.usableAt f.pointer ≤ g.pointer ∨
      g.pointer + c.heap.usableAt g.pointer ≤ f.pointer := by
  refine (List.pairwise_map.mp hT.nodup).imp_of_mem fun {f g} hf hg hne => ?_
  obtain ⟨d, hd, -, hfd, hdu⟩ := hT.exists_backs hf
  obtain ⟨e, he, -, hge, heu⟩ := hT.exists_backs hg
  have hda := hfd.addr
  have hea := hge.addr
  rcases hT.sound.abut.apart hd he with rfl | h | h
  · exact absurd (hda.symm.trans hea) hne
  · omega
  · omega

/-- Live allocations are sound, and the allocator knows them all. -/
theorem Reachable.accounted (hc : Reachable c) : ∃ bs s, c.Accounted bs s := by
  obtain ⟨w, l, hT⟩ := hc.tracked
  refine ⟨_, _, hT.sound.run_blocks, hT.sound.run_validate, ?_, ?_, hT.sum_usable ▸ ?_,
    fun g hg => hT.usableAt ⟨g, hg, rfl⟩, fun g hg => ?_, fun g hg => ?_, fun g hg => ?_, hT.apart⟩
  · have hmap := congrArg (List.map Block.payload) (filter_taggedCells (p := true) (w := w) id)
    rw [List.map_map, List.map_map] at hmap
    exact (List.Perm.of_eq hmap).trans hT.pointers.symm
  · have hlen := hT.pointers.length_eq
    rw [List.length_map, List.length_map] at hlen
    rw [hlen, allocs, ← List.countP_eq_length_filter]
    exact Nat.zero_add _
  · exact Nat.zero_add _
  all_goals obtain ⟨d, hd, -, hb, hsize⟩ := hT.exists_backs hg
  · exact hb.addr ▸ d.addr_mod
  · obtain ⟨p, hst⟩ := hT.sound.stands hd
    have hlo := hst.le_addr
    have hhi := hst.end_le
    have haddr := hb.addr
    omega
  · have hreq := hb.size
    omega

theorem smallRun_accounted : smallRun.live.length = 2 ∧ ∃ bs s, smallRun.Accounted bs s :=
  ⟨by decide +kernel, Reachable.accounted reachable_smallRun⟩

end SegregatedFit
