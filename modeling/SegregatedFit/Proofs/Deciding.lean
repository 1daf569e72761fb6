import SegregatedFit.Proofs.Client
import SegregatedFit.Proofs.Serving
import SegregatedFit.Proofs.Shifting

/-!
# What decides a call

A layout is what a heap holds, with addresses counted from its start. The layout and
the arguments of a call, together with the answer of the source if it is asked for more,
decide the result and the layout after it. Where the heap lies, what the source is and
all bytes that are not tags or links play no part.
-/

namespace SegregatedFit

/-- The cells and lists of a heap, with addresses counted from its start. -/
structure Layout where
  cells : List Cell
  lists : Lists
  chunkSize : Nat

structure Heap.Shows (h : Heap) (u : Nat) (s : Layout) : Prop where
  lo : h.source.lo = alignment * u
  chunkSize : h.chunkSize = s.chunkSize
  sound : Sound h (s.cells.map (Cell.up u)) (s.lists.up u)

def Heap.grew (h h' : Heap) : Bool := decide (h.source.size < h'.source.size)

theorem Heap.GrownBy.grew {h h' : Heap} {n : Nat} (hg : h.GrownBy n h') : h.grew h' = decide (0 < n) := by
  unfold Heap.grew
  rw [hg.source.size]
  exact decide_eq_decide.mpr (by omega)

/-- Wherever a heap of the layout `s` lies, the action ends with the result and the layout
that `out` gives for whether the heap has grown. -/
def Layout.Decides (s : Layout) (x : Nat → Action (Option Nat)) (out : Bool → Option Nat × Layout) : Prop :=
  ∀ h u, h.Shows u s → Ends (x u) h fun r h' =>
    r = (out (h.grew h')).1.map (alignment * u + ·) ∧ h'.Shows u (out (h.grew h')).2

variable {h h' h₁ : Heap} {u n a : Nat} {s : Layout} {w : List Cell} {l : Lists} {c d t : Cell} {o : Option Cell}

namespace Heap.Shows

theorem of_grownBy {k : Nat} (hs : h.Shows u s) (hg : h.GrownBy k h')
    (hS : Sound h' (w.map (Cell.up u)) (l.up u)) : h'.Shows u ⟨w, l, s.chunkSize⟩ :=
  ⟨hg.source.lo.trans hs.lo, hg.chunkSize.trans hs.chunkSize, hS⟩

theorem of_bare (hs : h.Shows u s) (hb : h'.bare = h.bare) (hS : Sound h' (w.map (Cell.up u)) (l.up u)) :
    h'.Shows u ⟨w, l, s.chunkSize⟩ :=
  hs.of_grownBy (.of_bare hb) hS

theorem idle (hs : h.Shows u s) (hi : h.Idle h') : h'.Shows u s :=
  hs.of_bare hi.bare (hs.sound.idle hi)

theorem parted (hs : h.Shows u s) : Parted s.cells := parted_up.mp hs.sound.parted

theorem nodup (hs : h.Shows u s) : (s.cells.map Cell.addr).Nodup := by
  have hn := hs.sound.abut.nodup
  rw [List.map_map] at hn
  refine List.Nodup.of_map (alignment * u + ·) ?_
  rw [List.map_map]
  exact hn

theorem mem_cells (hc : c ∈ s.cells) : c.up u ∈ s.cells.map (Cell.up u) := List.mem_map_of_mem hc

theorem eq_of_sound (hs : h.Shows u s) (hS : Sound h w l) : w = s.cells.map (Cell.up u) ∧ l = s.lists.up u := by
  constructor
  · exact hS.cells_unique hs.sound.toLaid
  · funext k
    exact Except.ok.inj ((hS.linked.run_members k).symm.trans (hs.sound.linked.run_members k))

theorem run_findFit (hs : h.Shows u s) (hb : BestFit s.cells s.lists n o) :
    findFit n h = .ok ((o.map (Cell.up u)).map Cell.block) := by
  obtain ⟨o', hfind, hb'⟩ := hs.sound.run_findFit n
  obtain ⟨o'', rfl, hb''⟩ := hb'.of_up
  obtain rfl := hb.unique hs.nodup hb''
  exact hfind

theorem exists_bestFit (hs : h.Shows u s) (n : Nat) : ∃ o, BestFit s.cells s.lists n o := by
  obtain ⟨o', -, hb⟩ := hs.sound.run_findFit n
  obtain ⟨o, -, ho⟩ := hb.of_up
  exact ⟨o, ho⟩

theorem top (hs : h.Shows u s) : h.top = alignment * u + (32 + (s.cells.map Cell.size).sum) := by
  have hend := hs.sound.abut.end_eq
  rw [hs.lo, List.map_map] at hend
  rw [hend, Nat.add_assoc]
  rfl

theorem size (hs : h.Shows u s) : h.source.size = 32 + (s.cells.map Cell.size).sum := by
  have htop := hs.top
  unfold Heap.top at htop
  rw [hs.lo] at htop
  omega

end Heap.Shows

/-! ## Allocating -/

section
variable {pre post : List Cell}

theorem map_up_insert : (pre ++ c :: (o.toList ++ post)).map (Cell.up u) =
    pre.map (Cell.up u) ++ c.up u :: ((o.map (Cell.up u)).toList ++ post.map (Cell.up u)) := by
  cases o <;> simp

theorem Heap.Shows.malloc_fit (hs : h.Shows u s) (hn : 0 < n) (ha : blockSize n = some a)
    (hb : BestFit s.cells s.lists a (some t)) (hcells : s.cells = pre ++ t :: post) (ht : t.alloc = false)
    (hcut : Cut t.addr t.size a c o) :
    Ends (malloc n) h fun r h' => r = some (alignment * u + t.addr) ∧ h'.bare = h.bare ∧
      h'.Shows u ⟨pre ++ c :: (o.toList ++ post), (s.lists.without t.block).absorb o none, s.chunkSize⟩ := by
  have hS := hs.sound
  rw [hcells, List.map_append, List.map_cons] at hS
  refine (hS.malloc_fit hn ha (hs.run_findFit hb) ht hcut.up).mono ?_
  intro r h' hr
  obtain ⟨rfl, hS', hbare, -⟩ := hr
  refine ⟨rfl, hbare, hs.of_bare hbare ?_⟩
  rw [map_up_insert, Lists.absorb_up, Lists.without_up]
  exact hS'

end

theorem Heap.Shows.exists_new_cell (hs : h.Shows u s) (ha : blockSize n = some a) :
    ∃ e : Cell, e.addr = 32 + (s.cells.map Cell.size).sum ∧ e.size = max a s.chunkSize ∧ e.alloc = false := by
  have hf := hs.sound.founded
  have hchunk := hf.le_chunk
  obtain ⟨e, he, hes, hef⟩ := hs.sound.toLaid.exists_cell_at_top (n := max a h.chunkSize) (by omega)
  rw [Sound.alignUpOrMax_max hf ha, hs.chunkSize] at hes
  have hmod := e.addr_mod
  rw [he, hs.top] at hmod
  simp only [alignment] at hmod
  exact ⟨⟨_, e.size, false, by omega, e.size_mod, e.le_size⟩, rfl, hes, rfl⟩

section
variable {lo : List Cell} {below : Option Cell} {e : Cell}

theorem Heap.Shows.malloc_grow (hs : h.Shows u s) (hn : 0 < n) (ha : blockSize n = some a)
    (hb : BestFit s.cells s.lists a none) (hcells : s.cells = lo ++ below.toList) (hf : Fenced lo below none [])
    (he : e.addr = 32 + (s.cells.map Cell.size).sum) (hes : e.size = max a s.chunkSize) (hef : e.alloc = false)
    (hcut : Cut (Cell.merge below e none).addr (Cell.merge below e none).size a c o) :
    Ends (malloc n) h fun r h' => (r = none ∧ h.grew h' = false ∧ h'.Shows u s) ∨
      (r = some (alignment * u + c.addr) ∧ h.grew h' = true ∧
        h'.Shows u ⟨lo ++ c :: o.toList, (s.lists.drop below).absorb o none, s.chunkSize⟩) := by
  have hfind := hs.run_findFit hb
  have hnew : (e.up u).size = max a h.chunkSize := by rw [hs.chunkSize]; exact hes
  by_cases hroom : h.source.size + (e.up u).size ≤ h.source.capacity
  · have hS := hs.sound
    rw [hcells, List.map_append] at hS
    have hS' : Sound h (lo.map (Cell.up u) ++ (below.map (Cell.up u)).toList) (s.lists.up u) := by
      cases below <;> exact hS
    have hcut' := hcut.up (u := u)
    rw [← Cell.up_addr, ← Cell.up_size (u := u), Cell.merge_up] at hcut'
    have haddr : (e.up u).addr = h.top := by rw [hs.top, Cell.up_addr, he]
    refine (hS'.malloc_grow hf.up hn ha hfind haddr hnew hef hroom hcut').mono ?_
    intro r h' hr
    obtain ⟨rfl, hS₁, hg, -⟩ := hr
    refine .inr ⟨rfl, ?_, hs.of_grownBy hg ?_⟩
    · rw [hg.grew]
      exact decide_eq_true (Nat.lt_of_lt_of_le (by decide) e.le_size)
    · have hmap : (lo ++ c :: o.toList).map (Cell.up u) =
          lo.map (Cell.up u) ++ c.up u :: (o.map (Cell.up u)).toList := by cases o <;> simp
      rw [hmap, Lists.absorb_up, Lists.drop_up]
      exact hS₁
  · obtain ⟨h', hrun, hi⟩ := hs.sound.malloc_refused ha hfind (by omega)
    refine ⟨none, h', hrun, .inl ⟨rfl, ?_, hs.idle hi⟩⟩
    have hg := Heap.GrownBy.of_bare hi.bare
    rw [hg.grew]
    rfl

end

theorem Heap.Shows.decides_malloc (hs : h.Shows u s) (n : Nat) : ∃ out, s.Decides (fun _ => malloc n) out := by
  by_cases hn : n = 0
  · subst hn
    exact ⟨fun _ => (none, s), fun h u hs => ⟨none, h, Sound.run_malloc_zero h, rfl, hs⟩⟩
  cases ha : blockSize n with
  | none => exact ⟨fun _ => (none, s), fun h u hs => ⟨none, h, Sound.run_malloc_huge ha, rfl, hs⟩⟩
  | some a =>
    obtain ⟨-, hmod, hle, -⟩ := blockSize_eq_some.mp ha
    obtain ⟨o, hb⟩ := hs.exists_bestFit a
    cases o with
    | some t =>
      obtain ⟨ht, hlisted, hsize, -⟩ := id hb
      have htf := (hs.sound.mem_of_has (Heap.Shows.mem_cells ht) (Lists.has_up.mpr hlisted)).1
      obtain ⟨pre, post, hcells⟩ := List.append_of_mem ht
      obtain ⟨c, o, hcut⟩ := exists_cut t.addr_mod t.size_mod hmod (by omega) hsize
      refine ⟨fun _ => (some t.addr,
        ⟨pre ++ c :: (o.toList ++ post), (s.lists.without t.block).absorb o none, s.chunkSize⟩), fun h u hs => ?_⟩
      refine (hs.malloc_fit (by omega) ha hb hcells htf hcut).mono ?_
      intro r h' hr
      exact ⟨hr.1, hr.2.2⟩
    | none =>
      obtain ⟨below, lo, hcells, hbelow, hlo⟩ := hs.parted.below
      obtain ⟨e, he, hes, hef⟩ := hs.exists_new_cell ha
      obtain ⟨c, o, hcut⟩ := exists_cut (Cell.merge below e none).addr_mod (Cell.merge below e none).size_mod
        hmod (by omega) (by simp only [Cell.merge]; omega)
      refine ⟨fun g => if g then (some c.addr,
        ⟨lo ++ c :: o.toList, (s.lists.drop below).absorb o none, s.chunkSize⟩) else (none, s), fun h u hs => ?_⟩
      refine (hs.malloc_grow (by omega) ha hb hcells ⟨hbelow, by simp, hlo, by simp⟩ he hes hef hcut).mono ?_
      intro r h' hr
      rcases hr with ⟨rfl, hg, hs'⟩ | ⟨rfl, hg, hs'⟩
      · rw [hg]
        exact ⟨rfl, hs'⟩
      · rw [hg]
        exact ⟨rfl, hs'⟩

/-! ## Releasing and resizing -/

theorem Heap.grew_of_bare (hb : h'.bare = h₁.bare) : h.grew h' = h.grew h₁ := by
  unfold Heap.grew
  rw [source_of_bare hb]

section
variable {lo hi : List Cell} {below above : Option Cell}

theorem map_up_around : (lo ++ below.toList ++ c :: (above.toList ++ hi)).map (Cell.up u) =
    lo.map (Cell.up u) ++ (below.map (Cell.up u)).toList ++
      c.up u :: ((above.map (Cell.up u)).toList ++ hi.map (Cell.up u)) := by
  cases below <;> cases above <;> simp

theorem Heap.Shows.ends_free (hs : h.Shows u s) (hcells : s.cells = lo ++ below.toList ++ c :: (above.toList ++ hi))
    (hc : c.alloc = true) (hf : Fenced lo below above hi) :
    Ends (free (some (c.up u).addr)) h fun _ h' => h'.bare = h.bare ∧
      h'.Shows u ⟨lo ++ Cell.merge below c above :: hi,
        ((s.lists.drop below).drop above).file (Cell.merge below c above), s.chunkSize⟩ := by
  have hS := hs.sound
  rw [hcells, map_up_around] at hS
  refine (hS.ends_free hc hf.up).mono ?_
  intro _ h' hr
  obtain ⟨hS', hb, -⟩ := hr
  refine ⟨hb, hs.of_bare hb ?_⟩
  rw [List.map_append, List.map_cons, Cell.merge_up, Lists.file_up, Lists.drop_up, Lists.drop_up, Cell.merge_up]
  exact hS'

end

theorem Layout.exists_freed (s : Layout) (c : Cell) : ∃ s', ∀ h u, h.Shows u s → c ∈ s.cells → c.alloc = true →
    Ends (free (some (c.up u).addr)) h fun _ h' => h'.bare = h.bare ∧ h'.Shows u s' := by
  by_cases hex : ∃ (h : Heap) (u : Nat), h.Shows u s ∧ c ∈ s.cells
  · obtain ⟨h, u, hs, hc⟩ := hex
    have hp := hs.parted
    obtain ⟨pre, post, hcells⟩ := List.append_of_mem hc
    rw [hcells] at hp
    obtain ⟨lo, below, above, hi, rfl, rfl, hf⟩ := hp.fence
    exact ⟨_, fun h u hs _ hal => hs.ends_free hcells hal hf⟩
  · exact ⟨s, fun h u hs hc => absurd ⟨h, u, hs, hc⟩ hex⟩

theorem Heap.Shows.exists_resized (hs : h.Shows u s) (hc : c ∈ s.cells) (hal : c.alloc = true) (hmod : a % 16 = 0)
    (h32 : 32 ≤ a) : ∃ o : Option Layout, ∀ h u, h.Shows u s → match o with
      | none => resize (c.up u).block a h = .ok false h
      | some s' => Ends (resize (c.up u).block a) h fun r h' => r = true ∧ h'.bare = h.bare ∧ h'.Shows u s' := by
  have hp := hs.parted
  obtain ⟨pre, post, hcells⟩ := List.append_of_mem hc
  rw [hcells] at hp
  obtain ⟨above, hi, rfl, habove, hhi⟩ := hp.right.tail.above
  have hfenced : Fenced [] none above hi := ⟨by simp, habove, by simp, hhi⟩
  have hsound : ∀ {h u}, h.Shows u s → Sound h (pre.map (Cell.up u) ++ c.up u ::
      ((above.map (Cell.up u)).toList ++ hi.map (Cell.up u))) (s.lists.up u) := by
    intro h u hs
    rw [← map_up_insert, ← hcells]
    exact hs.sound
  -- the cases depend on the layout alone, and so does the layout after each
  by_cases hdown : a ≤ c.size
  · obtain ⟨d, o, hcut⟩ := exists_cut c.addr_mod c.size_mod hmod h32 hdown
    refine ⟨some ⟨pre ++ d :: ((Cell.absorb o above).toList ++ hi), s.lists.absorb o above, s.chunkSize⟩,
      fun h u hs => ?_⟩
    refine ((hsound hs).resizeDown hal hfenced.up.above hfenced.up.hi hcut.up).mono ?_
    intro r h' hr
    obtain ⟨rfl, hS', hb, -⟩ := hr
    refine ⟨rfl, hb, hs.of_bare hb ?_⟩
    rw [map_up_insert, Cell.absorb_up, Lists.absorb_up]
    exact hS'
  by_cases hup : a ≤ c.size + Cell.sizeOf above
  · cases above with
    | none => exact absurd hup hdown
    | some b =>
      have hsum : (c.size + b.size) % 16 = 0 := by
        have := c.size_mod
        have := b.size_mod
        omega
      obtain ⟨d, o, hcut⟩ := exists_cut c.addr_mod hsum hmod h32 hup
      refine ⟨some ⟨pre ++ d :: (o.toList ++ hi), (s.lists.without b.block).absorb o none, s.chunkSize⟩,
        fun h u hs => ?_⟩
      refine ((hsound hs).resizeUp hal (habove b rfl) (Nat.lt_of_not_le hdown) hcut.up).mono ?_
      intro r h' hr
      obtain ⟨rfl, hS', hb, -⟩ := hr
      refine ⟨rfl, hb, hs.of_bare hb ?_⟩
      rw [map_up_insert, Lists.absorb_up, Lists.without_up]
      exact hS'
  · refine ⟨none, fun h u hs => ?_⟩
    refine (hsound hs).resizeStuck hfenced.up.above hfenced.up.hi ?_
    rw [Cell.sizeOf_up]
    exact Nat.lt_of_not_le hup

/-! ## Requests -/

theorem Layout.decides_free (hc : c ∈ s.cells) (hal : c.alloc = true) :
    ∃ out, s.Decides (fun u => (Call.free (some (c.up u).addr)).run) out := by
  obtain ⟨s', hfreed⟩ := s.exists_freed c
  refine ⟨fun _ => (none, s'), fun h u hs => ?_⟩
  refine Ends.bind (hfreed h u hs hc hal) ?_
  exact fun _ h' hr => Ends.pure ⟨rfl, hr.2⟩

theorem Layout.Decides.ends_malloc {out : Bool → Option Nat × Layout} (ho : s.Decides (fun _ => malloc n) out)
    (hs : h.Shows u s) : Ends (malloc n) h fun r h' => match r with
      | none => (out (h.grew h')).1 = none ∧ h'.Shows u (out (h.grew h')).2
      | some _ => ∃ d ∈ (out (h.grew h')).2.cells, r = some (d.up u).addr ∧ (out (h.grew h')).1 = some d.addr ∧
          d.alloc = true ∧ n + 16 ≤ d.size ∧ h'.Shows u (out (h.grew h')).2 ∧
          ∀ c ∈ s.cells, c.alloc = true → c ∈ (out (h.grew h')).2.cells := by
  refine ((ho h u hs).and (hs.sound.ends_malloc n)).mono ?_
  intro r h' hr
  obtain ⟨⟨hres, hs'⟩, hr⟩ := hr
  cases r with
  | none => exact ⟨Option.map_eq_none_iff.mp hres.symm, hs'⟩
  | some p =>
    obtain ⟨w', l', e, hS', -, rfl, hal, hsize, hperm, -⟩ := hr
    obtain ⟨rfl, rfl⟩ := hs'.eq_of_sound hS'
    obtain ⟨he, -⟩ := mem_allocs.mp (hperm.mem_iff.mpr List.mem_cons_self)
    obtain ⟨d, hd, rfl⟩ := List.mem_map.mp he
    obtain ⟨q, hq, hqd⟩ := Option.map_eq_some_iff.mp hres.symm
    refine ⟨d, hd, rfl, ?_, hal, hsize, hs', fun c hc hca => ?_⟩
    · rw [hq, Nat.add_left_cancel hqd]
    · have hm := mem_allocs.mpr ⟨Heap.Shows.mem_cells hc, show (c.up u).alloc = true from hca⟩
      have hc' := (mem_allocs.mp (hperm.mem_iff.mpr (List.mem_cons_of_mem _ hm))).1
      obtain ⟨c', hc', he⟩ := List.mem_map.mp hc'
      exact Cell.up_inj.mp he ▸ hc'

theorem Heap.Shows.decides_calloc (hs : h.Shows u s) (count n : Nat) :
    ∃ out, s.Decides (fun _ => calloc count n) out := by
  unfold calloc
  dsimp only
  by_cases hbig : wordLimit ≤ count * n
  · rw [if_pos hbig]
    exact ⟨fun _ => (none, s), fun h u hs => Ends.pure ⟨rfl, hs⟩⟩
  rw [if_neg hbig]
  obtain ⟨out, ho⟩ := hs.decides_malloc (count * n)
  refine ⟨out, fun h u hs => Ends.bind (ho.ends_malloc hs) ?_⟩
  intro r h₁ hr
  cases r with
  | none => exact Ends.pure ⟨by rw [hr.1]; rfl, hr.2⟩
  | some p =>
    obtain ⟨d, hd, hp, hq, hal, hsize, hs₁, -⟩ := hr
    obtain rfl := Option.some.inj hp
    refine Ends.bind (hs₁.sound.ends_storeBytes (Heap.Shows.mem_cells hd) hal (by rwa [List.length_replicate])) ?_
    intro _ h₂ hr
    obtain ⟨hS₂, hb₂, -⟩ := hr
    rw [← Heap.grew_of_bare hb₂] at hq hs₁ hS₂
    refine Ends.pure ⟨by rw [hq]; rfl, ?_⟩
    exact hs₁.of_bare hb₂ hS₂

theorem Heap.Shows.decides_realloc (hs : h.Shows u s) (hc : c ∈ s.cells) (hal : c.alloc = true) (hn : n ≠ 0) :
    ∃ out, s.Decides (fun u => realloc (some (c.up u).addr) n) out := by
  cases ha : blockSize n with
  | none => exact ⟨fun _ => (none, s), fun h u hs => ⟨none, h, Sound.run_realloc_huge _ hn ha, rfl, hs⟩⟩
  | some a =>
    obtain ⟨-, hmod, hle, -⟩ := blockSize_eq_some.mp ha
    obtain ⟨o, hresize⟩ := hs.exists_resized hc hal hmod (by omega)
    cases o with
    | some s' =>
      refine ⟨fun _ => (some c.addr, s'), fun h u hs => ?_⟩
      refine (Sound.realloc_resized hn ha (hresize h u hs) fun h' hq => ⟨_, _, hq.2.sound⟩).mono ?_
      intro r h' hr
      obtain ⟨rfl, h₁, ⟨-, hs₁⟩, hi⟩ := hr
      exact ⟨rfl, hs₁.idle hi⟩
    | none =>
      obtain ⟨out, ho⟩ := hs.decides_malloc n
      -- the layout after the move, for either answer of the source
      choose freed hfreed using fun g => (out g).2.exists_freed c
      refine ⟨fun g => ((out g).1, if (out g).1 = none then (out g).2 else freed g), fun h u hs => ?_⟩
      refine Sound.realloc_stuck hn ha (hresize h u hs) ((ho.ends_malloc hs).mono ?_)
      intro r h₁ hr
      cases r with
      | none =>
        obtain ⟨hnone, hs₁⟩ := hr
        dsimp only
        rw [hnone, if_pos rfl]
        exact ⟨rfl, hs₁⟩
      | some p =>
        obtain ⟨d, hd, hp, hq, hdal, hsize, hs₁, hkept⟩ := hr
        obtain rfl := Option.some.inj hp
        have hc₁ := hkept c hc hal
        have hmove := hs₁.sound.move
          (Q := fun h' => h'.bare = h₁.bare ∧ h'.Shows u (freed (h.grew h₁))) (Heap.Shows.mem_cells hd) hdal
          (Heap.Shows.mem_cells hc₁) hsize fun h₂ hS₂ hb₂ _ _ => by
            refine (hfreed _ h₂ u (hs₁.of_bare hb₂ hS₂) hc₁ hal).mono ?_
            exact fun _ h₃ hr => ⟨hr.1.trans hb₂, hr.2⟩
        refine hmove.mono ?_
        intro r h' hr
        obtain ⟨rfl, h₃, ⟨hb₃, hs₃⟩, hi⟩ := hr
        dsimp only
        rw [Heap.grew_of_bare (hi.bare.trans hb₃), hq, if_neg (by simp)]
        exact ⟨rfl, hs₃.idle hi⟩

def Call.about (f : Nat → Option Nat) : Call → Call
  | .malloc n => .malloc n
  | .calloc count n => .calloc count n
  | .realloc p n => .realloc (p.bind f) n
  | .free p => .free (p.bind f)

theorem Call.pointer_about {f : Nat → Option Nat} (a : Call) : (a.about f).pointer = a.pointer.bind f := by
  cases a <;> rfl

theorem Call.about_about {f g : Nat → Option Nat} (a : Call) :
    (a.about f).about g = a.about fun i => (f i).bind g := by
  cases a <;> simp [Call.about, Option.bind_assoc]

def Layout.Admits (s : Layout) (a : Call) : Prop := ∀ p ∈ a.pointer, ∃ c ∈ s.cells, c.alloc = true ∧ c.addr = p

theorem Heap.Shows.decides_call (hs : h.Shows u s) (a : Call) (ha : s.Admits a) :
    ∃ out, s.Decides (fun u => (a.about fun p => some (alignment * u + p)).run) out := by
  cases a with
  | malloc n => exact hs.decides_malloc n
  | calloc count n => exact hs.decides_calloc count n
  | realloc p n =>
    cases p with
    | none => exact hs.decides_malloc n
    | some p =>
      obtain ⟨c, hc, hal, rfl⟩ := ha p rfl
      by_cases hn : n = 0
      · subst hn
        exact Layout.decides_free hc hal
      · exact hs.decides_realloc hc hal hn
  | free p =>
    cases p with
    | none => exact ⟨fun _ => (none, s), fun h u hs => Ends.pure ⟨rfl, hs⟩⟩
    | some p =>
      obtain ⟨c, hc, hal, rfl⟩ := ha p rfl
      exact Layout.decides_free hc hal

/-- A layout and a call that it admits decide what comes of the call, once it is known
whether the heap grows. -/
theorem Layout.exists_outcome (s : Layout) (a : Call) : ∃ out : Bool → Option Nat × Layout,
    s.Admits a → s.Decides (fun u => (a.about fun p => some (alignment * u + p)).run) out := by
  by_cases hex : ∃ (h : Heap) (u : Nat), h.Shows u s ∧ s.Admits a
  · obtain ⟨h, u, hs, ha⟩ := hex
    obtain ⟨out, ho⟩ := hs.decides_call a ha
    exact ⟨out, fun _ => ho⟩
  · exact ⟨fun _ => (none, s), fun ha h u hs => absurd ⟨h, u, hs, ha⟩ hex⟩

end SegregatedFit
