import Mathlib.Order.Bounds.Defs
import SegregatedFit.Proofs.Extending
import SegregatedFit.Proofs.Searching

/-!
# Requests

What each request does to a sound heap, by the cells and the lists before and
after it. A request of a client ends without a fault and leaves a sound heap; the
one that is refused leaves all as it was.
-/

namespace SegregatedFit

variable {h : Heap} {w lo hi pre post : List Cell} {l : Lists} {b c d : Cell}
  {below above o : Option Cell} {n a : Nat}

/-! ## Block sizes -/

theorem blockSize_eq_some : blockSize n = some a ↔
    n + 31 < wordLimit ∧ a % 16 = 0 ∧ n + 16 ≤ a ∧ a < n + 32 := by
  unfold blockSize
  simp only [wordLimit, overhead]
  split
  · exact alignUp_eq_some
  · simp; omega

theorem blockSize_eq_none : blockSize n = none ↔ wordLimit ≤ n + 31 := by
  unfold blockSize
  simp only [wordLimit, overhead]
  split
  · exact alignUp_eq_none
  · simp; omega

def footprint (n : Nat) : Nat := (n + overhead + (alignment - 1)) / alignment * alignment

theorem footprint_isLeast (n : Nat) : IsLeast {a | alignment ∣ a ∧ n + overhead ≤ a} (footprint n) := by
  refine ⟨⟨Nat.dvd_mul_left _ _, ?_⟩, ?_⟩
  · simp only [footprint, overhead, alignment]
    omega
  · intro a ha
    obtain ⟨⟨k, rfl⟩, hle⟩ := ha
    simp only [footprint, overhead, alignment] at *
    omega

theorem blockSize_eq_footprint : blockSize n = some a ↔ footprint n = a ∧ a < wordLimit := by
  rw [blockSize_eq_some]
  simp only [footprint, wordLimit, overhead, alignment]
  omega

theorem blockSize_eq_none_iff : blockSize n = none ↔ wordLimit ≤ footprint n := by
  rw [blockSize_eq_none]
  simp only [footprint, wordLimit, overhead, alignment]
  omega

/-! ## Releasing -/

namespace Cell

def freed (c : Cell) : Cell := { c with alloc := false }

theorem merge_freed (below : Option Cell) (c : Cell) (above : Option Cell) :
    merge below c.freed above = merge below c above := by
  cases below <;> rfl

end Cell

namespace Sound

/-- A cell is marked free and listed, and then merges with its free neighbours. -/
theorem ends_free_passes (hS : Sound h (lo ++ below.toList ++ c :: (above.toList ++ hi)) l) (hc : c.alloc = true)
    (hf : Fenced lo below above hi) :
    Ends (free (some c.addr)) h fun _ h' =>
      Sound h' (lo ++ Cell.merge below c above :: hi)
        (((l.drop below).drop above).file (Cell.merge below c above)) ∧
      h.Passes (lo ++ below.toList ++ c.freed :: (above.toList ++ hi)) (lo ++ Cell.merge below c above :: hi) h' := by
  have hcw : c ∈ lo ++ below.toList ++ c :: (above.toList ++ hi) := by simp
  have hn := hS.unlisted hcw hc
  have hfull : ∀ d, d ∈ below ∨ d ∈ above → d.alloc = false ∧ l.Has d.block := fun d hd => by
    have hdf : d.alloc = false := hd.elim (hf.below d) (hf.above d)
    exact ⟨hdf, hS.full d (by rcases hd with hd | hd <;> simp [Option.mem_def.mp hd]) hdf⟩
  have hw : lo ++ below.toList ++ c :: (above.toList ++ hi) =
      lo ++ below.toList ++ [c] ++ (above.toList ++ hi) := by simp
  obtain ⟨p, q, hG, hst, -⟩ := Laid.gap (hw ▸ hS.toLaid) (by simpa using hn)
  have hsum : ([c].map Cell.size).sum = c.size := by simp
  rw [hsum] at hG
  refine Ends.query hst.header (Ends.demand (by rw [c.isAlloc_tag, hc]) (Ends.record ?_))
  rw [c.size_tag, c.prevAlloc_tag]
  -- the cell is a gap until its new tags are written
  have hG₀ := hG.record (t := .released c.block (c.tag p)) fun b hb => Option.some.inj hb ▸ hn
  refine Ends.bind ((hG₀.putFree (c := c.freed) rfl (Nat.le_refl _)).quiet (Quiet.formatFree _ _ _)) ?_
  intro _ h₁ hr
  obtain ⟨⟨hG₁, ht₁⟩, hj₁⟩ := hr
  refine Ends.query (hG₁.next (Nat.le_refl _)) (Ends.bind (hG₁.join.quiet (Quiet.setPrevAlloc _ _)) ?_)
  intro _ h₂ hr
  obtain ⟨⟨hL₂, ht₂⟩, hj₂⟩ := hr
  have hnew : h₂.inserted.getLast? = some c.freed.block := by
    rw [hj₂, hj₁]
    exact getLast?_inserted_push rfl
  have hcat : lo ++ below.toList ++ [c.freed] ++ (above.toList ++ hi) =
      lo ++ below.toList ++ c.freed :: (above.toList ++ hi) := by simp
  rw [hcat] at hL₂
  refine Ends.bind (hL₂.insert (c := c.freed) (by simp) rfl hn hnew) ?_
  intro _ h₃ hr
  obtain ⟨hL₃, ht₃⟩ := hr
  refine Ends.bind (hL₃.coalesce rfl hn (fun d hd => hfull d (.inl hd)) (fun d hd => hfull d (.inr hd))
    (fun _ => hf.lo) fun _ => hf.hi) ?_
  intro _ h₄ hr
  obtain ⟨rfl, hL₄, -, hp⟩ := hr
  rw [Cell.merge_freed] at hL₄ hp
  -- what merges is one stretch of the old cells
  have hmid : Sound h (lo ++ (below.toList ++ c :: above.toList) ++ hi) l := by simpa using hS
  have hS₄ := hmid.merge hL₄ hf (fun d hd => by simp [Option.mem_def.mp hd]) fun d hd => by
    simp [Option.mem_def.mp hd]
  refine ⟨(), h₄, hS₄.run_selfCheck, hS₄, .after ?_ hp⟩
  have hmark : Touches h h₁ (MetaBytes (lo ++ below.toList ++ c.freed :: (above.toList ++ hi)) h.top) :=
    ⟨ht₁.bare.trans (bare_journal _ _), fun x hx => ht₁.byte x fun ht => hx (.of_tag (by simp) ht)⟩
  have hjoin : Touches h₁ h₂ (MetaBytes (lo ++ below.toList ++ c.freed :: (above.toList ++ hi)) h₁.top) :=
    ht₂.mono fun x hx => hcat ▸ hx.meta
  exact (hmark.meta_trans hjoin).meta_trans ht₃

theorem ends_free (hS : Sound h (lo ++ below.toList ++ c :: (above.toList ++ hi)) l) (hc : c.alloc = true)
    (hf : Fenced lo below above hi) :
    Ends (free (some c.addr)) h fun _ h' =>
      Sound h' (lo ++ Cell.merge below c above :: hi)
        (((l.drop below).drop above).file (Cell.merge below c above)) ∧
      h'.bare = h.bare ∧ Keeps (lo ++ hi) h h' := by
  refine (hS.ends_free_passes hc hf).mono ?_
  intro _ h' hr
  obtain ⟨hS', hp⟩ := hr
  refine ⟨hS', hp.bare, hp.keeps hS'.toLaid fun d hd _ => ?_⟩
  rcases List.mem_append.mp hd with hd | hd <;> simp [hd]

/-! ## Allocating -/

theorem serve {t : Cell} (hS : Sound h (pre ++ t :: post) l) (ht : t.alloc = false)
    (hcut : Cut t.addr t.size a c o) :
    Ends (do
        allocateIn t.block a
        record (.allocated n t.block (← t.block.header))
        selfCheck
        return some t.block.payload) h fun r h' => r = some t.addr ∧
      Sound h' (pre ++ c :: (o.toList ++ post)) ((l.without t.block).absorb o none) ∧
      h'.bare = h.bare ∧ Keeps (pre ++ post) h h' := by
  refine Ends.bind (hS.ends_allocateIn ht hcut) ?_
  intro _ h₁ hr
  obtain ⟨hS₁, hb₁, hk₁⟩ := hr
  obtain ⟨p, hst⟩ := hS₁.stands (c := c) (by simp)
  have hhead : t.block.header h₁ = .ok (c.tag p) := Cell.block_inj.mpr hcut.addr ▸ hst.header
  refine Ends.query hhead (Ends.record ?_)
  have hS₂ := hS₁.idle (.record (e := .allocated n t.block (c.tag p)) rfl)
  exact Ends.step hS₂.run_selfCheck (Ends.pure ⟨rfl, hS₂, hb₁, hk₁⟩)

theorem run_malloc_zero (h : Heap) : malloc 0 h = .ok none h := rfl

theorem run_malloc_huge (hn : blockSize n = none) : malloc n h = .ok none h := by
  unfold malloc
  split
  · rfl
  · rw [hn]; rfl

theorem malloc_fit {t : Cell} (hS : Sound h (pre ++ t :: post) l) (hn : 0 < n) (ha : blockSize n = some a)
    (hfind : findFit a h = .ok (some t.block)) (ht : t.alloc = false) (hcut : Cut t.addr t.size a c o) :
    Ends (malloc n) h fun r h' => r = some t.addr ∧
      Sound h' (pre ++ c :: (o.toList ++ post)) ((l.without t.block).absorb o none) ∧
      h'.bare = h.bare ∧ Keeps (pre ++ post) h h' := by
  unfold malloc
  rw [if_neg (by omega), ha]
  have hrun : findOrExtend a h = .ok (some t.block) h := run_bind_query hfind
  exact Ends.step hrun (hS.serve ht hcut)

theorem alignUpOrMax_max (hf : h.Founded) (ha : blockSize n = some a) :
    alignUpOrMax (max a h.chunkSize) = max a h.chunkSize := by
  obtain ⟨hlt, hmod, -, hle⟩ := blockSize_eq_some.mp ha
  have hcm := hf.chunk_mod
  have hcl := hf.chunk_lt
  exact alignUpOrMax_of_mod (by omega) (by omega)

theorem malloc_grow {e : Cell} (hS : Sound h (lo ++ below.toList) l) (hf : Fenced lo below none [])
    (hn : 0 < n) (ha : blockSize n = some a) (hfind : findFit a h = .ok none) (he : e.addr = h.top)
    (hes : e.size = max a h.chunkSize) (hef : e.alloc = false)
    (hroom : h.source.size + e.size ≤ h.source.capacity)
    (hcut : Cut (Cell.merge below e none).addr (Cell.merge below e none).size a c o) :
    Ends (malloc n) h fun r h' => r = some c.addr ∧
      Sound h' (lo ++ c :: o.toList) ((l.drop below).absorb o none) ∧
      h.GrownBy e.size h' ∧ Keeps (lo ++ below.toList) h h' := by
  have hsize := hes.trans (alignUpOrMax_max hS.founded ha).symm
  have hfound : Ends (findOrExtend a) h fun r h' => r = some (Cell.merge below e none).block ∧
      Sound h' (lo ++ [Cell.merge below e none]) ((l.drop below).file (Cell.merge below e none)) ∧
      h.GrownBy e.size h' ∧ Keeps (lo ++ below.toList) h h' := by
    refine Ends.query hfind (Ends.step (x := get) rfl (Ends.bind (hS.extend_granted hf he hsize hef hroom) ?_))
    intro _ h₁ hr
    obtain ⟨rfl, hh⟩ := hr
    exact Ends.pure ⟨rfl, hh⟩
  have hnew : ¬ (l.drop below).Has (Cell.merge below e none).block := by
    cases hb : below with
    | some d => exact hS.linked.not_has_drop (c := d) rfl
    | none => exact hS.not_has_top (c := Cell.merge none e none) he
  unfold malloc
  rw [if_neg (by omega), ha]
  refine Ends.bind hfound ?_
  intro _ h₁ hr
  obtain ⟨rfl, hS₁, hg₁, hk₁⟩ := hr
  refine (hS₁.serve rfl hcut).mono ?_
  intro _ h₂ hr
  obtain ⟨rfl, hS₂, hb₂, hk₂⟩ := hr
  rw [Lists.file, Lists.without_push hnew] at hS₂
  refine ⟨by rw [hcut.addr], by simpa using hS₂, hg₁.trans_bare hb₂, hk₁.trans (hk₂.mono fun d hd hal => ?_)⟩
  rcases List.mem_append.mp hd with hd | hd
  · simpa using hd
  · have := hf.below d (Option.mem_toList.mp hd)
    simp [hal] at this

theorem malloc_refused (hS : Sound h w l) (ha : blockSize n = some a) (hfind : findFit a h = .ok none)
    (hroom : h.source.capacity < h.source.size + max a h.chunkSize) :
    ∃ h', malloc n h = .ok none h' ∧ h.Idle h' := by
  obtain ⟨e, he⟩ := hS.extend_refused (n := max a h.chunkSize) (by rwa [alignUpOrMax_max hS.founded ha])
  have hrun : findOrExtend a h =
      .ok none { h with journal := h.journal.push (.notExtended (max a h.chunkSize) e) } :=
    (run_bind_query hfind).trans ((run_bind (x := get) rfl).trans ((run_bind he).trans rfl))
  unfold malloc
  split
  · exact ⟨h, rfl, .refl h⟩
  · rw [ha]
    exact ⟨_, (run_bind hrun).trans rfl, .record rfl⟩

/-! ## Resizing -/

theorem realloc_eq (p : Nat) (hn : n ≠ 0) (ha : blockSize n = some a) : realloc (some p) n = (do
    if ← resize ⟨p⟩ a then
      record (.resized p n)
      selfCheck
      return some p
    else
      match ← malloc n with
      | none => return none
      | some q =>
        let kept := min n (← Block.payloadSize ⟨p⟩)
        storeBytes q (← loadBytes p kept)
        SegregatedFit.free (some p)
        record (.moved p n q)
        return some q) := by
  unfold realloc
  dsimp only
  rw [if_neg hn]
  split
  · next hnone => simp [hnone] at ha
  · next b hb =>
    obtain rfl : a = b := Option.some.inj (ha.symm.trans hb)
    rfl

theorem run_realloc_huge (p : Nat) (hn : n ≠ 0) (ha : blockSize n = none) :
    realloc (some p) n h = .ok none h := by
  unfold realloc
  dsimp only
  rw [if_neg hn, ha]; rfl

/-- What `realloc` does once the cell has its bytes in place. -/
theorem realloc_resized {Q : Heap → Prop} (hn : n ≠ 0) (ha : blockSize n = some a)
    (hr : Ends (resize c.block a) h fun r h' => r = true ∧ Q h') (hQ : ∀ h', Q h' → ∃ w l, Sound h' w l) :
    Ends (realloc (some c.addr) n) h fun r h' => r = some c.addr ∧
      ∃ h₁, Q h₁ ∧ h₁.Idle h' := by
  rw [realloc_eq c.addr hn ha]
  refine Ends.bind hr ?_
  intro _ h₁ hz
  obtain ⟨rfl, hq⟩ := hz
  obtain ⟨w, l, hS⟩ := hQ h₁ hq
  have hi : h₁.Idle { h₁ with journal := h₁.journal.push (.resized c.addr n) } := .record rfl
  exact Ends.record (Ends.step (hS.idle hi).run_selfCheck (Ends.pure ⟨rfl, h₁, hq, hi⟩))

theorem realloc_stuck {Q : Option Nat → Heap → Prop} (hn : n ≠ 0) (ha : blockSize n = some a)
    (hr : resize c.block a h = .ok false h)
    (hm : Ends (malloc n) h fun r h' => match r with
      | none => Q none h'
      | some q => Ends (do
          let kept := min n (← c.block.payloadSize)
          storeBytes q (← loadBytes c.addr kept)
          SegregatedFit.free (some c.addr)
          record (.moved c.addr n q)
          return some q) h' Q) : Ends (realloc (some c.addr) n) h Q := by
  rw [realloc_eq c.addr hn ha]
  refine Ends.step hr (Ends.bind hm ?_)
  intro result h' hq
  rcases result with _ | q
  · exact Ends.pure hq
  · exact hq

end Sound

end SegregatedFit
