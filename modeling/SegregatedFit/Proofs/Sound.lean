import Mathlib.Data.List.Chain
import SegregatedFit.Proofs.Placing

/-!
# Sound heaps

Between operations the free cells of a heap are all listed, and no two of them lie
side by side: this is `Sound`, the invariant of the allocator. Releasing a cell,
allocating in a free one and resizing one in place keep it. Each is described by
the walk and the lists before and after it, and keeps the bytes that other
allocated cells hold.
-/

namespace SegregatedFit

/-! ## Free cells apart -/

def Parted (w : List Cell) : Prop := w.IsChain fun c d => c.alloc = true ∨ d.alloc = true

/-- What is around a cell: a free cell below and above it or none, and allocated cells
beyond these. -/
structure Fenced (lo : List Cell) (below above : Option Cell) (hi : List Cell) : Prop where
  below : ∀ d ∈ below, d.alloc = false
  above : ∀ d ∈ above, d.alloc = false
  lo : ∀ d ∈ lo.getLast?, d.alloc = true
  hi : ∀ d ∈ hi.head?, d.alloc = true

namespace Parted

variable {lo hi xs ys : List Cell} {c : Cell}

theorem left (h : Parted (xs ++ ys)) : Parted xs := List.IsChain.left_of_append h

theorem right (h : Parted (xs ++ ys)) : Parted ys := List.IsChain.right_of_append h

theorem tail (h : Parted (c :: xs)) : Parted xs := (List.isChain_cons.mp h).2

theorem last_of_free (h : Parted (xs ++ c :: ys)) (hc : c.alloc = false) :
    ∀ d ∈ xs.getLast?, d.alloc = true := fun d hd =>
  ((List.isChain_append.mp h).2.2 d hd c rfl).resolve_right (by simp [hc])

theorem head_of_free (h : Parted (c :: ys)) (hc : c.alloc = false) : ∀ d ∈ ys.head?, d.alloc = true :=
  fun d hd => ((List.isChain_cons.mp h).1 d hd).resolve_left (by simp [hc])

theorem cons_alloc (h : Parted ys) (hc : c.alloc = true) : Parted (c :: ys) :=
  List.isChain_cons.mpr ⟨fun _ _ => .inl hc, h⟩

theorem cons_free (h : Parted ys) (hhi : ∀ d ∈ ys.head?, d.alloc = true) : Parted (c :: ys) :=
  List.isChain_cons.mpr ⟨fun d hd => .inr (hhi d hd), h⟩

theorem insert_alloc (hx : Parted xs) (hy : Parted ys) (hc : c.alloc = true) : Parted (xs ++ c :: ys) := by
  refine List.isChain_append.mpr ⟨hx, hy.cons_alloc hc, fun d _ e he => ?_⟩
  obtain rfl : c = e := Option.some.inj he
  exact .inr hc

theorem insert_free (hx : Parted xs) (hy : Parted ys) (hlo : ∀ d ∈ xs.getLast?, d.alloc = true)
    (hhi : ∀ d ∈ ys.head?, d.alloc = true) : Parted (xs ++ c :: ys) :=
  List.isChain_append.mpr ⟨hx, hy.cons_free hhi, fun d hd _ _ => .inl (hlo d hd)⟩

theorem toList_append (h : Parted ys) (hhi : ∀ d ∈ ys.head?, d.alloc = true) (o : Option Cell) :
    Parted (o.toList ++ ys) := by
  cases o with
  | none => exact h
  | some d => exact h.cons_free hhi

theorem above (h : Parted hi) : ∃ (above : Option Cell) (hi' : List Cell), hi = above.toList ++ hi' ∧
    (∀ d ∈ above, d.alloc = false) ∧ ∀ d ∈ hi'.head?, d.alloc = true := by
  cases hi with
  | nil => exact ⟨none, [], rfl, by simp, by simp⟩
  | cons d hi =>
    cases hd : d.alloc with
    | true => exact ⟨none, d :: hi, rfl, by simp, by simp [hd]⟩
    | false => exact ⟨some d, hi, rfl, by simp [hd], h.head_of_free hd⟩

theorem below (h : Parted lo) : ∃ (below : Option Cell) (lo' : List Cell), lo = lo' ++ below.toList ∧
    (∀ d ∈ below, d.alloc = false) ∧ ∀ d ∈ lo'.getLast?, d.alloc = true := by
  rcases List.eq_nil_or_concat lo with rfl | ⟨lo, d, rfl⟩
  · exact ⟨none, [], rfl, by simp, by simp⟩
  · rw [List.concat_eq_append] at *
    cases hd : d.alloc with
    | true => exact ⟨none, lo ++ [d], by simp, by simp, by simp [hd]⟩
    | false => exact ⟨some d, lo, rfl, by simp [hd], h.last_of_free hd⟩

theorem fence (h : Parted (lo ++ c :: hi)) : ∃ lo' below above hi',
    lo = lo' ++ below.toList ∧ hi = above.toList ++ hi' ∧ Fenced lo' below above hi' := by
  obtain ⟨above, hi', rfl, ha, hhi⟩ := h.right.tail.above
  obtain ⟨below, lo', rfl, hb, hlo⟩ := h.left.below
  exact ⟨lo', below, above, hi', rfl, rfl, hb, ha, hlo, hhi⟩

end Parted

/-! ## The invariant -/

structure Sound (h : Heap) (w : List Cell) (l : Lists) : Prop extends Laid h w l where
  full : ∀ c ∈ w, c.alloc = false → l.Has c.block
  parted : Parted w

namespace Sound

variable {h h' : Heap} {w pre mid mid' post lo hi : List Cell} {l l' : Lists} {c d : Cell}
  {below above : Option Cell} {n : Nat}

theorem idle (hS : Sound h w l) (hi : h.Idle h') : Sound h' w l :=
  ⟨hS.toLaid.idle hi, hS.full, hS.parted⟩

/-- Some cells are replaced: the lists have to hold the new free ones, and all others as before. -/
theorem replace (hS : Sound h (pre ++ mid ++ post) l) (hL : Laid h' (pre ++ mid' ++ post) l')
    (hnew : ∀ c ∈ mid', c.alloc = false → l'.Has c.block)
    (hold : ∀ b, l.Has b → (∀ c ∈ mid, b ≠ c.block) → l'.Has b)
    (hp : Parted (pre ++ mid' ++ post)) : Sound h' (pre ++ mid' ++ post) l' := by
  refine ⟨hL, fun c hc hf => ?_, hp⟩
  have hord := hS.abut.nodup
  by_cases hm : c ∈ mid'
  · exact hnew c hm hf
  have hcw : c ∈ pre ++ mid ++ post := by simp at hc ⊢; grind
  refine hold _ (hS.full c hcw hf) fun d hd he => ?_
  have heq := Cell.block_inj.mp he
  simp only [List.map_append, List.nodup_append] at hord
  obtain ⟨⟨-, -, hxy⟩, -, hyz⟩ := hord
  simp only [List.mem_append, List.mem_map] at hc hyz hxy
  rcases hc with (hc | hc) | hc
  · exact hxy _ ⟨c, hc, rfl⟩ _ ⟨d, hd, rfl⟩ heq
  · exact hm hc
  · exact hyz _ (.inr ⟨d, hd, rfl⟩) _ ⟨c, hc, rfl⟩ heq.symm

theorem merge (hS : Sound h (lo ++ mid ++ hi) l)
    (hL : Laid h' (lo ++ Cell.merge below c above :: hi)
      (((l.drop below).drop above).file (Cell.merge below c above)))
    (hf : Fenced lo below above hi) (hbelow : ∀ d ∈ below, d ∈ mid) (habove : ∀ d ∈ above, d ∈ mid) :
    Sound h' (lo ++ Cell.merge below c above :: hi)
      (((l.drop below).drop above).file (Cell.merge below c above)) := by
  have hp : Parted (lo ++ Cell.merge below c above :: hi) :=
    hS.parted.left.left.insert_free hS.parted.right hf.lo hf.hi
  rw [show lo ++ Cell.merge below c above :: hi = lo ++ [Cell.merge below c above] ++ hi by simp] at hL hp ⊢
  refine hS.replace hL (fun d hd _ => ?_) (fun b hb hne => ?_) hp
  · obtain rfl := List.mem_singleton.mp hd
    exact Lists.has_push.mpr (.inl rfl)
  · refine Lists.has_push.mpr (.inr ?_)
    exact (hb.drop fun d hd => hne d (hbelow d hd)).drop fun d hd => hne d (habove d hd)

/-! ## Allocating in a cell -/

theorem cut (hS : Sound h (pre ++ mid ++ post) l) {o : Option Cell}
    (hL : Laid h' (pre ++ (c :: (Cell.absorb o above).toList) ++ post) (l'.absorb o above))
    (hc : c.alloc = true) (hhi : ∀ d ∈ post.head?, d.alloc = true)
    (habove : ∀ d ∈ above, l'.Has d.block ∧ d ∈ mid)
    (hold : ∀ b, l.Has b → (∀ c ∈ mid, b ≠ c.block) → l'.Has b) :
    Sound h' (pre ++ (c :: (Cell.absorb o above).toList) ++ post) (l'.absorb o above) := by
  refine hS.replace hL (fun d hd hf => ?_) (fun b hb hne => ?_) ?_
  · rcases List.mem_cons.mp hd with rfl | hd
    · simp [hc] at hf
    · exact Lists.absorb_has (Option.mem_toList.mp hd) fun a ha => (habove a ha).1
  · exact (hold b hb hne).absorb fun a ha => hne a (habove a ha).2
  · rw [List.append_assoc, List.cons_append]
    exact hS.parted.left.left.insert_alloc (hS.parted.right.toList_append hhi _) hc

theorem ends_allocateIn {t : Cell} {o : Option Cell} (hS : Sound h (pre ++ t :: post) l)
    (ht : t.alloc = false) (hcut : Cut t.addr t.size n c o) :
    Ends (allocateIn t.block n) h fun _ h' =>
      Sound h' (pre ++ c :: (o.toList ++ post)) ((l.without t.block).absorb o none) ∧
      h'.bare = h.bare ∧ Keeps (pre ++ post) h h' := by
  have htw : t ∈ pre ++ t :: post := by simp
  have hhi := hS.parted.right.head_of_free ht
  refine Ends.query (hS.size htw) (Ends.bind (hS.remove htw (hS.full t htw ht)) ?_)
  intro _ h₁ hr
  obtain ⟨hL₁, ht₁⟩ := hr
  have hk₁ := ht₁.keeps hS.abut
  have hw : pre ++ t :: post = pre ++ [t] ++ ((none : Option Cell).toList ++ post) := by simp
  rw [hw] at hL₁ hS
  refine (hL₁.carve (o := o) (by simpa using hS.linked.not_has_without t.block) (by simp) hcut
    (by simp) hhi).mono ?_
  intro _ h₂ hr
  obtain ⟨hL₂, hb₂, hk₂⟩ := hr
  have hS₂ := hS.cut (by simpa using hL₂) hcut.alloc hhi (by simp) fun b hb hne =>
    hb.without (hne t (by simp))
  rw [hcut.absorb_none] at hS₂
  refine ⟨by simpa using hS₂, hb₂.trans ht₁.bare, ?_⟩
  refine (hk₁.mono fun d hd _ => ?_).trans (hk₂.mono fun d hd _ => ?_) <;> simp at hd ⊢ <;> grind

/-! ## Resizing a cell in place -/

theorem resizeDown {o : Option Cell} (hS : Sound h (pre ++ c :: (above.toList ++ post)) l)
    (hc : c.alloc = true) (habove : ∀ a ∈ above, a.alloc = false) (hhi : ∀ a ∈ post.head?, a.alloc = true)
    (hcut : Cut c.addr c.size n d o) :
    Ends (resize c.block n) h fun r h' => r = true ∧
      Sound h' (pre ++ d :: ((Cell.absorb o above).toList ++ post)) (l.absorb o above) ∧
      h'.bare = h.bare ∧ Keeps (d :: (pre ++ post)) h h' := by
  have hcw : c ∈ pre ++ c :: (above.toList ++ post) := by simp
  have hlisted : ∀ a ∈ above, a.alloc = false ∧ l.Has a.block := fun a ha =>
    ⟨habove a ha, hS.full a (by simp [Option.mem_def.mp ha]) (habove a ha)⟩
  refine Ends.query (hS.size hcw) ?_
  rw [if_pos hcut.le]
  have hw : pre ++ c :: (above.toList ++ post) = pre ++ [c] ++ (above.toList ++ post) := by simp
  have hL := hS.toLaid
  rw [hw] at hL
  refine Ends.bind (hL.carve (by simpa using hS.unlisted hcw hc) (by simp) hcut hlisted hhi) ?_
  intro _ h' hr
  obtain ⟨hL', hb, hk⟩ := hr
  rw [show pre ++ c :: (above.toList ++ post) = pre ++ (c :: above.toList) ++ post by simp] at hS
  have hS' := hS.cut (by simpa using hL') hcut.alloc hhi (fun a ha => ⟨(hlisted a ha).2, by
    simp [Option.mem_def.mp ha]⟩) fun b hb _ => hb
  refine Ends.pure ⟨rfl, by simpa using hS', hb, hk.mono fun d hd _ => ?_⟩
  simp at hd ⊢; grind

theorem resizeUp {a : Cell} {o : Option Cell} (hS : Sound h (pre ++ c :: a :: post) l)
    (hc : c.alloc = true) (ha : a.alloc = false) (hn : c.size < n)
    (hcut : Cut c.addr (c.size + a.size) n d o) :
    Ends (resize c.block n) h fun r h' => r = true ∧
      Sound h' (pre ++ d :: (o.toList ++ post)) ((l.without a.block).absorb o none) ∧
      h'.bare = h.bare ∧ Keeps (pre ++ c :: post) h h' := by
  have hcw : c ∈ pre ++ c :: a :: post := by simp
  have haw : a ∈ pre ++ c :: a :: post := by simp
  have hhi : ∀ d ∈ post.head?, d.alloc = true := hS.parted.right.tail.head_of_free ha
  have htop := hS.founded.top_lt
  have hsum := hS.abut.bounds a haw
  have hord := hS.abut
  have hcle := hcut.le
  rw [abut_append] at hord
  obtain ⟨e, -, he, hea, -⟩ := hord
  refine Ends.query (hS.size hcw) ?_
  rw [if_neg (by omega)]
  have hL : Laid h (pre ++ c :: ((some a).toList ++ post)) l := hS.toLaid
  have hfa := hL.freeAfter (by simpa using ha) (by simp)
  refine Ends.query hfa (Ends.query (hS.size haw) (Ends.except (checkedAdd_of_lt (by omega)) ?_))
  rw [if_neg (by omega)]
  refine Ends.bind (hS.remove haw (hS.full a haw ha)) ?_
  intro _ h₁ hr
  obtain ⟨hL₁, ht₁⟩ := hr
  have hk₁ := ht₁.keeps hS.abut
  have hw : pre ++ c :: a :: post = pre ++ [c, a] ++ ((none : Option Cell).toList ++ post) := by simp
  have hnc := hS.unlisted hcw hc
  rw [hw] at hL₁ hS
  refine Ends.bind (hL₁.carve (o := o) ?_ (by simp) hcut (by simp) hhi) ?_
  · simp only [List.forall_mem_cons]
    exact ⟨fun hh => hnc hh.of_without, hS.linked.not_has_without a.block, by simp⟩
  intro _ h₂ hr
  obtain ⟨hL₂, hb₂, hk₂⟩ := hr
  have hS₂ := hS.cut (by simpa using hL₂) hcut.alloc hhi (by simp) fun b hb hne =>
    hb.without (hne a (by simp))
  rw [hcut.absorb_none] at hS₂
  refine Ends.pure ⟨rfl, by simpa using hS₂, hb₂.trans ht₁.bare, ?_⟩
  refine (hk₁.mono fun e he _ => ?_).trans fun x ⟨e, he, hal, hx⟩ => ?_
  · simp at he ⊢; grind
  -- the cell holds what it held before
  have hmem : e = c ∨ e ∈ pre ++ ((none : Option Cell).toList ++ post) := by simp at he ⊢; grind
  rcases hmem with rfl | he
  · have hda := hcut.addr
    have hds := hcut.le_size
    have := hx.2
    exact hk₂ x ⟨d, by simp, hcut.alloc, hda ▸ hx.1, by omega⟩
  · exact hk₂ x ⟨e, List.mem_cons_of_mem _ he, hal, hx⟩

theorem resizeStuck (hS : Sound h (pre ++ c :: (above.toList ++ post)) l)
    (habove : ∀ a ∈ above, a.alloc = false) (hhi : ∀ a ∈ post.head?, a.alloc = true)
    (hn : c.size + Cell.sizeOf above < n) : resize c.block n h = .ok false h := by
  have hcw : c ∈ pre ++ c :: (above.toList ++ post) := by simp
  have hfa := hS.freeAfter habove fun _ => hhi
  refine (run_bind_query (hS.size hcw)).trans ?_
  rw [if_neg (by omega)]
  refine (run_bind_query hfa).trans ?_
  cases above with
  | none => rfl
  | some a =>
    have haw : a ∈ pre ++ c :: ((some a).toList ++ post) := by simp
    have hw : pre ++ c :: ((some a).toList ++ post) = pre ++ [c, a] ++ post := by simp
    have hle := (hw ▸ hS.abut).sum_le
    have htop := hS.founded.top_lt
    refine (run_bind_query (hS.size haw)).trans ?_
    refine (run_bind_except (checkedAdd_of_lt ?_)).trans ?_
    · simp only [List.map_cons, List.map_nil, List.sum_cons, List.sum_nil] at hle
      omega
    · rw [if_pos (show c.size + a.size < n from hn)]; rfl

end Sound

end SegregatedFit
