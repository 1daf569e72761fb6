import SegregatedFit.Proofs.Merging

/-!
# Placing

Cells that are in no list become one allocated cell and, if enough is left over,
a free cell, which is merged with a free cell above it. What is written lies in
the tags and links of the cells that come about, so that an allocated cell at the
same address keeps the bytes that it still holds.
-/

namespace SegregatedFit

variable {h : Heap} {pre post hi mid w : List Cell} {above : Option Cell} {l : Lists} {b c r : Cell}
  {n : Nat}

/-- What becomes of `total` bytes at `a` when `n` are asked for: the allocated cell `c`,
and the free cell `o` unless too little is left over. -/
structure Cut (a total n : Nat) (c : Cell) (o : Option Cell) : Prop where
  addr : c.addr = a
  alloc : c.alloc = true
  le : n ≤ total
  size : c.size = if o.isSome then n else total
  rest : ∀ r ∈ o, r.addr = a + n ∧ r.size = total - n ∧ r.alloc = false
  whole : o = none → total < n + 32

theorem exists_cut {a total : Nat} (ha : a % 16 = 0) (ht : total % 16 = 0) (hn : n % 16 = 0)
    (h32 : 32 ≤ n) (hle : n ≤ total) : ∃ c o, Cut a total n c o := by
  by_cases hr : n + 32 ≤ total
  · refine ⟨⟨a, n, true, ha, hn, h32⟩, some ⟨a + n, total - n, false, by omega, by omega, by omega⟩,
      rfl, rfl, hle, rfl, ?_, by simp⟩
    intro _ hq
    cases hq
    exact ⟨rfl, rfl, rfl⟩
  · exact ⟨⟨a, total, true, ha, ht, by omega⟩, none, rfl, rfl, hle, rfl, by simp, fun _ => by omega⟩

theorem Cut.le_size {a total : Nat} {o : Option Cell} (hc : Cut a total n c o) : n ≤ c.size := by
  have hle := hc.le
  rw [hc.size]
  split <;> omega

theorem Cut.size_eq {a total : Nat} {o : Option Cell} (hc : Cut a total n c o) :
    c.size = if n + 32 ≤ total then n else total := by
  have hle := hc.le
  have hsize := hc.size
  cases o with
  | none =>
    rw [if_neg (Nat.not_le_of_lt (hc.whole rfl))]
    exact hsize
  | some r =>
    have hr := (hc.rest r rfl).2.1
    have hrs := r.le_size
    rw [if_pos (by omega)]
    exact hsize

theorem Cut.abut {a total : Nat} {o : Option Cell} (hc : Cut a total n c o) :
    Abut a (c :: o.toList) (a + total) := by
  have hle := hc.le
  have hsize := hc.size
  refine ⟨hc.addr, ?_⟩
  cases o with
  | none => rw [hsize]; rfl
  | some r =>
    obtain ⟨hra, hrs, -⟩ := hc.rest r rfl
    simp only [Option.isSome_some, if_true] at hsize
    refine ⟨hra.trans (by rw [hsize]), ?_⟩
    show a + c.size + r.size = a + total
    omega

def Cell.absorb : Option Cell → Option Cell → Option Cell
  | none, above => above
  | some r, above => some (merge none r above)

def Lists.absorb (l : Lists) : Option Cell → Option Cell → Lists
  | none, _ => l
  | some r, above => (l.drop above).file (Cell.merge none r above)

theorem Cut.absorb_none {a total : Nat} {o : Option Cell} (hc : Cut a total n c o) :
    Cell.absorb o none = o := by
  cases o with
  | none => rfl
  | some r => rw [Cell.absorb, Cell.merge_none (hc.rest r rfl).2.2]

theorem Lists.absorb_has {o : Option Cell} (hr : r ∈ Cell.absorb o above)
    (ha : ∀ d ∈ above, l.Has d.block) : (l.absorb o above).Has r.block := by
  cases o with
  | none => exact ha r hr
  | some q =>
    obtain rfl : Cell.merge none q above = r := Option.some.inj hr
    exact has_push.mpr (.inl rfl)

theorem Lists.Has.absorb {b : Block} {o : Option Cell} (hb : l.Has b) (ha : ∀ d ∈ above, b ≠ d.block) :
    (l.absorb o above).Has b := by
  cases o with
  | none => exact hb
  | some q => exact has_push.mpr (.inr (hb.drop ha))

theorem Gap.split {β : Type} {f : Block → Action β} {Q : β → Heap → Prop} {p q : Bool}
    (hG : Gap h pre c.addr p (c.addr + (c.size + r.size)) q post l) (hca : c.alloc = true)
    (hrc : r.addr = c.addr + c.size) (hrf : r.alloc = false)
    (hf : ∀ h', Laid h' (pre ++ c :: r :: post) l →
      Touches h h' (MetaBytes (pre ++ c :: r :: post) h.top) → Ends (f r.block) h' Q) :
    Ends (do
        c.block.formatAllocated c.size p
        let rest ← c.block.next
        rest.formatFree r.size true
        (← rest.next).setPrevAlloc false
        f rest) h Q := by
  refine Ends.bind (hG.putAllocated hca (by omega)) ?_
  intro _ h₁ hr
  obtain ⟨hG₁, ht₁⟩ := hr
  have hrb : (⟨c.addr + c.size⟩ : Block) = r.block := by rw [← hrc]; rfl
  refine Ends.query (hG₁.next (by omega)) ?_
  rw [hrb]
  rw [← hrc, ← Nat.add_assoc, ← hrc] at hG₁
  refine Ends.bind (hG₁.putFree hrf (Nat.le_refl _)) ?_
  intro _ h₂ hr
  obtain ⟨hG₂, ht₂⟩ := hr
  refine Ends.query (hG₂.next (Nat.le_refl _)) ?_
  refine Ends.bind hG₂.join ?_
  intro _ h₃ hr
  obtain ⟨hL₃, ht₃⟩ := hr
  rw [top_of_bare (ht₁.bare_trans ht₂)] at ht₃
  rw [List.append_assoc, List.append_assoc, List.singleton_append, List.singleton_append] at hL₃
  have hmeta : ∀ d, (d = c ∨ d = r) → ∀ x, d.TagByte x → MetaBytes (pre ++ c :: r :: post) h.top x :=
    fun d hd x hx => .inr ⟨d, by rcases hd with rfl | rfl <;> simp, .inl hx⟩
  refine hf h₃ hL₃ (((ht₁.mono (hmeta c (.inl rfl))).trans (ht₂.mono (hmeta r (.inr rfl)))).trans
    (ht₃.mono fun x hx => ?_))
  have hfirst : MetaBytes (pre ++ [c, r] ++ post) h.top x := hx.meta
  simpa using hfirst

theorem Laid.carveSplit (hL : Laid h (pre ++ (b :: mid) ++ (above.toList ++ hi)) l)
    (hm : ∀ d ∈ b :: mid, ¬ l.Has d.block) (hcb : c.addr = b.addr) (hca : c.alloc = true)
    (hrc : r.addr = c.addr + c.size) (hrf : r.alloc = false)
    (hsum : c.size + r.size = ((b :: mid).map Cell.size).sum)
    (habove : ∀ d ∈ above, d.alloc = false ∧ l.Has d.block)
    (hhi : above = none → ∀ d ∈ hi.head?, d.alloc = true) :
    Ends (carve b.block (c.size + r.size) c.size) h fun _ h' =>
      Laid h' (pre ++ c :: Cell.merge none r above :: hi) ((l.drop above).file (Cell.merge none r above)) ∧
      Touches h h' (MetaBytes (pre ++ c :: r :: (above.toList ++ hi)) h.top) := by
  obtain ⟨p, q, hG, hst, -⟩ := hL.gap hm
  rw [← hcb, ← hsum] at hG
  have hbc : b.block = c.block := Cell.block_inj.mpr hcb.symm
  -- what is left over begins inside the old cells, where no listed cell begins
  have hnr : ¬ l.Has r.block := by
    have hcs := c.le_size
    have hrs := r.le_size
    exact hG.not_has (by simp only [Cell.block]; omega) (by simp only [Cell.block]; omega)
  refine Ends.query hst.header (Ends.except (checkedSub_of_le (Nat.le_add_right _ _)) ?_)
  rw [Cell.prevAlloc_tag, Nat.add_sub_cancel_left, hbc]
  rw [if_pos r.le_size]
  refine hG.split hca hrc hrf fun h₁ hL₁ ht₁ => Ends.record ?_
  have he : Event.inserted (.split c.block (c.size + r.size) c.size r.block) = some r.block := rfl
  generalize Event.split c.block (c.size + r.size) c.size r.block = e at he
  have hL₁' := hL₁.record (e := e) fun b hb => by
    rw [he] at hb
    exact Option.some.inj hb ▸ hnr
  refine Ends.bind (hL₁'.insert (by simp) hrf hnr (getLast?_inserted_push he)) ?_
  intro _ h₂ hr
  obtain ⟨hL₂, ht₂⟩ := hr
  have hw : pre ++ c :: r :: (above.toList ++ hi) =
      pre ++ [c] ++ (none : Option Cell).toList ++ r :: (above.toList ++ hi) := by simp
  rw [hw] at hL₂
  refine Ends.bind (hL₂.coalesce hrf hnr (by simp) habove (fun _ d hd => ?_) hhi) ?_
  · rw [List.getLast?_concat] at hd
    exact Option.some.inj hd ▸ hca
  intro _ h₃ hr
  obtain ⟨-, hL₃, ht₃, -⟩ := hr
  rw [← hw] at ht₃
  exact Ends.pure ⟨by simpa using hL₃, ((ht₁.record e).meta_trans ht₂).meta_trans ht₃⟩

theorem Laid.carveWhole (hL : Laid h (pre ++ (b :: mid) ++ post) l)
    (hm : ∀ d ∈ b :: mid, ¬ l.Has d.block) (hcb : c.addr = b.addr) (hca : c.alloc = true)
    (hsum : c.size = ((b :: mid).map Cell.size).sum) (hn : n ≤ c.size) (hlt : c.size < n + 32) :
    Ends (carve b.block c.size n) h fun _ h' =>
      Laid h' (pre ++ c :: post) l ∧ Touches h h' (MetaBytes (pre ++ c :: post) h.top) := by
  obtain ⟨p, q, hG, hst, -⟩ := hL.gap hm
  rw [← hcb, ← hsum] at hG
  have hbc : b.block = c.block := Cell.block_inj.mpr hcb.symm
  refine Ends.query hst.header (Ends.except (checkedSub_of_le hn) ?_)
  rw [Cell.prevAlloc_tag, hbc, if_neg (by simp only [minBlock]; omega)]
  refine Ends.bind (hG.putAllocated hca (Nat.le_refl _)) ?_
  intro _ h₁ hr
  obtain ⟨hG₁, ht₁⟩ := hr
  refine Ends.query (hG₁.next (Nat.le_refl _)) (hG₁.join.mono ?_)
  intro _ h₂ hr
  obtain ⟨hL₂, ht₂⟩ := hr
  rw [List.append_assoc, List.singleton_append] at hL₂
  rw [top_of_bare ht₁.bare] at ht₂
  refine ⟨hL₂, (ht₁.mono fun x hx => ?_).trans (ht₂.mono fun x hx => ?_)⟩
  · exact .inr ⟨c, by simp, .inl hx⟩
  · have hmeta : MetaBytes (pre ++ [c] ++ post) _ x := hx.meta
    simpa using hmeta

theorem Laid.carve {total : Nat} {o : Option Cell}
    (hL : Laid h (pre ++ (b :: mid) ++ (above.toList ++ hi)) l) (hm : ∀ d ∈ b :: mid, ¬ l.Has d.block)
    (hsum : total = ((b :: mid).map Cell.size).sum) (hcut : Cut b.addr total n c o)
    (habove : ∀ d ∈ above, d.alloc = false ∧ l.Has d.block) (hhi : ∀ d ∈ hi.head?, d.alloc = true) :
    Ends (carve b.block total n) h fun _ h' =>
      Laid h' (pre ++ c :: ((Cell.absorb o above).toList ++ hi)) (l.absorb o above) ∧
      h'.bare = h.bare ∧ Keeps (c :: (pre ++ (above.toList ++ hi))) h h' := by
  have hle := hcut.le
  have hsize := hcut.size
  have habut : Abut (h.source.lo + 32) (pre ++ (c :: o.toList) ++ (above.toList ++ hi)) h.top := by
    refine hL.abut.replace fun {a d} hab => ?_
    obtain rfl := hab.1
    rw [hab.end_eq, ← hsum]
    exact hcut.abut
  have hkeeps : ∀ {h'}, Touches h h' (MetaBytes (pre ++ (c :: o.toList) ++ (above.toList ++ hi)) h.top) →
      h'.bare = h.bare ∧ Keeps (c :: (pre ++ (above.toList ++ hi))) h h' := fun ht =>
    ⟨ht.bare, (ht.keeps habut).mono fun d hd _ => by simp at hd ⊢; grind⟩
  cases o with
  | none =>
    obtain rfl : c.size = total := hsize
    refine (hL.carveWhole hm hcut.addr hcut.alloc hsum hle (hcut.whole rfl)).mono ?_
    intro _ h' hr
    obtain ⟨hL', ht⟩ := hr
    exact ⟨hL', hkeeps (by simpa using ht)⟩
  | some r =>
    obtain rfl : c.size = n := hsize
    obtain ⟨hra, hrs, hrf⟩ := hcut.rest r rfl
    have htotal : total = c.size + r.size := by omega
    rw [htotal] at hsum ⊢
    refine (hL.carveSplit hm hcut.addr hcut.alloc (hcut.addr ▸ hra) hrf hsum habove fun _ => hhi).mono ?_
    intro _ h' hr
    obtain ⟨hL', ht⟩ := hr
    exact ⟨hL', hkeeps (by simpa using ht)⟩

end SegregatedFit
