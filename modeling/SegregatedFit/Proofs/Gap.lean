import SegregatedFit.Proofs.Laid

/-!
# Gaps

While blocks are split and merged, a stretch of the heap belongs to no cell: what
its bytes say is left behind. A gap is entered from a tiling by giving up cells
that are in no list, it is filled with cells from below, and it is closed when
nothing of it is left and the block above it knows the last of them.
-/

namespace SegregatedFit

/-- The cells `pre` reach from the first block to `a` and the cells `post` from `e` to
the epilogue. The block before `a` is allocated if `p`; the block at `e` takes the
one before it to be allocated if `q`. -/
structure Gap (h : Heap) (pre : List Cell) (a : Nat) (p : Bool) (e : Nat) (q : Bool)
    (post : List Cell) (l : Lists) : Prop where
  founded : h.Founded
  below : Stretch h.memory (h.source.lo + 32) true pre a p
  above : Tiles h.memory h.top e q post
  linked : Linked h l
  filed : ∀ k, ∀ b ∈ l k, ∃ c ∈ pre ++ post,
    c.block = b ∧ c.alloc = false ∧ SizeClass.ofSize c.size = k

variable {h : Heap} {pre mid post w : List Cell} {a e : Nat} {p q : Bool} {l : Lists} {c : Cell}

theorem Laid.gap (hL : Laid h (pre ++ (c :: mid) ++ post) l) (hm : ∀ d ∈ c :: mid, ¬ l.Has d.block) :
    ∃ p q, Gap h pre c.addr p (c.addr + ((c :: mid).map Cell.size).sum) q post l ∧ c.Stands h p ∧
      q = ((c :: mid).getLast?.map Cell.alloc).getD p := by
  have hb := hL.abut.bounds c (by simp)
  obtain ⟨e, q, hpm, hpost⟩ := tiles_append.mp hL.tiles
  obtain ⟨a, p, hpre, hmid⟩ := stretch_append.mp hpm
  have he := hmid.abut.end_eq
  obtain rfl := hmid.1
  subst he
  refine ⟨p, q, ⟨hL.founded, hpre, hpost, hL.linked, fun k b hb => ?_⟩, ?_, hmid.last⟩
  · obtain ⟨d, hd, rfl, hf, hk⟩ := hL.filed k b hb
    have hnm : d ∉ c :: mid := fun hdm => hm d hdm ⟨k, hb⟩
    refine ⟨d, ?_, rfl, hf, hk⟩
    rcases List.mem_append.mp hd with hd | hd
    · exact List.mem_append_left _ ((List.mem_append.mp hd).resolve_right hnm)
    · exact List.mem_append_right _ hd
  · exact ⟨hmid.2.1, by omega, hb.2, hL.founded.top_lt⟩

namespace Gap

theorem close (hG : Gap h pre a p a p post l) : Laid h (pre ++ post) l :=
  ⟨hG.founded, tiles_append.mpr ⟨a, p, hG.below, hG.above⟩, hG.linked, hG.filed⟩

theorem record (hG : Gap h pre a p e q post l) {t : Event} (ht : ∀ b ∈ t.inserted, ¬ l.Has b) :
    Gap { h with journal := h.journal.push t } pre a p e q post l :=
  ⟨hG.founded.of_bare (bare_journal _ _), hG.below, hG.above, hG.linked.record ht, hG.filed⟩

theorem le_addr (hG : Gap h pre a p e q post l) : h.source.lo + 32 ≤ a := hG.below.abut.le

theorem le_top (hG : Gap h pre a p e q post l) : e ≤ h.top := hG.above.abut.le

theorem not_has (hG : Gap h pre a p e q post l) {b : Block} (hlo : a ≤ b.payload) (hhi : b.payload < e) :
    ¬ l.Has b := by
  intro hr
  obtain ⟨k, hk⟩ := hr
  obtain ⟨d, hd, rfl, -, -⟩ := hG.filed k b hk
  have := d.le_size
  simp only [Cell.block] at hlo hhi
  rcases List.mem_append.mp hd with hd | hd
  · have := hG.below.abut.bounds d hd; omega
  · have := hG.above.abut.bounds d hd; omega

theorem next (hG : Gap h (pre ++ [c]) a p e q post l) (hae : a ≤ e) :
    c.block.next h = .ok ⟨a⟩ := by
  have hhi := hG.le_top
  have hle := hG.below.abut
  obtain ⟨b, r, hpre, hc⟩ := stretch_append.mp hG.below
  have hb := hpre.abut.le
  obtain ⟨rfl, ht, hend, -⟩ := hc
  have hst : c.Stands h r := ⟨ht, by omega, by omega, hG.founded.top_lt⟩
  rw [hst.next, hend]

theorem put (hG : Gap h pre c.addr p e q post l) (hce : c.addr + c.size ≤ e) :
    Ends (c.block.setTags (c.tag p)) h fun _ h' =>
      Gap h' (pre ++ [c]) (c.addr + c.size) c.alloc e q post l ∧ Touches h h' c.TagByte := by
  have hlo := hG.le_addr
  have hhi := hG.le_top
  have htop := hG.founded.top_lt
  have hsz := c.le_size
  refine ((c.ends_setTags (by omega) (by omega) htop p).quiet (Quiet.setTags c.block _)).mono ?_
  intro _ h' hr
  obtain ⟨⟨hh, hm, ht⟩, hj⟩ := hr
  refine ⟨⟨hG.founded.of_bare ht.bare, ?_, ?_, hG.linked.congr ht.bare hh hj ?_, fun k b hb => ?_⟩, ht⟩
  · rw [hm, source_of_bare ht.bare]
    exact hG.below.snoc (by omega) (by omega)
  · rw [hm, top_of_bare ht.bare]
    exact hG.above.putTag_below (by omega) hce
  · intro b hr x hx₁ hx₂
    obtain ⟨k, hk⟩ := hr
    obtain ⟨d, hd, rfl, -, -⟩ := hG.filed k b hk
    have hds := d.le_size
    simp only [Cell.block] at hx₁ hx₂
    refine ht.byte x (Cell.not_tagByte_of_outside ?_)
    rcases List.mem_append.mp hd with hd | hd
    · have := hG.below.abut.bounds d hd; omega
    · have := hG.above.abut.bounds d hd; omega
  · obtain ⟨d, hd, hdb⟩ := hG.filed k b hb
    exact ⟨d, by simp only [List.mem_append] at hd ⊢; grind, hdb⟩

theorem putAllocated (hG : Gap h pre c.addr p e q post l) (hal : c.alloc = true)
    (hce : c.addr + c.size ≤ e) :
    Ends (c.block.formatAllocated c.size p) h fun _ h' =>
      Gap h' (pre ++ [c]) (c.addr + c.size) true e q post l ∧ Touches h h' c.TagByte := by
  have hput := hG.put hce
  rw [Cell.tag, hal] at hput
  exact hput

theorem putFree (hG : Gap h pre c.addr p e q post l) (hal : c.alloc = false)
    (hce : c.addr + c.size ≤ e) :
    Ends (c.block.formatFree c.size p) h fun _ h' =>
      Gap h' (pre ++ [c]) (c.addr + c.size) false e q post l ∧ Touches h h' c.TagByte := by
  have hput := hG.put hce
  rw [Cell.tag, hal] at hput
  exact Ends.demand c.le_size hput

theorem join (hG : Gap h pre a p a q post l) :
    Ends ((⟨a⟩ : Block).setPrevAlloc p) h fun _ h' =>
      Laid h' (pre ++ post) l ∧ Touches h h' (FirstTagByte post h.top) := by
  have hlo := hG.le_addr
  have hhi := hG.le_top
  have htop := hG.founded.top_lt
  refine ((hG.above.setPrevAlloc (by omega) htop p).quiet (Quiet.setPrevAlloc _ p)).mono ?_
  intro _ h' hr
  obtain ⟨⟨hh, hpost, ht⟩, hj⟩ := hr
  have hbyte : ∀ x, (x + 8 < a ∨ ∃ d ∈ post, d.Holds x) → h'.memory.byte x = h.memory.byte x :=
    fun x hx => ht.byte x (not_firstTagByte hG.above.abut hx)
  refine ⟨⟨hG.founded.of_bare ht.bare, ?_, hG.linked.congr ht.bare hh hj ?_, hG.filed⟩, ht⟩
  · rw [source_of_bare ht.bare, top_of_bare ht.bare]
    refine tiles_append.mpr ⟨a, p, hG.below.congr (by omega) fun x _ hx _ => hbyte x (.inl hx), hpost⟩
  · intro b hr x hx₁ hx₂
    obtain ⟨k, hk⟩ := hr
    obtain ⟨d, hd, rfl, -, -⟩ := hG.filed k b hk
    have hds := d.le_size
    simp only [Cell.block] at hx₁ hx₂
    rcases List.mem_append.mp hd with hd | hd
    · have := hG.below.abut.bounds d hd
      exact hbyte x (.inl (by omega))
    · exact hbyte x (.inr ⟨d, hd, by omega, by omega⟩)

end Gap

end SegregatedFit
