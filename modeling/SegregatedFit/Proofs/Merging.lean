import SegregatedFit.Placement
import SegregatedFit.Proofs.Gap

/-!
# Merging

A free cell that has just been listed is merged with its free neighbours: these
leave their lists, and the cell that results is the first of its own. All four
cases are one, with a neighbour or none below and above.
-/

namespace SegregatedFit

def Cell.sizeOf (o : Option Cell) : Nat := o.elim 0 Cell.size

def Cell.merge (below : Option Cell) (c : Cell) (above : Option Cell) : Cell where
  addr := (below.getD c).addr
  size := sizeOf below + c.size + sizeOf above
  alloc := false
  addr_mod := (below.getD c).addr_mod
  size_mod := by
    have hc := c.size_mod
    cases below <;> cases above <;> simp only [sizeOf, Option.elim_none, Option.elim_some]
    · omega
    · next d => have := d.size_mod; omega
    · next d => have := d.size_mod; omega
    · next d e => have := d.size_mod; have := e.size_mod; omega
  le_size := by have := c.le_size; omega

theorem Cell.merge_none {c : Cell} (hc : c.alloc = false) : merge none c none = c := by
  ext <;> simp [merge, sizeOf, hc]

namespace Lists

def file (l : Lists) (c : Cell) : Lists := l.push (SizeClass.ofSize c.size) c.block

def drop (l : Lists) (o : Option Cell) : Lists := o.elim l fun c => l.without c.block

@[simp] theorem drop_none (l : Lists) : l.drop none = l := rfl

@[simp] theorem drop_some (l : Lists) (c : Cell) : l.drop (some c) = l.without c.block := rfl

theorem without_push {l : Lists} {k : SizeClass} {b : Block} (hn : ¬ l.Has b) :
    (l.push k b).without b = l := by
  funext j
  have hj : b ∉ l j := fun hm => hn ⟨j, hm⟩
  unfold without push
  split
  · simp
  · exact List.erase_of_not_mem hj

theorem Has.of_drop {l : Lists} {o : Option Cell} {b : Block} (hb : (l.drop o).Has b) : l.Has b := by
  cases o with
  | none => exact hb
  | some c => exact Has.of_without hb

theorem Has.without {l : Lists} {b d : Block} (hb : l.Has b) (hne : b ≠ d) : (l.without d).Has b := by
  obtain ⟨k, hk⟩ := hb
  exact ⟨k, (List.mem_erase_of_ne hne).mpr hk⟩

theorem Has.drop {l : Lists} {o : Option Cell} {b : Block} (hb : l.Has b)
    (hne : ∀ c ∈ o, b ≠ c.block) : (l.drop o).Has b := by
  cases o with
  | none => exact hb
  | some c => exact hb.without (hne c rfl)

end Lists

variable {h : Heap} {lo hi w : List Cell} {l : Lists} {c : Cell} {below above : Option Cell}

theorem Linked.not_has_without (hl : Linked h l) (b : Block) : ¬ (l.without b).Has b := by
  intro hr
  obtain ⟨k, hk⟩ := hr
  exact (hl.nodup k).not_mem_erase hk

theorem Linked.not_has_drop (hl : Linked h l) {o : Option Cell} (hc : c ∈ o) :
    ¬ (l.drop o).Has c.block := by
  obtain rfl : o = some c := hc
  exact hl.not_has_without c.block

theorem Laid.removeAll (hL : Laid h w l) {o : Option Cell} (ho : ∀ c ∈ o, c ∈ w ∧ l.Has c.block) :
    Ends ((o.map Cell.block).forM FreeList.remove) h fun _ h' =>
      Laid h' w (l.drop o) ∧ Touches h h' (MetaBytes w h.top) := by
  cases o with
  | none => exact Ends.pure ⟨hL, Touches.refl _ _⟩
  | some c => exact hL.remove (ho c rfl).1 (ho c rfl).2

/-- The free neighbour below is found through the footer before the cell. -/
theorem Laid.freeBefore (hL : Laid h (lo ++ below.toList ++ c :: hi) l)
    (hbelow : ∀ d ∈ below, d.alloc = false)
    (hlo : below = none → ∀ d ∈ lo.getLast?, d.alloc = true) :
    c.block.freeBefore h = .ok (below.map Cell.block) := by
  have htop := hL.founded.top_lt
  obtain ⟨a, p, hpre, hrest⟩ := tiles_append.mp hL.tiles
  have hle := hpre.abut.le
  have hc := hrest.stands (by omega) htop
  have hp := hpre.last
  obtain ⟨rfl, -, -⟩ := tiles_cons.mp hrest
  rw [Block.freeBefore, query_bind hc.header, Cell.prevAlloc_tag]
  cases below with
  | none =>
    have hpt : p = true := by
      rw [hp]
      simp only [Option.toList_none, List.append_nil]
      cases hl : lo.getLast? with
      | none => rfl
      | some d => exact hlo rfl d hl
    rw [if_pos hpt]; rfl
  | some d =>
    have hd := hbelow d rfl
    have hpf : p = false := by rw [hp]; simp [hd]
    obtain ⟨b, q, hlo', hd'⟩ := stretch_append.mp hpre
    have hble := hlo'.abut.le
    obtain ⟨rfl, htag, hend, -⟩ := hd'
    have hdc := hL.abut.bounds d (by simp)
    have hds : d.Stands h q := ⟨htag, by omega, hdc.2, htop⟩
    have hprev := hds.prev
    rw [hend] at hprev
    rw [if_neg (by simp [hpf]), Cell.block, query_bind hprev, hds.asFree, hd]; rfl

theorem Laid.freeAfter (hL : Laid h (w ++ c :: (above.toList ++ hi)) l)
    (habove : ∀ d ∈ above, d.alloc = false)
    (hhi : above = none → ∀ d ∈ hi.head?, d.alloc = true) :
    c.block.freeAfter h = .ok (above.map Cell.block) := by
  have htop := hL.founded.top_lt
  obtain ⟨a, p, hpre, hrest⟩ := tiles_append.mp hL.tiles
  have hle := hpre.abut.le
  have hc := hrest.stands (by omega) htop
  obtain ⟨rfl, -, hup⟩ := tiles_cons.mp hrest
  have hfirst : firstFree (above.toList ++ hi) = above := by
    unfold firstFree
    cases above with
    | some d => simp [habove d rfl]
    | none =>
      simp only [Option.toList_none, List.nil_append, Option.filter_eq_none_iff]
      exact fun d hd => by simp [hhi rfl d hd]
  rw [Block.freeAfter, query_bind hc.next, hup.asFree (by omega) htop, hfirst]

theorem MetaBytes.of_merge {a e top x : Nat} {rest : List Cell} {first : Cell}
    (hw : Abut a (lo ++ (first :: rest) ++ hi) e) (hf : first.alloc = false)
    (hca : c.addr = first.addr) (hcs : c.size = ((first :: rest).map Cell.size).sum) :
    MetaBytes (lo ++ c :: hi) top x → MetaBytes (lo ++ (first :: rest) ++ hi) top x := by
  obtain ⟨last, hlast⟩ : ∃ last, (first :: rest).getLast? = some last := ⟨_, List.getLast?_cons⟩
  have hlm := List.mem_of_getLast? hlast
  have hend : c.addr + c.size = last.addr + last.size := by
    obtain ⟨e, hpm, -⟩ := abut_append.mp hw
    obtain ⟨b, -, hab⟩ := abut_append.mp hpm
    rw [hab.last_end last hlast, hab.end_eq, hca, hcs, hab.1]
  intro hr
  rcases hr with h | ⟨d, hd, hdx⟩
  · exact .inl h
  · rcases List.mem_append.mp hd with hd | hd
    · exact .inr ⟨d, by simp [hd], hdx⟩
    rcases List.mem_cons.mp hd with rfl | hd
    · unfold Cell.TagByte at hdx
      rcases hdx with (hx | hx) | ⟨-, hx⟩
      · exact .inr ⟨first, by simp, .inl (.inl (hca ▸ hx))⟩
      · exact .inr ⟨last, List.mem_append_left _ (List.mem_append_right _ hlm), .inl (.inr (hend ▸ hx))⟩
      · exact .inr ⟨first, by simp, .inr ⟨hf, hca ▸ hx⟩⟩
    · exact .inr ⟨d, by simp [hd], hdx⟩

theorem Laid.sizeOrZero (hL : Laid h w l) {o : Option Cell} (ho : ∀ c ∈ o, c ∈ w) :
    sizeOrZero (o.map Cell.block) h = .ok (Cell.sizeOf o) := by
  cases o with
  | none => rfl
  | some c => exact hL.size (ho c rfl)

/-- Unlisted free cells become one, which is listed. -/
theorem Laid.fuse {rest : List Cell} {first : Cell} (hL : Laid h (lo ++ (first :: rest) ++ hi) l)
    (hmid : ∀ d ∈ first :: rest, d.alloc = false ∧ ¬ l.Has d.block) (hca : c.addr = first.addr)
    (hcs : c.size = ((first :: rest).map Cell.size).sum) (hcf : c.alloc = false)
    (hnew : h.inserted.getLast? = some c.block) :
    Ends (do
        c.block.formatFree c.size (← c.block.header).prevAlloc
        FreeList.insert c.block
        return c.block) h fun b h' => b = c.block ∧ Laid h' (lo ++ c :: hi) (l.file c) ∧
      Touches h h' (MetaBytes (lo ++ c :: hi) h.top) := by
  obtain ⟨p, q, hG, hst, hq⟩ := hL.gap fun d hd => (hmid d hd).2
  obtain ⟨last, hlast⟩ : ∃ last, (first :: rest).getLast? = some last := ⟨_, List.getLast?_cons⟩
  have hqf : q = false := by
    rw [hq, hlast]
    exact (hmid last (List.mem_of_getLast? hlast)).1
  have hcb : c.block = first.block := Cell.block_inj.mpr hca
  have hhead : c.block.header h = .ok (first.tag p) := hcb ▸ hst.header
  rw [← hca, ← hcs, hqf] at hG
  refine Ends.query hhead ?_
  rw [Cell.prevAlloc_tag]
  refine Ends.bind ((hG.putFree hcf (Nat.le_refl _)).quiet (Quiet.formatFree c.block _ _)) ?_
  intro _ h₁ hr
  obtain ⟨⟨hG₁, ht₁⟩, hj⟩ := hr
  rw [← hj] at hnew
  have hL₁ := hG₁.close
  rw [List.append_assoc, List.singleton_append] at hL₁
  refine Ends.bind (hL₁.insert (by simp) hcf (hcb ▸ (hmid first (by simp)).2) hnew) ?_
  intro _ h₂ hr
  obtain ⟨hL₂, ht₂⟩ := hr
  exact Ends.pure ⟨rfl, hL₂, (ht₁.mono fun _ => .of_tag (by simp)).meta_trans ht₂⟩

theorem Cell.merged (below : Option Cell) (c : Cell) (above : Option Cell) :
    ∃ rest, below.toList ++ c :: above.toList = below.getD c :: rest ∧
      (merge below c above).size = ((below.getD c :: rest).map size).sum := by
  have hsizes : ∀ o : Option Cell, (o.toList.map size).sum = sizeOf o := fun o => by
    cases o <;> simp [sizeOf]
  obtain ⟨rest, hrest⟩ : ∃ rest, below.toList ++ c :: above.toList = below.getD c :: rest := by
    cases below <;> exact ⟨_, rfl⟩
  refine ⟨rest, hrest, ?_⟩
  rw [← hrest, List.map_append, List.sum_append, List.map_cons, List.sum_cons, hsizes, hsizes, merge]
  exact Nat.add_assoc _ _ _

theorem Laid.unlist {β : Type} {f : Action β} {Q : β → Heap → Prop}
    (hL : Laid h (lo ++ below.toList ++ c :: (above.toList ++ hi)) (l.file c)) (hn : ¬ l.Has c.block)
    (hbelow : ∀ d ∈ below, l.Has d.block) (habove : ∀ d ∈ above, l.Has d.block)
    (hf : ∀ h', Laid h' (lo ++ below.toList ++ c :: (above.toList ++ hi)) ((l.drop below).drop above) →
      (∀ d ∈ below.toList ++ c :: above.toList, ¬ ((l.drop below).drop above).Has d.block) →
      Touches h h' (MetaBytes (lo ++ below.toList ++ c :: (above.toList ++ hi)) h.top) → Ends f h' Q) :
    Ends (do
        FreeList.remove c.block
        (below.map Cell.block).forM FreeList.remove
        (above.map Cell.block).forM FreeList.remove
        f) h Q := by
  have hremove := hL.remove (c := c) (by simp) (Lists.has_push.mpr (.inl rfl))
  rw [Lists.file, Lists.without_push hn] at hremove
  refine Ends.bind hremove ?_
  intro _ h₁ hr
  obtain ⟨hL₁, ht₁⟩ := hr
  refine Ends.bind (hL₁.removeAll fun d hd => ⟨by simp [Option.mem_def.mp hd], hbelow d hd⟩) ?_
  intro _ h₂ hr
  obtain ⟨hL₂, ht₂⟩ := hr
  -- the one above is another cell than the one below, so it is still listed
  have hkept : ∀ d ∈ above, (l.drop below).Has d.block := by
    intro d hd
    refine (habove d hd).drop fun e he hde => ?_
    have hed := (List.pairwise_append.mp hL.abut.pairwise).2.2 e (by simp [Option.mem_def.mp he]) d
      (by simp [Option.mem_def.mp hd])
    have haddr := Cell.block_inj.mp hde
    have hsize := e.le_size
    omega
  refine Ends.bind (hL₂.removeAll fun d hd => ⟨by simp [Option.mem_def.mp hd], hkept d hd⟩) ?_
  intro _ h₃ hr
  obtain ⟨hL₃, ht₃⟩ := hr
  rw [top_of_bare ht₁.bare] at ht₂
  rw [top_of_bare ht₂.bare, top_of_bare ht₁.bare] at ht₃
  refine hf h₃ hL₃ (fun d hd => ?_) ((ht₁.trans ht₂).trans ht₃)
  rcases List.mem_append.mp hd with hd | hd
  · exact fun hh => hL₁.linked.not_has_drop (Option.mem_toList.mp hd) hh.of_drop
  rcases List.mem_cons.mp hd with rfl | hd
  · exact fun hh => hn hh.of_drop.of_drop
  · exact hL₂.linked.not_has_drop (Option.mem_toList.mp hd)

/-- A heap with the cells `w'` comes from `h` by way of one with the cells `w`: only books of `w`
are written before that one, and only books of `w'` after it. -/
def Heap.Passes (h : Heap) (w w' : List Cell) (h' : Heap) : Prop :=
  ∃ h₁ l, Laid h₁ w l ∧ Touches h h₁ (MetaBytes w h.top) ∧ Touches h₁ h' (MetaBytes w' h₁.top)

namespace Heap.Passes

variable {h₁ h' : Heap} {w' : List Cell}

theorem after (ht : Touches h h₁ (MetaBytes w h.top)) (hp : h₁.Passes w w' h') : h.Passes w w' h' := by
  obtain ⟨h₂, l, hL, ht₁, ht₂⟩ := hp
  exact ⟨h₂, l, hL, ht.meta_trans ht₁, ht₂⟩

theorem bare (hp : h.Passes w w' h') : h'.bare = h.bare := by
  obtain ⟨h₁, l, hL, ht₁, ht₂⟩ := hp
  exact ht₁.bare_trans ht₂

theorem keeps {v : List Cell} (hp : h.Passes w w' h') (hL' : Laid h' w' l)
    (hv : ∀ d ∈ v, d.alloc = true → d ∈ w ∧ d ∈ w') : Keeps v h h' := by
  obtain ⟨h₁, l₁, hL, ht₁, ht₂⟩ := hp
  have hk₁ := ht₁.keeps (top_of_bare ht₁.bare ▸ hL.abut)
  have hk₂ := ht₂.keeps (top_of_bare ht₂.bare ▸ hL'.abut)
  exact (hk₁.mono fun d hd hal => (hv d hd hal).1).trans (hk₂.mono fun d hd hal => (hv d hd hal).2)

end Heap.Passes

theorem Laid.coalesce (hL : Laid h (lo ++ below.toList ++ c :: (above.toList ++ hi)) (l.file c))
    (hc : c.alloc = false) (hn : ¬ l.Has c.block)
    (hbelow : ∀ d ∈ below, d.alloc = false ∧ l.Has d.block)
    (habove : ∀ d ∈ above, d.alloc = false ∧ l.Has d.block)
    (hlo : below = none → ∀ d ∈ lo.getLast?, d.alloc = true)
    (hhi : above = none → ∀ d ∈ hi.head?, d.alloc = true) :
    Ends (coalesce c.block) h fun b h' => b = (Cell.merge below c above).block ∧
      Laid h' (lo ++ Cell.merge below c above :: hi)
        (((l.drop below).drop above).file (Cell.merge below c above)) ∧
      Touches h h' (MetaBytes (lo ++ below.toList ++ c :: (above.toList ++ hi)) h.top) ∧
      h.Passes (lo ++ below.toList ++ c :: (above.toList ++ hi)) (lo ++ Cell.merge below c above :: hi) h' := by
  have hprev := hL.freeBefore (fun d hd => (hbelow d hd).1) hlo
  have hnext := hL.freeAfter (fun d hd => (habove d hd).1) hhi
  refine Ends.query hprev (Ends.query hnext ?_)
  by_cases hnone : below = none ∧ above = none
  · obtain ⟨rfl, rfl⟩ := hnone
    simp only [Option.toList_none, List.append_nil, List.nil_append] at hL ⊢
    rw [if_pos (by simp), Cell.merge_none hc]
    exact Ends.pure ⟨rfl, hL, Touches.refl _ _, h, _, hL, Touches.refl _ _, Touches.refl _ _⟩
  rw [if_neg (by simpa using hnone)]
  -- all of them leave their lists before any tag is written
  refine hL.unlist hn (fun d hd => (hbelow d hd).2) (fun d hd => (habove d hd).2) fun h₁ hL₁ hout ht => ?_
  refine Ends.query (hL₁.size (by simp)) (Ends.query (hL₁.sizeOrZero fun d hd => ?_)
    (Ends.query (hL₁.sizeOrZero fun d hd => ?_) ?_))
  · simp [Option.mem_def.mp hd]
  · simp [Option.mem_def.mp hd]
  obtain ⟨rest, hrest, hsum⟩ := Cell.merged below c above
  have hw : lo ++ below.toList ++ c :: (above.toList ++ hi) = lo ++ (below.getD c :: rest) ++ hi := by
    rw [← hrest]; simp
  have hfree : ∀ d ∈ below.toList ++ c :: above.toList, d.alloc = false := by
    intro d hd
    rcases List.mem_append.mp hd with hd | hd
    · exact (hbelow d (Option.mem_toList.mp hd)).1
    rcases List.mem_cons.mp hd with rfl | hd
    · exact hc
    · exact (habove d (Option.mem_toList.mp hd)).1
  rw [hrest] at hfree hout
  rw [hw] at hL₁ ht ⊢
  have hle := hL₁.abut.sum_le
  have htop := hL₁.founded.top_lt
  rw [← hsum] at hle
  have hsz : Cell.sizeOf below + c.size + Cell.sizeOf above = (Cell.merge below c above).size := rfl
  refine Ends.except (checkedAdd_of_lt (by omega)) (Ends.except (checkedAdd_of_lt (by omega)) ?_)
  refine Ends.record ?_
  have hstart : (below.map Cell.block).getD c.block = (Cell.merge below c above).block := by
    cases below <;> rfl
  rw [hsz, hstart]
  have hL₂ := hL₁.record (e := .coalesced c.block c.size (Cell.merge below c above).block
    (Cell.merge below c above).size) fun b hb => by
      obtain rfl := Option.some.inj hb
      exact hout (below.getD c) (by simp)
  refine (hL₂.fuse (c := Cell.merge below c above) (fun d hd => ⟨hfree d hd, hout d hd⟩) rfl hsum rfl
    (getLast?_inserted_push rfl)).mono ?_
  intro b h₂ hr
  obtain ⟨hb, hL₃, ht₂⟩ := hr
  have hwrite : Touches h₁ h₂ (MetaBytes (lo ++ Cell.merge below c above :: hi) h₁.top) :=
    ⟨ht₂.bare.trans (bare_journal _ _), ht₂.byte⟩
  -- what the merged cell writes lies in the books of the cells that it replaces
  refine ⟨hb, hL₃, ht.meta_trans (hwrite.mono fun x => ?_), h₁, _, hL₁, ht, hwrite⟩
  exact MetaBytes.of_merge hL₁.abut (hfree _ (by simp)) rfl hsum

end SegregatedFit
