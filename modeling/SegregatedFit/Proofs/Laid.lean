import SegregatedFit.Proofs.Links
import SegregatedFit.Proofs.Tiling

/-!
# Tiles and lists together

`Laid h w l` says that the blocks of the heap `h` are the cells `w` and that its
lists are `l`, which have free cells only, each in the class of its size. It
leaves open whether every free cell is listed: while blocks are split and merged
some are not. Links are written inside free cells, so that they disturb no tag.
-/

namespace SegregatedFit

/-- The bytes in which the allocator keeps its books: tags, the epilogue, and the
links of free cells. -/
def MetaBytes (w : List Cell) (top x : Nat) : Prop :=
  (top ≤ x + 8 ∧ x < top) ∨
    ∃ c ∈ w, c.TagByte x ∨ (c.alloc = false ∧ c.addr ≤ x ∧ x < c.addr + 16)

theorem not_metaBytes {w : List Cell} {a top x : Nat} {c : Cell} (hw : Abut a w top) (hc : c ∈ w)
    (hx : c.Holds x) (hlinks : c.alloc = false → c.addr + 16 ≤ x) : ¬ MetaBytes w top x := by
  have hx₁ := hx.1; have hx₂ := hx.2
  have hcb := hw.bounds c hc
  intro hr
  rcases hr with ⟨_, _⟩ | ⟨d, hd, hdx⟩
  · omega
  · have := d.le_size
    rcases hw.apart hc hd with rfl | h | h
    · rcases hdx with (_ | _) | ⟨hf, -, _⟩
      · omega
      · omega
      · have := hlinks hf
        omega
    · unfold Cell.TagByte at hdx; omega
    · unfold Cell.TagByte at hdx; omega

theorem MetaBytes.of_tag {w : List Cell} {top x : Nat} {c : Cell} (hc : c ∈ w) (hx : c.TagByte x) :
    MetaBytes w top x :=
  .inr ⟨c, hc, .inl hx⟩

theorem FirstTagByte.meta {pre post : List Cell} {top x : Nat} (hx : FirstTagByte post top x) :
    MetaBytes (pre ++ post) top x := by
  rcases hx with ⟨-, hx⟩ | ⟨d, hd, hx⟩
  · exact .inl hx
  · exact .inr ⟨d, List.mem_append_right _ (List.mem_of_head? hd), .inl hx⟩

def Held (w : List Cell) (x : Nat) : Prop := ∃ c ∈ w, c.alloc = true ∧ c.Holds x

def Keeps (w : List Cell) (h h' : Heap) : Prop :=
  ∀ x, Held w x → h'.memory.byte x = h.memory.byte x

theorem Keeps.trans {w : List Cell} {h₁ h₂ h₃ : Heap} (hx : Keeps w h₁ h₂) (hy : Keeps w h₂ h₃) :
    Keeps w h₁ h₃ := fun x hh => (hy x hh).trans (hx x hh)

theorem Keeps.mono {v w : List Cell} {h h' : Heap} (hx : Keeps w h h')
    (hv : ∀ c ∈ v, c.alloc = true → c ∈ w) : Keeps v h h' :=
  fun x ⟨c, hc, hal, hcx⟩ => hx x ⟨c, hv c hc hal, hal, hcx⟩

theorem Keeps.insert_free {xs ys : List Cell} {h h' : Heap} {c : Cell} (hx : Keeps (xs ++ ys) h h')
    (hc : c.alloc = false) : Keeps (xs ++ c :: ys) h h' := by
  refine hx.mono fun d hd hal => ?_
  have hne : d ≠ c := (Cell.ne_of_alloc hc hal).symm
  simpa [hne] using hd

theorem Touches.keeps {w : List Cell} {a top : Nat} {h h' : Heap} (hw : Abut a w top)
    (ht : Touches h h' (MetaBytes w top)) : Keeps w h h' :=
  fun x ⟨_, hc, hal, hcx⟩ => ht.byte x (not_metaBytes hw hc hcx fun hf => by simp [hal] at hf)

theorem Touches.meta_trans {h h₁ h₂ : Heap} {w : List Cell} (hx : Touches h h₁ (MetaBytes w h.top))
    (hy : Touches h₁ h₂ (MetaBytes w h₁.top)) : Touches h h₂ (MetaBytes w h.top) :=
  hx.trans (top_of_bare hx.bare ▸ hy)

theorem Tiles.node {h : Heap} {w : List Cell} {c : Cell}
    (ht : Tiles h.memory h.top (h.source.lo + 32) true w) (htop : h.top < wordLimit) (hc : c ∈ w) :
    c.block.Node h := by
  have hb := ht.abut.bounds c hc
  have hsz := c.le_size
  refine ⟨?_, ?_, permits_of_mem ?_ ?_⟩ <;> simp only [Cell.block]
  · omega
  · omega
  · omega
  · have : c.addr + c.size ≤ h.source.lo + h.source.size := hb.2
    omega

structure Laid (h : Heap) (w : List Cell) (l : Lists) : Prop where
  founded : h.Founded
  tiles : Tiles h.memory h.top (h.source.lo + 32) true w
  linked : Linked h l
  filed : ∀ k, ∀ b ∈ l k, ∃ c ∈ w, c.block = b ∧ c.alloc = false ∧ SizeClass.ofSize c.size = k

namespace Laid

variable {h h' : Heap} {w : List Cell} {l : Lists} {c d : Cell}

theorem abut (hL : Laid h w l) : Abut (h.source.lo + 32) w h.top := hL.tiles.abut

theorem stands (hL : Laid h w l) (hc : c ∈ w) : ∃ p, c.Stands h p :=
  hL.tiles.stands_of_mem (by omega) hL.founded.top_lt hc

theorem size (hL : Laid h w l) (hc : c ∈ w) : c.block.size h = .ok c.size :=
  (hL.stands hc).choose_spec.size

theorem node (hL : Laid h w l) (hc : c ∈ w) : c.block.Node h :=
  hL.tiles.node hL.founded.top_lt hc

theorem apart (hL : Laid h w l) (hc : c ∈ w) (hd : d ∈ w) (hne : c.block ≠ d.block) :
    c.block.Apart d.block := by
  have hcs := c.le_size; have hds := d.le_size
  rcases hL.abut.apart hc hd with rfl | h | h
  · exact absurd rfl hne
  · exact .inl (by simp only [Cell.block]; omega)
  · exact .inr (by simp only [Cell.block]; omega)

theorem record (hL : Laid h w l) {e : Event} (he : ∀ b ∈ e.inserted, ¬ l.Has b) :
    Laid { h with journal := h.journal.push e } w l :=
  ⟨hL.founded.of_bare (bare_journal _ _), hL.tiles, hL.linked.record he, hL.filed⟩

theorem idle (hL : Laid h w l) (hi : h.Idle h') : Laid h' w l := by
  refine ⟨hL.founded.of_bare hi.bare, ?_, ?_, hL.filed⟩
  · rw [hi.memory, top_of_bare hi.bare, source_of_bare hi.bare]
    exact hL.tiles
  · exact hL.linked.congr hi.bare hi.heads hi.inserted fun _ _ _ _ _ => by rw [hi.memory]

theorem cell (hL : Laid h w l) {b : Block} (hb : l.Has b) :
    ∃ c ∈ w, c.block = b ∧ c.alloc = false := by
  obtain ⟨k, hk⟩ := hb
  obtain ⟨c, hc, hcb, hf, -⟩ := hL.filed k b hk
  exact ⟨c, hc, hcb, hf⟩

theorem mem_of_has (hL : Laid h w l) (hc : c ∈ w) (hb : l.Has c.block) :
    c.alloc = false ∧ c.block ∈ l (SizeClass.ofSize c.size) := by
  obtain ⟨k, hk⟩ := hb
  obtain ⟨d, hd, hdc, hf, rfl⟩ := hL.filed k _ hk
  obtain rfl := hL.abut.eq_of_addr hd hc (Cell.block_inj.mp hdc)
  exact ⟨hf, hk⟩

theorem unlisted (hL : Laid h w l) (hc : c ∈ w) (hal : c.alloc = true) : ¬ l.Has c.block := fun hb => by
  have := (hL.mem_of_has hc hb).1
  simp [hal] at this

theorem tiles_of_links (hL : Laid h w l) {N P : Block → Prop}
    (hN : ∀ b, N b ∨ P b → ∃ c ∈ w, c.block = b ∧ c.alloc = false)
    (ht : Touches h h' (LinkBytes N P)) :
    Tiles h'.memory h.top (h.source.lo + 32) true w ∧ Touches h h' (MetaBytes w h.top) := by
  have hholds : ∀ x, LinkBytes N P x →
      ∃ c ∈ w, c.alloc = false ∧ c.addr ≤ x ∧ x < c.addr + 16 := by
    intro x hr
    rcases hr with ⟨b, hb, hx⟩ | ⟨b, hb, hx⟩
    · obtain ⟨c, hc, rfl, hf⟩ := hN b (.inl hb)
      simp only [Cell.block] at hx
      exact ⟨c, hc, hf, hx.1, by omega⟩
    · obtain ⟨c, hc, rfl, hf⟩ := hN b (.inr hb)
      simp only [Cell.block] at hx
      exact ⟨c, hc, hf, by omega, hx.2⟩
  refine ⟨hL.tiles.congr (by omega) fun x _ _ hx => ht.byte x fun hl => ?_, ht.mono fun x hl => ?_⟩
  · obtain ⟨c, hc, -, hx₁, hx₂⟩ := hholds x hl
    have := c.le_size
    exact hx c hc ⟨hx₁, by omega⟩
  · obtain ⟨c, hc, hf, hx⟩ := hholds x hl
    exact .inr ⟨c, hc, .inr ⟨hf, hx⟩⟩

theorem insert (hL : Laid h w l) (hc : c ∈ w) (hf : c.alloc = false) (hn : ¬ l.Has c.block)
    (hnew : h.inserted.getLast? = some c.block) :
    Ends (FreeList.insert c.block) h fun _ h' =>
      Laid h' w (l.push (SizeClass.ofSize c.size) c.block) ∧ Touches h h' (MetaBytes w h.top) := by
  refine (hL.linked.insert (hL.node hc) (hL.size hc) hn (fun b hb => ?_) hnew).mono ?_
  · obtain ⟨d, hd, rfl, -⟩ := hL.cell hb
    exact hL.apart hc hd fun he => hn (he ▸ hb)
  intro _ h' hr
  obtain ⟨hl, ht⟩ := hr
  have hfree : ∀ b, b = c.block ∨ (b = c.block ∨ b ∈ (l (SizeClass.ofSize c.size)).head?) →
      ∃ c ∈ w, c.block = b ∧ c.alloc = false := by
    intro b hr
    rcases hr with rfl | rfl | hb
    · exact ⟨c, hc, rfl, hf⟩
    · exact ⟨c, hc, rfl, hf⟩
    · exact hL.cell ⟨_, List.mem_of_head? hb⟩
  obtain ⟨htiles, htouch⟩ := hL.tiles_of_links hfree ht
  refine ⟨⟨hL.founded.of_bare ht.bare, ?_, hl, fun k b hb => ?_⟩, htouch⟩
  · rw [top_of_bare ht.bare, source_of_bare ht.bare]; exact htiles
  · rcases Lists.mem_push.mp hb with ⟨rfl, rfl⟩ | hb
    · exact ⟨c, hc, rfl, hf, rfl⟩
    · exact hL.filed k b hb

theorem remove (hL : Laid h w l) (hc : c ∈ w) (hb : l.Has c.block) :
    Ends (FreeList.remove c.block) h fun _ h' =>
      Laid h' w (l.without c.block) ∧ Touches h h' (MetaBytes w h.top) := by
  obtain ⟨xs, ys, hxy⟩ := List.append_of_mem (hL.mem_of_has hc hb).2
  refine (hL.linked.remove (hL.size hc) hxy).mono ?_
  intro _ h' hr
  obtain ⟨hl, ht⟩ := hr
  have hfree : ∀ b, b ∈ xs.getLast? ∨ b ∈ ys.head? → ∃ c ∈ w, c.block = b ∧ c.alloc = false := by
    intro b hb
    refine hL.cell ⟨SizeClass.ofSize c.size, ?_⟩
    rw [hxy]
    rcases hb with hb | hb
    · exact List.mem_append_left _ (List.mem_of_getLast? hb)
    · exact List.mem_append_right _ (List.mem_cons_of_mem _ (List.mem_of_head? hb))
  obtain ⟨htiles, htouch⟩ := hL.tiles_of_links hfree ht
  refine ⟨⟨hL.founded.of_bare ht.bare, ?_, hl, fun k b hb => ?_⟩, htouch⟩
  · rw [top_of_bare ht.bare, source_of_bare ht.bare]; exact htiles
  · exact hL.filed k b (List.mem_of_mem_erase hb)

end Laid

end SegregatedFit
