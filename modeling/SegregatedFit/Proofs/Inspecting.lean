import Mathlib.Data.List.Nodup
import SegregatedFit.Allocator
import SegregatedFit.Proofs.Checking

/-!
# Looking at a sound heap

Walks over a sound heap end, meet its cells and list members in order, and find
nothing to report; so the check after an operation changes nothing.
-/

namespace SegregatedFit

/-! ## The blocks -/

variable {h : Heap} {w : List Cell} {l : Lists} {c : Cell} {p : Bool}

def taggedCells : Bool → List Cell → List (Block × Tag)
  | _, [] => []
  | p, c :: w => (c.block, c.tag p) :: taggedCells c.alloc w

theorem mem_taggedCells (hc : c ∈ w) : ∃ q, (c.block, c.tag q) ∈ taggedCells p w := by
  induction w generalizing p with
  | nil => cases hc
  | cons d w ih =>
    rcases List.mem_cons.mp hc with rfl | hc
    · exact ⟨p, List.mem_cons_self⟩
    · obtain ⟨q, hq⟩ := ih hc
      exact ⟨q, List.mem_cons_of_mem _ hq⟩

theorem taggedCells_inj {w' : List Cell} {q : Bool} (he : taggedCells p w = taggedCells q w') : w = w' := by
  induction w generalizing p q w' with
  | nil =>
    cases w' with
    | nil => rfl
    | cons d w' => cases he
  | cons c w ih =>
    cases w' with
    | nil => cases he
    | cons d w' =>
      obtain ⟨hcd, hrest⟩ := List.cons.inj he
      obtain ⟨hblock, htag⟩ := Prod.mk.inj hcd
      have hsize := congrArg Tag.size htag
      have halloc := congrArg Tag.isAlloc htag
      rw [c.size_tag, d.size_tag] at hsize
      rw [c.isAlloc_tag, d.isAlloc_tag] at halloc
      rw [ih hrest]
      refine congrArg (· :: w') ?_
      ext
      · exact Cell.block_inj.mp hblock
      · exact hsize
      · rw [halloc]

theorem filter_taggedCells (f : Bool → Bool) :
    ((taggedCells p w).filter fun b => f b.2.isAlloc).map Prod.fst =
      (w.filter fun c => f c.alloc).map Cell.block := by
  induction w generalizing p with
  | nil => rfl
  | cons c w ih =>
    rw [taggedCells, List.filter_cons, List.filter_cons, Cell.isAlloc_tag]
    cases f c.alloc with
    | true => exact congrArg (c.block :: ·) ih
    | false => exact ih

theorem Tiles.run_epilogue (ht : Tiles h.memory h.top addr p []) (hlo : h.source.lo + 8 ≤ addr) :
    (⟨addr⟩ : Block).header h = .ok (.pack 0 true p) ∧ addr = h.top := by
  obtain ⟨rfl, he⟩ := tiles_nil.mp ht
  have h8 : 8 ≤ h.top := by omega
  have hh : (⟨h.top⟩ : Block).headerAddr = h.top - 8 := Block.headerAddr_eq h8
  rw [run_header (by rw [hh]; exact permits_word (by omega) (by omega)), hh, he]
  exact ⟨rfl, rfl⟩

def Stats.add (s : Stats) (w : List Cell) : Stats where
  heapSize := s.heapSize
  allocatedBlocks := s.allocatedBlocks + w.countP (·.alloc)
  allocatedSize := s.allocatedSize + ((w.filter (·.alloc)).map Cell.size).sum
  freeBlocks := s.freeBlocks + w.countP (!·.alloc)
  freeSize := s.freeSize + ((w.filter (!·.alloc)).map Cell.size).sum

theorem Stats.add_size (s : Stats) (w : List Cell) : (s.add w).allocatedSize + (s.add w).freeSize =
    s.allocatedSize + s.freeSize + (w.map Cell.size).sum := by
  induction w with
  | nil => rfl
  | cons c w ih =>
    simp only [Stats.add, List.filter_cons, List.map_cons, List.sum_cons] at ih ⊢
    cases c.alloc <;> simp <;> omega

theorem Stats.add_blocks (s : Stats) (w : List Cell) : (s.add w).allocatedBlocks + (s.add w).freeBlocks =
    s.allocatedBlocks + s.freeBlocks + w.length := by
  have := w.length_eq_countP_add_countP (·.alloc)
  simp only [Stats.add, Bool.not_eq_true, Bool.decide_eq_false] at this ⊢
  omega

theorem countP_taggedCells (f : Bool → Bool) :
    (taggedCells p w).countP (fun b => f b.2.isAlloc) = w.countP fun c => f c.alloc := by
  have hlen := congrArg List.length (filter_taggedCells (p := p) (w := w) f)
  rwa [List.length_map, List.length_map, ← List.countP_eq_length_filter,
    ← List.countP_eq_length_filter] at hlen

theorem sizes_taggedCells (f : Bool → Bool) :
    ((taggedCells p w).filter fun b => f b.2.isAlloc).map (fun b => b.2.size) =
      (w.filter fun c => f c.alloc).map Cell.size := by
  induction w generalizing p with
  | nil => rfl
  | cons c w ih =>
    rw [taggedCells, List.filter_cons, List.filter_cons, Cell.isAlloc_tag]
    cases f c.alloc with
    | true => exact congrArg₂ List.cons (c.size_tag p) ih
    | false => exact ih

theorem Stats.count_taggedCells (s : Stats) : s.count (taggedCells p w) = s.add w := by
  have hcount : (taggedCells p w).countP (·.2.isAlloc) = w.countP (·.alloc) := countP_taggedCells id
  have hfree : (taggedCells p w).countP (!·.2.isAlloc) = w.countP (!·.alloc) := countP_taggedCells not
  have hsizes : ((taggedCells p w).filter (·.2.isAlloc)).map (·.2.size) =
      (w.filter (·.alloc)).map Cell.size := sizes_taggedCells id
  have hfrees : ((taggedCells p w).filter (!·.2.isAlloc)).map (·.2.size) =
      (w.filter (!·.alloc)).map Cell.size := sizes_taggedCells not
  unfold Stats.count Stats.add
  rw [hcount, hfree, hsizes, hfrees]

theorem Parted.tagged (hp : Parted w) : Spaced (taggedCells p w) := by
  induction w generalizing p with
  | nil => exact List.IsChain.nil
  | cons c w ih =>
    have hcw := List.isChain_cons.mp hp
    refine List.isChain_cons.mpr ⟨?_, ih hcw.2⟩
    intro _ hr
    cases w with
    | nil => cases hr
    | cons d w =>
      cases hr
      rw [c.isAlloc_tag, d.isAlloc_tag]
      exact hcw.1 d rfl

theorem Cell.Stands.liesIn (hc : c.Stands h p) : c.block.LiesIn (c.tag p) h where
  word := hc.tagged.header
  lo_le := hc.le_addr
  le_top := Nat.le_trans (Nat.le_add_right _ _) hc.end_le
  aligned := c.addr_mod
  le_size := by
    rw [c.size_tag]
    exact c.le_size
  end_le := by
    rw [c.size_tag]
    exact Nat.le_trans hc.end_le (Nat.le_add_right _ _)

theorem Tiles.chained {addr : Nat} (ht : Tiles h.memory h.top addr p w) (hlo : h.source.lo + 8 ≤ addr)
    (htop : h.top < wordLimit) : Chained h p ⟨addr⟩ (taggedCells p w) := by
  induction w generalizing addr p with
  | nil =>
    obtain ⟨rfl, he⟩ := tiles_nil.mp ht
    exact ⟨.pack 0 true p, ⟨he, hlo, Nat.le_refl _⟩, by simp, by simp, by simp, rfl⟩
  | cons c w ih =>
    have hst := ht.stands hlo htop
    obtain ⟨rfl, -, hw⟩ := tiles_cons.mp ht
    refine ⟨rfl, hst.liesIn, c.prevAlloc_tag p, ?_, ?_⟩
    · rw [c.size_tag]
      exact hst.tagged.footer
    · rw [c.isAlloc_tag, c.size_tag]
      exact ih hw (Nat.le_trans hlo (Nat.le_add_right _ _))

theorem Laid.chained (hL : Laid h w l) : Chained h true h.first (taggedCells true w) := by
  rw [hL.founded.first]
  exact hL.tiles.chained (by omega) hL.founded.top_lt

theorem Laid.run_blocks (hL : Laid h w l) : blocks h = .ok (taggedCells true w) :=
  hL.chained.run_blocks hL.founded.top_lt

/-- A heap has its cells in one way only. -/
theorem Laid.cells_unique {w' : List Cell} {l' : Lists} (hL : Laid h w l) (hL' : Laid h w' l') : w = w' :=
  taggedCells_inj (Except.ok.inj (hL.run_blocks.symm.trans hL'.run_blocks))

/-! ## The lists -/

theorem Lists.mem_flat {b : Block} : b ∈ l.flat ↔ l.Has b := by
  simp [flat, Has, SizeClass.all]

theorem Threaded.nodup_flat (hl : Threaded h l) : l.flat.Nodup := by
  refine List.nodup_flatMap.mpr ⟨fun k _ => hl.nodup k, ?_⟩
  refine (List.nodup_finRange classCount).imp fun {j k} hjk b hj hk => ?_
  exact hjk (hl.once hj hk)

theorem Sound.perm_flat (hS : Sound h w l) : l.flat.Perm ((w.filter (!·.alloc)).map Cell.block) := by
  have hnd : ((w.filter (!·.alloc)).map Cell.block).Nodup :=
    hS.abut.nodup_blocks.sublist (List.filter_sublist.map _)
  refine (List.perm_ext_iff_of_nodup hS.linked.nodup_flat hnd).mpr fun b => ?_
  rw [Lists.mem_flat, List.mem_map]
  constructor
  · intro hb
    obtain ⟨c, hc, hcb, hf⟩ := hS.cell hb
    exact ⟨c, List.mem_filter.mpr ⟨hc, by simp [hf]⟩, hcb⟩
  · intro hr
    obtain ⟨c, hc, rfl⟩ := hr
    obtain ⟨hcw, hf⟩ := List.mem_filter.mp hc
    exact hS.full c hcw (by simpa using hf)

theorem Threaded.length_list (hl : Threaded h l) (k : SizeClass) : (l k).length < wordLimit :=
  length_lt_of_payload_mem (hl.nodup k) fun _ hb => ⟨(hl.node ⟨k, hb⟩).pos, (hl.node ⟨k, hb⟩).linkWord_lt⟩

theorem Threaded.run_next (hl : Threaded h l) {bs : List Block} {b : Block} {prev : Option Block}
    (ht : Threads h.memory none prev (b :: bs)) (hbs : ∀ d ∈ b :: bs, l.Has d) :
    b.nextFree h = .ok bs.head? := by
  rw [(hl.node (hbs b (by simp))).run_nextFree, ht.1, Option.or_none, hl.ofLinkWord fun d hd =>
    hbs d (List.mem_cons_of_mem _ (List.mem_of_head? hd))]

theorem Threaded.run_chain (hl : Threaded h l) {bs : List Block} {prev : Option Block} {n : Nat}
    (ht : Threads h.memory none prev bs) (hbs : ∀ d ∈ bs, l.Has d) (hn : bs.length ≤ n) :
    FreeList.chain n bs.head? h = .ok bs := by
  induction bs generalizing prev n with
  | nil => cases n <;> rfl
  | cons b bs ih =>
    cases n with
    | zero => cases hn
    | succ n =>
      rw [List.head?_cons, FreeList.chain, query_bind (hl.run_next ht hbs),
        query_bind (ih ht.2.2 (fun d hd => hbs d (List.mem_cons_of_mem _ hd)) (Nat.le_of_succ_le_succ hn))]
      rfl

theorem Threaded.run_members (hl : Threaded h l) (k : SizeClass) : FreeList.members k h = .ok (l k) := by
  rw [FreeList.members, query_bind (run_head hl k)]
  exact hl.run_chain (hl.threads k) (fun d hd => ⟨k, hd⟩) (Nat.le_of_lt (hl.length_list k))

theorem Cell.Stands.listable (hc : c.Stands h p) (hf : c.alloc = false) :
    c.block.Listable (SizeClass.ofSize c.size) h := by
  refine ⟨c.tag p, hc.liesIn, ?_, ?_⟩
  · rw [c.isAlloc_tag, hf]
  · rw [c.size_tag]

theorem Laid.listable (hL : Laid h w l) {k : SizeClass} {b : Block} (hb : b ∈ l k) : b.Listable k h := by
  obtain ⟨c, hc, rfl, hf, rfl⟩ := hL.filed k b hb
  obtain ⟨p, hst⟩ := hL.stands hc
  exact hst.listable hf

theorem Laid.strung (hL : Laid h w l) {k : SizeClass} {bs : List Block} {prev : Option Block}
    (ht : Threads h.memory none prev bs) (hprev : ∀ b ∈ prev, l.Has b) (hbs : ∀ b ∈ bs, b ∈ l k) :
    Strung h k prev bs.head? bs := by
  induction bs generalizing prev with
  | nil => rfl
  | cons b bs ih =>
    obtain ⟨hnext, hback, ht⟩ := ht
    have hb := hbs b List.mem_cons_self
    have hbs' : ∀ d ∈ bs, d ∈ l k := fun d hd => hbs d (List.mem_cons_of_mem _ hd)
    refine ⟨rfl, hL.listable hb, ?_, ?_⟩
    · rw [Heap.prevLink, wordSize, hback, hL.linked.ofLinkWord hprev]
    · rw [Heap.nextLink, hnext, Option.or_none, hL.linked.ofLinkWord fun d hd =>
        ⟨k, hbs' d (List.mem_of_head? hd)⟩]
      exact ih ht (by rintro _ ⟨⟩; exact ⟨k, hb⟩) hbs'

/-! ## The whole heap -/

def figures (h : Heap) (w : List Cell) : Stats :=
  { Stats.add {} w with heapSize := h.source.size }

theorem Sound.valid (hS : Sound h w l) : h.Valid (taggedCells true w) l where
  chained := hS.chained
  spaced := hS.parted.tagged
  strung k := by
    rw [hS.linked.heads k]
    exact hS.strung (hS.linked.threads k) (by simp) fun _ => id
  count := by
    rw [hS.perm_flat.length_eq, List.length_map, ← List.countP_eq_length_filter]
    exact (countP_taggedCells not).symm

theorem Sound.run_validate (hS : Sound h w l) : validate h = .ok (.ok (figures h w)) := by
  rw [hS.valid.run_validate hS.founded.top_lt, Stats.count_taggedCells]
  rfl

theorem Sound.run_check (hS : Sound h w l) (line : Option Nat) : check line h = .ok true h :=
  (run_bind_query (q := validate.run) hS.run_validate).trans rfl

theorem Sound.run_selfCheck (hS : Sound h w l) : selfCheck h = .ok () h := by
  have hget : (get : Action Heap) h = .ok h h := rfl
  refine (run_bind hget).trans ?_
  cases h.checks with
  | false => rfl
  | true => exact (run_bind (hS.run_check none)).trans (run_demand rfl)

end SegregatedFit
