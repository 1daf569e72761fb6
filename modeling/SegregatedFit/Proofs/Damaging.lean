import SegregatedFit.Proofs.Agreeing
import SegregatedFit.Proofs.Reporting

/-!
# Damage to one word

In a heap of a client, a tag or a link that is overwritten is found out and called by its
name. The walk in address order is still right up to the block of a damaged tag; if a link
is damaged it is right to the end, and so are all lists up to the member with that link.
-/

namespace SegregatedFit

open Block

variable {h h' : Heap} {w : List Cell} {l : Lists} {c : Cell} {b f x : Block} {t u : Tag} {k j : SizeClass}
  {p q : Bool} {us vs ms ds : List Block} {prev link rest : Option Block} {addr n a a' : Nat} {v : Violation}
  {N P : Block → Prop} {last : Option (Block × Tag)} {bs : List (Block × Tag)}

def Heap.poke (h : Heap) (addr n : Nat) : Heap := { h with memory := h.memory.setWord addr n }

theorem Heap.touches_poke (h : Heap) (addr n : Nat) : Touches h (h.poke addr n) fun x => addr ≤ x ∧ x < addr + 8 :=
  touches_setWord h addr n

theorem Heap.heads_poke (h : Heap) (addr n : Nat) : (h.poke addr n).heads = h.heads := rfl

theorem Heap.word_poke (hn : n < wordLimit) : (h.poke a n).memory.word a = n :=
  Memory.word_setWord_same _ _ hn

/-- Once the word at `addr` is overwritten by another word `n`, the violation `v` is reported. -/
def Heap.Reveals (h : Heap) (addr n : Nat) (v : Violation) : Prop :=
  n < wordLimit → n ≠ h.memory.word addr → validate (h.poke addr n) = .ok (.error v)

/-- How damage to the tags of the blocks `bs` and to the links of the lists `l` is reported. -/
structure Heap.Notices (h : Heap) (bs : List (Block × Tag)) (l : Lists) : Prop where
  footer : ∀ b t, (b, t) ∈ bs → ∀ n, h.Reveals (b.footerAddr t.size) n (.tagMismatch b.payload)
  told : ∀ b t, (b, t) ∈ bs → ∀ n, n / alignment = t.bits / alignment → Tag.prevAlloc ⟨n⟩ ≠ t.prevAlloc →
    h.Reveals b.headerAddr n (.prevAllocMismatch b.payload)
  header : ∀ b t, (b, t) ∈ bs → ∀ n, n / alignment = t.bits / alignment → Tag.prevAlloc ⟨n⟩ = t.prevAlloc →
    h.Reveals b.headerAddr n (.tagMismatch b.payload)
  prevLink : ∀ k, ∀ f ∈ l k, ∀ n, h.Reveals f.prevLinkAddr n (.brokenBackLink k f.payload)
  cut : ∀ k us f vs, l k = us ++ f :: vs → h.Reveals f.nextLinkAddr 0
    (.freeCountMismatch (bs.countP (!·.2.isAlloc)) (bs.countP (!·.2.isAlloc) - vs.length))
  /-- A member leaves some of its list out, or leads back into what is before it. -/
  again : ∀ k, ∀ f ∈ l k, ∀ x ∈ l k, h.Reveals f.nextLinkAddr x.payload (.brokenBackLink k x.payload)
  other : ∀ k j, j ≠ k → ∀ f ∈ l k, ∀ x ∈ l j,
    h.Reveals f.nextLinkAddr x.payload (.wrongClass k x.payload (h.sizeAt x))
  allocated : ∀ k, ∀ f ∈ l k, ∀ x t, (x, t) ∈ bs → t.isAlloc = true →
    h.Reveals f.nextLinkAddr x.payload (.allocatedInFreeList k x.payload)
  /-- A member leads to where no block is: out of the heap, or to the epilogue. -/
  nowhere : ∀ k, ∀ f ∈ l k, ∀ n, n ≠ 0 →
    (n < h.source.lo + wordSize ∨ h.top ≤ n) → h.Reveals f.nextLinkAddr n (.invalidFreeLink k n)

/-! ## Tags -/

theorem Stretch.climbs (hs : Stretch h.memory a p w a' q) (hlo : h.source.lo + 8 ≤ a) (hhi : a' ≤ h.top)
    (htop : h.top < wordLimit) (hw : Parted w) (hhead : ∀ c ∈ w.head?, c.alloc = true ∨ p = true)
    (hlast : last.all (·.2.isAlloc) = p) : Climbs h last ⟨a⟩ (taggedCells p w) ⟨a'⟩ ∧
      ((taggedCells p w).getLast?.or last).all (·.2.isAlloc) = q := by
  induction w generalizing a p last with
  | nil =>
    obtain ⟨rfl, rfl⟩ := hs
    exact ⟨rfl, hlast⟩
  | cons c w ih =>
    obtain ⟨rfl, hc, hs⟩ := hs
    have hle := hs.abut.le
    have hst : c.Stands h p := ⟨hc, hlo, Nat.le_trans hle hhi, htop⟩
    have hnext : ∀ d ∈ w.head?, d.alloc = true ∨ c.alloc = true := fun d hd =>
      ((List.isChain_cons.mp hw).1 d hd).symm
    have htold : (some (c.block, c.tag p)).all (·.2.isAlloc) = c.alloc := c.isAlloc_tag p
    obtain ⟨hclimb, hend⟩ := ih hs (by omega) hw.tail hnext htold
    have hafter : c.block.after (c.tag p).size = ⟨c.addr + c.size⟩ := by
      rw [c.size_tag]
      exact after_eq (by simp only [Cell.block]; omega)
    refine ⟨⟨rfl, ⟨hst.liesIn, ?_, ?_, ?_⟩, hafter ▸ hclimb⟩, ?_⟩
    · rw [c.prevAlloc_tag, hlast]
    · rw [c.size_tag]
      exact hst.tagged.footer
    · rw [c.isAlloc_tag, hlast]
      exact hhead c rfl
    · rw [taggedCells, List.getLast?_cons]
      cases hl : (taggedCells c.alloc w).getLast? <;> simpa [hl] using hend

theorem Block.LiesIn.retag (hl : b.LiesIn t h) (hb : h'.bare = h.bare)
    (hword : h'.memory.word (b.payload - wordSize) = u.bits) (hsize : u.size = t.size) : b.LiesIn u h' := by
  refine ⟨⟨hword, ?_, ?_⟩, hl.aligned, ?_, ?_⟩
  · rw [source_of_bare hb]
    exact hl.lo_le
  · rw [top_of_bare hb]
    exact hl.le_top
  · rw [hsize]
    exact hl.le_size
  · rw [hsize, top_of_bare hb]
    exact hl.end_le

theorem Tag.size_eq (he : n / alignment = t.bits / alignment) : Tag.size ⟨n⟩ = t.size :=
  congrArg (· * alignment) he

namespace Sound

variable (hS : Sound h w l) (hb : (b, t) ∈ taggedCells true w)
include hS

theorem top_poke (a n : Nat) : (h.poke a n).top < wordLimit := by
  rw [top_of_bare (h.touches_poke a n).bare]
  exact hS.founded.top_lt

include hb

theorem liesIn : b.LiesIn t h := hS.chained.liesIn _ hb

/-- The walk in address order comes to a block, whatever is written into that or behind it. -/
theorem climbs_poke (ha : b.payload ≤ a + wordSize) (n : Nat) : ∃ bs,
    Climbs (h.poke a n) none (h.poke a n).first bs b ∧ t.prevAlloc = bs.getLast?.all (·.2.isAlloc) := by
  have hword := (hS.liesIn hb).word
  obtain ⟨c, hc, rfl, q, rfl⟩ := exists_cell_of_tagged hb
  obtain ⟨xs, ys, rfl⟩ := List.append_of_mem hc
  obtain ⟨e, p, hx, hy⟩ := tiles_append.mp hS.tiles
  obtain ⟨rfl, htag, hys⟩ := tiles_cons.mp hy
  obtain rfl : q = p := by
    have he : c.tag q = c.tag p := Tag.ext (hword.symm.trans htag.header)
    simpa using congrArg Tag.prevAlloc he
  have hbare := (h.touches_poke a n).bare
  have hle := hys.abut.le
  -- the cells before the block lie below what is written
  have hstretch : Stretch (h.poke a n).memory ((h.poke a n).source.lo + 32) true xs c.addr q := by
    rw [source_of_bare hbare]
    refine hx.congr (by omega) fun y _ hy _ => Memory.byte_setWord_outside _ _ (.inl ?_)
    simp only [Cell.block, wordSize] at ha
    omega
  have htop : c.addr ≤ (h.poke a n).top := by
    rw [top_of_bare hbare]
    omega
  obtain ⟨hclimb, hlast⟩ := hstretch.climbs (by omega) htop (hS.top_poke a n) hS.parted.left (by simp)
    (Option.all_none : none.all (fun d : Block × Tag => d.2.isAlloc) = true)
  rw [Option.or_none] at hlast
  refine ⟨taggedCells true xs, ?_, ?_⟩
  · rw [(hS.founded.of_bare hbare).first]
    exact hclimb
  · rw [c.prevAlloc_tag, hlast]

theorem reveals_footer (n : Nat) : h.Reveals (b.footerAddr t.size) n (.tagMismatch b.payload) := by
  have hl := hS.liesIn hb
  have hlo := hl.lo_le
  have hs := hl.le_size
  have haddr := hl.footerAddr hS.founded.top_lt
  rw [haddr]
  have ha : b.payload ≤ b.payload + t.size - overhead := by
    simp only [minBlock, overhead] at hs ⊢
    omega
  intro hn hne
  rw [hS.chained.footed hb] at hne
  obtain ⟨bs, hc, htold⟩ := hS.climbs_poke hb (Nat.le_trans ha (Nat.le_add_right _ _)) n
  have hword : (h.poke (b.payload + t.size - overhead) n).memory.word (b.payload - wordSize) = t.bits := by
    rw [← hl.word]
    refine Memory.word_setWord_disjoint _ _ (.inr ?_)
    simp only [wordSize] at hlo ⊢
    omega
  have hl' := hl.retag (h.touches_poke _ n).bare hword rfl
  refine Heap.Reports.run (hS.top_poke _ n) (.block hc (.torn hl' htold ?_))
  rwa [Heap.word_poke hn]

theorem climbs_header (hn : n < wordLimit) (he : n / alignment = t.bits / alignment) :
    b.LiesIn ⟨n⟩ (h.poke b.headerAddr n) ∧ ∃ bs, t.prevAlloc = bs.getLast?.all (·.2.isAlloc) ∧
      Climbs (h.poke b.headerAddr n) none (h.poke b.headerAddr n).first bs b := by
  have hl := hS.liesIn hb
  have hlo := hl.lo_le
  rw [hl.headerAddr]
  obtain ⟨bs, hc, htold⟩ := hS.climbs_poke hb (a := b.payload - wordSize) (by omega) n
  exact ⟨hl.retag (h.touches_poke _ n).bare (Heap.word_poke hn) (Tag.size_eq he), bs, htold, hc⟩

theorem reveals_told (he : n / alignment = t.bits / alignment) (hp : Tag.prevAlloc ⟨n⟩ ≠ t.prevAlloc) :
    h.Reveals b.headerAddr n (.prevAllocMismatch b.payload) := by
  intro hn _
  obtain ⟨hl, bs, htold, hc⟩ := hS.climbs_header hb hn he
  rw [htold] at hp
  exact Heap.Reports.run (hS.top_poke _ n) (.block hc (.untold hl.toBears hp))

theorem reveals_header (he : n / alignment = t.bits / alignment) (hp : Tag.prevAlloc ⟨n⟩ = t.prevAlloc) :
    h.Reveals b.headerAddr n (.tagMismatch b.payload) := by
  intro hn hne
  have hl := hS.liesIn hb
  have hlo := hl.lo_le
  have hs := hl.le_size
  rw [hl.headerAddr, hl.word] at hne
  obtain ⟨hl', bs, htold, hc⟩ := hS.climbs_header hb hn he
  have hfoot : (h.poke b.headerAddr n).memory.word (b.payload + t.size - overhead) = t.bits := by
    rw [← hS.chained.footed hb, hl.headerAddr]
    refine Memory.word_setWord_disjoint _ _ (.inl ?_)
    simp only [minBlock, overhead, wordSize] at hlo hs ⊢
    omega
  refine Heap.Reports.run (hS.top_poke _ n) (.block hc (.torn hl' (hp.trans htold) ?_))
  rw [Tag.size_eq he, hfoot]
  exact hne.symm

end Sound

/-! ## Links -/

theorem accepts_none : Accepts h k prev link ms none ↔ Strung h k prev link ms := by
  refine ⟨fun ha => ?_, Strung.accepts⟩
  induction ms generalizing prev link with
  | nil => exact ha
  | cons b ms ih =>
    obtain ⟨hlink, hb, hprev, ha⟩ := ha
    exact ⟨hlink, hb, hprev, ih ha⟩

theorem accepts_append : Accepts h k prev link (us ++ vs) rest ↔
    ∃ mid, Accepts h k prev link us mid ∧ Accepts h k (us.getLast?.or prev) mid vs rest := by
  induction us generalizing prev link with
  | nil =>
    constructor
    · intro ha
      exact ⟨link, rfl, ha⟩
    · rintro ⟨_, rfl, ha⟩
      exact ha
  | cons b us ih =>
    have hlast : (b :: us).getLast?.or prev = us.getLast?.or (some b) := by
      rw [List.getLast?_cons]
      cases us.getLast? <;> rfl
    rw [hlast]
    constructor
    · intro ha
      obtain ⟨hlink, hb, hprev, ha⟩ := ha
      obtain ⟨mid, hus, hvs⟩ := ih.mp ha
      exact ⟨mid, ⟨hlink, hb, hprev, hus⟩, hvs⟩
    · intro hr
      obtain ⟨mid, ⟨hlink, hb, hprev, hus⟩, hvs⟩ := hr
      exact ⟨hlink, hb, hprev, ih.mpr ⟨mid, hus, hvs⟩⟩

theorem Accepts.congr (ha : Accepts h k prev link ms rest) (hlist : ∀ d ∈ ms, d.Listable k h')
    (hlinks : ∀ d ∈ ms, h'.nextLink d = h.nextLink d ∧ h'.prevLink d = h.prevLink d) :
    Accepts h' k prev link ms rest := by
  induction ms generalizing prev link with
  | nil => exact ha
  | cons b ms ih =>
    obtain ⟨hlink, -, hprev, ha⟩ := ha
    obtain ⟨hb, hlist⟩ := List.forall_mem_cons.mp hlist
    obtain ⟨⟨hnext, hback⟩, hlinks⟩ := List.forall_mem_cons.mp hlinks
    refine ⟨hlink, hb, hback.trans hprev, ?_⟩
    rw [hnext]
    exact ih ha hlist hlinks

theorem Strung.next_of_prev (hs : Strung h k none link ms) (hx : x ∈ ms) (hback : h.prevLink x = some f) :
    h.nextLink f = some x := by
  obtain ⟨us, vs, rfl⟩ := List.append_of_mem hx
  obtain ⟨_, hus, rfl, -, hprev, -⟩ := accepts_append.mp hs.accepts
  rw [Option.or_none, hback] at hprev
  obtain ⟨us, rfl⟩ := List.getLast?_eq_some_iff.mp hprev.symm
  obtain ⟨_, -, rfl, -, -, hnext⟩ := accepts_append.mp hus
  exact hnext

/-- The heaps differ at most in links of `f`, a member of the list of class `k` that comes after
`us` and before `vs`. -/
structure Relinked (h h' : Heap) (w : List Cell) (l : Lists) (k : SizeClass) (us : List Block) (f : Block)
    (vs : List Block) (N P : Block → Prop) : Prop where
  sound : Sound h w l
  list : l k = us ++ f :: vs
  only : ∀ b, N b ∨ P b → b = f
  touches : Touches h h' (LinkBytes N P)
  heads : h'.heads = h.heads

namespace Relinked

theorem mem (hR : Relinked h h' w l k us f vs N P) : f ∈ l k := by
  rw [hR.list]
  exact List.mem_append_right _ List.mem_cons_self

theorem top_lt (hR : Relinked h h' w l k us f vs N P) : h'.top < wordLimit := by
  rw [top_of_bare hR.touches.bare]
  exact hR.sound.founded.top_lt

theorem tiles (hR : Relinked h h' w l k us f vs N P) :
    Tiles h'.memory h'.top (h'.source.lo + 32) true w := by
  rw [top_of_bare hR.touches.bare, source_of_bare hR.touches.bare]
  refine (hR.sound.tiles_of_links (fun b hb => ?_) hR.touches).1
  rw [hR.only b hb]
  exact hR.sound.cell ⟨k, hR.mem⟩

theorem stands (hR : Relinked h h' w l k us f vs N P) (hc : c ∈ w) : ∃ q, c.Stands h' q :=
  hR.tiles.stands_of_mem (by omega) hR.top_lt hc

theorem chained (hR : Relinked h h' w l k us f vs N P) : Chained h' true h'.first (taggedCells true w) := by
  have hfirst : h'.first = ⟨h'.source.lo + 32⟩ := (hR.sound.founded.of_bare hR.touches.bare).first
  rw [hfirst]
  exact hR.tiles.chained (by omega) hR.top_lt

theorem listable (hR : Relinked h h' w l k us f vs N P) (hx : x ∈ l j) : x.Listable j h' := by
  obtain ⟨c, hc, rfl, hf, rfl⟩ := hR.sound.filed j x hx
  obtain ⟨q, hst⟩ := hR.stands hc
  exact hst.listable hf

theorem apart (hR : Relinked h h' w l k us f vs N P) (hx : l.Has x) : ∀ e, N e ∨ P e → e ≠ x → e.Apart x :=
  fun e he hne => hR.sound.linked.apart (hR.only e he ▸ ⟨k, hR.mem⟩) hx hne

theorem nextLink (hR : Relinked h h' w l k us f vs N P) (hx : l.Has x) (hN : ¬ N x) :
    h'.nextLink x = h.nextLink x :=
  congrArg ofLinkWord (hR.touches.nextLink hN (hR.apart hx))

theorem prevLink (hR : Relinked h h' w l k us f vs N P) (hx : l.Has x) (hP : ¬ P x) :
    h'.prevLink x = h.prevLink x :=
  congrArg ofLinkWord (hR.touches.prevLink hP (hR.apart hx))

theorem accepts (hR : Relinked h h' w l k us f vs N P) (ha : Accepts h j prev link ms rest)
    (hms : ∀ d ∈ ms, d ∈ l j ∧ d ≠ f) : Accepts h' j prev link ms rest := by
  refine ha.congr (fun d hd => hR.listable (hms d hd).1) fun d hd => ?_
  obtain ⟨hdj, hne⟩ := hms d hd
  exact ⟨hR.nextLink ⟨j, hdj⟩ fun hN => hne (hR.only d (.inl hN)),
    hR.prevLink ⟨j, hdj⟩ fun hP => hne (hR.only d (.inr hP))⟩

theorem strung (hR : Relinked h h' w l k us f vs N P) (hj : j ≠ k) : Strung h' j none (h'.heads.get j) (l j) := by
  rw [hR.heads]
  refine accepts_none.mp (hR.accepts (hR.sound.valid.strung j).accepts fun d hd => ⟨hd, ?_⟩)
  rintro rfl
  exact hj (hR.sound.linked.once hd hR.mem)

theorem accepts_to (hR : Relinked h h' w l k us f vs N P) : Accepts h' k none (h'.heads.get k) us (some f) ∧
    h.prevLink f = us.getLast? := by
  have hs := (hR.sound.valid.strung k).accepts
  rw [hR.list] at hs
  obtain ⟨_, hus, rfl, -, hprev, -⟩ := accepts_append.mp hs
  have hnd := hR.sound.linked.nodup k
  rw [hR.list] at hnd
  rw [hR.heads]
  refine ⟨hR.accepts hus fun d hd => ⟨?_, ?_⟩, by rwa [Option.or_none] at hprev⟩
  · rw [hR.list]
    exact List.mem_append_left _ hd
  · rintro rfl
    exact (List.nodup_append.mp hnd).2.2 d hd d List.mem_cons_self rfl

theorem accepts_past (hR : Relinked h h' w l k us f vs N P) (hP : ¬ P f) :
    Accepts h' k none (h'.heads.get k) (us ++ [f]) (h'.nextLink f) := by
  obtain ⟨ha, hprev⟩ := hR.accepts_to
  refine ha.concat (hR.listable hR.mem) ?_
  rw [hR.prevLink ⟨k, hR.mem⟩ hP, hprev, Option.or_none]

/-- A member that does not fit is reported, as all that comes before it is in order. -/
theorem reports (hR : Relinked h h' w l k us f vs N P) (ha : Accepts h' k none (h'.heads.get k) ms (some b))
    (hv : b.Misfits h' k ms.getLast? v) : validate h' = .ok (.error v) := by
  refine Heap.Reports.run hR.top_lt (.member hR.chained hR.sound.parted.tagged (fun j hj => ?_) ha hv)
  exact ⟨l j, hR.strung (Fin.ne_of_lt hj)⟩

end Relinked

theorem Sound.reveals_prevLink (hS : Sound h w l) (hf : f ∈ l k) (n : Nat) :
    h.Reveals f.prevLinkAddr n (.brokenBackLink k f.payload) := by
  intro hn hne
  obtain ⟨us, vs, hk⟩ := List.append_of_mem hf
  have haddr := (hS.linked.node ⟨k, hf⟩).prevLinkAddr
  rw [haddr] at hne ⊢
  have ht : Touches h (h.poke (f.payload + 8) n) (LinkBytes (fun _ => False) (· = f)) :=
    (h.touches_poke _ n).mono fun y hy => .inr ⟨f, rfl, hy.1, by omega⟩
  have hR : Relinked h (h.poke (f.payload + 8) n) w l k us f vs (fun _ => False) (· = f) :=
    ⟨hS, hk, by simp, ht, h.heads_poke _ n⟩
  obtain ⟨ha, hprev⟩ := hR.accepts_to
  refine hR.reports ha (.unlinked (hR.listable hf) fun he => ?_)
  have hword : (h.poke (f.payload + 8) n).prevLink f = ofLinkWord n := congrArg ofLinkWord (Heap.word_poke hn)
  rw [hword, ← hprev] at he
  exact hne (ofLinkWord_inj he)

theorem Sound.relinked_next (hS : Sound h w l) (hk : l k = us ++ f :: vs) (hn : n < wordLimit) :
    Relinked h (h.poke f.nextLinkAddr n) w l k us f vs (· = f) (fun _ => False) ∧
      (h.poke f.nextLinkAddr n).nextLink f = ofLinkWord n := by
  have ht : Touches h (h.poke f.nextLinkAddr n) (LinkBytes (· = f) fun _ => False) :=
    (h.touches_poke _ n).mono fun y hy => .inl ⟨f, rfl, hy⟩
  exact ⟨⟨hS, hk, by simp, ht, h.heads_poke _ n⟩, congrArg ofLinkWord (Heap.word_poke hn)⟩

theorem Sound.reveals_next (hS : Sound h w l) (hf : f ∈ l k) (hpos : x.payload ≠ 0)
    (hv : h.nextLink f ≠ some x → ∀ {h' us vs}, Relinked h h' w l k us f vs (· = f) (fun _ => False) →
      x.Misfits h' k (some f) v) : h.Reveals f.nextLinkAddr x.payload v := by
  intro hn hne
  obtain ⟨us, vs, hk⟩ := List.append_of_mem hf
  obtain ⟨hR, hnext⟩ := hS.relinked_next hk hn
  have hlink : ofLinkWord x.payload = some x := if_neg hpos
  have hne' : h.nextLink f ≠ some x := fun he => hne (ofLinkWord_inj (hlink.trans he.symm))
  have ha := hR.accepts_past not_false
  rw [hnext, hlink] at ha
  refine hR.reports ha ?_
  rw [List.getLast?_concat]
  exact hv hne' hR

theorem Sound.reveals_again (hS : Sound h w l) (hf : f ∈ l k) (hx : x ∈ l k) :
    h.Reveals f.nextLinkAddr x.payload (.brokenBackLink k x.payload) := by
  have hpos := (hS.linked.node ⟨k, hx⟩).pos
  refine hS.reveals_next hf (by omega) fun hne h' us vs hR => .unlinked (hR.listable hx) fun hback => hne ?_
  rw [hR.prevLink ⟨k, hx⟩ not_false] at hback
  exact (hS.valid.strung k).next_of_prev hx hback

theorem Sound.reveals_other (hS : Sound h w l) (hj : j ≠ k) (hf : f ∈ l k) (hx : x ∈ l j) :
    h.Reveals f.nextLinkAddr x.payload (.wrongClass k x.payload (h.sizeAt x)) := by
  have hpos := (hS.linked.node ⟨j, hx⟩).pos
  refine hS.reveals_next hf (by omega) fun _ h' us vs hR => ?_
  obtain ⟨c, hc, rfl, hfree, rfl⟩ := hS.filed j x hx
  obtain ⟨q, hst⟩ := hR.stands hc
  rw [hS.sizeAt hc, ← c.size_tag q]
  refine .misfiled hst.liesIn ?_ ?_
  · rw [c.isAlloc_tag, hfree]
  · rw [c.size_tag]
    exact hj

theorem Sound.reveals_allocated (hS : Sound h w l) (hf : f ∈ l k) (hx : (x, t) ∈ taggedCells true w)
    (ht : t.isAlloc = true) : h.Reveals f.nextLinkAddr x.payload (.allocatedInFreeList k x.payload) := by
  obtain ⟨c, hc, rfl, q, rfl⟩ := exists_cell_of_tagged hx
  rw [c.isAlloc_tag] at ht
  have hb := hS.abut.bounds c hc
  refine hS.reveals_next hf ?_ fun _ h' us vs hR => ?_
  · simp only [Cell.block]
    omega
  · obtain ⟨q, hst⟩ := hR.stands hc
    refine .allocated hst.liesIn ?_
    rw [c.isAlloc_tag, ht]

theorem Sound.reveals_nowhere (hS : Sound h w l) (hf : f ∈ l k) (hpos : n ≠ 0)
    (hout : n < h.source.lo + wordSize ∨ h.top ≤ n) : h.Reveals f.nextLinkAddr n (.invalidFreeLink k n) := by
  refine hS.reveals_next (x := ⟨n⟩) hf hpos fun _ h' us vs hR => ?_
  have htop := top_of_bare hR.touches.bare
  have hlo := congrArg Source.lo (source_of_bare hR.touches.bare)
  rw [← htop, ← hlo] at hout
  by_cases hn : n = h'.top
  · obtain ⟨q, hs, he⟩ := hR.tiles
    have hle := hs.abut.le
    subst hn
    refine .empty (t := .pack 0 true q) ⟨he, ?_, Nat.le_refl _⟩ (by simp)
    simp only [wordSize]
    omega
  · refine .outside fun hin => ?_
    simp only at hin
    omega

theorem Lists.length_flat_update (l : Lists) (k : SizeClass) (ms : List Block) :
    (Lists.flat (Function.update l k ms)).length + (l k).length = l.flat.length + ms.length := by
  obtain ⟨ys, zs, he⟩ := List.append_of_mem (List.mem_finRange k)
  have hnd : (ys ++ k :: zs).Nodup := he ▸ List.nodup_finRange classCount
  have hother : ∀ js : List SizeClass, k ∉ js → js.flatMap (Function.update l k ms) = js.flatMap l := by
    intro js hk
    refine List.flatMap_congr fun j hj => ?_
    have hne : j ≠ k := fun he => hk (he ▸ hj)
    rw [Function.update_of_ne hne]
  have hys := hother ys fun hk => (List.nodup_append.mp hnd).2.2 k hk k List.mem_cons_self rfl
  have hzs := hother zs (List.nodup_cons.mp (List.nodup_append.mp hnd).2.1).1
  simp only [flat, SizeClass.all, he, List.flatMap_append, List.flatMap_cons, hys, hzs, Function.update_self,
    List.length_append]
  omega

theorem Sound.reveals_cut (hS : Sound h w l) (hk : l k = us ++ f :: vs) : h.Reveals f.nextLinkAddr 0
    (.freeCountMismatch ((taggedCells true w).countP (!·.2.isAlloc))
      ((taggedCells true w).countP (!·.2.isAlloc) - vs.length)) := by
  intro hn hne
  obtain ⟨hR, hnext⟩ := hS.relinked_next hk hn
  have ha := hR.accepts_past not_false
  rw [hnext, ofLinkWord_zero] at ha
  have hvs : vs ≠ [] := by
    rintro rfl
    have hs := (hS.valid.strung k).accepts
    rw [hk] at hs
    obtain ⟨_, -, rfl, -, -, hlink⟩ := accepts_append.mp hs
    exact hne (ofLinkWord_inj hlink.symm)
  -- all lists still end, so that the inspection comes to the count
  have hl : ∀ j, Strung (h.poke f.nextLinkAddr 0) j none ((h.poke f.nextLinkAddr 0).heads.get j)
      (Function.update l k (us ++ [f]) j) := by
    intro j
    by_cases hj : j = k
    · subst hj
      rw [Function.update_self]
      exact accepts_none.mp ha
    · rw [Function.update_of_ne hj]
      exact hR.strung hj
  have hlen := l.length_flat_update k (us ++ [f])
  have hpos := List.length_pos_of_ne_nil hvs
  rw [hk, hS.valid.count] at hlen
  simp only [List.length_append, List.length_cons, List.length_nil] at hlen
  have hrest : (taggedCells true w).countP (!·.2.isAlloc) - vs.length =
      (Lists.flat (Function.update l k (us ++ [f]))).length := by omega
  rw [hrest]
  exact Heap.Reports.run hR.top_lt (.count hR.chained hS.parted.tagged hl (by omega))

theorem Sound.notices_damage (hS : Sound h w l) : h.Notices (taggedCells true w) l where
  footer _ _ hb n := hS.reveals_footer hb n
  told _ _ hb _ he hp := hS.reveals_told hb he hp
  header _ _ hb _ he hp := hS.reveals_header hb he hp
  prevLink _ _ hf n := hS.reveals_prevLink hf n
  cut _ _ _ _ hk := hS.reveals_cut hk
  again _ _ hf _ hx := hS.reveals_again hf hx
  other _ _ hj _ hf _ hx := hS.reveals_other hj hf hx
  allocated _ _ hf _ _ hx ht := hS.reveals_allocated hf hx ht
  nowhere _ _ hf _ hpos hout := hS.reveals_nowhere hf hpos hout

/-- In every heap of a client, a tag of any block and a link of any listed block that is overwritten is
found out by `validate` and called by its name. -/
theorem Reachable.notices {c : Client} (hc : Reachable c) : ∃ bs l, blocks c.heap = .ok bs ∧
    (∀ k, FreeList.members k c.heap = .ok (l k)) ∧ c.heap.Notices bs l := by
  obtain ⟨w, l, hT⟩ := hc.tracked
  exact ⟨taggedCells true w, l, hT.sound.run_blocks, hT.sound.linked.run_members, hT.sound.notices_damage⟩

theorem tieRun_notices : FreeList.members 1 tieRun.heap = .ok [⟨4224⟩, ⟨4128⟩, ⟨4320⟩] ∧
    tieRun.heap.Reveals 4128 4224 (.brokenBackLink 1 4224) ∧
    tieRun.heap.Reveals 4128 0 (.freeCountMismatch 3 2) := by
  obtain ⟨bs, l, hbs, hm, hN⟩ := Reachable.notices reachable_tieRun
  obtain ⟨hblocks, hmembers⟩ : (blocks tieRun.heap).map (·.countP (!·.2.isAlloc)) = .ok 3 ∧
      FreeList.members 1 tieRun.heap = .ok [⟨4224⟩, ⟨4128⟩, ⟨4320⟩] := by decide +kernel
  have hl : l 1 = [⟨4224⟩, ⟨4128⟩, ⟨4320⟩] := Except.ok.inj ((hm 1).symm.trans hmembers)
  have hcount : bs.countP (!·.2.isAlloc) = 3 := by
    rw [hbs] at hblocks
    exact Except.ok.inj hblocks
  have hcut := hN.cut 1 [⟨4224⟩] ⟨4128⟩ [⟨4320⟩] hl
  rw [hcount] at hcut
  exact ⟨hmembers, hN.again 1 ⟨4128⟩ (by simp [hl]) ⟨4224⟩ (by simp [hl]), hcut⟩

end SegregatedFit
