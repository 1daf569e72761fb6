import Mathlib.Data.List.FinRange
import SegregatedFit.Inspection
import SegregatedFit.Walk
import SegregatedFit.Proofs.Sound

/-!
# What the checks decide

Every check of an inspection is one condition on the words of the heap. The walk in
address order finds nothing if and only if it goes along a chain of blocks, and a list
is accepted if and only if it is a chain of free blocks of its class that link back.
-/

namespace SegregatedFit

open Block

variable {α β : Type} {h : Heap} {a : α} {b : Block} {t : Tag} {p : Bool} {k : SizeClass}

/-! ## Running inspections -/

theorem inspection_bind {x : Inspection α} {f : α → Inspection β} (hx : x h = .ok (.ok a)) :
    (x >>= f) h = f a h := by
  show (x h >>= fun r => _) = _
  rw [hx]; rfl

theorem inspection_stop {x : Inspection α} {f : α → Inspection β} {v : Violation} (hx : x h = .ok (.error v)) :
    (x >>= f) h = .ok (.error v) := by
  show (x h >>= fun r => _) = _
  rw [hx]; rfl

theorem inspection_query {q : Query α} {f : α → Inspection β} (hq : q h = .ok a) :
    ((liftM q : Inspection α) >>= f) h = f a h := by
  refine inspection_bind ?_
  show (q h >>= fun a => pure (Except.ok a)) = _
  rw [hq]; rfl

theorem inspection_except {x : Except Fault α} {f : α → Inspection β} (hx : x = .ok a) :
    ((liftM x : Inspection α) >>= f) h = f a h := by
  subst hx; rfl

theorem run_require {p : Prop} [Decidable p] {v : Violation} (hp : p) :
    require p v h = .ok (.ok ()) := by
  unfold require; rw [if_pos hp]; rfl

theorem ok_bind_iff {x : Inspection α} {f : α → Inspection β} {r : β} :
    (x >>= f) h = .ok (.ok r) ↔ ∃ a, x h = .ok (.ok a) ∧ f a h = .ok (.ok r) := by
  constructor
  · intro hr
    change (x h >>= fun r => _) = _ at hr
    cases hx : x h with
    | error e => rw [hx] at hr; cases hr
    | ok s =>
      rw [hx] at hr
      cases s with
      | error v => cases hr
      | ok a => exact ⟨a, rfl, hr⟩
  · intro hr
    obtain ⟨a, hx, hf⟩ := hr
    rw [inspection_bind hx, hf]

theorem ok_pure_iff {c : α} : (pure c : Inspection α) h = .ok (.ok a) ↔ c = a := by
  constructor
  · intro hr; cases hr; rfl
  · rintro rfl; rfl

theorem ok_require_iff {q : Prop} [Decidable q] {v : Violation} {u : Unit} :
    require q v h = .ok (.ok u) ↔ q := by
  by_cases hq : q
  · rw [run_require hq]
    simp [hq]
  · unfold require
    rw [if_neg hq]
    constructor
    · intro hr; cases hr
    · intro hr; exact absurd hr hq

theorem ok_guard_iff {q : Prop} [Decidable q] {v : Violation} {x : Inspection α} :
    (do
      require q v
      x : Inspection α) h = .ok (.ok a) ↔ q ∧ x h = .ok (.ok a) := by
  simp only [ok_bind_iff, ok_require_iff, exists_const]

theorem ok_report_iff {v : Violation} : (report v : Inspection α) h = .ok (.ok a) ↔ False := by
  constructor
  · intro hr; cases hr
  · exact False.elim

theorem ok_mapM_iff {f : α → Inspection β} {xs : List α} {ys : List β} :
    xs.mapM f h = .ok (.ok ys) ↔ xs.map (f · h) = ys.map fun y => .ok (.ok y) := by
  induction xs generalizing ys with
  | nil =>
    rw [List.mapM_nil, ok_pure_iff]
    cases ys <;> simp
  | cons x xs ih =>
    rw [List.mapM_cons, ok_bind_iff]
    simp only [ok_bind_iff, ok_pure_iff, ih]
    cases ys with
    | nil => simp
    | cons y ys => simp

theorem run_inHeap_eq (htop : h.top < wordLimit) (addr len : Nat) :
    inHeap addr len h = .ok (decide (h.source.lo ≤ addr ∧ addr + len ≤ h.top)) := by
  show h.source.contains addr len = _
  unfold Source.contains
  unfold Heap.top at *
  rw [checkedAdd_of_lt htop]
  by_cases hin : addr + len < wordLimit ∧ h.source.lo ≤ addr
  · rw [if_pos hin]
    simp [Except.map, hin.2]
  · rw [if_neg hin]
    have hout : ¬ (h.source.lo ≤ addr ∧ addr + len ≤ h.source.lo + h.source.size) := by omega
    simp [hout]

theorem ok_inHeap_iff (htop : h.top < wordLimit) {addr len : Nat} {v : Violation} {x : Inspection α} :
    (do
      require (← inHeap addr len) v
      x : Inspection α) h = .ok (.ok a) ↔
      (h.source.lo ≤ addr ∧ addr + len ≤ h.top) ∧ x h = .ok (.ok a) := by
  rw [inspection_query (run_inHeap_eq htop addr len), ok_guard_iff, decide_eq_true_eq]

/-! ## Single checks -/

structure Block.Bears (b : Block) (t : Tag) (h : Heap) : Prop where
  word : h.memory.word (b.payload - wordSize) = t.bits
  lo_le : h.source.lo + wordSize ≤ b.payload
  le_top : b.payload ≤ h.top

structure Block.LiesIn (b : Block) (t : Tag) (h : Heap) : Prop extends b.Bears t h where
  aligned : b.payload % alignment = 0
  le_size : minBlock ≤ t.size
  end_le : b.payload + t.size ≤ h.top + wordSize

namespace Block.Bears

theorem headerAddr (hb : b.Bears t h) : b.headerAddr = b.payload - wordSize := by
  have hlo := hb.lo_le
  exact headerAddr_eq (by simp only [wordSize] at hlo; omega)

theorem permits (hb : b.Bears t h) : h.permits b.headerAddr wordSize = true := by
  have hlo := hb.lo_le
  have hhi := hb.le_top
  rw [hb.headerAddr]
  simp only [wordSize] at hlo ⊢
  exact permits_word (by omega) (by omega)

theorem header (hb : b.Bears t h) : b.header h = .ok t := by
  rw [run_header hb.permits, hb.headerAddr, hb.word]

end Block.Bears

theorem headerAddr_mem (htop : h.top < wordLimit) :
    h.source.lo ≤ b.headerAddr ∧ b.headerAddr + wordSize ≤ h.top ↔
      h.source.lo + wordSize ≤ b.payload ∧ b.payload ≤ h.top := by
  unfold Block.headerAddr wrapSub
  simp only [wordLimit, wordSize] at *
  split <;> omega

theorem ok_header_iff (htop : h.top < wordLimit) {f : Tag → Inspection α} {v : Violation} :
    (do
      require (← inHeap b.headerAddr wordSize) v
      let t ← b.header
      f t : Inspection α) h = .ok (.ok a) ↔ ∃ t, b.Bears t h ∧ f t h = .ok (.ok a) := by
  rw [ok_inHeap_iff htop, headerAddr_mem htop]
  constructor
  · intro hr
    obtain ⟨⟨hlo, hhi⟩, hf⟩ := hr
    have hb : b.Bears ⟨h.memory.word (b.payload - wordSize)⟩ h := ⟨rfl, hlo, hhi⟩
    rw [inspection_query hb.header] at hf
    exact ⟨_, hb, hf⟩
  · intro hr
    obtain ⟨t, hb, hf⟩ := hr
    rw [inspection_query hb.header]
    exact ⟨⟨hb.lo_le, hb.le_top⟩, hf⟩

theorem checkHeader_iff (htop : h.top < wordLimit) :
    checkHeader p b h = .ok (.ok t) ↔ b.Bears t h ∧ t.prevAlloc = p := by
  unfold checkHeader
  rw [ok_header_iff htop]
  simp only [ok_bind_iff, ok_require_iff, ok_pure_iff]
  constructor
  · intro hr
    obtain ⟨_, hb, _, hp, rfl⟩ := hr
    exact ⟨hb, hp⟩
  · intro hr
    obtain ⟨hb, hp⟩ := hr
    exact ⟨t, hb, (), hp, rfl⟩

theorem checkEpilogue_iff (htop : h.top < wordLimit) (hb : b.Bears t h) :
    checkEpilogue b t h = .ok (.ok ()) ↔ t.isAlloc = true ∧ b.payload = h.top := by
  have hlo := hb.lo_le
  have hrun : checkEpilogue b t h =
      require (t.isAlloc = true ∧ b.headerAddr + wordSize = h.top) (.misplacedEpilogue b.payload) h :=
    (inspection_bind (a := h) rfl).trans (inspection_except (checkedAdd_of_lt htop))
  rw [hrun, ok_require_iff, hb.headerAddr]
  simp only [wordSize] at *
  have heq : b.payload - 8 + 8 = b.payload := by omega
  rw [heq]

theorem liesIn_iff (hb : b.Bears t h) :
    PossibleBlock b t.size ∧ (h.source.lo ≤ b.headerAddr ∧ b.headerAddr + t.size ≤ h.top) ↔
      b.LiesIn t h := by
  have hlo := hb.lo_le
  have hmod := t.size_mod
  rw [hb.headerAddr]
  unfold PossibleBlock
  simp only [wordSize, alignment] at *
  constructor
  · intro hr
    obtain ⟨⟨ha, hs, -⟩, -, hi⟩ := hr
    exact ⟨hb, ha, hs, by simp only [wordSize]; omega⟩
  · intro hl
    have hend := hl.end_le
    simp only [wordSize] at hend
    exact ⟨⟨hl.aligned, hl.le_size, hmod⟩, by omega, by omega⟩

namespace Block.LiesIn

theorem permits (hl : b.LiesIn t h) {addr : Nat} (hlo : b.payload ≤ addr)
    (hhi : addr + 16 ≤ b.payload + t.size) : h.permits addr wordSize = true := by
  have h₁ := hl.lo_le
  have h₂ := hl.end_le
  simp only [wordSize] at *
  exact permits_word (by omega) (by omega)

/-- The footer ends one word before the header of the next block, even if that one lies
at the end of the words. -/
theorem footerAddr (hl : b.LiesIn t h) (htop : h.top < wordLimit) :
    b.footerAddr t.size = b.payload + t.size - overhead := by
  have hs := hl.le_size
  have he := hl.end_le
  have ha := hl.aligned
  have hm := t.size_mod
  unfold Block.footerAddr wrapAdd wrapSub
  simp only [wordLimit, wordSize, overhead, minBlock, alignment] at *
  split <;> split <;> omega

theorem footer (hl : b.LiesIn t h) (htop : h.top < wordLimit) :
    b.footer h = .ok ⟨h.memory.word (b.payload + t.size - overhead)⟩ := by
  have hs := hl.le_size
  simp only [minBlock] at hs
  rw [Block.footer, query_bind hl.header, hl.footerAddr htop,
    query_bind (run_load (hl.permits (by simp only [overhead]; omega) (by simp only [overhead]; omega)))]
  rfl

theorem overlaps_not (hl : b.LiesIn t h) (htop : h.top < wordLimit) :
    b.footerAddr t.size + wordSize ≤ (b.after t.size).headerAddr ∧
      b.footerAddr t.size + wordSize < wordLimit := by
  have hs := hl.le_size
  have he := hl.end_le
  have ha := hl.aligned
  have hm := t.size_mod
  rw [hl.footerAddr htop]
  unfold Block.headerAddr after wrapAdd wrapSub
  simp only [wordLimit, wordSize, overhead, minBlock, alignment] at *
  split <;> split <;> omega

theorem after (hl : b.LiesIn t h) (htop : h.top < wordLimit)
    (hup : b.payload < (b.after t.size).payload ∧ (b.after t.size).payload < wordLimit) :
    b.after t.size = ⟨b.payload + t.size⟩ := by
  have hs := hl.le_size
  have he := hl.end_le
  have hlo := hl.lo_le
  refine after_eq ?_
  unfold Block.after wrapAdd at hup
  simp only [wordLimit, wordSize, minBlock] at *
  split at hup <;> omega

theorem nextFree (hl : b.LiesIn t h) : b.nextFree h = .ok (ofLinkWord (h.memory.word b.payload)) := by
  have hs := hl.le_size
  rw [Block.nextFree, nextLinkAddr, query_bind (run_load (hl.permits (Nat.le_refl _) ?_))]
  · rfl
  · simp only [minBlock] at hs; omega

theorem prevFree (hl : b.LiesIn t h) (htop : h.top < wordLimit) :
    b.prevFree h = .ok (ofLinkWord (h.memory.word (b.payload + wordSize))) := by
  have hs := hl.le_size
  have he := hl.end_le
  simp only [minBlock, wordSize] at hs he
  have haddr : b.prevLinkAddr = b.payload + wordSize := wrapAdd_of_lt (by simp only [wordSize]; omega)
  rw [Block.prevFree, haddr, query_bind (run_load (hl.permits ?_ ?_))]
  · rfl
  · simp only [wordSize]; omega
  · simp only [wordSize]; omega

end Block.LiesIn

theorem ok_lastFree_iff {o : Option Block} :
    (o.forM fun f => (report (.adjacentFree f.payload b.payload) : Inspection Unit)) h = .ok (.ok ()) ↔
      o = none := by
  cases o with
  | none => exact ⟨fun _ => rfl, fun _ => rfl⟩
  | some f => exact ok_report_iff.trans (by simp)

theorem checkBlock_iff (htop : h.top < wordLimit) (hb : b.Bears t h) {o : Option Block} :
    checkBlock o b t h = .ok (.ok ()) ↔ b.LiesIn t h ∧
      h.memory.word (b.payload + t.size - overhead) = t.bits ∧ (o = none ∨ t.isAlloc = true) := by
  unfold checkBlock
  rw [ok_guard_iff, ok_inHeap_iff htop, ← and_assoc, liesIn_iff hb]
  refine and_congr_right fun hl => ?_
  obtain ⟨hle, hlt⟩ := hl.overlaps_not htop
  rw [inspection_query (hl.footer htop), ok_guard_iff, Tag.ext_iff]
  refine and_congr_right fun _ => ?_
  by_cases ha : t.isAlloc = true
  · rw [if_pos ha, inspection_except (checkedAdd_of_lt hlt), ok_require_iff]
    simp [ha, hle]
  · rw [if_neg ha, ok_lastFree_iff]
    simp [ha]

def Block.Listable (b : Block) (k : SizeClass) (h : Heap) : Prop :=
  ∃ t, b.LiesIn t h ∧ t.isAlloc = false ∧ SizeClass.ofSize t.size = k

def Heap.nextLink (h : Heap) (b : Block) : Option Block := ofLinkWord (h.memory.word b.payload)

def Heap.prevLink (h : Heap) (b : Block) : Option Block :=
  ofLinkWord (h.memory.word (b.payload + wordSize))

theorem Block.Listable.nextFree (hb : b.Listable k h) : b.nextFree h = .ok (h.nextLink b) := by
  obtain ⟨t, hl, -⟩ := hb
  exact hl.nextFree

theorem checkMember_iff (htop : h.top < wordLimit) {prev : Option Block} :
    checkMember k prev b h = .ok (.ok ()) ↔ b.Listable k h ∧ h.prevLink b = prev := by
  unfold checkMember
  rw [ok_header_iff htop]
  simp only [ok_guard_iff, ok_inHeap_iff htop]
  constructor
  · intro hr
    obtain ⟨t, hb, -, hin, hp, hf, hk, hprev⟩ := hr
    have hl := (liesIn_iff hb).mp ⟨hp, hin⟩
    rw [inspection_query (hl.prevFree htop), ok_require_iff] at hprev
    exact ⟨⟨t, hl, hf, hk⟩, hprev⟩
  · intro hr
    obtain ⟨⟨t, hl, hf, hk⟩, hprev⟩ := hr
    obtain ⟨hp, hin⟩ := (liesIn_iff hl.toBears).mpr hl
    have hs := hl.le_size
    refine ⟨t, hl.toBears, by simp only [minBlock] at hs; omega, hin, hp, hf, hk, ?_⟩
    rw [inspection_query (hl.prevFree htop), ok_require_iff]
    exact hprev

/-! ## The walk in address order -/

/-- The blocks from `b` on, each as long as its header says, and the epilogue after the
last; `p` is the state of the block before `b`. -/
def Chained (h : Heap) : Bool → Block → List (Block × Tag) → Prop
  | p, b, [] => ∃ t, b.Bears t h ∧ t.prevAlloc = p ∧ t.size = 0 ∧ t.isAlloc = true ∧ b.payload = h.top
  | p, b, (d, t) :: bs => d = b ∧ b.LiesIn t h ∧ t.prevAlloc = p ∧
      h.memory.word (b.payload + t.size - overhead) = t.bits ∧
      Chained h t.isAlloc ⟨b.payload + t.size⟩ bs

theorem Chained.le_top {bs : List (Block × Tag)} (hc : Chained h p b bs) : b.payload ≤ h.top := by
  cases bs with
  | nil => exact Nat.le_of_eq hc.choose_spec.2.2.2.2
  | cons d bs => exact hc.2.1.le_top

theorem Chained.length_le {bs : List (Block × Tag)} (hc : Chained h p b bs) : b.payload + minBlock * bs.length ≤ h.top := by
  induction bs generalizing p b with
  | nil => exact hc.le_top
  | cons d bs ih =>
    obtain ⟨d, t⟩ := d
    obtain ⟨rfl, hl, -, -, hc⟩ := hc
    have hs := hl.le_size
    have hle := ih hc
    simp only [minBlock, List.length_cons] at *
    omega

theorem Chained.run_blocksFrom {bs : List (Block × Tag)} {n : Nat} (hc : Chained h p b bs)
    (htop : h.top < wordLimit) (hn : bs.length < n) : blocksFrom n b h = .ok bs := by
  induction bs generalizing p b n with
  | nil =>
    obtain ⟨t, hb, -, hz, -, -⟩ := hc
    obtain ⟨n, rfl⟩ : ∃ m, n = m + 1 := ⟨n - 1, by omega⟩
    rw [blocksFrom, query_bind hb.header, if_pos hz]; rfl
  | cons d bs ih =>
    obtain ⟨d, t⟩ := d
    obtain ⟨rfl, hl, -, -, hc⟩ := hc
    obtain ⟨n, rfl⟩ : ∃ m, n = m + 1 := ⟨n - 1, by omega⟩
    have hs := hl.le_size
    have hlt : d.payload + t.size < wordLimit := Nat.lt_of_le_of_lt hc.le_top htop
    rw [blocksFrom, query_bind hl.header, if_neg (by simp only [minBlock] at hs; omega), after_eq hlt,
      query_bind (ih hc (Nat.lt_of_succ_lt_succ hn))]
    rfl

theorem Chained.run_blocks {bs : List (Block × Tag)} (hc : Chained h true h.first bs) (htop : h.top < wordLimit) :
    blocks h = .ok bs := by
  have hle := hc.length_le
  have hread : (read : Query Heap) h = .ok h := rfl
  rw [blocks, query_bind hread]
  exact hc.run_blocksFrom htop (by simp only [minBlock] at hle; omega)

def Spaced (bs : List (Block × Tag)) : Prop :=
  bs.IsChain fun b d => b.2.isAlloc = true ∨ d.2.isAlloc = true

def Stats.count (s : Stats) (bs : List (Block × Tag)) : Stats where
  heapSize := s.heapSize
  allocatedBlocks := s.allocatedBlocks + bs.countP (·.2.isAlloc)
  allocatedSize := s.allocatedSize + ((bs.filter (·.2.isAlloc)).map (·.2.size)).sum
  freeBlocks := s.freeBlocks + bs.countP (!·.2.isAlloc)
  freeSize := s.freeSize + ((bs.filter (!·.2.isAlloc)).map (·.2.size)).sum

theorem Progress.count_step (q : Progress) (b : Block) (t : Tag) (bs : List (Block × Tag)) :
    (q.step b t).stats.count bs = q.stats.count ((b, t) :: bs) := by
  unfold Progress.step Stats.count
  cases ht : t.isAlloc <;> simp [ht] <;> omega

/-- A walk that finds nothing has gone along a chain. -/
theorem chained_of_inspectBlocksFrom (htop : h.top < wordLimit) {q : Progress} {s : Stats}
    (hr : inspectBlocksFrom b q h = .ok (.ok s)) :
    ∃ bs, Chained h q.prevAlloc b bs ∧ Spaced bs ∧
      (q.lastFree = none ∨ ∀ d ∈ bs.head?, d.2.isAlloc = true) ∧ s = q.stats.count bs := by
  induction b, q using inspectBlocksFrom.induct with
  | case1 b q ih =>
    rw [inspectBlocksFrom, ok_bind_iff] at hr
    obtain ⟨t, hh, hr⟩ := hr
    obtain ⟨hb, hp⟩ := (checkHeader_iff htop).mp hh
    by_cases hz : t.size = 0
    · rw [if_pos hz, ok_bind_iff] at hr
      obtain ⟨_, he, hr⟩ := hr
      obtain ⟨ha, htop'⟩ := (checkEpilogue_iff htop hb).mp he
      refine ⟨[], ⟨t, hb, hp, hz, ha, htop'⟩, List.IsChain.nil, .inr (by simp), ?_⟩
      simpa [Stats.count] using (ok_pure_iff.mp hr).symm
    · rw [if_neg hz, ok_bind_iff] at hr
      obtain ⟨_, hblock, hr⟩ := hr
      obtain ⟨hl, hfoot, hfree⟩ := (checkBlock_iff htop hb).mp hblock
      by_cases hup : b.payload < (b.after t.size).payload ∧ (b.after t.size).payload < wordLimit
      · rw [dif_pos hup] at hr
        obtain ⟨bs, hc, hs, hhead, rfl⟩ := ih t hup hr
        rw [hl.after htop hup] at hc
        refine ⟨(b, t) :: bs, ⟨rfl, hl, hp, hfoot, hc⟩, ?_, ?_, q.count_step b t bs⟩
        · refine List.isChain_cons.mpr ⟨fun d hd => ?_, hs⟩
          by_cases ha : t.isAlloc = true
          · exact .inl ha
          · refine .inr (hhead.resolve_left ?_ d hd)
            simp [Progress.step, ha]
        · refine hfree.imp_right fun ha d hd => ?_
          cases hd
          exact ha
      · rw [dif_neg hup, ok_report_iff] at hr
        exact hr.elim

theorem Chained.run_inspectBlocksFrom (htop : h.top < wordLimit) {bs : List (Block × Tag)} {q : Progress}
    (hc : Chained h q.prevAlloc b bs) (hs : Spaced bs)
    (hf : q.lastFree = none ∨ ∀ d ∈ bs.head?, d.2.isAlloc = true) :
    inspectBlocksFrom b q h = .ok (.ok (q.stats.count bs)) := by
  induction bs generalizing b q with
  | nil =>
    obtain ⟨t, hb, hp, hz, ha, he⟩ := hc
    rw [inspectBlocksFrom, inspection_bind ((checkHeader_iff htop).mpr ⟨hb, hp⟩), if_pos hz,
      inspection_bind ((checkEpilogue_iff htop hb).mpr ⟨ha, he⟩)]
    rfl
  | cons d bs ih =>
    obtain ⟨d, t⟩ := d
    obtain ⟨rfl, hl, hp, hfoot, hc⟩ := hc
    have hs' := List.isChain_cons.mp hs
    have hsize := hl.le_size
    simp only [minBlock] at hsize
    rw [inspectBlocksFrom, inspection_bind ((checkHeader_iff htop).mpr ⟨hl.toBears, hp⟩),
      if_neg (by omega), inspection_bind ((checkBlock_iff htop hl.toBears).mpr ⟨hl, hfoot, ?_⟩)]
    · have htop' := hc.le_top
      simp only at htop'
      rw [after_eq (by omega), dif_pos ⟨by simp only; omega, by simp only; omega⟩, ← q.count_step d t bs]
      refine ih (q := q.step d t) hc hs'.2 ?_
      by_cases ha : t.isAlloc = true
      · exact .inl (by simp [Progress.step, ha])
      · exact .inr fun e he => (hs'.1 e he).resolve_left ha
    · exact hf.imp_right fun hf => hf _ rfl

/-! ## The lists -/

def Lists.flat (l : Lists) : List Block := SizeClass.all.flatMap l

/-- The members of a list of class `k` from `link` on, of which each links back to the
one before it; `prev` comes before the first. -/
def Strung (h : Heap) (k : SizeClass) : Option Block → Option Block → List Block → Prop
  | _, link, [] => link = none
  | prev, link, b :: bs => link = some b ∧ b.Listable k h ∧ h.prevLink b = prev ∧
      Strung h k (some b) (h.nextLink b) bs

theorem strung_none {prev : Option Block} {bs : List Block} : Strung h k prev none bs ↔ bs = [] := by
  cases bs with
  | nil => exact ⟨fun _ => rfl, fun _ => rfl⟩
  | cons d ds =>
    constructor
    · intro hs
      cases hs.1
    · intro he
      cases he

theorem strung_some {prev : Option Block} {bs : List Block} : Strung h k prev (some b) bs ↔
    ∃ ds, bs = b :: ds ∧ b.Listable k h ∧ h.prevLink b = prev ∧ Strung h k (some b) (h.nextLink b) ds := by
  constructor
  · intro hs
    cases bs with
    | nil => cases hs
    | cons d ds =>
      obtain ⟨he, hs⟩ := hs
      cases he
      exact ⟨ds, rfl, hs⟩
  · intro hr
    obtain ⟨ds, rfl, hs⟩ := hr
    exact ⟨rfl, hs⟩

theorem inspectChain_iff (htop : h.top < wordLimit) {n m : Nat} {prev link : Option Block} :
    inspectChain k n prev link h = .ok (.ok m) ↔
      ∃ bs, Strung h k prev link bs ∧ bs.length = m ∧ bs.length ≤ n := by
  induction n, prev, link using inspectChain.induct generalizing m with
  | case1 n prev =>
    have hrun : inspectChain k n prev none = pure 0 := by cases n <;> rfl
    rw [hrun, ok_pure_iff]
    simp only [strung_none]
    constructor
    · rintro rfl
      exact ⟨[], rfl, rfl, Nat.zero_le n⟩
    · intro hr
      obtain ⟨_, rfl, hm, -⟩ := hr
      exact hm
  | case2 prev b =>
    simp only [strung_some]
    constructor
    · intro hr
      cases hr
    · intro hr
      obtain ⟨_, ⟨ds, rfl, -⟩, -, hn⟩ := hr
      cases hn
  | case3 n prev b ih =>
    rw [inspectChain, ok_bind_iff]
    simp only [strung_some]
    constructor
    · intro hr
      obtain ⟨_, hm, hr⟩ := hr
      obtain ⟨hb, hprev⟩ := (checkMember_iff htop).mp hm
      rw [inspection_query hb.nextFree, ok_bind_iff] at hr
      obtain ⟨m', hr, hm⟩ := hr
      obtain ⟨ds, hs, rfl, hn⟩ := (ih _).mp hr
      exact ⟨b :: ds, ⟨ds, rfl, hb, hprev, hs⟩, ok_pure_iff.mp hm, Nat.succ_le_succ hn⟩
    · intro hr
      obtain ⟨_, ⟨ds, rfl, hb, hprev, hs⟩, rfl, hn⟩ := hr
      refine ⟨(), (checkMember_iff htop).mpr ⟨hb, hprev⟩, ?_⟩
      rw [inspection_query hb.nextFree, ok_bind_iff]
      exact ⟨_, (ih _).mpr ⟨ds, hs, rfl, Nat.le_of_succ_le_succ hn⟩, rfl⟩

def Accepts (h : Heap) (k : SizeClass) : Option Block → Option Block → List Block → Option Block → Prop
  | _, link, [], rest => link = rest
  | prev, link, b :: bs, rest => link = some b ∧ b.Listable k h ∧ h.prevLink b = prev ∧
      Accepts h k (some b) (h.nextLink b) bs rest

theorem Strung.accepts {bs : List Block} {prev link : Option Block} (hs : Strung h k prev link bs) :
    Accepts h k prev link bs none := by
  induction bs generalizing prev link with
  | nil => exact hs
  | cons b bs ih =>
    obtain ⟨hlink, hb, hprev, hs⟩ := hs
    exact ⟨hlink, hb, hprev, ih hs⟩

theorem Block.Listable.payload_mem (htop : h.top < wordLimit) (hb : b.Listable k h) :
    0 < b.payload ∧ b.payload < wordLimit := by
  obtain ⟨t, hl, -⟩ := hb
  have hlo := hl.lo_le
  have hhi := hl.le_top
  simp only [wordSize] at hlo
  exact ⟨by omega, by omega⟩

theorem length_lt_of_payload_mem {bs : List Block} (hnd : bs.Nodup)
    (hbs : ∀ b ∈ bs, 0 < b.payload ∧ b.payload < wordLimit) : bs.length < wordLimit := by
  -- no block is at 0, so that 0 can be counted with them
  have hnodup : (0 :: bs.map Block.payload).Nodup := by
    refine List.nodup_cons.mpr ⟨fun hz => ?_, hnd.map fun b d he => Block.ext he⟩
    obtain ⟨b, hb, he⟩ := List.mem_map.mp hz
    have hpos := (hbs b hb).1
    omega
  have hsub : 0 :: bs.map Block.payload ⊆ List.range wordLimit := by
    intro x hx
    rcases List.mem_cons.mp hx with rfl | hx
    · exact List.mem_range.mpr (by decide)
    · obtain ⟨b, hb, rfl⟩ := List.mem_map.mp hx
      exact List.mem_range.mpr (hbs b hb).2
  have hlen := (List.subperm_of_subset hnodup hsub).length_le
  rwa [List.length_cons, List.length_map, List.length_range] at hlen

namespace Accepts

variable {bs : List Block} {prev link rest : Option Block}

theorem prevLink (hs : Accepts h k prev link bs rest) :
    ∀ i (hi : i < bs.length), h.prevLink bs[i] = if i = 0 then prev else bs[i - 1]? := by
  induction bs generalizing prev link with
  | nil => simp
  | cons b bs ih =>
    obtain ⟨-, -, hb, hs⟩ := hs
    intro i hi
    cases i with
    | zero => exact hb
    | succ i =>
      have := ih hs i (Nat.lt_of_succ_lt_succ hi)
      rw [List.getElem_cons_succ, this]
      cases i <;> simp

/-- As each member links back to the one before it, a list that came back to a member
would have come back to the first one, which links to none. -/
theorem nodup (hs : Accepts h k none link bs rest) : bs.Nodup := by
  rw [List.Nodup, List.pairwise_iff_getElem]
  intro i j hi hj hij
  induction i generalizing j with
  | zero =>
    obtain ⟨j, rfl⟩ : ∃ i, j = i + 1 := ⟨j - 1, by omega⟩
    intro he
    have := hs.prevLink (j + 1) hj
    rw [← he, hs.prevLink 0 hi] at this
    simp at this
    omega
  | succ i ih =>
    obtain ⟨j, rfl⟩ : ∃ i, j = i + 1 := ⟨j - 1, by omega⟩
    intro he
    have := hs.prevLink (j + 1) hj
    rw [← he, hs.prevLink (i + 1) hi] at this
    -- equal members have equal predecessors
    refine ih j (by omega) (by omega) (by omega) ?_
    simpa [List.getElem?_eq_getElem (show i < bs.length by omega),
      List.getElem?_eq_getElem (show j < bs.length by omega)] using this

theorem listable (hs : Accepts h k prev link bs rest) : ∀ b ∈ bs, b.Listable k h := by
  induction bs generalizing prev link with
  | nil => simp
  | cons b bs ih =>
    obtain ⟨-, hb, -, hs⟩ := hs
    exact List.forall_mem_cons.mpr ⟨hb, ih hs⟩

theorem length_lt (hs : Accepts h k none link bs rest) (htop : h.top < wordLimit) : bs.length < wordLimit :=
  length_lt_of_payload_mem hs.nodup fun b hb => (hs.listable b hb).payload_mem htop

end Accepts

theorem inspectList_iff (htop : h.top < wordLimit) {m : Nat} :
    inspectList k h = .ok (.ok m) ↔ ∃ bs, Strung h k none (h.heads.get k) bs ∧ bs.length = m := by
  have hhead : FreeList.head k h = .ok (h.heads.get k) := rfl
  rw [inspectList, inspection_query hhead, inspectChain_iff htop]
  constructor
  · intro hr
    obtain ⟨bs, hs, hm, -⟩ := hr
    exact ⟨bs, hs, hm⟩
  · intro hr
    obtain ⟨bs, hs, hm⟩ := hr
    exact ⟨bs, hs, hm, Nat.le_of_lt (hs.accepts.length_lt htop)⟩

theorem inspectLists_iff (htop : h.top < wordLimit) {ms : List Nat} :
    SizeClass.all.mapM inspectList h = .ok (.ok ms) ↔
      ∃ l : Lists, (∀ k, Strung h k none (h.heads.get k) (l k)) ∧
        ms = SizeClass.all.map fun k => (l k).length := by
  rw [ok_mapM_iff]
  constructor
  · intro hr
    have hlist : ∀ k, ∃ bs, Strung h k none (h.heads.get k) bs ∧ inspectList k h = .ok (.ok bs.length) := by
      intro k
      have hk : inspectList k h ∈ SizeClass.all.map (inspectList · h) :=
        List.mem_map_of_mem (List.mem_finRange k)
      rw [hr] at hk
      obtain ⟨m, -, hm⟩ := List.mem_map.mp hk
      obtain ⟨bs, hs, rfl⟩ := (inspectList_iff htop).mp hm.symm
      exact ⟨bs, hs, hm.symm⟩
    choose l hs hrun using hlist
    refine ⟨l, hs, ?_⟩
    have hinj : Function.Injective fun m : Nat => (.ok (.ok m) : Except Fault (Except Violation Nat)) :=
      fun m n he => by cases he; rfl
    refine hinj.list_map (hr.symm.trans ?_)
    rw [List.map_map]
    exact List.map_congr_left fun k _ => hrun k
  · intro hr
    obtain ⟨l, hs, rfl⟩ := hr
    rw [List.map_map]
    refine List.map_congr_left fun k _ => ?_
    exact (inspectList_iff htop).mpr ⟨l k, hs k, rfl⟩

/-! ## The whole heap -/

/-- What a heap has to hold to be accepted: its blocks `bs` and its lists `l`. -/
structure Heap.Valid (h : Heap) (bs : List (Block × Tag)) (l : Lists) : Prop where
  chained : Chained h true h.first bs
  spaced : Spaced bs
  strung : ∀ k, Strung h k none (h.heads.get k) (l k)
  count : l.flat.length = bs.countP (!·.2.isAlloc)

theorem Heap.Valid.run_validate {bs : List (Block × Tag)} {l : Lists} (hv : h.Valid bs l)
    (htop : h.top < wordLimit) :
    validate h = .ok (.ok { Stats.count {} bs with heapSize := h.source.size }) := by
  have hcount : (SizeClass.all.map fun k => (l k).length).foldl (· + ·) 0 = (Stats.count {} bs).freeBlocks := by
    rw [← List.sum_eq_foldl]
    simpa [Stats.count, Lists.flat, List.length_flatMap] using hv.count
  refine (inspection_bind (a := h) rfl).trans ?_
  rw [inspection_bind (hv.chained.run_inspectBlocksFrom htop hv.spaced (.inl rfl)),
    inspection_bind ((inspectLists_iff htop).mpr ⟨l, hv.strung, rfl⟩), ok_guard_iff]
  exact ⟨hcount, inspection_bind (a := h) rfl⟩

end SegregatedFit
