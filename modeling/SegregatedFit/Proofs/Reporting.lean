import SegregatedFit.Proofs.Halting

/-!
# What is reported

A violation that `validate` reports is there, and nothing before it is wrong. The walk in
address order stops at the first block that breaks a condition, and the lists are looked
at only if there is none; they stop at the first member that does not fit, in the order of
the classes and in that of each list.
-/

namespace SegregatedFit

open Block

variable {α β : Type} {h : Heap} {a : α} {b d e f : Block} {t u : Tag} {k : SizeClass} {v w : Violation}
  {p : Bool} {q : Progress} {last : Option (Block × Tag)} {bs : List (Block × Tag)} {ms : List Block}
  {prev link : Option Block}

/-! ## Inspections that stop -/

theorem error_bind_iff {x : Inspection α} {f : α → Inspection β} : (x >>= f) h = .ok (.error v) ↔
    x h = .ok (.error v) ∨ ∃ a, x h = .ok (.ok a) ∧ f a h = .ok (.error v) := by
  constructor
  · intro hr
    change (x h >>= fun r => _) = _ at hr
    cases hx : x h with
    | error e => rw [hx] at hr; cases hr
    | ok s =>
      rw [hx] at hr
      cases s with
      | error w => cases hr; exact .inl rfl
      | ok a => exact .inr ⟨a, rfl, hr⟩
  · intro hr
    rcases hr with hx | ⟨a, hx, hf⟩
    · exact inspection_stop hx
    · rw [inspection_bind hx, hf]

theorem error_pure_iff : (pure a : Inspection α) h = .ok (.error v) ↔ False := by
  constructor
  · intro hr; cases hr
  · exact False.elim

theorem error_report_iff : (report w : Inspection α) h = .ok (.error v) ↔ w = v := by
  constructor
  · intro hr; cases hr; rfl
  · rintro rfl; rfl

theorem error_require_iff {q : Prop} [Decidable q] : require q w h = .ok (.error v) ↔ ¬ q ∧ w = v := by
  unfold require
  by_cases hq : q
  · rw [if_pos hq, error_pure_iff]
    simp [hq]
  · rw [if_neg hq, error_report_iff]
    simp [hq]

theorem error_guard_iff {q : Prop} [Decidable q] {x : Inspection α} :
    (do
      require q w
      x : Inspection α) h = .ok (.error v) ↔ ¬ q ∧ w = v ∨ q ∧ x h = .ok (.error v) := by
  simp only [error_bind_iff, error_require_iff, ok_require_iff, exists_const]

theorem error_within_iff (htop : h.top < wordLimit) {addr len : Nat} {x : Inspection α} :
    (do
      require (← inHeap addr len) w
      x : Inspection α) h = .ok (.error v) ↔
      ¬ (h.source.lo ≤ addr ∧ addr + len ≤ h.top) ∧ w = v ∨
        (h.source.lo ≤ addr ∧ addr + len ≤ h.top) ∧ x h = .ok (.error v) := by
  rw [inspection_query (run_inHeap_eq htop addr len), error_guard_iff, decide_eq_true_eq]

theorem error_header_iff (htop : h.top < wordLimit) {f : Tag → Inspection α} :
    (do
      require (← inHeap b.headerAddr wordSize) w
      let t ← b.header
      f t : Inspection α) h = .ok (.error v) ↔
      ¬ (h.source.lo + wordSize ≤ b.payload ∧ b.payload ≤ h.top) ∧ w = v ∨
        ∃ t, b.Bears t h ∧ f t h = .ok (.error v) := by
  rw [error_within_iff htop, headerAddr_mem htop]
  refine or_congr_right ⟨fun hr => ?_, fun hr => ?_⟩
  · obtain ⟨⟨hlo, hhi⟩, hf⟩ := hr
    have hb : b.Bears ⟨h.memory.word (b.payload - wordSize)⟩ h := ⟨rfl, hlo, hhi⟩
    rw [inspection_query hb.header] at hf
    exact ⟨_, hb, hf⟩
  · obtain ⟨t, hb, hf⟩ := hr
    rw [inspection_query hb.header]
    exact ⟨⟨hb.lo_le, hb.le_top⟩, hf⟩

theorem error_mapM_iff {f : α → Inspection β} {xs : List α} : xs.mapM f h = .ok (.error v) ↔
    ∃ ys x zs, xs = ys ++ x :: zs ∧ (∀ y ∈ ys, ∃ r, f y h = .ok (.ok r)) ∧ f x h = .ok (.error v) := by
  induction xs with
  | nil => simp [error_pure_iff]
  | cons x xs ih =>
    rw [List.mapM_cons, error_bind_iff]
    simp only [error_bind_iff, error_pure_iff, and_false, exists_false, or_false, ih]
    constructor
    · intro hr
      rcases hr with hx | ⟨r, hx, ys, y, zs, rfl, hys, hy⟩
      · exact ⟨[], x, xs, rfl, by simp, hx⟩
      · exact ⟨x :: ys, y, zs, rfl, List.forall_mem_cons.mpr ⟨⟨r, hx⟩, hys⟩, hy⟩
    · intro hr
      obtain ⟨ys, y, zs, he, hys, hy⟩ := hr
      cases ys with
      | nil =>
        cases he
        exact .inl hy
      | cons d ys =>
        cases he
        obtain ⟨⟨r, hx⟩, hys⟩ := List.forall_mem_cons.mp hys
        exact .inr ⟨r, hx, ys, y, zs, rfl, hys, hy⟩

/-! ## The blocks of a walk -/

/-- A correct block of a walk: it lies in the heap with two equal tags and is right about the
block before it, which is `last` or the prologue, and only one of the two is free. -/
structure Block.Correct (b : Block) (t : Tag) (h : Heap) (last : Option (Block × Tag)) : Prop
    extends b.LiesIn t h where
  told : t.prevAlloc = last.all (·.2.isAlloc)
  footed : h.memory.word (b.payload + t.size - overhead) = t.bits
  spaced : t.isAlloc = true ∨ last.all (·.2.isAlloc) = true

inductive Block.Breaks (b : Block) (h : Heap) (last : Option (Block × Tag)) : Violation → Prop
  | outside (hout : ¬ (h.source.lo + wordSize ≤ b.payload ∧ b.payload ≤ h.top)) :
    b.Breaks h last (.outOfBounds b.payload)
  | untold {t : Tag} (hb : b.Bears t h) (htold : t.prevAlloc ≠ last.all (·.2.isAlloc)) :
    b.Breaks h last (.prevAllocMismatch b.payload)
  | misplaced {t : Tag} (hb : b.Bears t h) (htold : t.prevAlloc = last.all (·.2.isAlloc)) (hsize : t.size = 0)
    (hend : ¬ (t.isAlloc = true ∧ b.payload = h.top)) : b.Breaks h last (.misplacedEpilogue b.payload)
  | impossible {t : Tag} (hb : b.Bears t h) (htold : t.prevAlloc = last.all (·.2.isAlloc)) (hsize : t.size ≠ 0)
    (hblock : ¬ PossibleBlock b t.size) : b.Breaks h last (.badBlock b.payload t.size)
  | leaving {t : Tag} (hb : b.Bears t h) (htold : t.prevAlloc = last.all (·.2.isAlloc))
    (hblock : PossibleBlock b t.size) (hend : h.top + wordSize < b.payload + t.size) :
    b.Breaks h last (.outOfBounds b.payload)
  | torn {t : Tag} (hl : b.LiesIn t h) (htold : t.prevAlloc = last.all (·.2.isAlloc))
    (hfoot : h.memory.word (b.payload + t.size - overhead) ≠ t.bits) : b.Breaks h last (.tagMismatch b.payload)
  | adjacent {t u : Tag} {f : Block} (hl : b.LiesIn t h) (htold : t.prevAlloc = last.all (·.2.isAlloc))
    (hfoot : h.memory.word (b.payload + t.size - overhead) = t.bits) (hfree : t.isAlloc = false)
    (hlast : last = some (f, u)) (hu : u.isAlloc = false) : b.Breaks h last (.adjacentFree f.payload b.payload)

/-- The walk from `b` meets the correct blocks `bs` and then comes to `e`; `last` is the block
before `b`. -/
def Climbs (h : Heap) : Option (Block × Tag) → Block → List (Block × Tag) → Block → Prop
  | _, b, [], e => b = e
  | last, b, (d, t) :: bs, e => d = b ∧ b.Correct t h last ∧ Climbs h (some (b, t)) (b.after t.size) bs e

theorem Block.Bears.within_iff (hb : b.Bears t h) {n : Nat} :
    h.source.lo ≤ b.headerAddr ∧ b.headerAddr + n ≤ h.top ↔ b.payload + n ≤ h.top + wordSize := by
  have hlo := hb.lo_le
  rw [hb.headerAddr]
  simp only [wordSize] at *
  omega

theorem PossibleBlock.size_ne {n : Nat} (hb : PossibleBlock b n) : n ≠ 0 := by
  rintro rfl
  exact absurd hb.2.1 (by decide)

structure Progress.Follows (q : Progress) (last : Option (Block × Tag)) : Prop where
  prevAlloc : q.prevAlloc = last.all (·.2.isAlloc)
  lastFree : q.lastFree = (last.filter (!·.2.isAlloc)).map Prod.fst

namespace Progress.Follows

theorem start : ({} : Progress).Follows none := ⟨rfl, rfl⟩

theorem step (q : Progress) (b : Block) (t : Tag) : (q.step b t).Follows (some (b, t)) := by
  refine ⟨rfl, ?_⟩
  unfold Progress.step
  cases ht : t.isAlloc <;> simp [ht]

theorem mem_lastFree (hq : q.Follows last) : f ∈ q.lastFree ↔ ∃ u, last = some (f, u) ∧ u.isAlloc = false := by
  rw [hq.lastFree]
  cases last with
  | none => simp
  | some d =>
    obtain ⟨d, u⟩ := d
    cases hu : u.isAlloc <;> simp [hu]

theorem spaced_iff (hq : q.Follows last) : (q.lastFree = none ∨ t.isAlloc = true) ↔
    (t.isAlloc = true ∨ last.all (·.2.isAlloc) = true) := by
  rw [hq.lastFree, or_comm]
  cases last with
  | none => simp
  | some d => cases hd : d.2.isAlloc <;> simp [hd]

end Progress.Follows

section

variable (htop : h.top < wordLimit)
include htop

theorem checkHeader_error_iff : checkHeader p b h = .ok (.error v) ↔
    ¬ (h.source.lo + wordSize ≤ b.payload ∧ b.payload ≤ h.top) ∧ .outOfBounds b.payload = v ∨
      ∃ t, b.Bears t h ∧ t.prevAlloc ≠ p ∧ .prevAllocMismatch b.payload = v := by
  unfold checkHeader
  rw [error_header_iff htop]
  simp only [error_guard_iff, error_pure_iff, and_false, or_false]

theorem checkEpilogue_error_iff (hb : b.Bears t h) : checkEpilogue b t h = .ok (.error v) ↔
    ¬ (t.isAlloc = true ∧ b.payload = h.top) ∧ .misplacedEpilogue b.payload = v := by
  have hlo := hb.lo_le
  have hrun : checkEpilogue b t h =
      require (t.isAlloc = true ∧ b.headerAddr + wordSize = h.top) (.misplacedEpilogue b.payload) h :=
    (inspection_bind (a := h) rfl).trans (inspection_except (checkedAdd_of_lt htop))
  have heq : b.payload - wordSize + wordSize = b.payload := by
    simp only [wordSize] at *
    omega
  rw [hrun, error_require_iff, hb.headerAddr, heq]

theorem checkBlock_error_iff (hb : b.Bears t h) : checkBlock prev b t h = .ok (.error v) ↔
    ¬ PossibleBlock b t.size ∧ .badBlock b.payload t.size = v ∨
    PossibleBlock b t.size ∧ h.top + wordSize < b.payload + t.size ∧ .outOfBounds b.payload = v ∨
    b.LiesIn t h ∧ h.memory.word (b.payload + t.size - overhead) ≠ t.bits ∧ .tagMismatch b.payload = v ∨
    b.LiesIn t h ∧ h.memory.word (b.payload + t.size - overhead) = t.bits ∧ t.isAlloc = false ∧
      ∃ f ∈ prev, .adjacentFree f.payload b.payload = v := by
  unfold checkBlock
  rw [error_guard_iff, error_within_iff htop, and_or_left, ← and_assoc (a := PossibleBlock b t.size),
    ← and_assoc (a := PossibleBlock b t.size), liesIn_iff hb, hb.within_iff, Nat.not_le, and_assoc]
  refine or_congr_right (or_congr_right ?_)
  rw [← and_or_left]
  refine and_congr_right fun hl => ?_
  obtain ⟨hle, hlt⟩ := hl.overlaps_not htop
  rw [inspection_query (hl.footer htop), error_guard_iff, Tag.ext_iff]
  refine or_congr_right (and_congr_right fun _ => ?_)
  cases ha : t.isAlloc with
  | true =>
    rw [if_pos rfl, inspection_except (checkedAdd_of_lt hlt), error_require_iff]
    simp [hle]
  | false =>
    rw [if_neg (by decide)]
    cases prev with
    | none => exact error_pure_iff.trans (by simp)
    | some f => exact error_report_iff.trans (by simp)

theorem Progress.Follows.correct_iff (hq : q.Follows last) : b.Correct t h last ↔
    checkHeader q.prevAlloc b h = .ok (.ok t) ∧ t.size ≠ 0 ∧ checkBlock q.lastFree b t h = .ok (.ok ()) := by
  rw [checkHeader_iff htop, hq.prevAlloc]
  constructor
  · intro hc
    obtain ⟨hblock, -⟩ := (liesIn_iff hc.toBears).mpr hc.toLiesIn
    refine ⟨⟨hc.toBears, hc.told⟩, hblock.size_ne, (checkBlock_iff htop hc.toBears).mpr ?_⟩
    exact ⟨hc.toLiesIn, hc.footed, hq.spaced_iff.mpr hc.spaced⟩
  · intro hr
    obtain ⟨⟨hb, htold⟩, -, hblock⟩ := hr
    obtain ⟨hl, hfoot, hspaced⟩ := (checkBlock_iff htop hb).mp hblock
    exact ⟨hl, htold, hfoot, hq.spaced_iff.mp hspaced⟩

theorem Block.Correct.run (hc : b.Correct t h last) (hq : q.Follows last) :
    inspectBlocksFrom b q h = inspectBlocksFrom (b.after t.size) (q.step b t) h := by
  obtain ⟨hheader, hsize, hblock⟩ := (hq.correct_iff htop).mp hc
  exact (Walks.on hheader hsize hblock (.here _ _)).run htop

theorem Block.Breaks.run (hv : b.Breaks h last v) (hq : q.Follows last) :
    inspectBlocksFrom b q h = .ok (.error v) := by
  have hheader : ∀ {t : Tag}, b.Bears t h → t.prevAlloc = last.all (·.2.isAlloc) →
      checkHeader q.prevAlloc b h = .ok (.ok t) := fun hb htold =>
    (checkHeader_iff htop).mpr ⟨hb, htold.trans hq.prevAlloc.symm⟩
  have hblock : ∀ {t : Tag}, b.Bears t h → t.prevAlloc = last.all (·.2.isAlloc) → t.size ≠ 0 →
      checkBlock q.lastFree b t h = .ok (.error v) → inspectBlocksFrom b q h = .ok (.error v) := by
    intro t hb htold hsize hr
    rw [inspectBlocksFrom, inspection_bind (hheader hb htold), if_neg hsize]
    exact inspection_stop hr
  cases hv with
  | outside hout =>
    rw [inspectBlocksFrom]
    exact inspection_stop ((checkHeader_error_iff htop).mpr (.inl ⟨hout, rfl⟩))
  | untold hb htold =>
    rw [inspectBlocksFrom]
    rw [← hq.prevAlloc] at htold
    exact inspection_stop ((checkHeader_error_iff htop).mpr (.inr ⟨_, hb, htold, rfl⟩))
  | misplaced hb htold hsize hend =>
    rw [inspectBlocksFrom, inspection_bind (hheader hb htold), if_pos hsize]
    exact inspection_stop ((checkEpilogue_error_iff htop hb).mpr ⟨hend, rfl⟩)
  | impossible hb htold hsize hposs =>
    apply hblock hb htold hsize
    exact (checkBlock_error_iff htop hb).mpr (.inl ⟨hposs, rfl⟩)
  | leaving hb htold hposs hend =>
    apply hblock hb htold hposs.size_ne
    exact (checkBlock_error_iff htop hb).mpr (.inr (.inl ⟨hposs, hend, rfl⟩))
  | torn hl htold hfoot =>
    apply hblock hl.toBears htold ((liesIn_iff hl.toBears).mpr hl).1.size_ne
    exact (checkBlock_error_iff htop hl.toBears).mpr (.inr (.inr (.inl ⟨hl, hfoot, rfl⟩)))
  | adjacent hl htold hfoot hfree hlast hu =>
    apply hblock hl.toBears htold ((liesIn_iff hl.toBears).mpr hl).1.size_ne
    refine (checkBlock_error_iff htop hl.toBears).mpr (.inr (.inr (.inr ⟨hl, hfoot, hfree, _, ?_, rfl⟩)))
    exact hq.mem_lastFree.mpr ⟨_, hlast, hu⟩

theorem Climbs.run (hc : Climbs h last b bs e) (hv : e.Breaks h (bs.getLast?.or last) v) (hq : q.Follows last) :
    inspectBlocksFrom b q h = .ok (.error v) := by
  induction bs generalizing last b q with
  | nil =>
    obtain rfl : b = e := hc
    exact hv.run htop hq
  | cons d bs ih =>
    obtain ⟨d, t⟩ := d
    obtain ⟨rfl, hd, hc⟩ := hc
    rw [hd.run htop hq]
    refine ih hc ?_ (.step q d t)
    rw [List.getLast?_cons] at hv
    cases hlast : bs.getLast? <;> simpa [hlast] using hv

/-- A walk that is stopped has come to the first block that breaks a condition. -/
theorem exists_breaks (hq : q.Follows last) (hr : inspectBlocksFrom b q h = .ok (.error v)) :
    ∃ bs e, Climbs h last b bs e ∧ e.Breaks h (bs.getLast?.or last) v := by
  induction b, q using inspectBlocksFrom.induct generalizing last with
  | case1 b q ih =>
    rw [inspectBlocksFrom, error_bind_iff, checkHeader_error_iff htop] at hr
    rcases hr with (⟨hout, rfl⟩ | ⟨t, hb, htold, rfl⟩) | ⟨t, hheader, hr⟩
    · exact ⟨[], b, rfl, .outside hout⟩
    · exact ⟨[], b, rfl, .untold hb (hq.prevAlloc ▸ htold)⟩
    obtain ⟨hb, htold⟩ := (checkHeader_iff htop).mp hheader
    rw [hq.prevAlloc] at htold
    by_cases hsize : t.size = 0
    · rw [if_pos hsize, error_bind_iff, checkEpilogue_error_iff htop hb] at hr
      rcases hr with ⟨hend, rfl⟩ | ⟨_, -, hr⟩
      · exact ⟨[], b, rfl, .misplaced hb htold hsize hend⟩
      · exact (error_pure_iff.mp hr).elim
    rw [if_neg hsize, error_bind_iff, checkBlock_error_iff htop hb] at hr
    rcases hr with hr | ⟨_, hblock, hr⟩
    · refine ⟨[], b, rfl, ?_⟩
      rcases hr with ⟨hposs, rfl⟩ | ⟨hposs, hend, rfl⟩ | ⟨hl, hfoot, rfl⟩ | ⟨hl, hfoot, hfree, f, hf, rfl⟩
      · exact .impossible hb htold hsize hposs
      · exact .leaving hb htold hposs hend
      · exact .torn hl htold hfoot
      · obtain ⟨u, hlast, hu⟩ := hq.mem_lastFree.mp hf
        exact .adjacent hl htold hfoot hfree hlast hu
    have hc := (hq.correct_iff htop).mpr ⟨hheader, hsize, hblock⟩
    by_cases hup : b.payload < (b.after t.size).payload ∧ (b.after t.size).payload < wordLimit
    · rw [dif_pos hup] at hr
      obtain ⟨bs, e, hclimb, hv⟩ := ih t hup (.step q b t) hr
      refine ⟨(b, t) :: bs, e, ⟨rfl, hc, hclimb⟩, ?_⟩
      rw [List.getLast?_cons]
      cases hlast : bs.getLast? <;> simpa [hlast] using hv
    · -- the address of the next block has wrapped, and lies below the heap
      rw [dif_neg hup, error_report_iff] at hr
      subst hr
      refine ⟨[(b, t)], b.after t.size, ⟨rfl, hc, rfl⟩, .outside ?_⟩
      rcases hc.after_cases htop with ⟨hafter, hlt⟩ | ⟨hlow, -⟩
      · rw [hafter] at hup
        have hpos := Nat.pos_of_ne_zero hsize
        exact absurd ⟨Nat.lt_add_of_pos_right hpos, hlt⟩ hup
      · intro hin
        exact Nat.not_lt_of_le (Nat.le_trans (Nat.le_add_left _ _) hin.1) hlow

/-! ## The members of a list -/

end

inductive Block.Misfits (b : Block) (h : Heap) (k : SizeClass) (before : Option Block) : Violation → Prop
  | outside (hout : ¬ (h.source.lo + wordSize ≤ b.payload ∧ b.payload ≤ h.top)) :
    b.Misfits h k before (.invalidFreeLink k b.payload)
  | empty {t : Tag} (hb : b.Bears t h) (hsize : t.size = 0) : b.Misfits h k before (.invalidFreeLink k b.payload)
  | leaving {t : Tag} (hb : b.Bears t h) (hsize : t.size ≠ 0) (hend : h.top + wordSize < b.payload + t.size) :
    b.Misfits h k before (.invalidFreeLink k b.payload)
  | impossible {t : Tag} (hb : b.Bears t h) (hsize : t.size ≠ 0) (hend : b.payload + t.size ≤ h.top + wordSize)
    (hblock : ¬ PossibleBlock b t.size) : b.Misfits h k before (.badBlock b.payload t.size)
  | allocated {t : Tag} (hl : b.LiesIn t h) (halloc : t.isAlloc = true) :
    b.Misfits h k before (.allocatedInFreeList k b.payload)
  | misfiled {t : Tag} (hl : b.LiesIn t h) (hfree : t.isAlloc = false) (hclass : SizeClass.ofSize t.size ≠ k) :
    b.Misfits h k before (.wrongClass k b.payload t.size)
  | unlinked (hb : b.Listable k h) (hprev : h.prevLink b ≠ before) :
    b.Misfits h k before (.brokenBackLink k b.payload)

theorem Block.Misfits.fields (hv : b.Misfits h k prev v) :
    ("class", k.val) ∈ v.fields ∨ ∃ n, v = .badBlock b.payload n := by
  cases hv with
  | impossible => exact .inr ⟨_, rfl⟩
  | _ => exact .inl (by simp [Violation.fields])

section

variable (htop : h.top < wordLimit)
include htop

theorem checkMember_error_iff : checkMember k prev b h = .ok (.error v) ↔ b.Misfits h k prev v := by
  unfold checkMember
  simp only [error_header_iff htop, error_guard_iff, error_within_iff htop]
  constructor
  · intro hr
    rcases hr with ⟨hout, rfl⟩ | ⟨t, hb, hr⟩
    · exact .outside hout
    rw [hb.within_iff, Nat.not_le] at hr
    rcases hr with ⟨hsize, rfl⟩ | ⟨hsize, hr⟩
    · exact .empty hb (not_not.mp hsize)
    rcases hr with ⟨hend, rfl⟩ | ⟨hend, hr⟩
    · exact .leaving hb hsize hend
    rcases hr with ⟨hblock, rfl⟩ | ⟨hblock, hr⟩
    · exact .impossible hb hsize hend hblock
    have hl := (liesIn_iff hb).mp ⟨hblock, hb.within_iff.mpr hend⟩
    rcases hr with ⟨halloc, rfl⟩ | ⟨hfree, hr⟩
    · exact .allocated hl (by simpa using halloc)
    rcases hr with ⟨hclass, rfl⟩ | ⟨hclass, hr⟩
    · exact .misfiled hl hfree hclass
    rw [inspection_query (hl.prevFree htop), error_require_iff] at hr
    obtain ⟨hprev, rfl⟩ := hr
    exact .unlinked ⟨t, hl, hfree, hclass⟩ hprev
  · intro hv
    cases hv with
    | outside hout => exact .inl ⟨hout, rfl⟩
    | empty hb hsize => exact .inr ⟨_, hb, .inl ⟨not_not.mpr hsize, rfl⟩⟩
    | leaving hb hsize hend =>
      refine .inr ⟨_, hb, .inr ⟨hsize, .inl ⟨?_, rfl⟩⟩⟩
      rwa [hb.within_iff, Nat.not_le]
    | impossible hb hsize hend hblock =>
      exact .inr ⟨_, hb, .inr ⟨hsize, .inr ⟨hb.within_iff.mpr hend, .inl ⟨hblock, rfl⟩⟩⟩⟩
    | allocated hl halloc =>
      obtain ⟨hblock, hin⟩ := (liesIn_iff hl.toBears).mpr hl
      refine .inr ⟨_, hl.toBears, .inr ⟨hblock.size_ne, .inr ⟨hin, .inr ⟨hblock, .inl ⟨?_, rfl⟩⟩⟩⟩⟩
      simp [halloc]
    | misfiled hl hfree hclass =>
      obtain ⟨hblock, hin⟩ := (liesIn_iff hl.toBears).mpr hl
      exact .inr ⟨_, hl.toBears, .inr ⟨hblock.size_ne, .inr ⟨hin, .inr ⟨hblock, .inr ⟨hfree, .inl ⟨hclass, rfl⟩⟩⟩⟩⟩⟩
    | unlinked hb hprev =>
      have hr := (gives_brokenBackLink htop hb hprev).run
      unfold checkMember at hr
      simpa only [error_header_iff htop, error_guard_iff, error_within_iff htop] using hr

/-- The inspection of a list goes on while the members fit, and stops at the first that does not. -/
theorem Accepts.run {n : Nat} (ha : Accepts h k prev link ms (some b)) (hv : b.Misfits h k (ms.getLast?.or prev) v)
    (hn : ms.length < n) : inspectChain k n prev link h = .ok (.error v) := by
  induction ms generalizing prev link n with
  | nil =>
    obtain rfl : link = some b := ha
    obtain ⟨n, rfl⟩ : ∃ m, n = m + 1 := ⟨n - 1, by simp only [List.length_nil] at hn; omega⟩
    rw [inspectChain]
    exact inspection_stop ((checkMember_error_iff htop).mpr hv)
  | cons d ms ih =>
    obtain ⟨rfl, hd, hprev, ha⟩ := ha
    obtain ⟨n, rfl⟩ : ∃ m, n = m + 1 := ⟨n - 1, by simp only [List.length_cons] at hn; omega⟩
    rw [inspectChain, inspection_bind ((checkMember_iff htop).mpr ⟨hd, hprev⟩), inspection_query hd.nextFree]
    refine inspection_stop (ih ha ?_ (Nat.lt_of_succ_lt_succ hn))
    rw [List.getLast?_cons] at hv
    cases hlast : ms.getLast? <;> simpa [hlast] using hv

theorem inspectList_error_iff : inspectList k h = .ok (.error v) ↔
    ∃ ms b, Accepts h k none (h.heads.get k) ms (some b) ∧ b.Misfits h k ms.getLast? v := by
  constructor
  · intro hr
    obtain ⟨ms, he⟩ := listEnds htop k
    cases he with
    | through _ hrun =>
      rw [hrun.run] at hr
      cases hr
    | @stopped b w ha hv hrun =>
      rw [hrun.run] at hr
      cases hr
      exact ⟨ms, b, ha, (checkMember_error_iff htop).mp hv.run⟩
  · intro hr
    obtain ⟨ms, b, ha, hv⟩ := hr
    have hhead : FreeList.head k h = .ok (h.heads.get k) := rfl
    rw [inspectList, inspection_query hhead]
    exact ha.run htop (by rwa [Option.or_none]) (ha.length_lt htop)

theorem inspectLists_error_iff : SizeClass.all.mapM inspectList h = .ok (.error v) ↔
    ∃ k, (∀ j < k, ∃ ds, Strung h j none (h.heads.get j) ds) ∧
      ∃ ms b, Accepts h k none (h.heads.get k) ms (some b) ∧ b.Misfits h k ms.getLast? v := by
  have hbefore : ∀ {ys zs : List SizeClass} {k j : SizeClass}, SizeClass.all = ys ++ k :: zs → (j ∈ ys ↔ j < k) := by
    intro ys zs k j he
    have hsorted : (ys ++ k :: zs).Pairwise (· < ·) := he ▸ List.pairwise_lt_finRange classCount
    obtain ⟨-, hzs, hys⟩ := List.pairwise_append.mp hsorted
    have hj : j ∈ ys ++ k :: zs := he ▸ List.mem_finRange j
    refine ⟨fun hj => hys j hj k List.mem_cons_self, fun hlt => (List.mem_append.mp hj).resolve_right fun hj => ?_⟩
    rcases List.mem_cons.mp hj with rfl | hj
    · exact lt_irrefl _ hlt
    · exact lt_asymm hlt ((List.pairwise_cons.mp hzs).1 j hj)
  -- a list passes if all of its members fit
  have hok : ∀ j, (∃ n, inspectList j h = .ok (.ok n)) ↔ ∃ ds, Strung h j none (h.heads.get j) ds := by
    intro j
    simp only [inspectList_iff htop]
    exact ⟨fun ⟨_, ds, hs, _⟩ => ⟨ds, hs⟩, fun ⟨ds, hs⟩ => ⟨_, ds, hs, rfl⟩⟩
  rw [error_mapM_iff]
  constructor
  · intro hr
    obtain ⟨ys, k, zs, he, hys, hk⟩ := hr
    exact ⟨k, fun j hj => (hok j).mp (hys j ((hbefore he).mpr hj)), (inspectList_error_iff htop).mp hk⟩
  · intro hr
    obtain ⟨k, hlt, hk⟩ := hr
    obtain ⟨ys, zs, he⟩ := List.append_of_mem (List.mem_finRange k)
    exact ⟨ys, k, zs, he, fun j hj => (hok j).mpr (hlt j ((hbefore he).mp hj)), (inspectList_error_iff htop).mpr hk⟩

end

/-! ## The whole heap -/

/-- What is reported of a heap: the first block that breaks a condition; if there is none, the
first member that does not fit, with the class of its list; if all fit, that the lists have more
or fewer members than there are free blocks. -/
inductive Heap.Reports (h : Heap) : Option SizeClass → Violation → Prop
  | block {bs : List (Block × Tag)} {b : Block} {v : Violation} (hc : Climbs h none h.first bs b)
    (hv : b.Breaks h bs.getLast? v) : h.Reports none v
  | member {bs : List (Block × Tag)} {k : SizeClass} {ms : List Block} {b : Block} {v : Violation}
    (hc : Chained h true h.first bs) (hs : Spaced bs) (hl : ∀ j < k, ∃ ds, Strung h j none (h.heads.get j) ds)
    (ha : Accepts h k none (h.heads.get k) ms (some b)) (hv : b.Misfits h k ms.getLast? v) : h.Reports (some k) v
  | count {bs : List (Block × Tag)} {l : Lists} (hc : Chained h true h.first bs) (hs : Spaced bs)
    (hl : ∀ k, Strung h k none (h.heads.get k) (l k)) (hn : bs.countP (!·.2.isAlloc) ≠ l.flat.length) :
    h.Reports none (.freeCountMismatch (bs.countP (!·.2.isAlloc)) l.flat.length)

theorem Heap.Reports.class_mem {o : Option SizeClass} (hv : h.Reports o v) (hk : k ∈ o) :
    ("class", k.val) ∈ v.fields ∨ ∃ b n, v = .badBlock b n := by
  cases hv with
  | block => cases hk
  | count => cases hk
  | member _ _ _ _ hv =>
    cases hk
    exact hv.fields.imp_right fun hn => ⟨_, hn⟩

theorem Heap.not_reports_overlap (o : Option SizeClass) (b n : Nat) : ¬ h.Reports o (.overlap b n) := by
  intro hr
  cases hr with
  | block _ hv => cases hv
  | member _ _ _ _ hv => cases hv

theorem Lists.sum_lengths (l : Lists) :
    (SizeClass.all.map fun k => (l k).length).foldl (· + ·) 0 = l.flat.length := by
  rw [← List.sum_eq_foldl, flat, List.length_flatMap]

section

variable (htop : h.top < wordLimit)
include htop

theorem Heap.Reports.run {o : Option SizeClass} (hv : h.Reports o v) : validate h = .ok (.error v) := by
  refine (inspection_bind (a := h) rfl).trans ?_
  cases hv with
  | block hc hv => exact inspection_stop (hc.run htop (by rwa [Option.or_none]) .start)
  | member hc hs hl ha hv =>
    rw [inspection_bind (hc.run_inspectBlocksFrom htop hs (.inl rfl))]
    exact inspection_stop ((inspectLists_error_iff htop).mpr ⟨_, hl, _, _, ha, hv⟩)
  | @count bs l hc hs hl hn =>
    have hfree : (Stats.count {} bs).freeBlocks = bs.countP (!·.2.isAlloc) := Nat.zero_add _
    rw [inspection_bind (hc.run_inspectBlocksFrom htop hs (.inl rfl)),
      inspection_bind ((inspectLists_iff htop).mpr ⟨l, hl, rfl⟩), error_guard_iff]
    refine .inl ⟨fun he => hn ?_, ?_⟩
    · rw [← hfree, ← l.sum_lengths, he]
    · rw [← hfree, l.sum_lengths]

theorem exists_reports (hr : validate h = .ok (.error v)) : ∃ o, h.Reports o v := by
  have hrun : validate h = (do
      let stats ← inspectBlocksFrom h.first {}
      let listed := (← SizeClass.all.mapM inspectList).foldl (· + ·) 0
      require (listed = stats.freeBlocks) (.freeCountMismatch stats.freeBlocks listed)
      return { stats with heapSize := (← read).source.size } : Inspection Stats) h :=
    inspection_bind (a := h) rfl
  rw [hrun, error_bind_iff] at hr
  rcases hr with hr | ⟨_, hwalk, hr⟩
  · obtain ⟨bs, b, hc, hv⟩ := exists_breaks htop .start hr
    rw [Option.or_none] at hv
    exact ⟨none, .block hc hv⟩
  obtain ⟨bs, hc, hs, -, rfl⟩ := chained_of_inspectBlocksFrom htop hwalk
  rw [error_bind_iff, inspectLists_error_iff htop] at hr
  rcases hr with ⟨k, hl, ms, b, ha, hv⟩ | ⟨_, hlists, hr⟩
  · exact ⟨some k, .member hc hs hl ha hv⟩
  obtain ⟨l, hl, rfl⟩ := (inspectLists_iff htop).mp hlists
  rw [error_guard_iff] at hr
  rcases hr with ⟨hn, rfl⟩ | ⟨-, hr⟩
  · have hsum := l.sum_lengths
    have hfree : (Stats.count {} bs).freeBlocks = bs.countP (!·.2.isAlloc) := Nat.zero_add _
    change ¬ _ = (Stats.count {} bs).freeBlocks at hn
    rw [hsum, hfree] at hn
    refine ⟨none, ?_⟩
    rw [hsum]
    exact hfree ▸ .count hc hs hl (Ne.symm hn)
  · rcases error_bind_iff.mp hr with hr | ⟨_, -, hr⟩
    · cases hr
    · exact (error_pure_iff.mp hr).elim

end

/-- Whatever a heap holds, what `validate` reports of it is what is wrong with it first. A list is
reported with its class, unless a member has a size that no block has; no two blocks are ever
reported to overlap. -/
theorem validate_reports (htop : h.top < wordLimit) :
    (∀ v, validate h = .ok (.error v) ↔ ∃ o, h.Reports o v) ∧
      (∀ o v, h.Reports o v → ∀ k ∈ o, ("class", k.val) ∈ v.fields ∨ ∃ b n, v = .badBlock b n) ∧
      ∀ b n, validate h ≠ .ok (.error (.overlap b n)) := by
  refine ⟨fun v => ⟨exists_reports htop, fun hr => ?_⟩, fun o v hv k hk => hv.class_mem hk, fun b n hr => ?_⟩
  · obtain ⟨o, hv⟩ := hr
    exact hv.run htop
  · obtain ⟨o, hv⟩ := exists_reports htop hr
    exact h.not_reports_overlap o b n hv

theorem cyclicHeap_reports : cyclicHeap.top < wordLimit ∧ ∃ o, cyclicHeap.Reports o (.brokenBackLink 1 4224) := by
  obtain ⟨htop, hrun⟩ : cyclicHeap.top < wordLimit ∧
      validate cyclicHeap = .ok (.error (.brokenBackLink 1 4224)) := by decide +kernel
  exact ⟨htop, ((validate_reports htop).1 _).mp hrun⟩

/-- In the heap of a run, a block of 16 bytes that lies in the payload of another is listed. -/
def undersizedHeap : Heap :=
  { smallRun.heap with
    memory := smallRun.heap.memory.setWord 4216 16
    heads := smallRun.heap.heads.set (0 : SizeClass) (some ⟨4224⟩) }

/-- The walk in address order meets no such block, and what is reported of the list has no class. -/
theorem undersizedHeap_reports_no_class : undersizedHeap.top < wordLimit ∧
    validate undersizedHeap = .ok (.error (.badBlock 4224 16)) ∧
    ¬ ∃ o, undersizedHeap.Reports o (.badBlock 4224 16) ∧
      ∀ k ∈ o, ("class", k.val) ∈ (Violation.badBlock 4224 16).fields := by
  obtain ⟨htop, hrun, hwalk⟩ : undersizedHeap.top < wordLimit ∧
      validate undersizedHeap = .ok (.error (.badBlock 4224 16)) ∧
      inspectBlocksFrom undersizedHeap.first {} undersizedHeap = .ok (.ok ⟨0, 2, 112, 2, 144⟩) := by decide +kernel
  refine ⟨htop, hrun, fun hr => ?_⟩
  obtain ⟨o, hv, hk⟩ := hr
  cases hv with
  | block hc hv =>
    have hstop := hc.run htop (by rwa [Option.or_none]) .start
    rw [hwalk] at hstop
    cases hstop
  | member => simp [Violation.fields] at hk

end SegregatedFit
