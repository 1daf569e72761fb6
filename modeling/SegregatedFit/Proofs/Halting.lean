import SegregatedFit.Proofs.Fitting

/-!
# Inspections of arbitrary heaps

Whatever its memory and its heads hold, `validate` answers, and reads no word outside the
heap. No list needs to be remembered or counted for that: a walk that came back to a member
is stopped there by the back link, which still names the first way to it.
-/

namespace SegregatedFit

open Block

variable {α β : Type} {h : Heap} {a : α} {b d : Block} {t : Tag} {k : SizeClass} {v : Violation}

/-! ## Answers -/

/-- The inspection gives `r` on the heap, even if all accesses outside of it are faults. -/
def Gives (x : Inspection α) (h : Heap) (r : Except Violation α) : Prop :=
  ∀ g, x { h with guarded := g } = .ok r

def Answered (x : Inspection α) (h : Heap) : Prop := ∃ r, Gives x h r

theorem run_inHeap_guarded (htop : h.top < wordLimit) (addr len : Nat) (g : Bool) :
    inHeap addr len { h with guarded := g } = .ok (decide (h.source.lo ≤ addr ∧ addr + len ≤ h.top)) :=
  run_inHeap_eq (h := { h with guarded := g }) htop addr len

namespace Gives

variable {x : Inspection α} {f : α → Inspection β} {p : Prop} {_ : Decidable p}

theorem run {r : Except Violation α} (hx : Gives x h r) : x h = .ok r := hx h.guarded

theorem pure (a : α) : Gives (pure a) h (.ok a) := fun _ => rfl

theorem bind {r : Except Violation β} (hx : Gives x h (.ok a)) (hf : Gives (f a) h r) : Gives (x >>= f) h r :=
  fun g => (inspection_bind (hx g)).trans (hf g)

theorem stop (hx : Gives x h (.error v)) : Gives (x >>= f) h (.error v) := fun g => inspection_stop (hx g)

theorem query {r : Except Violation β} {q : Query α} (hq : ∀ g, q { h with guarded := g } = .ok a)
    (hf : Gives (f a) h r) : Gives ((liftM q : Inspection α) >>= f) h r :=
  fun g => (inspection_query (hq g)).trans (hf g)

theorem require (hp : p) : Gives (require p v) h (.ok ()) := fun _ => run_require hp

theorem reject (hp : ¬ p) : Gives (SegregatedFit.require p v) h (.error v) := fun _ => by
  unfold SegregatedFit.require
  rw [if_neg hp]; rfl

theorem guard {r : Except Violation α} (hp : p) (hx : Gives x h r) : Gives (do
    SegregatedFit.require p v
    x) h r := (require hp).bind hx

theorem within {r : Except Violation α} (htop : h.top < wordLimit) {addr len : Nat}
    (hin : h.source.lo ≤ addr ∧ addr + len ≤ h.top) (hx : Gives x h r) : Gives (do
    SegregatedFit.require (← inHeap addr len) v
    x) h r :=
  query (run_inHeap_guarded htop addr len) (guard (decide_eq_true hin) hx)

end Gives

namespace Answered

variable {x : Inspection α} {f : α → Inspection β} {p : Prop} {_ : Decidable p}

theorem pure (a : α) : Answered (pure a) h := ⟨_, .pure a⟩

theorem report (v : Violation) : Answered (report v : Inspection α) h := ⟨.error v, fun _ => rfl⟩

theorem bind (hx : Answered x h) (hf : ∀ a, Gives x h (.ok a) → Answered (f a) h) : Answered (x >>= f) h := by
  obtain ⟨r, hr⟩ := hx
  cases r with
  | error v => exact ⟨_, hr.stop⟩
  | ok a =>
    obtain ⟨s, hs⟩ := hf a hr
    exact ⟨s, hr.bind hs⟩

theorem query {q : Query α} (hq : ∀ g, q { h with guarded := g } = .ok a) (hf : Answered (f a) h) :
    Answered ((liftM q : Inspection α) >>= f) h := by
  obtain ⟨r, hr⟩ := hf
  exact ⟨r, .query hq hr⟩

theorem except {e : Except Fault α} (he : e = .ok a) (hf : Answered (f a) h) :
    Answered ((liftM e : Inspection α) >>= f) h := by
  subst he
  exact hf

theorem read {f : Heap → Inspection β} (hf : ∀ g, f { h with guarded := g } = f h) (hx : Answered (f h) h) :
    Answered ((liftM (read : Query Heap) : Inspection Heap) >>= f) h := by
  obtain ⟨r, hr⟩ := hx
  refine ⟨r, fun g => (inspection_query rfl).trans ?_⟩
  rw [hf g]
  exact hr g

theorem require (p : Prop) {_ : Decidable p} (v : Violation) : Answered (require p v) h := by
  by_cases hp : p
  · exact ⟨_, .require hp⟩
  · exact ⟨_, .reject hp⟩

theorem guard (hx : p → Answered x h) : Answered (do
    SegregatedFit.require p v
    x) h :=
  (require p v).bind fun _ hp => hx (ok_require_iff.mp hp.run)

theorem within (htop : h.top < wordLimit) {addr len : Nat}
    (hx : h.source.lo ≤ addr ∧ addr + len ≤ h.top → Answered x h) : Answered (do
    SegregatedFit.require (← inHeap addr len) v
    x) h :=
  query (run_inHeap_guarded htop addr len) (guard fun hin => hx (decide_eq_true_eq.mp hin))

theorem mapM {f : α → Inspection β} (hf : ∀ a, Answered (f a) h) (xs : List α) : Answered (xs.mapM f) h := by
  induction xs with
  | nil => exact pure []
  | cons x xs ih =>
    rw [List.mapM_cons]
    exact (hf x).bind fun y _ => ih.bind fun ys _ => pure (y :: ys)

end Answered

/-! ## Single checks -/

theorem Block.Bears.guard (hb : b.Bears t h) (g : Bool) : b.Bears t { h with guarded := g } :=
  ⟨hb.word, hb.lo_le, hb.le_top⟩

theorem Block.LiesIn.guard (hl : b.LiesIn t h) (g : Bool) : b.LiesIn t { h with guarded := g } :=
  ⟨hl.toBears.guard g, hl.aligned, hl.le_size, hl.end_le⟩

theorem Block.Listable.guard (hb : b.Listable k h) (g : Bool) : b.Listable k { h with guarded := g } := by
  obtain ⟨t, hl, hf, hk⟩ := hb
  exact ⟨t, hl.guard g, hf, hk⟩

section

variable (htop : h.top < wordLimit)
include htop

theorem Answered.header {f : Tag → Inspection α} (hf : ∀ t, b.Bears t h → Answered (f t) h) : Answered (do
    SegregatedFit.require (← inHeap b.headerAddr wordSize) v
    let t ← b.header
    f t) h := by
  refine within htop fun hin => ?_
  obtain ⟨hlo, hhi⟩ := (headerAddr_mem htop).mp hin
  have hb : b.Bears ⟨h.memory.word (b.payload - wordSize)⟩ h := ⟨rfl, hlo, hhi⟩
  exact query (fun g => (hb.guard g).header) (hf _ hb)

theorem answered_checkHeader (p : Bool) (b : Block) : Answered (checkHeader p b) h :=
  .header htop fun t _ => .guard fun _ => .pure t

theorem answered_checkEpilogue (b : Block) (t : Tag) : Answered (checkEpilogue b t) h :=
  .read (fun _ => rfl) (.except (checkedAdd_of_lt htop) (.require _ _))

theorem answered_checkBlock (hb : b.Bears t h) (o : Option Block) : Answered (checkBlock o b t) h := by
  refine .guard fun hp => .within htop fun hin => ?_
  have hl := (liesIn_iff hb).mp ⟨hp, hin⟩
  have hfoot : ∀ g, b.footer { h with guarded := g } = .ok ⟨h.memory.word (b.payload + t.size - overhead)⟩ :=
    fun g => (hl.guard g).footer htop
  refine .query hfoot (.guard fun _ => ?_)
  by_cases ha : t.isAlloc = true
  · rw [if_pos ha]
    exact .except (checkedAdd_of_lt (hl.overlaps_not htop).2) (.require _ _)
  · rw [if_neg ha]
    cases o with
    | none => exact .pure ()
    | some f => exact .report _

theorem Block.LiesIn.gives_prevFree (hl : b.LiesIn t h) (g : Bool) :
    b.prevFree { h with guarded := g } = .ok (h.prevLink b) := (hl.guard g).prevFree htop

theorem answered_checkMember (k : SizeClass) (prev : Option Block) (b : Block) :
    Answered (checkMember k prev b) h := by
  refine .header htop fun t hb => .guard fun _ => .within htop fun hin => .guard fun hp => ?_
  have hl := (liesIn_iff hb).mp ⟨hp, hin⟩
  exact .guard fun _ => .guard fun _ => .query (hl.gives_prevFree htop) (.require _ _)

theorem gives_brokenBackLink (hb : b.Listable k h) {prev : Option Block} (hprev : h.prevLink b ≠ prev) :
    Gives (checkMember k prev b) h (.error (.brokenBackLink k b.payload)) := by
  obtain ⟨t, hl, hf, hk⟩ := hb
  obtain ⟨hp, hin⟩ := (liesIn_iff hl.toBears).mpr hl
  have hs := hl.le_size
  have hz : t.size ≠ 0 := by
    intro hz
    rw [hz] at hs
    cases hs
  refine .within htop ((headerAddr_mem htop).mpr ⟨hl.lo_le, hl.le_top⟩) (.query (fun g => (hl.guard g).header) ?_)
  refine .guard hz (.within htop hin (.guard hp (.guard hf (.guard hk ?_))))
  exact .query (hl.gives_prevFree htop) (.reject hprev)

/-! ## The walk in address order -/

theorem answered_inspectBlocksFrom (b : Block) (q : Progress) : Answered (inspectBlocksFrom b q) h := by
  induction b, q using inspectBlocksFrom.induct with
  | case1 b q ih =>
    rw [inspectBlocksFrom]
    refine (answered_checkHeader htop _ b).bind fun t ht => ?_
    have hb := ((checkHeader_iff htop).mp ht.run).1
    by_cases hz : t.size = 0
    · rw [if_pos hz]
      exact (answered_checkEpilogue htop b t).bind fun _ _ => .pure q.stats
    · rw [if_neg hz]
      refine (answered_checkBlock htop hb q.lastFree).bind fun _ _ => ?_
      by_cases hup : b.payload < (b.after t.size).payload ∧ (b.after t.size).payload < wordLimit
      · rw [dif_pos hup]
        exact ih t hup
      · rw [dif_neg hup]
        exact .report _

end

inductive Walks (h : Heap) : Block → Progress → Block → Progress → Prop
  | here (b : Block) (q : Progress) : Walks h b q b q
  | on {b d : Block} {q r : Progress} {t : Tag} (hheader : checkHeader q.prevAlloc b h = .ok (.ok t))
      (hsize : t.size ≠ 0) (hblock : checkBlock q.lastFree b t h = .ok (.ok ()))
      (hrest : Walks h (b.after t.size) (q.step b t) d r) : Walks h b q d r

def Stats.bytes (s : Stats) : Nat := s.allocatedSize + s.freeSize

def Stats.blocks (s : Stats) : Nat := s.allocatedBlocks + s.freeBlocks

theorem Progress.bytes_step (q : Progress) (b : Block) (t : Tag) :
    (q.step b t).stats.bytes = q.stats.bytes + t.size := by
  unfold Progress.step Stats.bytes
  cases t.isAlloc <;> simp <;> omega

theorem Progress.blocks_step (q : Progress) (b : Block) (t : Tag) :
    (q.step b t).stats.blocks = q.stats.blocks + 1 := by
  unfold Progress.step Stats.blocks
  cases t.isAlloc <;> simp <;> omega

/-- After a block that lies in the heap, a walk goes up; or it has left the words, and
stops. -/
theorem Block.LiesIn.after_cases (hl : b.LiesIn t h) (htop : h.top < wordLimit) :
    b.after t.size = ⟨b.payload + t.size⟩ ∧ b.payload + t.size < wordLimit ∨
      (b.after t.size).payload < wordSize ∧ ¬ b.payload < (b.after t.size).payload := by
  have hs := hl.le_size
  have he := hl.end_le
  have hlo := hl.lo_le
  unfold Block.after wrapAdd
  simp only [wordLimit, wordSize, minBlock] at *
  split
  · exact .inl ⟨rfl, ‹_›⟩
  · refine .inr ⟨?_, ?_⟩ <;> omega

theorem checkHeader_outside (htop : h.top < wordLimit) (hlo : b.payload < wordSize) (p : Bool) :
    checkHeader p b h = .ok (.error (.outOfBounds b.payload)) := by
  have hout : ¬ (h.source.lo ≤ b.headerAddr ∧ b.headerAddr + wordSize ≤ h.top) := by
    rw [headerAddr_mem htop]
    omega
  unfold checkHeader
  rw [inspection_query (run_inHeap_eq htop b.headerAddr wordSize)]
  exact (Gives.reject (mt of_decide_eq_true hout)).stop.run

namespace Walks

variable {q r : Progress}

theorem run (hw : Walks h b q d r) (htop : h.top < wordLimit) :
    inspectBlocksFrom b q h = inspectBlocksFrom d r h := by
  induction hw with
  | here => rfl
  | @on b d q r t hheader hsize hblock hrest ih =>
    have hb := ((checkHeader_iff htop).mp hheader).1
    have hl := ((checkBlock_iff htop hb).mp hblock).1
    rw [← ih, inspectBlocksFrom, inspection_bind hheader, if_neg hsize, inspection_bind hblock]
    rcases hl.after_cases htop with ⟨hafter, hlt⟩ | ⟨hlow, hdown⟩
    · have hpos : 0 < t.size := Nat.pos_of_ne_zero hsize
      rw [dif_pos (by rw [hafter]; exact ⟨Nat.lt_add_of_pos_right hpos, hlt⟩)]
    · -- an address that has wrapped is out of bounds, on whichever side one looks at it
      have hout : Gives (checkHeader (q.step b t).prevAlloc (b.after t.size)) h
          (.error (.outOfBounds (b.after t.size).payload)) := fun g =>
        checkHeader_outside (h := { h with guarded := g }) htop hlow _
      rw [dif_neg fun hup => hdown hup.1, inspectBlocksFrom, hout.stop.run]
      rfl

theorem bytes_le (hw : Walks h b q d r) (htop : h.top < wordLimit) :
    r.stats.bytes ≤ q.stats.bytes + (h.top + wordSize - b.payload) ∧
      (b.payload < h.source.lo + wordSize → r.stats.bytes = q.stats.bytes) ∧
      minBlock * r.stats.blocks + q.stats.bytes ≤ minBlock * q.stats.blocks + r.stats.bytes := by
  induction hw with
  | here => exact ⟨Nat.le_add_right _ _, fun _ => rfl, Nat.le_refl _⟩
  | @on b d q r t hheader hsize hblock hrest ih =>
    have hb := ((checkHeader_iff htop).mp hheader).1
    have hl := ((checkBlock_iff htop hb).mp hblock).1
    obtain ⟨hbytes, hstuck, hblocks⟩ := ih
    rw [q.bytes_step] at hbytes hstuck hblocks
    rw [q.blocks_step] at hblocks
    have hlo := hl.lo_le
    have hend := hl.end_le
    have hmin := hl.le_size
    simp only [wordSize, minBlock] at *
    refine ⟨?_, fun hb => absurd hb (Nat.not_lt_of_le hlo), by omega⟩
    rcases hl.after_cases htop with ⟨hafter, -⟩ | ⟨hlow, -⟩
    · rw [hafter] at hbytes
      simp only at hbytes
      omega
    · -- the walk has wrapped and is stuck, so that this block was its last
      simp only [wordSize] at hlow
      rw [hstuck (by omega)]
      omega

end Walks

/-! ## The lists -/

namespace Accepts

variable {bs : List Block} {prev link : Option Block}

theorem concat (hs : Accepts h k prev link bs (some b)) (hb : b.Listable k h)
    (hback : h.prevLink b = bs.getLast?.or prev) : Accepts h k prev link (bs ++ [b]) (h.nextLink b) := by
  induction bs generalizing prev link with
  | nil => exact ⟨hs, hb, hback, rfl⟩
  | cons d bs ih =>
    obtain ⟨hlink, hd, hprev, hs⟩ := hs
    refine ⟨hlink, hd, hprev, ih hs ?_⟩
    rw [hback, List.getLast?_cons]
    cases bs.getLast? <;> rfl

/-- A list that comes back to a member is stopped by the back link of that, which names
another block. -/
theorem cycle (hs : Accepts h k none link bs (some b)) (hb : b ∈ bs) (htop : h.top < wordLimit) :
    Gives (checkMember k bs.getLast? b) h (.error (.brokenBackLink k b.payload)) := by
  have hlist := hs.listable b hb
  refine gives_brokenBackLink htop hlist fun hback => ?_
  have hnd := (hs.concat hlist (by rw [hback, Option.or_none])).nodup
  exact (List.nodup_append.mp hnd).2.2 b hb b (List.mem_singleton_self b) rfl

end Accepts

/-- How the inspection of a list of class `k` goes: after the members `bs` it is through, or
is stopped at the next one. -/
inductive Heap.ListEnds (h : Heap) (k : SizeClass) (bs : List Block) : Prop
  | through (hs : Accepts h k none (h.heads.get k) bs none) (hr : Gives (inspectList k) h (.ok bs.length))
  | stopped {b : Block} {v : Violation} (hs : Accepts h k none (h.heads.get k) bs (some b))
      (hv : Gives (checkMember k bs.getLast? b) h (.error v)) (hr : Gives (inspectList k) h (.error v))

theorem inspectChain_ends (htop : h.top < wordLimit) (n : Nat) (prev link : Option Block) :
    ∃ bs rest, Accepts h k prev link bs rest ∧
      ((rest = none ∧ Gives (inspectChain k n prev link) h (.ok bs.length)) ∨
        (∃ b v, rest = some b ∧ Gives (checkMember k (bs.getLast?.or prev) b) h (.error v) ∧
          Gives (inspectChain k n prev link) h (.error v)) ∨
        bs.length = n) := by
  induction n, prev, link using inspectChain.induct with
  | case1 n prev =>
    have hrun : inspectChain k n prev none = pure 0 := by cases n <;> rfl
    exact ⟨[], none, rfl, .inl ⟨rfl, hrun ▸ .pure 0⟩⟩
  | case2 prev b => exact ⟨[], some b, rfl, .inr (.inr rfl)⟩
  | case3 n prev b ih =>
    obtain ⟨s, hs⟩ := answered_checkMember htop k prev b
    cases s with
    | error v => exact ⟨[], some b, rfl, .inr (.inl ⟨b, v, rfl, hs, hs.stop⟩)⟩
    | ok u =>
      obtain ⟨hb, hprev⟩ := (checkMember_iff htop).mp hs.run
      obtain ⟨bs, rest, hacc, hend⟩ := ih (h.nextLink b)
      have hnext : ∀ g, b.nextFree { h with guarded := g } = .ok (h.nextLink b) := fun g => (hb.guard g).nextFree
      have hstep : ∀ r, Gives (inspectChain k n (some b) (h.nextLink b) >>= fun m => pure (m + 1)) h r →
          Gives (inspectChain k (n + 1) prev (some b)) h r := fun r hr => hs.bind (.query hnext hr)
      refine ⟨b :: bs, rest, ⟨rfl, hb, hprev, hacc⟩, ?_⟩
      rcases hend with ⟨hrest, hr⟩ | ⟨d, v, hrest, hv, hr⟩ | hn
      · exact .inl ⟨hrest, hstep _ (hr.bind (.pure _))⟩
      · refine .inr (.inl ⟨d, v, hrest, ?_, hstep _ hr.stop⟩)
        rw [List.getLast?_cons]
        cases hlast : bs.getLast? <;> simpa [hlast] using hv
      · exact .inr (.inr (congrArg (· + 1) hn))

theorem listEnds (htop : h.top < wordLimit) (k : SizeClass) : ∃ bs, h.ListEnds k bs := by
  have hhead : ∀ g, FreeList.head k { h with guarded := g } = .ok (h.heads.get k) := fun _ => rfl
  obtain ⟨bs, rest, hs, hend⟩ := inspectChain_ends (k := k) htop wordLimit none (h.heads.get k)
  rw [Option.or_none] at hend
  rcases hend with ⟨rfl, hr⟩ | ⟨b, v, rfl, hv, hr⟩ | hn
  · exact ⟨bs, .through hs (.query hhead hr)⟩
  · exact ⟨bs, .stopped hs hv (.query hhead hr)⟩
  · exact absurd hn (Nat.ne_of_lt (hs.length_lt htop))

theorem Heap.ListEnds.answered {bs : List Block} (he : h.ListEnds k bs) : Answered (inspectList k) h := by
  cases he with
  | through _ hr => exact ⟨_, hr⟩
  | stopped _ _ hr => exact ⟨_, hr⟩

theorem Heap.ListEnds.accepts {bs : List Block} (he : h.ListEnds k bs) :
    ∃ rest, Accepts h k none (h.heads.get k) bs rest := by
  cases he with
  | through hs => exact ⟨_, hs⟩
  | stopped hs => exact ⟨_, hs⟩

theorem Block.Listable.class_eq {j : SizeClass} (hj : b.Listable j h) (hk : b.Listable k h) : j = k := by
  obtain ⟨t, ht, -, rfl⟩ := hj
  obtain ⟨u, hu, -, rfl⟩ := hk
  rw [Tag.ext (ht.word.symm.trans hu.word)]

theorem nodup_flat_of_accepts {l : Lists} (hl : ∀ k, ∃ rest, Accepts h k none (h.heads.get k) (l k) rest) :
    l.flat.Nodup := by
  refine List.nodup_flatMap.mpr ⟨fun k _ => ?_, ?_⟩
  · obtain ⟨rest, hs⟩ := hl k
    exact hs.nodup
  · refine (List.nodup_finRange classCount).imp fun {j k} hjk b hj hk => hjk ?_
    obtain ⟨_, hsj⟩ := hl j
    obtain ⟨_, hsk⟩ := hl k
    exact (hsj.listable b hj).class_eq (hsk.listable b hk)

theorem nodup_flat_of_ends {l : Lists} (hl : ∀ k, h.ListEnds k (l k)) : l.flat.Nodup :=
  nodup_flat_of_accepts fun k => (hl k).accepts

/-! ## The whole heap -/

theorem answered_validate (htop : h.top < wordLimit) : Answered validate h := by
  refine .read (fun _ => rfl) ((answered_inspectBlocksFrom htop _ _).bind fun stats _ => ?_)
  refine (Answered.mapM (fun k => ?_) SizeClass.all).bind fun _ _ => .guard fun _ => ?_
  · obtain ⟨bs, hs⟩ := listEnds htop k
    exact hs.answered
  · exact .read (fun _ => rfl) (.pure _)

structure Heap.Halts (h : Heap) : Prop where
  answer : Answered validate h
  header : ∀ p b t, checkHeader p b h = .ok (.ok t) → b.headerAddr + wordSize < wordLimit
  figures : ∀ b q, Walks h h.first {} b q → inspectBlocksFrom h.first {} h = inspectBlocksFrom b q h ∧
    q.stats.bytes ≤ h.source.size ∧ minBlock * q.stats.blocks ≤ h.source.size
  lists : ∃ l : Lists, (∀ k, h.ListEnds k (l k)) ∧ l.flat.Nodup ∧ l.flat.length < wordLimit
  cycle : ∀ k bs b, Accepts h k none (h.heads.get k) bs (some b) → b ∈ bs →
    Gives (checkMember k bs.getLast? b) h (.error (.brokenBackLink k b.payload))

/-- `validate` answers on every heap that ends within the words, with the figures or with a
violation. -/
theorem validate_halts (htop : h.top < wordLimit) : h.Halts where
  answer := answered_validate htop
  header _ _ _ hr := by
    obtain ⟨hb, -⟩ := (checkHeader_iff htop).mp hr
    exact Nat.lt_of_le_of_lt ((headerAddr_mem htop).mpr ⟨hb.lo_le, hb.le_top⟩).2 htop
  figures b q hw := by
    obtain ⟨hbytes, hstuck, hblocks⟩ := hw.bytes_le htop
    have hzero : ({} : Progress).stats.bytes = 0 ∧ ({} : Progress).stats.blocks = 0 := ⟨rfl, rfl⟩
    rw [hzero.1] at hbytes hstuck hblocks
    rw [hzero.2, Nat.mul_zero, Nat.zero_add, Nat.add_zero] at hblocks
    have hsize : q.stats.bytes ≤ h.source.size := by
      by_cases hlo : h.first.payload < h.source.lo + wordSize
      · rw [hstuck hlo]
        exact Nat.zero_le _
      · unfold Heap.top at hbytes
        omega
    exact ⟨hw.run htop, hsize, Nat.le_trans hblocks hsize⟩
  lists := by
    choose l hl using listEnds htop
    have hnd := nodup_flat_of_ends hl
    refine ⟨l, hl, hnd, length_lt_of_payload_mem hnd fun b hb => ?_⟩
    obtain ⟨k, hk⟩ := Lists.mem_flat.mp hb
    obtain ⟨rest, hs⟩ := (hl k).accepts
    exact (hs.listable b hk).payload_mem htop
  cycle _ _ _ hs hb := hs.cycle hb htop

/-- In the heap of a run, the last member of a list of two is made to link to the first. -/
def cyclicHeap : Heap := { tieRun.heap with memory := tieRun.heap.memory.setWord 4128 4224 }

theorem cyclicHeap_halts : cyclicHeap.Halts ∧ validate cyclicHeap = .ok (.error (.brokenBackLink 1 4224)) :=
  ⟨validate_halts (by decide +kernel), by decide +kernel⟩

end SegregatedFit
