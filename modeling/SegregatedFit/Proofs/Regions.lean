import Mathlib.Algebra.GroupWithZero.Nat
import Mathlib.Data.List.Chain
import SegregatedFit.Proofs.Growth

/-!
# The regions that a source grants

A source whose region is in place gives out its bytes from the lower end on, each growth
in full or not at all. A reservation that has not been made yet answers its first growth
as if it had been. So a buffer and a reservation that have the same bytes to give answer
all growths alike, as long as the reservation can count them, and the regions that either
grants lie end to end from its lowest address.
-/

namespace SegregatedFit

variable {s t u : Source} {lo hi cap used n : Nat} {ns : List Nat}

/-! ## Growing again and again -/

def Source.growAll (s : Source) : List Nat → Except Fault (List (Except GrowthError Nat) × Source)
  | [] => .ok ([], s)
  | n :: ns => do
    let (r, t) ← s.grow n
    let (rs, u) ← t.growAll ns
    return (r :: rs, u)

theorem Source.growAll_cons {r : Except GrowthError Nat} {rs : List (Except GrowthError Nat)}
    (hr : s.grow n = .ok (r, t)) (hrs : t.growAll ns = .ok (rs, u)) : s.growAll (n :: ns) = .ok (r :: rs, u) := by
  rw [growAll, hr]
  show (t.growAll ns >>= fun p => _) = _
  rw [hrs]; rfl

def regions : List Nat → List (Except GrowthError Nat) → List (Nat × Nat)
  | n :: ns, .ok a :: rs => (a, n) :: regions ns rs
  | _ :: ns, .error _ :: rs => regions ns rs
  | _, _ => []

/-- How `cap` bytes of which `used` are in use are given out to the growths `ns`: where the
region of each begins, or how much was asked for and how much there was. -/
def ration (cap : Nat) : Nat → List Nat → List (Except (Nat × Nat) Nat)
  | _, [] => []
  | used, n :: ns =>
    if cap - used < n then .error (n, cap - used) :: ration cap used ns
    else .ok used :: ration cap (used + n) ns

def grants (cap used : Nat) (ns : List Nat) : Nat := (ration cap used ns).countP (·.isOk)

theorem grants_cons_short (hn : cap - used < n) : grants cap used (n :: ns) = grants cap used ns := by
  rw [grants, ration, if_pos hn]; rfl

theorem grants_cons_granted (hn : ¬ cap - used < n) : grants cap used (n :: ns) = grants cap (used + n) ns + 1 := by
  rw [grants, ration, if_neg hn]
  exact List.countP_cons_of_pos rfl

theorem grants_replicate_zero (cap used k : Nat) : grants cap used (.replicate k 0) = k := by
  induction k with
  | zero => rfl
  | succ k ih => rw [List.replicate_succ, grants_cons_granted (Nat.not_lt_zero _), Nat.add_zero used, ih]

def located (lo : Nat) (fail : Nat → Nat → GrowthError) : Except (Nat × Nat) Nat → Except GrowthError Nat
  | .ok offset => .ok (lo + offset)
  | .error (requested, available) => .error (fail requested available)

theorem regions_sizes (ns : List Nat) (xs : List (Except (Nat × Nat) Nat)) {lo lo' : Nat}
    {fail fail' : Nat → Nat → GrowthError} :
    (regions ns (xs.map (located lo fail))).map Prod.snd =
      (regions ns (xs.map (located lo' fail'))).map Prod.snd := by
  induction ns generalizing xs with
  | nil => cases xs <;> rfl
  | cons n ns ih =>
    cases xs with
    | nil => rfl
    | cons x xs =>
      cases x with
      | ok offset => exact congrArg (n :: ·) (ih xs)
      | error short => exact ih xs

theorem length_regions (cap used : Nat) (ns : List Nat) {fail : Nat → Nat → GrowthError} :
    (regions ns ((ration cap used ns).map (located lo fail))).length = grants cap used ns := by
  induction ns generalizing used with
  | nil => rfl
  | cons n ns ih =>
    unfold ration
    by_cases hn : cap - used < n
    · rw [if_pos hn, grants_cons_short hn]
      exact ih used
    · rw [if_neg hn, grants_cons_granted hn]
      exact congrArg (· + 1) (ih (used + n))

/-! ## Regions end to end -/

def Strip : Nat → List (Nat × Nat) → Nat → Prop
  | lo, [], hi => lo = hi
  | lo, (a, n) :: gs, hi => a = lo ∧ Strip (lo + n) gs hi

namespace Strip

variable {gs : List (Nat × Nat)}

theorem hi_eq (hs : Strip lo gs hi) : hi = lo + (gs.map Prod.snd).sum := by
  induction gs generalizing lo with
  | nil => exact hs.symm
  | cons g gs ih =>
    obtain ⟨-, hs⟩ := hs
    rw [ih hs, List.map_cons, List.sum_cons, Nat.add_assoc]

theorem placed (hs : Strip lo gs hi) (k : Nat) (hk : k < gs.length) :
    gs[k].1 = lo + ((gs.take k).map Prod.snd).sum := by
  induction gs generalizing lo k with
  | nil => cases hk
  | cons g gs ih =>
    obtain ⟨ha, hs⟩ := hs
    cases k with
    | zero => exact ha
    | succ k =>
      rw [List.getElem_cons_succ, ih hs k (Nat.lt_of_succ_lt_succ hk), List.take_succ_cons, List.map_cons,
        List.sum_cons, Nat.add_assoc]

theorem inside (hs : Strip lo gs hi) : ∀ g ∈ gs, lo ≤ g.1 ∧ g.1 + g.2 ≤ hi := by
  induction gs generalizing lo with
  | nil => exact fun g hg => absurd hg List.not_mem_nil
  | cons d gs ih =>
    have hhi := hs.hi_eq
    obtain ⟨ha, hs⟩ := hs
    rw [List.map_cons, List.sum_cons] at hhi
    intro g hg
    rcases List.mem_cons.mp hg with rfl | hg
    · omega
    · have := ih hs g hg
      omega

theorem apart (hs : Strip lo gs hi) : gs.Pairwise fun g d => g.1 + g.2 ≤ d.1 := by
  induction gs generalizing lo with
  | nil => exact List.Pairwise.nil
  | cons g gs ih =>
    obtain ⟨rfl, hs⟩ := hs
    exact List.Pairwise.cons (fun d hd => (hs.inside d hd).1) (ih hs)

theorem adjacent (hs : Strip lo gs hi) : gs.IsChain fun g d => g.1 + g.2 = d.1 := by
  induction gs generalizing lo with
  | nil => exact List.IsChain.nil
  | cons g gs ih =>
    obtain ⟨rfl, hs⟩ := hs
    refine List.isChain_cons.mpr ⟨fun d hd => ?_, ih hs⟩
    cases gs with
    | nil => cases hd
    | cons e gs =>
      obtain rfl : e = d := Option.some.inj hd
      exact hs.1.symm

/-- Regions without bytes do not move what comes after them. -/
theorem first (hs : Strip lo gs hi) {g : Nat × Nat} (hg : gs.find? (0 < ·.2) = some g) : g.1 = lo := by
  induction gs generalizing lo with
  | nil => cases hg
  | cons d gs ih =>
    obtain ⟨ha, hs⟩ := hs
    rw [List.find?_cons] at hg
    by_cases hd : 0 < d.2
    · rw [decide_eq_true hd] at hg
      cases hg
      exact ha
    · rw [decide_eq_false hd] at hg
      rw [ih hs hg, Nat.eq_zero_of_not_pos hd, Nat.add_zero]

end Strip

namespace Source

/-! ## Sources in place -/

theorem counts_extend {k : Nat} : (s.extend n).Counts k ↔ s.Counts (k + 1) := by
  cases s with
  | buffer b => simp [Counts, Source.extend, growths?]
  | reservation r =>
    simp only [Counts, Source.extend, growths?, Option.mem_some_iff, forall_eq']
    omega

namespace Spans

/-- All growths are answered, as a stretch of `cap` bytes is given out. -/
theorem growAll (hs : s.Spans lo cap) (ns : List Nat) (hk : s.Counts (grants cap s.size ns)) :
    ∃ t, s.growAll ns = .ok ((ration cap s.size ns).map (located lo s.shortage), t) ∧ t.Spans lo cap ∧
      Strip (lo + s.size) (regions ns ((ration cap s.size ns).map (located lo s.shortage))) (lo + t.size) ∧
      t.growths? = s.growths?.map (· + grants cap s.size ns) := by
  induction ns generalizing s with
  | nil => exact ⟨s, rfl, hs, rfl, by cases s <;> rfl⟩
  | cons n ns ih =>
    unfold ration
    by_cases hn : cap - s.size < n
    · rw [grants_cons_short hn] at hk ⊢
      obtain ⟨t, hrun, ht, hstrip, hcount⟩ := ih hs hk
      rw [if_pos hn]
      exact ⟨t, growAll_cons (hs.short (by omega)) hrun, ht, hstrip, hcount⟩
    · have hle := hs.size_le
      have hfit : s.size + n ≤ cap := by omega
      rw [grants_cons_granted hn] at hk ⊢
      obtain ⟨t, hrun, ht, hstrip, hcount⟩ := ih (hs.extend hfit) (by rwa [size_extend, counts_extend])
      rw [size_extend, shortage_extend] at hrun hstrip
      rw [if_neg hn]
      refine ⟨t, growAll_cons (hs.granted hfit fun g hg => ?_) hrun, ht, ⟨rfl, ?_⟩, ?_⟩
      · have := hk g hg
        omega
      · rwa [Nat.add_assoc]
      · rw [hcount, size_extend, growths?_extend, Option.map_map]
        congr 1
        funext k
        exact Nat.add_right_comm ..

theorem growAll_uncounted (hs : s.Spans lo cap) (h₀ : s.Counts 0) (ns : List Nat)
    (hk : ¬ s.Counts (grants cap s.size ns)) : s.growAll ns = .error .arithmetic := by
  induction ns generalizing s with
  | nil => exact absurd h₀ hk
  | cons n ns ih =>
    unfold Source.growAll
    by_cases hn : cap - s.size < n
    · rw [grants_cons_short hn] at hk
      rw [hs.short (by omega)]
      show (s.growAll ns >>= fun p => _) = _
      rw [ih hs h₀ hk]; rfl
    · have hle := hs.size_le
      have hfit : s.size + n ≤ cap := by omega
      rw [grants_cons_granted hn] at hk
      by_cases h₁ : s.Counts 1
      · rw [hs.granted hfit h₁]
        show ((s.extend n).growAll ns >>= fun p => _) = _
        rw [ih (hs.extend hfit) (counts_extend.mpr h₁) (by rwa [size_extend, counts_extend])]; rfl
      · -- the first of them that cannot be counted
        rw [hs.uncounted hfit h₁]; rfl

theorem contains (hs : s.Spans lo cap) {off : Nat} (hoff : off < wordLimit) (len : Nat) :
    s.contains (wrapAdd s.lo off) len = .ok (decide (off + len ≤ s.size)) := by
  have htop := hs.top_lt
  rw [← hs.lo_eq] at htop
  unfold Source.contains
  rw [checkedAdd_of_lt htop]
  by_cases hup : s.lo + off < wordLimit
  · rw [wrapAdd_of_lt hup]
    by_cases hin : s.lo + off + len < wordLimit
    · rw [if_pos ⟨hin, Nat.le_add_right _ _⟩, Nat.add_assoc]
      exact congrArg _ (decide_eq_decide.mpr Nat.add_le_add_iff_left)
    · rw [if_neg fun h => hin h.1, decide_eq_false (by omega)]
  · -- the address has wrapped, to one below the heap
    have hlow : wrapAdd s.lo off < s.lo := by
      rw [wrapAdd, if_neg hup]
      omega
    rw [if_neg fun h => Nat.not_le_of_lt hlow h.2, decide_eq_false (by omega)]

end Spans

/-! ## What a source makes of any growths -/

/-- The growths `ns` are answered with `rs`, and the regions among these are the first of the
`cap` bytes at `lo`, end to end; `t` is what the source has become. -/
structure Serves (s : Source) (ns : List Nat) (lo cap : Nat) (rs : List (Except GrowthError Nat)) (t : Source) :
    Prop where
  run : s.growAll ns = .ok (rs, t)
  placed : ∀ k (hk : k < (regions ns rs).length),
    (regions ns rs)[k].1 = lo + (((regions ns rs).take k).map Prod.snd).sum
  adjacent : (regions ns rs).IsChain fun g d => g.1 + g.2 = d.1
  apart : (regions ns rs).Pairwise fun g d => g.1 + g.2 ≤ d.1
  inside : ∀ g ∈ regions ns rs, lo ≤ g.1 ∧ g.1 + g.2 ≤ lo + cap
  first : ∀ g, (regions ns rs).find? (0 < ·.2) = some g → g.1 = lo
  size : t.size = ((regions ns rs).map Prod.snd).sum
  counted : t.growths? = s.growths?.map (· + (regions ns rs).length)
  lowest : ns ≠ [] → t.lo = lo
  refusal : ∀ n e u, t.grow n = .ok (.error e, u) → u.size = t.size ∧ u.growths? = t.growths?

theorem Spans.serves (hs : s.Spans lo cap) (hz : s.size = 0) (ns : List Nat) (hk : s.Counts (grants cap 0 ns)) :
    ∃ t, s.Serves ns lo cap ((ration cap 0 ns).map (located lo s.shortage)) t ∧ t.Spans lo cap := by
  obtain ⟨t, hrun, ht, hstrip, hcount⟩ := hs.growAll ns (by rwa [hz])
  rw [hz] at hrun hstrip hcount
  have htop := Nat.add_le_add_left ht.size_le lo
  refine ⟨t, ?_, ht⟩
  constructor
  case run => exact hrun
  case placed => exact hstrip.placed
  case adjacent => exact hstrip.adjacent
  case apart => exact hstrip.apart
  case inside => exact fun g hg => (hstrip.inside g hg).imp_right fun h => Nat.le_trans h htop
  case first => exact fun g hg => hstrip.first hg
  case size => exact Nat.add_left_cancel hstrip.hi_eq
  case counted => rwa [length_regions]
  case lowest => exact fun _ => ht.lo_eq
  case refusal => exact fun n e u hu => ht.refused hu ▸ ⟨rfl, rfl⟩

theorem Serves.sizes_eq {lo' : Nat} {fail fail' : Nat → Nat → GrowthError} {xs : List (Except (Nat × Nat) Nat)}
    {v : Source} (hs : s.Serves ns lo cap (xs.map (located lo fail)) t)
    (hu : u.Serves ns lo' cap (xs.map (located lo' fail')) v) : t.size = v.size := by
  rw [hs.size, hu.size, regions_sizes ns xs]

end Source

/-! ## Buffers and reservations -/

def buffered (start len : Nat) : Source := .buffer (Buffer.ofBytes start len)

def reserving (c : Nat) (sys : AddressSpace) : Source := .reservation { capacity := c, system := sys }

variable {c start len site : Nat} {sys : AddressSpace}

theorem buffered_spans (hend : start + len < wordLimit) :
    (buffered start len).Spans (Buffer.ofBytes start len).base (Buffer.ofBytes start len).capacity where
  base := rfl
  capacity := rfl
  size_le := Nat.zero_le _
  end_lt := by rwa [(Source.ofBytes_base start len).2.1]

theorem buffered_counts (k : Nat) : (buffered start len).Counts k := fun _ hg => nomatch hg

def reserved (c : Nat) (sys : AddressSpace) (site : Nat) : Source :=
  .reservation { base := some site, capacity := sys.wholePages c, system := sys }

theorem reserved_spans (hsys : sys.Provides (sys.wholePages c) site) :
    (reserved c sys site).Spans site (sys.wholePages c) where
  base := rfl
  capacity := rfl
  size_le := Nat.zero_le _
  end_lt := hsys.end_lt

theorem reserved_counts {k : Nat} : (reserved c sys site).Counts k ↔ k < wordLimit := by
  simp [Source.Counts, reserved, Source.growths?]

theorem reserving_grow (hmax : c + (sys.pageSize - 1) < wordLimit) (hsys : sys.Provides (sys.wholePages c) site)
    (n : Nat) : (reserving c sys).grow n = (reserved c sys site).grow n := by
  have hr : Reservation.reserve { capacity := c, system := sys } n =
      .ok (site, { base := some site, capacity := sys.wholePages c, system := sys }) := by
    simp only [Reservation.reserve]
    rw [if_neg (Nat.not_le_of_lt hmax), hsys.map_eq]
  exact Source.grow_of_reserve hr rfl

theorem reserving_serves (hmax : c + (sys.pageSize - 1) < wordLimit) (hsys : sys.Provides (sys.wholePages c) site)
    (ns : List Nat) (hk : grants (sys.wholePages c) 0 ns < wordLimit) :
    ∃ t, (reserving c sys).Serves ns site (sys.wholePages c)
        ((ration (sys.wholePages c) 0 ns).map (located site .exhausted)) t ∧
      ∀ off len, off < wordLimit → t.contains (wrapAdd t.lo off) len = .ok (decide (off + len ≤ t.size)) := by
  have hgrow := reserving_grow hmax hsys
  have hspans := reserved_spans hsys
  obtain ⟨t, ht, htspans⟩ := hspans.serves rfl ns (reserved_counts.mpr hk)
  cases ns with
  | nil =>
    refine ⟨reserving c sys, ?_, fun off len hoff => ?_⟩
    · refine { ht with run := rfl, size := rfl, counted := rfl, lowest := absurd rfl, refusal := ?_ }
      intro n e u hu
      rw [hgrow] at hu
      exact hspans.refused hu ▸ ⟨rfl, rfl⟩
    · -- there is no region to span yet, and no byte in the heap
      have hempty : (Source.buffer ⟨0, 0, 0⟩).Spans 0 0 := ⟨rfl, rfl, Nat.le_refl 0, by decide⟩
      exact hempty.contains hoff len
  | cons n ns =>
    refine ⟨t, { ht with run := Eq.trans ?_ ht.run }, fun off len hoff => htspans.contains hoff len⟩
    rw [Source.growAll, Source.growAll, hgrow]

theorem reserving_uncounted (hmax : c + (sys.pageSize - 1) < wordLimit)
    (hsys : sys.Provides (sys.wholePages c) site) (ns : List Nat)
    (hk : wordLimit ≤ grants (sys.wholePages c) 0 ns) : (reserving c sys).growAll ns = .error .arithmetic := by
  have hfull := (reserved_spans hsys).growAll_uncounted (reserved_counts.mpr (by decide)) ns
    (mt reserved_counts.mp (Nat.not_lt_of_le hk))
  cases ns with
  | nil => cases hk
  | cons n ns =>
    rw [← hfull, Source.growAll, Source.growAll, reserving_grow hmax hsys]

theorem buffered_serves (hend : start + len < wordLimit) (ns : List Nat) :
    ∃ t, (buffered start len).Serves ns (Buffer.ofBytes start len).base (Buffer.ofBytes start len).capacity
        ((ration (Buffer.ofBytes start len).capacity 0 ns).map
          (located (Buffer.ofBytes start len).base .overflow)) t ∧
      ∀ off len, off < wordLimit → t.contains (wrapAdd t.lo off) len = .ok (decide (off + len ≤ t.size)) := by
  obtain ⟨t, ht, hspans⟩ := (buffered_spans hend).serves rfl ns (buffered_counts _)
  exact ⟨t, ht, fun off len hoff => hspans.contains hoff len⟩

theorem reserving_overflow (hc : wordLimit ≤ c + (sys.pageSize - 1)) (ns : List Nat) :
    (reserving c sys).growAll ns = .ok (ns.map fun n => .error (.exhausted n 0), reserving c sys) := by
  induction ns with
  | nil => rfl
  | cons n ns ih =>
    refine Source.growAll_cons ?_ ih
    simp only [reserving, Source.grow, Reservation.reserve]
    rw [if_pos hc]

/-- A reservation and a buffer that have the same bytes to give answer all growths alike, with
regions that lie end to end from the lowest address of either, unless the reservation grants
more of them than a word can count. Whatever a buffer is, its regions are within it and begin
aligned; and a reservation that is too large is refused for good. -/
theorem sources_serve :
    (∀ c start len sys site ns, c + (sys.pageSize - 1) < wordLimit → sys.Provides (sys.wholePages c) site →
      start + len < wordLimit → (Buffer.ofBytes start len).capacity = sys.wholePages c →
      grants (sys.wholePages c) 0 ns < wordLimit →
      ∃ t u, (reserving c sys).Serves ns site (sys.wholePages c)
          ((ration (sys.wholePages c) 0 ns).map (located site .exhausted)) t ∧
        (buffered start len).Serves ns (Buffer.ofBytes start len).base (sys.wholePages c)
          ((ration (sys.wholePages c) 0 ns).map (located (Buffer.ofBytes start len).base .overflow)) u ∧
        t.size = u.size ∧
        ∀ off n, off < wordLimit → t.contains (wrapAdd t.lo off) n = .ok (decide (off + n ≤ t.size)) ∧
          u.contains (wrapAdd u.lo off) n = .ok (decide (off + n ≤ t.size))) ∧
    (∀ c sys site ns, c + (sys.pageSize - 1) < wordLimit → sys.Provides (sys.wholePages c) site →
      wordLimit ≤ grants (sys.wholePages c) 0 ns → (reserving c sys).growAll ns = .error .arithmetic) ∧
    (∀ start len ns, start + len < wordLimit →
      ∃ rs t, rs = (ration (Buffer.ofBytes start len).capacity 0 ns).map
          (located (Buffer.ofBytes start len).base .overflow) ∧
        (buffered start len).Serves ns (Buffer.ofBytes start len).base (Buffer.ofBytes start len).capacity rs t ∧
        (∀ off n, off < wordLimit → t.contains (wrapAdd t.lo off) n = .ok (decide (off + n ≤ t.size))) ∧
        (∀ g ∈ regions ns rs, start ≤ g.1 ∧ g.1 + g.2 ≤ start + len) ∧
        ∀ g, (regions ns rs).find? (0 < ·.2) = some g → g.1 % alignment = 0) ∧
    ∀ c sys ns, wordLimit ≤ c + (sys.pageSize - 1) →
      (reserving c sys).growAll ns = .ok (ns.map fun n => .error (.exhausted n 0), reserving c sys) := by
  refine ⟨fun c start len sys site ns hmax hsys hend hcap hk => ?_,
    fun c sys site ns hmax hsys hk => reserving_uncounted hmax hsys ns hk, fun start len ns hend => ?_,
    fun c sys ns hc => reserving_overflow hc ns⟩
  · obtain ⟨t, ht, htin⟩ := reserving_serves hmax hsys ns hk
    obtain ⟨u, hu, huin⟩ := buffered_serves hend ns
    rw [hcap] at hu
    have hsize := ht.sizes_eq hu
    refine ⟨t, u, ht, hu, hsize, fun off n hoff => ⟨htin off n hoff, ?_⟩⟩
    rw [huin off n hoff, hsize]
  · obtain ⟨hlo, hhi, haligned⟩ := Source.ofBytes_base start len
    obtain ⟨t, ht, htin⟩ := buffered_serves hend ns
    refine ⟨_, t, rfl, ht, fun off n hoff => htin off n hoff, fun g hg => ?_, fun g hg => ?_⟩
    · have hin := ht.inside g hg
      omega
    · -- a buffer that has a byte to give has an aligned one
      have hsome := List.find?_some hg
      have hpos : 0 < g.2 := of_decide_eq_true hsome
      have hin := ht.inside g (List.mem_of_find?_eq_some hg)
      rw [ht.first g hg]
      exact haligned (by omega)

def sampleGrowths : List Nat := [0, 4000, 200, 96, 1, wordLimit - 1]

theorem sampleGrowths_served :
    (∃ t u, (reserving 4000 (.single 8192 65536)).Serves sampleGrowths 8192 4096
        [.ok 8192, .ok 8192, .error (.exhausted 200 96), .ok 12192, .error (.exhausted 1 0),
          .error (.exhausted (wordLimit - 1) 0)] t ∧
      (buffered 4100 4108).Serves sampleGrowths 4112 4096
        [.ok 4112, .ok 4112, .error (.overflow 200 96), .ok 8112, .error (.overflow 1 0),
          .error (.overflow (wordLimit - 1) 0)] u ∧ t.size = u.size ∧
      t.contains (wrapAdd t.lo 4095) 1 = .ok true ∧ u.contains (wrapAdd u.lo 4095) 2 = .ok false) ∧
    (reserving 4000 (.single 8192 65536)).growAll (.replicate wordLimit 0) = .error .arithmetic ∧
    (∃ t, (buffered 4101 20).Serves [1, 9, 5] 4112 9 [.ok 4112, .error (.overflow 9 8), .ok 4113] t ∧
      ∀ g ∈ regions [1, 9, 5] [.ok 4112, .error (.overflow 9 8), .ok 4113], 4101 ≤ g.1 ∧ g.1 + g.2 ≤ 4121) ∧
    (reserving (wordLimit - 2) (.single 8192 65536)).growAll [64] =
      .ok ([.error (.exhausted 64 0)], reserving (wordLimit - 2) (.single 8192 65536)) := by
  obtain ⟨halike, huncounted, hwithin, hoverflow⟩ := sources_serve
  obtain ⟨t, u, ht, hu, hsize, hin⟩ := halike 4000 4100 4108 (.single 8192 65536) 8192 sampleGrowths (by decide)
    ⟨rfl, by decide⟩ (by decide) (by decide) (by decide)
  obtain ⟨rs, v, rfl, hv, -, hvin, -⟩ := hwithin 4101 20 [1, 9, 5] (by decide)
  have hfull : t.size = 4096 := ht.size.trans rfl
  have hlast := (hin 4095 1 (by decide)).1
  have hpast := (hin 4095 2 (by decide)).2
  rw [hfull] at hlast hpast
  have hmany : wordLimit ≤ grants ((AddressSpace.single 8192 65536).wholePages 4000) 0 (.replicate wordLimit 0) := by
    rw [grants_replicate_zero]
  exact ⟨⟨t, u, ht, hu, hsize, hlast, hpast⟩, huncounted _ _ 8192 _ (by decide) ⟨rfl, by decide⟩ hmany,
    ⟨v, hv, hvin⟩, hoverflow _ _ _ (by decide)⟩

end SegregatedFit
