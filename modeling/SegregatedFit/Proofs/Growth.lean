import SegregatedFit.Proofs.Outcome

/-!
# Growth

A source whose region is in place grants what fits into its capacity, at its upper end,
as long as it can count the growths, and a refusal does not change it. A fresh source
comes to have its region in place with the first growth that it grants; from then on it
is settled, since no heap grows by nothing.
-/

namespace SegregatedFit

namespace Source

variable {s t : Source} {lo cap n : Nat}

def base? : Source → Option Nat
  | .buffer b => some b.base
  | .reservation r => r.base

def growths? : Source → Option Nat
  | .buffer _ => none
  | .reservation r => some r.growths

def shortage : Source → Nat → Nat → GrowthError
  | .buffer _ => .overflow
  | .reservation _ => .exhausted

def extend (s : Source) (n : Nat) : Source :=
  match s with
  | .buffer b => .buffer { b with size := b.size + n }
  | .reservation r => .reservation { r with size := r.size + n, growths := r.growths + 1 }

@[simp] theorem size_extend (s : Source) (n : Nat) : (s.extend n).size = s.size + n := by cases s <;> rfl

@[simp] theorem base?_extend (s : Source) (n : Nat) : (s.extend n).base? = s.base? := by cases s <;> rfl

@[simp] theorem capacity_extend (s : Source) (n : Nat) : (s.extend n).capacity = s.capacity := by cases s <;> rfl

@[simp] theorem shortage_extend (s : Source) (n : Nat) : (s.extend n).shortage = s.shortage := by cases s <;> rfl

@[simp] theorem growths?_extend (s : Source) (n : Nat) : (s.extend n).growths? = s.growths?.map (· + 1) := by
  cases s <;> rfl

/-- Room in the count for `k` more growths. -/
def Counts (s : Source) (k : Nat) : Prop := ∀ g ∈ s.growths?, g + k < wordLimit

theorem grow_buffer {b : Buffer} (hb : b.size ≤ b.capacity) :
    (buffer b).grow n = .ok (if b.capacity - b.size < n
      then (.error (.overflow n (b.capacity - b.size)), buffer b)
      else (.ok (wrapAdd b.base b.size), buffer { b with size := b.size + n })) := by
  rw [grow, checkedSub_of_le hb]
  show (if b.capacity - b.size < n then _ else _) = _
  split <;> rfl

theorem grow_reservation {r r' : Reservation} {base : Nat} (hr : r.reserve n = .ok (base, r'))
    (hle : r'.size ≤ r'.capacity) :
    (reservation r).grow n = if r'.capacity - r'.size < n
      then .ok (.error (.exhausted n (r'.capacity - r'.size)), reservation r')
      else (checkedAdd r'.growths 1).map fun growths =>
        (.ok (wrapAdd base r'.size), reservation { r' with size := r'.size + n, growths }) := by
  simp only [grow, hr]
  rw [checkedSub_of_le hle]
  show (if r'.capacity - r'.size < n then _ else _) = _
  split <;> rfl

/-! ## Sources in place -/

/-- The region of the source is in place: the `cap` bytes at `lo`. -/
structure Spans (s : Source) (lo cap : Nat) : Prop where
  base : s.base? = some lo
  capacity : s.capacity = cap
  size_le : s.size ≤ cap
  end_lt : lo + cap < wordLimit

namespace Spans

theorem lo_eq (hs : s.Spans lo cap) : s.lo = lo := by
  cases s with
  | buffer b => exact Option.some.inj hs.base
  | reservation r => exact congrArg (·.getD 0) hs.base

theorem top_lt (hs : s.Spans lo cap) : lo + s.size < wordLimit :=
  Nat.lt_of_le_of_lt (Nat.add_le_add_left hs.size_le lo) hs.end_lt

theorem extend (hs : s.Spans lo cap) (hn : s.size + n ≤ cap) : (s.extend n).Spans lo cap where
  base := by rw [base?_extend, hs.base]
  capacity := by rw [capacity_extend, hs.capacity]
  size_le := by rwa [size_extend]
  end_lt := hs.end_lt

theorem reserve {r : Reservation} (hs : (reservation r).Spans lo cap) : r.reserve n = .ok (lo, r) := by
  unfold Reservation.reserve
  rw [show r.base = some lo from hs.base]

theorem short (hs : s.Spans lo cap) (hn : cap < s.size + n) :
    s.grow n = .ok (.error (s.shortage n (cap - s.size)), s) := by
  obtain ⟨-, rfl, hsize, -⟩ := id hs
  have hleft : s.capacity - s.size < n := by omega
  cases s with
  | buffer b => rw [grow_buffer hsize, if_pos (show b.capacity - b.size < n from hleft)]; rfl
  | reservation r => rw [grow_reservation hs.reserve hsize, if_pos (show r.capacity - r.size < n from hleft)]; rfl

theorem granted (hs : s.Spans lo cap) (hn : s.size + n ≤ cap) (hk : s.Counts 1) :
    s.grow n = .ok (.ok (lo + s.size), s.extend n) := by
  obtain ⟨hbase, rfl, hsize, -⟩ := id hs
  have hleft : ¬ s.capacity - s.size < n := by omega
  have hsum : wrapAdd lo s.size = lo + s.size := wrapAdd_of_lt hs.top_lt
  cases s with
  | buffer b =>
    obtain rfl : b.base = lo := Option.some.inj hbase
    rw [grow_buffer hsize, if_neg (show ¬ b.capacity - b.size < n from hleft)]
    exact congrArg (fun a => Except.ok (Except.ok a, _)) hsum
  | reservation r =>
    rw [grow_reservation hs.reserve hsize, if_neg (show ¬ r.capacity - r.size < n from hleft),
      checkedAdd_of_lt (hk _ rfl)]
    exact congrArg (fun a => Except.ok (Except.ok a, _)) hsum

theorem uncounted (hs : s.Spans lo cap) (hn : s.size + n ≤ cap) (hk : ¬ s.Counts 1) :
    s.grow n = .error .arithmetic := by
  obtain ⟨-, rfl, hsize, -⟩ := id hs
  have hleft : ¬ s.capacity - s.size < n := by omega
  cases s with
  | buffer b => exact absurd (fun g hg => nomatch hg) hk
  | reservation r =>
    have hfull : ¬ r.growths + 1 < wordLimit := fun h => hk fun g hg => Option.some.inj hg ▸ h
    rw [grow_reservation hs.reserve hsize, if_neg (show ¬ r.capacity - r.size < n from hleft),
      checkedAdd, if_neg hfull]
    rfl

theorem refused (hs : s.Spans lo cap) {e : GrowthError} (hr : s.grow n = .ok (.error e, t)) : t = s := by
  by_cases hn : s.size + n ≤ cap
  · by_cases hk : s.Counts 1
    · rw [hs.granted hn hk] at hr
      cases hr
    · rw [hs.uncounted hn hk] at hr
      cases hr
  · rw [hs.short (Nat.lt_of_not_le hn)] at hr
    cases hr; rfl

theorem reservedSince (hs : s.Spans lo cap) (t : Source) : reservedSince s t = none := by
  cases s with
  | buffer b => rfl
  | reservation r =>
    obtain ⟨base, _, _, _, _⟩ := r
    obtain rfl : base = some lo := hs.base
    cases t <;> rfl

end Spans

/-! ## Settled sources -/

structure Settled (s : Source) : Prop where
  lo_pos : 0 < s.lo
  lo_mod : s.lo % 16 = 0
  size_le : s.size ≤ s.capacity
  end_lt : s.lo + s.capacity < wordLimit
  counted : ∀ g ∈ s.growths?, g ≤ s.size

/-- `t` is `s` with `n` more bytes in use, for which it grew at most `n` times. -/
structure Grown (s : Source) (n : Nat) (t : Source) : Prop where
  lo : t.lo = s.lo
  size : t.size = s.size + n
  capacity : t.capacity = s.capacity
  counted : ∀ g ∈ t.growths?, ∃ k ∈ s.growths?, g ≤ k + n

theorem Grown.refl (s : Source) : Grown s 0 s := ⟨rfl, rfl, rfl, fun g hg => ⟨g, hg, Nat.le_refl g⟩⟩

theorem Grown.trans {u : Source} {m : Nat} (hm : Grown s m t) (hn : Grown t n u) : Grown s (m + n) u where
  lo := hn.lo.trans hm.lo
  size := by rw [hn.size, hm.size, Nat.add_assoc]
  capacity := hn.capacity.trans hm.capacity
  counted := fun g hg => by
    obtain ⟨k, hk, hgk⟩ := hn.counted g hg
    obtain ⟨j, hj, hkj⟩ := hm.counted k hk
    exact ⟨j, hj, by omega⟩

theorem Settled.spans (hs : s.Settled) : s.Spans s.lo s.capacity where
  base := by
    have hpos := hs.lo_pos
    cases s with
    | buffer b => rfl
    | reservation r =>
      cases hr : r.base with
      | none => simp [lo, hr] at hpos
      | some a => simp [base?, lo, hr]
  capacity := rfl
  size_le := hs.size_le
  end_lt := hs.end_lt

theorem Settled.top_lt (hs : s.Settled) : s.lo + s.size < wordLimit := hs.spans.top_lt

theorem Grown.settled (hg : Grown s n t) (hs : s.Settled) (hn : s.size + n ≤ s.capacity) : t.Settled where
  lo_pos := hg.lo ▸ hs.lo_pos
  lo_mod := hg.lo ▸ hs.lo_mod
  size_le := by rwa [hg.size, hg.capacity]
  end_lt := by rw [hg.lo, hg.capacity]; exact hs.end_lt
  counted := fun g hmem => by
    obtain ⟨k, hk, hle⟩ := hg.counted g hmem
    have hks := hs.counted k hk
    rw [hg.size]
    omega

theorem grown_extend (hs : s.Spans lo cap) (hle : s.size + n ≤ cap) (hn : 0 < n) : Grown s n (s.extend n) where
  lo := (hs.extend hle).lo_eq.trans hs.lo_eq.symm
  size := size_extend s n
  capacity := capacity_extend s n
  counted := fun g hg => by
    rw [growths?_extend] at hg
    obtain ⟨k, hk, rfl⟩ := Option.map_eq_some_iff.mp hg
    exact ⟨k, hk, by omega⟩

/-- A growth has a byte at least, so there are fewer growths than words. -/
theorem Settled.granted (hs : s.Settled) (hle : s.size + n ≤ s.capacity) (hn : 0 < n) :
    s.grow n = .ok (.ok (s.lo + s.size), s.extend n) := by
  refine hs.spans.granted hle fun g hg => ?_
  have hcount := hs.counted g hg
  have hend := hs.end_lt
  omega

/-! ## Fresh sources -/

/-- A buffer or a reservation of which nothing is used yet. Neither reaches the end of the
address space. -/
def Fresh : Source → Prop
  | .buffer b => ∃ start len, 0 < start ∧ start + len < wordLimit ∧ b = Buffer.ofBytes start len
  | .reservation r => r.base = none ∧ r.size = 0 ∧ r.growths = 0 ∧ r.system.Paged (r.system.wholePages r.capacity)

theorem ofBytes_base (start len : Nat) :
    start ≤ (Buffer.ofBytes start len).base ∧
      (Buffer.ofBytes start len).base + (Buffer.ofBytes start len).capacity = start + len ∧
      (0 < (Buffer.ofBytes start len).capacity → (Buffer.ofBytes start len).base % 16 = 0) := by
  simp only [Buffer.ofBytes, alignment]
  omega

/-- The growth that makes a reservation is answered as if it had been made before. -/
theorem grow_of_reserve {r r' : Reservation} (hr : r.reserve n = .ok (lo, r')) (hb : r'.base = some lo) :
    (reservation r).grow n = (reservation r').grow n := by
  have hr' : r'.reserve n = .ok (lo, r') := by
    rw [Reservation.reserve, hb]
  simp only [grow, hr, hr']

theorem Fresh.reserve {r : Reservation} (hs : (reservation r).Fresh) :
    (∃ e, r.reserve n = .error e) ∨
      ∃ site capacity, r.reserve n = .ok (site, { r with base := some site, capacity }) ∧
        0 < site ∧ site % 16 = 0 ∧ site + capacity < wordLimit := by
  obtain ⟨hb, -, -, hmod, hplaced⟩ := hs
  simp only [Reservation.reserve, hb]
  split
  · exact .inl ⟨_, rfl⟩
  cases hmap : r.system.map (r.system.wholePages r.capacity) with
  | error e => exact .inl ⟨_, rfl⟩
  | ok site =>
    obtain ⟨hpos, hsite, -, hend⟩ := hplaced site hmap
    have hdvd := Nat.dvd_trans (Nat.dvd_of_mod_eq_zero hmod) (Nat.dvd_of_mod_eq_zero hsite)
    exact .inr ⟨site, _, rfl, hpos, Nat.mod_eq_zero_of_dvd hdvd, hend⟩

theorem Spans.first (hs : s.Spans lo cap) (hz : s.size = 0) (hk : ∀ g ∈ s.growths?, g = 0) (hpos : 0 < lo)
    (hmod : 0 < cap → lo % 16 = 0) (hn : 0 < n) :
    (∃ e t, s.grow n = .ok (.error e, t)) ∨
      ∃ t, s.grow n = .ok (.ok t.lo, t) ∧ t.size = n ∧ t.Settled := by
  by_cases hle : s.size + n ≤ cap
  · have hcount : s.Counts 1 := fun g hg => by
      rw [hk g hg]
      decide
    have ht := hs.extend hle
    refine .inr ⟨s.extend n, ?_, by rw [size_extend, hz, Nat.zero_add], ?_⟩
    · rw [hs.granted hle hcount, hz, ht.lo_eq, Nat.add_zero]
    · constructor
      case lo_pos => rwa [ht.lo_eq]
      case lo_mod => rw [ht.lo_eq]; exact hmod (by omega)
      case size_le => rw [ht.capacity]; exact ht.size_le
      case end_lt => rw [ht.lo_eq, ht.capacity]; exact ht.end_lt
      case counted =>
        intro g hg
        rw [growths?_extend] at hg
        obtain ⟨k, hmem, rfl⟩ := Option.map_eq_some_iff.mp hg
        rw [hk k hmem, size_extend]
        omega
  · exact .inl ⟨_, _, hs.short (Nat.lt_of_not_le hle)⟩

/-- The first growth is refused, or it settles the source. -/
theorem Fresh.grow (hs : s.Fresh) (hn : 0 < n) :
    (∃ e t, s.grow n = .ok (.error e, t)) ∨
      ∃ t, s.grow n = .ok (.ok t.lo, t) ∧ t.size = n ∧ t.Settled := by
  cases s with
  | buffer b =>
    obtain ⟨start, len, hpos, hlt, rfl⟩ := hs
    obtain ⟨hle, hend, hmod⟩ := ofBytes_base start len
    have hspans : (buffer (.ofBytes start len)).Spans (Buffer.ofBytes start len).base
      (Buffer.ofBytes start len).capacity := ⟨rfl, rfl, Nat.zero_le _, by omega⟩
    exact hspans.first rfl (fun g hg => nomatch hg) (by omega) hmod hn
  | reservation r =>
    rcases hs.reserve (n := n) with ⟨e, he⟩ | ⟨site, c, hr, hpos, hmod, hlt⟩
    · exact .inl ⟨e, .reservation r, by simp only [Source.grow, he]⟩
    obtain ⟨-, hz, hk, -⟩ := hs
    have hspans : (reservation { r with base := some site, capacity := c }).Spans site c :=
      ⟨rfl, rfl, Nat.le_trans (Nat.le_of_eq hz) (Nat.zero_le c), hlt⟩
    rw [grow_of_reserve hr rfl]
    exact hspans.first hz (fun g hg => Option.some.inj hg ▸ hk) hpos (fun _ => hmod) hn

end Source

def AddressSpace.single (site largest : Nat) : AddressSpace where
  pageSize := 4096
  page_pos := by decide
  map n :=
    if n = 0 then .error ⟨22, "Invalid argument"⟩
    else if largest < n then .error ⟨12, "Cannot allocate memory"⟩
    else .ok site

/-! ## Growing a heap -/

variable {h : Heap} {n : Nat}

theorem run_growHeap {r : Except GrowthError Nat} {t : Source} (hg : h.source.grow n = .ok (r, t))
    (hr : Source.reservedSince h.source t = none) : growHeap n h = .ok r { h with source := t } := by
  have hget : (get : Action Heap) h = .ok h h := rfl
  refine (run_bind hget).trans ((run_bind_except hg).trans ?_)
  dsimp only
  rw [hr]; rfl

theorem growHeap_granted (hs : h.source.Settled) (hle : h.source.size + n ≤ h.source.capacity) (hn : 0 < n) :
    ∃ t, growHeap n h = .ok (.ok h.top) { h with source := t } ∧ h.source.Grown n t :=
  ⟨_, run_growHeap (hs.granted hle hn) (hs.spans.reservedSince _), Source.grown_extend hs.spans hle hn⟩

theorem growHeap_refused (hs : h.source.Settled) (hn : h.source.capacity < h.source.size + n) :
    ∃ e, growHeap n h = .ok (.error e) h :=
  ⟨_, run_growHeap (hs.spans.short hn) (hs.spans.reservedSince _)⟩

theorem growHeap_fresh (hs : h.source.Fresh) (hn : 0 < n) :
    Ends (growHeap n) h fun r h' => match r with
      | .error _ => True
      | .ok base => base = h'.source.lo ∧ h'.source.size = n ∧ h'.source.Settled ∧
          h'.memory = h.memory ∧ h'.guarded = h.guarded := by
  have hrun : ∀ r t, h.source.grow n = .ok (r, t) → ∃ j,
      growHeap n h = .ok r { h with source := t, journal := j } := fun r t hg => by
    cases ho : Source.reservedSince h.source t with
    | none => exact ⟨h.journal, run_growHeap hg ho⟩
    | some p =>
      have hget : (get : Action Heap) h = .ok h h := rfl
      refine ⟨h.journal.push (.reserved p.1 p.2), (run_bind hget).trans ((run_bind_except hg).trans ?_)⟩
      dsimp only
      rw [ho]; rfl
  rcases hs.grow hn with ⟨e, t, ht⟩ | ⟨t, ht, hsize, hset⟩
  · obtain ⟨j, hj⟩ := hrun _ _ ht
    exact ⟨_, _, hj, trivial⟩
  · obtain ⟨j, hj⟩ := hrun _ _ ht
    exact ⟨_, _, hj, rfl, hsize, hset, rfl, rfl⟩

end SegregatedFit
