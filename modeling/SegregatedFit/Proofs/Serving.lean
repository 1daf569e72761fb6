import SegregatedFit.Proofs.Requests

/-!
# Serving clients

The same requests as a client sees them: which allocated cells there are before
and after, and which of their bytes are kept. Here it does not matter where a
cell is found and what becomes of the free ones.
-/

namespace SegregatedFit

variable {h h' h₁ h₂ : Heap} {w w' pre post lo hi xs ys zs : List Cell} {l l' : Lists} {c d t : Cell}
  {o : Option Cell} {n a g p : Nat}

/-! ## The allocated cells -/

def allocs (w : List Cell) : List Cell := w.filter (·.alloc)

theorem mem_allocs : c ∈ allocs w ↔ c ∈ w ∧ c.alloc = true := List.mem_filter

theorem allocs_append : allocs (xs ++ ys) = allocs xs ++ allocs ys := List.filter_append ..

theorem allocs_cons_alloc (hc : c.alloc = true) : allocs (c :: w) = c :: allocs w :=
  List.filter_cons_of_pos hc

theorem allocs_cons_free (hc : c.alloc = false) : allocs (c :: w) = allocs w :=
  List.filter_cons_of_neg (by simp [hc])

theorem allocs_free (hx : ∀ c ∈ xs, c.alloc = false) : allocs xs = [] :=
  List.filter_eq_nil_iff.mpr fun c hc => by simp [hx c hc]

theorem allocs_skip (hz : ∀ c ∈ zs, c.alloc = false) : allocs (xs ++ (zs ++ ys)) = allocs (xs ++ ys) := by
  rw [allocs_append, allocs_append, allocs_free hz, List.nil_append, allocs_append]

theorem allocs_insert (hc : c.alloc = true) : (allocs (xs ++ c :: ys)).Perm (c :: allocs (xs ++ ys)) := by
  rw [allocs_append, allocs_cons_alloc hc, allocs_append]
  exact List.perm_middle

theorem Cut.rest_free {addr total : Nat} (hc : Cut addr total n c o) : ∀ d ∈ o.toList, d.alloc = false :=
  fun d hd => (hc.rest d (Option.mem_toList.mp hd)).2.2

def Heap.Later (h h' : Heap) : Prop := ∃ n, h.GrownBy n h'

theorem Heap.Later.of_bare (hb : h'.bare = h.bare) : h.Later h' := ⟨0, .of_bare hb⟩

theorem Heap.Later.trans (hx : h.Later h₁) (hy : h₁.Later h₂) : h.Later h₂ := by
  obtain ⟨m, hm⟩ := hx
  obtain ⟨n, hn⟩ := hy
  exact ⟨m + n, hm.trans hn⟩

theorem Heap.Later.idle (hx : h.Later h₁) (hi : h₁.Idle h₂) : h.Later h₂ := hx.trans (.of_bare hi.bare)

/-! ## Refusal and growth -/

def Tight (w : List Cell) (n : Nat) : Prop := ∀ c ∈ w, c.alloc = false → c.size < n

/-- Why a request for `n` bytes is refused: it asks for nothing, no word can hold the size
of its block, or the heap is tight and cannot grow. -/
def Heap.Refuses (h : Heap) (w : List Cell) (n : Nat) : Prop :=
  n = 0 ∨ wordLimit ≤ footprint n ∨
    (Tight w (footprint n) ∧ h.source.capacity < h.source.size + max (footprint n) h.chunkSize)

structure Heap.Supplies (h : Heap) (w : List Cell) (n : Nat) (h' : Heap) : Prop where
  pos : 0 < n
  fits : footprint n < wordLimit
  bytes : (¬ Tight w (footprint n) ∧ h.GrownBy 0 h') ∨
    (Tight w (footprint n) ∧ h.source.size + max (footprint n) h.chunkSize ≤ h.source.capacity ∧
      h.GrownBy (max (footprint n) h.chunkSize) h')

theorem Heap.Supplies.later (hs : h.Supplies w n h') : h.Later h' := by
  rcases hs.bytes with hfit | hgrown
  · exact ⟨_, hfit.2⟩
  · exact ⟨_, hgrown.2.2⟩

theorem Heap.Supplies.trans_bare (hs : h.Supplies w n h₁) (hb : h₂.bare = h₁.bare) : h.Supplies w n h₂ := by
  refine ⟨hs.pos, hs.fits, ?_⟩
  rcases hs.bytes with hfit | hgrown
  · exact .inl ⟨hfit.1, hfit.2.trans_bare hb⟩
  · exact .inr ⟨hgrown.1, hgrown.2.1, hgrown.2.2.trans_bare hb⟩

/-! ## Where a new cell comes from -/

/-- The free cell `t` from which `a` bytes are taken, between the cells `pre` and `post`: it is
found among the cells of the heap, or the heap grows by `g` bytes for it. Then it is the last
cell, with the new bytes, or the new bytes alone if there is no free last cell. -/
inductive Heap.Chooses (h : Heap) (w : List Cell) (a : Nat) : List Cell → Cell → List Cell → Nat → Prop
  | found {pre post : List Cell} {t : Cell} (hfind : findFit a h = .ok (some t.block))
      (hw : w = pre ++ t :: post) (ht : t.alloc = false) : Chooses h w a pre t post 0
  | enlarged {pre : List Cell} {d t : Cell} (hfind : findFit a h = .ok none) (hw : w = pre ++ [d])
      (hd : d.alloc = false) (haddr : t.addr = d.addr) (hsize : t.size = d.size + max a h.chunkSize) :
      Chooses h w a pre t [] (max a h.chunkSize)
  | added {t : Cell} (hfind : findFit a h = .ok none) (hlast : ∀ d ∈ w.getLast?, d.alloc = true)
      (haddr : t.addr = h.top) (hsize : t.size = max a h.chunkSize) : Chooses h w a w t [] (max a h.chunkSize)

def Heap.Places (h : Heap) (w : List Cell) (a p : Nat) (w' : List Cell) (g : Nat) : Prop :=
  ∃ pre t post c o, h.Chooses w a pre t post g ∧ t.addr = p ∧ Cut t.addr t.size a c o ∧
    w' = pre ++ c :: (o.toList ++ post)

theorem Heap.Chooses.allocs_eq (ht : h.Chooses w a pre t post g) : allocs (pre ++ post) = allocs w := by
  cases ht with
  | found hfind hw ht => rw [hw, allocs_append, allocs_append, allocs_cons_free ht]
  | enlarged hfind hw hd haddr hsize =>
    rw [hw, List.append_nil, allocs_append, allocs_cons_free hd]
    exact (List.append_nil _).symm
  | added => rw [List.append_nil]

theorem Cut.size_lt {addr total : Nat} (hc : Cut addr total n c o) : c.size < n + 32 := by
  have hsize := hc.size
  cases o with
  | none => exact hsize ▸ hc.whole rfl
  | some r => exact hsize ▸ Nat.lt_add_of_pos_right (by decide)

theorem Heap.Places.exists_cell (hp : h.Places w a p w' g) : ∃ c, c.addr = p ∧ c.alloc = true ∧
    a ≤ c.size ∧ c.size < a + 32 ∧ (allocs w').Perm (c :: allocs w) := by
  obtain ⟨pre, t, post, c, o, hchosen, rfl, hcut, rfl⟩ := hp
  refine ⟨c, hcut.addr, hcut.alloc, hcut.le_size, hcut.size_lt, ?_⟩
  refine (allocs_insert hcut.alloc).trans (.of_eq ?_)
  rw [allocs_skip hcut.rest_free, hchosen.allocs_eq]

namespace Sound

/-! ## Bytes of allocated cells -/

theorem eq_of_holds (hL : Laid h w l) {x : Nat} (hc : c ∈ w) (hd : d ∈ w) (hx : c.Holds x)
    (hlo : d.addr ≤ x) (hhi : x < d.addr + d.size) : c = d := by
  have := hx.1; have := hx.2
  rcases hL.abut.apart hc hd with rfl | h | h
  · rfl
  · omega
  · omega

/-- What is written into allocated cells disturbs nothing. -/
theorem of_held (hS : Sound h w l) (hb : h'.bare = h.bare) (hh : h'.heads = h.heads)
    (hj : h'.inserted = h.inserted) (hk : ∀ x, ¬ Held w x → h'.memory.byte x = h.memory.byte x) : Sound h' w l := by
  refine ⟨⟨hS.founded.of_bare hb, ?_, hS.linked.congr hb hh hj fun b hbl x hx₁ hx₂ => hk x ?_, hS.filed⟩,
    hS.full, hS.parted⟩
  · rw [top_of_bare hb, source_of_bare hb]
    refine hS.tiles.congr (by omega) fun x _ _ hx => hk x ?_
    intro hr
    obtain ⟨c, hc, -, hcx⟩ := hr
    exact hx c hc hcx
  · intro hr
    obtain ⟨c, hc, hal, hcx⟩ := hr
    obtain ⟨d, hd, rfl, hf⟩ := hS.cell hbl
    have hsz := d.le_size
    have := eq_of_holds hS.toLaid hc hd hcx hx₁ (by simp only [Cell.block] at hx₂; omega)
    simp [this, hf] at hal

theorem write {bytes : List UInt8} {i : Nat} (hS : Sound h w l) (hc : c ∈ w) (hal : c.alloc = true)
    (hlen : i + bytes.length + 16 ≤ c.size) :
    Sound { h with memory := h.memory.write (c.addr + i) bytes } w l := by
  refine hS.of_held (bare_memory _ _) rfl rfl fun x hx => Memory.byte_write_outside _ _ _ _ ?_
  refine Decidable.byContradiction fun hn => hx ⟨c, hc, hal, ?_, ?_⟩ <;> omega

theorem byte_write {bytes : List UInt8} {i x : Nat} (hL : Laid h w l) (hc : c ∈ w) (hd : d ∈ w) (hne : d ≠ c)
    (hlen : i + bytes.length + 16 ≤ c.size) (hx : d.Holds x) :
    (h.memory.write (c.addr + i) bytes).byte x = h.memory.byte x := by
  refine Memory.byte_write_outside _ _ _ _ (Decidable.byContradiction fun hn => hne ?_)
  exact eq_of_holds hL hd hc hx (by omega) (by omega)

theorem permits (hL : Laid h w l) (hc : c ∈ w) {len : Nat} (hlen : len + 16 ≤ c.size) :
    h.permits c.addr len = true := by
  obtain ⟨p, hst⟩ := hL.stands hc
  have hlo := hst.le_addr; have hhi := hst.end_le
  exact permits_of_mem (by omega) (by unfold Heap.top at hhi; omega)

theorem ends_storeBytes {bytes : List UInt8} (hS : Sound h w l) (hc : c ∈ w) (hal : c.alloc = true)
    (hlen : bytes.length + 16 ≤ c.size) :
    Ends (storeBytes c.addr bytes) h fun _ h' => Sound h' w l ∧ h'.bare = h.bare ∧
      (∀ d ∈ w, d ≠ c → ∀ x, d.Holds x → h'.memory.byte x = h.memory.byte x) ∧
      ∀ i (hi : i < bytes.length), h'.memory.byte (c.addr + i) = bytes[i] := by
  exact ⟨(), _, run_storeBytes (permits hS.toLaid hc hlen), hS.write (i := 0) hc hal (by omega),
    bare_memory _ _, fun d hd hne x hx => byte_write (i := 0) hS.toLaid hc hd hne (by omega) hx,
    fun i hi => Memory.byte_write_inside _ _ _ _ hi⟩

/-! ## The requests -/

/-- A request for `n` bytes gets its bytes from the cell that is chosen, or it changes nothing. -/
theorem malloc_placed (hS : Sound h w l) (n : Nat) : Ends (malloc n) h fun r h' => match r with
    | none => h.Refuses w n ∧ h.Idle h'
    | some p => ∃ a w' g l', blockSize n = some a ∧ h.Places w a p w' g ∧ Sound h' w' l' ∧
        h.GrownBy g h' ∧ h.Supplies w n h' ∧ Keeps w h h' := by
  by_cases hn : n = 0
  · subst hn; exact ⟨none, h, run_malloc_zero h, .inl rfl, .refl h⟩
  cases ha : blockSize n with
  | none => exact ⟨none, h, run_malloc_huge ha, .inr (.inl (blockSize_eq_none_iff.mp ha)), .refl h⟩
  | some a =>
    obtain ⟨-, hmod, hle, -⟩ := blockSize_eq_some.mp ha
    obtain ⟨hfoot, hfits⟩ := blockSize_eq_footprint.mp ha
    obtain ⟨o, hfind, hbest⟩ := hS.run_findFit a
    cases o with
    | some t =>
      obtain ⟨htw, hlisted, hsize, -⟩ := hbest
      have htf := (hS.mem_of_has htw hlisted).1
      have htight : ¬ Tight w a := fun ht => Nat.not_le_of_lt (ht t htw htf) hsize
      obtain ⟨pre, post, rfl⟩ := List.append_of_mem htw
      obtain ⟨c, o, hcut⟩ := exists_cut t.addr_mod t.size_mod hmod (by omega) hsize
      refine (hS.malloc_fit (by omega) ha hfind htf hcut).mono ?_
      intro _ h' hr
      obtain ⟨rfl, hS', hb, hk⟩ := hr
      have hsupply := Heap.Supplies.mk (by omega) (hfoot ▸ hfits) (.inl ⟨hfoot ▸ htight, .of_bare hb⟩)
      refine ⟨a, _, 0, _, rfl, ⟨pre, t, post, c, o, .found hfind rfl htf, rfl, hcut, rfl⟩, hS', .of_bare hb,
        hsupply, hk.insert_free htf⟩
    | none =>
      have htight : Tight w (footprint n) := fun d hd hf => hfoot ▸ hbest d hd (hS.full d hd hf)
      obtain ⟨below, lo, rfl, hbelow, hlo⟩ := hS.parted.below
      have hchunk := hS.founded.le_chunk
      obtain ⟨e, he, hes, hef⟩ := hS.toLaid.exists_cell_at_top (n := max a h.chunkSize) (by omega)
      rw [alignUpOrMax_max hS.founded ha] at hes
      by_cases hroom : h.source.size + e.size ≤ h.source.capacity
      · obtain ⟨c, o, hcut⟩ := exists_cut (Cell.merge below e none).addr_mod (Cell.merge below e none).size_mod
          hmod (by omega) (by simp only [Cell.merge]; omega)
        -- the new bytes alone, or those of a free last cell with them
        have hchosen : h.Chooses (lo ++ below.toList) a lo (Cell.merge below e none) [] (max a h.chunkSize) := by
          cases below with
          | none =>
            rw [Option.toList_none, List.append_nil]
            exact .added hfind hlo he (by simp [Cell.merge, Cell.sizeOf, hes])
          | some d => exact .enlarged hfind rfl (hbelow d rfl) rfl (by simp [Cell.merge, Cell.sizeOf, hes])
        refine (hS.malloc_grow ⟨hbelow, by simp, hlo, by simp⟩ (by omega) ha hfind he hes hef hroom hcut).mono ?_
        intro _ h' hr
        obtain ⟨rfl, hS', hg, hk⟩ := hr
        rw [hes] at hg hroom
        refine ⟨a, _, _, _, rfl, ⟨lo, _, [], c, o, hchosen, hcut.addr.symm, hcut, by rw [List.append_nil]⟩, hS', hg,
          ⟨by omega, hfoot ▸ hfits, .inr ⟨htight, hfoot ▸ hroom, hfoot ▸ hg⟩⟩, hk⟩
      · obtain ⟨h', hrun, hi⟩ := hS.malloc_refused ha hfind (by omega)
        exact ⟨none, h', hrun, .inr (.inr ⟨htight, by omega⟩), hi⟩

theorem ends_malloc (hS : Sound h w l) (n : Nat) : Ends (malloc n) h fun r h' => match r with
    | none => h.Refuses w n ∧ h.Idle h'
    | some p => ∃ w' l' c, Sound h' w' l' ∧ h.Supplies w n h' ∧ c.addr = p ∧ c.alloc = true ∧
        n + 16 ≤ c.size ∧ (allocs w').Perm (c :: allocs w) ∧ Keeps w h h' := by
  refine (hS.malloc_placed n).mono ?_
  intro r h' hr
  cases r with
  | none => exact hr
  | some p =>
    obtain ⟨a, w', g, l', ha, hplaced, hS', -, hsupply, hk⟩ := hr
    obtain ⟨c, hcp, hal, hsize, -, hperm⟩ := hplaced.exists_cell
    obtain ⟨-, -, hle, -⟩ := blockSize_eq_some.mp ha
    exact ⟨w', l', c, hS', hsupply, hcp, hal, Nat.le_trans hle hsize, hperm, hk⟩

theorem ends_release (hS : Sound h w l) (hc : c ∈ w) (hal : c.alloc = true) :
    Ends (free (some c.addr)) h fun _ h' => ∃ w' l', Sound h' w' l' ∧ h'.bare = h.bare ∧
      (allocs w).Perm (c :: allocs w') ∧ Keeps w' h h' := by
  obtain ⟨pre, post, rfl⟩ := List.append_of_mem hc
  obtain ⟨lo, below, above, hi, rfl, rfl, hf⟩ := hS.parted.fence
  refine (hS.ends_free hal hf).mono ?_
  intro _ h' hr
  obtain ⟨hS', hb, hk⟩ := hr
  refine ⟨_, _, hS', hb, (allocs_insert hal).trans (.of_eq (congrArg _ ?_)), hk.insert_free rfl⟩
  rw [List.append_assoc, allocs_skip fun d hd => hf.below d (Option.mem_toList.mp hd),
    allocs_skip fun d hd => hf.above d (Option.mem_toList.mp hd), allocs_append, allocs_append,
    allocs_cons_free rfl]

theorem ends_resize (hS : Sound h w l) (hc : c ∈ w) (hal : c.alloc = true) (hmod : a % 16 = 0) (h32 : 32 ≤ a) :
    resize c.block a h = .ok false h ∨ Ends (resize c.block a) h fun r h' => r = true ∧
      ∃ w' l' d rest, Sound h' w' l' ∧ h.Later h' ∧ d.addr = c.addr ∧ d.alloc = true ∧ a ≤ d.size ∧
        (allocs w).Perm (c :: rest) ∧ (allocs w').Perm (d :: rest) ∧ Keeps rest h h' ∧
        ∀ x, c.Holds x → d.Holds x → h'.memory.byte x = h.memory.byte x := by
  obtain ⟨pre, post, rfl⟩ := List.append_of_mem hc
  obtain ⟨above, hi, rfl, habove, hhi⟩ := hS.parted.right.tail.above
  have hfree : ∀ d ∈ above.toList, d.alloc = false := fun d hd => habove d (Option.mem_toList.mp hd)
  have hperm : (allocs (pre ++ c :: (above.toList ++ hi))).Perm (c :: allocs (pre ++ hi)) :=
    (allocs_insert hal).trans (.of_eq (congrArg _ (allocs_skip hfree)))
  by_cases hdown : a ≤ c.size
  · obtain ⟨d, o, hcut⟩ := exists_cut c.addr_mod c.size_mod hmod h32 hdown
    refine .inr ((hS.resizeDown hal habove hhi hcut).mono ?_)
    intro _ h' hr
    obtain ⟨rfl, hS', hb, hk⟩ := hr
    refine ⟨rfl, _, _, d, _, hS', .of_bare hb, hcut.addr, hcut.alloc, hcut.le_size, hperm, ?_, ?_, ?_⟩
    · refine (allocs_insert hcut.alloc).trans (.of_eq (congrArg _ (allocs_skip fun e he => ?_)))
      have he := Option.mem_toList.mp he
      cases o with
      | none => exact habove e he
      | some r => obtain rfl : Cell.merge none r above = e := Option.some.inj he; rfl
    · exact hk.mono fun e he _ => List.mem_cons_of_mem _ (mem_allocs.mp he).1
    · exact fun x _ hx => hk x ⟨d, by simp, hcut.alloc, hx⟩
  by_cases hup : a ≤ c.size + Cell.sizeOf above
  · cases above with
    | none => simp only [Cell.sizeOf, Option.elim_none] at hup; omega
    | some b =>
      have hmod' : (c.size + b.size) % 16 = 0 := by have := c.size_mod; have := b.size_mod; omega
      obtain ⟨d, o, hcut⟩ := exists_cut c.addr_mod hmod' hmod h32 hup
      refine .inr ((hS.resizeUp hal (habove b rfl) (by omega) hcut).mono ?_)
      intro _ h' hr
      obtain ⟨rfl, hS', hb, hk⟩ := hr
      refine ⟨rfl, _, _, d, _, hS', .of_bare hb, hcut.addr, hcut.alloc, hcut.le_size, hperm, ?_, ?_, ?_⟩
      · exact (allocs_insert hcut.alloc).trans (.of_eq (congrArg _ (allocs_skip hcut.rest_free)))
      · refine hk.mono fun e he _ => ?_
        have he := (mem_allocs.mp he).1
        simp at he ⊢
        grind
      · exact fun x hx _ => hk x ⟨c, by simp, hal, hx⟩
  · exact .inl (hS.resizeStuck habove hhi (by omega))

theorem nodup_allocs (hL : Laid h w l) : (allocs w).Nodup :=
  (List.Nodup.of_map _ hL.abut.nodup).sublist List.filter_sublist

/-- What `realloc` does once it has a new cell: the bytes that fit are copied, and the old cell
is released. -/
theorem move {Q : Heap → Prop} (hS : Sound h w l) (hd : d ∈ w) (hda : d.alloc = true) (hc : c ∈ w)
    (hn : n + 16 ≤ d.size)
    (hfree : ∀ h₁, Sound h₁ w l → h₁.bare = h.bare →
      (∀ e ∈ w, e ≠ d → ∀ x, e.Holds x → h₁.memory.byte x = h.memory.byte x) →
      (∀ i < min n (c.size - 16), h₁.memory.byte (d.addr + i) = h.memory.byte (c.addr + i)) →
      Ends (free (some c.addr)) h₁ fun _ => Q) :
    Ends (do
        let kept := min n (← c.block.payloadSize)
        storeBytes d.addr (← loadBytes c.addr kept)
        free (some c.addr)
        record (.moved c.addr n d.addr)
        return some d.addr) h fun r h' => r = some d.addr ∧ ∃ h₂, Q h₂ ∧ h₂.Idle h' := by
  obtain ⟨p, hst⟩ := hS.stands hc
  have hkept : min n (c.size - 16) + 16 ≤ c.size := by have := c.le_size; omega
  refine Ends.query hst.payloadSize (Ends.query (run_loadBytes (permits hS.toLaid hc hkept)) ?_)
  refine Ends.bind (hS.ends_storeBytes hd hda (by rw [Memory.length_read]; omega)) ?_
  intro _ h₁ hr
  obtain ⟨hS₁, hb₁, hother, hin⟩ := hr
  refine Ends.bind (hfree h₁ hS₁ hb₁ hother fun i hi => ?_) ?_
  · exact (hin i (by rwa [Memory.length_read])).trans (Memory.getElem_read ..)
  intro _ h₂ hq
  exact Ends.record (Ends.pure ⟨rfl, h₂, hq, .record rfl⟩)

theorem ends_move {rest : List Cell} (hS : Sound h w l) (hperm : (allocs w).Perm (d :: c :: rest))
    (hn : n + 16 ≤ d.size) :
    Ends (do
        let kept := min n (← c.block.payloadSize)
        storeBytes d.addr (← loadBytes c.addr kept)
        free (some c.addr)
        record (.moved c.addr n d.addr)
        return some d.addr) h fun r h' => r = some d.addr ∧ ∃ w' l', Sound h' w' l' ∧ h.Later h' ∧
      (allocs w').Perm (d :: rest) ∧ Keeps rest h h' ∧
      ∀ i < min n (c.size - 16), h'.memory.byte (d.addr + i) = h.memory.byte (c.addr + i) := by
  have hnd := hperm.nodup_iff.mp (nodup_allocs hS.toLaid)
  obtain ⟨hdn, -⟩ := List.nodup_cons.mp hnd
  have hmem : ∀ e ∈ d :: c :: rest, e ∈ w ∧ e.alloc = true := fun e he => mem_allocs.mp (hperm.mem_iff.mpr he)
  obtain ⟨hdw, hda⟩ := hmem d (by simp)
  obtain ⟨hcw, hca⟩ := hmem c (by simp)
  refine (hS.move (Q := fun h' => ∃ w' l', Sound h' w' l' ∧ h'.bare = h.bare ∧ (allocs w').Perm (d :: rest) ∧
    Keeps rest h h' ∧ ∀ i < min n (c.size - 16), h'.memory.byte (d.addr + i) = h.memory.byte (c.addr + i))
    hdw hda hcw hn fun h₁ hS₁ hb₁ hother hin => ?_).mono ?_
  · refine (hS₁.ends_release hcw hca).mono ?_
    intro _ h₂ hr
    obtain ⟨w₂, l₂, hS₂, hb₂, hperm₂, hk₂⟩ := hr
    have hperm' : (allocs w₂).Perm (d :: rest) :=
      List.perm_cons c |>.mp ((hperm₂.symm.trans hperm).trans (.swap c d rest))
    have hmem₂ : ∀ e ∈ d :: rest, e ∈ w₂ ∧ e.alloc = true := fun e he => mem_allocs.mp (hperm'.mem_iff.mpr he)
    refine ⟨w₂, l₂, hS₂, hb₂.trans hb₁, hperm', ?_, fun i hi => ?_⟩
    · intro x hr
      obtain ⟨e, he, hea, hx⟩ := hr
      have hne : e ≠ d := fun heq => hdn (heq ▸ List.mem_cons_of_mem _ he)
      refine (hk₂ x ⟨e, (hmem₂ e (by simp [he])).1, hea, hx⟩).trans ?_
      exact hother e (hmem e (by simp [he])).1 hne x hx
    · have hheld : Held w₂ (d.addr + i) := ⟨d, (hmem₂ d (by simp)).1, hda, by omega, by omega⟩
      exact (hk₂ _ hheld).trans (hin i hi)
  · intro _ h' hr
    obtain ⟨rfl, h₂, ⟨w₂, l₂, hS₂, hb₂, hperm', hk, hcopy⟩, hi⟩ := hr
    refine ⟨rfl, w₂, l₂, hS₂.idle hi, (Heap.Later.of_bare hb₂).idle hi, hperm', fun x hx => ?_, fun i hlt => ?_⟩
    · rw [hi.memory]
      exact hk x hx
    · rw [hi.memory]
      exact hcopy i hlt

theorem ends_realloc (hS : Sound h w l) (hc : c ∈ w) (hal : c.alloc = true) (hn : n ≠ 0) :
    Ends (realloc (some c.addr) n) h fun r h' => match r with
    | none => h.Idle h'
    | some q => ∃ w' l' d rest, Sound h' w' l' ∧ h.Later h' ∧ d.addr = q ∧ d.alloc = true ∧
        n + 16 ≤ d.size ∧ (allocs w).Perm (c :: rest) ∧ (allocs w').Perm (d :: rest) ∧ Keeps rest h h' ∧
        ∀ i < min n (c.size - 16), h'.memory.byte (d.addr + i) = h.memory.byte (c.addr + i) := by
  cases ha : blockSize n with
  | none => exact ⟨none, h, run_realloc_huge c.addr hn ha, .refl h⟩
  | some a =>
    obtain ⟨-, hmod, hle, -⟩ := blockSize_eq_some.mp ha
    rcases hS.ends_resize hc hal hmod (by omega) with hstuck | hresized
    · have hrest := List.perm_cons_erase (mem_allocs.mpr ⟨hc, hal⟩)
      generalize (allocs w).erase c = rest at hrest
      refine realloc_stuck hn ha hstuck ((hS.ends_malloc n).mono ?_)
      intro result h₁ hr
      rcases result with _ | q
      · exact hr.2
      obtain ⟨w₁, l₁, d, hS₁, hsupply, rfl, hda, hds, hperm, hk⟩ := hr
      have hperm₁ := hperm.trans (hrest.cons d)
      refine (hS₁.ends_move hperm₁ hds).mono ?_
      intro _ h₂ hq
      obtain ⟨rfl, w₂, l₂, hS₂, hlater₂, hperm₂, hk₂, hcopy⟩ := hq
      refine ⟨w₂, l₂, d, rest, hS₂, hsupply.later.trans hlater₂, rfl, hda, hds, hrest, hperm₂, ?_, fun i hi => ?_⟩
      · refine (hk.mono fun e he hea => ?_).trans hk₂
        exact (mem_allocs.mp (hrest.mem_iff.mpr (List.mem_cons_of_mem _ he))).1
      · exact (hcopy i hi).trans (hk _ ⟨c, hc, hal, by omega, by omega⟩)
    · -- in place: all bytes up to the smaller of the two ends are kept
      refine (realloc_resized hn ha hresized ?_).mono ?_
      · intro h' hq
        obtain ⟨w', l', d, rest, hS', -⟩ := hq
        exact ⟨w', l', hS'⟩
      intro _ _ hq
      obtain ⟨rfl, h₁, ⟨w', l', d, rest, hS', hlater, hda, hdal, hds, hperm, hperm', hk, hbytes⟩, hidle⟩ := hq
      rw [hidle.memory]
      refine ⟨w', l', d, rest, hS'.idle hidle, hlater.idle hidle, hda, hdal, by omega,
        hperm, hperm', fun x hx => ?_, fun i hi => ?_⟩
      · rw [hidle.memory]
        exact hk x hx
      rw [hda]
      exact hbytes _ ⟨by omega, by omega⟩ ⟨by omega, by omega⟩

theorem ends_calloc (hS : Sound h w l) (count n : Nat) : Ends (calloc count n) h fun r h' => match r with
    | none => h.Refuses w (count * n) ∧ h.Idle h'
    | some p => ∃ w' l' c, Sound h' w' l' ∧ h.Supplies w (count * n) h' ∧ c.addr = p ∧ c.alloc = true ∧
        count * n + 16 ≤ c.size ∧ (allocs w').Perm (c :: allocs w) ∧ Keeps w h h' ∧
        ∀ i < count * n, h'.memory.byte (p + i) = 0 := by
  unfold calloc
  dsimp only
  by_cases hbig : wordLimit ≤ count * n
  · rw [if_pos hbig]
    refine Ends.pure ⟨.inr (.inl ?_), .refl h⟩
    exact Nat.le_trans hbig (Nat.le_trans (Nat.le_add_right _ _) (footprint_isLeast _).1.2)
  rw [if_neg hbig]
  refine Ends.bind (hS.ends_malloc (count * n)) ?_
  intro result h₁ hr
  rcases result with _ | p
  · exact Ends.pure hr
  obtain ⟨w₁, l₁, c, hS₁, hsupply, rfl, hal, hcs, hperm, hk⟩ := hr
  have hmem : c ∈ w₁ := (mem_allocs.mp (hperm.mem_iff.mpr (by simp))).1
  refine Ends.bind (hS₁.ends_storeBytes hmem hal (by rwa [List.length_replicate])) ?_
  intro _ h₂ hq
  obtain ⟨hS₂, hb₂, hother, hin⟩ := hq
  refine Ends.pure ⟨w₁, l₁, c, hS₂, hsupply.trans_bare hb₂, rfl, hal, hcs, hperm, ?_, fun i hi => ?_⟩
  · intro x hq
    obtain ⟨e, he, hea, hx⟩ := hq
    have hew := mem_allocs.mpr ⟨he, hea⟩
    have hne : e ≠ c := by
      rintro rfl
      exact (List.nodup_cons.mp (hperm.nodup_iff.mp (nodup_allocs hS₁.toLaid))).1 hew
    refine (hother e (mem_allocs.mp (hperm.mem_iff.mpr (by simp [hew]))).1 hne x hx).trans ?_
    exact hk x ⟨e, he, hea, hx⟩
  · exact (hin i (by rwa [List.length_replicate])).trans (List.getElem_replicate ..)

end Sound

end SegregatedFit
