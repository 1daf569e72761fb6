import SegregatedFit.Proofs.Undoing

/-!
# Repeating requests

The books of a sound heap can be kept in one way only: the cells and the lists decide every
byte of the tags and of the links. A resize to the size that a block has anyway writes its
tags once more, and all is as it was; so it is for a size that has just been asked for.
-/

namespace SegregatedFit

variable {c : Client} {h h' h₁ : Heap} {m m' : Memory} {w v : List Cell} {l : Lists} {d e : Cell} {o : Option Cell}
  {a n p top total x : Nat}

/-! ## Words and their bytes -/

theorem wordOfBytes_inj : ∀ {bs cs : List UInt8}, bs.length = cs.length → wordOfBytes bs = wordOfBytes cs → bs = cs
  | [], [], _, _ => rfl
  | b :: bs, c :: cs, hlen, hw => by
    have hb := b.toNat_lt
    have hc := c.toNat_lt
    simp only [wordOfBytes] at hw
    have hbc : b = c := UInt8.toNat_inj.mp (by omega)
    rw [hbc, wordOfBytes_inj (Nat.succ.inj hlen) (by omega)]

theorem Memory.byte_of_word (hw : m'.word a = m.word a) (hlo : a ≤ x) (hhi : x < a + 8) :
    m'.byte x = m.byte x := by
  have hread : m'.read a wordSize = m.read a wordSize := wordOfBytes_inj (by simp) hw
  exact List.map_inj_left.mp hread x (List.mem_range'_1.mpr ⟨hlo, hhi⟩)

/-! ## One way to keep the books -/

theorem Cell.TaggedIn.byte {p : Bool} (ht : d.TaggedIn m p) (ht' : d.TaggedIn m' p) (ha : 8 ≤ d.addr)
    (hx : d.TagByte x) : m'.byte x = m.byte x := by
  have hsize := d.le_size
  rcases hx with hx | hx
  · exact Memory.byte_of_word (ht'.header.trans ht.header.symm) (by omega) (by omega)
  · exact Memory.byte_of_word (ht'.footer.trans ht.footer.symm) (by omega) (by omega)

theorem Stretch.byte_tag {p' q' : Bool} : ∀ {w : List Cell} {a : Nat} {p : Bool}, Stretch m a p w top p' →
    Stretch m' a p w top q' → 8 ≤ a → ∀ d ∈ w, d.TagByte x → m'.byte x = m.byte x
  | d :: w, a, p, ⟨hd, ht, hs⟩, ⟨_, ht', hs'⟩, ha, e, he, hx => by
    rcases List.mem_cons.mp he with rfl | he
    · exact ht.byte ht' (hd ▸ ha) hx
    · exact hs.byte_tag hs' (by omega) e he hx

theorem Tiles.byte_epilogue {p : Bool} (ht : Tiles m top a p w) (ht' : Tiles m' top a p w) (hlo : top ≤ x + 8)
    (hhi : x < top) : m'.byte x = m.byte x := by
  obtain ⟨q, hs, he⟩ := ht
  obtain ⟨q', hs', he'⟩ := ht'
  -- the epilogue knows the state of the last cell
  obtain rfl : q = q' := hs.last.trans hs'.last.symm
  exact Memory.byte_of_word (he'.trans he.symm) (by omega) (by omega)

theorem Threads.byte_link {after : Option Block} : ∀ {bs : List Block} {prev : Option Block},
    Threads m after prev bs → Threads m' after prev bs → ∀ b ∈ bs, b.payload ≤ x → x < b.payload + 16 →
      m'.byte x = m.byte x
  | b :: bs, _, ⟨hn, hp, ht⟩, ⟨hn', hp', ht'⟩, e, he, hlo, hhi => by
    rcases List.mem_cons.mp he with rfl | he
    · by_cases hx : x < e.payload + 8
      · exact Memory.byte_of_word (hn'.trans hn.symm) hlo hx
      · exact Memory.byte_of_word (hp'.trans hp.symm) (by omega) (by omega)
    · exact ht.byte_link ht' e he hlo hhi

theorem Linked.heads_eq (hl : Linked h l) (hl' : Linked h' l) : h'.heads = h.heads := by
  refine Vector.ext fun i hi => ?_
  exact (hl'.heads ⟨i, hi⟩).trans (hl.heads ⟨i, hi⟩).symm

/-- Heaps with the same cells and the same lists have the same books. -/
theorem Sound.byte_meta (hS : Sound h w l) (hL : Laid h' w l) (hb : h'.bare = h.bare) (hx : MetaBytes w h.top x) :
    h'.memory.byte x = h.memory.byte x := by
  have ht := hS.tiles
  have ht' := hL.tiles
  rw [top_of_bare hb, source_of_bare hb] at ht'
  rcases hx with ⟨hlo, hhi⟩ | ⟨d, hd, hx | ⟨hf, hlo, hhi⟩⟩
  · exact ht.byte_epilogue ht' hlo hhi
  · exact ht.choose_spec.1.byte_tag ht'.choose_spec.1 (by omega) d hd hx
  · obtain ⟨k, hk⟩ := hS.full d hd hf
    exact (hS.linked.threads k).byte_link (hL.linked.threads k) d.block hk hlo hhi

/-! ## The same heap -/

/-- Nothing has changed but the journal. What has been written was there before. -/
structure Heap.Same (h h' : Heap) : Prop where
  heap : h' = { h with memory := h'.memory, journal := h'.journal }
  byte : ∀ x, h'.memory.byte x = h.memory.byte x

namespace Heap.Same

theorem of_bare (hb : h'.bare = h.bare) (hh : h'.heads = h.heads)
    (hk : ∀ x, h'.memory.byte x = h.memory.byte x) : h.Same h' := by
  refine ⟨?_, hk⟩
  cases h
  cases h'
  simp only [Heap.bare, Heap.mk.injEq] at hb hh ⊢
  simp [hb, hh]

theorem idle (hs : h.Same h₁) (hi : h₁.Idle h') : h.Same h' := by
  refine ⟨?_, fun x => ?_⟩
  · rw [hi.heap, hs.heap]
  · rw [hi.memory]
    exact hs.byte x

end Heap.Same

def Heap.Steady (h : Heap) (p n : Nat) : Prop :=
  Ends (realloc (some p) n) h fun r h' => r = some p ∧ h.Same h'

def Heap.Fitted (h : Heap) (p a : Nat) : Prop :=
  ∃ w l d, Sound h w l ∧ d ∈ w ∧ d.alloc = true ∧ d.addr = p ∧ a ≤ d.size ∧ d.size < a + 32

theorem Sound.resize_same (hS : Sound h w l) (hd : d ∈ w) (hal : d.alloc = true) (hle : a ≤ d.size)
    (hlt : d.size < a + 32) : Ends (resize d.block a) h fun r h' => r = true ∧ Sound h' w l ∧ h.Same h' := by
  have hn := hS.unlisted hd hal
  refine Ends.query (hS.size hd) ?_
  rw [if_pos hle]
  obtain ⟨pre, post, rfl⟩ := List.append_of_mem hd
  have hL : Laid h (pre ++ [d] ++ post) l := by simpa using hS.toLaid
  refine Ends.bind (hL.carveWhole (by simpa using hn) rfl hal (by simp) hle hlt) ?_
  intro _ h' hr
  obtain ⟨hL', ht⟩ := hr
  refine Ends.pure ⟨rfl, ⟨hL', hS.full, hS.parted⟩, .of_bare ht.bare (hS.linked.heads_eq hL'.linked) fun x => ?_⟩
  by_cases hx : MetaBytes (pre ++ d :: post) h.top x
  · exact hS.byte_meta hL' ht.bare hx
  · exact ht.byte x hx

theorem Heap.Fitted.steady (hf : h.Fitted p a) (hn : n ≠ 0) (ha : blockSize n = some a) : h.Steady p n := by
  obtain ⟨w, l, d, hS, hd, hal, rfl, hle, hlt⟩ := hf
  refine (Sound.realloc_resized hn ha (hS.resize_same hd hal hle hlt) fun h' hq => ⟨w, l, hq.1⟩).mono ?_
  intro _ h' hr
  obtain ⟨rfl, h₁, ⟨-, hs⟩, hi⟩ := hr
  exact ⟨rfl, hs.idle hi⟩

/-! ## What requests leave -/

namespace Sound

theorem malloc_fitted (hS : Sound h w l) (n : Nat) : Ends (malloc n) h fun r h' => ∀ p ∈ r,
    0 < n ∧ ∃ a, blockSize n = some a ∧ h'.Fitted p a := by
  refine (hS.malloc_placed n).mono ?_
  intro r h' hr p hp
  obtain rfl := Option.mem_def.mp hp
  obtain ⟨a, w', g, l', ha, hplaced, hS', -, hsupply, -⟩ := hr
  obtain ⟨d, rfl, hal, hle, hlt, hperm⟩ := hplaced.exists_cell
  have hd := (mem_allocs.mp (hperm.mem_iff.mpr List.mem_cons_self)).1
  exact ⟨hsupply.pos, a, ha, w', l', d, hS', hd, hal, rfl, hle, hlt⟩

theorem realloc_fitted_of_cut (hn : n ≠ 0) (ha : blockSize n = some a) (hcut : Cut d.addr total a e o) (he : e ∈ w)
    (hr : Ends (resize d.block a) h fun r h' => r = true ∧ Sound h' w l ∧ h'.bare = h.bare ∧ Keeps v h h') :
    Ends (realloc (some d.addr) n) h fun r h' => ∀ q ∈ r, h'.Fitted q a := by
  refine (realloc_settles hn ha hr).mono ?_
  intro _ h' hr q hq
  obtain ⟨rfl, hS', -, -⟩ := hr
  obtain rfl := Option.some.inj hq
  exact ⟨w, l, e, hS', he, hcut.alloc, hcut.addr, hcut.le_size, hcut.size_lt⟩

theorem realloc_fitted_of_stuck (hS : Sound h w l) (hd : d ∈ w) (hal : d.alloc = true) (hn : n ≠ 0)
    (ha : blockSize n = some a) (hstuck : resize d.block a h = .ok false h) :
    Ends (realloc (some d.addr) n) h fun r h' => ∀ q ∈ r, h'.Fitted q a := by
  have hrest := List.perm_cons_erase (mem_allocs.mpr ⟨hd, hal⟩)
  refine realloc_stuck hn ha hstuck ((hS.malloc_placed n).mono ?_)
  intro r h₁ hr
  cases r with
  | none => simp
  | some q =>
    obtain ⟨a', w₁, g, l₁, ha', hplaced, hS₁, -⟩ := hr
    obtain rfl : a = a' := Option.some.inj (ha.symm.trans ha')
    obtain ⟨-, -, hfit, -⟩ := blockSize_eq_some.mp ha
    obtain ⟨e, rfl, hea, hle, hlt, hperm⟩ := hplaced.exists_cell
    refine (hS₁.ends_move (hperm.trans (hrest.cons e)) (Nat.le_trans hfit hle)).mono ?_
    intro _ h₂ hr q hq
    obtain ⟨rfl, w₂, l₂, hS₂, -, hperm₂, -⟩ := hr
    obtain rfl := Option.some.inj hq
    have hew := (mem_allocs.mp (hperm₂.mem_iff.mpr List.mem_cons_self)).1
    exact ⟨w₂, l₂, e, hS₂, hew, hea, rfl, hle, hlt⟩

theorem realloc_fitted (hS : Sound h w l) (hd : d ∈ w) (hal : d.alloc = true) (hn : n ≠ 0) :
    Ends (realloc (some d.addr) n) h fun r h' => ∀ q ∈ r, ∃ a, blockSize n = some a ∧ h'.Fitted q a := by
  cases ha : blockSize n with
  | none => exact ⟨none, h, run_realloc_huge d.addr hn ha, by simp⟩
  | some a =>
    refine Ends.mono (P := fun r h' => ∀ q ∈ r, h'.Fitted q a) ?_ fun _ _ hr q hq => ⟨a, rfl, hr q hq⟩
    obtain ⟨-, hmod, hmin, -⟩ := blockSize_eq_some.mp ha
    obtain ⟨pre, above, post, hw, -, -, habove, hpost⟩ := hS.parted.exists_around hd hal
    have hS₀ := hw ▸ hS
    by_cases hdown : a ≤ d.size
    · obtain ⟨e, o, hcut⟩ := exists_cut d.addr_mod d.size_mod hmod (by omega) hdown
      exact realloc_fitted_of_cut hn ha hcut (by simp) (hS₀.resizeDown hal habove hpost hcut)
    by_cases hup : a ≤ d.size + Cell.sizeOf above
    · cases above with
      | none => exact absurd hup hdown
      | some f =>
        obtain ⟨e, o, hcut⟩ := exists_cut_above hmod (by omega) hup
        exact realloc_fitted_of_cut hn ha hcut (by simp) (hS₀.resizeUp hal (habove f rfl) (by omega) hcut)
    · exact hS.realloc_fitted_of_stuck hd hal hn ha (hS₀.resizeStuck habove hpost (by omega))

end Sound

/-- Where a resize is known beforehand to change nothing: to the size that was just asked for,
and to any size of which the block has less than another block more. -/
structure Client.Steady (c : Client) : Prop where
  allocated : ∀ n, Ends (malloc n) c.heap fun r h₁ => ∀ p ∈ r, h₁.Steady p n
  resized : ∀ p₀ n, c.Owns p₀ → 0 < n → Ends (realloc (some p₀) n) c.heap fun r h₁ => ∀ p ∈ r, h₁.Steady p n
  fitting : ∀ p n a cur, c.Owns p → 0 < n → blockSize n = some a → Block.size ⟨p⟩ c.heap = .ok cur → a ≤ cur →
    cur < a + 32 → c.heap.Steady p n

/-- In every heap of a client, resizing an allocation to the size it has been given leaves every
byte, all lists and the source of the heap as they are. -/
theorem Reachable.resize_steady (hc : Reachable c) : c.Steady := by
  obtain ⟨w, l, hT⟩ := hc.tracked
  constructor
  case allocated =>
    intro n
    refine (hT.sound.malloc_fitted n).mono ?_
    intro r h₁ hr p hp
    obtain ⟨hn, a, ha, hf⟩ := hr p hp
    exact hf.steady (Nat.ne_of_gt hn) ha
  case resized =>
    intro p₀ n hp hn
    obtain ⟨d, hd, hal, rfl⟩ := hT.cell hp
    refine (hT.sound.realloc_fitted hd hal (Nat.ne_of_gt hn)).mono ?_
    intro r h₁ hr q hq
    obtain ⟨a, ha, hf⟩ := hr q hq
    exact hf.steady (Nat.ne_of_gt hn) ha
  case fitting =>
    intro p n a cur hp hn ha hcur hle hlt
    obtain ⟨d, hd, hal, rfl⟩ := hT.cell hp
    obtain rfl : d.size = cur := Except.ok.inj ((hT.sound.size hd).symm.trans hcur)
    have hf : c.heap.Fitted d.addr a := ⟨w, l, d, hT.sound, hd, hal, rfl, hle, hlt⟩
    exact hf.steady (Nat.ne_of_gt hn) ha

/-- The block of 80 bytes moves for 200, and is steady there; for 40 it would do with 64, but 16
are no block. -/
theorem smallRun_resize_steady : (∃ h₁, realloc (some 4208) 200 smallRun.heap = .ok (some 4288) h₁ ∧ h₁.Steady 4288 200) ∧
    smallRun.heap.Steady 4208 40 := by
  obtain ⟨howns, hcur, hr⟩ : smallRun.Owns 4208 ∧ Block.size ⟨4208⟩ smallRun.heap = .ok 80 ∧
      smallRun.result (.realloc (some 4208) 200) = some 4288 := by decide +kernel
  have hs := Reachable.resize_steady reachable_smallRun
  constructor
  · obtain ⟨r, h₁, hrun, hsteady⟩ := hs.resized 4208 200 howns (by decide)
    rw [Client.result, show (Call.realloc (some 4208) 200).run smallRun.heap = .ok r h₁ from hrun] at hr
    subst hr
    exact ⟨h₁, hrun, hsteady 4288 rfl⟩
  · exact hs.fitting 4208 40 64 80 howns (by decide) (by decide) hcur (by decide) (by decide)

end SegregatedFit
