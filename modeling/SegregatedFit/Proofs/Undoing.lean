import SegregatedFit.Proofs.Carving

/-!
# Undoing requests

To free what has just been allocated brings back the blocks from which it was taken, whatever
was written to it in between; if the heap had to grow, the new bytes are free at its end. An
allocation that shrinks can grow back where it is, as nobody can have taken what it gave up,
and the heap is then as it was before.
-/

namespace SegregatedFit

variable {c : Client} {h h' h₁ : Heap} {w pre post : List Cell} {l l₁ : Lists} {d e t : Cell} {above o : Option Cell}
  {m n a b g p x y : Nat}

/-! ## Heaps that look alike -/

structure Heap.Consists (h : Heap) (w : List Cell) : Prop where
  walk : blocks h = .ok (taggedCells true w)
  members : ∀ k, ∃ bs, FreeList.members k h = .ok bs ∧
    bs.Perm ((w.filter fun d => !d.alloc && SizeClass.ofSize d.size == k).map Cell.block)

/-- The heaps have the same blocks, and the same members in each list, in any order. -/
structure Heap.Mirrors (h h' : Heap) : Prop where
  walk : ∃ bs, blocks h = .ok bs ∧ blocks h' = .ok bs
  members : ∀ k, ∃ bs bs', FreeList.members k h = .ok bs ∧ FreeList.members k h' = .ok bs' ∧ bs'.Perm bs

theorem Sound.consists (hS : Sound h w l) : h.Consists w :=
  ⟨hS.run_blocks, fun k => ⟨l k, hS.linked.run_members k, hS.perm_list k⟩⟩

theorem Heap.Consists.mirrors (hx : h.Consists w) (hy : h'.Consists w) : h.Mirrors h' := by
  refine ⟨⟨_, hx.walk, hy.walk⟩, fun k => ?_⟩
  obtain ⟨bs, hbs, hp⟩ := hx.members k
  obtain ⟨bs', hbs', hp'⟩ := hy.members k
  exact ⟨bs, bs', hbs, hbs', hp'.trans hp.symm⟩

/-! ## Writes in between -/

def Memory.writeAll (m : Memory) (a : Nat) (ws : List (Nat × List UInt8)) : Memory :=
  ws.foldl (fun m w => m.write (a + w.1) w.2) m

theorem Memory.byte_writeAll {m : Memory} {ws : List (Nat × List UInt8)} (hfit : ∀ w ∈ ws, w.1 + w.2.length ≤ n)
    (hx : x < a ∨ a + n ≤ x) : (m.writeAll a ws).byte x = m.byte x := by
  induction ws generalizing m with
  | nil => rfl
  | cons w ws ih =>
    obtain ⟨hw, hws⟩ := List.forall_mem_cons.mp hfit
    refine (ih hws).trans (byte_write_outside _ _ _ _ ?_)
    omega

theorem Sound.writeAll {ws : List (Nat × List UInt8)} (hS : Sound h w l) (hd : d ∈ w) (hal : d.alloc = true)
    (hfit : ∀ w ∈ ws, w.1 + w.2.length ≤ d.size - 16) :
    Sound { h with memory := h.memory.writeAll d.addr ws } w l := by
  refine hS.of_held (bare_memory _ _) rfl rfl fun x hx => Memory.byte_writeAll hfit ?_
  refine Decidable.byContradiction fun hn => hx ⟨d, hd, hal, ?_⟩
  have := d.le_size
  constructor <;> omega

theorem Sound.keeps_writeAll {ws : List (Nat × List UInt8)} (hS : Sound h (pre ++ d :: post) l)
    (hfit : ∀ w ∈ ws, w.1 + w.2.length ≤ d.size - 16) :
    Keeps (pre ++ post) h { h with memory := h.memory.writeAll d.addr ws } := by
  intro x hr
  obtain ⟨e, he, -, hx⟩ := hr
  obtain ⟨-, hpost, hpre⟩ := List.pairwise_append.mp hS.abut.pairwise
  have hlo := hx.1
  have hhi := hx.2
  have hsize := d.le_size
  refine Memory.byte_writeAll hfit ?_
  rcases List.mem_append.mp he with he | he
  · have hed := hpre e he d List.mem_cons_self
    omega
  · have hde := (List.pairwise_cons.mp hpost).1 e he
    omega

/-! ## Freeing what was allocated -/

inductive Lengthened (top g : Nat) (w : List Cell) : List Cell → Prop
  | enlarged {pre : List Cell} {d t : Cell} (hw : w = pre ++ [d]) (hd : d.alloc = false) (haddr : t.addr = d.addr)
      (hsize : t.size = d.size + g) (ht : t.alloc = false) : Lengthened top g w (pre ++ [t])
  | added {t : Cell} (hlast : ∀ d ∈ w.getLast?, d.alloc = true) (haddr : t.addr = top) (hsize : t.size = g)
      (ht : t.alloc = false) : Lengthened top g w (w ++ [t])

theorem Cell.freed_free (ht : t.alloc = false) : t.freed = t := by
  ext
  · rfl
  · rfl
  · exact ht.symm

namespace Heap.Chooses

theorem restored (hch : h.Chooses w a pre t post g) (ha : 0 < a) : (g = 0 ∧ pre ++ t.freed :: post = w) ∨
    (0 < g ∧ Lengthened h.top g w (pre ++ t.freed :: post)) := by
  cases hch with
  | found hfind hw ht =>
    left
    rw [Cell.freed_free ht, hw]
    exact ⟨rfl, rfl⟩
  | enlarged hfind hw hd haddr hsize =>
    right
    constructor
    · exact Nat.lt_of_lt_of_le ha (Nat.le_max_left _ _)
    · exact .enlarged hw hd haddr hsize rfl
  | added hfind hlast haddr hsize =>
    right
    constructor
    · exact Nat.lt_of_lt_of_le ha (Nat.le_max_left _ _)
    · exact .added hlast haddr hsize rfl

theorem parted (hch : h.Chooses w a pre t post g) (hp : Parted w) : Parted (pre ++ t.freed :: post) := by
  cases hch with
  | found hfind hw ht =>
    rw [Cell.freed_free ht, ← hw]
    exact hp
  | enlarged hfind hw hd haddr hsize =>
    rw [hw] at hp
    exact hp.left.insert_free List.IsChain.nil (hp.last_of_free hd) (by simp)
  | added hfind hlast haddr hsize =>
    exact hp.insert_free List.IsChain.nil hlast (by simp)

end Heap.Chooses

theorem Cut.merge_rest (hcut : Cut t.addr t.size a e o) : Cell.merge none e o = t.freed := by
  have hsize := hcut.size
  have hle := hcut.le
  ext
  · exact hcut.addr
  · cases o with
    | none => simpa [Cell.merge, Cell.sizeOf, Cell.freed] using hsize
    | some r =>
      have hr := (hcut.rest r rfl).2.1
      simp only [Option.isSome_some, if_true] at hsize
      simp only [Cell.merge, Cell.sizeOf, Option.elim_none, Option.elim_some, Cell.freed]
      omega
  · rfl

namespace Sound

/-- The two cells into which one is cut become one again, as no free cell is beside them. -/
theorem ends_free_cut (hS : Sound h (pre ++ e :: (o.toList ++ post)) l) (hcut : Cut t.addr t.size a e o)
    (hp : Parted (pre ++ t.freed :: post)) : Ends (free (some e.addr)) h fun _ h' =>
      (∃ l', Sound h' (pre ++ t.freed :: post) l') ∧ h'.bare = h.bare ∧ Keeps (pre ++ post) h h' := by
  have hf : Fenced pre none o post := by
    refine ⟨by simp, fun r hr => (hcut.rest r hr).2.2, ?_, ?_⟩
    · exact hp.last_of_free rfl
    · exact hp.right.head_of_free rfl
  have hS₀ : Sound h (pre ++ (none : Option Cell).toList ++ e :: (o.toList ++ post)) l := by simpa using hS
  refine (hS₀.ends_free hcut.alloc hf).mono ?_
  intro _ h' hr
  obtain ⟨hS', hb, hk⟩ := hr
  rw [hcut.merge_rest] at hS'
  exact ⟨⟨_, hS'⟩, hb, hk⟩

end Sound

/-- What is true after a client gives back what it was just given, in a heap that was `h₁` then. -/
structure Client.Restored (c : Client) (h₁ h' : Heap) : Prop where
  source : h'.source = h₁.source
  mirrors : h₁.source.size = c.heap.source.size → c.heap.Mirrors h'
  lengthened : ∀ g, 0 < g → h₁.source.size = c.heap.source.size + g →
    ∃ w w', c.heap.Consists w ∧ Lengthened c.heap.top g w w' ∧ h'.Consists w'
  payload : ∀ f ∈ c.live, ∀ i < c.heap.usableAt f.pointer,
    h'.memory.byte (f.pointer + i) = c.heap.memory.byte (f.pointer + i)

theorem Tracked.restored (hT : Tracked c w l) (hch : c.heap.Chooses w a pre t post g) (ha : 0 < a)
    (hg : c.heap.GrownBy g h₁) (hb : h'.bare = h₁.bare) (hS : Sound h' (pre ++ t.freed :: post) l₁)
    (hk : Keeps w c.heap h') : c.Restored h₁ h' := by
  have hsize := hg.source.size
  refine ⟨source_of_bare hb, fun hsame => ?_, fun g' hg' hgrown => ?_, fun f hf i hi => ?_⟩
  · rcases hch.restored ha with ⟨-, hw⟩ | ⟨hpos, -⟩
    · exact hT.sound.consists.mirrors (hw ▸ hS.consists)
    · omega
  · obtain rfl : g = g' := by omega
    rcases hch.restored ha with ⟨hzero, -⟩ | ⟨-, hl⟩
    · omega
    · exact ⟨w, _, hT.sound.consists, hl, hS.consists⟩
  · obtain ⟨d, hd, hback⟩ := hT.backed f hf
    obtain ⟨hdw, hal⟩ := mem_allocs.mp hd
    have haddr := hback.addr
    rw [← haddr, hT.usableAt_cell hdw] at hi
    exact hk.cell hdw hal _ ⟨by omega, by omega⟩

/-- In every heap of a client, freeing what was just allocated, and perhaps written to, brings the
blocks and the lists back, with the bytes by which the heap has grown free at the end. -/
theorem Reachable.free_undoes_malloc (hc : Reachable c) (n : Nat) : Ends (malloc n) c.heap fun r h₁ => ∀ p ∈ r,
    ∀ ws : List (Nat × List UInt8), (∀ w ∈ ws, w.1 + w.2.length ≤ h₁.usableAt p) →
      Ends (free (some p)) { h₁ with memory := h₁.memory.writeAll p ws } fun _ => c.Restored h₁ := by
  obtain ⟨w, l, hT⟩ := hc.tracked
  refine (hT.sound.malloc_placed n).mono ?_
  intro r h₁ hr p hp ws hfit
  obtain rfl := Option.mem_def.mp hp
  obtain ⟨a, w₁, g, l₁, ha, ⟨pre, t, post, e, o, hch, rfl, hcut, rfl⟩, hS₁, hg, -, hk₁⟩ := hr
  obtain ⟨-, -, hle, -⟩ := blockSize_eq_some.mp ha
  have hew : e ∈ pre ++ e :: (o.toList ++ post) := by simp
  rw [← hcut.addr] at hfit ⊢
  have husable : h₁.usableAt e.addr = e.size - 16 := by
    rw [Heap.usableAt, Tracked.run_usableSize hS₁.toLaid hew]
    rfl
  rw [husable] at hfit
  have hS₂ := hS₁.writeAll hew hcut.alloc hfit
  refine (hS₂.ends_free_cut hcut (hch.parted hT.sound.parted)).mono ?_
  intro _ h₃ hr
  obtain ⟨⟨l₃, hS₃⟩, hb₃, hk₃⟩ := hr
  refine hT.restored hch (by omega) hg (hb₃.trans (bare_memory _ _)) hS₃ (hk₁.trans ?_)
  have hold : ∀ d ∈ w, d.alloc = true → d ∈ pre ++ post := fun d hd hal =>
    (mem_allocs.mp (hch.allocs_eq ▸ mem_allocs.mpr ⟨hd, hal⟩)).1
  refine ((hS₁.keeps_writeAll hfit).mono fun d hd hal => ?_).trans (hk₃.mono hold)
  rcases List.mem_append.mp (hold d hd hal) with hd | hd
  · exact List.mem_append_left _ hd
  · exact List.mem_append_right _ (List.mem_append_right _ hd)

theorem smallRun_free_undoes_malloc : ∃ h₁, malloc 100 smallRun.heap = .ok (some 4288) h₁ ∧
    Ends (free (some 4288)) { h₁ with memory := h₁.memory.writeAll 4288 [(0, [1, 2]), (99, [3])] } fun _ h' =>
      smallRun.Restored h₁ h' ∧ h₁.source.size = smallRun.heap.source.size + 128 := by
  obtain ⟨hr, hgrown, husable⟩ : smallRun.result (.malloc 100) = some 4288 ∧
      (smallRun.call (.malloc 100)).heap.source.size = smallRun.heap.source.size + 128 ∧
      (smallRun.call (.malloc 100)).heap.usableAt 4288 = 112 := by decide +kernel
  obtain ⟨r, h₁, hrun, hundone⟩ := Reachable.free_undoes_malloc reachable_smallRun 100
  rw [Client.result, show (Call.malloc 100).run smallRun.heap = .ok r h₁ from hrun] at hr
  rw [Client.call, show (Call.malloc 100).run smallRun.heap = .ok r h₁ from hrun] at hgrown husable
  subst hr
  refine ⟨h₁, hrun, (hundone 4288 rfl _ fun w hw => ?_).mono fun _ h' hh => ⟨hh, hgrown⟩⟩
  rw [show h₁.usableAt 4288 = 112 from husable]
  revert w
  decide

/-! ## Growing back -/

theorem Cut.eq_self (hcut : Cut d.addr d.size a e o) (hal : d.alloc = true) (hle : d.size ≤ e.size) :
    e = d ∧ o = none := by
  have hsize := hcut.size
  cases o with
  | none =>
    refine ⟨?_, rfl⟩
    ext
    · exact hcut.addr
    · exact hsize
    · exact hcut.alloc.trans hal.symm
  | some r =>
    have hr := (hcut.rest r rfl).2.1
    have hrs := r.le_size
    simp only [Option.isSome_some, if_true] at hsize
    omega

/-- A cell that gets back its own bytes leaves the others to the cell above it. -/
theorem Cut.eq_above (hcut : Cut d.addr (d.size + Cell.sizeOf above) d.size e o) (hal : d.alloc = true)
    (habove : ∀ f ∈ above, f.alloc = false) (haddr : ∀ f ∈ above, f.addr = d.addr + d.size) :
    e = d ∧ o = above := by
  have hsize := hcut.size
  cases above with
  | none => exact hcut.eq_self hal hcut.le_size
  | some f =>
    have hf := f.le_size
    simp only [Cell.sizeOf, Option.elim_some] at hcut hsize
    cases o with
    | none =>
      -- the free cell above is a block, so what is left over would be one
      have hlt := hcut.whole rfl
      omega
    | some r =>
      obtain ⟨hra, hrs, hrf⟩ := hcut.rest r rfl
      simp only [Option.isSome_some, if_true] at hsize
      refine ⟨?_, congrArg some ?_⟩
      · ext
        · exact hcut.addr
        · exact hsize
        · exact hcut.alloc.trans hal.symm
      · have hfa := haddr f rfl
        ext
        · omega
        · omega
        · exact hrf.trans (habove f rfl).symm

theorem Cut.exists_rest (hcut : Cut d.addr d.size a e o) (hlt : e.size < d.size) : ∃ r, o = some r ∧
    ∀ above, e.size + (Cell.merge none r above).size = d.size + Cell.sizeOf above := by
  have hsize := hcut.size
  have hle := hcut.le
  cases o with
  | none =>
    have he : e.size = d.size := hsize
    omega
  | some r =>
    have he : e.size = a := hsize
    have hr := (hcut.rest r rfl).2.1
    refine ⟨r, rfl, fun above => ?_⟩
    simp only [Cell.merge, Cell.sizeOf, Option.elim_none]
    omega

theorem exists_cut_above {above : Option Cell} (hmod : a % 16 = 0) (hmin : 32 ≤ a)
    (hle : a ≤ d.size + Cell.sizeOf above) : ∃ e o, Cut d.addr (d.size + Cell.sizeOf above) a e o := by
  have hsum := (Cell.merge none d above).size_mod
  simp only [Cell.merge, Cell.sizeOf, Option.elim_none, Nat.zero_add] at hsum
  exact exists_cut d.addr_mod hsum hmod hmin hle

theorem Around.above_addr (hd : Around w p pre d above post) (hw : Abut x w y) :
    ∀ f ∈ above, f.addr = d.addr + d.size := by
  intro f hf
  obtain rfl := Option.mem_def.mp hf
  rw [hd.cells] at hw
  obtain ⟨_, -, haddr, hrest⟩ := abut_append.mp hw
  rw [haddr]
  exact hrest.1

structure Heap.Regrows (h : Heap) (d : Cell) (a b : Nat) (w : List Cell) (h' : Heap) : Prop where
  cell : ∃ w' l' e, Sound h' w' l' ∧ e ∈ w' ∧ e.addr = d.addr ∧ b ≤ e.size ∧ (b = d.size → w' = w)
  bare : h'.bare = h.bare
  bytes : ∀ i, i + 16 < a → h'.memory.byte (d.addr + i) = h.memory.byte (d.addr + i)

namespace Sound

theorem realloc_settles {v : List Cell} (hn : n ≠ 0) (ha : blockSize n = some a)
    (hr : Ends (resize d.block a) h fun r h' => r = true ∧ Sound h' w l ∧ h'.bare = h.bare ∧ Keeps v h h') :
    Ends (realloc (some d.addr) n) h fun r h' => r = some d.addr ∧ Sound h' w l ∧ h'.bare = h.bare ∧ Keeps v h h' := by
  refine (realloc_resized hn ha hr fun h' hq => ⟨_, _, hq.1⟩).mono ?_
  intro _ h' hr
  obtain ⟨rfl, h₁, ⟨hS, hb, hk⟩, hi⟩ := hr
  refine ⟨rfl, hS.idle hi, hi.bare.trans hb, fun x hx => ?_⟩
  rw [hi.memory]
  exact hk x hx

section
variable (hd : Around w p pre d above post) (hcut : Cut d.addr d.size a e o)
  (hS : Sound h (pre ++ e :: ((Cell.absorb o above).toList ++ post)) l)
  (hn : n ≠ 0) (hb : blockSize n = some b)
include hd hcut hS hn hb

theorem realloc_regrows_within (hab : a ≤ b) (hle : b ≤ e.size) :
    Ends (realloc (some p) n) h fun r h' => r = some p ∧ h.Regrows d a b w h' := by
  obtain ⟨rfl, rfl, hal, habove, hpost⟩ := hd
  obtain ⟨-, hmod, hmin, -⟩ := blockSize_eq_some.mp hb
  obtain ⟨e', o', hcut'⟩ := exists_cut e.addr_mod e.size_mod hmod (by omega) hle
  have hrest : ∀ f ∈ Cell.absorb o above, f.alloc = false := by
    intro f hf
    cases o with
    | none => exact habove f hf
    | some r =>
      obtain rfl := Option.some.inj hf
      rfl
  have haddr := hcut.addr
  have haddr' := hcut'.addr
  have hsize' := hcut'.le_size
  rw [← haddr]
  refine (realloc_settles hn hb (hS.resizeDown hcut.alloc hrest hpost hcut')).mono ?_
  intro _ h' hr
  obtain ⟨rfl, hS', hbare, hk⟩ := hr
  refine ⟨rfl, ⟨_, _, e', hS', by simp, haddr'.trans haddr, hsize', fun hbd => ?_⟩, hbare, fun i hi => ?_⟩
  · obtain ⟨rfl, rfl⟩ := hcut.eq_self hal (hbd ▸ hle)
    obtain ⟨rfl, rfl⟩ := hcut'.eq_self hal (hbd ▸ hsize')
    rfl
  · rw [← haddr, ← haddr']
    exact hk.cell List.mem_cons_self hcut'.alloc _ ⟨by omega, by omega⟩

theorem realloc_regrows_beyond (hw : Abut x w y) (hlt : e.size < b) (hle : b ≤ d.size) :
    Ends (realloc (some p) n) h fun r h' => r = some p ∧ h.Regrows d a b w h' := by
  have habove_addr := hd.above_addr hw
  obtain ⟨rfl, rfl, hal, habove, -⟩ := hd
  obtain ⟨-, hmod, hmin, -⟩ := blockSize_eq_some.mp hb
  obtain ⟨r, rfl, hrest⟩ := hcut.exists_rest (Nat.lt_of_lt_of_le hlt hle)
  have htotal := hrest above
  obtain ⟨e', o', hcut'⟩ := exists_cut_above hmod (by omega) (Nat.le_add_right_of_le (k := Cell.sizeOf above) hle)
  have hS' : Sound h (pre ++ e :: Cell.merge none r above :: post) l := hS
  have haddr := hcut.addr
  have hkept := hcut.le_size
  have hcut'' : Cut e.addr (e.size + (Cell.merge none r above).size) b e' o' := by rwa [htotal, haddr]
  rw [← haddr]
  refine (realloc_settles hn hb (hS'.resizeUp hcut.alloc rfl hlt hcut'')).mono ?_
  intro _ h' hr
  obtain ⟨rfl, hS₂, hbare, hk⟩ := hr
  refine ⟨rfl, ⟨_, _, e', hS₂, by simp, hcut'.addr, hcut'.le_size, fun hbd => ?_⟩, hbare, fun i hi => ?_⟩
  · rw [hbd] at hcut'
    obtain ⟨rfl, rfl⟩ := hcut'.eq_above hal habove habove_addr
    rfl
  · rw [← haddr]
    exact hk.cell (by simp) hcut.alloc _ ⟨by omega, by omega⟩

theorem realloc_regrows (hw : Abut x w y) (hab : a ≤ b) (hle : b ≤ d.size) :
    Ends (realloc (some p) n) h fun r h' => r = some p ∧ h.Regrows d a b w h' := by
  by_cases hroom : b ≤ e.size
  · exact realloc_regrows_within hd hcut hS hn hb hab hroom
  · exact realloc_regrows_beyond hd hcut hS hn hb hw (Nat.lt_of_not_le hroom) hle

end

end Sound

structure Heap.Regrown (h : Heap) (p m n : Nat) (h' : Heap) : Prop where
  source : h'.source = h.source
  kept : ∀ i < m, h'.memory.byte (p + i) = h.memory.byte (p + i)
  usable : ∃ u, usableSize p h' = .ok u ∧ n ≤ u
  mirrors : ∀ b, blockSize n = some b → Block.size ⟨p⟩ h = .ok b → h.Mirrors h'

/-- In every heap of a client, a live block that shrinks stays where it is and gives up what makes
a block. It can grow again where it is, to at most its old size; all is as before if that is its
old size. -/
theorem Reachable.shrink_undone (hc : Reachable c) (hp : c.Owns p) {cur : Nat} (hm : 0 < m) (hn : 0 < n)
    (ha : blockSize m = some a) (hb : blockSize n = some b) (hab : a ≤ b) (hcur : Block.size ⟨p⟩ c.heap = .ok cur)
    (hle : b ≤ cur) : Ends (realloc (some p) m) c.heap fun r h₁ => r = some p ∧ h₁.source = c.heap.source ∧
      usableSize p h₁ = .ok ((if a + 32 ≤ cur then a else cur) - 16) ∧
      Ends (realloc (some p) n) h₁ fun r' h₂ => r' = some p ∧ c.heap.Regrown p m n h₂ := by
  obtain ⟨w, l, hT⟩ := hc.tracked
  obtain ⟨d, hdw, hal, rfl⟩ := hT.cell hp
  obtain rfl : d.size = cur := Except.ok.inj ((hT.sound.size hdw).symm.trans hcur)
  obtain ⟨pre, above, post, hd⟩ := hT.sound.parted.exists_around hdw hal
  obtain ⟨-, hmod, hmin, -⟩ := blockSize_eq_some.mp ha
  obtain ⟨-, -, hfit, -⟩ := blockSize_eq_some.mp hb
  obtain ⟨e, o, hcut⟩ := exists_cut d.addr_mod d.size_mod hmod (by omega) (Nat.le_trans hab hle)
  have haddr := hcut.addr
  have hkept := hcut.le_size
  have hshrunk := (hd.cells ▸ hT.sound).resizeDown hal hd.above hd.post hcut
  refine (Sound.realloc_settles (by omega) ha hshrunk).mono ?_
  intro _ h₁ hr
  obtain ⟨rfl, hS₁, hb₁, hk₁⟩ := hr
  refine ⟨rfl, source_of_bare hb₁, ?_, (hS₁.realloc_regrows hd hcut (Nat.ne_of_gt hn) hb hT.sound.abut hab hle).mono ?_⟩
  · rw [← haddr, ← hcut.size_eq]
    exact Tracked.run_usableSize hS₁.toLaid (by simp)
  intro _ h₂ hr
  obtain ⟨rfl, ⟨w₂, l₂, f, hS₂, hf, hfaddr, hfsize, hsame⟩, hb₂, hbytes⟩ := hr
  refine ⟨rfl, source_of_bare (hb₂.trans hb₁), fun i hi => ?_, ⟨f.size - 16, ?_, by omega⟩, fun b' hb' hs => ?_⟩
  · rw [hbytes i (by omega), ← haddr]
    exact hk₁.cell List.mem_cons_self hcut.alloc _ ⟨by omega, by omega⟩
  · rw [← hfaddr]
    exact Tracked.run_usableSize hS₂.toLaid hf
  · obtain rfl : b = b' := Option.some.inj (hb.symm.trans hb')
    obtain rfl := hsame (Except.ok.inj (hs.symm.trans hcur))
    exact hT.sound.consists.mirrors hS₂.consists

/-- The block gives up 48 bytes to the free one after it, and takes them back. -/
theorem smallRun_shrink_undone : usableSize 4208 smallRun.heap = .ok 64 ∧
    Ends (realloc (some 4208) 16) smallRun.heap fun r h₁ => r = some 4208 ∧ usableSize 4208 h₁ = .ok 16 ∧
      Ends (realloc (some 4208) 60) h₁ fun r' h₂ => r' = some 4208 ∧ smallRun.heap.Regrown 4208 16 60 h₂ ∧
        smallRun.heap.Mirrors h₂ := by
  obtain ⟨howns, hcur, husable⟩ : smallRun.Owns 4208 ∧ Block.size ⟨4208⟩ smallRun.heap = .ok 80 ∧
      usableSize 4208 smallRun.heap = .ok 64 := by decide +kernel
  refine ⟨husable, (Reachable.shrink_undone reachable_smallRun howns (by decide) (by decide)
    (by decide : blockSize 16 = some 32) (by decide : blockSize 60 = some 80) (by decide) hcur (by decide)).mono ?_⟩
  intro r h₁ hr
  obtain ⟨hp, -, hshrunk, hgrown⟩ := hr
  exact ⟨hp, hshrunk, hgrown.mono fun r' h₂ hr' => ⟨hr'.1, hr'.2, hr'.2.mirrors 80 (by decide) hcur⟩⟩

end SegregatedFit
