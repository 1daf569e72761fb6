import SegregatedFit.Proofs.Cell
import SegregatedFit.Proofs.Growth

/-!
# Tags in memory

`Stretch` says that cells lie end to end in a memory with both of their tags in
place, and `Tiles` that such a stretch ends at the epilogue. Either is kept by
changes to bytes that cells hold, and is taken apart and put together at any
boundary between cells.
-/

namespace SegregatedFit

variable {m m' : Memory} {a a' top : Nat} {p p' : Bool} {w xs ys : List Cell} {c : Cell}

structure Cell.TaggedIn (c : Cell) (m : Memory) (p : Bool) : Prop where
  header : m.word (c.addr - 8) = (c.tag p).bits
  footer : m.word (c.addr + c.size - 16) = (c.tag p).bits

/-- The cells lie end to end from `a` to `a'`; `p` and `p'` are the states of the
blocks before `a` and before `a'`. -/
def Stretch (m : Memory) : Nat → Bool → List Cell → Nat → Bool → Prop
  | a, p, [], a', p' => a = a' ∧ p = p'
  | a, p, c :: cs, a', p' => c.addr = a ∧ c.TaggedIn m p ∧ Stretch m (a + c.size) c.alloc cs a' p'

def Tiles (m : Memory) (top a : Nat) (p : Bool) (w : List Cell) : Prop :=
  ∃ q, Stretch m a p w top q ∧ m.word (top - 8) = (Tag.pack 0 true q).bits

theorem stretch_append : ∀ {xs : List Cell} {a : Nat} {p : Bool},
    Stretch m a p (xs ++ ys) a' p' ↔ ∃ b q, Stretch m a p xs b q ∧ Stretch m b q ys a' p'
  | [], a, p => by
    constructor
    · intro h; exact ⟨a, p, ⟨rfl, rfl⟩, h⟩
    · intro hr
      obtain ⟨_, _, ⟨rfl, rfl⟩, h⟩ := hr
      exact h
  | c :: xs, a, p => by
    rw [List.cons_append, Stretch, stretch_append]
    simp only [Stretch]
    constructor
    · intro hr
      obtain ⟨hc, ht, b, q, hb, hy⟩ := hr
      exact ⟨b, q, ⟨hc, ht, hb⟩, hy⟩
    · intro hr
      obtain ⟨b, q, ⟨hc, ht, hb⟩, hy⟩ := hr
      exact ⟨hc, ht, b, q, hb, hy⟩

theorem tiles_append : Tiles m top a p (xs ++ ys) ↔
    ∃ b q, Stretch m a p xs b q ∧ Tiles m top b q ys := by
  unfold Tiles
  constructor
  · intro hr
    obtain ⟨q, hs, he⟩ := hr
    obtain ⟨b, r, hx, hy⟩ := stretch_append.mp hs
    exact ⟨b, r, hx, q, hy, he⟩
  · intro hr
    obtain ⟨b, r, hx, q, hy, he⟩ := hr
    exact ⟨q, stretch_append.mpr ⟨b, r, hx, hy⟩, he⟩

theorem tiles_nil : Tiles m top a p [] ↔ a = top ∧ m.word (a - 8) = (Tag.pack 0 true p).bits := by
  unfold Tiles
  constructor
  · intro hr
    obtain ⟨q, ⟨rfl, rfl⟩, he⟩ := hr
    exact ⟨rfl, he⟩
  · intro hr
    obtain ⟨rfl, he⟩ := hr
    exact ⟨p, ⟨rfl, rfl⟩, he⟩

theorem tiles_cons : Tiles m top a p (c :: w) ↔
    c.addr = a ∧ c.TaggedIn m p ∧ Tiles m top (a + c.size) c.alloc w := by
  unfold Tiles
  constructor
  · intro hr
    obtain ⟨q, ⟨hc, ht, hs⟩, he⟩ := hr
    exact ⟨hc, ht, q, hs, he⟩
  · intro hr
    obtain ⟨hc, ht, q, hs, he⟩ := hr
    exact ⟨q, ⟨hc, ht, hs⟩, he⟩

theorem Stretch.abut : ∀ {w : List Cell} {a : Nat} {p : Bool}, Stretch m a p w a' p' → Abut a w a'
  | [], _, _, h => h.1
  | _ :: _, _, _, h => ⟨h.1, h.2.2.abut⟩

theorem Tiles.abut (h : Tiles m top a p w) : Abut a w top := h.choose_spec.1.abut

theorem Stretch.last : ∀ {w : List Cell} {a : Nat} {p : Bool}, Stretch m a p w a' p' →
    p' = (w.getLast?.map Cell.alloc).getD p
  | [], _, _, h => by simp [h.2]
  | c :: w, _, _, h => by
    rw [h.2.2.last, List.getLast?_cons]
    cases w.getLast? <;> rfl

/-! ## Changes that keep the tags -/

theorem Cell.TaggedIn.congr (h : c.TaggedIn m p) (hc : 8 ≤ c.addr)
    (hk : ∀ x, c.TagByte x → m'.byte x = m.byte x) : c.TaggedIn m' p := by
  have := c.le_size
  refine ⟨?_, ?_⟩
  · rw [← h.header]
    exact Memory.word_congr fun x _ _ => hk x (.inl ⟨by omega, by omega⟩)
  · rw [← h.footer]
    exact Memory.word_congr fun x _ _ => hk x (.inr ⟨by omega, by omega⟩)

/-- A stretch is kept if its bytes are, those held by its cells apart. -/
theorem Stretch.congr : ∀ {w : List Cell} {a : Nat} {p : Bool}, Stretch m a p w a' p' → 8 ≤ a →
    (∀ x, a ≤ x + 8 → x + 8 < a' → (∀ c ∈ w, ¬ c.Holds x) → m'.byte x = m.byte x) →
    Stretch m' a p w a' p'
  | [], _, _, h, _, _ => h
  | c :: w, a, p, ⟨hc, ht, hs⟩, ha, hk => by
    have hle := hs.abut.le
    have hsz := c.le_size
    have hafter : ∀ x, x + 8 < a + c.size → ∀ d ∈ w, ¬ d.Holds x := fun x hx d hd hh => by
      have := hs.abut.bounds d hd
      have := hh.1; omega
    refine ⟨hc, ht.congr (by omega) fun x hx => ?_, ?_⟩
    · have hx₁ : a ≤ x + 8 ∧ x + 8 < a + c.size := by unfold Cell.TagByte at hx; omega
      refine hk x hx₁.1 (by omega) fun d hd => ?_
      rcases List.mem_cons.mp hd with rfl | hd
      · exact fun hh => hh.not_tagByte hx
      · exact hafter x hx₁.2 d hd
    · refine hs.congr (by omega) fun x hx hx' hh => hk x (by omega) hx' fun d hd => ?_
      rcases List.mem_cons.mp hd with rfl | hd
      · intro hc'; have := hc'.2; omega
      · exact hh d hd

theorem Tiles.congr (h : Tiles m top a p w) (ha : 8 ≤ a)
    (hk : ∀ x, a ≤ x + 8 → x < top → (∀ c ∈ w, ¬ c.Holds x) → m'.byte x = m.byte x) :
    Tiles m' top a p w := by
  obtain ⟨q, hs, he⟩ := h
  have hle := hs.abut.le
  refine ⟨q, hs.congr ha fun x hx hx' hh => hk x hx (by omega) hh, ?_⟩
  rw [← he]
  refine Memory.word_congr fun x _ _ => hk x (by omega) (by omega) fun c hc hh => ?_
  have := hs.abut.bounds c hc
  have := hh.2; omega

/-! ## Writing tags -/

def Memory.putTag (m : Memory) (a : Nat) (t : Tag) : Memory :=
  (m.setWord (a - 8) t.bits).setWord (a + t.size - 16) t.bits

theorem Cell.byte_putTag {x : Nat} (hc : 8 ≤ c.addr) (hx : ¬ c.TagByte x) :
    (m.putTag c.addr (c.tag p)).byte x = m.byte x := by
  have := c.le_size
  unfold Memory.putTag Cell.TagByte at *
  rw [c.size_tag, Memory.byte_setWord_outside _ _ (by omega),
    Memory.byte_setWord_outside _ _ (by omega)]

theorem Cell.taggedIn_putTag (hc : 8 ≤ c.addr) (hs : c.size < wordLimit) :
    c.TaggedIn (m.putTag c.addr (c.tag p)) p := by
  have := c.le_size
  have hb := c.bits_tag_lt p hs
  unfold Memory.putTag
  rw [size_tag]
  refine ⟨?_, Memory.word_setWord_same _ _ hb⟩
  rw [Memory.word_setWord_disjoint _ _ (by omega), Memory.word_setWord_same _ _ hb]

theorem Stretch.snoc (h : Stretch m a p w c.addr p') (ha : 8 ≤ a) (hs : c.size < wordLimit) :
    Stretch (m.putTag c.addr (c.tag p')) a p (w ++ [c]) (c.addr + c.size) c.alloc := by
  have hle := h.abut.le
  have hsz := c.le_size
  refine stretch_append.mpr ⟨c.addr, p', h.congr ha fun x _ hx _ => ?_, ?_⟩
  · exact c.byte_putTag (by omega) (Cell.not_tagByte_of_outside (.inl hx))
  · exact ⟨rfl, c.taggedIn_putTag (by omega) hs, rfl, rfl⟩

theorem Tiles.putTag_below (h : Tiles m top a p w) (hc : 8 ≤ c.addr) (hca : c.addr + c.size ≤ a) :
    Tiles (m.putTag c.addr (c.tag p')) top a p w := by
  have hsz := c.le_size
  exact h.congr (by omega) fun x hx _ _ =>
    c.byte_putTag hc (Cell.not_tagByte_of_outside (.inr (by omega)))

/-! ## Tags in a heap -/

structure Heap.Founded (h : Heap) : Prop where
  source : h.source.Settled
  first : h.first = ⟨h.source.lo + 32⟩
  le_chunk : 32 ≤ h.chunkSize
  chunk_mod : h.chunkSize % 16 = 0
  chunk_lt : h.chunkSize < wordLimit

theorem Heap.Founded.top_lt {h : Heap} (hf : h.Founded) : h.top < wordLimit := hf.source.top_lt

theorem Heap.Founded.of_bare {h h' : Heap} (hf : h.Founded) (hb : h'.bare = h.bare) : h'.Founded := by
  have hfirst : h'.bare.first = h.bare.first := congrArg Heap.first hb
  have hchunk : h'.bare.chunkSize = h.bare.chunkSize := congrArg Heap.chunkSize hb
  change h'.first = h.first at hfirst
  change h'.chunkSize = h.chunkSize at hchunk
  have hs := source_of_bare hb
  exact ⟨hs ▸ hf.source, by rw [hfirst, hs]; exact hf.first, hchunk ▸ hf.le_chunk,
    hchunk ▸ hf.chunk_mod, hchunk ▸ hf.chunk_lt⟩

namespace Block

theorem headerAddr_eq {b : Block} (hb : 8 ≤ b.payload) : b.headerAddr = b.payload - 8 :=
  wrapSub_of_le hb

theorem after_eq {b : Block} {n : Nat} (hn : b.payload + n < wordLimit) :
    b.after n = ⟨b.payload + n⟩ := by
  rw [after, wrapAdd_of_lt hn]

theorem before_eq {b : Block} {n : Nat} (hn : n ≤ b.payload) : b.before n = ⟨b.payload - n⟩ := by
  rw [before, wrapSub_of_le hn]

theorem footerAddr_eq {b : Block} {n : Nat} (hn : b.payload + n < wordLimit)
    (h : 16 ≤ b.payload + n) : b.footerAddr n = b.payload + n - 16 := by
  rw [footerAddr, wrapAdd_of_lt hn]
  exact wrapSub_of_le h

end Block

variable {h : Heap}

theorem run_setHeader {b : Block} {t : Tag} (hb : 8 ≤ b.payload)
    (hp : h.permits (b.payload - 8) wordSize = true) :
    b.setHeader t h = .ok () { h with memory := h.memory.setWord (b.payload - 8) t.bits } := by
  rw [Block.setHeader, Block.headerAddr_eq hb]
  exact run_store hp

theorem run_setFooter {b : Block} {t u : Tag} (hu : b.header h = .ok u)
    (hn : b.payload + u.size < wordLimit) (hs : 16 ≤ b.payload + u.size)
    (hp : h.permits (b.payload + u.size - 16) wordSize = true) :
    b.setFooter t h =
      .ok () { h with memory := h.memory.setWord (b.payload + u.size - 16) t.bits } := by
  rw [Block.setFooter, run_bind_query hu, Block.footerAddr_eq hn hs]
  exact run_store hp

theorem run_setTags {b : Block} {t : Tag} (hlo : h.source.lo + 8 ≤ b.payload) (hs : 16 ≤ t.size)
    (hhi : b.payload + t.size ≤ h.top) (htop : h.top < wordLimit) (ht : t.bits < wordLimit) :
    b.setTags t h = .ok () { h with memory := h.memory.putTag b.payload t } := by
  have hp : h.permits (b.payload - 8) wordSize = true := permits_word (by omega) (by omega)
  have hp' : h.permits (b.payload + t.size - 16) wordSize = true :=
    permits_word (by omega) (by omega)
  have hhead : b.header { h with memory := h.memory.setWord (b.payload - 8) t.bits } = .ok t := by
    rw [run_header (by rw [Block.headerAddr_eq (by omega), permits_memory]; exact hp),
      Block.headerAddr_eq (by omega), Memory.word_setWord_same _ _ ht]
  refine (run_bind (run_setHeader (by omega) hp)).trans ?_
  exact run_setFooter hhead (by omega) (by omega) (by rw [permits_memory]; exact hp')

theorem ends_setTags {b : Block} {t : Tag} (hlo : h.source.lo + 8 ≤ b.payload) (hs : 16 ≤ t.size)
    (hhi : b.payload + t.size ≤ h.top) (htop : h.top < wordLimit) (ht : t.bits < wordLimit) :
    Ends (b.setTags t) h fun _ h' =>
      h'.bare = h.bare ∧ h'.heads = h.heads ∧ h'.memory = h.memory.putTag b.payload t :=
  ⟨(), _, run_setTags hlo hs hhi htop ht, bare_memory _ _, rfl, rfl⟩

theorem Cell.ends_setTags (hlo : h.source.lo + 8 ≤ c.addr) (hhi : c.addr + c.size ≤ h.top)
    (htop : h.top < wordLimit) (p : Bool) :
    Ends (c.block.setTags (c.tag p)) h fun _ h' => h'.heads = h.heads ∧
      h'.memory = h.memory.putTag c.addr (c.tag p) ∧ Touches h h' c.TagByte := by
  have hs := c.size_tag p
  have hsz := c.le_size
  refine (SegregatedFit.ends_setTags (b := c.block) (t := c.tag p) hlo (by omega) ?_ htop
    (c.bits_tag_lt p (by omega))).mono ?_
  · rw [hs]; exact hhi
  · intro _ h' hr
    obtain ⟨hb, hh, hm⟩ := hr
    refine ⟨hh, hm, hb, fun x hx => ?_⟩
    rw [hm]
    exact c.byte_putTag (by omega) hx

/-! ## Looking at cells -/

structure Cell.Stands (c : Cell) (h : Heap) (p : Bool) : Prop where
  tagged : c.TaggedIn h.memory p
  le_addr : h.source.lo + 8 ≤ c.addr
  end_le : c.addr + c.size ≤ h.top
  top_lt : h.top < wordLimit

theorem Tiles.stands (ht : Tiles h.memory h.top a p (c :: w)) (ha : h.source.lo + 8 ≤ a)
    (htop : h.top < wordLimit) : c.Stands h p := by
  have hb := ht.abut.bounds c (by simp)
  obtain ⟨rfl, hc, _⟩ := tiles_cons.mp ht
  exact ⟨hc, ha, hb.2, htop⟩

theorem Tiles.stands_of_mem (ht : Tiles h.memory h.top a p w) (ha : h.source.lo + 8 ≤ a)
    (htop : h.top < wordLimit) (hc : c ∈ w) : ∃ q, c.Stands h q := by
  obtain ⟨xs, ys, rfl⟩ := List.append_of_mem hc
  obtain ⟨b, q, hx, hy⟩ := tiles_append.mp ht
  have := hx.abut.le
  exact ⟨q, hy.stands (by omega) htop⟩

namespace Cell.Stands

theorem header (hc : c.Stands h p) : c.block.header h = .ok (c.tag p) := by
  have := hc.le_addr; have := hc.end_le; have := c.le_size
  have ha : c.block.headerAddr = c.addr - 8 := Block.headerAddr_eq (by simp only [block]; omega)
  rw [run_header (by rw [ha]; exact permits_word (by omega) (by omega)), ha, hc.tagged.header]

theorem size (hc : c.Stands h p) : c.block.size h = .ok c.size := by
  rw [Block.size, query_bind hc.header, c.size_tag]; rfl

theorem next (hc : c.Stands h p) : c.block.next h = .ok ⟨c.addr + c.size⟩ := by
  have := hc.end_le; have := hc.top_lt
  have ha : c.block.after c.size = ⟨c.addr + c.size⟩ :=
    Block.after_eq (by simp only [block]; omega)
  rw [Block.next, query_bind hc.size, ha]; rfl

theorem payloadSize (hc : c.Stands h p) : c.block.payloadSize h = .ok (c.size - 16) := by
  rw [Block.payloadSize, query_bind hc.size]; rfl

theorem footer (hc : c.Stands h p) : c.block.footer h = .ok (c.tag p) := by
  have := hc.le_addr; have := hc.end_le; have := hc.top_lt; have := c.le_size
  have ha : c.block.footerAddr c.size = c.addr + c.size - 16 :=
    Block.footerAddr_eq (by simp only [block]; omega) (by simp only [block]; omega)
  rw [Block.footer, query_bind hc.header, size_tag, ha,
    query_bind (run_load (permits_word (by omega) (by omega))), hc.tagged.footer]; rfl

theorem asFree (hc : c.Stands h p) :
    c.block.asFree h = .ok (if c.alloc then none else some c.block) := by
  rw [Block.asFree, query_bind hc.header, isAlloc_tag]; rfl

theorem prev (hc : c.Stands h p) : (⟨c.addr + c.size⟩ : Block).prev h = .ok c.block := by
  have := hc.le_addr; have := hc.end_le; have := hc.top_lt; have := c.le_size
  have ha : (⟨c.addr + c.size⟩ : Block).precedingFooterAddr = c.addr + c.size - 16 :=
    wrapSub_of_le (by simp only [overhead]; omega)
  have hb : (⟨c.addr + c.size⟩ : Block).before c.size = c.block := by
    rw [Block.before_eq (by simp), Nat.add_sub_cancel]; rfl
  rw [Block.prev, ha, query_bind (run_load (permits_word (by omega) (by omega))), hc.tagged.footer,
    ← hb, ← c.size_tag p]; rfl

end Cell.Stands

/-! ## The block at a boundary -/

def firstFree (w : List Cell) : Option Cell := w.head?.filter (!·.alloc)

theorem Tiles.asFree (ht : Tiles h.memory h.top a p w) (ha : h.source.lo + 8 ≤ a)
    (htop : h.top < wordLimit) :
    (⟨a⟩ : Block).asFree h = .ok ((firstFree w).map Cell.block) := by
  cases w with
  | nil =>
    obtain ⟨rfl, he⟩ := tiles_nil.mp ht
    have h8 : 8 ≤ h.top := by omega
    have hh : (⟨h.top⟩ : Block).headerAddr = h.top - 8 := Block.headerAddr_eq h8
    have hp : h.permits (h.top - 8) wordSize = true := permits_word (by omega) (by omega)
    rw [Block.asFree, query_bind (run_header (by rw [hh]; exact hp)), hh, he]
    show Except.ok (if (Tag.pack 0 true p).isAlloc then none else some _) = _
    rw [Tag.isAlloc_pack]; rfl
  | cons c w =>
    have hc := (tiles_cons.mp ht).1
    have := (ht.stands ha htop).asFree
    rw [Cell.block, hc] at this
    rw [this, firstFree, List.head?_cons, Option.filter_some]
    cases c.alloc <;> simp [Cell.block, hc]

def FirstTagByte (w : List Cell) (top x : Nat) : Prop :=
  (w = [] ∧ top ≤ x + 8 ∧ x < top) ∨ ∃ c ∈ w.head?, c.TagByte x

theorem not_firstTagByte {x : Nat} (hw : Abut a w top) (hx : x + 8 < a ∨ ∃ d ∈ w, d.Holds x) :
    ¬ FirstTagByte w top x := by
  intro hr
  rcases hr with ⟨rfl, hx₁, -⟩ | ⟨c, hc, hcx⟩
  · rcases hx with hx | ⟨d, hd, -⟩
    · have : a = top := hw
      omega
    · cases hd
  · cases w with
    | nil => cases hc
    | cons c' w =>
      obtain rfl : c' = c := Option.some.inj hc
      rcases hx with hx | ⟨d, hd, hdx⟩
      · exact Cell.not_tagByte_of_outside (.inl (by have := hw.1; omega)) hcx
      · rcases List.mem_cons.mp hd with rfl | hd
        · exact hdx.not_tagByte hcx
        · have := hw.2.bounds d hd
          have := hdx.1
          exact Cell.not_tagByte_of_outside (.inr (by have := hw.1; omega)) hcx

theorem Tiles.setPrevAlloc (ht : Tiles h.memory h.top a p w) (ha : h.source.lo + 8 ≤ a)
    (htop : h.top < wordLimit) (q : Bool) :
    Ends ((⟨a⟩ : Block).setPrevAlloc q) h fun _ h' => h'.heads = h.heads ∧
      Tiles h'.memory h.top a q w ∧ Touches h h' (FirstTagByte w h.top) := by
  cases w with
  | nil =>
    obtain ⟨rfl, he⟩ := tiles_nil.mp ht
    have h8 : 8 ≤ h.top := by omega
    have hh : (⟨h.top⟩ : Block).headerAddr = h.top - 8 := Block.headerAddr_eq h8
    have hp : h.permits (h.top - 8) wordSize = true := permits_word (by omega) (by omega)
    have hhead : (⟨h.top⟩ : Block).header h = .ok (.pack 0 true p) := by
      rw [run_header (by rw [hh]; exact hp), hh, he]
    have ht' : (Tag.pack 0 true p).withPrevAlloc q = .pack 0 true q := by
      simp [Tag.withPrevAlloc]
    refine Ends.query hhead ?_
    rw [ht']; dsimp only
    rw [if_neg (by simp)]
    refine Ends.step (run_setHeader (b := ⟨h.top⟩) h8 hp) (Ends.pure ⟨rfl, ?_, ?_⟩)
    · exact tiles_nil.mpr ⟨rfl, Memory.word_setWord_same _ _ (Tag.bits_pack_lt (by decide) ..)⟩
    · exact (touches_setWord h (h.top - 8) _).mono fun x hx => .inl ⟨rfl, by omega, by omega⟩
  | cons c w =>
    have hst := ht.stands ha htop
    have hle := hst.end_le
    have hsz := c.le_size
    obtain ⟨rfl, hc, hw⟩ := tiles_cons.mp ht
    refine Ends.query hst.header ?_
    have hne : (c.tag q).size ≠ 0 := by rw [c.size_tag]; omega
    rw [c.withPrevAlloc_tag]; dsimp only
    rw [if_pos hne]
    refine (c.ends_setTags ha hle htop q).mono ?_
    intro _ h' hr
    obtain ⟨hh, hm, ht'⟩ := hr
    refine ⟨hh, tiles_cons.mpr ⟨rfl, ?_, ?_⟩, ht'.mono fun x hx => .inr ⟨c, rfl, hx⟩⟩ <;> rw [hm]
    · exact c.taggedIn_putTag (by omega) (by omega)
    · exact hw.putTag_below (by omega) (Nat.le_refl _)

end SegregatedFit
