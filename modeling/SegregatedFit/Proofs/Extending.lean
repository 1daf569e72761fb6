import SegregatedFit.Proofs.Inspecting

/-!
# Extending

New bytes follow the epilogue, whose place is taken by the header of the cell that
they become. The cell is merged with the last one if that is free. A heap is laid
out by extending one that has no cells.
-/

namespace SegregatedFit

structure Heap.GrownBy (h : Heap) (n : Nat) (h' : Heap) : Prop where
  source : h.source.Grown n h'.source
  first : h'.first = h.first
  chunkSize : h'.chunkSize = h.chunkSize
  checks : h'.checks = h.checks
  guarded : h'.guarded = h.guarded

variable {h h' h₁ h₂ : Heap} {w lo : List Cell} {l : Lists} {c : Cell} {below : Option Cell} {n : Nat}

namespace Heap.GrownBy

theorem of_bare (hb : h'.bare = h.bare) : h.GrownBy 0 h' where
  source := by rw [source_of_bare hb]; exact .refl _
  first := (congrArg Heap.first hb : h'.bare.first = h.bare.first)
  chunkSize := (congrArg Heap.chunkSize hb : h'.bare.chunkSize = h.bare.chunkSize)
  checks := (congrArg Heap.checks hb : h'.bare.checks = h.bare.checks)
  guarded := (congrArg Heap.guarded hb : h'.bare.guarded = h.bare.guarded)

theorem trans {m : Nat} (hm : h.GrownBy m h₁) (hn : h₁.GrownBy n h₂) : h.GrownBy (m + n) h₂ where
  source := hm.source.trans hn.source
  first := hn.first.trans hm.first
  chunkSize := hn.chunkSize.trans hm.chunkSize
  checks := hn.checks.trans hm.checks
  guarded := hn.guarded.trans hm.guarded

theorem trans_bare (hg : h.GrownBy n h₁) (hb : h₂.bare = h₁.bare) : h.GrownBy n h₂ := hg.trans (.of_bare hb)

theorem top (hg : h.GrownBy n h') : h'.top = h.top + n := by
  unfold Heap.top
  rw [hg.source.lo, hg.source.size, Nat.add_assoc]

theorem permits (hg : h.GrownBy n h') {addr len : Nat} (hp : h.permits addr len = true) :
    h'.permits addr len = true := by
  have htop := hg.top
  unfold Heap.top at htop
  unfold Heap.permits at *
  rw [hg.guarded, hg.source.lo]
  rw [hg.source.lo] at htop
  simp only [Bool.or_eq_true, Bool.and_eq_true, decide_eq_true_eq] at *
  exact hp.imp_right fun ⟨h₁, h₂⟩ => ⟨h₁, by omega⟩

theorem founded (hg : h.GrownBy n h') (hf : h.Founded) (hn : h.source.size + n ≤ h.source.capacity) :
    h'.Founded :=
  ⟨hg.source.settled hf.source hn, by rw [hg.first, hg.source.lo]; exact hf.first,
    hg.chunkSize ▸ hf.le_chunk, hg.chunkSize ▸ hf.chunk_mod, hg.chunkSize ▸ hf.chunk_lt⟩

theorem linked (hg : h.GrownBy n h') (hl : Linked h l) (hm : h'.memory = h.memory)
    (hh : h'.heads = h.heads) (hj : h'.inserted = h.inserted) : Linked h' l where
  heads := hh ▸ hl.heads
  threads := hm ▸ hl.threads
  nodup := hl.nodup
  once := hl.once
  apart := hl.apart
  node hb := ⟨(hl.node hb).pos, (hl.node hb).le, hg.permits (hl.node hb).reach⟩
  dated := hj ▸ hl.dated

end Heap.GrownBy

theorem Laid.snoc {q : Bool} (hL : Laid h w l) (hg : h.GrownBy c.size h') (hf : h'.Founded)
    (hh : h'.heads = h.heads) (hj : h'.inserted = h.inserted) (hc : c.addr = h.top) (hcf : c.alloc = false)
    (hs : Stretch h.memory (h.source.lo + 32) true w h.top q) (htag : c.TaggedIn h'.memory q)
    (he : h'.memory.word (c.addr + c.size - 8) = (Tag.pack 0 true false).bits)
    (hk : ∀ x, x + 8 < h.top → h'.memory.byte x = h.memory.byte x) : Laid h' (w ++ [c]) l := by
  refine ⟨hf, ⟨false, ?_, ?_⟩, ?_, fun k b hb => ?_⟩
  · rw [hg.source.lo, hg.top]
    refine stretch_append.mpr ⟨h.top, q, hs.congr (by omega) fun x _ hx _ => hk x hx, hc, htag, rfl, hcf⟩
  · rw [hg.top, ← hc, he]
  · have hold := (hg.trans_bare (bare_memory h' h.memory)).linked hL.linked rfl hh hj
    refine hold.congr (bare_memory h' h.memory).symm rfl rfl fun b hb x _ hx => hk x ?_
    obtain ⟨d, hd, rfl, -⟩ := hL.cell hb
    have hbound := hL.abut.bounds d hd
    have hsize := d.le_size
    simp only [Cell.block] at hx
    omega
  · obtain ⟨d, hd, hdb⟩ := hL.filed k b hb
    exact ⟨d, List.mem_append_left _ hd, hdb⟩

theorem Laid.lengthen {β : Type} {f : Action β} {Q : β → Heap → Prop} (hL : Laid h w l)
    (hg : h.GrownBy c.size h₁) (hf : h₁.Founded) (hm : h₁.memory = h.memory) (hh : h₁.heads = h.heads)
    (hj : h₁.inserted = h.inserted)
    (hc : c.addr = h.top) (hcf : c.alloc = false)
    (hrest : ∀ h₂, Laid h₂ (w ++ [c]) l → h₂.bare = h₁.bare → Keeps w h₁ h₂ → Ends f h₂ Q) :
    Ends (do
        c.block.formatFree c.size (← c.block.header).prevAlloc
        (← c.block.next).formatEpilogue false
        f) h₁ Q := by
  have htop := hg.top
  have hlt := hf.top_lt
  have hsz := c.le_size
  have hlo : h₁.source.lo + 32 ≤ c.addr := by rw [hg.source.lo, hc]; exact hL.abut.le
  obtain ⟨q, hs, he⟩ := hL.tiles
  rw [← hm, ← hc] at he
  have ha : c.block.headerAddr = c.addr - 8 := Block.headerAddr_eq (by simp only [Cell.block]; omega)
  have hhead : c.block.header h₁ = .ok (.pack 0 true q) := by
    rw [run_header (by rw [ha]; exact permits_word (by omega) (by omega)), ha, he]
  refine Ends.query hhead ?_
  rw [Tag.prevAlloc_pack]
  have hput := c.ends_setTags (h := h₁) (by omega) (by omega) hlt q
  have htag : Tag.pack c.size false q = c.tag q := by rw [Cell.tag, hcf]
  rw [← htag] at hput
  refine Ends.bind ((Ends.demand c.le_size hput).quiet (Quiet.formatFree _ _ _)) ?_
  intro _ h₂ hr
  obtain ⟨⟨hh₂, hm₂, ht₂⟩, hj₂⟩ := hr
  rw [htag] at hm₂
  have hs₂ := source_of_bare ht₂.bare
  have htop₂ := top_of_bare ht₂.bare
  have hst : c.Stands h₂ q :=
    ⟨hm₂ ▸ c.taggedIn_putTag (by omega) (by omega), by rw [hs₂]; omega, by omega, by omega⟩
  refine Ends.query hst.next ?_
  refine Ends.step (run_setHeader (by simp only; omega) (permits_word (by rw [hs₂]; simp only; omega)
    (by simp only; omega))) ?_
  generalize hw : Tag.bits (.pack 0 true false) = word
  have hbare := (bare_memory h₂ (h₂.memory.setWord (c.addr + c.size - 8) word)).trans ht₂.bare
  have hbyte : ∀ x, x + 8 < c.addr + c.size → (h₂.memory.setWord (c.addr + c.size - 8) word).byte x =
      h₂.memory.byte x := fun x hx => Memory.byte_setWord_outside _ _ (by omega)
  -- everything written lies above the old cells
  have hold : ∀ x, x + 8 < c.addr → (h₂.memory.setWord (c.addr + c.size - 8) word).byte x =
      h₁.memory.byte x := fun x hx =>
    (hbyte x (by omega)).trans (ht₂.byte x (Cell.not_tagByte_of_outside (.inl hx)))
  refine hrest _ (hL.snoc (hg.trans_bare hbare) (hf.of_bare hbare) (hh₂.trans hh) (hj₂.trans hj) hc hcf hs ?_ ?_ ?_) hbare ?_
  · exact hst.tagged.congr (by omega) fun x hx => hbyte x (by unfold Cell.TagByte at hx; omega)
  · rw [hw]
    exact Memory.word_setWord_same _ _ (hw ▸ Tag.bits_pack_lt (by decide) ..)
  · exact fun x hx => (hold x (hc ▸ hx)).trans (by rw [hm])
  · intro x hx
    obtain ⟨d, hd, -, hdx⟩ := hx
    have hbound := (hs.abut.bounds d hd).2
    have hend := hdx.2
    exact hold x (by omega)

theorem Laid.not_has_top (hL : Laid h w l) (hc : c.addr = h.top) : ¬ l.Has c.block := by
  intro hb
  obtain ⟨d, hd, hdc, -⟩ := hL.cell hb
  have haddr := Cell.block_inj.mp hdc
  have hbound := hL.abut.bounds d hd
  have hsize := d.le_size
  omega

theorem Laid.exists_cell_at_top (hL : Laid h w l) (hn : 32 ≤ n) :
    ∃ c : Cell, c.addr = h.top ∧ c.size = alignUpOrMax n ∧ c.alloc = false := by
  have hmod := hL.founded.source.lo_mod
  have hle : 32 ≤ alignUpOrMax n := by
    unfold alignUpOrMax
    cases hu : alignUp n with
    | none => decide
    | some m => exact Nat.le_trans hn (alignUp_eq_some.mp hu).2.2.1
  exact ⟨⟨h.top, alignUpOrMax n, false, hL.abut.end_mod (by omega), alignUpOrMax_mod n, hle⟩, rfl, rfl, rfl⟩

namespace Sound

theorem extend_granted (hS : Sound h (lo ++ below.toList) l) (hf : Fenced lo below none [])
    (hc : c.addr = h.top) (hcs : c.size = alignUpOrMax n) (hcf : c.alloc = false)
    (hroom : h.source.size + c.size ≤ h.source.capacity) :
    Ends (extend n) h fun r h' => r = .ok (Cell.merge below c none).block ∧
      Sound h' (lo ++ [Cell.merge below c none]) ((l.drop below).file (Cell.merge below c none)) ∧
      h.GrownBy c.size h' ∧ Keeps (lo ++ below.toList) h h' := by
  have hsz := c.le_size
  obtain ⟨t, ht, hgrown⟩ := growHeap_granted hS.founded.source hroom (by omega)
  have hg : h.GrownBy c.size { h with source := t } := ⟨hgrown, rfl, rfl, rfl, rfl⟩
  have hb : (⟨h.top⟩ : Block) = c.block := by rw [← hc]; rfl
  rw [hcs] at ht
  refine Ends.step ht ?_
  dsimp only
  rw [hb, ← hcs]
  refine hS.toLaid.lengthen hg (hg.founded hS.founded hroom) rfl rfl rfl hc hcf fun h₂ hL₂ hb₂ hk₂ => ?_
  refine Ends.step (x := get) rfl (Ends.record ?_)
  have hn := hS.not_has_top hc
  have he : Event.inserted (.extended c.size c.block h₂.source.size) = some c.block := rfl
  generalize Event.extended c.size c.block h₂.source.size = e at he
  have hL₃ := hL₂.record (e := e) fun b hb => by
    rw [he] at hb
    exact Option.some.inj hb ▸ hn
  refine Ends.bind (hL₃.insert (by simp) hcf hn (getLast?_inserted_push he)) ?_
  intro _ h₄ hr
  obtain ⟨hL₄, ht₄⟩ := hr
  have hL₄' : Laid h₄ (lo ++ below.toList ++ c :: ((none : Option Cell).toList ++ [])) (l.file c) := hL₄
  refine Ends.bind (hL₄'.coalesce hcf hn (fun d hd => ⟨hf.below d hd,
    hS.full d (by simp [Option.mem_def.mp hd]) (hf.below d hd)⟩) (by simp) (fun _ => hf.lo) (by simp)) ?_
  intro _ h₅ hr
  obtain ⟨rfl, hL₅, ht₅, -⟩ := hr
  have hmid : Sound h (lo ++ below.toList ++ []) l := by simpa using hS
  have hS₅ := hmid.merge hL₅ hf (fun d hd => by simp [Option.mem_def.mp hd]) (by simp)
  have hk : Keeps (lo ++ below.toList ++ [c]) _ h₅ := (ht₄.keeps hL₃.abut).trans (ht₅.keeps hL₄.abut)
  refine Ends.pure ⟨rfl, hS₅, ?_, ?_⟩
  · exact hg.trans_bare ((ht₅.bare.trans ht₄.bare).trans ((bare_journal _ _).trans hb₂))
  · exact hk₂.trans (hk.mono fun d hd _ => List.mem_append_left _ hd)

theorem extend_refused (hS : Sound h w l) (hroom : h.source.capacity < h.source.size + alignUpOrMax n) :
    ∃ e, extend n h = .ok (.error e) h := by
  obtain ⟨e, he⟩ := growHeap_refused hS.founded.source hroom
  exact ⟨e, (run_bind he).trans rfl⟩

end Sound

/-! ## Laying out -/

theorem alignUpOrMax_of_mod (hn : n % 16 = 0) (hlt : n < wordLimit) : alignUpOrMax n = n := by
  simp only [wordLimit] at hlt
  have : alignUp n = some n := alignUp_eq_some.mpr ⟨by simp only [wordLimit]; omega, hn, Nat.le_refl _, by omega⟩
  rw [alignUpOrMax, this]; rfl

theorem sound_nil (hf : h.Founded) (hsize : h.source.size = 32) (hheads : h.heads = .replicate classCount none)
    (he : h.memory.word (h.source.lo + 24) = (Tag.pack 0 true true).bits) : Sound h [] fun _ => [] where
  founded := hf
  tiles := by
    have htop : h.top = h.source.lo + 32 := by rw [Heap.top, hsize]
    exact tiles_nil.mpr ⟨htop.symm, he⟩
  linked := by
    refine ⟨threaded_nil fun k => ?_, fun _ => List.Pairwise.nil⟩
    show h.heads[k.val] = none
    simp [hheads]
  filed := fun _ _ hb => by cases hb
  full := fun _ hc => by cases hc
  parted := List.IsChain.nil

theorem ends_frame {β : Type} {f : Block → Action β} {Q : β → Heap → Prop} (hs : h.source.Settled)
    (hsize : h.source.size = 32)
    (hrest : ∀ h', h'.bare = h.bare → h'.memory.word (h.source.lo + 24) = (Tag.pack 0 true true).bits →
      Ends (f ⟨h.source.lo + 32⟩) h' Q) :
    Ends (do
        let prologue : Block := ⟨h.source.lo + 16⟩
        prologue.formatAllocated alignment true
        store h.source.lo 0
        let first ← prologue.next
        first.formatEpilogue true
        f first) h Q := by
  have htop : h.top = h.source.lo + 32 := by rw [Heap.top, hsize]
  have hlt : h.top < wordLimit := hs.top_lt
  have hpack : Tag.size (.pack 16 true true) = 16 := Tag.size_pack ..
  refine Ends.bind (ends_setTags (t := .pack 16 true true) (by simp only; omega)
    (Nat.le_of_eq hpack.symm) (by rw [hpack]; simp only; omega) hlt (Tag.bits_pack_lt (by decide) ..)) ?_
  intro _ h₁ hr
  obtain ⟨hb₁, -, hm₁⟩ := hr
  have hs₁ := source_of_bare hb₁
  have htop₁ := top_of_bare hb₁
  refine Ends.bind (ends_store (permits_word (by rw [hs₁]) (by omega))) ?_
  intro _ h₂ hr
  obtain ⟨hb₂, -, hm₂⟩ := hr
  have hs₂ := (source_of_bare hb₂).trans hs₁
  have htop₂ := (top_of_bare hb₂).trans htop₁
  -- the word at the start of the heap is not in the prologue, whose header stays
  have hword : h₂.memory.word (h.source.lo + 8) = (Tag.pack 16 true true).bits := by
    have hb : h.source.lo + 16 - 8 = h.source.lo + 8 := by omega
    rw [hm₂, Memory.word_setWord_disjoint _ _ (by omega), hm₁, Memory.putTag, hpack,
      Memory.word_setWord_disjoint _ _ (by simp only; omega), hb,
      Memory.word_setWord_same _ _ (Tag.bits_pack_lt (by decide) ..)]
  have ha : (⟨h.source.lo + 16⟩ : Block).headerAddr = h.source.lo + 8 :=
    Block.headerAddr_eq (by simp only; omega)
  have hnext : (⟨h.source.lo + 16⟩ : Block).next h₂ = .ok ⟨h.source.lo + 32⟩ := by
    rw [run_next (by rw [ha]; exact permits_word (by rw [hs₂]; omega) (by omega)), ha, hword]
    show Except.ok (Block.after _ (Tag.pack 16 true true).size) = _
    rw [hpack, Block.after_eq (by simp only; omega)]
  refine Ends.query hnext ?_
  have ha' : (⟨h.source.lo + 32⟩ : Block).headerAddr = h.source.lo + 24 :=
    Block.headerAddr_eq (by simp only; omega)
  rw [Block.formatEpilogue, Block.setHeader, ha']
  refine Ends.bind (ends_store (permits_word (by rw [hs₂]; omega) (by omega))) ?_
  intro _ h₃ hr
  obtain ⟨hb₃, -, hm₃⟩ := hr
  refine hrest h₃ ((hb₃.trans hb₂).trans hb₁) ?_
  rw [hm₃]
  exact Memory.word_setWord_same _ _ (Tag.bits_pack_lt (by decide) ..)

theorem chunkSize_spec (chunk : Nat) : 32 ≤ max (alignUpOrMax chunk) minBlock ∧
    max (alignUpOrMax chunk) minBlock % 16 = 0 ∧ max (alignUpOrMax chunk) minBlock < wordLimit := by
  have hmod := alignUpOrMax_mod chunk
  have hlt := alignUpOrMax_lt chunk
  simp only [minBlock, wordLimit] at *
  omega

def LaidOut (chunkSize : Nat) (guarded : Bool) (r : Except GrowthError Unit) (h' : Heap) : Prop :=
  match r with
  | .error _ => True
  | .ok () => h'.chunkSize = chunkSize ∧ h'.guarded = guarded ∧
      ∃ c : Cell, c.addr = h'.source.lo + 32 ∧ c.size = h'.chunkSize ∧ c.alloc = false ∧
        Sound h' [c] (Lists.file (fun _ => []) c)

theorem Sound.extend_first (hS : Sound h [] fun _ => []) :
    Ends (do
        match ← extend h.chunkSize with
        | .error e => return .error e
        | .ok _ =>
          selfCheck
          return .ok () : Action (Except GrowthError Unit)) h (LaidOut h.chunkSize h.guarded) := by
  have hf := hS.founded
  have halign := alignUpOrMax_of_mod hf.chunk_mod hf.chunk_lt
  by_cases hroom : h.source.size + h.chunkSize ≤ h.source.capacity
  · obtain ⟨c, hc, hcs, hcf⟩ := hS.toLaid.exists_cell_at_top hf.le_chunk
    have hnil : Sound h ([] ++ (none : Option Cell).toList) fun _ => [] := hS
    refine Ends.bind (hnil.extend_granted ⟨by simp, by simp, by simp, by simp⟩ hc hcs hcf
      (by rwa [hcs, halign])) ?_
    intro _ h' hr
    obtain ⟨rfl, hS', hg, -⟩ := hr
    refine Ends.step hS'.run_selfCheck (Ends.pure ⟨hg.chunkSize, hg.guarded, c, ?_, ?_, hcf, ?_⟩)
    · rw [hc, hg.source.lo]; exact hS.abut.symm
    · rw [hcs, halign, hg.chunkSize]
    · rw [Cell.merge_none hcf] at hS'
      exact hS'
  · obtain ⟨e, he⟩ := hS.extend_refused (n := h.chunkSize) (by rw [halign]; omega)
    exact Ends.step he (Ends.pure trivial)

/-- Laying out is refused, or it leaves one free cell. -/
theorem layOut_fresh (hs : h.source.Fresh) (chunk : Nat) :
    Ends (layOut chunk) h (LaidOut (max (alignUpOrMax chunk) minBlock) h.guarded) := by
  obtain ⟨hle, hmod, hlt⟩ := chunkSize_spec chunk
  refine Ends.bind (growHeap_fresh hs (by decide)) ?_
  intro result h₁ hr
  rcases result with e | base
  · exact Ends.pure trivial
  obtain ⟨rfl, hsize, hset, -, hg⟩ := hr
  have hend := hset.end_lt
  have hcap := hset.size_le
  rw [hsize] at hcap
  have hwrap : wrapAdd h₁.source.lo (2 * wordSize) = h₁.source.lo + 16 :=
    wrapAdd_of_lt (by simp only [initialSize, wordSize] at *; omega)
  refine Ends.demand hset.lo_mod ?_
  rw [hwrap]
  refine ends_frame hset hsize fun h₂ hb₂ hword => ?_
  have hs₂ := source_of_bare hb₂
  have hg₂ := (Heap.GrownBy.of_bare hb₂).guarded.trans hg
  rw [← hg₂]
  have hS := sound_nil (h := { h₂ with
    first := ⟨h₁.source.lo + 32⟩
    chunkSize := max (alignUpOrMax chunk) minBlock
    heads := .replicate classCount none }) ⟨hs₂ ▸ hset, by simp only [hs₂], hle, hmod, hlt⟩
      (by simp only [hs₂, hsize]; rfl) rfl (by simp only [hs₂]; exact hword)
  have hext := hS.extend_first
  dsimp only at hext
  generalize max (alignUpOrMax chunk) minBlock = chunkSize at *
  exact Ends.step (x := modify _) rfl hext

end SegregatedFit
