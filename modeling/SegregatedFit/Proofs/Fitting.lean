import SegregatedFit.Proofs.Tracking

/-!
# Best fits

A search by class is a search of the whole heap: its result is a least free block
that is large enough, wherever that is filed, and of equally large ones it is the one
that was inserted last.
-/

namespace SegregatedFit

variable {h : Heap} {w : List Cell} {l : Lists} {c d : Cell} {o : Option Cell} {p q : Bool} {n : Nat}
  {bs : List (Block × Tag)} {b : Block} {t : Tag}

def NoneFits (bs : List (Block × Tag)) (n : Nat) : Prop := ∀ d ∈ bs, d.2.isAlloc = false → d.2.size < n

instance (bs : List (Block × Tag)) (n : Nat) : Decidable (NoneFits bs n) :=
  inferInstanceAs (Decidable (∀ d ∈ bs, d.2.isAlloc = false → d.2.size < n))

/-- The free block `b` with the tag `t` has `n` bytes, no smaller one does, and of those that
are as large it is the last that was inserted. -/
structure Fittest (bs : List (Block × Tag)) (inserted : List Block) (n : Nat) (b : Block) (t : Tag) : Prop where
  mem : (b, t) ∈ bs
  free : t.isAlloc = false
  fits : n ≤ t.size
  least : ∀ d ∈ bs, d.2.isAlloc = false → n ≤ d.2.size → t.size ≤ d.2.size
  newest : ∀ d ∈ bs, d.2.isAlloc = false → d.2.size = t.size → d.1 = b ∨ Newer inserted b d.1

theorem Fittest.not_noneFits {inserted : List Block} (hf : Fittest bs inserted n b t) : ¬ NoneFits bs n := by
  intro hn
  have hlt : t.size < n := hn (b, t) hf.mem hf.free
  exact Nat.not_le_of_lt hlt hf.fits

theorem exists_cell_of_tagged (hb : (b, t) ∈ taggedCells p w) : ∃ c ∈ w, b = c.block ∧ ∃ q, t = c.tag q := by
  induction w generalizing p with
  | nil => cases hb
  | cons c w ih =>
    rcases List.mem_cons.mp hb with he | hb
    · cases he
      exact ⟨c, by simp, rfl, p, rfl⟩
    · obtain ⟨d, hd, hdb⟩ := ih hb
      exact ⟨d, by simp [hd], hdb⟩

theorem noneFits_tagged : NoneFits (taggedCells p w) n ↔ Tight w n := by
  constructor
  · intro hn c hc hf
    obtain ⟨q, hq⟩ := mem_taggedCells (p := p) hc
    have hlt : (c.tag q).size < n := hn (c.block, c.tag q) hq (by rw [c.isAlloc_tag]; exact hf)
    rwa [c.size_tag] at hlt
  · rintro ht ⟨b, t⟩ hb hf
    obtain ⟨c, hc, rfl, q, rfl⟩ := exists_cell_of_tagged hb
    rw [c.isAlloc_tag] at hf
    rw [c.size_tag]
    exact ht c hc hf

namespace Sound

theorem tight (hS : Sound h w l) (hbest : BestFit w l n none) : Tight w n :=
  fun c hc hf => hbest c hc (hS.full c hc hf)

theorem listed (hS : Sound h w l) (hb : (b, t) ∈ taggedCells true w) (hf : t.isAlloc = false) :
    ∃ c ∈ w, b = c.block ∧ t.size = c.size ∧ c.alloc = false ∧ l.Has c.block := by
  obtain ⟨c, hc, rfl, q, rfl⟩ := exists_cell_of_tagged hb
  rw [c.isAlloc_tag] at hf
  exact ⟨c, hc, rfl, c.size_tag q, hf, hS.full c hc hf⟩

theorem fittest (hS : Sound h w l) (hbest : BestFit w l n (some c)) :
    ∃ t, Fittest (taggedCells true w) h.inserted n c.block t := by
  obtain ⟨hc, hlisted, hn, hleast, xs, ys, hxy, hxs⟩ := hbest
  obtain ⟨q, hq⟩ := mem_taggedCells (p := true) hc
  have hcf := (hS.mem_of_has hc hlisted).1
  refine ⟨c.tag q, hq, ?_, ?_, ?_, ?_⟩
  · rw [c.isAlloc_tag, hcf]
  · rwa [c.size_tag]
  · rintro ⟨b, t⟩ hb hf hnt
    obtain ⟨d, hd, -, hsize, -, hdl⟩ := hS.listed hb hf
    rw [c.size_tag, hsize]
    rw [hsize] at hnt
    exact hleast d hd hdl hnt
  · rintro ⟨b, t⟩ hb hf he
    obtain ⟨d, hd, rfl, hsize, -, hdl⟩ := hS.listed hb hf
    rw [c.size_tag, hsize] at he
    -- the block is in the same list, and no block before the one that is found is as large
    have hm := (hS.mem_of_has hd hdl).2
    rw [he, hxy] at hm
    rcases List.mem_append.mp hm with hm | hm
    · exact absurd he (hxs d hd hm)
    rcases List.mem_cons.mp hm with hm | hm
    · exact .inl hm
    · have hdated := hS.linked.dated (SizeClass.ofSize c.size)
      rw [hxy] at hdated
      exact .inr ((List.pairwise_cons.mp (List.pairwise_append.mp hdated).2.1).1 d.block hm)

end Sound

/-- In every heap of a client, a search finds the best fit of all free blocks, if there is one. -/
theorem Reachable.best_fit {c : Client} (hc : Reachable c) (n : Nat) : ∃ bs o, blocks c.heap = .ok bs ∧
    findFit n c.heap = .ok o ∧ (o = none ↔ NoneFits bs n) ∧
    ∀ b ∈ o, ∃ t, Fittest bs c.heap.inserted n b t := by
  obtain ⟨w, l, hT⟩ := hc.tracked
  obtain ⟨o, hfind, hbest⟩ := hT.sound.run_findFit n
  refine ⟨taggedCells true w, o.map Cell.block, hT.sound.run_blocks, hfind, ?_⟩
  cases o with
  | none =>
    have hnone := (noneFits_tagged (p := true)).mpr (hT.sound.tight hbest)
    exact ⟨⟨fun _ => hnone, fun _ => rfl⟩, fun b hb => by cases hb⟩
  | some d =>
    obtain ⟨t, ht⟩ := hT.sound.fittest hbest
    refine ⟨⟨fun he => ?_, fun hn => absurd hn ht.not_noneFits⟩, fun b hb => ?_⟩
    · cases he
    · cases hb
      exact ⟨t, ht⟩

/-- A run that leaves three free blocks, two of them of 48 bytes. -/
def tieRun : Client :=
  let h : Heap := { source := .buffer (.ofBytes 4096 512), guarded := true }
  let c : Client := { heap := h.after (layOut 256) }
  (((((c.call (.malloc 24)).call (.malloc 24)).call (.malloc 24)).call (.malloc 24)).call
    (.free (some 4128))).call (.free (some 4224))

theorem reachable_tieRun : Reachable tieRun := by
  have hfresh : (Source.buffer (.ofBytes 4096 512)).Fresh := ⟨4096, 512, by decide, by decide, rfl⟩
  have h₀ := Reachable.start hfresh
    (run_layOut { source := .buffer (.ofBytes 4096 512), guarded := true } 256 (by decide +kernel))
  have h₁ := h₀.call (.malloc 24) (by decide +kernel)
  have h₂ := h₁.call (.malloc 24) (by decide +kernel)
  have h₃ := h₂.call (.malloc 24) (by decide +kernel)
  have h₄ := h₃.call (.malloc 24) (by decide +kernel)
  have h₅ := h₄.call (.free (some 4128)) (by decide +kernel)
  exact h₅.call (.free (some 4224)) (by decide +kernel)

theorem tieRun_best_fit : findFit 33 tieRun.heap = .ok (some ⟨4224⟩) ∧ ∃ bs, blocks tieRun.heap = .ok bs ∧
    ∃ t, Fittest bs tieRun.heap.inserted 33 ⟨4224⟩ t := by
  have hfind : findFit 33 tieRun.heap = .ok (some ⟨4224⟩) := by decide +kernel
  obtain ⟨bs, o, hbs, ho, -, hbest⟩ := Reachable.best_fit reachable_tieRun 33
  rw [hfind] at ho
  cases ho
  exact ⟨hfind, bs, hbs, hbest _ rfl⟩

end SegregatedFit
