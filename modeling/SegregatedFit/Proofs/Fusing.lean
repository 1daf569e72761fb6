import Mathlib.Data.List.Forall2
import SegregatedFit.Proofs.Serving

/-!
# Fusing

Cells are released all at once by marking them free and making one cell of every run
of free ones. Whatever the order, releasing them one by one comes to the same: a
neighbour that is merged early is one that would be in the run in the end.
-/

namespace SegregatedFit

variable {v w lo hi xs ys : List Cell} {c d e : Cell} {below above : Option Cell} {ps : List Nat}

/-! ## Releasing cells -/

def Cell.release (ps : List Nat) (c : Cell) : Cell := { c with alloc := c.alloc && !ps.contains c.addr }

theorem Cell.release_free (hc : c.alloc = false) : c.release ps = c := by
  ext <;> simp [release, hc]

theorem Cell.release_other (hp : c.addr ∉ ps) : c.release ps = c := by
  ext <;> simp [release, hp]

theorem Cell.release_freed (hp : c.addr ∈ ps) : c.release ps = c.freed := by
  ext <;> simp [release, freed, hp]

theorem Cell.release_cons (p : Nat) (ps : List Nat) (c : Cell) :
    (c.release [p]).release ps = c.release (p :: ps) := by
  ext
  · rfl
  · rfl
  · by_cases hp : c.addr = p <;> simp [release, hp]

theorem allocs_map_release : allocs (w.map (Cell.release ps)) = (allocs w).filter fun c => c.addr ∉ ps := by
  induction w with
  | nil => rfl
  | cons c w ih =>
    by_cases hc : c.alloc = true
    · by_cases hp : c.addr ∈ ps
      · rw [List.map_cons, Cell.release_freed hp, allocs_cons_free rfl, ih, allocs_cons_alloc hc]
        simp [hp]
      · rw [List.map_cons, Cell.release_other hp, allocs_cons_alloc hc, ih, allocs_cons_alloc hc]
        simp [hp]
    · have hc : c.alloc = false := by simpa using hc
      rw [List.map_cons, Cell.release_free hc, allocs_cons_free hc, ih, allocs_cons_free hc]

/-! ## Fusing -/

def Cell.onto (c : Cell) : List Cell → List Cell
  | [] => [c]
  | d :: w => if c.alloc = false ∧ d.alloc = false then merge none c (some d) :: w else c :: d :: w

/-- The cells with every run of free ones made one. -/
def fuse : List Cell → List Cell
  | [] => []
  | c :: w => c.onto (fuse w)

namespace Cell

theorem onto_free (hc : c.alloc = false) (hd : d.alloc = false) :
    c.onto (d :: w) = merge none c (some d) :: w := if_pos ⟨hc, hd⟩

theorem onto_apart (hw : ∀ d ∈ w.head?, c.alloc = true ∨ d.alloc = true) : c.onto w = c :: w := by
  cases w with
  | nil => rfl
  | cons d w =>
    apply if_neg
    intro hr
    rcases hw d rfl with hc | hd
    · simp [hr.1] at hc
    · simp [hr.2] at hd

theorem onto_cases (c : Cell) (w : List Cell) :
    (c.alloc = false ∧ ∃ d u, w = d :: u ∧ d.alloc = false) ∨ ∀ d ∈ w.head?, c.alloc = true ∨ d.alloc = true := by
  cases w with
  | nil => simp
  | cons d w => cases hc : c.alloc <;> cases hd : d.alloc <;> simp [hd]

theorem merge_assoc (c d e : Cell) :
    merge none (merge none c (some d)) (some e) = merge none c (some (merge none d (some e))) := by
  ext
  · rfl
  · simp [merge, sizeOf, Nat.add_assoc]
  · rfl

theorem onto_merge (hc : c.alloc = false) (hd : d.alloc = false) :
    (merge none c (some d)).onto w = c.onto (d.onto w) := by
  rcases d.onto_cases w with ⟨-, e, u, rfl, he⟩ | hw
  · rw [onto_free rfl he, onto_free hd he, onto_free hc rfl, merge_assoc]
  · have hm : ∀ e ∈ w.head?, (merge none c (some d)).alloc = true ∨ e.alloc = true :=
      fun e he => .inr ((hw e he).resolve_left (by simp [hd]))
    rw [onto_apart hm, onto_apart hw, onto_free hc hd]

theorem parted_onto (hw : Parted w) : Parted (c.onto w) := by
  rcases c.onto_cases w with ⟨hc, d, u, rfl, hd⟩ | hcw
  · rw [onto_free hc hd]
    exact hw.tail.cons_free (hw.head_of_free hd)
  · rw [onto_apart hcw]
    exact List.isChain_cons.mpr ⟨hcw, hw⟩

theorem allocs_onto (c : Cell) (w : List Cell) : allocs (c.onto w) = allocs (c :: w) := by
  rcases c.onto_cases w with ⟨hc, d, u, rfl, hd⟩ | hcw
  · rw [onto_free hc hd, allocs_cons_free rfl, allocs_cons_free hc, allocs_cons_free hd]
  · rw [onto_apart hcw]

end Cell

theorem parted_fuse : ∀ w : List Cell, Parted (fuse w)
  | [] => List.IsChain.nil
  | _ :: w => Cell.parted_onto (parted_fuse w)

theorem allocs_fuse (w : List Cell) : allocs (fuse w) = allocs w := by
  induction w with
  | nil => rfl
  | cons c w ih =>
    rw [fuse, Cell.allocs_onto]
    by_cases hc : c.alloc = true
    · rw [allocs_cons_alloc hc, allocs_cons_alloc hc, ih]
    · have hc : c.alloc = false := by simpa using hc
      rw [allocs_cons_free hc, allocs_cons_free hc, ih]

/-- Cells that are fused before others are released are fused with these all the same. -/
theorem fuse_map_release (ps : List Nat) :
    ∀ w : List Cell, fuse ((fuse w).map (Cell.release ps)) = fuse (w.map (Cell.release ps))
  | [] => rfl
  | c :: w => by
    rw [List.map_cons, fuse, fuse, ← fuse_map_release ps w]
    rcases c.onto_cases (fuse w) with ⟨hc, d, u, hw, hd⟩ | hcw
    · rw [hw, Cell.onto_free hc hd, List.map_cons, List.map_cons, Cell.release_free rfl,
        Cell.release_free hc, Cell.release_free hd, fuse, fuse, Cell.onto_merge hc hd]
    · rw [Cell.onto_apart hcw, List.map_cons, fuse]

/-- What lies below a stretch that is fused stays if no free cells come to lie side by side. -/
theorem fuse_append (hy : fuse xs = ys) (hp : Parted (lo ++ ys)) : fuse (lo ++ xs) = lo ++ ys := by
  induction lo with
  | nil => exact hy
  | cons c lo ih =>
    obtain ⟨hc, hp⟩ := List.isChain_cons.mp (show Parted (c :: (lo ++ ys)) from hp)
    rw [List.cons_append, fuse, ih hp, Cell.onto_apart hc, List.cons_append]

theorem fuse_parted (hw : Parted w) : fuse w = w := by
  have hnil : Parted (w ++ []) := by rwa [List.append_nil]
  have hfuse : fuse [] = [] := rfl
  simpa only [List.append_nil] using fuse_append hfuse hnil

theorem fuse_around (hc : c.alloc = false) (hf : Fenced lo below above hi) (hlo : Parted lo) (hhi : Parted hi) :
    fuse (lo ++ below.toList ++ c :: (above.toList ++ hi)) = lo ++ Cell.merge below c above :: hi := by
  have habove : fuse (c :: (above.toList ++ hi)) = Cell.merge none c above :: hi := by
    cases above with
    | none =>
      rw [Option.toList_none, List.nil_append, fuse, fuse_parted hhi, Cell.merge_none hc]
      exact Cell.onto_apart fun d hd => .inr (hf.hi d hd)
    | some d =>
      have hd := hf.above d rfl
      have hdh : d.onto hi = d :: hi := Cell.onto_apart fun e he => .inr (hf.hi e he)
      rw [Option.toList_some, List.singleton_append, fuse, fuse, fuse_parted hhi, hdh, Cell.onto_free hc hd]
  have hbelow : fuse (below.toList ++ c :: (above.toList ++ hi)) = Cell.merge below c above :: hi := by
    cases below with
    | none => exact habove
    | some b =>
      rw [Option.toList_some, List.singleton_append, fuse, habove, Cell.onto_free (hf.below b rfl) rfl]
      congr 1
      ext
      · rfl
      · simp [Cell.merge, Cell.sizeOf]
        omega
      · rfl
  rw [List.append_assoc]
  exact fuse_append hbelow (hlo.insert_free hhi hf.lo hf.hi)

/-! ## Runs -/

inductive Cell.Spans : Cell → List Cell → Prop
  | alloc {c : Cell} (hc : c.alloc = true) : Spans c [c]
  | free {c d : Cell} {run : List Cell} (hc : c.alloc = false) (hrun : ∀ e ∈ d :: run, e.alloc = false)
      (haddr : c.addr = d.addr) (hsize : c.size = ((d :: run).map Cell.size).sum) : Spans c (d :: run)

/-- Every longest run of free cells of `v` is one cell of `w`, and every other cell is there as it was. -/
def Merged (v w : List Cell) : Prop :=
  Parted w ∧ ∃ runs : List (List Cell), runs.flatten = v ∧ List.Forall₂ Cell.Spans w runs

theorem Cell.spans_self (c : Cell) : c.Spans [c] := by
  by_cases hc : c.alloc = true
  · exact .alloc hc
  · have hc : c.alloc = false := by simpa using hc
    exact .free hc (by simp [hc]) rfl (by simp)

theorem Cell.Spans.cons {run : List Cell} (hd : d.Spans run) (hc : c.alloc = false) (hdf : d.alloc = false) :
    (merge none c (some d)).Spans (c :: run) := by
  cases hd with
  | alloc hda => simp [hdf] at hda
  | free _ hrun haddr hsize =>
    apply Spans.free rfl
    · rw [List.forall_mem_cons]
      exact ⟨hc, hrun⟩
    · rfl
    · rw [List.map_cons, List.sum_cons, ← hsize]
      simp [merge, sizeOf]

theorem merged_fuse (w : List Cell) : Merged w (fuse w) := by
  refine ⟨parted_fuse w, ?_⟩
  induction w with
  | nil => exact ⟨[], rfl, .nil⟩
  | cons c w ih =>
    obtain ⟨runs, rfl, hruns⟩ := ih
    rcases c.onto_cases (fuse runs.flatten) with ⟨hc, d, u, hw, hd⟩ | hcw
    · rw [hw] at hruns
      rw [fuse, hw, Cell.onto_free hc hd]
      cases hruns with
      | @cons _ run _ runs hrun hrest => exact ⟨(c :: run) :: runs, rfl, .cons (hrun.cons hc hd) hrest⟩
    · rw [fuse, Cell.onto_apart hcw]
      exact ⟨[c] :: runs, rfl, .cons c.spans_self hruns⟩

theorem fuse_all_free (hw : ∀ d ∈ c :: w, d.alloc = false) :
    ∃ d, fuse (c :: w) = [d] ∧ d.addr = c.addr ∧ d.alloc = false := by
  induction w generalizing c with
  | nil => exact ⟨c, rfl, rfl, hw c (by simp)⟩
  | cons e w ih =>
    obtain ⟨hc, hw⟩ := List.forall_mem_cons.mp hw
    obtain ⟨d, hd, -, hdf⟩ := ih hw
    rw [fuse, hd, Cell.onto_free hc hdf]
    exact ⟨_, rfl, rfl, rfl⟩

end SegregatedFit
