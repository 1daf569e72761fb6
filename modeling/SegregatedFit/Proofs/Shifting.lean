import SegregatedFit.Proofs.Searching

/-!
# Shifting

Where a heap lies makes no difference to what is done in it: cells and lists may be
moved by any number of units before or after they are split, merged, filed or
searched, and the result is the same.
-/

namespace SegregatedFit

variable {u n : Nat} {p : Bool} {w xs ys : List Cell} {l : Lists} {c d t : Cell} {o below above : Option Cell}
  {b : Block} {k : SizeClass}

def Block.up (u : Nat) (b : Block) : Block := ⟨alignment * u + b.payload⟩

def Cell.up (u : Nat) (c : Cell) : Cell where
  addr := alignment * u + c.addr
  size := c.size
  alloc := c.alloc
  addr_mod := by
    have := c.addr_mod
    simp only [alignment]
    omega
  size_mod := c.size_mod
  le_size := c.le_size

def Lists.up (u : Nat) (l : Lists) : Lists := fun k => (l k).map (Block.up u)

namespace Cell

@[simp] theorem up_addr : (c.up u).addr = alignment * u + c.addr := rfl

@[simp] theorem up_size : (c.up u).size = c.size := rfl

@[simp] theorem up_alloc : (c.up u).alloc = c.alloc := rfl

theorem up_inj : c.up u = d.up u ↔ c = d := by
  constructor
  · intro he
    have haddr := congrArg Cell.addr he
    have hsize := congrArg Cell.size he
    have halloc := congrArg Cell.alloc he
    simp only [up_addr, up_size, up_alloc] at haddr hsize halloc
    ext
    · omega
    · exact hsize
    · rw [halloc]
  · rintro rfl
    rfl

@[simp] theorem sizeOf_up : sizeOf (o.map (up u)) = sizeOf o := by
  cases o <;> rfl

theorem merge_up : (merge below c above).up u = merge (below.map (up u)) (c.up u) (above.map (up u)) := by
  ext
  · cases below <;> rfl
  · simp [merge]
  · rfl

theorem absorb_up : (absorb o above).map (up u) = absorb (o.map (up u)) (above.map (up u)) := by
  cases o with
  | none => rfl
  | some r => exact congrArg some merge_up

end Cell

theorem Block.up_injective (u : Nat) : Function.Injective (Block.up u) := by
  intro b d he
  have hp : alignment * u + b.payload = alignment * u + d.payload := congrArg Block.payload he
  exact Block.ext (Nat.add_left_cancel hp)

namespace Lists

theorem push_up : (l.push k b).up u = (l.up u).push k (b.up u) := by
  funext j
  unfold up push
  by_cases hj : j = k
  · rw [if_pos hj, if_pos hj]; rfl
  · rw [if_neg hj, if_neg hj]

theorem without_up : (l.without b).up u = (l.up u).without (b.up u) := by
  funext j
  exact List.map_erase (Block.up_injective u) _

theorem drop_up : (l.drop o).up u = (l.up u).drop (o.map (Cell.up u)) := by
  cases o with
  | none => rfl
  | some c => exact without_up

theorem file_up : (l.file c).up u = (l.up u).file (c.up u) := push_up

theorem absorb_up : (l.absorb o above).up u = (l.up u).absorb (o.map (Cell.up u)) (above.map (Cell.up u)) := by
  cases o with
  | none => rfl
  | some r =>
    show ((l.drop above).file (Cell.merge none r above)).up u = _
    rw [file_up, drop_up, Cell.merge_up]
    rfl

theorem has_up : (l.up u).Has (b.up u) ↔ l.Has b := by
  unfold Has up
  simp only [List.mem_map_of_injective (Block.up_injective u)]

end Lists

/-! ## Parts of the heap -/

theorem Cut.up {a total : Nat} (hc : Cut a total n c o) :
    Cut (alignment * u + a) total n (c.up u) (o.map (Cell.up u)) where
  addr := by rw [Cell.up_addr, hc.addr]
  alloc := hc.alloc
  le := hc.le
  size := by rw [Cell.up_size, hc.size, Option.isSome_map]
  rest r hr := by
    obtain ⟨d, hd, rfl⟩ := Option.mem_map.mp hr
    obtain ⟨haddr, hsize, hfree⟩ := hc.rest d hd
    exact ⟨by rw [Cell.up_addr, haddr, Nat.add_assoc], hsize, hfree⟩
  whole ho := hc.whole (Option.map_eq_none_iff.mp ho)

theorem parted_up : Parted (w.map (Cell.up u)) ↔ Parted w := by
  unfold Parted
  rw [List.isChain_map]
  rfl

theorem Fenced.up {lo hi : List Cell} (hf : Fenced lo below above hi) :
    Fenced (lo.map (Cell.up u)) (below.map (Cell.up u)) (above.map (Cell.up u)) (hi.map (Cell.up u)) where
  below d hd := by
    obtain ⟨c, hc, rfl⟩ := Option.mem_map.mp hd
    exact hf.below c hc
  above d hd := by
    obtain ⟨c, hc, rfl⟩ := Option.mem_map.mp hd
    exact hf.above c hc
  lo d hd := by
    rw [List.getLast?_map] at hd
    obtain ⟨c, hc, rfl⟩ := Option.mem_map.mp hd
    exact hf.lo c hc
  hi d hd := by
    rw [List.head?_map] at hd
    obtain ⟨c, hc, rfl⟩ := Option.mem_map.mp hd
    exact hf.hi c hc

/-! ## Searching -/

theorem BestFit.of_up {o : Option Cell} (hb : BestFit (w.map (Cell.up u)) (l.up u) n o) :
    ∃ o', o = o'.map (Cell.up u) ∧ BestFit w l n o' := by
  cases o with
  | none =>
    refine ⟨none, rfl, fun d hd hl => ?_⟩
    exact hb (d.up u) (List.mem_map_of_mem hd) (Lists.has_up.mpr hl)
  | some c =>
    obtain ⟨hc, hl, hn, hleast, xs, ys, hxy, hxs⟩ := hb
    obtain ⟨d, hd, rfl⟩ := List.mem_map.mp hc
    refine ⟨some d, rfl, hd, Lists.has_up.mp hl, hn, fun e he hel hen => ?_, ?_⟩
    · exact hleast (e.up u) (List.mem_map_of_mem he) (Lists.has_up.mpr hel) hen
    · obtain ⟨xs', ys', hl', rfl, hd'⟩ := List.map_eq_append_iff.mp hxy
      obtain ⟨b, ys'', rfl, hb, rfl⟩ := List.map_eq_cons_iff.mp hd'
      have hbd : b = d.block := Block.up_injective u hb
      refine ⟨xs', ys'', hbd ▸ hl', fun e he hex => ?_⟩
      exact hxs (e.up u) (List.mem_map_of_mem he) (List.mem_map_of_mem hex)

theorem first_unique {bs xs ys xs' ys' : List Block} {b d : Block} (hb : bs = xs ++ b :: ys)
    (hd : bs = xs' ++ d :: ys') (hbx : b ∉ xs') (hdx : d ∉ xs) : b = d := by
  rw [hb] at hd
  rcases List.append_eq_append_iff.mp hd with ⟨zs, rfl, hz⟩ | ⟨zs, rfl, hz⟩
  · cases zs with
    | nil => exact (List.cons.inj hz).1
    | cons z zs =>
      obtain ⟨rfl, -⟩ := List.cons.inj hz
      exact absurd (by simp) hbx
  · cases zs with
    | nil => exact (List.cons.inj hz).1.symm
    | cons z zs =>
      obtain ⟨rfl, -⟩ := List.cons.inj hz
      exact absurd (by simp) hdx

theorem BestFit.unique (hw : (w.map Cell.addr).Nodup) {o o' : Option Cell} (hb : BestFit w l n o)
    (hb' : BestFit w l n o') : o = o' := by
  cases o with
  | none =>
    cases o' with
    | none => rfl
    | some d =>
      obtain ⟨hd, hl, hn, -⟩ := hb'
      exact absurd hn (Nat.not_le_of_lt (hb d hd hl))
  | some c =>
    cases o' with
    | none =>
      obtain ⟨hc, hl, hn, -⟩ := hb
      exact absurd hn (Nat.not_le_of_lt (hb' c hc hl))
    | some d =>
      obtain ⟨hc, hcl, hcn, hcleast, xs, ys, hxy, hxs⟩ := hb
      obtain ⟨hd, hdl, hdn, hdleast, xs', ys', hxy', hxs'⟩ := hb'
      have hsize : c.size = d.size := Nat.le_antisymm (hcleast d hd hdl hdn) (hdleast c hc hcl hcn)
      rw [← hsize] at hxy'
      have hblock := first_unique hxy hxy' (fun hm => hxs' c hc hm hsize) fun hm => hxs d hd hm hsize.symm
      exact congrArg some (List.inj_on_of_nodup_map hw hc hd (Cell.block_inj.mp hblock))

/-! ## Walks -/

theorem taggedCells_up : taggedCells p (w.map (Cell.up u)) =
    (taggedCells p w).map fun b => (b.1.up u, b.2) := by
  induction w generalizing p with
  | nil => rfl
  | cons c w ih =>
    rw [List.map_cons, taggedCells, taggedCells, List.map_cons, Cell.up_alloc, ih]
    rfl

theorem Stats.add_up (s : Stats) : s.add (w.map (Cell.up u)) = s.add w := by
  unfold Stats.add
  simp only [List.countP_map, List.filter_map, List.map_map]
  rfl

end SegregatedFit
