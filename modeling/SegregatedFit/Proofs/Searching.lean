import Mathlib.Data.List.FinRange
import SegregatedFit.Proofs.Inspecting

/-!
# Searching

A scan of one list finds the first of its least blocks that are large enough, even
if it ends at an exact fit. As smaller blocks are in smaller classes, the first
class with a fit has the best fit of the whole heap.
-/

namespace SegregatedFit

variable {h : Heap} {w : List Cell} {l : Lists} {n : Nat} {sz : Block → Nat}

def Fits (sz : Block → Nat) (n : Nat) (bs : List Block) : Option Block → Prop
  | none => ∀ d ∈ bs, sz d < n
  | some b => n ≤ sz b ∧ ∃ xs ys, bs = xs ++ b :: ys ∧
      (∀ d ∈ xs, n ≤ sz d → sz b < sz d) ∧ ∀ d ∈ ys, n ≤ sz d → sz b ≤ sz d

namespace Fits

variable {bs : List Block} {b d : Block} {o : Option Block}

theorem mem (hf : Fits sz n bs (some b)) : b ∈ bs := by
  obtain ⟨-, xs, ys, rfl, -⟩ := hf
  simp

theorem least (hf : Fits sz n bs (some b)) (hd : d ∈ bs) (hn : n ≤ sz d) : sz b ≤ sz d := by
  obtain ⟨-, xs, ys, rfl, hx, hy⟩ := hf
  rcases List.mem_append.mp hd with hd | hd
  · exact Nat.le_of_lt (hx d hd hn)
  rcases List.mem_cons.mp hd with rfl | hd
  · exact Nat.le_refl _
  · exact hy d hd hn

theorem skip (hf : Fits sz n bs o) (hd : n ≤ sz d → ∃ b ∈ o, sz b ≤ sz d) : Fits sz n (bs ++ [d]) o := by
  cases o with
  | none =>
    intro e he
    rcases List.mem_append.mp he with he | he
    · exact hf e he
    · obtain rfl := List.mem_singleton.mp he
      refine Nat.lt_of_not_le fun hn => ?_
      obtain ⟨b, hb, -⟩ := hd hn
      cases hb
  | some b =>
    obtain ⟨hb, xs, ys, rfl, hx, hy⟩ := hf
    refine ⟨hb, xs, ys ++ [d], by simp, hx, fun e he hn => ?_⟩
    rcases List.mem_append.mp he with he | he
    · exact hy e he hn
    · obtain rfl := List.mem_singleton.mp he
      obtain ⟨c, hc, hle⟩ := hd hn
      exact Option.some.inj hc ▸ hle

theorem take (hf : Fits sz n bs o) (hn : n ≤ sz d) (hd : ∀ b ∈ o, sz d < sz b) :
    Fits sz n (bs ++ [d]) (some d) := by
  refine ⟨hn, bs, [], rfl, fun e he hne => ?_, by simp⟩
  cases o with
  | none => have := hf e he; omega
  | some b => exact Nat.lt_of_lt_of_le (hd b rfl) (hf.least he hne)

end Fits

/-! ## Within one list -/

structure Candidate (sz : Block → Nat) (n : Nat) (xs : List Block) (best : Option (Block × Nat)) : Prop where
  fits : Fits sz n xs (best.map (·.1))
  size : ∀ r ∈ best, r.2 = sz r.1

namespace Candidate

variable {xs : List Block} {best : Option (Block × Nat)} {b : Block}

theorem none : Candidate sz n [] none := ⟨by simp [Fits], by simp⟩

theorem skip (hc : Candidate sz n xs best) (hs : sz b < n ∨ best.any (·.2 ≤ sz b)) :
    Candidate sz n (xs ++ [b]) best := by
  refine ⟨hc.fits.skip fun hn => ?_, hc.size⟩
  obtain ⟨r, hr, hle⟩ := (Option.any_eq_true _ _).mp (hs.resolve_left (by omega))
  exact ⟨r.1, Option.mem_map_of_mem _ hr, hc.size r hr ▸ of_decide_eq_true hle⟩

theorem take (hc : Candidate sz n xs best) (hs : ¬ (sz b < n ∨ best.any (·.2 ≤ sz b))) :
    Candidate sz n (xs ++ [b]) (some (b, sz b)) := by
  have hs := not_or.mp hs
  refine ⟨hc.fits.take (by omega) fun c hcr => ?_, by rintro _ ⟨⟩; rfl⟩
  obtain ⟨r, hr, rfl⟩ := Option.mem_map.mp hcr
  rw [← hc.size r hr]
  refine Nat.lt_of_not_le fun hle => hs.2 ?_
  exact (Option.any_eq_true _ _).mpr ⟨r, hr, decide_eq_true hle⟩

end Candidate

namespace FreeList

variable {xs bs : List Block} {b : Block} {link : Option Block} {best : Option (Block × Nat)} {k : Nat}
  {c : SizeClass}

theorem chain_none (hbs : chain k none h = .ok bs) : bs = [] := by
  cases k <;> cases hbs <;> rfl

theorem chain_some (hbs : chain (k + 1) (some b) h = .ok bs) :
    ∃ link ds, b.nextFree h = .ok link ∧ chain k link h = .ok ds ∧ bs = b :: ds := by
  rw [chain] at hbs
  cases hlink : b.nextFree h with
  | error e =>
    change (b.nextFree h >>= fun link => _) = _ at hbs
    rw [hlink] at hbs
    cases hbs
  | ok link =>
    rw [query_bind hlink] at hbs
    cases hds : chain k link h with
    | error e =>
      change (chain k link h >>= fun ds => _) = _ at hbs
      rw [hds] at hbs
      cases hbs
    | ok ds =>
      rw [query_bind hds] at hbs
      cases hbs
      exact ⟨link, ds, rfl, hds, rfl⟩

/-- A search from `link` on sees what a walk from there meets. -/
theorem run_bestFitFrom (hbs : chain k link h = .ok bs) (hsz : ∀ d ∈ bs, d.size h = .ok (sz d))
    (hbest : Candidate sz n xs best) (hexact : ∀ d ∈ xs, sz d ≠ n) :
    ∃ o, bestFitFrom n k best link h = .ok o ∧ Fits sz n (xs ++ bs) o := by
  induction k, link using chain.induct generalizing bs xs best with
  | case1 k =>
    obtain rfl := chain_none hbs
    exact ⟨best.map (·.1), by cases k <;> rfl, by rw [List.append_nil]; exact hbest.fits⟩
  | case2 b => cases hbs
  | case3 k b ih =>
    obtain ⟨link, ds, hlink, hds, rfl⟩ := chain_some hbs
    obtain ⟨hb, hsz⟩ := List.forall_mem_cons.mp hsz
    rw [bestFitFrom, query_bind hb]
    by_cases he : sz b = n
    · rw [if_pos he]
      refine ⟨some b, rfl, Nat.le_of_eq he.symm, xs, ds, rfl, fun d hd hn => ?_, fun d _ hn => he ▸ hn⟩
      have := hexact d hd
      omega
    have hexact' : ∀ d ∈ xs ++ [b], sz d ≠ n := by
      intro d hd
      rcases List.mem_append.mp hd with hd | hd
      · exact hexact d hd
      · exact List.mem_singleton.mp hd ▸ he
    rw [if_neg he, List.append_cons]
    by_cases hskip : sz b < n ∨ best.any (·.2 ≤ sz b)
    · rw [if_pos hskip, query_bind hlink]
      exact ih link hds hsz (hbest.skip hskip) hexact'
    · rw [if_neg hskip, query_bind hlink]
      exact ih link hds hsz (hbest.take hskip) hexact'

theorem run_bestFit (hm : members c h = .ok bs) (hsz : ∀ d ∈ bs, d.size h = .ok (sz d)) :
    ∃ o, bestFit c n h = .ok o ∧ Fits sz n bs o := by
  have hhead : head c h = .ok (h.heads.get c) := rfl
  rw [members, query_bind hhead] at hm
  rw [bestFit, query_bind hhead]
  exact run_bestFitFrom hm hsz .none (by simp)

end FreeList

/-! ## Over all classes -/

def Heap.sizeAt (h : Heap) (b : Block) : Nat := Tag.size ⟨h.memory.word b.headerAddr⟩

theorem Cell.Stands.sizeAt {c : Cell} {p : Bool} (hc : c.Stands h p) : h.sizeAt c.block = c.size := by
  have hlo := hc.le_addr; have hsz := c.le_size
  have ha : c.block.headerAddr = c.addr - 8 := Block.headerAddr_eq (by simp only [block]; omega)
  unfold Heap.sizeAt
  rw [ha, hc.tagged.header]
  exact c.size_tag p

theorem Laid.sizeAt {c : Cell} (hL : Laid h w l) (hc : c ∈ w) : h.sizeAt c.block = c.size :=
  (hL.stands hc).choose_spec.sizeAt

theorem Laid.run_bestFit (hL : Laid h w l) (k : SizeClass) (n : Nat) :
    ∃ o, FreeList.bestFit k n h = .ok o ∧ Fits h.sizeAt n (l k) o := by
  refine FreeList.run_bestFit (hL.linked.run_members k) fun d hd => ?_
  obtain ⟨c, hc, rfl, -⟩ := hL.filed k d hd
  rw [hL.sizeAt hc, hL.size hc]

theorem Laid.run_firstFit (hL : Laid h w l) (n : Nat) : ∀ ks : List SizeClass,
    ∃ o, FreeList.firstFit n ks h = .ok o ∧ match o with
      | none => ∀ k ∈ ks, ∀ d ∈ l k, h.sizeAt d < n
      | some b => ∃ k pre post, ks = pre ++ k :: post ∧ (∀ j ∈ pre, ∀ d ∈ l j, h.sizeAt d < n) ∧
          Fits h.sizeAt n (l k) (some b)
  | [] => ⟨none, rfl, by simp⟩
  | k :: ks => by
    obtain ⟨o, ho, hfit⟩ := hL.run_bestFit k n
    rw [FreeList.firstFit, query_bind ho]
    cases o with
    | some b => exact ⟨some b, rfl, k, [], ks, rfl, by simp, hfit⟩
    | none =>
      obtain ⟨o, ho, hrest⟩ := hL.run_firstFit n ks
      refine ⟨o, ho, ?_⟩
      cases o with
      | none =>
        intro j hj
        rcases List.mem_cons.mp hj with rfl | hj
        · exact hfit
        · exact hrest j hj
      | some b =>
        obtain ⟨j, pre, post, rfl, hpre, hb⟩ := hrest
        refine ⟨j, k :: pre, post, rfl, fun i hi => ?_, hb⟩
        rcases List.mem_cons.mp hi with rfl | hi
        · exact hfit
        · exact hpre i hi

theorem SizeClass.lt_of_ofSize_lt {a b : Nat} (hlt : ofSize a < ofSize b) : a < b := by
  exact Nat.lt_of_not_le fun hle => Fin.not_lt.mpr (ofSize_mono hle) hlt

theorem SizeClass.mem_ofSizeOrMore {k : SizeClass} : k ∈ ofSizeOrMore n ↔ ofSize n ≤ k := by
  rw [ofSizeOrMore, all, List.mem_drop_iff_getElem]
  simp only [List.getElem_finRange, Fin.ext_iff, Fin.le_def]
  constructor
  · intro hr
    obtain ⟨i, hi, he⟩ := hr
    simp at he; omega
  · intro hle
    exact ⟨k - ofSize n, by simp; omega, by simp; omega⟩

def BestFit (w : List Cell) (l : Lists) (n : Nat) : Option Cell → Prop
  | none => ∀ d ∈ w, l.Has d.block → d.size < n
  | some c => c ∈ w ∧ l.Has c.block ∧ n ≤ c.size ∧
      (∀ d ∈ w, l.Has d.block → n ≤ d.size → c.size ≤ d.size) ∧
      ∃ xs ys, l (SizeClass.ofSize c.size) = xs ++ c.block :: ys ∧
        ∀ d ∈ w, d.block ∈ xs → d.size ≠ c.size

theorem Laid.run_findFit (hL : Laid h w l) (n : Nat) :
    ∃ o : Option Cell, findFit n h = .ok (o.map Cell.block) ∧ BestFit w l n o := by
  obtain ⟨o, ho, hfit⟩ := hL.run_firstFit n (SizeClass.ofSizeOrMore n)
  have hclass : ∀ d ∈ w, l.Has d.block → n ≤ d.size → ∃ k, d.block ∈ l k ∧
      k = SizeClass.ofSize d.size ∧ k ∈ SizeClass.ofSizeOrMore n := fun d hd hb hn =>
    ⟨_, (hL.mem_of_has hd hb).2, rfl, SizeClass.mem_ofSizeOrMore.mpr (SizeClass.ofSize_mono hn)⟩
  cases o with
  | none =>
    refine ⟨none, ho, fun d hd hb => Nat.lt_of_not_le fun hn => ?_⟩
    obtain ⟨k, hk, -, hkn⟩ := hclass d hd hb hn
    have := hfit k hkn _ hk
    rw [hL.sizeAt hd] at this
    omega
  | some b =>
    obtain ⟨k, pre, post, hks, hpre, hbest⟩ := hfit
    obtain ⟨c, hc, rfl, -, rfl⟩ := hL.filed k b hbest.mem
    have hsorted : (SizeClass.ofSizeOrMore n).Pairwise (· < ·) :=
      (List.pairwise_lt_finRange classCount).sublist (List.drop_sublist _ _)
    rw [hks, List.pairwise_append, List.pairwise_cons] at hsorted
    refine ⟨some c, ho, hc, ⟨_, hbest.mem⟩, hL.sizeAt hc ▸ hbest.1, fun d hd hb hn => ?_, ?_⟩
    · obtain ⟨j, hj, hjd, hjn⟩ := hclass d hd hb hn
      rw [hks] at hjn
      rcases List.mem_append.mp hjn with hjn | hjn
      · have := hpre j hjn _ hj
        rw [hL.sizeAt hd] at this
        omega
      rcases List.mem_cons.mp hjn with rfl | hjn
      · have := hbest.least hj (by rw [hL.sizeAt hd]; exact hn)
        rwa [hL.sizeAt hc, hL.sizeAt hd] at this
      · -- every block of a later class is larger than all of this one
        have := hsorted.2.1.1 j hjn
        exact Nat.le_of_lt (SizeClass.lt_of_ofSize_lt (hjd ▸ this))
    · obtain ⟨hn, xs, ys, hxy, hx, -⟩ := hbest
      refine ⟨xs, ys, hxy, fun d hd hdx he => ?_⟩
      have := hx _ hdx
      rw [hL.sizeAt hc] at this hn
      rw [hL.sizeAt hd] at this
      omega

end SegregatedFit
