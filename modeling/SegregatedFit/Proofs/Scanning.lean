import Mathlib.Data.List.MinMax
import SegregatedFit.Proofs.Fitting

/-!
# Searching and scanning

A search that ends at an exact fit finds what a scan of the whole list finds: the first
of the least members that are large enough, whatever the sizes of the members are and in
whatever order they come.
-/

namespace SegregatedFit

variable {h : Heap} {sz : Block → Nat} {n k : Nat} {c : SizeClass} {xs bs : List Block} {b : Block}
  {link : Option Block} {best : Option (Block × Nat)} {o : Option Block}

namespace FreeList

def scanFrom (n : Nat) : Nat → Option (Block × Nat) → Option Block → Query (Option Block)
  | _, best, none => return best.map (·.1)
  | 0, _, some _ => throw .endlessWalk
  | k + 1, best, some b => do
    let size ← b.size
    if size < n ∨ best.any (·.2 ≤ size) then scanFrom n k best (← b.nextFree)
    else scanFrom n k (some (b, size)) (← b.nextFree)

def scan (c : SizeClass) (n : Nat) : Query (Option Block) := do
  scanFrom n wordLimit none (← head c)

theorem run_scanFrom (hbs : chain k link h = .ok bs) (hsz : ∀ d ∈ bs, d.size h = .ok (sz d))
    (hbest : Candidate sz n xs best) : ∃ o, scanFrom n k best link h = .ok o ∧ Fits sz n (xs ++ bs) o := by
  induction k, link using chain.induct generalizing bs xs best with
  | case1 k =>
    obtain rfl := chain_none hbs
    exact ⟨best.map (·.1), by cases k <;> rfl, by rw [List.append_nil]; exact hbest.fits⟩
  | case2 b => cases hbs
  | case3 k b ih =>
    obtain ⟨link, ds, hlink, hds, rfl⟩ := chain_some hbs
    obtain ⟨hb, hsz⟩ := List.forall_mem_cons.mp hsz
    rw [scanFrom, query_bind hb, List.append_cons]
    by_cases hskip : sz b < n ∨ best.any (·.2 ≤ sz b)
    · rw [if_pos hskip, query_bind hlink]
      exact ih link hds hsz (hbest.skip hskip)
    · rw [if_neg hskip, query_bind hlink]
      exact ih link hds hsz (hbest.take hskip)

theorem run_scan (hm : members c h = .ok bs) (hsz : ∀ d ∈ bs, d.size h = .ok (sz d)) :
    ∃ o, scan c n h = .ok o ∧ Fits sz n bs o := by
  have hhead : head c h = .ok (h.heads.get c) := rfl
  rw [members, query_bind hhead] at hm
  rw [scan, query_bind hhead]
  exact run_scanFrom hm hsz .none

end FreeList

/-! ## The least of a list -/

namespace Fits

theorem eq_none_iff (hf : Fits sz n bs o) : o = none ↔ ∀ d ∈ bs, sz d < n := by
  cases o with
  | none => exact ⟨fun _ => hf, fun _ => rfl⟩
  | some b =>
    refine ⟨fun he => ?_, fun hlt => absurd (hlt b hf.mem) (Nat.not_lt_of_le hf.1)⟩
    cases he

/-- What is found is the least member that is large enough, and the first of equals. -/
theorem eq_argmin (hf : Fits sz n bs o) : o = (bs.filter (n ≤ sz ·)).argmin sz := by
  cases o with
  | none =>
    have hnil : bs.filter (n ≤ sz ·) = [] :=
      List.filter_eq_nil_iff.mpr fun d hd => by simpa using hf d hd
    rw [hnil, List.argmin_nil]
  | some b =>
    refine (Option.mem_def.mp (List.mem_argmin_iff.mpr ⟨?_, fun d hd => ?_, fun d hd hle => ?_⟩)).symm
    · exact List.mem_filter.mpr ⟨hf.mem, decide_eq_true hf.1⟩
    · obtain ⟨hd, hn⟩ := List.mem_filter.mp hd
      exact hf.least hd (of_decide_eq_true hn)
    · -- a member that is as small does not come before `b`, as all that do are larger
      obtain ⟨hn, xs, ys, rfl, hx, -⟩ := hf
      have hcons : (b :: ys).filter (n ≤ sz ·) = b :: ys.filter (n ≤ sz ·) :=
        List.filter_cons_of_pos (decide_eq_true hn)
      rw [List.filter_append, hcons]
      have hlt : ∀ e ∈ xs.filter (n ≤ sz ·), sz b < sz e := fun e he =>
        hx e (List.mem_filter.mp he).1 (of_decide_eq_true (List.mem_filter.mp he).2)
      have hb : b ∉ xs.filter (n ≤ sz ·) := fun hm => Nat.lt_irrefl _ (hlt b hm)
      have hd' : d ∉ xs.filter (n ≤ sz ·) := fun hm => Nat.not_lt_of_le hle (hlt d hm)
      rw [List.idxOf_append_of_notMem hb, List.idxOf_append_of_notMem hd', List.idxOf_cons_self]
      omega

end Fits

/-- Whatever list a class holds and whatever is asked for, a search gives what a scan of the whole
list gives: none if no member is large enough, and else the first of the least ones that are. -/
theorem FreeList.bestFit_eq_scan (hm : members c h = .ok bs)
    (hr : ∀ b ∈ bs, h.permits b.headerAddr wordSize = true) (n : Nat) :
    ∃ o, bestFit c n h = .ok o ∧ scan c n h = .ok o ∧ o = (bs.filter (n ≤ h.sizeAt ·)).argmin h.sizeAt ∧
      (o = none ↔ ∀ d ∈ bs, h.sizeAt d < n) ∧ Fits h.sizeAt n bs o := by
  have hsz : ∀ d ∈ bs, d.size h = .ok (h.sizeAt d) := fun d hd => run_size (hr d hd)
  obtain ⟨o, ho, hf⟩ := run_bestFit (n := n) hm hsz
  obtain ⟨o', ho', hf'⟩ := run_scan (n := n) hm hsz
  obtain rfl : o' = o := hf'.eq_argmin.trans hf.eq_argmin.symm
  exact ⟨o', ho, ho', hf.eq_argmin, hf.eq_none_iff, hf⟩

theorem tieRun_bestFit_eq_scan : FreeList.members 1 tieRun.heap = .ok [⟨4224⟩, ⟨4128⟩, ⟨4320⟩] ∧
    FreeList.bestFit 1 33 tieRun.heap = .ok (some ⟨4224⟩) ∧
    FreeList.scan 1 33 tieRun.heap = .ok (some ⟨4224⟩) := by
  have hm : FreeList.members 1 tieRun.heap = .ok [⟨4224⟩, ⟨4128⟩, ⟨4320⟩] := by decide +kernel
  have hbest : FreeList.bestFit 1 33 tieRun.heap = .ok (some ⟨4224⟩) := by decide +kernel
  obtain ⟨o, ho, hscan, -⟩ := FreeList.bestFit_eq_scan hm (by decide +kernel) 33
  rw [hbest] at ho
  cases ho
  exact ⟨hm, hbest, hscan⟩

end SegregatedFit
