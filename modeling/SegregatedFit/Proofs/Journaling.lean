import SegregatedFit.FreeList
import SegregatedFit.Proofs.Outcome

/-!
# What the journal tells

The allocator never reads its journal, but a reader can tell from it in which order
blocks have been put into lists: every insertion is noted before it is made. Whatever
else is done to tags and links is quiet.
-/

namespace SegregatedFit

variable {α β : Type} {h h' : Heap} {a : α} {x : Action α} {f : α → Action β} {b : Block}

/-! ## Insertions -/

def Event.inserted : Event → Option Block
  | .extended _ b _ | .coalesced _ _ b _ | .split _ _ _ b | .released b _ => some b
  | _ => none

def Heap.inserted (h : Heap) : List Block := h.journal.toList.filterMap Event.inserted

theorem inserted_push (h : Heap) (e : Event) :
    Heap.inserted { h with journal := h.journal.push e } = h.inserted ++ e.inserted.toList := by
  unfold Heap.inserted
  rw [Array.toList_push, List.filterMap_append, List.filterMap_cons, List.filterMap_nil]
  cases e.inserted <;> rfl

theorem getLast?_inserted_push {e : Event} (he : e.inserted = some b) :
    (Heap.inserted { h with journal := h.journal.push e }).getLast? = some b := by
  rw [inserted_push, he]
  exact List.getLast?_concat

/-- Nothing has happened but that other events have been noted. -/
structure Heap.Idle (h h' : Heap) : Prop where
  heap : h' = { h with journal := h'.journal }
  inserted : h'.inserted = h.inserted

namespace Heap.Idle

theorem refl (h : Heap) : h.Idle h := ⟨rfl, rfl⟩

theorem record {e : Event} (he : e.inserted = none) : h.Idle { h with journal := h.journal.push e } :=
  ⟨rfl, by rw [inserted_push, he]; exact List.append_nil _⟩

theorem bare (hi : h.Idle h') : h'.bare = h.bare := by rw [hi.heap]; exact bare_journal _ _

theorem heads (hi : h.Idle h') : h'.heads = h.heads := by rw [hi.heap]

theorem memory (hi : h.Idle h') : h'.memory = h.memory := by rw [hi.heap]

end Heap.Idle

def Newer (bs : List Block) (b d : Block) : Prop := ∃ xs ys, bs = xs ++ b :: ys ∧ d ∉ ys

namespace Newer

variable {bs cs : List Block} {d : Block}

theorem append (hn : Newer bs b d) (hd : d ∉ cs) : Newer (bs ++ cs) b d := by
  obtain ⟨xs, ys, rfl, hys⟩ := hn
  refine ⟨xs, ys ++ cs, by simp, fun hm => ?_⟩
  rcases List.mem_append.mp hm with hm | hm
  · exact hys hm
  · exact hd hm

theorem of_getLast? (hb : bs.getLast? = some b) : Newer bs b d := by
  obtain ⟨xs, rfl⟩ := List.getLast?_eq_some_iff.mp hb
  exact ⟨xs, [], rfl, List.not_mem_nil⟩

end Newer

/-! ## Quiet actions -/

def Quiet (x : Action α) : Prop := ∀ h a h', x h = .ok a h' → h'.inserted = h.inserted

theorem run_bind_inv {b : β} (hr : (x >>= f) h = .ok b h') :
    ∃ a h₁, x h = .ok a h₁ ∧ f a h₁ = .ok b h' := by
  change EStateM.bind x f h = _ at hr
  unfold EStateM.bind at hr
  cases hx : x h with
  | ok a h₁ => rw [hx] at hr; exact ⟨a, h₁, rfl, hr⟩
  | error e h₁ => rw [hx] at hr; cases hr

theorem Ends.quiet {Q : α → Heap → Prop} (hx : Ends x h Q) (hq : Quiet x) :
    Ends x h fun a h' => Q a h' ∧ h'.inserted = h.inserted := by
  obtain ⟨a, h', hr, hQ⟩ := hx
  exact ⟨a, h', hr, hQ, hq h a h' hr⟩

namespace Quiet

theorem pure (a : α) : Quiet (Pure.pure a : Action α) := by
  intro h b h' hr
  cases hr
  rfl

theorem bind (hx : Quiet x) (hf : ∀ a, Quiet (f a)) : Quiet (x >>= f) := by
  intro h b h' hr
  obtain ⟨a, h₁, hr₁, hr₂⟩ := run_bind_inv hr
  exact (hf a _ _ _ hr₂).trans (hx _ _ _ hr₁)

theorem query (q : Query α) : Quiet (liftM q : Action α) := by
  intro h a h' hr
  cases hq : q h with
  | ok b => rw [run_query hq] at hr; cases hr; rfl
  | error e => rw [run_query_error hq] at hr; cases hr

theorem bind_query {q : Query α} (hf : ∀ a, Quiet (f a)) : Quiet ((liftM q : Action α) >>= f) :=
  (query q).bind hf

theorem store (addr word : Nat) : Quiet (store addr word) := by
  intro h a h' hr
  unfold SegregatedFit.store at hr
  split at hr <;> cases hr
  rfl

theorem demand (p : Prop) [Decidable p] (e : Fault) : Quiet (demand p e) := by
  intro h a h' hr
  unfold SegregatedFit.demand at hr
  split at hr <;> cases hr
  rfl

theorem ite {p : Prop} [Decidable p] {y : Action α} (hx : Quiet x) (hy : Quiet y) :
    Quiet (if p then x else y) := by
  by_cases hp : p
  · rw [if_pos hp]; exact hx
  · rw [if_neg hp]; exact hy

theorem forM {o : Option α} {f : α → Action Unit} (hf : ∀ a, Quiet (f a)) : Quiet (o.forM f) := by
  cases o with
  | none => exact pure ()
  | some a => exact hf a

/-! ### Tags and links -/

theorem setTags (b : Block) (t : Tag) : Quiet (b.setTags t) := by
  refine (store _ _).bind fun _ => ?_
  exact bind_query fun _ => store _ _

theorem formatFree (b : Block) (n : Nat) (p : Bool) : Quiet (b.formatFree n p) :=
  (demand _ _).bind fun _ => setTags b _

theorem setPrevAlloc (b : Block) (p : Bool) : Quiet (b.setPrevAlloc p) := by
  refine bind_query fun t => (store _ _).bind fun _ => ?_
  exact ite (bind_query fun _ => store _ _) (pure ())

theorem setHead (k : SizeClass) (link : Option Block) : Quiet (FreeList.setHead k link) := by
  intro h a h' hr
  cases hr
  rfl

theorem insert (b : Block) : Quiet (FreeList.insert b) := by
  refine bind_query fun n => bind_query fun old => ?_
  refine (store _ _).bind fun _ => (store _ _).bind fun _ => ?_
  exact (forM fun _ => store _ _).bind fun _ => setHead _ _

theorem bypass (k : SizeClass) (b : Block) (next prev : Option Block) :
    Quiet (FreeList.bypass k b next prev) := by
  cases prev with
  | some d => exact store _ _
  | none =>
    refine bind_query fun head => (demand _ _).bind fun _ => ?_
    exact setHead _ _

theorem remove (b : Block) : Quiet (FreeList.remove b) := by
  refine bind_query fun n => bind_query fun prev => bind_query fun next => ?_
  refine (bypass _ b _ _).bind fun _ => ?_
  exact forM fun _ => store _ _

end Quiet

end SegregatedFit
