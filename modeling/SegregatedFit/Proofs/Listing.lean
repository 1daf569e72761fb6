import SegregatedFit.Proofs.Fitting
import SegregatedFit.Proofs.Intact

/-!
# Free lists as sequences

Over blocks that keep apart, the free lists are one sequence of blocks for each class:
to insert a block is to put it in front of one, and to remove it is to take it out of that.
Both ways along the links and all queries show these sequences, and an edit writes no
more than the links that it has to.
-/

namespace SegregatedFit

open Block

variable {h h₁ h' : Heap} {sz : Block → Nat} {P : List Block} {l l' : Lists} {b d : Block} {k : SizeClass}

/-! ## Blocks that can be listed -/

/-- Free blocks of fixed sizes, of which no two overlap and none wraps around. -/
structure Stock (h : Heap) (sz : Block → Nat) (P : List Block) : Prop where
  size : ∀ b ∈ P, Tag.size ⟨h.memory.word (b.payload - wordSize)⟩ = sz b
  free : ∀ b ∈ P, Tag.isAlloc ⟨h.memory.word (b.payload - wordSize)⟩ = false
  le_size : ∀ b ∈ P, minBlock ≤ sz b
  low : ∀ b ∈ P, wordSize ≤ b.payload
  high : ∀ b ∈ P, b.payload + sz b ≤ wordLimit + wordSize
  apart : ∀ b ∈ P, ∀ d ∈ P, b ≠ d → b.payload + sz b ≤ d.payload ∨ d.payload + sz d ≤ b.payload
  reach : ∀ b ∈ P, h.permits (b.payload - wordSize) (sz b) = true

namespace Stock

theorem node (hs : Stock h sz P) (hb : b ∈ P) : b.Node h := by
  have hmin := hs.le_size b hb
  have hlo := hs.low b hb
  have hhi := hs.high b hb
  simp only [wordSize, minBlock] at hmin hlo hhi
  refine ⟨by omega, by omega, permits_part (hs.reach b hb) (Nat.sub_le _ _) ?_⟩
  simp only [wordSize]
  omega

theorem linksApart (hs : Stock h sz P) (hb : b ∈ P) (hd : d ∈ P) (hne : b ≠ d) : b.Apart d := by
  have hbs := hs.le_size b hb
  have hds := hs.le_size d hd
  have hbd := hs.apart b hb d hd hne
  simp only [minBlock] at hbs hds
  unfold Block.Apart
  omega

theorem headerAddr (hs : Stock h sz P) (hb : b ∈ P) : b.headerAddr = b.payload - wordSize :=
  headerAddr_eq (hs.low b hb)

theorem footerAddr (hs : Stock h sz P) (hb : b ∈ P) : b.footerAddr (sz b) = b.payload + sz b - overhead := by
  have hmin := hs.le_size b hb
  have hhi := hs.high b hb
  unfold Block.footerAddr wrapAdd wrapSub
  simp only [wordLimit, wordSize, overhead, minBlock] at *
  split <;> split <;> omega

theorem run_header (hs : Stock h sz P) (hb : b ∈ P) :
    b.header h = .ok ⟨h.memory.word (b.payload - wordSize)⟩ := by
  have hmin := hs.le_size b hb
  have hp : h.permits b.headerAddr wordSize = true := by
    rw [hs.headerAddr hb]
    apply permits_part (hs.reach b hb) (Nat.le_refl _)
    simp only [wordSize, minBlock] at *
    omega
  rw [SegregatedFit.run_header hp, hs.headerAddr hb]

theorem run_size (hs : Stock h sz P) (hb : b ∈ P) : b.size h = .ok (sz b) := by
  rw [Block.size, query_bind (hs.run_header hb), hs.size b hb]
  rfl

theorem run_footer (hs : Stock h sz P) (hb : b ∈ P) :
    b.footer h = .ok ⟨h.memory.word (b.payload + sz b - overhead)⟩ := by
  have hmin := hs.le_size b hb
  have hlo := hs.low b hb
  have hp : h.permits (b.payload + sz b - overhead) wordSize = true := by
    apply permits_part (hs.reach b hb) <;> simp only [wordSize, overhead, minBlock] at * <;> omega
  rw [Block.footer, query_bind (hs.run_header hb), hs.size b hb, hs.footerAddr hb, query_bind (run_load hp)]
  rfl

theorem tag_word (hs : Stock h sz P) (ht : Touches h h' (LinkBytes (· ∈ P) (· ∈ P))) (hb : b ∈ P) :
    h'.memory.word (b.payload - wordSize) = h.memory.word (b.payload - wordSize) ∧
      h'.memory.word (b.payload + sz b - overhead) = h.memory.word (b.payload + sz b - overhead) := by
  have hlink : ∀ x, LinkBytes (· ∈ P) (· ∈ P) x → ∃ d ∈ P, d.payload ≤ x ∧ x < d.payload + 16 := by
    intro x hx
    rcases hx with ⟨d, hd, hlo, hhi⟩ | ⟨d, hd, hlo, hhi⟩
    · exact ⟨d, hd, hlo, by omega⟩
    · exact ⟨d, hd, by omega, hhi⟩
  have hlo := hs.low b hb
  have hmin := hs.le_size b hb
  simp only [wordSize, overhead, minBlock] at *
  constructor
  all_goals
    refine ht.word fun x hx₁ hx₂ hx => ?_
    obtain ⟨d, hd, hdx⟩ := hlink x hx
    have hdm := hs.le_size d hd
    simp only [minBlock] at hdm
    by_cases he : b = d
    · subst he
      omega
    · have hbd := hs.apart b hb d hd he
      omega

theorem touches (hs : Stock h sz P) (ht : Touches h h' (LinkBytes (· ∈ P) (· ∈ P))) : Stock h' sz P where
  size b hb := by
    rw [(hs.tag_word ht hb).1]
    exact hs.size b hb
  free b hb := by
    rw [(hs.tag_word ht hb).1]
    exact hs.free b hb
  le_size := hs.le_size
  low := hs.low
  high := hs.high
  apart := hs.apart
  reach b hb := by
    rw [permits_of_bare ht.bare]
    exact hs.reach b hb

theorem run_tags (hs : Stock h sz P) (ht : Touches h h' (LinkBytes (· ∈ P) (· ∈ P))) (hb : b ∈ P) :
    b.header h' = b.header h ∧ b.footer h' = b.footer h := by
  have hs' := hs.touches ht
  obtain ⟨hhead, hfoot⟩ := hs.tag_word ht hb
  rw [hs'.run_header hb, hs.run_header hb, hs'.run_footer hb, hs.run_footer hb, hhead, hfoot]
  exact ⟨rfl, rfl⟩

end Stock

/-! ## Edits -/

namespace FreeList

inductive Edit where
  | insert (b : Block)
  | remove (b : Block)

namespace Edit

def run : Edit → Action Unit
  | .insert b => FreeList.insert b
  | .remove b => FreeList.remove b

def Legal (P : List Block) (l : Lists) : Edit → Prop
  | .insert b => b ∈ P ∧ ¬ l.Has b
  | .remove b => l.Has b

instance (P : List Block) (l : Lists) : DecidablePred (Legal P l)
  | .insert b => inferInstanceAs (Decidable (b ∈ P ∧ ¬ ∃ k, b ∈ l k))
  | .remove b => inferInstanceAs (Decidable (∃ k, b ∈ l k))

def apply (sz : Block → Nat) (l : Lists) : Edit → Lists
  | .insert b => l.push (SizeClass.ofSize (sz b)) b
  | .remove b => l.without b

/-- The bytes an edit may write: both links of a block that is inserted and the link back of
the head it takes over from, or a link of each neighbour of a block that is removed. -/
def Writes (sz : Block → Nat) (l : Lists) : Edit → Nat → Prop
  | .insert b => LinkBytes (· = b) fun d => d = b ∨ d ∈ (l (SizeClass.ofSize (sz b))).head?
  | .remove b => LinkBytes (fun d => ∃ k, [d, b] <:+: l k) fun d => ∃ k, [b, d] <:+: l k

end Edit

inductive Edits (sz : Block → Nat) (P : List Block) : Lists → List Edit → Lists → Prop
  | nil (l : Lists) : Edits sz P l [] l
  | cons {l l' : Lists} {e : Edit} {es : List Edit} (he : e.Legal P l) (hes : Edits sz P (e.apply sz l) es l') :
      Edits sz P l (e :: es) l'

def retrace : Nat → Option Block → Query (List Block)
  | _, none => return []
  | 0, some _ => throw .endlessWalk
  | n + 1, some b => return b :: (← retrace n (← b.prevFree))

end FreeList

open FreeList

structure Represents (h : Heap) (l : Lists) : Prop where
  members : ∀ k, members k h = .ok (l k)
  back : ∀ k, retrace wordLimit (l k).getLast? h = .ok (l k).reverse
  head : ∀ k, head k h = .ok (l k).head?
  length : length h = .ok l.flat.length
  isEmpty : isEmpty h = .ok l.flat.isEmpty

structure Shelved (h : Heap) (sz : Block → Nat) (P : List Block) (l : Lists) : Prop extends Threaded h l where
  stock : Stock h sz P
  filed : ∀ k, ∀ b ∈ l k, b ∈ P ∧ SizeClass.ofSize (sz b) = k

/-! ## Queries -/

theorem query_mapM {α β : Type} {f : α → Query β} {g : α → β} (hf : ∀ a, f a h = .ok (g a)) (xs : List α) :
    xs.mapM f h = .ok (xs.map g) := by
  induction xs with
  | nil => rfl
  | cons a xs ih =>
    rw [List.mapM_cons, query_bind (hf a), query_bind ih]
    rfl

namespace Threaded

theorem run_retrace (hl : Threaded h l) {bs : List Block} {after : Option Block} {n : Nat}
    (ht : Threads h.memory after none bs) (hbs : ∀ b ∈ bs, l.Has b) (hn : bs.length ≤ n) :
    retrace n bs.getLast? h = .ok bs.reverse := by
  induction bs using List.reverseRecOn generalizing after n with
  | nil => cases n <;> rfl
  | append_singleton bs b ih =>
    rw [List.length_append, List.length_singleton] at hn
    cases n with
    | zero => cases hn
    | succ n =>
      obtain ⟨hbs, hb⟩ := List.forall_mem_append.mp hbs
      have hb := hb b (List.mem_singleton_self b)
      obtain ⟨ht, -, hprev, -⟩ := threads_append.mp ht
      have hback : b.prevFree h = .ok bs.getLast? := by
        rw [(hl.node hb).run_prevFree, hprev, Option.or_none, hl.ofLinkWord fun d hd =>
          hbs d (List.mem_of_getLast? hd)]
      rw [List.getLast?_concat, retrace, query_bind hback, query_bind (ih ht hbs (Nat.le_of_succ_le_succ hn)),
        List.reverse_concat]
      rfl

theorem run_length (hl : Threaded h l) : length h = .ok l.flat.length := by
  rw [length, query_bind (query_mapM hl.run_members SizeClass.all)]
  have hsum : (SizeClass.all.map l).foldl (fun n bs => n + bs.length) 0 = l.flat.length := by
    rw [Lists.flat, List.length_flatMap, List.sum_eq_foldl, List.foldl_map, List.foldl_map]
  rw [← hsum]
  rfl

theorem run_isEmpty (hl : Threaded h l) : isEmpty h = .ok l.flat.isEmpty := by
  have hall : h.heads.all Option.isNone = l.flat.isEmpty := by
    rw [Bool.eq_iff_iff, Vector.all_eq_true, List.isEmpty_iff, Lists.flat, List.flatMap_eq_nil_iff]
    constructor
    · intro hh k _
      have hk : (h.heads.get k).isNone = true := hh k k.isLt
      rwa [hl.heads, Option.isNone_iff_eq_none, List.head?_eq_none_iff] at hk
    · intro hh i hi
      have hk : (h.heads.get ⟨i, hi⟩).isNone = true := by
        rw [hl.heads, hh _ (List.mem_finRange _)]
        rfl
      exact hk
  exact congrArg Except.ok hall

theorem represents (hl : Threaded h l) : Represents h l where
  members := hl.run_members
  back k := hl.run_retrace (hl.threads k) (fun _ hb => ⟨k, hb⟩) (Nat.le_of_lt (hl.length_list k))
  head := run_head hl
  length := hl.run_length
  isEmpty := hl.run_isEmpty

end Threaded

/-! ## Single edits -/

namespace Shelved

theorem mem_of_has (hl : Shelved h sz P l) (hb : l.Has b) : b ∈ P ∧ b ∈ l (SizeClass.ofSize (sz b)) := by
  obtain ⟨k, hk⟩ := hb
  obtain ⟨hbP, rfl⟩ := hl.filed k b hk
  exact ⟨hbP, hk⟩

theorem writes (hl : Shelved h sz P l) {e : Edit} (he : e.Legal P l) {x : Nat} (hx : e.Writes sz l x) :
    LinkBytes (· ∈ P) (· ∈ P) x := by
  have hmem : ∀ d, l.Has d → d ∈ P := fun d hd => (hl.mem_of_has hd).1
  cases e with
  | insert b =>
    refine LinkBytes.mono (fun d hd => ?_) (fun d hd => ?_) hx
    · exact hd ▸ he.1
    · rcases hd with rfl | hd
      · exact he.1
      · exact hmem d ⟨_, List.mem_of_head? hd⟩
  | remove b =>
    refine LinkBytes.mono (fun d hd => ?_) (fun d hd => ?_) hx
    all_goals
      obtain ⟨k, hk⟩ := hd
      exact hmem d ⟨k, hk.subset (by simp)⟩

theorem ends_insert (hl : Shelved h sz P l) (hb : b ∈ P) (hn : ¬ l.Has b) :
    Ends (FreeList.insert b) h fun _ h' => Threaded h' (l.push (SizeClass.ofSize (sz b)) b) ∧
      Touches h h' ((Edit.insert b).Writes sz l) := by
  have hs := hl.stock
  refine hl.insert (hs.node hb) (hs.run_size hb) hn fun d hd => ?_
  exact hs.linksApart hb (hl.mem_of_has hd).1 fun he => hn (he ▸ hd)

theorem ends_remove (hl : Shelved h sz P l) (hb : l.Has b) :
    Ends (FreeList.remove b) h fun _ h' => Threaded h' (l.without b) ∧
      Touches h h' ((Edit.remove b).Writes sz l) := by
  obtain ⟨hbP, hbl⟩ := hl.mem_of_has hb
  obtain ⟨xs, ys, hxy⟩ := List.append_of_mem hbl
  refine (hl.remove (hl.stock.run_size hbP) hxy).mono ?_
  intro _ h' hr
  refine ⟨hr.1, hr.2.mono fun x hx => LinkBytes.mono (fun d hd => ?_) (fun d hd => ?_) hx⟩
  · obtain ⟨xs, rfl⟩ := List.getLast?_eq_some_iff.mp hd
    exact ⟨_, xs, ys, by rw [hxy]; simp⟩
  · obtain ⟨ys, rfl⟩ := List.head?_eq_some_iff.mp hd
    exact ⟨_, xs, ys, by rw [hxy]; simp⟩

theorem ends_edit (hl : Shelved h sz P l) {e : Edit} (he : e.Legal P l) :
    Ends e.run h fun _ h' => Shelved h' sz P (e.apply sz l) ∧ Touches h h' (e.Writes sz l) := by
  have hthreaded : Ends e.run h fun _ h' => Threaded h' (e.apply sz l) ∧ Touches h h' (e.Writes sz l) := by
    cases e with
    | insert b => exact hl.ends_insert he.1 he.2
    | remove b => exact hl.ends_remove he
  refine hthreaded.mono ?_
  intro _ h' hr
  obtain ⟨hl', ht⟩ := hr
  refine ⟨⟨hl', hl.stock.touches (ht.mono fun _ => hl.writes he), fun k d hd => ?_⟩, ht⟩
  cases e with
  | insert b =>
    rcases Lists.mem_push.mp hd with ⟨rfl, rfl⟩ | hd
    · exact ⟨he.1, rfl⟩
    · exact hl.filed k d hd
  | remove b => exact hl.filed k d (List.mem_of_mem_erase hd)

/-! ## Sequences of edits -/

theorem ends_edits {es : List Edit} (hes : Edits sz P l es l') (hl : Shelved h sz P l) :
    Ends (es.forM Edit.run) h fun _ h' => Shelved h' sz P l' ∧ Touches h h' (LinkBytes (· ∈ P) (· ∈ P)) := by
  induction hes generalizing h with
  | nil l => exact Ends.pure ⟨hl, .refl _ _⟩
  | cons he _ ih =>
    refine Ends.bind (hl.ends_edit he) ?_
    intro _ h₁ hr
    obtain ⟨hl₁, ht₁⟩ := hr
    refine (ih hl₁).mono ?_
    intro _ h₂ hr
    exact ⟨hr.1, (ht₁.mono fun _ => hl.writes he).trans hr.2⟩

end Shelved

/-- Free lists that were empty represent one sequence for each class, whatever is inserted and
removed, and of the memory an edit writes its links only. -/
theorem lists_refine_sequences (hs : Stock h sz P) (hempty : ∀ k : SizeClass, h.heads.get k = none) {es : List Edit}
    (hes : Edits sz P (fun _ => []) es l) : Ends (es.forM Edit.run) h fun _ h₁ => Represents h₁ l ∧
      Touches h h₁ (LinkBytes (· ∈ P) (· ∈ P)) ∧
      ∀ e : Edit, e.Legal P l → Ends e.run h₁ fun _ h₂ => Represents h₂ (e.apply sz l) ∧
        Touches h₁ h₂ (e.Writes sz l) ∧ ∀ b ∈ P, b.header h₂ = b.header h₁ ∧ b.footer h₂ = b.footer h₁ := by
  have hl : Shelved h sz P fun _ => [] := ⟨threaded_nil hempty, hs, fun _ _ hb => by cases hb⟩
  refine (hl.ends_edits hes).mono ?_
  intro _ h₁ hr
  obtain ⟨hl₁, ht₁⟩ := hr
  refine ⟨hl₁.represents, ht₁, fun e he => (hl₁.ends_edit he).mono ?_⟩
  intro _ h₂ hr
  obtain ⟨hl₂, ht₂⟩ := hr
  refine ⟨hl₂.represents, ht₂, fun b hb => ?_⟩
  exact hl₁.stock.run_tags (ht₂.mono fun _ => hl₁.writes he) hb

def unlistedHeap : Heap := { tieRun.heap with heads := .replicate classCount none }

def unlistedSize (b : Block) : Nat := if b.payload = 4320 then 64 else 48

theorem stock_unlistedHeap : Stock unlistedHeap unlistedSize [⟨4128⟩, ⟨4224⟩, ⟨4320⟩] := by
  have hmem : ∀ b ∈ ([⟨4128⟩, ⟨4224⟩, ⟨4320⟩] : List Block),
      Tag.size ⟨unlistedHeap.memory.word (b.payload - wordSize)⟩ = unlistedSize b ∧
      Tag.isAlloc ⟨unlistedHeap.memory.word (b.payload - wordSize)⟩ = false ∧
      unlistedHeap.permits (b.payload - wordSize) (unlistedSize b) = true := by decide +kernel
  exact ⟨fun b hb => (hmem b hb).1, fun b hb => (hmem b hb).2.1, by decide, by decide, by decide, by decide,
    fun b hb => (hmem b hb).2.2⟩

theorem unlistedHeap_lists : Ends ([⟨4128⟩, ⟨4224⟩, ⟨4320⟩].forM FreeList.insert) unlistedHeap fun _ h₁ =>
    members 1 h₁ = .ok [⟨4320⟩, ⟨4224⟩, ⟨4128⟩] ∧
      Ends (FreeList.remove ⟨4224⟩) h₁ fun _ h₂ => members 1 h₂ = .ok [⟨4320⟩, ⟨4128⟩] := by
  have hes : Edits unlistedSize [⟨4128⟩, ⟨4224⟩, ⟨4320⟩] (fun _ => [])
      [.insert ⟨4128⟩, .insert ⟨4224⟩, .insert ⟨4320⟩] _ :=
    .cons (by decide) (.cons (by decide) (.cons (by decide) (.nil _)))
  refine (lists_refine_sequences stock_unlistedHeap (by decide) hes).mono ?_
  intro _ h₁ hr
  obtain ⟨hmembers, -, hnext⟩ := hr
  refine ⟨(hmembers.members 1).trans rfl, (hnext (.remove ⟨4224⟩) (by decide)).mono ?_⟩
  intro _ h₂ hr
  exact (hr.1.members 1).trans rfl

end SegregatedFit
