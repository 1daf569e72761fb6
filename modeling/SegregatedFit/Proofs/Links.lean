import SegregatedFit.Proofs.Journaling

/-!
# Lists threaded through memory

`Threads` says that the members of a list are linked both ways through their
link words, and `Linked` that the heads and links of a heap hold one such list
for each class. The members keep apart, so that a link written into one of them
leaves the links of all others alone: putting a block in front and taking a
block out are then local edits of one list. As a block is put in front, each list
stays in the order in which its members were inserted.
-/

namespace SegregatedFit

open Block

def Threads (m : Memory) (after : Option Block) : Option Block → List Block → Prop
  | _, [] => True
  | prev, b :: bs => m.word b.payload = linkWord (bs.head?.or after) ∧
      m.word (b.payload + 8) = linkWord prev ∧ Threads m after (some b) bs

section
variable {m m' : Memory} {after prev : Option Block} {bs ys : List Block}

theorem threads_append : ∀ {xs : List Block} {prev : Option Block},
    Threads m after prev (xs ++ ys) ↔
      Threads m (ys.head?.or after) prev xs ∧ Threads m after (xs.getLast?.or prev) ys
  | [], prev => by simp [Threads]
  | b :: xs, prev => by
    have hlast : (b :: xs).getLast?.or prev = xs.getLast?.or (some b) := by
      rw [List.getLast?_cons]; cases xs.getLast? <;> rfl
    rw [List.cons_append, Threads, threads_append, Threads, List.head?_append, Option.or_assoc, hlast]
    simp only [and_assoc]

theorem Threads.congr : ∀ {bs : List Block} {prev : Option Block}, Threads m after prev bs →
    (∀ b ∈ bs, m'.word b.payload = m.word b.payload ∧
      m'.word (b.payload + 8) = m.word (b.payload + 8)) → Threads m' after prev bs
  | [], _, _, _ => trivial
  | b :: bs, _, ⟨hn, hp, ht⟩, hk => by
    obtain ⟨h₁, h₂⟩ := hk b (by simp)
    exact ⟨h₁.trans hn, h₂.trans hp, ht.congr fun d hd => hk d (by simp [hd])⟩

theorem Threads.rehead {prev' : Option Block} (ht : Threads m after prev bs) (hn : bs.Nodup)
    (hb : ∀ b ∈ bs.head?, m'.word (b.payload + 8) = linkWord prev')
    (hnext : ∀ b ∈ bs, m'.word b.payload = m.word b.payload)
    (hprev : ∀ b ∈ bs, b ∉ bs.head? → m'.word (b.payload + 8) = m.word (b.payload + 8)) :
    Threads m' after prev' bs := by
  cases bs with
  | nil => trivial
  | cons b bs =>
    obtain ⟨h₁, -, h₃⟩ := ht
    refine ⟨(hnext b (by simp)).trans h₁, hb b rfl, h₃.congr fun d hd => ?_⟩
    have hne : d ∉ (b :: bs).head? := by
      intro hr
      cases hr
      exact (List.nodup_cons.mp hn).1 hd
    exact ⟨hnext d (by simp [hd]), hprev d (by simp [hd]) hne⟩

theorem Threads.retail {after' : Option Block} : ∀ {bs : List Block} {prev : Option Block},
    Threads m after prev bs → bs.Nodup →
    (∀ b ∈ bs.getLast?, m'.word b.payload = linkWord after') →
    (∀ b ∈ bs, b ∉ bs.getLast? → m'.word b.payload = m.word b.payload) →
    (∀ b ∈ bs, m'.word (b.payload + 8) = m.word (b.payload + 8)) → Threads m' after' prev bs
  | [], _, _, _, _, _, _ => trivial
  | [b], _, ⟨_, hp, _⟩, _, hb, _, hprev =>
    ⟨hb b rfl, (hprev b (by simp)).trans hp, trivial⟩
  | b :: d :: bs, _, ⟨hn, hp, ht⟩, hnd, hb, hnext, hprev => by
    have hnd := List.nodup_cons.mp hnd
    have hlast : (b :: d :: bs).getLast? = (d :: bs).getLast? := List.getLast?_cons_cons
    have hne : b ∉ (b :: d :: bs).getLast? := by
      rw [hlast]; intro hb'; exact hnd.1 (List.mem_of_getLast? hb')
    refine ⟨(hnext b (by simp) hne).trans hn, (hprev b (by simp)).trans hp, ?_⟩
    refine ht.retail hnd.2 (fun e he => hb e (hlast ▸ he)) (fun e he hl => ?_) fun e he => ?_
    · exact hnext e (List.mem_cons_of_mem _ he) (hlast ▸ hl)
    · exact hprev e (List.mem_cons_of_mem _ he)

end

/-! ## The lists of all classes -/

abbrev Lists := SizeClass → List Block

namespace Lists

def Has (l : Lists) (b : Block) : Prop := ∃ k, b ∈ l k

def push (l : Lists) (k : SizeClass) (b : Block) : Lists :=
  fun j => if j = k then b :: l j else l j

def without (l : Lists) (b : Block) : Lists := fun j => (l j).erase b

theorem mem_push {l : Lists} {j k : SizeClass} {b d : Block} :
    d ∈ l.push k b j ↔ (d = b ∧ j = k) ∨ d ∈ l j := by
  unfold push
  split <;> simp_all

theorem has_push {l : Lists} {k : SizeClass} {b d : Block} :
    (l.push k b).Has d ↔ d = b ∨ l.Has d := by
  unfold Has
  simp only [mem_push]
  constructor
  · intro hr
    obtain ⟨j, ⟨hd, -⟩ | hj⟩ := hr
    · exact .inl hd
    · exact .inr ⟨j, hj⟩
  · intro hr
    rcases hr with hd | ⟨j, hj⟩
    · exact ⟨k, .inl ⟨hd, rfl⟩⟩
    · exact ⟨j, .inr hj⟩

theorem Has.of_without {l : Lists} {b d : Block} : (l.without b).Has d → l.Has d
  | ⟨j, hj⟩ => ⟨j, List.mem_of_mem_erase hj⟩

end Lists

def Dated (bs : List Block) (l : Lists) : Prop := ∀ k, (l k).Pairwise (Newer bs)

namespace Dated

variable {l : Lists} {bs : List Block} {b : Block} {k : SizeClass}

theorem without (hd : Dated bs l) (b : Block) : Dated bs (l.without b) :=
  fun k => (hd k).sublist List.erase_sublist

theorem append (hd : Dated bs l) {cs : List Block} (hn : ∀ b ∈ cs, ¬ l.Has b) : Dated (bs ++ cs) l := by
  intro k
  refine (hd k).imp_of_mem fun {c d} _ hdk hcd => ?_
  exact hcd.append fun hm => hn d hm ⟨k, hdk⟩

theorem push (hd : Dated bs l) (hb : bs.getLast? = some b) : Dated bs (l.push k b) := by
  intro j
  unfold Lists.push
  by_cases hj : j = k
  · rw [if_pos hj]
    exact List.Pairwise.cons (fun d _ => .of_getLast? hb) (hd j)
  · rw [if_neg hj]
    exact hd j

end Dated

def Block.Apart (b d : Block) : Prop := b.payload + 16 ≤ d.payload ∨ d.payload + 16 ≤ b.payload

structure Block.Node (b : Block) (h : Heap) : Prop where
  pos : 0 < b.payload
  le : b.payload + 16 ≤ wordLimit
  reach : h.permits b.payload 16 = true

/-- The heads and the links of the heap hold the lists `l`. -/
structure Threaded (h : Heap) (l : Lists) : Prop where
  heads : ∀ k : SizeClass, h.heads.get k = (l k).head?
  threads : ∀ k, Threads h.memory none none (l k)
  nodup : ∀ k, (l k).Nodup
  once : ∀ {j k b}, b ∈ l j → b ∈ l k → j = k
  apart : ∀ {b d}, l.Has b → l.Has d → b ≠ d → b.Apart d
  node : ∀ {b}, l.Has b → b.Node h

structure Linked (h : Heap) (l : Lists) : Prop extends Threaded h l where
  dated : Dated h.inserted l

variable {h : Heap} {l : Lists} {b : Block} {k : SizeClass}

namespace Block.Node

theorem prevLinkAddr (hb : b.Node h) : b.prevLinkAddr = b.payload + 8 :=
  wrapAdd_of_lt (by have := hb.le; simp only [wordSize]; omega)

theorem permits_next (hb : b.Node h) : h.permits b.payload wordSize = true :=
  permits_part hb.reach (Nat.le_refl _) (Nat.add_le_add_left (by decide) _)

theorem permits_prev (hb : b.Node h) : h.permits (b.payload + 8) wordSize = true :=
  permits_part hb.reach (Nat.le_add_right _ _) (Nat.le_refl _)

theorem run_nextFree (hb : b.Node h) : b.nextFree h = .ok (ofLinkWord (h.memory.word b.payload)) := by
  rw [nextFree, nextLinkAddr, query_bind (run_load hb.permits_next)]; rfl

theorem run_prevFree (hb : b.Node h) :
    b.prevFree h = .ok (ofLinkWord (h.memory.word (b.payload + 8))) := by
  rw [prevFree, hb.prevLinkAddr, query_bind (run_load hb.permits_prev)]; rfl

theorem run_setNextFree (hb : b.Node h) (link : Option Block) :
    b.setNextFree link h =
      .ok () { h with memory := h.memory.setWord b.payload (linkWord link) } :=
  run_store hb.permits_next

theorem run_setPrevFree (hb : b.Node h) (link : Option Block) :
    b.setPrevFree link h =
      .ok () { h with memory := h.memory.setWord (b.payload + 8) (linkWord link) } := by
  rw [setPrevFree, hb.prevLinkAddr]
  exact run_store hb.permits_prev

theorem of_bare {h' : Heap} (hb : b.Node h) (he : h'.bare = h.bare) : b.Node h' :=
  ⟨hb.pos, hb.le, by rw [permits_of_bare he]; exact hb.reach⟩

theorem linkWord_lt (hb : b.Node h) : b.payload < wordLimit := by
  have := hb.le; omega

end Block.Node

theorem Threaded.ofLinkWord (hl : Threaded h l) {o : Option Block} (ho : ∀ b ∈ o, l.Has b) :
    ofLinkWord (linkWord o) = o :=
  ofLinkWord_linkWord fun b hb => by have := (hl.node (ho b hb)).pos; omega

theorem Threaded.linkWord_lt (hl : Threaded h l) {o : Option Block} (ho : ∀ b ∈ o, l.Has b) :
    linkWord o < wordLimit := by
  cases o with
  | none => decide
  | some b => exact (hl.node (ho b rfl)).linkWord_lt

theorem threaded_nil (hh : ∀ k : SizeClass, h.heads.get k = none) : Threaded h fun _ => [] where
  heads := hh
  threads _ := trivial
  nodup _ := List.nodup_nil
  once hb := by cases hb
  apart hb := by cases hb.choose_spec
  node hb := by cases hb.choose_spec

/-- Lists are kept if their heads and link words are. -/
theorem Threaded.congr {h' : Heap} (hl : Threaded h l) (hb : h'.bare = h.bare) (hh : h'.heads = h.heads)
    (hk : ∀ b, l.Has b → ∀ x, b.payload ≤ x → x < b.payload + 16 →
      h'.memory.byte x = h.memory.byte x) : Threaded h' l where
  heads := by rw [hh]; exact hl.heads
  threads k := (hl.threads k).congr fun b hm =>
    ⟨Memory.word_congr fun x _ _ => hk b ⟨k, hm⟩ x (by omega) (by omega),
     Memory.word_congr fun x _ _ => hk b ⟨k, hm⟩ x (by omega) (by omega)⟩
  nodup := hl.nodup
  once := hl.once
  apart := hl.apart
  node hm := (hl.node hm).of_bare hb

theorem Linked.congr {h' : Heap} (hl : Linked h l) (hb : h'.bare = h.bare) (hh : h'.heads = h.heads)
    (hj : h'.inserted = h.inserted)
    (hk : ∀ b, l.Has b → ∀ x, b.payload ≤ x → x < b.payload + 16 →
      h'.memory.byte x = h.memory.byte x) : Linked h' l :=
  ⟨hl.toThreaded.congr hb hh hk, hj ▸ hl.dated⟩

theorem Linked.record (hl : Linked h l) {e : Event} (he : ∀ b ∈ e.inserted, ¬ l.Has b) :
    Linked { h with journal := h.journal.push e } l := by
  refine ⟨hl.toThreaded.congr (bare_journal _ _) rfl fun _ _ _ _ _ => rfl, ?_⟩
  rw [inserted_push]
  exact hl.dated.append fun b hb => he b (Option.mem_toList.mp hb)

/-! ## Writing links -/

def LinkBytes (N P : Block → Prop) (x : Nat) : Prop :=
  (∃ d, N d ∧ d.payload ≤ x ∧ x < d.payload + 8) ∨
    ∃ d, P d ∧ d.payload + 8 ≤ x ∧ x < d.payload + 16

theorem LinkBytes.mono {N N' P P' : Block → Prop} (hN : ∀ d, N d → N' d) (hP : ∀ d, P d → P' d)
    {x : Nat} : LinkBytes N P x → LinkBytes N' P' x
  | .inl ⟨d, hd, hx⟩ => .inl ⟨d, hN d hd, hx⟩
  | .inr ⟨d, hd, hx⟩ => .inr ⟨d, hP d hd, hx⟩

section
variable {h' : Heap} {N P : Block → Prop} {d : Block}

theorem Touches.nextLink (ht : Touches h h' (LinkBytes N P)) (hd : ¬ N d)
    (ha : ∀ e, N e ∨ P e → e ≠ d → e.Apart d) : h'.memory.word d.payload = h.memory.word d.payload := by
  refine ht.word fun x h₁ h₂ hx => ?_
  rcases hx with ⟨e, he, hx⟩ | ⟨e, he, hx⟩
  · have := ha e (.inl he) fun heq => hd (heq ▸ he)
    unfold Apart at this; omega
  · by_cases heq : e = d
    · subst heq; omega
    · have := ha e (.inr he) heq
      unfold Apart at this; omega

theorem Touches.prevLink (ht : Touches h h' (LinkBytes N P)) (hd : ¬ P d)
    (ha : ∀ e, N e ∨ P e → e ≠ d → e.Apart d) :
    h'.memory.word (d.payload + 8) = h.memory.word (d.payload + 8) := by
  refine ht.word fun x h₁ h₂ hx => ?_
  rcases hx with ⟨e, he, hx⟩ | ⟨e, he, hx⟩
  · by_cases heq : e = d
    · subst heq; omega
    · have := ha e (.inl he) heq
      unfold Apart at this; omega
  · have := ha e (.inr he) fun heq => hd (heq ▸ he)
    unfold Apart at this; omega

end

theorem relinkNext {o : Option Block} (ho : ∀ d ∈ o, d.Node h) (link : Option Block)
    (hw : linkWord link < wordLimit) :
    Ends (o.forM fun d => d.setNextFree link) h fun _ h' => h'.heads = h.heads ∧
      (∀ d ∈ o, h'.memory.word d.payload = linkWord link) ∧
      Touches h h' (LinkBytes (· ∈ o) fun _ => False) := by
  cases o with
  | none => exact Ends.pure ⟨rfl, by simp, Touches.refl _ _⟩
  | some d =>
    refine ⟨(), _, (ho d rfl).run_setNextFree link, rfl, ?_, ?_⟩
    · intro _ hr
      cases hr
      exact Memory.word_setWord_same _ _ hw
    · exact (touches_setWord h _ _).mono fun x hx => .inl ⟨d, rfl, hx⟩

theorem relinkPrev {o : Option Block} (ho : ∀ d ∈ o, d.Node h) (link : Option Block)
    (hw : linkWord link < wordLimit) :
    Ends (o.forM fun d => d.setPrevFree link) h fun _ h' => h'.heads = h.heads ∧
      (∀ d ∈ o, h'.memory.word (d.payload + 8) = linkWord link) ∧
      Touches h h' (LinkBytes (fun _ => False) (· ∈ o)) := by
  cases o with
  | none => exact Ends.pure ⟨rfl, by simp, Touches.refl _ _⟩
  | some d =>
    refine ⟨(), _, (ho d rfl).run_setPrevFree link, rfl, ?_, ?_⟩
    · intro _ hr
      cases hr
      exact Memory.word_setWord_same _ _ hw
    · exact (touches_setWord h _ _).mono fun x hx => .inr ⟨d, rfl, by omega, by omega⟩

theorem run_head (hl : Threaded h l) (k : SizeClass) : FreeList.head k h = .ok (l k).head? := by
  show Except.ok (h.heads.get k) = _
  rw [hl.heads]

theorem heads_set (h : Heap) (k j : SizeClass) (o : Option Block) :
    (h.heads.set k o k.isLt).get j = if j = k then o else h.heads.get j := by
  show (h.heads.set k o k.isLt)[j.val] = if j = k then o else h.heads[j.val]
  simp only [Vector.getElem_set, Fin.ext_iff, eq_comm]

/-! ## Putting a block in front -/

/-- What becomes of the lists when `b` is linked in front of one, and its old first block back to `b`. -/
theorem Threaded.push {h' : Heap} (hl : Threaded h l) (hb : b.Node h) (hn : ¬ l.Has b) (ha : ∀ d, l.Has d → b.Apart d)
    (hbare : h'.bare = h.bare) (hheads : ∀ j, h'.heads.get j = if j = k then some b else h.heads.get j)
    (hbnext : h'.memory.word b.payload = linkWord (l k).head?)
    (hbprev : h'.memory.word (b.payload + 8) = linkWord none)
    (hback : ∀ d ∈ (l k).head?, h'.memory.word (d.payload + 8) = linkWord (some b))
    (hnext : ∀ d, l.Has d → h'.memory.word d.payload = h.memory.word d.payload)
    (hprev : ∀ d, l.Has d → d ∉ (l k).head? → h'.memory.word (d.payload + 8) = h.memory.word (d.payload + 8)) :
    Threaded h' (l.push k b) := by
  refine ⟨fun j => ?_, fun j => ?_, fun j => ?_, ?_, ?_, ?_⟩
  · rw [hheads, hl.heads]
    unfold Lists.push; split <;> rfl
  · have hj := hl.threads j
    unfold Lists.push
    by_cases hjk : j = k
    · subst hjk
      rw [if_pos rfl]
      refine ⟨by rw [Option.or_none]; exact hbnext, hbprev, ?_⟩
      -- of the old members, only the first has a link that changes
      exact hj.rehead (hl.nodup _) hback (fun d hd => hnext d ⟨_, hd⟩) fun d hd => hprev d ⟨_, hd⟩
    · rw [if_neg hjk]
      refine hj.congr fun d hd => ⟨hnext d ⟨j, hd⟩, hprev d ⟨j, hd⟩ fun hd' => hjk ?_⟩
      exact hl.once hd (List.mem_of_head? hd')
  · unfold Lists.push
    split
    · exact List.nodup_cons.mpr ⟨fun hm => hn ⟨j, hm⟩, hl.nodup j⟩
    · exact hl.nodup j
  · intro i j d hi hj
    rcases Lists.mem_push.mp hi with ⟨hdi, hik⟩ | hil <;> rcases Lists.mem_push.mp hj with ⟨hdj, hjk⟩ | hjl
    · exact hik.trans hjk.symm
    · exact absurd ⟨j, hdi ▸ hjl⟩ hn
    · exact absurd ⟨i, hdj ▸ hil⟩ hn
    · exact hl.once hil hjl
  · intro d e hd he hne
    rcases Lists.has_push.mp hd with hdb | hdl <;> rcases Lists.has_push.mp he with heb | hel
    · exact absurd (hdb.trans heb.symm) hne
    · exact hdb ▸ ha e hel
    · exact heb ▸ (ha d hdl).symm
    · exact hl.apart hdl hel hne
  · intro d hd
    rcases Lists.has_push.mp hd with rfl | hd
    · exact hb.of_bare hbare
    · exact (hl.node hd).of_bare hbare

theorem Threaded.insert {n : Nat} (hl : Threaded h l) (hb : b.Node h) (hs : b.size h = .ok n)
    (hn : ¬ l.Has b) (ha : ∀ d, l.Has d → b.Apart d) :
    Ends (FreeList.insert b) h fun _ h' => Threaded h' (l.push (SizeClass.ofSize n) b) ∧
      Touches h h' (LinkBytes (· = b) fun d => d = b ∨ d ∈ (l (SizeClass.ofSize n)).head?) := by
  let k := SizeClass.ofSize n
  have hold : ∀ d ∈ (l k).head?, l.Has d := fun d hd => ⟨k, List.mem_of_head? hd⟩
  have hself : ∀ d ∈ some b, d = b := fun d hd => (Option.some.inj hd).symm
  refine Ends.query hs (Ends.query (run_head hl k) ?_)
  refine Ends.bind (relinkNext (o := some b) (fun d hd => hself d hd ▸ hb) _ (hl.linkWord_lt hold)) ?_
  intro _ h₁ hr
  obtain ⟨hh₁, hnext, ht₁⟩ := hr
  refine Ends.bind (relinkPrev (o := some b) (fun d hd => hself d hd ▸ hb.of_bare ht₁.bare) none (by decide)) ?_
  intro _ h₂ hr
  obtain ⟨hh₂, hprev, ht₂⟩ := hr
  refine Ends.bind (relinkPrev (fun d hd => (hl.node (hold d hd)).of_bare (ht₁.bare_trans ht₂))
    (some b) hb.linkWord_lt) ?_
  intro _ h₃ hr
  obtain ⟨hh₃, hback, ht₃⟩ := hr
  have ht : Touches h h₃ (LinkBytes (· = b) fun d => d = b ∨ d ∈ (l k).head?) :=
    ((ht₁.mono fun _ => LinkBytes.mono hself (fun _ => False.elim)).trans
      (ht₂.mono fun _ => LinkBytes.mono (fun _ => False.elim) fun d hd => .inl (hself d hd))).trans
      (ht₃.mono fun _ => LinkBytes.mono (fun _ => False.elim) fun _ => .inr)
  have hbare : Heap.bare { h₃ with heads := h₃.heads.set k (some b) k.isLt } = h.bare :=
    (bare_heads _ _).trans ht.bare
  have hab : ∀ e, False ∨ e ∈ (l k).head? → e ≠ b → e.Apart b := fun e he _ =>
    (ha e (hold e (he.resolve_left id))).symm
  have hapart : ∀ d, l.Has d → ∀ e, e = b ∨ (e = b ∨ e ∈ (l k).head?) → e ≠ d → e.Apart d := by
    intro d hd e hr hne
    rcases hr with rfl | rfl | he
    · exact ha d hd
    · exact ha d hd
    · exact hl.apart (hold e he) hd hne
  have hbd : ∀ d, l.Has d → d ≠ b := fun d hd he => hn (he ▸ hd)
  refine ⟨(), _, rfl, hl.push hb hn ha hbare (fun j => ?_) ?_ ?_ hback
    (fun d hd => ?_) fun d hd hdo => ?_, hbare, ht.byte⟩
  · rw [heads_set, hh₃, hh₂, hh₁]
  · rw [ht₃.nextLink id hab, ht₂.nextLink id fun e he hne => absurd (hself e (he.resolve_left id)) hne]
    exact hnext b rfl
  · rw [ht₃.prevLink (fun hm => hn (hold b hm)) hab]
    exact hprev b rfl
  · exact ht.nextLink (hbd d hd) (hapart d hd)
  · exact ht.prevLink (fun h => h.elim (hbd d hd) hdo) (hapart d hd)

theorem Linked.insert {n : Nat} (hl : Linked h l) (hb : b.Node h) (hs : b.size h = .ok n)
    (hn : ¬ l.Has b) (ha : ∀ d, l.Has d → b.Apart d) (hnew : h.inserted.getLast? = some b) :
    Ends (FreeList.insert b) h fun _ h' => Linked h' (l.push (SizeClass.ofSize n) b) ∧
      Touches h h' (LinkBytes (· = b) fun d => d = b ∨ d ∈ (l (SizeClass.ofSize n)).head?) := by
  refine ((hl.toThreaded.insert hb hs hn ha).quiet (Quiet.insert b)).mono ?_
  intro _ h' hr
  obtain ⟨⟨hl', ht⟩, hj⟩ := hr
  exact ⟨⟨hl', hj ▸ hl.dated.push hnew⟩, ht⟩

/-! ## Taking a block out -/

theorem run_bypass {prev next : Option Block} (hp : ∀ d ∈ prev, d.Node h)
    (hw : linkWord next < wordLimit) (hk : prev = none → h.heads.get k = some b) :
    Ends (FreeList.bypass k b next prev) h fun _ h' =>
      (∀ j : SizeClass, h'.heads.get j = if j = k ∧ prev = none then next else h.heads.get j) ∧
      (∀ d ∈ prev, h'.memory.word d.payload = linkWord next) ∧
      Touches h h' (LinkBytes (· ∈ prev) fun _ => False) := by
  cases prev with
  | none =>
    refine Ends.query (a := some b) (congrArg Except.ok (hk rfl)) (Ends.demand rfl ?_)
    refine ⟨(), _, rfl, fun j => ?_, by simp, bare_heads _ _, fun _ _ => rfl⟩
    rw [heads_set]; simp
  | some p =>
    refine (relinkNext (o := some p) hp next hw).mono ?_
    intro _ h' hr
    obtain ⟨hh, hword, ht⟩ := hr
    exact ⟨by simp [hh], hword, ht⟩

section
variable {xs ys : List Block}

theorem Threaded.split (hl : Threaded h l) (hxy : l k = xs ++ b :: ys) :
    (∀ d ∈ xs, l.Has d ∧ d ≠ b) ∧ (∀ d ∈ ys, l.Has d ∧ d ≠ b) ∧ ∀ d ∈ xs, d ∉ ys := by
  have hnd := hl.nodup k
  rw [hxy] at hnd
  obtain ⟨-, hndb, hdisj⟩ := List.nodup_append.mp hnd
  obtain ⟨hby, -⟩ := List.nodup_cons.mp hndb
  refine ⟨fun d hd => ⟨⟨k, ?_⟩, hdisj d hd b (by simp)⟩, fun d hd => ⟨⟨k, ?_⟩, fun he => hby (he ▸ hd)⟩,
    fun d hd hd' => hdisj d hd d (List.mem_cons_of_mem _ hd') rfl⟩
  · rw [hxy]; simp [hd]
  · rw [hxy]; simp [hd]

/-- What becomes of the lists when the neighbours of `b` in one of them are linked to each other. -/
theorem Threaded.without {h' : Heap} (hl : Threaded h l) (hxy : l k = xs ++ b :: ys) (hbare : h'.bare = h.bare)
    (hheads : ∀ j, h'.heads.get j = if j = k ∧ xs.getLast? = none then ys.head? else h.heads.get j)
    (hfor : ∀ d ∈ xs.getLast?, h'.memory.word d.payload = linkWord ys.head?)
    (hback : ∀ d ∈ ys.head?, h'.memory.word (d.payload + 8) = linkWord xs.getLast?)
    (hnext : ∀ d, l.Has d → d ∉ xs.getLast? → h'.memory.word d.payload = h.memory.word d.payload)
    (hprev : ∀ d, l.Has d → d ∉ ys.head? → h'.memory.word (d.payload + 8) = h.memory.word (d.payload + 8)) :
    Threaded h' (l.without b) := by
  obtain ⟨hx, hy, hdisj⟩ := hl.split hxy
  have hb : b ∈ l k := by rw [hxy]; simp
  have hnd := hl.nodup k
  have hthr := hl.threads k
  rw [hxy] at hnd hthr
  have hndx := (List.nodup_append.mp hnd).1
  have hndy := (List.nodup_cons.mp (List.nodup_append.mp hnd).2.1).2
  obtain ⟨hxs, -, -, hys⟩ := threads_append.mp hthr
  have herase : l.without b k = xs ++ ys := by
    rw [Lists.without, hxy, List.erase_append_right _ fun hm => (hx b hm).2 rfl, List.erase_cons_head]
  have hother : ∀ j, j ≠ k → l.without b j = l j := fun j hj =>
    List.erase_of_not_mem fun hm => hj (hl.once hm hb)
  refine ⟨fun j => ?_, fun j => ?_, fun j => (hl.nodup j).erase b, ?_, ?_, ?_⟩
  · rw [hheads]
    by_cases hj : j = k
    · subst hj
      rw [herase, hl.heads, hxy]
      cases xs with
      | nil => rw [if_pos ⟨rfl, rfl⟩]; rfl
      | cons d xs => rw [if_neg (by simp)]; rfl
    · rw [hother j hj, if_neg fun h => hj h.1, hl.heads]
  · by_cases hj : j = k
    · subst hj
      rw [herase, threads_append, Option.or_none, Option.or_none]
      -- the part before `b` gets a new end, and the part after it a new beginning
      refine ⟨hxs.retail hndx hfor (fun d hd => hnext d (hx d hd).1) fun d hd => ?_,
        hys.rehead hndy hback (fun d hd => ?_) fun d hd => hprev d (hy d hd).1⟩
      · exact hprev d (hx d hd).1 fun hd' => hdisj d hd (List.mem_of_head? hd')
      · exact hnext d (hy d hd).1 fun hd' => hdisj d (List.mem_of_getLast? hd') hd
    · rw [hother j hj]
      have hmem : ∀ d ∈ l j, d ∉ l k := fun d hd hdk => hj (hl.once hd hdk)
      refine (hl.threads j).congr fun d hd => ⟨hnext d ⟨j, hd⟩ fun hd' => hmem d hd ?_,
        hprev d ⟨j, hd⟩ fun hd' => hmem d hd ?_⟩
      · rw [hxy]; exact List.mem_append_left _ (List.mem_of_getLast? hd')
      · rw [hxy]; exact List.mem_append_right _ (List.mem_cons_of_mem _ (List.mem_of_head? hd'))
  · intro i j d hi hj
    exact hl.once (List.mem_of_mem_erase hi) (List.mem_of_mem_erase hj)
  · intro d e hd he hne
    exact hl.apart hd.of_without he.of_without hne
  · intro d hd
    exact (hl.node hd.of_without).of_bare hbare

theorem Threaded.remove {n : Nat} (hl : Threaded h l) (hs : b.size h = .ok n)
    (hxy : l (SizeClass.ofSize n) = xs ++ b :: ys) :
    Ends (FreeList.remove b) h fun _ h' => Threaded h' (l.without b) ∧
      Touches h h' (LinkBytes (· ∈ xs.getLast?) (· ∈ ys.head?)) := by
  let k := SizeClass.ofSize n
  change l k = _ at hxy
  obtain ⟨hx, hy, hdisj⟩ := hl.split hxy
  have hthr := hl.threads k
  rw [hxy, threads_append] at hthr
  obtain ⟨-, hbnext, hbprev, -⟩ := hthr
  rw [Option.or_none] at hbnext hbprev
  have hprev : ∀ d ∈ xs.getLast?, l.Has d := fun d hd => (hx d (List.mem_of_getLast? hd)).1
  have hnext : ∀ d ∈ ys.head?, l.Has d := fun d hd => (hy d (List.mem_of_head? hd)).1
  have hnode : b.Node h := hl.node ⟨k, by rw [hxy]; simp⟩
  have hnil : xs.getLast? = none → (l k).head? = some b := fun hxs => by
    rw [List.getLast?_eq_none_iff] at hxs
    rw [hxy, hxs]; rfl
  refine Ends.query hs (Ends.query (a := xs.getLast?) ?_ (Ends.query (a := ys.head?) ?_ ?_))
  · rw [hnode.run_prevFree, hbprev, hl.ofLinkWord hprev]
  · rw [hnode.run_nextFree, hbnext, hl.ofLinkWord hnext]
  refine Ends.bind (run_bypass (fun d hd => hl.node (hprev d hd)) (hl.linkWord_lt hnext)
    fun hxs => (hl.heads k).trans (hnil hxs)) ?_
  intro _ h₁ hr
  obtain ⟨hh₁, hfor, ht₁⟩ := hr
  refine (relinkPrev (fun d hd => (hl.node (hnext d hd)).of_bare ht₁.bare) _ (hl.linkWord_lt hprev)).mono ?_
  intro _ h₂ hr
  obtain ⟨hh₂, hback, ht₂⟩ := hr
  have ht : Touches h h₂ (LinkBytes (· ∈ xs.getLast?) (· ∈ ys.head?)) :=
    (ht₁.mono fun _ => LinkBytes.mono (fun _ => id) fun _ => False.elim).trans
      (ht₂.mono fun _ => LinkBytes.mono (fun _ => False.elim) fun _ => id)
  have hapart : ∀ d, l.Has d → ∀ e, e ∈ xs.getLast? ∨ e ∈ ys.head? → e ≠ d → e.Apart d :=
    fun d hd e he hne => hl.apart (he.elim (hprev e) (hnext e)) hd hne
  refine ⟨hl.without hxy ht.bare (fun j => ?_) (fun d hd => ?_) hback (fun d hd hdx => ?_)
    fun d hd hdy => ?_, ht⟩
  · rw [hh₂, hh₁]
  · rw [ht₂.nextLink id fun e he => hapart d (hprev d hd) e (.inr (he.resolve_left id))]
    exact hfor d hd
  · exact ht.nextLink hdx (hapart d hd)
  · exact ht.prevLink hdy (hapart d hd)

theorem Linked.remove {n : Nat} (hl : Linked h l) (hs : b.size h = .ok n)
    (hxy : l (SizeClass.ofSize n) = xs ++ b :: ys) :
    Ends (FreeList.remove b) h fun _ h' => Linked h' (l.without b) ∧
      Touches h h' (LinkBytes (· ∈ xs.getLast?) (· ∈ ys.head?)) := by
  refine ((hl.toThreaded.remove hs hxy).quiet (Quiet.remove b)).mono ?_
  intro _ h' hr
  obtain ⟨⟨hl', ht⟩, hj⟩ := hr
  exact ⟨⟨hl', hj ▸ hl.dated.without b⟩, ht⟩

end

end SegregatedFit
