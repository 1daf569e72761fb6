import SegregatedFit.Proofs.Deciding
import SegregatedFit.Proofs.Tracking

/-!
# Replaying runs

Two clients that make the same calls are told the same and see the same heap, up to
where it lies: what was in memory before, what they write to their allocations and
which source the heap has make no difference, as long as it grows in the same calls.
-/

namespace SegregatedFit

def resultOf (rs : List (Option Nat)) (i : Nat) : Option Nat := (rs[i]?).join

/-- A run that lays out a heap for chunks of `chunk` bytes and then makes the calls `qs`, with
the results `rs`. Instead of a pointer, a call has the number of the call that gave it; beside
each call stands whether the heap has grown in it. The client writes when it likes. -/
inductive Played (chunk : Nat) : List (Call × Bool) → List (Option Nat) → Client → Prop
  | start {h h' : Heap} (hs : h.source.Fresh) (hrun : layOut chunk h = .ok (.ok ()) h') :
      Played chunk [] [] { heap := h' }
  | call {qs : List (Call × Bool)} {rs : List (Option Nat)} {c : Client} {a : Call} {r : Option Nat} {h' : Heap}
      (hp : Played chunk qs rs c) (hlegal : ∀ p ∈ (a.about (resultOf rs)).pointer, c.Owns p)
      (hrun : (a.about (resultOf rs)).run c.heap = .ok r h') :
      Played chunk (qs ++ [(a, c.heap.grew h')]) (rs ++ [r]) ⟨h', c.book (a.about (resultOf rs)) r⟩
  | write {qs : List (Call × Bool)} {rs : List (Option Nat)} {c c' : Client} {p i : Nat} {bytes : List UInt8}
      (hp : Played chunk qs rs c) (hm : Step c (.write p i bytes) c') : Played chunk qs rs c'

variable {chunk u : Nat} {qs : List (Call × Bool)} {rs os : List (Option Nat)} {c c' : Client} {s : Layout} {h : Heap}

theorem Played.reachable (hp : Played chunk qs rs c) : Reachable c := by
  induction hp with
  | start hs hrun => exact .start hs hrun
  | call _ hlegal hrun ih => exact ih.step (.call hlegal hrun)
  | write _ hm ih => exact ih.step hm

theorem Played.next (hp : Played chunk qs rs c) (a : Call) (g : Bool) (r : Option Nat)
    (hc : (∀ p ∈ (a.about (resultOf rs)).pointer, c.Owns p) ∧
      c.heap.grew (c.call (a.about (resultOf rs))).heap = g ∧ c.result (a.about (resultOf rs)) = r) :
    Played chunk (qs ++ [(a, g)]) (rs ++ [r]) (c.call (a.about (resultOf rs))) := by
  obtain ⟨hlegal, rfl, rfl⟩ := hc
  obtain ⟨w, l, hT⟩ := hp.reachable.tracked
  obtain ⟨r', h', hrun, -⟩ := hT.ends_call _ hlegal
  simp only [Client.call, Client.result, hrun]
  exact .call hp hlegal hrun

/-! ## Layouts of runs -/

def placed (u : Nat) (os : List (Option Nat)) : List (Option Nat) := os.map (Option.map (alignment * u + ·))

theorem resultOf_placed (i : Nat) : resultOf (placed u os) i =
    (resultOf os i).bind fun p => some (alignment * u + p) := by
  unfold resultOf placed
  rw [List.getElem?_map]
  cases os[i]? with
  | none => rfl
  | some o => cases o <;> rfl

theorem about_placed (a : Call) : a.about (resultOf (placed u os)) =
    (a.about (resultOf os)).about fun p => some (alignment * u + p) := by
  rw [Call.about_about]
  exact congrArg a.about (funext resultOf_placed)

def Layout.first (chunkSize : Nat) (hle : 32 ≤ chunkSize) (hmod : chunkSize % 16 = 0) : Layout :=
  let c : Cell := { addr := 32, size := chunkSize, alloc := false }
  ⟨[c], Lists.file (fun _ => []) c, chunkSize⟩

namespace Heap.Shows

theorem of_layOut {h' : Heap} (hs : h.source.Fresh) (hrun : layOut chunk h = .ok (.ok ()) h') :
    ∃ u, h'.Shows u (.first _ (chunkSize_spec chunk).1 (chunkSize_spec chunk).2.1) := by
  obtain ⟨hchunk, -, c, haddr, hsize, hfree, hS⟩ := (layOut_fresh hs chunk).of_run hrun
  have hlo := hS.founded.source.lo_mod
  have hu : h'.source.lo = alignment * (h'.source.lo / alignment) := by
    simp only [alignment]
    omega
  refine ⟨h'.source.lo / alignment, hu, hchunk, ?_⟩
  rw [Layout.first]
  generalize hd : Cell.mk 32 _ false _ _ _ = d
  have hc : c = d.up (h'.source.lo / alignment) := by
    subst hd
    ext
    · rw [haddr, Cell.up_addr, ← hu]
    · rw [hsize, hchunk]; rfl
    · rw [hfree]; rfl
  rw [Lists.file_up, List.map_cons, List.map_nil, ← hc]
  exact hS

theorem write {p i : Nat} {bytes : List UInt8} (hs : c.heap.Shows u s) (hc : Reachable c)
    (hm : Step c (.write p i bytes) c') : c'.heap.Shows u s := by
  obtain ⟨w, l, hT⟩ := hc.tracked
  obtain ⟨rfl, rfl⟩ := hs.eq_of_sound hT.sound
  cases hm with
  | write howns hfit => exact hs.of_bare (bare_memory _ _) (hT.write howns hfit).1.sound

theorem admits (hs : c.heap.Shows u s) (hc : Reachable c) {a : Call}
    (hlegal : ∀ p ∈ (a.about fun p => some (alignment * u + p)).pointer, c.Owns p) : s.Admits a := by
  intro p hp
  obtain ⟨w, l, hT⟩ := hc.tracked
  obtain ⟨rfl, rfl⟩ := hs.eq_of_sound hT.sound
  have hplaced : alignment * u + p ∈ (a.about fun p => some (alignment * u + p)).pointer := by
    rw [Call.pointer_about, Option.mem_def.mp hp]
    rfl
  obtain ⟨d, hd, hal, hdp⟩ := hT.cell (hlegal _ hplaced)
  obtain ⟨e, he, rfl⟩ := List.mem_map.mp hd
  exact ⟨e, he, hal, Nat.add_left_cancel hdp⟩

end Heap.Shows

/-- Chunk size, calls and growths decide the results and the layout of every run. -/
theorem exists_layout (chunk : Nat) (qs : List (Call × Bool)) : ∃ (s : Layout) (os : List (Option Nat)),
    ∀ rs c, Played chunk qs rs c → ∃ u, c.heap.Shows u s ∧ rs = placed u os := by
  induction qs using List.reverseRecOn with
  | nil =>
    refine ⟨.first _ (chunkSize_spec chunk).1 (chunkSize_spec chunk).2.1, [], fun rs c hp => ?_⟩
    generalize hq : [] = qs at hp
    induction hp with
    | start hs hrun =>
      obtain ⟨u, hu⟩ := Heap.Shows.of_layOut hs hrun
      exact ⟨u, hu, rfl⟩
    | call => simp at hq
    | write hp hm ih =>
      obtain ⟨u, hs, hrs⟩ := ih hq
      exact ⟨u, hs.write hp.reachable hm, hrs⟩
  | append_singleton qs q ih =>
    obtain ⟨s, os, hall⟩ := ih
    -- the last call is about an offset, so the layout decides its outcome for all runs
    obtain ⟨out, hout⟩ := s.exists_outcome (q.1.about (resultOf os))
    refine ⟨(out q.2).2, os ++ [(out q.2).1], fun rs c hp => ?_⟩
    generalize hq : qs ++ [q] = qs' at hp
    induction hp with
    | start => simp at hq
    | call hp hlegal hrun _ =>
      obtain ⟨rfl, hlast⟩ := List.append_inj' hq rfl
      obtain rfl := List.singleton_injective hlast
      obtain ⟨u, hs, rfl⟩ := hall _ _ hp
      rw [about_placed] at hlegal hrun
      obtain ⟨hr, hs'⟩ := (hout (hs.admits hp.reachable hlegal) _ u hs).of_run hrun
      refine ⟨u, hs', ?_⟩
      rw [hr, placed, placed, List.map_append]
      rfl
    | write hp hm ih =>
      obtain ⟨u, hs, hrs⟩ := ih hq
      exact ⟨u, hs.write hp.reachable hm, hrs⟩

/-! ## What can be seen of a run -/

structure View where
  results : List (Option Nat)
  blocks : List (Nat × Tag)
  members : SizeClass → List Nat
  stats : Stats

structure View.Describes (v : View) (rs : List (Option Nat)) (h : Heap) : Prop where
  results : rs = v.results.map (Option.map (h.source.lo + ·))
  blocks : SegregatedFit.blocks h = .ok (v.blocks.map fun b => (⟨h.source.lo + b.1⟩, b.2))
  members : ∀ k, FreeList.members k h = .ok ((v.members k).map fun p => ⟨h.source.lo + p⟩)
  stats : validate h = .ok (.ok v.stats)

def Layout.view (s : Layout) (os : List (Option Nat)) : View where
  results := os
  blocks := (taggedCells true s.cells).map fun b => (b.1.payload, b.2)
  members k := (s.lists k).map Block.payload
  stats := { Stats.add {} s.cells with heapSize := 32 + (s.cells.map Cell.size).sum }

theorem Heap.Shows.describes (hs : h.Shows u s) : (s.view os).Describes (placed u os) h where
  results := by
    rw [hs.lo]
    rfl
  blocks := by
    rw [hs.sound.run_blocks, taggedCells_up, Layout.view, List.map_map, hs.lo]
    rfl
  members k := by
    rw [hs.sound.linked.run_members, Layout.view, List.map_map, hs.lo]
    rfl
  stats := by
    rw [hs.sound.run_validate, figures, Stats.add_up, hs.size]
    rfl

/-- Two runs with the same chunk size and the same calls, in which the heaps grow in the same
calls, are seen alike. As the beginnings of a run are runs, this holds after every call. -/
theorem Played.alike {rs₁ rs₂ : List (Option Nat)} {c₁ c₂ : Client} (h₁ : Played chunk qs rs₁ c₁)
    (h₂ : Played chunk qs rs₂ c₂) : ∃ v : View, v.Describes rs₁ c₁.heap ∧ v.Describes rs₂ c₂.heap := by
  obtain ⟨s, os, hall⟩ := exists_layout chunk qs
  obtain ⟨u₁, hs₁, rfl⟩ := hall _ _ h₁
  obtain ⟨u₂, hs₂, rfl⟩ := hall _ _ h₂
  exact ⟨s.view os, hs₁.describes, hs₂.describes⟩

/-- Calls of which the second makes the heap grow, the third moves and the last is refused. -/
def sampleCalls : List (Call × Bool) :=
  [(.malloc 24, false), (.malloc 100, true), (.realloc (some 0) 60, false), (.malloc 5000, false)]

theorem played_in_buffer : ∃ c, Played 128 sampleCalls [some 4128, some 4176, some 4304, none] c := by
  have hfresh : (Source.buffer (.ofBytes 4096 512)).Fresh := ⟨4096, 512, by decide, by decide, rfl⟩
  have h₀ := Played.start hfresh
    (run_layOut { source := .buffer (.ofBytes 4096 512), guarded := true } 128 (by decide +kernel))
  have h₁ := h₀.next (.malloc 24) false (some 4128) (by decide +kernel)
  have h₂ := h₁.next (.malloc 100) true (some 4176) (by decide +kernel)
  have h₃ := h₂.next (.realloc (some 0) 60) false (some 4304) (by decide +kernel)
  exact ⟨_, h₃.next (.malloc 5000) false none (by decide +kernel)⟩

theorem played_in_reservation : ∃ c, Played 128 sampleCalls [some 8224, some 8272, some 8400, none] c := by
  have hfresh : (Source.reservation { capacity := 4000, system := .single 8192 4096 }).Fresh :=
    ⟨rfl, rfl, rfl, by decide, fun _ hsite => Except.ok.inj hsite ▸ ⟨by decide, by decide, rfl, by decide⟩⟩
  have h₀ := Played.start hfresh (run_layOut
    { source := .reservation { capacity := 4000, system := .single 8192 4096 },
      memory := .filled 8192 4096 255, guarded := true } 128 (by decide +kernel))
  have h₁ := h₀.next (.malloc 24) false (some 8224) (by decide +kernel)
  have h₁' := h₁.write (show Step _ (.write 8224 0 [1, 2, 3]) _ from .write (by decide +kernel) (by decide +kernel))
  have h₂ := h₁'.next (.malloc 100) true (some 8272) (by decide +kernel)
  have h₃ := h₂.next (.realloc (some 0) 60) false (some 8400) (by decide +kernel)
  exact ⟨_, h₃.next (.malloc 5000) false none (by decide +kernel)⟩

theorem sampleCalls_alike : ∃ c₁ c₂ v, Played 128 sampleCalls [some 4128, some 4176, some 4304, none] c₁ ∧
    Played 128 sampleCalls [some 8224, some 8272, some 8400, none] c₂ ∧
    View.Describes v [some 4128, some 4176, some 4304, none] c₁.heap ∧
    View.Describes v [some 8224, some 8272, some 8400, none] c₂.heap := by
  obtain ⟨c₁, h₁⟩ := played_in_buffer
  obtain ⟨c₂, h₂⟩ := played_in_reservation
  obtain ⟨v, hv₁, hv₂⟩ := Played.alike h₁ h₂
  exact ⟨c₁, c₂, v, h₁, h₂, hv₁, hv₂⟩

end SegregatedFit
