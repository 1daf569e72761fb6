import SegregatedFit.Proofs.Tracking

/-!
# Refused requests

A request that is refused has done nothing: it may have searched, and asked the source for
room, but all that it leaves is a note in the journal. What was to be resized is still there.
-/

namespace SegregatedFit

variable {c : Client} {w : List Cell} {l : Lists} {a : Call} {h' : Heap}

/-- Whether the call asks for bytes, so that a null result is a refusal. -/
def Call.Asks : Call → Prop
  | .malloc _ | .calloc .. => True
  | .realloc _ n => 0 < n
  | .free _ => False

structure Client.Unmoved (c : Client) (a : Call) (h' : Heap) : Prop where
  heap : h' = { c.heap with journal := h'.journal }
  live : c.book a none = c.live
  usable : ∀ p ∈ a.pointer, usableSize p h' = .ok (c.heap.usableAt p)
  payload : ∀ p ∈ a.pointer, loadBytes p (c.heap.usableAt p) h' =
    .ok (c.heap.memory.read p (c.heap.usableAt p))

namespace Tracked

theorem ends_refused (hT : Tracked c w l) (a : Call) (ha : a.Asks) (hlegal : ∀ p ∈ a.pointer, c.Owns p) :
    Ends a.run c.heap fun r h' => r = none → c.book a none = c.live ∧ c.heap.Idle h' := by
  cases a with
  | malloc n =>
    refine (hT.sound.ends_malloc n).mono ?_
    rintro _ h' hr rfl
    exact ⟨rfl, hr.2⟩
  | calloc count n =>
    refine (hT.sound.ends_calloc count n).mono ?_
    rintro _ h' hr rfl
    exact ⟨rfl, hr.2⟩
  | realloc p n =>
    cases p with
    | none =>
      refine (hT.sound.ends_malloc n).mono ?_
      rintro _ h' hr rfl
      refine ⟨?_, hr.2⟩
      simp [Client.book, Call.pointer, dropGrant_none]
    | some p =>
      obtain ⟨d, hd, hal, rfl⟩ := hT.cell (hlegal p rfl)
      have hn : n ≠ 0 := Nat.ne_of_gt ha
      refine (hT.sound.ends_realloc hd hal hn).mono ?_
      rintro _ h' hr rfl
      refine ⟨?_, hr⟩
      simp [Client.book, Call.ends, hn]
  | free p => exact ha.elim

theorem unmoved (hT : Tracked c w l) (hlegal : ∀ p ∈ a.pointer, c.Owns p) (hbook : c.book a none = c.live)
    (hi : c.heap.Idle h') : c.Unmoved a h' := by
  have hT' := hT.idle hi
  refine ⟨hi.heap, hbook, fun p hp => ?_, fun p hp => ?_⟩
  all_goals obtain ⟨d, hd, -, rfl⟩ := hT.cell (hlegal p hp)
  all_goals rw [hT.usableAt_cell hd]
  · exact run_usableSize hT'.sound.toLaid hd
  · have hle := d.le_size
    rw [run_loadBytes (Sound.permits hT'.sound.toLaid hd (by omega)), hi.memory]

end Tracked

/-- A request ends, and if it is refused the whole heap and all allocations are as before. -/
theorem Reachable.refusal_unmoved (hc : Reachable c) (a : Call) (ha : a.Asks) (hlegal : ∀ p ∈ a.pointer, c.Owns p) :
    Ends a.run c.heap fun r h' => r = none → c.Unmoved a h' := by
  obtain ⟨w, l, hT⟩ := hc.tracked
  refine (hT.ends_refused a ha hlegal).mono ?_
  intro r h' hr hnone
  obtain ⟨hbook, hi⟩ := hr hnone
  exact hT.unmoved hlegal hbook hi

theorem smallRun_refusal_unmoved : smallRun.result (.realloc (some 4208) 400) = none ∧
    smallRun.Unmoved (.realloc (some 4208) 400) (smallRun.call (.realloc (some 4208) 400)).heap := by
  have hnone : smallRun.result (.realloc (some 4208) 400) = none := by decide +kernel
  obtain ⟨r, h', hrun, hr⟩ := Reachable.refusal_unmoved reachable_smallRun (.realloc (some 4208) 400)
    (show 0 < 400 by decide) (by decide +kernel)
  refine ⟨hnone, ?_⟩
  rw [Client.result, hrun] at hnone
  rw [Client.call, hrun]
  exact hr hnone

end SegregatedFit
