import SegregatedFit.Block.Tags

/-!
# How actions run

An action in sequence hands its result and its heap to what follows, a query
leaves the heap alone, and a permitted access does to the memory what `Memory`
says. With these equations an action is run step by step.
-/

namespace SegregatedFit

variable {α β : Type} {h h' : Heap} {a : α} {e : Fault}

theorem run_bind {x : Action α} {f : α → Action β} (hx : x h = .ok a h') :
    (x >>= f) h = f a h' := by
  show EStateM.bind x f h = _
  simp [EStateM.bind, hx]

theorem run_bind_error {x : Action α} {f : α → Action β} (hx : x h = .error e h') :
    (x >>= f) h = .error e h' := by
  show EStateM.bind x f h = _
  simp [EStateM.bind, hx]

theorem run_query {q : Query α} (hq : q h = .ok a) : (liftM q : Action α) h = .ok a h := by
  simp only [liftM, monadLift, MonadLift.monadLift, ReaderT.run, hq]

theorem run_query_error {q : Query α} (hq : q h = .error e) :
    (liftM q : Action α) h = .error e h := by
  simp only [liftM, monadLift, MonadLift.monadLift, ReaderT.run, hq]

theorem run_bind_query {q : Query α} {f : α → Action β} (hq : q h = .ok a) :
    ((liftM q : Action α) >>= f) h = f a h :=
  run_bind (run_query hq)

theorem run_bind_except {x : Except Fault α} {f : α → Action β} (hx : x = .ok a) :
    ((liftM x : Action α) >>= f) h = f a h := by
  subst hx; rfl

theorem run_demand {p : Prop} [Decidable p] (hp : p) : demand p e h = .ok () h := by
  unfold demand; rw [if_pos hp]; rfl

theorem run_demand_not {p : Prop} [Decidable p] (hp : ¬p) : demand p e h = .error e h := by
  unfold demand; rw [if_neg hp]; rfl

theorem permits_of_mem {addr len : Nat} (hlo : h.source.lo ≤ addr)
    (hhi : addr + len ≤ h.source.lo + h.source.size) : h.permits addr len = true := by
  simp [Heap.permits, hlo, hhi]

theorem run_load {addr : Nat} (hp : h.permits addr wordSize = true) :
    load addr h = .ok (h.memory.word addr) :=
  if_pos hp

theorem run_store {addr w : Nat} (hp : h.permits addr wordSize = true) :
    store addr w h = .ok () { h with memory := h.memory.setWord addr w } :=
  if_pos hp

theorem run_loadBytes {addr len : Nat} (hp : h.permits addr len = true) :
    loadBytes addr len h = .ok (h.memory.read addr len) :=
  if_pos hp

theorem run_storeBytes {addr : Nat} {bytes : List UInt8}
    (hp : h.permits addr bytes.length = true) :
    storeBytes addr bytes h = .ok () { h with memory := h.memory.write addr bytes } :=
  if_pos hp

theorem run_header {b : Block} (hp : h.permits b.headerAddr wordSize = true) :
    b.header h = .ok ⟨h.memory.word b.headerAddr⟩ := by
  show (load b.headerAddr h >>= fun w => pure (Tag.mk w)) = _
  rw [run_load hp]; rfl

theorem run_size {b : Block} (hp : h.permits b.headerAddr wordSize = true) :
    b.size h = .ok (Tag.size ⟨h.memory.word b.headerAddr⟩) := by
  show (b.header h >>= fun t => pure t.size) = _
  rw [run_header hp]; rfl

theorem run_next {b : Block} (hp : h.permits b.headerAddr wordSize = true) :
    b.next h = .ok (b.after (Tag.size ⟨h.memory.word b.headerAddr⟩)) := by
  show (b.size h >>= fun n => pure (b.after n)) = _
  rw [run_size hp]; rfl

end SegregatedFit
