import SegregatedFit.Heap.Run

/-!
# Actions that end well

`Ends x h Q` is total: the action `x` meets no fault on the heap `h`, and `Q`
holds of its result and of the heap it leaves. Actions in sequence are taken
apart by `Ends.bind`, and single steps by their running equations.
-/

namespace SegregatedFit

variable {α β : Type} {h h' : Heap} {a : α} {x : Action α} {f : α → Action β}

def Ends (x : Action α) (h : Heap) (Q : α → Heap → Prop) : Prop :=
  ∃ a h', x h = .ok a h' ∧ Q a h'

theorem query_bind {q : Query α} {g : α → Query β} (hq : q h = .ok a) : (q >>= g) h = g a h := by
  show (q h >>= fun a => g a h) = _
  rw [hq]; rfl

theorem Ends.pure {Q : α → Heap → Prop} (hq : Q a h) : Ends (pure a) h Q :=
  ⟨a, h, rfl, hq⟩

theorem Ends.mono {P Q : α → Heap → Prop} (hx : Ends x h P) (hpq : ∀ a h', P a h' → Q a h') :
    Ends x h Q := by
  obtain ⟨a, h', he, hp⟩ := hx
  exact ⟨a, h', he, hpq a h' hp⟩

theorem Ends.of_run {Q : α → Heap → Prop} (hx : Ends x h Q) (hr : x h = .ok a h') : Q a h' := by
  obtain ⟨b, h'', hb, hq⟩ := hx
  obtain ⟨rfl, rfl⟩ := EStateM.Result.ok.inj (hb.symm.trans hr)
  exact hq

theorem Ends.and {P Q : α → Heap → Prop} (hp : Ends x h P) (hq : Ends x h Q) :
    Ends x h fun a h' => P a h' ∧ Q a h' := by
  obtain ⟨a, h', hr, ha⟩ := hp
  exact ⟨a, h', hr, ha, hq.of_run hr⟩

theorem Ends.bind {P : α → Heap → Prop} {Q : β → Heap → Prop} (hx : Ends x h P)
    (hf : ∀ a h', P a h' → Ends (f a) h' Q) : Ends (x >>= f) h Q := by
  obtain ⟨a, h', he, hp⟩ := hx
  obtain ⟨b, h'', he', hq⟩ := hf a h' hp
  exact ⟨b, h'', (run_bind he).trans he', hq⟩

theorem Ends.step {Q : β → Heap → Prop} (hx : x h = .ok a h') (hf : Ends (f a) h' Q) :
    Ends (x >>= f) h Q := by
  obtain ⟨b, h'', hb, hq⟩ := hf
  exact ⟨b, h'', (run_bind hx).trans hb, hq⟩

theorem Ends.query {q : Query α} {Q : β → Heap → Prop} (hq : q h = .ok a)
    (hf : Ends (f a) h Q) : Ends ((liftM q : Action α) >>= f) h Q :=
  Ends.step (run_query hq) hf

theorem Ends.except {e : Except Fault α} {Q : β → Heap → Prop} (he : e = .ok a)
    (hf : Ends (f a) h Q) : Ends ((liftM e : Action α) >>= f) h Q := by
  obtain ⟨b, h', hb, hq⟩ := hf
  exact ⟨b, h', (run_bind_except he).trans hb, hq⟩

theorem Ends.record {e : Event} {f : Unit → Action β} {Q : β → Heap → Prop}
    (hf : Ends (f ()) { h with journal := h.journal.push e } Q) : Ends (record e >>= f) h Q :=
  Ends.step rfl hf

theorem Ends.demand {p : Prop} [Decidable p] {e : Fault} {f : Unit → Action β}
    {Q : β → Heap → Prop} (hp : p) (hf : Ends (f ()) h Q) : Ends (demand p e >>= f) h Q :=
  Ends.step (run_demand hp) hf

/-- A heap without what its blocks say: the source and the settings. -/
def Heap.bare (h : Heap) : Heap :=
  { h with memory := .zero, heads := .replicate classCount none, journal := #[] }

-- Stated for an unknown memory: where it is a written one, `rfl` would compare
-- the two heaps through all of their bytes.
theorem bare_memory (h : Heap) (m : Memory) : Heap.bare { h with memory := m } = h.bare := rfl

theorem bare_heads (h : Heap) (v : Vector (Option Block) classCount) :
    Heap.bare { h with heads := v } = h.bare := rfl

theorem bare_journal (h : Heap) (j : Array Event) : Heap.bare { h with journal := j } = h.bare := rfl

def Heap.top (h : Heap) : Nat := h.source.lo + h.source.size

theorem source_of_bare (hb : h'.bare = h.bare) : h'.source = h.source :=
  (congrArg Heap.source hb : h'.bare.source = h.bare.source)

theorem top_of_bare (hb : h'.bare = h.bare) : h'.top = h.top := by
  unfold Heap.top; rw [source_of_bare hb]

theorem permits_of_bare (hb : h'.bare = h.bare) (addr len : Nat) :
    h'.permits addr len = h.permits addr len := by
  have hg : h'.bare.guarded = h.bare.guarded := congrArg Heap.guarded hb
  change h'.guarded = h.guarded at hg
  unfold Heap.permits
  rw [source_of_bare hb, hg]

@[simp] theorem permits_memory (m : Memory) (addr len : Nat) :
    Heap.permits { h with memory := m } addr len = h.permits addr len := by
  unfold Heap.permits; rfl

theorem permits_part {x n y k : Nat} (hp : h.permits x n = true) (hlo : x ≤ y)
    (hhi : y + k ≤ x + n) : h.permits y k = true := by
  unfold Heap.permits at *
  simp only [Bool.or_eq_true, Bool.and_eq_true, decide_eq_true_eq] at *
  exact hp.imp_right fun ⟨h₁, h₂⟩ => ⟨by omega, by omega⟩

theorem permits_word {addr : Nat} (hlo : h.source.lo ≤ addr) (hhi : addr + 8 ≤ h.top) :
    h.permits addr wordSize = true :=
  permits_of_mem hlo hhi

theorem ends_store {addr w : Nat} (hp : h.permits addr wordSize = true) :
    Ends (store addr w) h fun _ h' =>
      h'.bare = h.bare ∧ h'.heads = h.heads ∧ h'.memory = h.memory.setWord addr w :=
  ⟨(), _, run_store hp, bare_memory _ _, rfl, rfl⟩

/-- The heaps differ at most in the bytes `F`, the heads and the journal. -/
structure Touches (h h' : Heap) (F : Nat → Prop) : Prop where
  bare : h'.bare = h.bare
  byte : ∀ x, ¬ F x → h'.memory.byte x = h.memory.byte x

theorem Touches.refl (h : Heap) (F : Nat → Prop) : Touches h h F := ⟨rfl, fun _ _ => rfl⟩

theorem Touches.trans {h₁ h₂ h₃ : Heap} {F : Nat → Prop} (hx : Touches h₁ h₂ F)
    (hy : Touches h₂ h₃ F) : Touches h₁ h₃ F :=
  ⟨hy.bare.trans hx.bare, fun x hF => (hy.byte x hF).trans (hx.byte x hF)⟩

theorem Touches.bare_trans {h₁ h₂ h₃ : Heap} {F G : Nat → Prop} (hx : Touches h₁ h₂ F)
    (hy : Touches h₂ h₃ G) : h₃.bare = h₁.bare :=
  hy.bare.trans hx.bare

theorem Touches.mono {F G : Nat → Prop} (hx : Touches h h' F) (hFG : ∀ x, F x → G x) :
    Touches h h' G :=
  ⟨hx.bare, fun x hG => hx.byte x fun hF => hG (hFG x hF)⟩

theorem Touches.record {F : Nat → Prop} (hx : Touches h h' F) (e : Event) :
    Touches h { h' with journal := h'.journal.push e } F :=
  ⟨(bare_journal _ _).trans hx.bare, hx.byte⟩

theorem Touches.word {F : Nat → Prop} (hx : Touches h h' F) {addr : Nat}
    (hF : ∀ x, addr ≤ x → x < addr + 8 → ¬ F x) : h'.memory.word addr = h.memory.word addr :=
  Memory.word_congr fun x h₁ h₂ => hx.byte x (hF x h₁ h₂)

theorem touches_setWord (h : Heap) (addr w : Nat) :
    Touches h { h with memory := h.memory.setWord addr w } fun x => addr ≤ x ∧ x < addr + 8 :=
  ⟨bare_memory _ _, fun _ hx => Memory.byte_setWord_outside _ _ (by omega)⟩

end SegregatedFit
