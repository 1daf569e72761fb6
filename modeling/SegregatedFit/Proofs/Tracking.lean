import SegregatedFit.Proofs.Client
import SegregatedFit.Proofs.Serving

/-!
# Keeping track of clients

The books of a client agree with the cells of its heap: what is live is what is
allocated, and what is known of it is there. No call and no write of a client
breaks this, and none meets a fault.
-/

namespace SegregatedFit

/-! ## Books and cells -/

structure Cell.Backs (d : Cell) (h : Heap) (g : Grant) : Prop where
  addr : d.addr = g.pointer
  size : g.request + 16 ≤ d.size
  known : ∀ i v, g.known i = some v → i + 16 < d.size ∧ h.memory.byte (g.pointer + i) = v

/-- The live pointers are the allocated cells, each of which backs its grant. -/
structure Tracked (c : Client) (w : List Cell) (l : Lists) : Prop where
  sound : Sound c.heap w l
  pointers : (c.live.map Grant.pointer).Perm ((allocs w).map Cell.addr)
  backed : ∀ g ∈ c.live, ∃ d ∈ allocs w, d.Backs c.heap g

variable {c : Client} {h h' : Heap} {w w' rest : List Cell} {l l' : Lists} {live : List Grant} {g : Grant}
  {d e : Cell}

theorem Cell.Backs.keep (hb : d.Backs h g) (hk : ∀ x, d.Holds x → h'.memory.byte x = h.memory.byte x) :
    d.Backs h' g := by
  refine ⟨hb.addr, hb.size, fun i v hv => ?_⟩
  obtain ⟨hi, hbyte⟩ := hb.known i v hv
  refine ⟨hi, (hk _ ⟨?_, ?_⟩).trans hbyte⟩ <;> rw [hb.addr] <;> omega

theorem Cell.Backs.write {i : Nat} {bytes : List UInt8} (hb : d.Backs h g) (hlen : i + bytes.length + 16 ≤ d.size) :
    d.Backs { h with memory := h.memory.write (g.pointer + i) bytes } (g.write i bytes) := by
  refine ⟨hb.addr, hb.size, fun j v hv => ?_⟩
  simp only [Grant.write] at hv ⊢
  split at hv
  · next hj =>
    obtain ⟨hlt, rfl⟩ := List.getElem?_eq_some_iff.mp hv
    refine ⟨by omega, ?_⟩
    rw [show g.pointer + j = g.pointer + i + (j - i) by omega]
    exact Memory.byte_write_inside _ _ _ _ hlt
  · next hj =>
    obtain ⟨hlt, hv⟩ := hb.known j v hv
    exact ⟨hlt, (Memory.byte_write_outside _ _ _ _ (by omega)).trans hv⟩

theorem Keeps.cell (hk : Keeps w h h') (hd : d ∈ w) (hal : d.alloc = true) :
    ∀ x, d.Holds x → h'.memory.byte x = h.memory.byte x := fun x hx => hk x ⟨d, hd, hal, hx⟩

theorem dropGrant_none (live : List Grant) : dropGrant none live = live := by
  simp [dropGrant]

theorem mem_dropGrant {p : Nat} : g ∈ dropGrant (some p) live ↔ g ∈ live ∧ g.pointer ≠ p := by
  simp [dropGrant]

theorem pointers_dropGrant {p : Nat} {ps : List Nat} (hp : (live.map Grant.pointer).Perm (p :: ps))
    (hn : (p :: ps).Nodup) : ((dropGrant (some p) live).map Grant.pointer).Perm ps := by
  have hfilter : (dropGrant (some p) live).map Grant.pointer = (live.map Grant.pointer).filter (· != p) := by
    rw [dropGrant, List.filter_map]
    congr 1
  rw [hfilter]
  refine (hp.filter _).trans (.of_eq ?_)
  rw [List.filter_cons_of_neg (by simp), List.filter_eq_self]
  intro q hq
  have hne : q ≠ p := fun he => (List.nodup_cons.mp hn).1 (he ▸ hq)
  simpa using hne

namespace Tracked

theorem nodup (hT : Tracked c w l) : (c.live.map Grant.pointer).Nodup := by
  refine hT.pointers.nodup_iff.mpr ?_
  exact hT.sound.abut.nodup.sublist (List.filter_sublist.map _)

theorem cell (hT : Tracked c w l) {p : Nat} (hp : c.Owns p) :
    ∃ d ∈ w, d.alloc = true ∧ d.addr = p := by
  obtain ⟨g, hg, rfl⟩ := hp
  obtain ⟨d, hd, hb⟩ := hT.backed g hg
  exact ⟨d, (mem_allocs.mp hd).1, (mem_allocs.mp hd).2, hb.addr⟩

theorem idle (hT : Tracked c w l) (hi : c.heap.Idle h') : Tracked { c with heap := h' } w l :=
  ⟨hT.sound.idle hi, hT.pointers, fun g hg => by
    obtain ⟨d, hd, hb⟩ := hT.backed g hg
    exact ⟨d, hd, hb.keep fun _ _ => by rw [hi.memory]⟩⟩

theorem give (hT : Tracked c w l) (hS : Sound h' w' l') (hperm : (allocs w').Perm (e :: allocs w))
    (hk : Keeps w c.heap h') (hb : e.Backs h' g) : Tracked ⟨h', g :: c.live⟩ w' l' := by
  refine ⟨hS, ?_, fun f hf => ?_⟩
  · rw [List.map_cons, ← hb.addr]
    exact (hT.pointers.cons e.addr).trans (hperm.map Cell.addr).symm
  · rcases List.mem_cons.mp hf with rfl | hf
    · exact ⟨e, hperm.mem_iff.mpr (by simp), hb⟩
    · obtain ⟨d, hd, hdb⟩ := hT.backed f hf
      exact ⟨d, hperm.mem_iff.mpr (by simp [hd]), hdb.keep (hk.cell (mem_allocs.mp hd).1 (mem_allocs.mp hd).2)⟩

theorem drop (hT : Tracked c w l) (hS : Sound h' w' l') (hperm : (allocs w).Perm (e :: allocs w'))
    (hk : Keeps w' c.heap h') : Tracked ⟨h', dropGrant (some e.addr) c.live⟩ w' l' := by
  have hp := hT.pointers.trans (hperm.map Cell.addr)
  refine ⟨hS, pointers_dropGrant hp (hp.nodup_iff.mp hT.nodup), fun f hf => ?_⟩
  obtain ⟨hf, hne⟩ := mem_dropGrant.mp hf
  obtain ⟨d, hd, hdb⟩ := hT.backed f hf
  have hdw : d ∈ allocs w' := by
    refine (List.mem_cons.mp (hperm.mem_iff.mp hd)).resolve_left fun he => hne ?_
    rw [← hdb.addr, he]
  exact ⟨d, hdw, hdb.keep (hk.cell (mem_allocs.mp hdw).1 (mem_allocs.mp hdw).2)⟩

theorem exchange (hT : Tracked c w l) (hS : Sound h' w' l') (hperm : (allocs w).Perm (e :: rest))
    (hperm' : (allocs w').Perm (d :: rest)) (hk : Keeps rest c.heap h') (hb : d.Backs h' g) :
    Tracked ⟨h', g :: dropGrant (some e.addr) c.live⟩ w' l' := by
  have hp := hT.pointers.trans (hperm.map Cell.addr)
  refine ⟨hS, ?_, fun f hf => ?_⟩
  · rw [List.map_cons, ← hb.addr]
    refine ((pointers_dropGrant hp (hp.nodup_iff.mp hT.nodup)).cons d.addr).trans ?_
    exact (hperm'.map Cell.addr).symm
  · rcases List.mem_cons.mp hf with rfl | hf
    · exact ⟨d, hperm'.mem_iff.mpr (by simp), hb⟩
    obtain ⟨hf, hne⟩ := mem_dropGrant.mp hf
    obtain ⟨b, hbw, hfb⟩ := hT.backed f hf
    have hbr : b ∈ rest := by
      refine (List.mem_cons.mp (hperm.mem_iff.mp hbw)).resolve_left fun he => hne ?_
      rw [← hfb.addr, he]
    exact ⟨b, hperm'.mem_iff.mpr (by simp [hbr]), hfb.keep (hk.cell hbr (mem_allocs.mp hbw).2)⟩

theorem run_usableSize (hL : Laid h w l) (hd : d ∈ w) : usableSize d.addr h = .ok (d.size - 16) :=
  (hL.stands hd).choose_spec.payloadSize

theorem usableAt_cell (hT : Tracked c w l) (hd : d ∈ w) : c.heap.usableAt d.addr = d.size - 16 := by
  rw [Heap.usableAt, run_usableSize hT.sound.toLaid hd]; rfl

theorem usableAt (hT : Tracked c w l) {p : Nat} (hp : c.Owns p) :
    usableSize p c.heap = .ok (c.heap.usableAt p) := by
  obtain ⟨d, hd, -, rfl⟩ := hT.cell hp
  rw [hT.usableAt_cell hd, run_usableSize hT.sound.toLaid hd]

theorem find (hT : Tracked c w l) (hd : d ∈ w) {f : Grant}
    (hf : c.live.find? (fun g => some g.pointer == some d.addr) = some f) : d.Backs c.heap f := by
  obtain ⟨e, he, hb⟩ := hT.backed f (List.mem_of_find?_eq_some hf)
  have hp := List.find?_some hf
  simp only [beq_iff_eq, Option.some.injEq] at hp
  obtain rfl := hT.sound.abut.eq_of_addr (mem_allocs.mp he).1 hd (hb.addr.trans hp)
  exact hb

end Tracked

def Spares (p : Option Nat) (w w' : List Cell) (h h' : Heap) : Prop :=
  ∀ d ∈ allocs w, some d.addr ≠ p → d ∈ allocs w' ∧ ∀ x, d.Holds x → h'.memory.byte x = h.memory.byte x

theorem Spares.idle {p : Option Nat} (hi : h.Idle h') : Spares p w w h h' :=
  fun _ hd _ => ⟨hd, fun _ _ => by rw [hi.memory]⟩

theorem Spares.of_perm {p : Option Nat} (xs : List Cell) (hperm : (allocs w').Perm (xs ++ allocs w))
    (hk : Keeps w h h') : Spares p w w' h h' := fun d hd _ =>
  ⟨hperm.mem_iff.mpr (by simp [hd]), hk.cell (mem_allocs.mp hd).1 (mem_allocs.mp hd).2⟩

theorem Spares.of_rest (xs : List Cell) (hperm : (allocs w).Perm (e :: rest))
    (hperm' : (allocs w').Perm (xs ++ rest)) (hk : Keeps rest h h') : Spares (some e.addr) w w' h h' := by
  intro d hd hne
  have hdr : d ∈ rest := (List.mem_cons.mp (hperm.mem_iff.mp hd)).resolve_left fun he => hne (he ▸ rfl)
  exact ⟨hperm'.mem_iff.mpr (by simp [hdr]), hk.cell hdr (mem_allocs.mp hd).2⟩

def Call.After (a : Call) (c : Client) (w : List Cell) (r : Option Nat) (h' : Heap) : Prop :=
  ∃ w' l', Tracked ⟨h', c.book a r⟩ w' l' ∧ c.heap.Later h' ∧ Spares a.pointer w w' c.heap h'

namespace Tracked

variable {a : Call} {n : Nat}

theorem after_idle (hT : Tracked c w l) (ha : c.book a none = c.live)
    (hi : c.heap.Idle h') : a.After c w none h' := by
  refine ⟨w, l, ?_, .of_bare hi.bare, .idle hi⟩
  rw [ha]
  exact hT.idle hi

theorem ends_malloc (hT : Tracked c w l) (hrun : a.run = malloc n) (hnone : c.book a none = c.live)
    (hsome : ∀ q, ∃ g : Grant, c.book a (some q) = g :: c.live ∧ g.pointer = q ∧ g.request = n ∧
      ∀ i, g.known i = none) : Ends a.run c.heap (a.After c w) := by
  rw [hrun]
  refine (hT.sound.ends_malloc n).mono ?_
  intro r h' hr
  rcases r with _ | q
  · exact hT.after_idle hnone hr.2
  · obtain ⟨w', l', d, hS, hsupply, rfl, hal, hsize, hperm, hk⟩ := hr
    obtain ⟨g, hbook, hgp, hgr, hgk⟩ := hsome d.addr
    refine ⟨w', l', ?_, hsupply.later, .of_perm [d] hperm hk⟩
    rw [hbook]
    exact hT.give hS hperm hk ⟨hgp.symm, by rwa [hgr], fun i v hv => by simp [hgk] at hv⟩

theorem ends_calloc (hT : Tracked c w l) (count n : Nat) :
    Ends (Call.calloc count n).run c.heap ((Call.calloc count n).After c w) := by
  refine (hT.sound.ends_calloc count n).mono ?_
  intro r h' hr
  rcases r with _ | q
  · exact hT.after_idle rfl hr.2
  · obtain ⟨w', l', d, hS, hsupply, rfl, hal, hsize, hperm, hk, hzero⟩ := hr
    refine ⟨w', l', hT.give hS hperm hk ⟨rfl, hsize, fun i v hv => ?_⟩, hsupply.later, .of_perm [d] hperm hk⟩
    simp only [Call.grant] at hv
    split at hv
    · next hi => exact ⟨by omega, (hzero i hi).trans (Option.some.inj hv)⟩
    · cases hv

theorem ends_release (hT : Tracked c w l) (hd : d ∈ w) (hal : d.alloc = true) (ha : a.pointer = some d.addr)
    (hbook : c.book a none = dropGrant (some d.addr) c.live) :
    Ends (free (some d.addr)) c.heap fun _ => a.After c w none := by
  refine (hT.sound.ends_release hd hal).mono ?_
  intro _ h' hr
  obtain ⟨w', l', hS, hb, hperm, hk⟩ := hr
  refine ⟨w', l', hbook ▸ hT.drop hS hperm hk, .of_bare hb, ?_⟩
  rw [ha]
  exact .of_rest [] hperm (.refl _) (hk.mono fun e he _ => (mem_allocs.mp he).1)

theorem ends_realloc (hT : Tracked c w l) (hd : d ∈ w) (hal : d.alloc = true) (hn : n ≠ 0) :
    Ends (Call.realloc (some d.addr) n).run c.heap ((Call.realloc (some d.addr) n).After c w) := by
  have husable := hT.usableAt_cell hd
  refine (hT.sound.ends_realloc hd hal hn).mono ?_
  intro r h' hr
  rcases r with _ | q
  · exact hT.after_idle (by simp [Client.book, Call.ends, hn]) hr
  · obtain ⟨w', l', e, rest, hS, hlater, rfl, heal, hsize, hperm, hperm', hk, hcopy⟩ := hr
    have hbook : c.book (.realloc (some d.addr) n) (some e.addr) =
        (Call.realloc (some d.addr) n).grant e.addr (c.heap.usableAt d.addr)
          (c.live.find? fun g => some g.pointer == some d.addr) :: dropGrant (some d.addr) c.live := by
      simp [Client.book, Call.ends, Call.pointer]
    refine ⟨w', l', ?_, hlater, .of_rest [e] hperm hperm' hk⟩
    rw [hbook]
    refine hT.exchange hS hperm hperm' hk ⟨rfl, hsize, fun i v hv => ?_⟩
    simp only [Call.grant] at hv
    split at hv
    · next hi =>
      obtain ⟨f, hf, hfv⟩ := Option.bind_eq_some_iff.mp hv
      have hb := hT.find hd hf
      refine ⟨by omega, (hcopy i (by omega)).trans ?_⟩
      rw [hb.addr]
      exact (hb.known i v hfv).2
    · cases hv

/-- A call with a legal pointer ends, and the books keep agreeing with the cells. -/
theorem ends_call (hT : Tracked c w l) (a : Call) (hlegal : ∀ p ∈ a.pointer, c.Owns p) :
    Ends a.run c.heap (a.After c w) := by
  cases a with
  | malloc n => exact hT.ends_malloc rfl rfl fun q => ⟨⟨q, n, fun _ => none⟩, rfl, rfl, rfl, fun _ => rfl⟩
  | calloc count n => exact hT.ends_calloc count n
  | realloc p n =>
    cases p with
    | none =>
      have hfind : c.live.find? (fun g => some g.pointer == none) = none := by simp
      refine hT.ends_malloc (n := n) rfl ?_ fun q =>
        ⟨(Call.realloc none n).grant q (c.heap.usableAt 0) none, ?_, rfl, rfl, fun i => ?_⟩
      · simp [Client.book, Call.pointer, dropGrant_none]
      · simp only [Client.book, Call.pointer, dropGrant_none, ite_self, hfind, Option.getD_none]
      · simp [Call.grant]
    | some p =>
      obtain ⟨d, hd, hal, rfl⟩ := hT.cell (hlegal p rfl)
      by_cases hn : n = 0
      · subst hn
        refine Ends.bind (hT.ends_release (a := .realloc (some d.addr) 0) hd hal rfl rfl) ?_
        exact fun _ _ hr => Ends.pure hr
      · exact hT.ends_realloc hd hal hn
  | free p =>
    cases p with
    | none =>
      refine Ends.pure (hT.after_idle ?_ (.refl c.heap))
      simp [Client.book, Call.ends, Call.pointer, dropGrant_none]
    | some p =>
      obtain ⟨d, hd, hal, rfl⟩ := hT.cell (hlegal p rfl)
      refine Ends.bind (hT.ends_release (a := .free (some d.addr)) hd hal rfl rfl) ?_
      exact fun _ _ hr => Ends.pure hr

theorem write {p i : Nat} {bytes : List UInt8} (hT : Tracked c w l) (hp : c.Owns p)
    (hfit : i + bytes.length ≤ c.heap.usableAt p) :
    Tracked (c.write p i bytes) w l ∧ Spares (some p) w w c.heap (c.write p i bytes).heap := by
  obtain ⟨d, hd, hal, rfl⟩ := hT.cell hp
  have hle := d.le_size
  rw [hT.usableAt_cell hd] at hfit
  have hlen : i + bytes.length + 16 ≤ d.size := by omega
  have hother : ∀ e ∈ w, e.addr ≠ d.addr → ∀ x, e.Holds x →
      (c.write d.addr i bytes).heap.memory.byte x = c.heap.memory.byte x := fun e he hne x hx =>
    Sound.byte_write hT.sound.toLaid hd he (fun heq => hne (heq ▸ rfl)) hlen hx
  refine ⟨⟨hT.sound.write hd hal hlen, ?_, fun f hf => ?_⟩, fun e he hne => ⟨he, ?_⟩⟩
  · refine (List.Perm.of_eq ?_).trans hT.pointers
    rw [Client.write, List.map_map]
    refine List.map_congr_left fun f _ => ?_
    rw [Function.comp_apply]
    split <;> rfl
  · obtain ⟨g, hg, rfl⟩ := List.mem_map.mp hf
    obtain ⟨e, he, hb⟩ := hT.backed g hg
    refine ⟨e, he, ?_⟩
    split
    · next hgd =>
      obtain rfl := hT.sound.abut.eq_of_addr (mem_allocs.mp he).1 hd (hb.addr.trans hgd)
      exact hb.addr ▸ hb.write hlen
    · next hgd => exact hb.keep (hother e (mem_allocs.mp he).1 (hb.addr ▸ hgd))
  · exact hother e (mem_allocs.mp he).1 fun heq => hne (congrArg some heq)

theorem step {m : Move} {c' : Client} (hT : Tracked c w l) (hm : Step c m c') :
    ∃ w' l', Tracked c' w' l' ∧ c.heap.Later c'.heap ∧ Spares m.pointer w w' c.heap c'.heap := by
  cases hm with
  | call hlegal hrun => exact (hT.ends_call _ hlegal).of_run hrun
  | write hp hfit =>
    obtain ⟨hT', hs⟩ := hT.write hp hfit
    exact ⟨w, l, hT', .of_bare (bare_memory _ _), hs⟩

theorem start {chunk : Nat} (hs : h.source.Fresh) (hrun : layOut chunk h = .ok (.ok ()) h') :
    ∃ w l, Tracked { heap := h' } w l := by
  obtain ⟨-, -, d, -, -, hf, hS⟩ := (layOut_fresh hs chunk).of_run hrun
  refine ⟨[d], _, hS, ?_, by simp⟩
  rw [allocs_cons_free hf]; exact .refl _

end Tracked

/-- The books of every client that can be reached agree with the cells of its heap. -/
theorem Reachable.tracked (hc : Reachable c) : ∃ w l, Tracked c w l := by
  refine hc.invariant (P := fun c => ∃ w l, Tracked c w l) Tracked.start ?_
  intro c c' m hr hm
  obtain ⟨w, l, hT⟩ := hr
  obtain ⟨w', l', hT', -⟩ := hT.step hm
  exact ⟨w', l', hT'⟩

/-! ## Clients that run -/

theorem Reachable.step_call (hc : Reachable c) (a : Call) (hlegal : ∀ p ∈ a.pointer, c.Owns p) :
    Step c (.call a) (c.call a) := by
  obtain ⟨w, l, hT⟩ := hc.tracked
  obtain ⟨r, h', hrun, -⟩ := hT.ends_call a hlegal
  rw [Client.call, hrun]
  exact .call hlegal hrun

theorem Reachable.call (hc : Reachable c) (a : Call) (hlegal : ∀ p ∈ a.pointer, c.Owns p) :
    Reachable (c.call a) :=
  hc.step (hc.step_call a hlegal)

theorem run_layOut (h : Heap) (chunk : Nat)
    (hr : (match layOut chunk h with | .ok (.ok ()) _ => true | _ => false) = true) :
    layOut chunk h = .ok (.ok ()) (h.after (layOut chunk)) := by
  rw [Heap.after]
  split at hr
  · next h' he => rw [he]
  · cases hr

/-- A small run in a buffer of 512 bytes: an allocation is written to, and moves when
it is to grow past the one after it. -/
def smallRun : Client :=
  let h : Heap := { source := .buffer (.ofBytes 4096 512), guarded := true }
  let c : Client := { heap := h.after (layOut 128) }
  (((c.call (.malloc 24)).write 4128 0 [7]).call (.calloc 2 8)).call (.realloc (some 4128) 60)

theorem reachable_smallRun : Reachable smallRun := by
  have hfresh : (Source.buffer (.ofBytes 4096 512)).Fresh := ⟨4096, 512, by decide, by decide, rfl⟩
  have h₀ := Reachable.start hfresh
    (run_layOut { source := .buffer (.ofBytes 4096 512), guarded := true } 128 (by decide +kernel))
  have h₁ := h₀.call (.malloc 24) (by decide +kernel)
  have h₂ := h₁.step (m := .write 4128 0 [7]) (.write (by decide +kernel) (by decide +kernel))
  have h₃ := h₂.call (.calloc 2 8) (by decide +kernel)
  exact h₃.call (.realloc (some 4128) 60) (by decide +kernel)

end SegregatedFit
