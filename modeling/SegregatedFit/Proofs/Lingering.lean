import SegregatedFit.Proofs.Fitting

/-!
# Freeing twice

A block that was freed is marked free for as long as nothing is allocated. While it is a
block of its own its tags say so. Once it is merged its header is a word within a free
block, behind the links, and there neither the allocator nor a client writes, however
many blocks merge around it. So to free it again is a fault, which changes nothing.
-/

namespace SegregatedFit

variable {c c' : Client} {h h' : Heap} {w lo hi : List Cell} {l : Lists} {d f : Cell} {below above : Option Cell}
  {p x y : Nat}

/-! ## Headers within free cells -/

structure Cell.Covers (f : Cell) (p : Nat) : Prop where
  first : f.addr = p ∨ f.addr + 32 ≤ p
  last : p + 32 ≤ f.addr + f.size

namespace Cell.Covers

theorem self (d : Cell) : d.freed.Covers d.addr :=
  ⟨.inl rfl, Nat.add_le_add_left d.le_size _⟩

theorem header (hp : f.Covers p) (hne : f.addr ≠ p) (hlo : p - 8 ≤ x) (hhi : x < p) :
    f.Holds x ∧ f.addr + 16 ≤ x := by
  have hfirst := hp.first.resolve_left hne
  have hlast := hp.last
  refine ⟨⟨?_, ?_⟩, ?_⟩ <;> omega

theorem merge (hw : Abut x (lo ++ (below.toList ++ d :: above.toList) ++ hi) y)
    (hf : f ∈ below.toList ++ d :: above.toList) (hp : f.Covers p) : (Cell.merge below d above).Covers p := by
  obtain ⟨rest, hrest, hsum⟩ := Cell.merged below d above
  rw [hrest] at hw hf
  obtain ⟨b, hw, -⟩ := abut_append.mp hw
  obtain ⟨a, -, hw⟩ := abut_append.mp hw
  have hbounds := hw.bounds f hf
  have hend := hw.end_eq
  have hstart : (below.getD d).addr = a := hw.1
  have haddr : (Cell.merge below d above).addr = a := hw.1
  have hfirst := hp.first
  have hlast := hp.last
  have hsize := (below.getD d).le_size
  rw [← hsum] at hend
  refine ⟨?_, by omega⟩
  rcases hw.apart hf List.mem_cons_self with rfl | hlt | hlt
  · exact hfirst
  · have := f.le_size
    omega
  · exact .inr (by omega)

end Cell.Covers

def Heap.headerAt (h : Heap) (p : Nat) : Tag := ⟨h.memory.word (p - 8)⟩

/-- A block at `p` was freed: its header says so, and it is a free cell or lies within one. -/
structure Heap.Lingers (h : Heap) (w : List Cell) (p : Nat) : Prop where
  covered : ∃ f ∈ w, f.alloc = false ∧ f.Covers p
  marked : (h.headerAt p).isAlloc = false

namespace Laid

/-- What is written to the books of a free cell is not written behind its links. -/
theorem byte_within (hL : Laid h' w l) (hf : f ∈ w) (ht : Touches h h' (MetaBytes w h.top)) (hx : f.Holds x)
    (hin : f.addr + 16 ≤ x) : h'.memory.byte x = h.memory.byte x :=
  ht.byte x (not_metaBytes (top_of_bare ht.bare ▸ hL.abut) hf hx fun _ => hin)

theorem marked (hL : Laid h' w l) (hf : f ∈ w) (hfree : f.alloc = false) (hp : f.Covers p)
    (hold : f.addr ≠ p → (h.headerAt p).isAlloc = false)
    (hk : ∀ x, f.Holds x → f.addr + 16 ≤ x → h'.memory.byte x = h.memory.byte x) :
    (h'.headerAt p).isAlloc = false := by
  by_cases hfp : f.addr = p
  · obtain ⟨q, hst⟩ := hL.stands hf
    rw [Heap.headerAt, ← hfp, hst.tagged.header]
    exact (f.isAlloc_tag q).trans hfree
  · have hlo := hp.first.resolve_left hfp
    rw [Heap.headerAt, Memory.word_congr fun x hx hx' => ?_]
    · exact hold hfp
    · obtain ⟨hx₁, hx₂⟩ := hp.header hfp hx (by omega)
      exact hk x hx₁ hx₂

end Laid

/-! ## Frees and writes -/

theorem Sound.ends_free_lingers (hS : Sound h w l) (hd : d ∈ w) (hal : d.alloc = true)
    (hp : d.addr = p ∨ h.Lingers w p) :
    Ends (free (some d.addr)) h fun _ h' => ∃ w' l', Sound h' w' l' ∧ h'.Lingers w' p := by
  obtain ⟨pre, post, rfl⟩ := List.append_of_mem hd
  obtain ⟨lo, below, above, hi, rfl, rfl, hfence⟩ := hS.parted.fence
  refine (hS.ends_free_passes hal hfence).mono ?_
  intro _ h' hr
  obtain ⟨hS', h₁, l₁, hL₁, ht₁, ht₂⟩ := hr
  have hcat : lo ++ below.toList ++ d.freed :: (above.toList ++ hi) =
      lo ++ (below.toList ++ d.freed :: above.toList) ++ hi := by simp
  -- what covers `p` while the freed cell is still one of its own, and once it has merged
  obtain ⟨f, hf, hff, hfp, hold⟩ : ∃ f ∈ lo ++ below.toList ++ d.freed :: (above.toList ++ hi),
      f.alloc = false ∧ f.Covers p ∧ (f.addr ≠ p → (h.headerAt p).isAlloc = false) := by
    rcases hp with rfl | ⟨⟨f, hf, hff, hfp⟩, hm⟩
    · exact ⟨d.freed, by simp, rfl, .self d, fun hne => absurd rfl hne⟩
    · have hne : f ≠ d := Cell.ne_of_alloc hff hal
      refine ⟨f, ?_, hff, hfp, fun _ => hm⟩
      rcases List.mem_append.mp hf with hf | hf
      · exact List.mem_append_left _ hf
      · exact List.mem_append_right _ (List.mem_cons_of_mem _ ((List.mem_cons.mp hf).resolve_left hne))
  obtain ⟨e, he, hef, hep⟩ : ∃ e ∈ lo ++ Cell.merge below d above :: hi, e.alloc = false ∧ e.Covers p := by
    rw [hcat] at hf
    rcases List.mem_append.mp hf with hf | hf
    · rcases List.mem_append.mp hf with hf | hf
      · exact ⟨f, List.mem_append_left _ hf, hff, hfp⟩
      · refine ⟨Cell.merge below d above, by simp, rfl, ?_⟩
        rw [← Cell.merge_freed]
        exact hfp.merge (hcat ▸ hL₁.abut) hf
    · exact ⟨f, List.mem_append_right _ (List.mem_cons_of_mem _ hf), hff, hfp⟩
  have hmid := hL₁.marked hf hff hfp hold fun x => hL₁.byte_within hf ht₁
  exact ⟨_, _, hS', ⟨e, he, hef, hep⟩, hS'.marked he hef hep (fun _ => hmid) fun x => hS'.byte_within he ht₂⟩

/-- From `c` on, the client only frees live pointers and writes to live payloads. -/
inductive Client.Drains (c : Client) : Client → Prop
  | refl : Drains c c
  | free {c₁ c₂ : Client} {q : Option Nat} (hd : Drains c c₁) (hm : Step c₁ (.call (.free q)) c₂) : Drains c c₂
  | write {c₁ c₂ : Client} {q i : Nat} {bytes : List UInt8} (hd : Drains c c₁) (hm : Step c₁ (.write q i bytes) c₂) :
    Drains c c₂

namespace Tracked

theorem ends_free_lingers (hT : Tracked c w l) {q : Nat} (hq : c.Owns q) (hp : q = p ∨ c.heap.Lingers w p) :
    Ends (free (some q)) c.heap fun _ h' =>
      ∃ w' l', Tracked ⟨h', dropGrant (some q) c.live⟩ w' l' ∧ h'.Lingers w' p := by
  obtain ⟨d, hd, hal, rfl⟩ := hT.cell hq
  refine ((hT.ends_release (a := .free (some d.addr)) hd hal rfl rfl).and
    (hT.sound.ends_free_lingers hd hal hp)).mono ?_
  intro _ h' hr
  obtain ⟨⟨w', l', hT', -⟩, w'', l'', hS, hp'⟩ := hr
  obtain rfl := hT'.sound.cells_unique hS.toLaid
  exact ⟨w', l', hT', hp'⟩

theorem write_lingers {q i : Nat} {bytes : List UInt8} (hT : Tracked c w l) (hq : c.Owns q)
    (hfit : i + bytes.length ≤ c.heap.usableAt q) (hp : c.heap.Lingers w p) :
    (c.write q i bytes).heap.Lingers w p := by
  have hL' := (hT.write hq hfit).1.sound.toLaid
  obtain ⟨d, hd, hal, rfl⟩ := hT.cell hq
  obtain ⟨⟨f, hf, hff, hfp⟩, hm⟩ := hp
  have hle := d.le_size
  have hne : f ≠ d := Cell.ne_of_alloc hff hal
  rw [hT.usableAt_cell hd] at hfit
  refine ⟨⟨f, hf, hff, hfp⟩, hL'.marked hf hff hfp (fun _ => hm) fun x hx _ => ?_⟩
  exact Sound.byte_write hT.sound.toLaid hd hf hne (by omega) hx

/-- As long as a client only frees and writes, what was freed stays marked free. -/
theorem drains_lingers (hT : Tracked c w l) (hp : c.heap.Lingers w p) (hd : c.Drains c') :
    ∃ w' l', Tracked c' w' l' ∧ c'.heap.Lingers w' p := by
  induction hd with
  | refl => exact ⟨w, l, hT, hp⟩
  | @free c₁ c₂ q _ hm ih =>
    obtain ⟨w₁, l₁, hT₁, hp₁⟩ := ih
    cases hm with
    | call hlegal hrun =>
      cases q with
      | none =>
        obtain ⟨rfl, rfl⟩ := EStateM.Result.ok.inj hrun
        have hlive : c₁.book (.free none) none = c₁.live := dropGrant_none _
        rw [hlive]
        exact ⟨w₁, l₁, hT₁, hp₁⟩
      | some q =>
        have hfree : Ends (Call.free (some q)).run c₁.heap fun r h' =>
            ∃ w' l', Tracked ⟨h', c₁.book (.free (some q)) r⟩ w' l' ∧ h'.Lingers w' p :=
          Ends.bind (hT₁.ends_free_lingers (hlegal q rfl) (.inr hp₁)) fun _ _ hr => Ends.pure hr
        exact hfree.of_run hrun
  | write _ hm ih =>
    obtain ⟨w₁, l₁, hT₁, hp₁⟩ := ih
    cases hm with
    | write hq hfit => exact ⟨w₁, l₁, (hT₁.write hq hfit).1, hT₁.write_lingers hq hfit hp₁⟩

end Tracked

/-! ## The second time -/

theorem Laid.run_free_lingers (hL : Laid h w l) (hp : h.Lingers w p) :
    (⟨p⟩ : Block).header h = .ok (h.headerAt p) ∧
      free (some p) h = .error (.notAllocated ⟨p⟩ (h.headerAt p)) h := by
  obtain ⟨⟨f, hf, -, hfp⟩, hm⟩ := hp
  have hbounds := hL.abut.bounds f hf
  have hfirst := hfp.first
  have hlast := hfp.last
  have haddr : (⟨p⟩ : Block).headerAddr = p - 8 := Block.headerAddr_eq (by simp only; omega)
  have hhead : (⟨p⟩ : Block).header h = .ok (h.headerAt p) := by
    rw [run_header, haddr]
    · rfl
    · rw [haddr]
      exact permits_word (by omega) (by omega)
  refine ⟨hhead, (run_bind_query hhead).trans (run_bind_error (run_demand_not ?_))⟩
  rw [hm]
  decide

/-- In every heap of a client, once a live pointer is freed, to free it again is a fault for as long as
nothing is allocated, whatever else is freed or written; and it leaves the heap as it was. -/
theorem Reachable.free_twice (hc : Reachable c) (hp : c.Owns p) : Ends (free (some p)) c.heap fun _ h₁ =>
    ∀ c', Client.Drains ⟨h₁, dropGrant (some p) c.live⟩ c' → ∃ t, (⟨p⟩ : Block).header c'.heap = .ok t ∧
      t.isAlloc = false ∧ free (some p) c'.heap = .error (.notAllocated ⟨p⟩ t) c'.heap := by
  obtain ⟨w, l, hT⟩ := hc.tracked
  refine (hT.ends_free_lingers hp (.inl rfl)).mono ?_
  intro _ h₁ hr c' hd
  obtain ⟨w₁, l₁, hT₁, hp₁⟩ := hr
  obtain ⟨w', l', hT', hp'⟩ := hT₁.drains_lingers hp₁ hd
  obtain ⟨hhead, hfree⟩ := hT'.sound.run_free_lingers hp'
  exact ⟨_, hhead, hp'.marked, hfree⟩

/-- What is left is written to and freed as well, so that the heap is one block: the header of the
first pointer is a word within it, and to free that pointer again is a fault all the same. -/
theorem tieRun_free_twice : ∃ c', Client.Drains (tieRun.call (.free (some 4176))) c' ∧
    blocks c'.heap = .ok [(⟨4128⟩, .pack 256 false true)] ∧
    ∃ t, t.isAlloc = false ∧ free (some 4176) c'.heap = .error (.notAllocated ⟨4176⟩ t) c'.heap := by
  obtain ⟨howns, hother, hfit, hlast, hwalk⟩ : tieRun.Owns 4176 ∧ (tieRun.call (.free (some 4176))).Owns 4272 ∧
      1 ≤ (tieRun.call (.free (some 4176))).heap.usableAt 4272 ∧
      ((tieRun.call (.free (some 4176))).write 4272 0 [255]).Owns 4272 ∧
      blocks (((tieRun.call (.free (some 4176))).write 4272 0 [255]).call (.free (some 4272))).heap =
        .ok [(⟨4128⟩, .pack 256 false true)] := by decide +kernel
  obtain ⟨_, h₁, hrun, htwice⟩ := Reachable.free_twice reachable_tieRun howns
  have hfirst : (Call.free (some 4176)).run tieRun.heap = .ok none h₁ := run_bind hrun
  have hcall : tieRun.call (.free (some 4176)) = ⟨h₁, dropGrant (some 4176) tieRun.live⟩ := by
    rw [Client.call, hfirst]; rfl
  rw [← hcall] at htwice
  have hc := reachable_tieRun.call (.free (some 4176)) fun _ hp => Option.mem_some.mp hp ▸ howns
  have hwrite : Step (tieRun.call (.free (some 4176))) (.write 4272 0 [255]) _ := .write hother hfit
  have hfree := (hc.step hwrite).step_call (.free (some 4272)) fun _ hp => Option.mem_some.mp hp ▸ hlast
  have hd := Client.Drains.free (.write .refl hwrite) hfree
  obtain ⟨t, -, ht, hagain⟩ := htwice _ hd
  exact ⟨_, hd, hwalk, t, ht, hagain⟩

end SegregatedFit
