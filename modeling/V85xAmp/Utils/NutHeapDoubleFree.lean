import V85xAmp.Utils.NutHeapRun

/-!
# Blocks that are released twice

The header of a released block stays in the free list, in whatever node it has been joined to, until an
allocation hands it out again: `Released` is what every step keeps. A second release finds this node on its
walk, reports -1 and changes nothing (`double_free_detected`).
-/

namespace V85x

open Firmware

/-- An allocation of `size` bytes that returned `p` hands out the byte: it is in the block, or one of the
bytes asked for (or the header in front of them), which may go round the end of the memory. -/
def HandsOut (h : Heap) (size p x : Nat) : Prop :=
  (blockNode h p).Has x ∨ (x + 4 + (addrMod - p)) % addrMod < size + 4

/-- An allocation hands out the header of the block. -/
def CoversHeader (h : Heap) (size p block : Nat) : Prop :=
  ∀ x, nodeOfBlock block ≤ x → x < nodeOfBlock block + 4 → HandsOut h size p x

/-- A step after the release of the block: no allocation, of whatever size, hands out the block's header. The
block may be released again. -/
inductive LaterStep (block : Nat) : HeapRun → HeapOp → HeapRun → Prop
  | add {s t : HeapRun} {r : Seg} : HeapStep s (.add r) t → LaterStep block s (.add r) t
  | alloc {s : HeapRun} {size p : Nat} {h' : Heap} : size < addrMod →
      (nutHeapRootAlloc s.heap size).Returns (p, h') → (p ≠ 0 → ¬ CoversHeader h' size p block) →
      LaterStep block s (.alloc size) { s with heap := h', live := if p = 0 then s.live else p :: s.live }
  | free {s t : HeapRun} {p : Nat} : HeapStep s (.free p) t → LaterStep block s (.free p) t
  | write {s t : HeapRun} {mem : Mem} : HeapStep s (.write mem) t → LaterStep block s (.write mem) t
  | again {s : HeapRun} {rc : Int} {h' : Heap} : (nutHeapRootFree s.heap block).Returns (rc, h') →
      LaterStep block s (.free block) { s with heap := h' }

/-- The header of the block is the heap's, and in no block in use. -/
structure Released (block : Nat) (s : HeapRun) : Prop where
  ne : block ≠ 0
  aligned : nodeOfBlock block % 4 = 0
  region : 0 < cover s.regions (nodeOfBlock block)
  unused : ∀ p ∈ s.live, ¬ (blockNode s.heap p).Has (nodeOfBlock block)

section

variable {s t : HeapRun} {l : List Seg} {block p : Nat} {op : HeapOp}

/-- A node with the first byte of a header has all of it. -/
theorem IsNode.has_header {n : Seg} (hn : IsNode n) (hb : nodeOfBlock block % 4 = 0)
    (h : n.Has (nodeOfBlock block)) {x : Nat} (hlo : nodeOfBlock block ≤ x)
    (hhi : x < nodeOfBlock block + 4) : n.Has x := by
  have h1 := hn.addr_mod
  have h2 := hn.size_mod
  unfold Seg.Has Seg.fin at *
  omega

/-- A released block is in the free list. -/
theorem Released.cover_free (h : Released block s) (hi : Tiled s l) : 0 < cover l (nodeOfBlock block) := by
  have hnone : cover s.blocks (nodeOfBlock block) = 0 := by
    refine cover_eq_zero.mpr fun n hn => ?_
    obtain ⟨p, hp, rfl⟩ := List.mem_map.mp hn
    exact h.unused p hp
  have h1 := hi.tiles (nodeOfBlock block)
  have h2 := h.region
  omega

theorem Released.again (h : Released block s) (hi : Tiled s l) :
    (nutHeapRootFree s.heap block).Ends fun (rc, h') => rc = -1 ∧ h' = s.heap :=
  nutHeapRootFree_again hi.free h.ne (h.cover_free hi)

/-- The release itself. -/
theorem Tiled.releasedAfter (hi : Tiled s l) (hst : HeapStep s (.free block) t) : Released block t := by
  obtain ⟨l', hi', hcover, hkeep⟩ := hi.released hst
  cases hst with
  | @free _ rc h' hl hret =>
    have hlive : block ∈ s.live := hl
    obtain ⟨hnode, hblock⟩ := hi.nodes block hlive
    have hhas : (blockNode s.heap block).Has (nodeOfBlock block) :=
      hnode.has (Nat.le_refl _) (Nat.lt_add_of_pos_right (by decide))
    have hone := hcover (nodeOfBlock block)
    rw [Seg.count_eq_one.mpr hhas] at hone
    have htiles := hi'.tiles (nodeOfBlock block)
    have honce := hi'.once (nodeOfBlock block)
    refine ⟨by omega, hnode.addr_mod, by omega, fun p hp hx => ?_⟩
    have hpos := count_le_cover (List.mem_map_of_mem (f := blockNode h') hp) (nodeOfBlock block)
    rw [Seg.count_eq_one.mpr hx] at hpos
    replace hpos : 1 ≤ cover (HeapRun.blocks { s with heap := h', live := s.live.erase block })
      (nodeOfBlock block) := hpos
    omega

/-- Blocks that stay where they are do not get the header. -/
theorem Released.of_keep (h : Released block s) (hregion : ∀ x, cover s.regions x ≤ cover t.regions x)
    (hlive : ∀ p ∈ t.live, p ∈ s.live) (hkeep : ∀ p ∈ t.live, blockNode t.heap p = blockNode s.heap p) :
    Released block t :=
  ⟨h.ne, h.aligned, Nat.lt_of_lt_of_le h.region (hregion _), fun p hp => by
    rw [hkeep p hp]
    exact h.unused p (hlive p hp)⟩

/-- A request that wraps hands out all of the free list, if it succeeds. -/
theorem Released.coversHeader {size : Nat} {h' : Heap} {a : Seg} (h : Released block s) (hi : Tiled s l)
    (hwrap : addrMod ≤ size + 7) (ha : a ∈ l) : CoversHeader h' size (a.addr + 4) block := by
  obtain ⟨c, hc, hhas⟩ := cover_pos.mp (h.cover_free hi)
  have hfin : c.addr + c.size < addrMod := (hi.free.nodes c hc).fin_lt
  have hafin : a.addr + a.size < addrMod := (hi.free.nodes a ha).fin_lt
  have ha4 := (hi.free.nodes a ha).addr_mod
  have hc4 := (hi.free.nodes c hc).addr_mod
  have hs4 := (hi.free.nodes c hc).size_mod
  -- the node of the header ends a word or more in front of `a`, or does not lie in front of it
  have hgap : c.fin + 4 ≤ a.addr ∨ a.addr ≤ c.addr := by
    rcases Nat.lt_or_ge c.addr a.addr with hlt | hge
    · have hne := hi.free.separated.fin_ne (fun n hn => (hi.free.nodes n hn).size_pos) hc ha
      have hle := hi.free.fin_le_of_lt hc ha hlt
      unfold Seg.fin at *
      omega
    · exact .inr hge
  intro x hlo hhi
  obtain ⟨hxlo, hxhi⟩ := (hi.free.nodes c hc).has_header h.aligned hhas hlo hhi
  apply Or.inr
  unfold Seg.fin at *
  unfold addrMod at *
  omega

theorem Released.alloc {size p : Nat} {h' : Heap} (h : Released block s) (hi : Tiled s l)
    (hret : (nutHeapRootAlloc s.heap size).Returns (p, h'))
    (hnot : p ≠ 0 → ¬ CoversHeader h' size p block) :
    Released block { s with heap := h', live := if p = 0 then s.live else p :: s.live } ∧
      ∃ l', Tiled { s with heap := h', live := if p = 0 then s.live else p :: s.live } l' := by
  by_cases hwrap : addrMod ≤ size + 7
  · rcases (nutHeapRootAlloc_ends hi.free size).of_returns hret with
      ⟨rfl, rfl, -⟩ | ⟨m₁, a, m₂, q, hl, -, -, rfl, -⟩
    · exact ⟨h, l, hi⟩
    · exact absurd (h.coversHeader hi hwrap (by simp [hl])) (hnot (Nat.succ_ne_zero _))
  · rcases (nutHeapRootAlloc_spec hi.free (Nat.not_le.mp hwrap)).of_returns hret with
      ⟨rfl, rfl, -⟩ | ⟨l', b, rfl, -, ht⟩
    · exact ⟨h, l, hi⟩
    · rw [if_neg (Nat.succ_ne_zero _)]
      have hnode : blockNode h' (b.addr + 4) = b := blockNode_of_header ht.node ht.header
      refine ⟨⟨h.ne, h.aligned, h.region, fun q hq hx => ?_⟩, l', hi.taken ht⟩
      rcases List.mem_cons.mp hq with rfl | hq
      · refine hnot (Nat.succ_ne_zero _) fun x hlo hhi => .inl ?_
        rw [hnode]
        exact ht.node.has_header h.aligned (hnode ▸ hx) hlo hhi
      · have hkeep : blockNode h' q = blockNode s.heap q :=
          hi.keep (o := []) (g := []) (.refl _) hi.once (fun x hx _ _ => ht.frame x hx) hq
        exact h.unused q hq (hkeep ▸ hx)

theorem Released.step (h : Released block s) (hi : Tiled s l) (hst : LaterStep block s op t) :
    Released block t ∧ ∃ l', Tiled t l' := by
  cases hst with
  | add hst =>
    refine ⟨?_, hi.step hst⟩
    obtain ⟨hlive, hregions, hkeep⟩ := hi.added hst
    refine h.of_keep (fun x => ?_) (fun p hp => hlive ▸ hp) fun p hp => hkeep p (hlive ▸ hp)
    rw [hregions, cover_cons]
    exact Nat.le_add_left _ _
  | alloc _ hret hnot => exact h.alloc hi hret hnot
  | free hst =>
    refine ⟨?_, hi.step hst⟩
    obtain ⟨l', hi', -, hkeep⟩ := hi.released hst
    cases hst with
    | free hl hret => exact h.of_keep (fun x => Nat.le_refl _) (fun p hp => List.mem_of_mem_erase hp) hkeep
  | write hst =>
    refine ⟨?_, hi.step hst⟩
    obtain ⟨-, hlive, hkeep⟩ := hi.written hst
    cases hst with
    | write hl => exact h.of_keep (fun x => Nat.le_refl _) (fun p hp => hp) hkeep
  | again hret =>
    obtain ⟨-, rfl⟩ := (h.again hi).of_returns hret
    exact ⟨h, l, hi⟩

end

/-- After the release of a block, and whatever is added, allocated and released then, as long as no allocation
hands out the block's header: a second release reports -1, and nothing changes. -/
theorem double_free_detected {s t u : HeapRun} {block : Nat} (h : Reachable HeapStep HeapRun.Empty s)
    (hfree : HeapStep s (.free block) t) (hlater : Reachable (LaterStep block) (fun v => v = t) u) :
    (nutHeapRootFree u.heap block).Returns (-1, u.heap) := by
  obtain ⟨l, hi⟩ := tiled_of_reachable h
  have hreleased := hi.releasedAfter hfree
  have hinv : Released block u ∧ ∃ l, Tiled u l := by
    induction hlater with
    | init hv =>
      subst hv
      exact ⟨hreleased, hi.step hfree⟩
    | step _ hst ih =>
      obtain ⟨hv, l', hv'⟩ := ih
      exact hv.step hv' hst
  obtain ⟨hu, l', hu'⟩ := hinv
  obtain ⟨⟨rc, h'⟩, hret, rfl, rfl⟩ := hu.again hu'
  exact hret

/-- The second of three blocks is released and joined with the one in front of it; a part of that is allocated
again, and then the second block is released once more. -/
theorem double_free_detected_joined : ∃ u : HeapRun, u.live = [68, 92] ∧
    (nutHeapRootFree u.heap 84).Returns (-1, u.heap) := by
  have h0 : Reachable HeapStep HeapRun.Empty freshHeap := .init ⟨rfl, rfl, rfl⟩
  have h1 := h0.step (@HeapStep.add _ ⟨64, 64⟩ _ ⟨⟨rfl, rfl, by decide, by decide, by decide⟩,
    by simp [freshHeap]⟩ (Comp.returns_of_run 3 rfl))
  have h2 := h1.step (@HeapStep.alloc _ 10 68 _ (show 10 + 16 < addrMod by decide)
    (Comp.returns_of_run 3 rfl))
  have h3 := h2.step (@HeapStep.alloc _ 4 84 _ (show 4 + 16 < addrMod by decide)
    (Comp.returns_of_run 3 rfl))
  have h4 := h3.step (@HeapStep.alloc _ 4 92 _ (show 4 + 16 < addrMod by decide)
    (Comp.returns_of_run 3 rfl))
  refine ⟨_, ?_, double_free_detected h4
    (@HeapStep.free _ 84 0 _ (show 84 ∈ [92, 84, 68] by decide) (Comp.returns_of_run 3 rfl))
    (.step (.step (.init rfl)
      (.free (@HeapStep.free _ 68 0 _ (show 68 ∈ [92, 68] by decide) (Comp.returns_of_run 3 rfl))))
      (@LaterStep.alloc 84 _ 4 68 _ (by decide) (Comp.returns_of_run 3 rfl) fun _ hc => ?_))⟩
  · decide
  · rcases hc 80 (by decide) (by decide) with hblock | hasked
    · exact absurd hblock (by decide)
    · exact absurd hasked (by decide)

end V85x
