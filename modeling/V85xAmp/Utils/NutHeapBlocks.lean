import V85xAmp.Utils.NutHeapRun

/-!
# What the callers of the heap get

`realloc_preserves`: a reallocation that fails changes nothing; one that succeeds keeps the contents of its
block and leaves the others alone. `alloc_sizes_iff`: blocks are as large as asked for as long as the size
with the header and the rounding does not wrap. The rounded size of a block that moves is passed on to
`NutHeapRootAlloc`, which adds a second header, so that a reallocation goes wrong four bytes earlier.
-/

namespace V85x

open Firmware

/-! ## Contents -/

section Contents

variable {s : HeapRun} {l : List Seg} {h' : Heap} {p q size : Nat}

/-- The bytes of the block `p` are at `q`, as far as both go, and the other blocks in use are as they were. -/
structure Preserves (s : HeapRun) (h' : Heap) (p size q : Nat) : Prop where
  data : ∀ i < min ((blockNode s.heap p).size - 4) size, h'.mem (q + i) = s.heap.mem (p + i)
  others : ∀ r ∈ s.live, r ≠ p → blockNode h' r = blockNode s.heap r ∧
    ∀ x, (blockNode s.heap r).Has x → h'.mem x = s.heap.mem x
  large : size + 4 ≤ (blockNode h' q).size
  invariant : ∃ l', Tiled { s with heap := h', live := q :: s.live.erase p } l'

theorem Tiled.preserves {l' : List Seg} {b : Seg} (hi : Tiled s l) (hp : p ∈ s.live)
    (hsize : size + 7 < addrMod) (hneed : allocNeed size ≤ b.size)
    (hm : Moved s.heap h' l l' (blockNode s.heap p) b) : Preserves s h' p size (b.addr + 4) := by
  obtain ⟨-, hblock⟩ := hi.nodes p hp
  obtain ⟨-, -, hge, -⟩ := allocNeed_eq hsize
  have hb : blockNode h' (b.addr + 4) = b := blockNode_of_header hm.node hm.header
  have hp4 : p = (blockNode s.heap p).addr + 4 := hblock
  refine ⟨fun i hlt => ?_, fun r hr hne => ⟨?_, fun x hx => ?_⟩, by rw [hb]; omega, l', hi.moved hp hm⟩
  · have hdata := hm.data i (by omega) (by omega)
    rwa [← hp4] at hdata
  · refine hi.keep (o := [p]) (g := []) (List.perm_cons_erase hp) hi.once (fun x hx hbx _ => ?_)
      ((List.mem_erase_of_ne hne).mpr hr)
    rw [List.map_singleton, cover_cons, cover_nil, Nat.add_zero, Seg.count_eq_zero] at hbx
    exact hm.frame x hx hbx
  · exact hm.frame x (hi.cover_block hr hx) (hi.blocks_apart hp hr hne hx)

end Contents

/-- Reallocation of a block in use to a size that is not 0. NULL: nothing changes. Otherwise the block keeps
its contents up to the smaller size, it is the only block that moves or gets another size, and every byte of
the other blocks is as it was. -/
theorem realloc_preserves {s : HeapRun} {l : List Seg} {p size : Nat} (hi : Tiled s l) (hp : p ∈ s.live)
    (hpos : 0 < size) (hsize : size + 16 < addrMod) :
    (nutHeapRootRealloc s.heap p size).Ends fun (q, h') =>
      (q = 0 → h' = s.heap) ∧ (q ≠ 0 → Preserves s h' p size q) := by
  refine (hi.realloc_spec hp (by omega) (Nat.ne_of_gt hpos)).mono ?_
  rintro ⟨q, h'⟩ hres
  rcases hres with ⟨rfl, rfl⟩ | ⟨l', b, rfl, hneed, hm⟩
  · exact ⟨fun _ => rfl, fun h0 => absurd rfl h0⟩
  · exact ⟨fun h0 => absurd h0 (Nat.succ_ne_zero _), fun _ => hi.preserves hp (by omega) hneed hm⟩

/-- The first of two blocks grows from 10 bytes to 20, and has to move. -/
theorem realloc_preserves_move : ∃ s : HeapRun, s.live = [84, 68] ∧
    (nutHeapRootRealloc s.heap 68 20).Ends fun (q, h') =>
      (q = 0 → h' = s.heap) ∧ (q ≠ 0 → Preserves s h' 68 20 q) := by
  have h0 : Reachable HeapStep HeapRun.Empty freshHeap := .init ⟨rfl, rfl, rfl⟩
  have h1 := h0.step (@HeapStep.add _ ⟨64, 64⟩ _ ⟨⟨rfl, rfl, by decide, by decide, by decide⟩,
    by simp [freshHeap]⟩ (Comp.returns_of_run 3 rfl))
  have h2 := h1.step (@HeapStep.alloc _ 10 68 _ (show 10 + 16 < addrMod by decide)
    (Comp.returns_of_run 3 rfl))
  have h3 := h2.step (@HeapStep.alloc _ 4 84 _ (show 4 + 16 < addrMod by decide)
    (Comp.returns_of_run 3 rfl))
  obtain ⟨l, hi⟩ := tiled_of_reachable h3
  exact ⟨_, by decide, realloc_preserves hi (show 68 ∈ [84, 68] by decide) (by decide) (by decide)⟩

/-! ## Sizes -/

/-- There is a block at `p` with room for `size` bytes. -/
def RoomFor (h : Heap) (p size : Nat) : Prop := IsNode (blockNode h p) ∧ size + 4 ≤ (blockNode h p).size

/-- An allocation keeps the list well-formed, and a block that it returns is large enough and was free. -/
def AllocOk (h : Heap) (l : List Seg) (size : Nat) : Prop :=
  (nutHeapRootAlloc h size).Ends fun (p, h') => (∃ l', FreeList h' l') ∧
    (p ≠ 0 → RoomFor h' p size ∧ ∀ x, (blockNode h' p).Has x → 0 < cover l x)

/-- A reallocation keeps the list well-formed, and the block that it returns is large enough. -/
def ReallocOk (h : Heap) (block size : Nat) : Prop :=
  (nutHeapRootRealloc h block size).Ends fun (p, h') => (∃ l', FreeList h' l') ∧ (p ≠ 0 → RoomFor h' p size)

section Sizes

variable {h h' : Heap} {l : List Seg} {b : Seg} {p size : Nat}

/-- No block is as large as the address space. -/
theorem RoomFor.lt (hr : RoomFor h p size) : size + 11 < addrMod := by
  obtain ⟨hnode, hsize⟩ := hr
  have h1 := hnode.addr_mod
  have h2 := hnode.size_mod
  have h3 := hnode.addr_ne
  have h4 : (blockNode h p).addr + (blockNode h p).size < addrMod := hnode.fin_lt
  unfold addrMod at *
  omega

theorem roomFor_of_header (hb : IsNode b) (hsize : h.hnSize b.addr = b.size) (hlt : size + 7 < addrMod)
    (hneed : allocNeed size ≤ b.size) : RoomFor h (b.addr + 4) size := by
  obtain ⟨-, -, hge, -⟩ := allocNeed_eq hlt
  rw [RoomFor, blockNode_of_header hb hsize]
  exact ⟨hb, by omega⟩

/-- The need of a request that wraps. -/
theorem allocNeed_wrap (hsize : size < addrMod) (hwrap : addrMod ≤ size + 7) : allocNeed size ≤ 8 := by
  unfold allocNeed nutmemTopAlign nutmemBottomAlign sizeofHeapnode nutHeapOverhead
  unfold addrMod at *
  dsimp only
  split <;> omega

/-- A small request succeeds if there is a free node. -/
theorem FreeList.alloc_ne_zero (h₁ : FreeList h l) (hl : l ≠ []) (hneed : allocNeed size ≤ 8) :
    (nutHeapRootAlloc h size).Ends fun (p, _) => p ≠ 0 := by
  refine (nutHeapRootAlloc_ends h₁ size).mono ?_
  rintro ⟨p, h'⟩ hres
  rcases hres with ⟨-, -, hsmall⟩ | ⟨m₁, a, m₂, q, -, -, -, rfl, -⟩
  · obtain ⟨a, ha⟩ := List.exists_mem_of_ne_nil l hl
    have h1 := hsmall a ha
    have h2 := (h₁.nodes a ha).size_ge
    omega
  · exact Nat.succ_ne_zero _

theorem FreeList.allocOk_iff (h₁ : FreeList h l) (hsize : size < addrMod) :
    AllocOk h l size ↔ size + 7 < addrMod ∨ l = [] := by
  constructor
  · rintro ⟨⟨p, h'⟩, hret, -, hroom⟩
    by_contra hno
    obtain ⟨hwrap, hl⟩ := not_or.mp hno
    have hp := (h₁.alloc_ne_zero hl (allocNeed_wrap hsize (Nat.not_lt.mp hwrap))).of_returns hret
    have := (hroom hp).1.lt
    omega
  · rintro (hlt | rfl)
    · refine (nutHeapRootAlloc_spec h₁ hlt).mono ?_
      rintro ⟨p, h'⟩ hres
      rcases hres with ⟨rfl, rfl, -⟩ | ⟨l', b, rfl, hneed, ht⟩
      · exact ⟨⟨l, h₁⟩, fun h0 => absurd rfl h0⟩
      · refine ⟨⟨l', ht.free⟩, fun _ => ⟨roomFor_of_header ht.node ht.header hlt hneed, fun x hx => ?_⟩⟩
        rw [blockNode_of_header ht.node ht.header] at hx
        have htile := ht.tiles x
        rw [Seg.count_eq_one.mpr hx] at htile
        omega
    · refine (nutHeapRootAlloc_ends h₁ size).mono ?_
      rintro ⟨p, h'⟩ hres
      rcases hres with ⟨rfl, rfl, -⟩ | ⟨m₁, a, m₂, q, hl, -⟩
      · exact ⟨⟨[], h₁⟩, fun h0 => absurd rfl h0⟩
      · simp at hl

/-- A reallocation that moves returns what `NutHeapRootAlloc` returned. -/
theorem reallocMove_returns {block fnode need : Nat}
    (hret : (reallocMove h block fnode need).Returns (p, h')) :
    ∃ h₂, (nutHeapRootAlloc h need).Returns (p, h₂) := by
  unfold reallocMove at hret
  obtain ⟨⟨newmem, h₂⟩, halloc, hret⟩ := Comp.returns_bind.mp hret
  dsimp only at hret
  split at hret
  · next hnull =>
    obtain ⟨rfl, -⟩ := Prod.mk.inj (Comp.returns_pure.mp hret)
    exact ⟨h₂, hnull ▸ halloc⟩
  · obtain ⟨⟨rc, h₃⟩, -, hret⟩ := Comp.returns_bind.mp hret
    obtain ⟨rfl, -⟩ := Prod.mk.inj (Comp.returns_pure.mp hret)
    exact ⟨h₂, halloc⟩

theorem reallocReduce_returns {block fnode need : Nat}
    (hret : (reallocReduce h block fnode need).Returns (p, h')) : p = block := by
  unfold reallocReduce at hret
  split at hret
  · obtain ⟨⟨rc, h₂⟩, -, hret⟩ := Comp.returns_bind.mp hret
    exact (Prod.mk.inj (Comp.returns_pure.mp hret)).1.symm
  · exact (Prod.mk.inj (Comp.returns_pure.mp hret)).1.symm

/-- A request just below the sizes that wrap asks for nearly the whole memory, which is never behind the
block, and so the block moves. -/
theorem realloc_large (h₁ : FreeList h l) (hb : IsNode b) (hsize : h.hnSize b.addr = b.size) (hpos : size ≠ 0)
    (hlt : size + 7 < addrMod) (hwrap : addrMod ≤ size + 11) {r : Nat × Heap} :
    (nutHeapRootRealloc h (b.addr + 4) size).Returns r ↔
      (reallocMove h (b.addr + 4) b.addr (addrMod - 4)).Returns r := by
  have hfin : b.addr + b.size < addrMod := hb.fin_lt
  have hb4 : 4 ≤ b.addr := by
    have h1 := hb.addr_ne
    have h2 := hb.addr_mod
    omega
  have hneed : allocNeed size = addrMod - 4 := by
    obtain ⟨h1, h2, h3, h4⟩ := allocNeed_eq hlt
    unfold addrMod at *
    omega
  obtain ⟨⟨node, npp⟩, hwalk, l₁, l₂, rfl, hc, hnode⟩ := reallocWalk_ends h₁ b.addr
  have hno : ¬ (node ≠ 0 ∧ addrMod - 4 - b.size ≤ h.hnSize node ∧ (b.addr + b.size) % addrMod = node) := by
    rintro ⟨hne, hmiss, htouch⟩
    cases l₂ with
    | nil => exact hne (hnode.trans hc.chain)
    | cons a l₂ =>
      obtain rfl : node = a.addr := hnode.trans hc.chain.1
      have hafin : a.addr + a.size < addrMod := (h₁.nodes a (by simp)).fin_lt
      rw [hc.chain.2.2.1] at hmiss
      rw [Nat.mod_eq_of_lt hfin] at htouch
      omega
  unfold nutHeapRootRealloc
  rw [if_neg (Nat.succ_ne_zero _), if_neg hpos]
  dsimp only
  rw [nodeOfBlock_eq hb, hsize, hneed, if_pos (by omega)]
  unfold reallocExpand
  rw [hsize, Comp.returns_bind]
  constructor
  · rintro ⟨w, hw, hret⟩
    obtain rfl := hwalk.unique hw
    dsimp only at hret
    rwa [if_neg hno] at hret
  · intro hret
    refine ⟨(node, npp), hwalk, ?_⟩
    dsimp only
    rwa [if_neg hno]

theorem FreeList.reallocOk_iff (h₁ : FreeList h l) (hb : IsNode b) (hsize : h.hnSize b.addr = b.size)
    (hdisj : ∀ x, b.Has x → cover l x = 0) (hpos : size ≠ 0) (hlt : size < addrMod) :
    ReallocOk h (b.addr + 4) size ↔ size + 11 < addrMod ∨ size + 7 < addrMod ∧ l = [] := by
  have hlarge : allocNeed (addrMod - 4) ≤ 8 := allocNeed_wrap (by decide) (by decide)
  constructor
  · rintro ⟨⟨p, h'⟩, hret, -, hroom⟩
    by_contra hno
    obtain ⟨hwrap, hnull⟩ := not_or.mp hno
    obtain rfl : p = 0 := by
      by_contra hp
      exact hwrap (hroom hp).lt
    by_cases hneed : size + 7 < addrMod
    · rw [realloc_large h₁ hb hsize hpos hneed (by omega)] at hret
      obtain ⟨h₂, halloc⟩ := reallocMove_returns hret
      exact (h₁.alloc_ne_zero (fun hl => hnull ⟨hneed, hl⟩) hlarge).of_returns halloc rfl
    · have h8 := allocNeed_wrap hlt (Nat.not_lt.mp hneed)
      have hb8 := hb.size_ge
      unfold nutHeapRootRealloc at hret
      rw [if_neg (Nat.succ_ne_zero _), if_neg hpos] at hret
      dsimp only at hret
      rw [nodeOfBlock_eq hb, hsize, if_neg (by omega)] at hret
      cases reallocReduce_returns hret
  · intro hcond
    by_cases hok : size + 11 < addrMod
    · refine (nutHeapRootRealloc_spec h₁ hb hsize hdisj hok hpos).mono ?_
      rintro ⟨p, h'⟩ hres
      rcases hres with ⟨rfl, rfl⟩ | ⟨l', b', rfl, hneed, hm⟩
      · exact ⟨⟨l, h₁⟩, fun h0 => absurd rfl h0⟩
      · exact ⟨⟨l', hm.free⟩, fun _ => roomFor_of_header hm.node hm.header (by omega) hneed⟩
    · obtain ⟨hneed, rfl⟩ := hcond.resolve_left hok
      have hmove : (reallocMove h (b.addr + 4) b.addr (addrMod - 4)).Ends fun r => r = (0, h) := by
        refine Comp.ends_bind.mpr ((nutHeapRootAlloc_ends h₁ (addrMod - 4)).mono ?_)
        rintro ⟨p, h'⟩ hres
        rcases hres with ⟨rfl, rfl, -⟩ | ⟨m₁, a, m₂, q, hl, -⟩
        · exact Comp.ends_pure.mpr rfl
        · simp at hl
      obtain ⟨r, hret, rfl⟩ := hmove
      exact ⟨(0, h), (realloc_large h₁ hb hsize hpos hneed (by omega)).mpr hret, ⟨[], h₁⟩,
        fun h0 => absurd rfl h0⟩

end Sizes

/-- Blocks are at least as large as asked for exactly as far as the size does not wrap: with the header and
the rounding in an allocation, and with the second header in a reallocation that moves. Beyond that nothing
goes wrong only if there is no free node. -/
theorem alloc_sizes_iff {h : Heap} {l : List Seg} {size : Nat} (h₁ : FreeList h l) (hsize : size < addrMod) :
    (AllocOk h l size ↔ size + 7 < addrMod ∨ l = []) ∧
    ∀ b : Seg, IsNode b → h.hnSize b.addr = b.size → (∀ x, b.Has x → cover l x = 0) → size ≠ 0 →
      (ReallocOk h (b.addr + 4) size ↔ size + 11 < addrMod ∨ size + 7 < addrMod ∧ l = []) :=
  ⟨h₁.allocOk_iff hsize, fun _ hb hheader hdisj hpos => h₁.reallocOk_iff hb hheader hdisj hpos hsize⟩

/-- A free node of 64 bytes with a block of 16 bytes behind it. -/
def busyHeap : Heap := oneNodeHeap.setHnSize 128 16

theorem busyHeap_freeList : FreeList busyHeap [⟨64, 64⟩] :=
  oneNodeHeap_freeList.frame rfl fun x hx => by
    obtain ⟨s, hs, -, hhi⟩ := cover_pos.mp hx
    obtain rfl := List.mem_singleton.mp hs
    exact Heap.mem_setHnSize (.inl hhi)

/-- A block of 10 bytes, and a block that grows to 20. -/
theorem alloc_sizes_iff_small : AllocOk busyHeap [⟨64, 64⟩] 10 ∧ ReallocOk busyHeap 132 20 := by
  have halloc := alloc_sizes_iff busyHeap_freeList (show 10 < addrMod by decide)
  have hrealloc := alloc_sizes_iff busyHeap_freeList (show 20 < addrMod by decide)
  refine ⟨halloc.1.mpr (.inl (by decide)), (hrealloc.2 ⟨128, 16⟩ ?_ rfl (fun x hx => ?_) (by decide)).mpr
    (.inl (by decide))⟩
  · exact ⟨rfl, rfl, by decide, by decide, by decide⟩
  · refine cover_eq_zero.mpr fun s hs hx' => ?_
    obtain rfl := List.mem_singleton.mp hs
    exact Nat.not_lt.mpr hx.1 hx'.2

/-- A request of 4294967292 bytes gets a block of 8. -/
theorem alloc_size_wraps : FreeList oneNodeHeap [⟨64, 64⟩] ∧
    (nutHeapRootAlloc oneNodeHeap 4294967292).Ends (fun (p, h') => p = 68 ∧ h'.hnSize 64 = 8) ∧
    ¬ AllocOk oneNodeHeap [⟨64, 64⟩] 4294967292 := by
  have hends : (nutHeapRootAlloc oneNodeHeap 4294967292).Ends fun (p, h') => p = 68 ∧ h'.hnSize 64 = 8 :=
    ⟨_, Comp.returns_of_run 3 rfl, rfl, rfl⟩
  refine ⟨oneNodeHeap_freeList, hends, ?_⟩
  rintro ⟨⟨p, h'⟩, hret, -, hroom⟩
  obtain ⟨rfl, -⟩ := hends.of_returns hret
  exact absurd (hroom (by decide)).1.lt (by decide)

end V85x
