import V85xAmp.Utils.NutHeapAlloc
import V85xAmp.Utils.NutHeapFree

/-!
# Reallocation

`Moved`: a block `b` becomes the block `b'`, with as much of its contents as both can hold.
`reallocGrow_split` and `reallocGrow_whole` (in place, into the node behind the block), `reallocMove_spec`
(a new block) and `reallocReduce_spec` (the tail is released) are the ways to get there,
`nutHeapRootRealloc_spec` is all of them.
-/

namespace V85x

open Firmware

/-- The block `b` and the free list `l` become `b'` and `l'`. -/
structure Moved (h h' : Heap) (l l' : List Seg) (b b' : Seg) : Prop where
  node : IsNode b'
  header : h'.hnSize b'.addr = b'.size
  free : FreeList h' l'
  tiles : ∀ x, b.count x + cover l x = b'.count x + cover l' x
  frame : ∀ x, cover l x = 0 → ¬ b.Has x → h'.mem x = h.mem x
  data : ∀ i, i + 4 < b.size → i + 4 < b'.size → h'.mem (b'.addr + 4 + i) = h.mem (b.addr + 4 + i)

section Realloc

variable {h h' : Heap} {q : Npp} {need size : Nat} {l l₁ l₂ : List Seg} {a b : Seg}

/-- The search stops at some cursor. -/
theorem reallocWalk_ends (h₁ : FreeList h l) (fnode : Nat) :
    (Comp.loop (reallocStep h fnode) (h.root, .root)).Ends fun (node, npp) =>
      ∃ l₁ l₂, l₁ ++ l₂ = l ∧ Cursor h l₁ l₂ npp ∧ node = h.load npp := by
  refine Comp.loop_ends
    (fun (g : List Seg × List Seg) (w : Nat × Npp) => g.1 ++ g.2 = l ∧ Cursor h g.1 g.2 w.2 ∧
      w.1 = h.load w.2)
    (fun g => g.2.length) ?_ ([], l) (h.root, .root) ⟨rfl, h₁.cursor, rfl⟩
  rintro ⟨l₁, l₂⟩ ⟨node, npp⟩ ⟨rfl, hc, hnode⟩
  dsimp only at hc hnode
  unfold reallocStep
  dsimp only
  split
  · next hgo =>
    cases l₂ with
    | nil => exact absurd (hnode.trans hc.chain) hgo.1
    | cons a l₂ =>
      obtain rfl : node = a.addr := hnode.trans hc.chain.1
      exact Comp.ends_pure.mpr ⟨(l₁ ++ [a], l₂), Nat.lt_succ_self _, by simp, hc.next, rfl⟩
  · exact Comp.ends_pure.mpr ⟨l₁, l₂, rfl, hc, hnode⟩

/-- Growth in place: the block takes the first `miss` bytes of the node behind it. -/
theorem reallocGrow_split {miss : Nat} (h₁ : FreeList h (l₁ ++ a :: l₂)) (hc : Cursor h l₁ (a :: l₂) q)
    (hb : IsNode b) (hsize : h.hnSize b.addr = b.size)
    (hdisj : ∀ x, b.Has x → cover (l₁ ++ a :: l₂) x = 0) (htouch : b.fin = a.addr) (hmod : miss % 4 = 0)
    (hle : miss + 8 ≤ a.size) :
    Moved h (reallocGrow h miss a.addr q b.addr) (l₁ ++ a :: l₂)
      (l₁ ++ ⟨a.addr + miss, a.size - miss⟩ :: l₂) b ⟨b.addr, b.size + miss⟩ := by
  have ha := h₁.nodes a (by simp)
  have hfin : a.addr + a.size < addrMod := ha.fin_lt
  have hjoin : b.addr + b.size = a.addr := htouch
  have hb8 := hb.size_ge
  have hqa : ∀ x, a.Has x → ¬ q.Word x := fun x hx hq =>
    cover_eq_zero.mp (h₁.cover_word hc hq).2 a List.mem_cons_self hx
  have hqb : ∀ x, b.Has x → ¬ q.Word x := fun x hx => h₁.not_word hc (hdisj x hx)
  have hnode : (a.addr + miss) % addrMod = a.addr + miss := Nat.mod_eq_of_lt (by omega)
  -- the four stores
  obtain ⟨h2, hh2⟩ : ∃ h2, h2 = h.setHnSize b.addr (b.size + miss) := ⟨_, rfl⟩
  obtain ⟨h3, hh3⟩ : ∃ h3, h3 = h2.store q (a.addr + miss) := ⟨_, rfl⟩
  obtain ⟨h4, hh4⟩ : ∃ h4, h4 = h3.setHnNext (a.addr + miss) (h.hnNext a.addr) := ⟨_, rfl⟩
  obtain ⟨h5, hh5⟩ : ∃ h5, h5 = h4.setHnSize (a.addr + miss) (a.size - miss) := ⟨_, rfl⟩
  have hmem3 : ∀ x, a.addr ≤ x → x < a.addr + 8 → h3.mem x = h.mem x := fun x hlo hhi => by
    rw [hh3, Heap.mem_store (hqa x (ha.has hlo hhi)), hh2, Heap.mem_setHnSize (by omega)]
  have hload3 : h3.load q = a.addr + miss := hh3 ▸ Heap.load_store_self (by omega)
  have hnext3 : h3.hnNext a.addr = h.hnNext a.addr :=
    Heap.hnNext_congr fun x hlo hhi => hmem3 x (by omega) hhi
  have hout : ∀ x, q.Word x → x < a.addr + miss ∨ a.addr + miss + 8 ≤ x := fun x hq => by
    have hx : ¬ a.Has x := fun hax => hqa x hax hq
    unfold Seg.Has Seg.fin at hx
    omega
  have hload4 : h4.load q = a.addr + miss := by
    rw [← hload3, hh4]
    exact Heap.load_congr rfl fun x hq => Heap.mem_setHnNext (by have := hout x hq; omega)
  have hload5 : h5.load q = a.addr + miss := by
    rw [← hload4, hh5]
    exact Heap.load_congr rfl fun x hq => Heap.mem_setHnSize (by have := hout x hq; omega)
  have hsize4 : h4.hnSize a.addr = a.size := by
    rw [hh4, Heap.hnSize_setHnNext (by omega), Heap.hnSize_congr fun x hlo hhi => hmem3 x hlo (by omega)]
    exact hc.chain.2.2.1
  have hgrow : reallocGrow h miss a.addr q b.addr = h5 := by
    unfold reallocGrow nutmemHeapnodeMin sizeofHeapnode
    rw [hc.chain.2.2.1, if_pos (by omega), hnode, hsize]
    dsimp only
    rw [← hh2, ← hh3, hload3, hnext3, ← hh4, hload4, hsize4, ← hh5]
  have hmem : ∀ x, ¬ q.Word x → x < b.addr ∨ b.addr + 4 ≤ x → x < a.addr + miss ∨ a.addr + miss + 8 ≤ x →
      h5.mem x = h.mem x := fun x hq hxb hxa => by
    rw [hh5, Heap.mem_setHnSize (by omega), hh4, Heap.mem_setHnNext (by omega), hh3, Heap.mem_store hq, hh2,
      Heap.mem_setHnSize hxb]
  have hoff : ∀ x, ¬ q.Word x → ¬ a.Has x → ¬ b.Has x → h5.mem x = h.mem x := fun x hq hax hbx => by
    have := hb.out hbx
    unfold Seg.Has Seg.fin at hax
    exact hmem x hq (by omega) (by omega)
  rw [hgrow]
  refine ⟨⟨hb.addr_mod, ?_, ?_, hb.addr_ne, ?_⟩, ?_, ?_, fun x => ?_, fun x hx hbx => ?_, fun i hi _ => ?_⟩
  · have := hb.size_mod
    show (b.size + miss) % 4 = 0
    omega
  · show 8 ≤ b.size + miss
    omega
  · show b.addr + (b.size + miss) < addrMod
    omega
  · have hword : ∀ x, b.addr ≤ x → x < b.addr + 4 → ¬ q.Word x := fun x hlo hhi =>
      hqb x (hb.has hlo (by omega))
    rw [hh5, Heap.hnSize_setHnSize (by dsimp only; omega), hh4, Heap.hnSize_setHnNext (by dsimp only; omega),
      hh3, Heap.hnSize_congr fun x hlo hhi => Heap.mem_store (hword x hlo hhi), hh2,
      Heap.hnSize_setHnSize_self (by omega)]
  · refine h₁.takePart hc hmod hle (fun hq => ?_) (fun x hx hq => hoff x hq (fun hax => ?_) fun hbx => ?_)
      hload5 ?_ ?_
    · rw [hh5, hh4, Heap.root_setHnSize, Heap.root_setHnNext, hh3, Heap.root_store hq, hh2,
        Heap.root_setHnSize]
    · have hone := h₁.cover_le_one x
      rw [cover_append, cover_cons, Seg.count_eq_one.mpr hax] at hone
      omega
    · have hzero := hdisj x hbx
      rw [cover_append, cover_cons] at hzero
      omega
    · rw [hh5, Heap.hnSize_setHnSize_self (by omega)]
    · rw [hh5, Heap.hnNext_setHnSize (by omega), hh4, Heap.hnNext_setHnNext_self (Heap.hnNext_lt _ _)]
  · have hsplit := Seg.count_split (s := a) (n := miss) (by omega) x
    have hgrown := Seg.count_join (a := b.addr) (n := b.size) (m := miss) x
    rw [hjoin] at hgrown
    have hwhole : (⟨b.addr, b.size⟩ : Seg) = b := rfl
    rw [hwhole] at hgrown
    simp only [cover_append, cover_cons]
    omega
  · refine hoff x (h₁.not_word hc hx) (fun hax => ?_) hbx
    rw [cover_append, cover_cons, Seg.count_eq_one.mpr hax] at hx
    omega
  · have hbx : b.Has (b.addr + 4 + i) := ⟨by omega, by unfold Seg.fin; omega⟩
    exact hmem (b.addr + 4 + i) (hqb _ hbx) (by omega) (by omega)

/-- Growth in place: the block takes the whole node behind it. -/
theorem reallocGrow_whole {miss : Nat} (h₁ : FreeList h (l₁ ++ a :: l₂)) (hc : Cursor h l₁ (a :: l₂) q)
    (hb : IsNode b) (hsize : h.hnSize b.addr = b.size)
    (hdisj : ∀ x, b.Has x → cover (l₁ ++ a :: l₂) x = 0) (htouch : b.fin = a.addr)
    (hlt : a.size < miss + 8) (hle : miss ≤ a.size) :
    Moved h (reallocGrow h miss a.addr q b.addr) (l₁ ++ a :: l₂) (l₁ ++ l₂) b
      ⟨b.addr, b.size + a.size⟩ := by
  have ha := h₁.nodes a (by simp)
  have hfin : a.addr + a.size < addrMod := ha.fin_lt
  have hjoin : b.addr + b.size = a.addr := htouch
  have hb8 := hb.size_ge
  have hqb : ∀ x, b.Has x → ¬ q.Word x := fun x hx => h₁.not_word hc (hdisj x hx)
  obtain ⟨h2, hh2⟩ : ∃ h2, h2 = h.setHnSize b.addr (b.size + a.size) := ⟨_, rfl⟩
  have hgrow : reallocGrow h miss a.addr q b.addr = h2.store q (h.hnNext a.addr) := by
    unfold reallocGrow nutmemHeapnodeMin sizeofHeapnode
    rw [hc.chain.2.2.1, if_neg (by omega), hsize]
    dsimp only
    rw [hh2, Heap.hnNext_setHnSize (by omega)]
  have hmem : ∀ x, ¬ q.Word x → x < b.addr ∨ b.addr + 4 ≤ x →
      (h2.store q (h.hnNext a.addr)).mem x = h.mem x := fun x hq hxb => by
    rw [Heap.mem_store hq, hh2, Heap.mem_setHnSize hxb]
  rw [hgrow]
  refine ⟨IsNode.join _ _ _ hb (hjoin ▸ ha), ?_, ?_, fun x => ?_, fun x hx hbx => ?_, fun i hi _ => ?_⟩
  · rw [Heap.hnSize_congr fun x hlo hhi => Heap.mem_store (hqb x (hb.has hlo (by omega))),
      hh2, Heap.hnSize_setHnSize_self (by omega)]
  · refine h₁.takeAll hc (fun hq => ?_) (fun x hx hq => hmem x hq ?_)
      (Heap.load_store_self (Heap.hnNext_lt _ _))
    · rw [Heap.root_store hq, hh2, Heap.root_setHnSize]
    · have hbx : ¬ b.Has x := fun hbx => by
        have hzero := hdisj x hbx
        rw [cover_append, cover_cons] at hzero
        omega
      have := hb.out hbx
      omega
  · have hgrown := Seg.count_join (a := b.addr) (n := b.size) (m := a.size) x
    rw [hjoin] at hgrown
    have hwhole : (⟨b.addr, b.size⟩ : Seg) = b := rfl
    have hwhole' : (⟨a.addr, a.size⟩ : Seg) = a := rfl
    rw [hwhole, hwhole'] at hgrown
    simp only [cover_append, cover_cons]
    omega
  · have := hb.out hbx
    exact hmem x (h₁.not_word hc hx) (by omega)
  · have hbx : b.Has (b.addr + 4 + i) := ⟨by omega, by unfold Seg.fin; omega⟩
    exact hmem (b.addr + 4 + i) (hqb _ hbx) (by omega)

/-- Relocation: a new block with the old contents, or NULL if there is no room for one. -/
theorem reallocMove_spec (h₁ : FreeList h l) (hb : IsNode b) (hsize : h.hnSize b.addr = b.size)
    (hdisj : ∀ x, b.Has x → cover l x = 0) (hneed : need + 7 < addrMod) (hlt : b.size < need) :
    (reallocMove h (b.addr + 4) b.addr need).Ends fun (p, h') =>
      (p = 0 ∧ h' = h) ∨ ∃ l' b', p = b'.addr + 4 ∧ need ≤ b'.size ∧ Moved h h' l l' b b' := by
  obtain ⟨-, -, hge, -⟩ := allocNeed_eq hneed
  have hb8 := hb.size_ge
  unfold reallocMove
  refine Comp.ends_bind.mpr ((nutHeapRootAlloc_spec h₁ hneed).mono ?_)
  rintro ⟨p, h2⟩ halloc
  rcases halloc with ⟨rfl, rfl, -⟩ | ⟨l', b', rfl, hle, ht⟩
  · simp
  dsimp only
  rw [if_neg (Nat.succ_ne_zero _)]
  -- the new block comes out of the free list, and so it is neither in the rest of it nor in the old block
  have htiles : ∀ x, b'.Has x → cover l' x = 0 ∧ ¬ b.Has x := fun x hx => by
    have htile := ht.tiles x
    have hone := h₁.cover_le_one x
    rw [Seg.count_eq_one.mpr hx] at htile
    refine ⟨by omega, fun hbx => ?_⟩
    have := hdisj x hbx
    omega
  have hdisj' : ∀ x, b.Has x → cover l' x = 0 := fun x hbx => by
    have := ht.tiles x
    have := hdisj x hbx
    omega
  have hold : ∀ x, b.Has x → h2.mem x = h.mem x := fun x hbx => ht.frame x (hdisj x hbx)
  have hsize2 : h2.hnSize b.addr = b.size := by
    rw [← hsize]
    exact Heap.hnSize_congr fun x hlo hhi => hold x (hb.has hlo (by omega))
  have hcount : h2.hnSize b.addr - nutHeapOverhead = b.size - 4 := by rw [hsize2]; rfl
  rw [hcount]
  obtain ⟨h3, hh3⟩ : ∃ h3 : Heap, h3 = { h2 with
    mem := copyBytes h2.mem (b'.addr + 4) (b.addr + 4) (b.size - 4) } := ⟨_, rfl⟩
  have hcopy : ∀ x, ¬ b'.Has x ∨ x < b'.addr + 4 → h3.mem x = h2.mem x := fun x hx => by
    rw [hh3]
    apply copyBytes_apply_of_disjoint
    unfold Seg.Has Seg.fin at hx
    omega
  have hfree3 : FreeList h3 l' := ht.free.frame (by rw [hh3]) fun x hx => hcopy x (.inl fun hbx => by
    have := (htiles x hbx).1
    omega)
  have hsize3 : h3.hnSize b.addr = b.size := by
    rw [← hsize2]
    exact Heap.hnSize_congr fun x hlo hhi => hcopy x (.inl fun hx =>
      (htiles x hx).2 (hb.has hlo (by omega)))
  rw [← hh3]
  refine Comp.ends_bind.mpr ((nutHeapRootFree_spec hfree3 hb hsize3 hdisj').mono ?_)
  rintro ⟨rc, h4⟩ ⟨-, hf⟩
  have hnew : ∀ x, b'.Has x → h4.mem x = h3.mem x := fun x hx =>
    hf.frame x (htiles x hx).1 (htiles x hx).2
  refine Comp.ends_pure.mpr (.inr ⟨insertSeg b l', b', rfl, by omega, ht.node, ?_,
    hf.freeList hfree3 hb hdisj', fun x => ?_, fun x hx hbx => ?_, fun i hi hi' => ?_⟩)
  · rw [← ht.header]
    refine Heap.hnSize_congr fun x hlo hhi => ?_
    rw [hnew x (ht.node.has hlo (by omega)), hcopy x (.inr hhi)]
  · have := ht.tiles x
    rw [cover_insertSeg]
    omega
  · have := ht.tiles x
    rw [hf.frame x (by omega) hbx, hcopy x (.inl (Seg.count_eq_zero.mp (by omega))), ht.frame x hx]
  · have hbx : b.Has (b.addr + 4 + i) := ⟨by omega, by unfold Seg.fin; omega⟩
    rw [hnew _ ⟨by omega, by unfold Seg.fin; omega⟩, ← hold _ hbx, hh3]
    unfold copyBytes
    dsimp only
    rw [if_pos (by omega), Nat.add_sub_cancel_left]

/-- Reduction: what is behind the first `need` bytes becomes free if it is large enough. -/
theorem reallocReduce_spec (h₁ : FreeList h l) (hb : IsNode b) (hsize : h.hnSize b.addr = b.size)
    (hdisj : ∀ x, b.Has x → cover l x = 0) (hmod : need % 4 = 0) (hge : 8 ≤ need) (hle : need ≤ b.size) :
    (reallocReduce h (b.addr + 4) b.addr need).Ends fun (p, h') =>
      ∃ l' b', p = b'.addr + 4 ∧ need ≤ b'.size ∧ Moved h h' l l' b b' := by
  have hfin : b.addr + b.size < addrMod := hb.fin_lt
  have hb8 := hb.size_ge
  have hmin : (b.size + (addrMod - nutmemHeapnodeMin)) % addrMod = b.size - 8 := by
    unfold nutmemHeapnodeMin sizeofHeapnode
    unfold addrMod at *
    omega
  unfold reallocReduce
  rw [hsize, hmin]
  split
  · next hlt =>
    -- the tail is a node of its own
    obtain ⟨t, ht⟩ : ∃ t : Seg, t = ⟨b.addr + need, b.size - need⟩ := ⟨_, rfl⟩
    have htaddr : t.addr = b.addr + need := by rw [ht]
    have htsize : t.size = b.size - need := by rw [ht]
    have htfin : t.fin = b.addr + b.size := by
      unfold Seg.fin
      omega
    have htb : ∀ x, t.Has x → b.Has x ∧ b.addr + need ≤ x := fun x hx => by
      unfold Seg.Has at *
      unfold Seg.fin at *
      omega
    have htn : IsNode t := by
      have h1 := hb.addr_mod
      have h2 := hb.size_mod
      have h3 := hb.addr_ne
      exact ⟨by omega, by omega, by omega, by omega, by omega⟩
    have hnode : (b.addr + need) % addrMod = t.addr := by
      rw [htaddr]
      exact Nat.mod_eq_of_lt (by omega)
    rw [hnode, ← htsize]
    dsimp only
    rw [prepareUserArea_eq htn]
    refine Comp.ends_bind.mpr ((nutHeapRootFree_new h₁ htn fun x hx => hdisj x (htb x hx).1).mono ?_)
    rintro ⟨rc, h2⟩ ⟨-, hf⟩
    have hfree2 := hf.freeList h₁ htn fun x hx => hdisj x (htb x hx).1
    have hkept : ∀ x, b.Has x → x < b.addr + need → h2.mem x = h.mem x := fun x hbx hx =>
      hf.frame x (hdisj x hbx) fun htx => by
        have := (htb x htx).2
        omega
    refine Comp.ends_pure.mpr ⟨insertSeg t l, ⟨b.addr, need⟩, rfl, Nat.le_refl _,
      ⟨hb.addr_mod, hmod, hge, hb.addr_ne, ?_⟩, Heap.hnSize_setHnSize_self (by omega), ?_, fun x => ?_,
      fun x hx hbx => ?_, fun i hi hi' => ?_⟩
    · show b.addr + need < addrMod
      omega
    · refine hfree2.frame rfl fun x hx => Heap.mem_setHnSize ?_
      rw [cover_insertSeg] at hx
      by_contra hin
      have hbx : b.Has x := hb.has (by omega) (by omega)
      have htx : ¬ t.Has x := fun htx => by
        have := (htb x htx).2
        omega
      rw [Seg.count_eq_zero.mpr htx, hdisj x hbx] at hx
      exact Nat.lt_irrefl _ hx
    · have hsplit := Seg.count_split (s := b) (n := need) hle x
      rw [cover_insertSeg, hsplit, ht]
      omega
    · have := hb.out hbx
      rw [Heap.mem_setHnSize (by omega)]
      exact hf.frame x hx fun htx => hbx (htb x htx).1
    · dsimp only at hi'
      show (h2.setHnSize b.addr need).mem (b.addr + 4 + i) = _
      rw [Heap.mem_setHnSize (by omega)]
      exact hkept _ ⟨by omega, by unfold Seg.fin; omega⟩ (by omega)
  · exact Comp.ends_pure.mpr ⟨l, b, rfl, hle, hb, hsize, h₁, fun _ => rfl, fun _ _ _ => rfl, fun _ _ _ => rfl⟩

/-- Reallocation of a block to a size that is not 0: the block, perhaps moved, or NULL. -/
theorem nutHeapRootRealloc_spec (h₁ : FreeList h l) (hb : IsNode b) (hsize : h.hnSize b.addr = b.size)
    (hdisj : ∀ x, b.Has x → cover l x = 0) (hlt : size + 11 < addrMod) (hpos : size ≠ 0) :
    (nutHeapRootRealloc h (b.addr + 4) size).Ends fun (p, h') =>
      (p = 0 ∧ h' = h) ∨ ∃ l' b', p = b'.addr + 4 ∧ allocNeed size ≤ b'.size ∧ Moved h h' l l' b b' := by
  obtain ⟨hmod, hge, -, hle⟩ := allocNeed_eq (show size + 7 < addrMod by omega)
  unfold nutHeapRootRealloc
  rw [if_neg (by omega), if_neg hpos]
  simp only [nodeOfBlock_eq hb, hsize]
  split
  · next hgrow =>
    unfold reallocExpand
    refine Comp.ends_bind.mpr ((reallocWalk_ends h₁ b.addr).mono ?_)
    rintro ⟨node, npp⟩ ⟨l₁, l₂, rfl, hc, hnode⟩
    dsimp only at hnode ⊢
    have hbfin : (b.addr + b.size) % addrMod = b.fin := Nat.mod_eq_of_lt hb.fin_lt
    rw [hsize, hbfin]
    split
    · next hfits =>
      obtain ⟨hne, hmiss, htouch⟩ := hfits
      cases l₂ with
      | nil => exact absurd (hnode.trans hc.chain) hne
      | cons a l₂ =>
        obtain rfl : node = a.addr := hnode.trans hc.chain.1
        rw [hc.chain.2.2.1] at hmiss
        refine Comp.ends_pure.mpr (.inr ?_)
        rcases Nat.lt_or_ge a.size (allocNeed size - b.size + 8) with hwhole | hsplit
        · refine ⟨_, ⟨b.addr, b.size + a.size⟩, rfl, ?_,
            reallocGrow_whole h₁ hc hb hsize hdisj htouch hwhole hmiss⟩
          show allocNeed size ≤ b.size + a.size
          omega
        · have := hb.size_mod
          refine ⟨_, ⟨b.addr, b.size + (allocNeed size - b.size)⟩, rfl, ?_,
            reallocGrow_split h₁ hc hb hsize hdisj htouch (by omega) hsplit⟩
          show allocNeed size ≤ b.size + (allocNeed size - b.size)
          omega
    · exact reallocMove_spec h₁ hb hsize hdisj (by unfold addrMod at *; omega) hgrow
  · next hshrink =>
    exact (reallocReduce_spec h₁ hb hsize hdisj hmod hge (by omega)).mono fun _ h => .inr h

end Realloc

end V85x
