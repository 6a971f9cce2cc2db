import V85xAmp.Utils.NutHeapList

/-!
# Release to the free list

`nutHeapRootFree_spec`: a block that does not meet the free list is inserted in its place and joined with the
nodes that it touches (`insertSeg`). `freeAppend_spec`, `freeLink_spec` and `freeMerge_spec` are the three
ends of the search. `nutHeapRootAdd_spec`: a region is a block that is released.
-/

namespace V85x

open Firmware

/-- What a release of the block `b` does. -/
structure Freed (h h' : Heap) (l : List Seg) (b : Seg) : Prop where
  chain : Chain h' .root (insertSeg b l)
  frame : ∀ x, cover l x = 0 → ¬ b.Has x → h'.mem x = h.mem x

theorem IsNode.join (a n m : Nat) (h₁ : IsNode ⟨a, n⟩) (h₂ : IsNode ⟨a + n, m⟩) : IsNode ⟨a, n + m⟩ := by
  have h1 := h₁.size_mod
  have h2 := h₂.size_mod
  have h3 := h₁.size_ge
  have h4 := h₂.fin_lt
  unfold Seg.fin at h4
  refine ⟨h₁.addr_mod, ?_, ?_, h₁.addr_ne, ?_⟩
  · dsimp only at *
    omega
  · dsimp only at *
    omega
  · unfold Seg.fin
    dsimp only at *
    omega

section Free

variable {h h' : Heap} {q : Npp} {l l₁ l₂ : List Seg} {a b c : Seg}

theorem IsNode.size_pos (hb : IsNode b) : 0 < b.size := Nat.lt_of_lt_of_le (by decide) hb.size_ge

/-- A block that does not meet the list lies in front of or behind each node. -/
theorem FreeList.apart (h₁ : FreeList h l) (hb : IsNode b) (hdisj : ∀ x, b.Has x → cover l x = 0)
    (ha : a ∈ l) : b.fin ≤ a.addr ∨ a.fin ≤ b.addr :=
  Seg.apart_of_disjoint hb.size_pos (h₁.nodes a ha).size_pos fun x hx =>
    cover_eq_zero.mp (hdisj x hx) a ha

/-- A released block keeps the list well-formed. -/
theorem Freed.freeList (hf : Freed h h' l b) (h₁ : FreeList h l) (hb : IsNode b)
    (hdisj : ∀ x, b.Has x → cover l x = 0) : FreeList h' (insertSeg b l) where
  chain := hf.chain
  nodes := forall_mem_insertSeg IsNode.join hb h₁.nodes
  separated := h₁.separated.insertSeg (fun _ hs => (h₁.nodes _ hs).size_pos) hb.size_pos fun _ hs =>
    h₁.apart hb hdisj hs

/-- The link at a cursor is in no block that does not meet the list. -/
theorem FreeList.not_word (h₁ : FreeList h (l₁ ++ l₂)) (hc : Cursor h l₁ l₂ q) {x : Nat}
    (hx : cover (l₁ ++ l₂) x = 0) : ¬ q.Word x := by
  intro hq
  have hpos := (h₁.cover_word hc hq).1
  rw [cover_append] at hx
  omega

/-- A block, alone or joined with the nodes `o` behind it, becomes a node at the cursor. -/
theorem FreeList.chain_block {o : List Seg} {r : Npp} {n : Nat} (h₁ : FreeList h (l₁ ++ (o ++ l₂)))
    (hc : Cursor h l₁ (o ++ l₂) q) (h₂ : Chain h r l₂) (hb : IsNode b)
    (hdisj : ∀ x, b.Has x → cover (l₁ ++ (o ++ l₂)) x = 0) (hroot : q ≠ .root → h'.root = h.root)
    (hmem : ∀ x, ¬ q.Word x → ¬ b.Has x → h'.mem x = h.mem x) (hload : h'.load q = b.addr)
    (hsize : h'.hnSize b.addr = n) (hnext : h'.hnNext b.addr = h.load r) :
    Chain h' .root (l₁ ++ ⟨b.addr, n⟩ :: l₂) := by
  refine h₁.chain_relink hc h₂ hroot (fun x hx hq => hmem x hq fun hbx => ?_) hb.addr_ne hload hsize hnext
  have hzero := hdisj x hbx
  simp only [cover_append] at hzero
  omega

/-- The end of the list: the block becomes the last node. -/
theorem freeAppend_spec (h₁ : FreeList h (l₁ ++ [])) (hc : Cursor h l₁ [] q) (hb : IsNode b)
    (hsize : h.hnSize b.addr = b.size) (hdisj : ∀ x, b.Has x → cover (l₁ ++ []) x = 0)
    (hlt : ∀ s ∈ l₁, s.fin < b.addr) : Freed h ((h.setHnNext b.addr 0).store q b.addr) (l₁ ++ []) b := by
  have hfin : b.addr + b.size < addrMod := hb.fin_lt
  have hmem : ∀ x, ¬ q.Word x → ¬ b.Has x → ((h.setHnNext b.addr 0).store q b.addr).mem x = h.mem x := by
    intro x hq hbx
    have := hb.out hbx
    rw [Heap.mem_store hq, Heap.mem_setHnNext (by omega)]
  have hin : ∀ x, b.addr ≤ x → x < b.addr + 8 →
      ((h.setHnNext b.addr 0).store q b.addr).mem x = (h.setHnNext b.addr 0).mem x := fun x hlo hhi =>
    Heap.mem_store (h₁.not_word hc (hdisj x (hb.has hlo hhi)))
  refine ⟨?_, fun x hx hbx => hmem x (h₁.not_word hc hx) hbx⟩
  rw [insertSeg_append hlt]
  refine h₁.chain_block (o := []) (r := q) hc hc.chain hb hdisj Heap.root_store hmem
    (Heap.load_store_self (by omega)) ?_ ?_
  · rw [Heap.hnSize_congr fun x hlo hhi => hin x hlo (by omega), Heap.hnSize_setHnNext (by omega), hsize]
  · rw [Heap.hnNext_congr fun x hlo hhi => hin x (by omega) hhi, Heap.hnNext_setHnNext_self (by decide)]
    exact hc.chain.symm

/-- The block in front of the node `a`: it is linked to `a`, or joined with it. -/
theorem freeLink_spec (h₁ : FreeList h (l₁ ++ a :: l₂)) (hc : Cursor h l₁ (a :: l₂) q) (hb : IsNode b)
    (hsize : h.hnSize b.addr = b.size) (hdisj : ∀ x, b.Has x → cover (l₁ ++ a :: l₂) x = 0)
    (hlt : ∀ s ∈ l₁, s.fin < b.addr) (hba : b.addr < a.addr) :
    Freed h (freeLink h q a.addr b.addr) (l₁ ++ a :: l₂) b := by
  have ha := h₁.nodes a (by simp)
  have hfin : b.addr + b.size < addrMod := hb.fin_lt
  have hfin' : a.addr + a.size < addrMod := ha.fin_lt
  have hapart : b.addr + b.size ≤ a.addr ∨ a.addr + a.size ≤ b.addr := h₁.apart hb hdisj (by simp)
  have hb8 := hb.size_ge
  have hword : ∀ x, b.Has x → ¬ q.Word x := fun x hbx => h₁.not_word hc (hdisj x hbx)
  -- the link to the block does not touch the block and `a`
  obtain ⟨h2, hh2⟩ : ∃ h2, h2 = h.store q b.addr := ⟨_, rfl⟩
  have hmem2 : ∀ x, ¬ q.Word x → h2.mem x = h.mem x := fun x hq => hh2 ▸ Heap.mem_store hq
  have hload2 : h2.load q = b.addr := hh2 ▸ Heap.load_store_self (by omega)
  have hroot2 : q ≠ .root → h2.root = h.root := fun hq => hh2 ▸ Heap.root_store hq
  have hsize2 : h2.hnSize b.addr = b.size := by
    rw [Heap.hnSize_congr fun x hlo hhi => hmem2 x (hword x (hb.has hlo (by omega))), hsize]
  have hhead2 : ∀ x, a.addr ≤ x → x < a.addr + 8 → h2.mem x = h.mem x := fun x hlo hhi => hmem2 x fun hq =>
    cover_eq_zero.mp (h₁.cover_word hc hq).2 a List.mem_cons_self (ha.has hlo hhi)
  have hins : insertSeg b (l₁ ++ a :: l₂) = l₁ ++ joinHead b (a :: l₂) := by
    rw [insertSeg_append hlt, insertSeg, if_neg (by unfold Seg.fin; omega), if_pos hba]
  have hmod : (b.addr + b.size) % addrMod = b.addr + b.size := Nat.mod_eq_of_lt hfin
  -- then only the header of the block changes
  have hrest : ∀ h' : Heap, h'.root = h2.root → (∀ x, ¬ b.Has x → h'.mem x = h2.mem x) →
      (q ≠ .root → h'.root = h.root) ∧ (∀ x, ¬ q.Word x → ¬ b.Has x → h'.mem x = h.mem x) ∧
        h'.load q = b.addr := fun h' hroot hmem =>
    ⟨fun hq => hroot.trans (hroot2 hq), fun x hq hbx => (hmem x hbx).trans (hmem2 x hq),
      (Heap.load_congr hroot fun x hq => hmem x fun hbx => hword x hbx hq).trans hload2⟩
  unfold freeLink
  simp only [← hh2, hsize2, hmod]
  split
  · next hjoin =>
    rw [Heap.hnSize_congr (h := h) fun x hlo hhi => hhead2 x hlo (by omega),
      Heap.hnNext_setHnSize (by omega), Heap.hnNext_congr (h := h) fun x hlo hhi => hhead2 x (by omega) hhi,
      hc.chain.2.2.1]
    obtain ⟨hroot, hmem, hload⟩ := hrest ((h2.setHnSize b.addr (b.size + a.size)).setHnNext b.addr
      (h.hnNext a.addr)) rfl fun x hbx => by
        have := hb.out hbx
        rw [Heap.mem_setHnNext (by omega), Heap.mem_setHnSize (by omega)]
    refine ⟨?_, fun x hx hbx => hmem x (h₁.not_word hc hx) hbx⟩
    rw [hins, joinHead, if_pos (show b.fin = a.addr from hjoin)]
    refine h₁.chain_block (o := [a]) hc hc.chain.2.2.2 hb hdisj hroot hmem hload ?_ ?_
    · rw [Heap.hnSize_setHnNext (by omega), Heap.hnSize_setHnSize_self (by omega)]
    · rw [Heap.hnNext_setHnNext_self (Heap.hnNext_lt _ _)]
      rfl
  · next hne =>
    obtain ⟨hroot, hmem, hload⟩ := hrest (h2.setHnNext b.addr a.addr) rfl fun x hbx => by
      have := hb.out hbx
      rw [Heap.mem_setHnNext (by omega)]
    refine ⟨?_, fun x hx hbx => hmem x (h₁.not_word hc hx) hbx⟩
    rw [hins, joinHead, if_neg (show ¬ b.fin = a.addr from hne)]
    refine h₁.chain_block (o := []) hc hc.chain hb hdisj hroot hmem hload ?_ ?_
    · rw [Heap.hnSize_setHnNext (by omega), hsize2]
    · rw [Heap.hnNext_setHnNext_self (by omega), hc.chain.1]

/-- The block behind the node `a`: `a` grows by the block, and by the next node if that touches the block. -/
theorem freeMerge_spec (h₁ : FreeList h (l₁ ++ a :: l₂)) (hc : Cursor h l₁ (a :: l₂) q) (hb : IsNode b)
    (hsize : h.hnSize b.addr = b.size) (hlt : ∀ s ∈ l₁, s.fin < b.addr) (hab : a.fin = b.addr) :
    Freed h (freeMerge h a.addr b.addr) (l₁ ++ a :: l₂) b := by
  have ha := h₁.nodes a (by simp)
  have hfin : b.addr + b.size < addrMod := hb.fin_lt
  have hjoin : a.addr + a.size = b.addr := hab
  have ha8 := ha.size_ge
  have hnext : h.hnNext a.addr = h.load (.next a.addr) := rfl
  have hins : insertSeg b (l₁ ++ a :: l₂) = l₁ ++ joinHead ⟨a.addr, a.size + b.size⟩ l₂ := by
    rw [insertSeg_append hlt, insertSeg, if_pos hab]
  have hword : ∀ x, a.Has x → ¬ q.Word x := fun x hax hq =>
    cover_eq_zero.mp (h₁.cover_word hc hq).2 a List.mem_cons_self hax
  -- only the header of `a` changes
  have hrest : ∀ h' : Heap, h'.root = h.root → (∀ x, ¬ a.Has x → h'.mem x = h.mem x) →
      (q ≠ .root → h'.root = h.root) ∧ (∀ x, 0 < cover l₁ x + cover l₂ x → ¬ q.Word x → h'.mem x = h.mem x) ∧
        h'.load q = a.addr ∧ ∀ x, cover (l₁ ++ a :: l₂) x = 0 → ¬ b.Has x → h'.mem x = h.mem x := by
    refine fun h' hroot hmem => ⟨fun _ => hroot, fun x hx _ => hmem x fun hax => ?_, ?_, fun x hx _ => ?_⟩
    · have hle := h₁.cover_le_one x
      rw [cover_append, cover_cons, Seg.count_eq_one.mpr hax] at hle
      omega
    · exact (Heap.load_congr hroot fun x hq => hmem x fun hax => hword x hax hq).trans hc.chain.1
    · rw [cover_eq_zero] at hx
      exact hmem x (hx a (by simp))
  have hmod : (a.addr + (a.size + b.size)) % addrMod = b.addr + b.size := by
    rw [← Nat.add_assoc, hjoin]
    exact Nat.mod_eq_of_lt hfin
  unfold freeMerge
  simp only [hc.chain.2.2.1, hsize]
  rw [Heap.hnSize_setHnSize_self (by omega), hmod, Heap.hnNext_setHnSize (by omega)]
  split
  · next htouch =>
    -- the next node is the head of `l₂`
    cases l₂ with
    | nil =>
      have hzero : h.hnNext a.addr = 0 := hc.chain.2.2.2
      omega
    | cons c l₂ =>
      obtain ⟨hcl, hcne, hcs, hch⟩ := hc.chain.2.2.2
      have hcaddr : h.hnNext a.addr = c.addr := hcl
      have hcn := h₁.nodes c (by simp)
      have hcfin : c.addr + c.size < addrMod := hcn.fin_lt
      rw [hcaddr] at htouch
      rw [hcaddr, Heap.hnSize_setHnSize (by omega), hcs, Heap.hnNext_setHnSize (by omega),
        Heap.hnNext_setHnSize (by omega)]
      obtain ⟨hroot, hmem, hload, hframe⟩ := hrest (((h.setHnSize a.addr (a.size + b.size)).setHnSize
        a.addr (a.size + b.size + c.size)).setHnNext a.addr (h.hnNext c.addr)) rfl fun x hax => by
          have := ha.out hax
          rw [Heap.mem_setHnNext (by omega), Heap.mem_setHnSize (by omega), Heap.mem_setHnSize (by omega)]
      refine ⟨?_, hframe⟩
      rw [hins, joinHead, if_pos (by unfold Seg.fin; dsimp only; omega)]
      refine h₁.chain_relink (o := [a, c]) hc hch hroot (fun x hx => hmem x ?_) ha.addr_ne hload ?_ ?_
      · rw [cover_cons]
        omega
      · rw [Heap.hnSize_setHnNext (by dsimp only; omega), Heap.hnSize_setHnSize_self (by omega)]
      · rw [Heap.hnNext_setHnNext_self (Heap.hnNext_lt _ _)]
        rfl
  · next hapart =>
    obtain ⟨hroot, hmem, hload, hframe⟩ := hrest (h.setHnSize a.addr (a.size + b.size)) rfl
      fun x hax => Heap.mem_setHnSize (by have := ha.out hax; omega)
    refine ⟨?_, hframe⟩
    have hhead : joinHead ⟨a.addr, a.size + b.size⟩ l₂ = ⟨a.addr, a.size + b.size⟩ :: l₂ := by
      cases l₂ with
      | nil => rfl
      | cons c l₂ =>
        have hcaddr : h.hnNext a.addr = c.addr := hc.chain.2.2.2.1
        rw [joinHead, if_neg (by unfold Seg.fin; dsimp only; omega)]
    rw [hins, hhead]
    refine h₁.chain_relink (o := [a]) hc hc.chain.2.2.2 hroot hmem ha.addr_ne hload ?_ ?_
    · rw [Heap.hnSize_setHnSize_self (by omega)]
    · rw [Heap.hnNext_setHnSize (by dsimp only; omega), hnext]

/-- Release: the block goes to its place in the list. -/
theorem nutHeapRootFree_spec (h₁ : FreeList h l) (hb : IsNode b) (hsize : h.hnSize b.addr = b.size)
    (hdisj : ∀ x, b.Has x → cover l x = 0) :
    (nutHeapRootFree h (b.addr + 4)).Ends fun (rc, h') => rc = 0 ∧ Freed h h' l b := by
  unfold nutHeapRootFree
  rw [if_neg (by omega), nodeOfBlock_eq hb]
  -- the nodes that the search has seen end in front of the block
  refine Comp.loop_ends
    (fun (g : List Seg × List Seg) (w : Nat × Npp) => g.1 ++ g.2 = l ∧ Cursor h g.1 g.2 w.2 ∧
      w.1 = h.load w.2 ∧ ∀ s ∈ g.1, s.fin < b.addr)
    (fun g => g.2.length) ?_ ([], l) (h.root, .root) ⟨rfl, h₁.cursor, rfl, by simp⟩
  rintro ⟨l₁, l₂⟩ ⟨node, npp⟩ ⟨rfl, hc, hnode, hlt⟩
  dsimp only at hc hnode hlt
  unfold freeStep
  cases l₂ with
  | nil =>
    have hzero : node = 0 := hnode.trans hc.chain
    simp only [hzero, if_true]
    exact Comp.ends_pure.mpr ⟨rfl, freeAppend_spec h₁ hc hb hsize hdisj hlt⟩
  | cons a l₂ =>
    obtain ⟨hload, hne, hasize, -⟩ := hc.chain
    obtain rfl : node = a.addr := hnode.trans hload
    have hafin : (a.addr + a.size) % addrMod = a.fin := Nat.mod_eq_of_lt (h₁.nodes a (by simp)).fin_lt
    simp only [hne, if_false, hasize, hafin]
    split
    · next hab => exact Comp.ends_pure.mpr ⟨rfl, freeMerge_spec h₁ hc hb hsize hlt hab⟩
    · next hab =>
      split
      · next hba => exact Comp.ends_pure.mpr ⟨rfl, freeLink_spec h₁ hc hb hsize hdisj hlt hba⟩
      · next hba =>
        have hle : a.fin ≤ b.addr := (h₁.apart hb hdisj (by simp)).resolve_left fun hle => hba (by
          have := hb.size_ge
          unfold Seg.fin at hle
          omega)
        rw [if_neg (by omega)]
        refine Comp.ends_pure.mpr ⟨(l₁ ++ [a], l₂), Nat.lt_succ_self _, by simp, hc.next, rfl, ?_⟩
        intro s hs
        rcases List.mem_append.mp hs with hs | hs
        · exact hlt s hs
        · rw [List.mem_singleton.mp hs]
          omega

/-- A block that starts in a free node is not released once more. -/
theorem nutHeapRootFree_again {block : Nat} (h₁ : FreeList h l) (hne : block ≠ 0)
    (hfree : 0 < cover l (nodeOfBlock block)) :
    (nutHeapRootFree h block).Ends fun (rc, h') => rc = -1 ∧ h' = h := by
  obtain ⟨fnode, hfnode⟩ : ∃ fnode, fnode = nodeOfBlock block := ⟨_, rfl⟩
  unfold nutHeapRootFree
  rw [if_neg hne, ← hfnode]
  rw [← hfnode] at hfree
  -- the node that has the block's header is still ahead
  refine Comp.loop_ends
    (fun (g : List Seg × List Seg) (w : Nat × Npp) => g.1 ++ g.2 = l ∧ Cursor h g.1 g.2 w.2 ∧
      w.1 = h.load w.2 ∧ 0 < cover g.2 fnode)
    (fun g => g.2.length) ?_ ([], l) (h.root, .root) ⟨rfl, h₁.cursor, rfl, hfree⟩
  rintro ⟨l₁, l₂⟩ ⟨node, npp⟩ ⟨rfl, hc, hnode, hahead⟩
  dsimp only at hc hnode hahead
  unfold freeStep
  cases l₂ with
  | nil => cases hahead
  | cons a l₂ =>
    obtain ⟨hload, hnz, hasize, -⟩ := hc.chain
    obtain rfl : node = a.addr := hnode.trans hload
    have hafin : (a.addr + a.size) % addrMod = a.fin := Nat.mod_eq_of_lt (h₁.nodes a (by simp)).fin_lt
    simp only [hnz, if_false, hasize, hafin]
    by_cases ha : a.Has fnode
    · obtain ⟨hlo, hhi⟩ := ha
      rw [if_neg (by omega), if_neg (by omega), if_pos hhi]
      exact Comp.ends_pure.mpr ⟨rfl, rfl⟩
    · -- the node lies wholly in front of the header
      have hrest : 0 < cover l₂ fnode := by
        rw [cover_cons, Seg.count_eq_zero.mpr ha] at hahead
        omega
      obtain ⟨b, hb, hblo, -⟩ := cover_pos.mp hrest
      have hlt := (separated_cons.mp (separated_append.mp h₁.separated).2.1).1 b hb
      have hle : a.addr ≤ a.fin := Nat.le_add_right _ _
      rw [if_neg (by omega), if_neg (by omega), if_neg (by omega)]
      exact Comp.ends_pure.mpr ⟨(l₁ ++ [a], l₂), Nat.lt_succ_self _, by simp, hc.next, rfl, hrest⟩

/-- A block whose size is written just before its release. -/
theorem nutHeapRootFree_new (h₁ : FreeList h l) (hb : IsNode b) (hdisj : ∀ x, b.Has x → cover l x = 0) :
    (nutHeapRootFree (h.setHnSize b.addr b.size) (b.addr + 4)).Ends fun (rc, h') =>
      rc = 0 ∧ Freed h h' l b := by
  have hfin : b.addr + b.size < addrMod := hb.fin_lt
  have hmem : ∀ x, ¬ b.Has x → (h.setHnSize b.addr b.size).mem x = h.mem x := fun x hx =>
    Heap.mem_setHnSize (by have := hb.out hx; omega)
  have h₁' : FreeList (h.setHnSize b.addr b.size) l := h₁.frame rfl fun x hx => hmem x fun hbx => by
    rw [hdisj x hbx] at hx
    cases hx
  refine (nutHeapRootFree_spec h₁' hb (Heap.hnSize_setHnSize_self (by omega)) hdisj).mono ?_
  rintro ⟨rc, h'⟩ ⟨hrc, hf⟩
  exact ⟨hrc, hf.chain, fun x hx hbx => (hf.frame x hx hbx).trans (hmem x hbx)⟩

/-- An aligned region becomes a free block. -/
theorem nutHeapRootAdd_spec (h₁ : FreeList h l) (hb : IsNode b) (hdisj : ∀ x, b.Has x → cover l x = 0) :
    (nutHeapRootAdd h b.addr b.size).Ends fun h' => Freed h h' l b := by
  have hfin : b.addr + b.size < addrMod := hb.fin_lt
  have ha := hb.addr_mod
  have hs := hb.size_mod
  have hb8 := hb.size_ge
  have htop : nutmemTopAlign b.addr = b.addr := by
    unfold nutmemTopAlign nutmemBottomAlign
    unfold addrMod at *
    omega
  have hskip : (b.addr + (addrMod - b.addr)) % addrMod = 0 := by
    rw [Nat.add_sub_cancel' (by omega), Nat.mod_self]
  have hsize : nutmemBottomAlign ((b.size + (addrMod - 0)) % addrMod) = b.size := by
    unfold nutmemBottomAlign
    unfold addrMod at *
    omega
  unfold nutHeapRootAdd
  simp only [htop, hskip, hsize, prepareUserArea_eq hb]
  refine Comp.ends_bind.mpr ((nutHeapRootFree_new h₁ hb hdisj).mono ?_)
  rintro ⟨rc, h'⟩ ⟨-, hf⟩
  exact Comp.ends_pure.mpr hf

end Free

end V85x
