import V85xAmp.Utils.NutHeapList

/-!
# Allocation from the free list

`allocWalk_ends`: the search finds the best fit (`BestFit`), or that there is none. `allocTake_spec`: what
the edit of the list does. `nutHeapRootAlloc_spec` puts them together: the block comes out of the cover of
the free list, and no byte outside the list changes.
-/

namespace V85x

open Firmware

/-! ## The search -/

section Alloc

variable {h h' : Heap} {q : Npp} {need size : Nat} {l l₁ l₂ m₁ m₂ : List Seg} {a : Seg}

/-- The size of a node for a request that does not wrap. -/
theorem allocNeed_eq (hsize : size + 7 < addrMod) :
    allocNeed size % 4 = 0 ∧ 8 ≤ allocNeed size ∧ size + 4 ≤ allocNeed size ∧
      (allocNeed size = 8 ∨ allocNeed size < size + 8) := by
  have hneed : (size + nutHeapOverhead) % addrMod = size + 4 := Nat.mod_eq_of_lt (by
    unfold nutHeapOverhead
    omega)
  unfold allocNeed nutmemTopAlign nutmemBottomAlign
  simp only [hneed, sizeofHeapnode]
  unfold addrMod at *
  split <;> omega

/-- `a` is the best fit in `m₁ ++ a :: m₂`: the first of the smallest nodes that are large enough. -/
structure BestFit (need : Nat) (m₁ : List Seg) (a : Seg) (m₂ : List Seg) : Prop where
  fits : need ≤ a.size
  before : ∀ s ∈ m₁, s.size < need ∨ a.size < s.size
  after : ∀ s ∈ m₂, s.size < need ∨ a.size ≤ s.size

/-- The search has seen `l₁`, and `fit` is the best fit in it, if there is one. -/
def Found (h : Heap) (need fit : Nat) (fpp : Npp) (l₁ l₂ : List Seg) : Prop :=
  (fit = 0 ∧ ∀ s ∈ l₁, s.size < need) ∨
    ∃ m₁ a m₂, l₁ = m₁ ++ a :: m₂ ∧ fit = a.addr ∧ Cursor h m₁ (a :: m₂ ++ l₂) fpp ∧ BestFit need m₁ a m₂

variable {fit : Nat} {fpp : Npp}

/-- A node that is too small, or not smaller than the fit so far. -/
theorem Found.skip (hf : Found h need fit fpp l₁ (a :: l₂))
    (ha : a.size < need ∨ fit ≠ 0 ∧ h.hnSize fit ≤ a.size) : Found h need fit fpp (l₁ ++ [a]) l₂ := by
  rcases hf with ⟨rfl, hsmall⟩ | ⟨m₁, b, m₂, rfl, rfl, hc, hbest⟩
  · refine .inl ⟨rfl, fun s hs => ?_⟩
    rcases List.mem_append.mp hs with hs | hs
    · exact hsmall s hs
    · rw [List.mem_singleton.mp hs]
      exact ha.resolve_right fun h => h.1 rfl
  · refine .inr ⟨m₁, b, m₂ ++ [a], by simp, rfl, by simpa using hc, hbest.fits, hbest.before, ?_⟩
    have hsize : h.hnSize b.addr = b.size := hc.chain.2.2.1
    intro s hs
    rcases List.mem_append.mp hs with hs | hs
    · exact hbest.after s hs
    · rw [List.mem_singleton.mp hs]
      omega

/-- A node that fits better than the fit so far. -/
theorem Found.better (hf : Found h need fit fpp l₁ (a :: l₂)) (hfit : fit = 0 ∨ a.size < h.hnSize fit)
    (s : Seg) (hs : s ∈ l₁) : s.size < need ∨ a.size < s.size := by
  rcases hf with ⟨rfl, hsmall⟩ | ⟨m₁, b, m₂, rfl, rfl, hc, hbest⟩
  · exact .inl (hsmall s hs)
  · have hsize : h.hnSize b.addr = b.size := hc.chain.2.2.1
    have hlt := hfit.resolve_left hc.chain.2.1
    rcases List.mem_append.mp hs with hs | hs
    · have := hbest.before s hs
      omega
    · rcases List.mem_cons.mp hs with rfl | hs
      · omega
      · have := hbest.after s hs
        omega

/-- The search finds the best fit. -/
theorem allocWalk_ends (h₁ : FreeList h l) (need : Nat) :
    (Comp.loop (allocWalkStep h need) ⟨h.root, .root, 0, .root⟩).Ends fun (fit, fpp) =>
      Found h need fit fpp l [] := by
  -- the ghost state splits the list at the walk
  refine Comp.loop_ends
    (fun (g : List Seg × List Seg) (w : AllocWalk) =>
      g.1 ++ g.2 = l ∧ Cursor h g.1 g.2 w.npp ∧ w.node = h.load w.npp ∧ Found h need w.fit w.fpp g.1 g.2)
    (fun g => g.2.length) ?_ ([], l) ⟨h.root, .root, 0, .root⟩
    ⟨rfl, h₁.cursor, rfl, .inl ⟨rfl, by simp⟩⟩
  rintro ⟨l₁, l₂⟩ ⟨node, npp, fit, fpp⟩ ⟨hl, hc, hnode, hfound⟩
  dsimp only at hl hc hnode hfound
  cases l₂ with
  | nil =>
    have hzero : node = 0 := hnode.trans hc.chain
    rw [List.append_nil] at hl
    subst hl
    simpa [allocWalkStep, hzero] using hfound
  | cons a l₂ =>
    obtain ⟨hload, hne, hasize, -⟩ := hc.chain
    obtain rfl : node = a.addr := hnode.trans hload
    have hl' : l₁ ++ [a] ++ l₂ = l := by rw [← hl]; simp
    unfold allocWalkStep
    simp only [hne, if_false, hasize]
    split
    · next htake =>
      obtain ⟨hge, hfit⟩ := htake
      have hbefore := hfound.better hfit
      split
      · next hexact =>
        refine Comp.ends_pure.mpr (.inr ⟨l₁, a, l₂, hl.symm, rfl, by simpa using hc, hge, hbefore, ?_⟩)
        intro s _
        omega
      · refine Comp.ends_pure.mpr ⟨(l₁ ++ [a], l₂), Nat.lt_succ_self _, hl', hc.next, rfl, ?_⟩
        exact .inr ⟨l₁, a, [], rfl, rfl, hc, hge, hbefore, by simp⟩
    · next hskip =>
      refine Comp.ends_pure.mpr ⟨(l₁ ++ [a], l₂), Nat.lt_succ_self _, hl', hc.next, rfl, hfound.skip ?_⟩
      omega

/-! ## The edit of the list -/

/-- A block out of the free list `l`, which leaves `l'`. -/
structure Taken (h h' : Heap) (l l' : List Seg) (b : Seg) : Prop where
  node : IsNode b
  header : h'.hnSize b.addr = b.size
  free : FreeList h' l'
  tiles : ∀ x, cover l x = b.count x + cover l' x
  frame : ∀ x, cover l x = 0 → h'.mem x = h.mem x

/-- A node that stays whole. -/
theorem allocTake_whole (h₁ : FreeList h (m₁ ++ a :: m₂)) (hc : Cursor h m₁ (a :: m₂) q)
    (hfit : a.size < need + 8) (hle : need ≤ a.size) :
    Taken h (allocTake h need a.addr q) (m₁ ++ a :: m₂) (m₁ ++ m₂) a := by
  have ha := h₁.nodes a (by simp)
  have hsize : h.hnSize a.addr = a.size := hc.chain.2.2.1
  have htake : allocTake h need a.addr q = h.store q (h.hnNext a.addr) := by
    unfold allocTake nutmemHeapnodeMin sizeofHeapnode
    rw [if_neg (by omega)]
  have hmem : ∀ x, ¬ q.Word x → (h.store q (h.hnNext a.addr)).mem x = h.mem x := fun x hx =>
    Heap.mem_store hx
  have hcover : ∀ x, cover (m₁ ++ a :: m₂) x = a.count x + cover (m₁ ++ m₂) x := by
    intro x
    simp only [cover_append, cover_cons]
    omega
  rw [htake]
  refine ⟨ha, ?_, h₁.takeAll hc Heap.root_store (fun x _ => hmem x)
    (Heap.load_store_self (Heap.hnNext_lt _ _)), hcover, fun x hx => hmem x fun hq => ?_⟩
  · rw [← hsize]
    refine Heap.hnSize_congr fun x hlo hhi => hmem x fun hq => ?_
    have hzero := (h₁.cover_word hc hq).2
    rw [cover_eq_zero, List.forall_mem_cons] at hzero
    exact hzero.1 (ha.has hlo (by omega))
  · have hpos := (h₁.cover_word hc hq).1
    rw [cover_append] at hx
    omega

/-- A node that is split: its rest stays in the list. -/
theorem allocTake_split (h₁ : FreeList h (m₁ ++ a :: m₂)) (hc : Cursor h m₁ (a :: m₂) q)
    (hmod : need % 4 = 0) (hge : 8 ≤ need) (hfit : need + 8 ≤ a.size) :
    Taken h (allocTake h need a.addr q) (m₁ ++ a :: m₂)
      (m₁ ++ ⟨a.addr + need, a.size - need⟩ :: m₂) ⟨a.addr, need⟩ := by
  have ha := h₁.nodes a (by simp)
  have hlt : a.addr + a.size < addrMod := ha.fin_lt
  have hsize : h.hnSize a.addr = a.size := hc.chain.2.2.1
  have hnode : (a.addr + need) % addrMod = a.addr + need := Nat.mod_eq_of_lt (by omega)
  -- the four stores
  obtain ⟨h2, hh2⟩ : ∃ h2, h2 = h.setHnSize (a.addr + need) (a.size - need) := ⟨_, rfl⟩
  obtain ⟨h3, hh3⟩ : ∃ h3, h3 = h2.setHnNext (a.addr + need) (h.hnNext a.addr) := ⟨_, rfl⟩
  obtain ⟨h4, hh4⟩ : ∃ h4, h4 = h3.setHnSize a.addr need := ⟨_, rfl⟩
  have hnext : h2.hnNext a.addr = h.hnNext a.addr := hh2 ▸ Heap.hnNext_setHnSize (by omega)
  have htake : allocTake h need a.addr q = h4.store q (a.addr + need) := by
    unfold allocTake nutmemHeapnodeMin sizeofHeapnode
    rw [if_pos (by omega), hnode, hsize]
    dsimp only
    rw [← hh2, hnext, ← hh3, ← hh4]
  have hword : ∀ x, a.Has x → ¬ q.Word x := fun x hx hq => by
    have hzero := (h₁.cover_word hc hq).2
    rw [cover_eq_zero, List.forall_mem_cons] at hzero
    exact hzero.1 hx
  have hmem : ∀ x, ¬ q.Word x → ¬ a.Has x → (h4.store q (a.addr + need)).mem x = h.mem x := by
    intro x hq hx
    unfold Seg.Has Seg.fin at hx
    rw [Heap.mem_store hq, hh4, Heap.mem_setHnSize (by omega), hh3, Heap.mem_setHnNext (by omega), hh2,
      Heap.mem_setHnSize (by omega)]
  have hin : ∀ x, a.addr ≤ x → x < a.addr + a.size →
      (h4.store q (a.addr + need)).mem x = h4.mem x := fun x hlo hhi =>
    Heap.mem_store (hword x ⟨hlo, hhi⟩)
  have hrest : (h4.store q (a.addr + need)).hnSize (a.addr + need) = a.size - need := by
    rw [Heap.hnSize_congr fun x hlo hhi => hin x (by omega) (by omega), hh4,
      Heap.hnSize_setHnSize (by omega), hh3, Heap.hnSize_setHnNext (by omega), hh2,
      Heap.hnSize_setHnSize_self (by omega)]
  have hlink : (h4.store q (a.addr + need)).hnNext (a.addr + need) = h.hnNext a.addr := by
    rw [Heap.hnNext_congr fun x hlo hhi => hin x (by omega) (by omega), hh4,
      Heap.hnNext_setHnSize (by omega), hh3, Heap.hnNext_setHnNext_self (Heap.hnNext_lt _ _)]
  rw [htake]
  refine ⟨⟨ha.addr_mod, hmod, hge, ha.addr_ne, ?_⟩, ?_, ?_, fun x => ?_, fun x hx => ?_⟩
  · show a.addr + need < addrMod
    omega
  · rw [Heap.hnSize_congr fun x hlo hhi => hin x hlo (by omega), hh4,
      Heap.hnSize_setHnSize_self (by omega)]
  · refine h₁.takePart hc hmod hfit (fun hq => ?_) (fun x hx hq => hmem x hq fun hax => ?_)
      (Heap.load_store_self (by omega)) hrest hlink
    · rw [Heap.root_store hq, hh4, hh3, hh2]
      rfl
    · have hle := h₁.cover_le_one x
      rw [cover_append, cover_cons, Seg.count_eq_one.mpr hax] at hle
      omega
  · have hsplit := Seg.count_split (s := a) (n := need) (by omega) x
    simp only [cover_append, cover_cons]
    omega
  · rw [cover_append, cover_cons] at hx
    refine hmem x (fun hq => ?_) (Seg.count_eq_zero.mp (by omega))
    have hpos := (h₁.cover_word hc hq).1
    omega

theorem allocTake_spec (h₁ : FreeList h (m₁ ++ a :: m₂)) (hc : Cursor h m₁ (a :: m₂) q)
    (hmod : need % 4 = 0) (hge : 8 ≤ need) (hfit : need ≤ a.size) :
    ∃ l' b, b.addr = a.addr ∧ need ≤ b.size ∧
      Taken h (allocTake h need a.addr q) (m₁ ++ a :: m₂) l' b := by
  rcases Nat.lt_or_ge a.size (need + 8) with hlt | hle
  · exact ⟨m₁ ++ m₂, a, rfl, hfit, allocTake_whole h₁ hc hlt hfit⟩
  · exact ⟨_, ⟨a.addr, need⟩, rfl, Nat.le_refl _, allocTake_split h₁ hc hmod hge hle⟩

/-- Allocation is the edit at the best fit, or NULL if no node is large enough. -/
theorem nutHeapRootAlloc_ends (h₁ : FreeList h l) (size : Nat) :
    (nutHeapRootAlloc h size).Ends fun (p, h') =>
      (p = 0 ∧ h' = h ∧ ∀ s ∈ l, s.size < allocNeed size) ∨
        ∃ m₁ a m₂ q, l = m₁ ++ a :: m₂ ∧ Cursor h m₁ (a :: m₂) q ∧ BestFit (allocNeed size) m₁ a m₂ ∧
          p = a.addr + 4 ∧ h' = allocTake h (allocNeed size) a.addr q := by
  unfold nutHeapRootAlloc
  refine Comp.ends_bind.mpr ((allocWalk_ends h₁ (allocNeed size)).mono ?_)
  rintro ⟨fit, fpp⟩ hfound
  rcases (hfound : Found h (allocNeed size) fit fpp l []) with
    ⟨rfl, hsmall⟩ | ⟨m₁, a, m₂, rfl, rfl, hc, hbest⟩
  · simpa using hsmall
  · rw [List.append_nil] at hc
    simp only [hc.chain.2.1, if_false]
    exact Comp.ends_pure.mpr
      (.inr ⟨m₁, a, m₂, fpp, rfl, hc, hbest, prepareUserArea_eq (h₁.nodes a (by simp)), rfl⟩)

/-- Allocation: a block out of the list that is large enough, or NULL if no node is. -/
theorem nutHeapRootAlloc_spec (h₁ : FreeList h l) (hsize : size + 7 < addrMod) :
    (nutHeapRootAlloc h size).Ends fun (p, h') =>
      (p = 0 ∧ h' = h ∧ ∀ s ∈ l, s.size < allocNeed size) ∨
        ∃ l' b, p = b.addr + 4 ∧ allocNeed size ≤ b.size ∧ Taken h h' l l' b := by
  obtain ⟨hmod, hge, -, -⟩ := allocNeed_eq hsize
  refine (nutHeapRootAlloc_ends h₁ size).mono ?_
  rintro ⟨p, h'⟩ hres
  rcases hres with hnull | ⟨m₁, a, m₂, q, rfl, hc, hbest, rfl, rfl⟩
  · exact .inl hnull
  · obtain ⟨l', b, hb, hle, htaken⟩ := allocTake_spec h₁ hc hmod hge hbest.fits
    exact .inr ⟨l', b, by rw [hb], hle, htaken⟩

end Alloc

end V85x
