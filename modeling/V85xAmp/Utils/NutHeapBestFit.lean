import V85xAmp.Utils.NutHeapRun

/-!
# The choice of the free node

`NutHeapRootAlloc` takes the lowest of the smallest nodes that are large enough
(`nutHeapRootAlloc_bestFit`), and changes the header of this node and one link only.
`NutHeapRootRegionAvailable` says how much that can be (`regionAvailable_exact_iff`), as long as there is
a free node: without one it reports 0 less the overhead.
-/

namespace V85x

open Firmware

section BestFit

variable {h h' : Heap} {q : Npp} {need size : Nat} {l l₁ l₂ : List Seg} {a : Seg}

/-- The lowest-addressed of the smallest nodes that are large enough. -/
structure LowestBest (need : Nat) (l : List Seg) (a : Seg) : Prop where
  fits : need ≤ a.size
  smallest : ∀ s ∈ l, need ≤ s.size → a.size ≤ s.size
  lowest : ∀ s ∈ l, s.size = a.size → a.addr ≤ s.addr

theorem BestFit.lowestBest (hb : BestFit need l₁ a l₂) (hs : Separated (l₁ ++ a :: l₂)) :
    LowestBest need (l₁ ++ a :: l₂) a := by
  have hafter : ∀ s ∈ l₂, a.addr ≤ s.addr := fun s hmem => by
    have hlt := (separated_cons.mp (separated_append.mp hs).2.1).1 s hmem
    unfold Seg.fin at hlt
    omega
  refine ⟨hb.fits, fun s hmem hneed => ?_, fun s hmem hsize => ?_⟩
  · rcases List.mem_append.mp hmem with hmem | hmem
    · have := hb.before s hmem
      omega
    · rcases List.mem_cons.mp hmem with rfl | hmem
      · exact Nat.le_refl _
      · have := hb.after s hmem
        omega
  · rcases List.mem_append.mp hmem with hmem | hmem
    · have h1 := hb.before s hmem
      have h2 := hb.fits
      omega
    · rcases List.mem_cons.mp hmem with rfl | hmem
      · exact Nat.le_refl _
      · exact hafter s hmem

/-- What stays of a node that loses its first `need` bytes. -/
def restOf (need : Nat) (a : Seg) : List Seg :=
  if need + 8 ≤ a.size then [⟨a.addr + need, a.size - need⟩] else []

/-- The lower part of a node, or all of it. -/
def lowerPart (need : Nat) (a : Seg) : Seg := if need + 8 ≤ a.size then ⟨a.addr, need⟩ else a

theorem allocTake_taken (h₁ : FreeList h (l₁ ++ a :: l₂)) (hc : Cursor h l₁ (a :: l₂) q)
    (hmod : need % 4 = 0) (hge : 8 ≤ need) (hfit : need ≤ a.size) :
    Taken h (allocTake h need a.addr q) (l₁ ++ a :: l₂) (l₁ ++ (restOf need a ++ l₂)) (lowerPart need a) := by
  unfold restOf lowerPart
  split
  · next hsplit => exact allocTake_split h₁ hc hmod hge hsplit
  · next hwhole => exact allocTake_whole h₁ hc (by omega) hfit

/-- The edit touches the node and the link to it. -/
theorem allocTake_frame (h₁ : FreeList h (l₁ ++ a :: l₂)) (hc : Cursor h l₁ (a :: l₂) q) {x : Nat}
    (hq : ¬ q.Word x) (hx : ¬ a.Has x) : (allocTake h need a.addr q).mem x = h.mem x := by
  have hsize : h.hnSize a.addr = a.size := hc.chain.2.2.1
  have hfin : a.addr + a.size < addrMod := (h₁.nodes a (by simp)).fin_lt
  have hout := (h₁.nodes a (by simp)).out hx
  unfold allocTake nutmemHeapnodeMin sizeofHeapnode
  split
  · next hsplit =>
    rw [hsize] at hsplit
    unfold Seg.Has Seg.fin at hx
    have hnode : (a.addr + need) % addrMod = a.addr + need := Nat.mod_eq_of_lt (by omega)
    dsimp only
    rw [hnode, Heap.mem_store hq, Heap.mem_setHnSize (by omega), Heap.mem_setHnNext (by omega),
      Heap.mem_setHnSize (by omega)]
  · exact Heap.mem_store hq

/-- The link behind the last of the nodes, or the first one. -/
def linkAfter (p : Npp) : List Seg → Npp
  | [] => p
  | s :: l => linkAfter (.next s.addr) l

theorem Path.end_linkAfter {p : Npp} (h₁ : Path h p l q) : q = linkAfter p l := by
  induction l generalizing p with
  | nil => exact h₁.symm
  | cons s l ih => exact ih h₁.2.2.2

/-- The block at `p` is the lower part of the best fit. The other nodes stay where they are, with their sizes,
and no byte outside the node and the link that led to it changes. -/
def TakesBest (h h' : Heap) (l : List Seg) (need p : Nat) : Prop :=
  ∃ l₁ a l₂, l = l₁ ++ a :: l₂ ∧ LowestBest need l a ∧ p = (lowerPart need a).addr + 4 ∧
    h'.hnSize (lowerPart need a).addr = (lowerPart need a).size ∧
    FreeList h' (l₁ ++ (restOf need a ++ l₂)) ∧
    ∀ x, ¬ a.Has x → ¬ (linkAfter .root l₁).Word x → h'.mem x = h.mem x

theorem allocTake_takesBest (h₁ : FreeList h (l₁ ++ a :: l₂)) (hc : Cursor h l₁ (a :: l₂) q)
    (hmod : need % 4 = 0) (hge : 8 ≤ need) (hbest : BestFit need l₁ a l₂) :
    TakesBest h (allocTake h need a.addr q) (l₁ ++ a :: l₂) need (a.addr + 4) := by
  have htaken := allocTake_taken h₁ hc hmod hge hbest.fits
  have haddr : a.addr = (lowerPart need a).addr := by
    unfold lowerPart
    split <;> rfl
  refine ⟨l₁, a, l₂, rfl, hbest.lowestBest h₁.separated, by rw [haddr], htaken.header, htaken.free,
    fun x hx hq => ?_⟩
  rw [← hc.path.end_linkAfter] at hq
  exact allocTake_frame h₁ hc hq hx

/-- The need of a request. -/
theorem allocNeed_max (hsize : size + 7 < addrMod) : allocNeed size = (max (size + 4) 8 + 3) / 4 * 4 := by
  have hneed : (size + nutHeapOverhead) % addrMod = size + 4 := Nat.mod_eq_of_lt (by
    unfold nutHeapOverhead
    omega)
  have hmax : (if size + 4 < 8 then 8 else size + 4) = max (size + 4) 8 := by
    split <;> omega
  have hlt : max (size + 4) 8 + 3 < addrMod := by
    unfold addrMod at *
    omega
  unfold allocNeed nutmemTopAlign nutmemBottomAlign sizeofHeapnode
  dsimp only
  rw [hneed, hmax, Nat.mod_eq_of_lt hlt]

/-- Allocation takes the best fit. It returns NULL exactly if no node is large enough, and then nothing
changes. -/
theorem nutHeapRootAlloc_bestFit {need : Nat} (h₁ : FreeList h l) (hsize : size + 7 < addrMod)
    (hneed : need = (max (size + 4) 8 + 3) / 4 * 4) :
    (nutHeapRootAlloc h size).Ends fun (p, h') =>
      (p = 0 ↔ ∀ s ∈ l, s.size < need) ∧ (p = 0 → h' = h) ∧ (p ≠ 0 → TakesBest h h' l need p) := by
  obtain ⟨hmod, hge, -, -⟩ := allocNeed_eq hsize
  rw [allocNeed_max hsize, ← hneed] at hmod hge
  refine (nutHeapRootAlloc_ends h₁ size).mono ?_
  rintro ⟨p, h'⟩ hres
  rw [allocNeed_max hsize, ← hneed] at hres
  rcases hres with ⟨rfl, rfl, hsmall⟩ | ⟨m₁, a, m₂, q, rfl, hc, hbest, rfl, rfl⟩
  · exact ⟨iff_of_true rfl hsmall, fun _ => rfl, fun h0 => absurd rfl h0⟩
  · have hp : a.addr + 4 ≠ 0 := Nat.succ_ne_zero _
    refine ⟨iff_of_false hp fun hall => ?_, fun h0 => absurd h0 hp,
      fun _ => allocTake_takesBest h₁ hc hmod hge hbest⟩
    have h1 := hall a (by simp)
    have h2 := hbest.fits
    omega

/-- Free nodes of 8, 64, 32 and 32 bytes. -/
def fourNodeHeap : Heap where
  root := 64
  mem := [(64, 8), (68, 80), (80, 64), (84, 160), (160, 32), (164, 208), (208, 32)].foldl
    (fun m p => store32 m p.1 p.2) fun _ => 0#8

theorem fourNodeHeap_freeList : FreeList fourNodeHeap [⟨64, 8⟩, ⟨80, 64⟩, ⟨160, 32⟩, ⟨208, 32⟩] where
  chain := ⟨rfl, by decide, rfl, rfl, by decide, rfl, rfl, by decide, rfl, rfl, by decide, rfl, rfl⟩
  nodes := by
    simp only [List.forall_mem_cons, List.not_mem_nil, false_implies, implies_true, and_true]
    refine ⟨?_, ?_, ?_, ?_⟩ <;> exact ⟨rfl, rfl, by decide, by decide, by decide⟩
  separated := by
    unfold Separated Seg.fin
    decide

/-- A request of 10 bytes needs 16. They come out of the first of the two nodes of 32. -/
theorem nutHeapRootAlloc_bestFit_four : ∃ h', (nutHeapRootAlloc fourNodeHeap 10).Returns (164, h') ∧
    TakesBest fourNodeHeap h' [⟨64, 8⟩, ⟨80, 64⟩, ⟨160, 32⟩, ⟨208, 32⟩] 16 164 := by
  have hret : (nutHeapRootAlloc fourNodeHeap 10).Returns (164, _) := Comp.returns_of_run 6 rfl
  have hbest := (nutHeapRootAlloc_bestFit fourNodeHeap_freeList (by decide) rfl).of_returns hret
  exact ⟨_, hret, hbest.2.2 (by decide)⟩

/-! ## The largest block -/

/-- The size of the largest node, at least `n`. -/
def maxSize (n : Nat) : List Seg → Nat
  | [] => n
  | s :: l => maxSize (max n s.size) l

theorem le_maxSize_iff {n k : Nat} : k ≤ maxSize n l ↔ k ≤ n ∨ ∃ s ∈ l, k ≤ s.size := by
  induction l generalizing n with
  | nil => simp [maxSize]
  | cons s l ih => rw [maxSize, ih, le_max_iff, List.exists_mem_cons_iff, or_assoc]

theorem nutHeapRootRegionAvailable_spec (h₁ : FreeList h l) :
    (nutHeapRootRegionAvailable h).Ends fun n => n = (maxSize 0 l + (addrMod - 4)) % addrMod := by
  unfold nutHeapRootRegionAvailable
  -- the nodes that are left decide what becomes of the maximum so far
  refine Comp.loop_ends
    (fun (g : List Seg) (w : Nat × Nat) => ∃ q, Chain h q g ∧ w.2 = h.load q ∧ maxSize w.1 g = maxSize 0 l)
    (fun g => g.length) ?_ l (0, h.root) ⟨.root, h₁.chain, rfl, rfl⟩
  rintro l₂ ⟨rc, node⟩ ⟨q, hchain, hnode, hmax⟩
  dsimp only at hnode hmax
  unfold regionStep
  dsimp only
  cases l₂ with
  | nil =>
    rw [if_pos (hnode.trans hchain), ← hmax]
    exact Comp.ends_pure.mpr rfl
  | cons a l₂ =>
    obtain ⟨hload, hne, hsize, hrest⟩ := hchain
    obtain rfl : node = a.addr := hnode.trans hload
    rw [if_neg hne, hsize]
    refine Comp.ends_pure.mpr ⟨l₂, Nat.lt_succ_self _, .next a.addr, hrest, rfl, ?_⟩
    rw [← hmax, maxSize]
    congr 1
    dsimp only
    split <;> omega

/-- A request succeeds exactly up to the reported size. -/
def ExactLimit (h : Heap) (size : Nat) : Prop :=
  (nutHeapRootRegionAvailable h).Ends fun n => (nutHeapRootAlloc h size).Ends fun (p, _) => p ≠ 0 ↔ size ≤ n

theorem exactLimit_iff (h₁ : FreeList h l) (size : Nat) :
    ExactLimit h size ↔ ((∃ s ∈ l, allocNeed size ≤ s.size) ↔
      size ≤ (maxSize 0 l + (addrMod - 4)) % addrMod) := by
  obtain ⟨n, hret, hn⟩ := nutHeapRootRegionAvailable_spec h₁
  obtain ⟨⟨p, h'⟩, hret', hres⟩ := nutHeapRootAlloc_ends h₁ size
  have hp : p ≠ 0 ↔ ∃ s ∈ l, allocNeed size ≤ s.size := by
    rcases hres with ⟨rfl, -, hsmall⟩ | ⟨m₁, a, m₂, q, rfl, -, hbest, rfl, -⟩
    · refine iff_of_false (fun h0 => h0 rfl) ?_
      rintro ⟨s, hs, hle⟩
      exact absurd hle (Nat.not_le.mpr (hsmall s hs))
    · exact iff_of_true (Nat.succ_ne_zero _) ⟨a, by simp, hbest.fits⟩
  rw [← hn, ExactLimit, hret.ends_iff, hret'.ends_iff]
  exact iff_congr hp Iff.rfl

theorem maxSize_mem {n : Nat} : maxSize n l = n ∨ ∃ s ∈ l, maxSize n l = s.size := by
  induction l generalizing n with
  | nil => exact .inl rfl
  | cons s l ih =>
    rcases ih (n := max n s.size) with hm | ⟨t, ht, hm⟩
    · rw [maxSize, hm]
      rcases Nat.le_total n s.size with hle | hle
      · exact .inr ⟨s, List.mem_cons_self, Nat.max_eq_right hle⟩
      · exact .inl (Nat.max_eq_left hle)
    · exact .inr ⟨t, List.mem_cons_of_mem _ ht, hm⟩

/-- The largest of at least one node is a node's size. -/
theorem FreeList.maxSize_spec (h₁ : FreeList h l) (hne : l ≠ []) :
    maxSize 0 l % 4 = 0 ∧ 8 ≤ maxSize 0 l ∧ maxSize 0 l < addrMod := by
  obtain ⟨b, hb⟩ := List.exists_mem_of_ne_nil l hne
  have hge : 8 ≤ maxSize 0 l := le_maxSize_iff.mpr (.inr ⟨b, hb, (h₁.nodes b hb).size_ge⟩)
  rcases maxSize_mem (n := 0) (l := l) with hzero | ⟨s, hs, hm⟩
  · omega
  · have hfin : s.addr + s.size < addrMod := (h₁.nodes s hs).fin_lt
    exact ⟨hm ▸ (h₁.nodes s hs).size_mod, hge, by omega⟩

/-- With a free node the report is right, and without one it is wrong for every size. -/
theorem FreeList.exactLimit (h₁ : FreeList h l) (hsize : size + 7 < addrMod) :
    ExactLimit h size ↔ l ≠ [] := by
  rw [exactLimit_iff h₁]
  by_cases hl : l = []
  · subst hl
    refine iff_of_false (fun hiff => ?_) (fun hne => hne rfl)
    have hle : size ≤ (maxSize 0 [] + (addrMod - 4)) % addrMod := by
      unfold maxSize
      unfold addrMod at *
      omega
    obtain ⟨s, hs, -⟩ := hiff.mpr hle
    cases hs
  · obtain ⟨hmod, hge, hlt⟩ := h₁.maxSize_spec hl
    have hreport : (maxSize 0 l + (addrMod - 4)) % addrMod = maxSize 0 l - 4 := by
      unfold addrMod at *
      omega
    have hfits : (∃ s ∈ l, allocNeed size ≤ s.size) ↔ allocNeed size ≤ maxSize 0 l := by
      have hpos := (allocNeed_eq hsize).2.1
      rw [le_maxSize_iff, or_iff_right (by omega)]
    refine iff_of_true ?_ hl
    rw [hreport, hfits, allocNeed_max hsize]
    generalize maxSize 0 l = n at hmod hge
    omega

/-- A list without nodes is a NULL root. -/
theorem FreeList.root_eq_zero (h₁ : FreeList h l) : h.root = 0 ↔ l = [] := by
  cases l with
  | nil => exact iff_of_true h₁.chain rfl
  | cons a l =>
    have hroot : h.root = a.addr := h₁.chain.1
    exact iff_of_false (hroot ▸ h₁.chain.2.1) (by simp)

end BestFit

/-- In a reachable heap `NutHeapRootRegionAvailable` is the exact limit of a request that does not wrap if and
only if there is a free node. -/
theorem regionAvailable_exact_iff {s : HeapRun} {size : Nat} (h : Reachable HeapStep HeapRun.Empty s)
    (hsize : size + 7 < addrMod) : ExactLimit s.heap size ↔ s.heap.root ≠ 0 := by
  obtain ⟨l, hi⟩ := tiled_of_reachable h
  rw [hi.free.exactLimit hsize, Ne, Ne, hi.free.root_eq_zero]

/-- Two regions, of 64 and of 40 bytes: the largest request is one of 60, so that 58 bytes can be allocated
and 61 cannot. -/
theorem regionAvailable_exact_added :
    ∃ s : HeapRun, FreeList s.heap [⟨64, 64⟩, ⟨200, 40⟩] ∧ ExactLimit s.heap 58 ∧ ExactLimit s.heap 61 ∧
      (nutHeapRootRegionAvailable s.heap).Returns 60 := by
  have h0 : Reachable HeapStep HeapRun.Empty freshHeap := .init ⟨rfl, rfl, rfl⟩
  have h1 := h0.step (@HeapStep.add _ ⟨64, 64⟩ _ ⟨⟨rfl, rfl, by decide, by decide, by decide⟩,
    by simp [freshHeap]⟩ (Comp.returns_of_run 3 rfl))
  have hdisj : Seg.Disjoint ⟨200, 40⟩ ⟨64, 64⟩ := fun x hx hx' => by
    simp only [Seg.Has, Seg.fin] at hx hx'
    omega
  have h2 := h1.step (@HeapStep.add _ ⟨200, 40⟩ _ ⟨⟨rfl, rfl, by decide, by decide, by decide⟩,
    List.forall_mem_singleton.mpr hdisj⟩ (Comp.returns_of_run 4 rfl))
  have hroot : (64 : Nat) ≠ 0 := by decide
  refine ⟨_, ?_, (regionAvailable_exact_iff h2 (by decide)).mpr hroot,
    (regionAvailable_exact_iff h2 (by decide)).mpr hroot, Comp.returns_of_run 4 rfl⟩
  refine ⟨⟨rfl, by decide, rfl, rfl, by decide, rfl, rfl⟩, ?_, ?_⟩
  · simp only [List.forall_mem_cons, List.not_mem_nil, false_implies, implies_true, and_true]
    exact ⟨⟨rfl, rfl, by decide, by decide, by decide⟩, ⟨rfl, rfl, by decide, by decide, by decide⟩⟩
  · unfold Separated Seg.fin
    decide

/-- Before the first region nothing can be allocated, and the report is 4294967292. -/
theorem regionAvailable_empty : Reachable HeapStep HeapRun.Empty freshHeap ∧
    (nutHeapRootRegionAvailable freshHeap.heap).Returns 4294967292 ∧
    (nutHeapRootAlloc freshHeap.heap 16).Returns (0, freshHeap.heap) ∧
    ¬ ExactLimit freshHeap.heap 16 := by
  have hreport : (nutHeapRootRegionAvailable freshHeap.heap).Returns 4294967292 :=
    Comp.returns_of_run 3 rfl
  have halloc : (nutHeapRootAlloc freshHeap.heap 16).Returns (0, freshHeap.heap) :=
    Comp.returns_of_run 3 rfl
  refine ⟨.init ⟨rfl, rfl, rfl⟩, hreport, halloc, fun hlimit => ?_⟩
  rw [ExactLimit, hreport.ends_iff, halloc.ends_iff] at hlimit
  exact absurd (hlimit.mpr (by decide)) (by decide)

end V85x
