import V85xAmp.Lib.Comp
import V85xAmp.Lib.Mem

/-!
# The heap (`utils/nutheap.c`)

The build without `NUTDEBUG_HEAP` and `NUTMEM_GUARD` on RV32: a `HEAPNODE` is two words, the size of the node
and the link to the next free node, and the size of a block in use stays in front of it. Addresses are
natural numbers below `2 ^ 32`, 0 is NULL, and arithmetic on them is modulo `2 ^ 32`; a store keeps the low
32 bits of its value. The walks along the free list are loops, which do not end on a list that goes round.
-/

namespace V85x

open Firmware

/-- The word size of addresses. -/
abbrev addrMod : Nat := 2 ^ 32

/-- `sizeof(HEAPNODE)` -/
def sizeofHeapnode : Nat := 8

/-- `NUT_HEAP_OVERHEAD` -/
def nutHeapOverhead : Nat := 4

/-- `NUTMEM_HEAPNODE_MIN` -/
def nutmemHeapnodeMin : Nat := sizeofHeapnode

/-- `NUTMEM_BOTTOM_ALIGN` -/
def nutmemBottomAlign (s : Nat) : Nat := s / 4 * 4

/-- `NUTMEM_TOP_ALIGN` -/
def nutmemTopAlign (s : Nat) : Nat := nutmemBottomAlign ((s + 3) % addrMod)

/-- `heapFreeList` and the memory. -/
structure Heap where
  root : Nat
  mem : Mem

/-- A `HEAPNODE **`: `root` itself or the address of the link in a node. -/
inductive Npp
  | root
  | next (node : Nat)
deriving Repr, DecidableEq

namespace Heap

def hnSize (h : Heap) (node : Nat) : Nat := load32 h.mem node

def hnNext (h : Heap) (node : Nat) : Nat := load32 h.mem (node + 4)

def setHnSize (h : Heap) (node v : Nat) : Heap := { h with mem := store32 h.mem node v }

def setHnNext (h : Heap) (node v : Nat) : Heap := { h with mem := store32 h.mem (node + 4) v }

/-- `*npp` -/
def load (h : Heap) : Npp → Nat
  | .root => h.root
  | .next node => h.hnNext node

/-- `*npp = v` -/
def store (h : Heap) (npp : Npp) (v : Nat) : Heap :=
  match npp with
  | .root => { h with root := v }
  | .next node => h.setHnNext node v

end Heap

/-- `PrepareUserArea` -/
def prepareUserArea (node : Nat) : Nat := (node + nutHeapOverhead) % addrMod

/-- The node of a block. -/
def nodeOfBlock (block : Nat) : Nat := (block + (addrMod - nutHeapOverhead)) % addrMod

/-! ## `NutHeapRootAlloc` -/

/-- The size of the node for a request. -/
def allocNeed (size : Nat) : Nat :=
  let need := (size + nutHeapOverhead) % addrMod
  nutmemTopAlign (if need < sizeofHeapnode then sizeofHeapnode else need)

/-- The variables of the search. `fpp` is NULL until there is a fit. -/
structure AllocWalk where
  node : Nat
  npp : Npp
  fit : Nat
  fpp : Npp

/-- One iteration of the search for the best fit: the result is `fit` and `fpp`. -/
def allocWalkStep (h : Heap) (need : Nat) (w : AllocWalk) : Comp (AllocWalk ⊕ (Nat × Npp)) :=
  if w.node = 0 then pure (.inr (w.fit, w.fpp))
  else if need ≤ h.hnSize w.node ∧ (w.fit = 0 ∨ h.hnSize w.node < h.hnSize w.fit) then
    if h.hnSize w.node = need then pure (.inr (w.node, w.npp))
    else pure (.inl ⟨h.hnNext w.node, .next w.node, w.node, w.npp⟩)
  else pure (.inl ⟨h.hnNext w.node, .next w.node, w.fit, w.fpp⟩)

/-- Take the node `fit` out of the list, or its first `need` bytes. -/
def allocTake (h : Heap) (need fit : Nat) (fpp : Npp) : Heap :=
  if nutmemHeapnodeMin ≤ h.hnSize fit - need then
    let node := (fit + need) % addrMod
    let h := h.setHnSize node (h.hnSize fit - need)
    let h := h.setHnNext node (h.hnNext fit)
    let h := h.setHnSize fit need
    h.store fpp node
  else h.store fpp (h.hnNext fit)

def nutHeapRootAlloc (h : Heap) (size : Nat) : Comp (Nat × Heap) := do
  let need := allocNeed size
  let (fit, fpp) ← Comp.loop (allocWalkStep h need) ⟨h.root, .root, 0, .root⟩
  if fit = 0 then return (0, h)
  else return (prepareUserArea fit, allocTake h need fit fpp)

/-! ## `NutHeapRootFree` -/

/-- The node `fnode` directly behind `node`. -/
def freeMerge (h : Heap) (node fnode : Nat) : Heap :=
  let h := h.setHnSize node (h.hnSize node + h.hnSize fnode)
  if (node + h.hnSize node) % addrMod = h.hnNext node then
    let next := h.hnNext node
    let h := h.setHnSize node (h.hnSize node + h.hnSize next)
    h.setHnNext node (h.hnNext next)
  else h

/-- The node `fnode` between the link `npp` and `node`. -/
def freeLink (h : Heap) (npp : Npp) (node fnode : Nat) : Heap :=
  let h := h.store npp fnode
  if (fnode + h.hnSize fnode) % addrMod = node then
    let h := h.setHnSize fnode (h.hnSize fnode + h.hnSize node)
    h.setHnNext fnode (h.hnNext node)
  else h.setHnNext fnode node

/-- One iteration of the search for the place of `fnode`. -/
def freeStep (h : Heap) (fnode : Nat) (w : Nat × Npp) : Comp ((Nat × Npp) ⊕ (Int × Heap)) :=
  let (node, npp) := w
  if node = 0 then pure (.inr (0, (h.setHnNext fnode 0).store npp fnode))
  else if (node + h.hnSize node) % addrMod = fnode then pure (.inr (0, freeMerge h node fnode))
  else if fnode < node then pure (.inr (0, freeLink h npp node fnode))
  else if fnode < (node + h.hnSize node) % addrMod then pure (.inr (-1, h))
  else pure (.inl (h.hnNext node, .next node))

def nutHeapRootFree (h : Heap) (block : Nat) : Comp (Int × Heap) :=
  if block = 0 then pure (-3, h)
  else Comp.loop (freeStep h (nodeOfBlock block)) (h.root, .root)

/-! ## `NutHeapRootAdd` -/

def nutHeapRootAdd (h : Heap) (addr size : Nat) : Comp Heap := do
  let node := nutmemTopAlign addr
  let skipped := (node + (addrMod - addr)) % addrMod
  let h := h.setHnSize node (nutmemBottomAlign ((size + (addrMod - skipped)) % addrMod))
  let (_, h) ← nutHeapRootFree h (prepareUserArea node)
  return h

/-! ## `NutHeapRootRegionAvailable` -/

/-- One node, or the result: the largest size less the overhead. -/
def regionStep (h : Heap) (w : Nat × Nat) : Comp ((Nat × Nat) ⊕ Nat) :=
  let (rc, node) := w
  if node = 0 then pure (.inr ((rc + (addrMod - nutHeapOverhead)) % addrMod))
  else pure (.inl (if rc < h.hnSize node then h.hnSize node else rc, h.hnNext node))

def nutHeapRootRegionAvailable (h : Heap) : Comp Nat := Comp.loop (regionStep h) (0, h.root)

/-! ## `NutHeapRootRealloc` -/

/-- One iteration of the search for the first free node behind `fnode`. -/
def reallocStep (h : Heap) (fnode : Nat) (w : Nat × Npp) : Comp ((Nat × Npp) ⊕ (Nat × Npp)) :=
  let (node, npp) := w
  if node ≠ 0 ∧ node < fnode then pure (.inl (h.hnNext node, .next node)) else pure (.inr (node, npp))

/-- Take `miss` bytes at the start of the free node `node`, directly behind `fnode`, or all of it. -/
def reallocGrow (h : Heap) (miss node : Nat) (npp : Npp) (fnode : Nat) : Heap :=
  if nutmemHeapnodeMin ≤ h.hnSize node - miss then
    let h := h.setHnSize fnode (h.hnSize fnode + miss)
    let h := h.store npp ((node + miss) % addrMod)
    let h := h.setHnNext (h.load npp) (h.hnNext node)
    h.setHnSize (h.load npp) (h.hnSize node - miss)
  else
    let h := h.setHnSize fnode (h.hnSize fnode + h.hnSize node)
    h.store npp (h.hnNext node)

/-- Copy the block into a new one and free the old one. -/
def reallocMove (h : Heap) (block fnode size : Nat) : Comp (Nat × Heap) := do
  let (newmem, h) ← nutHeapRootAlloc h size
  if newmem = 0 then return (0, h)
  else
    let h := { h with mem := copyBytes h.mem newmem block (h.hnSize fnode - nutHeapOverhead) }
    let (_, h) ← nutHeapRootFree h block
    return (newmem, h)

/-- Expansion to a node of `size` bytes. -/
def reallocExpand (h : Heap) (block fnode size : Nat) : Comp (Nat × Heap) := do
  let miss := size - h.hnSize fnode
  let (node, npp) ← Comp.loop (reallocStep h fnode) (h.root, .root)
  if node ≠ 0 ∧ miss ≤ h.hnSize node ∧ (fnode + h.hnSize fnode) % addrMod = node then
    return (block, reallocGrow h miss node npp fnode)
  else reallocMove h block fnode size

/-- Reduction to a node of `size` bytes. -/
def reallocReduce (h : Heap) (block fnode size : Nat) : Comp (Nat × Heap) :=
  if size < (h.hnSize fnode + (addrMod - nutmemHeapnodeMin)) % addrMod then do
    let node := (fnode + size) % addrMod
    let h := h.setHnSize node (h.hnSize fnode - size)
    let (_, h) ← nutHeapRootFree h (prepareUserArea node)
    return (block, h.setHnSize fnode size)
  else pure (block, h)

def nutHeapRootRealloc (h : Heap) (block size : Nat) : Comp (Nat × Heap) :=
  if block = 0 then nutHeapRootAlloc h size
  else if size = 0 then do
    let (rc, h) ← nutHeapRootFree h block
    return (if rc ≠ 0 then 0 else block, h)
  else
    let fnode := nodeOfBlock block
    let size := allocNeed size
    if h.hnSize fnode < size then reallocExpand h block fnode size
    else reallocReduce h block fnode size

/-! ## Aligned blocks -/

/-- The `offset` of `NutHeapAllocAligned`. -/
def alignedOffset (alignment : Nat) : Nat := (alignment + (addrMod - 1) + 4) % addrMod

/-- The `p2` of `NutHeapAllocAligned`. -/
def alignedPointer (p1 alignment : Nat) : Nat :=
  (p1 + alignedOffset alignment) % addrMod &&& (addrMod - 1 - (alignment + (addrMod - 1)) % addrMod)

/-- `&((void **)p)[-1]` -/
def hiddenWord (p : Nat) : Nat := (p + (addrMod - 4)) % addrMod

/-- `NutHeapAllocAligned`: the address of the block is kept in front of the aligned pointer. -/
def nutHeapAllocAligned (h : Heap) (size alignment : Nat) : Comp (Nat × Heap) := do
  let (p1, h) ← nutHeapRootAlloc h ((size + alignedOffset alignment) % addrMod)
  if p1 = 0 then return (0, h)
  else
    let p2 := alignedPointer p1 alignment
    return (p2, { h with mem := store32 h.mem (hiddenWord p2) p1 })

/-- `NutHeapFreeAligned` -/
def nutHeapFreeAligned (h : Heap) (pointer : Nat) : Comp Heap := do
  let (_, h) ← nutHeapRootFree h (load32 h.mem (hiddenWord pointer))
  return h

end V85x
