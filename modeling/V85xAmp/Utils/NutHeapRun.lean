import V85xAmp.Lib.Run
import V85xAmp.Utils.NutHeapRealloc

/-!
# Runs of the heap

The program adds regions, asks for blocks, gives them back and writes to those that it has (`Legal`). The
ghost state keeps the blocks in use and the regions. `Tiled` is the invariant: the free list and the blocks in
use cover the regions, each byte once. `Tiled.next` is the one argument for all operations: some blocks and
regions go into the free list or come out of it. `heap_tiles` reads the invariant at every reachable state.
-/

namespace V85x

open Firmware

/-- The heap, the blocks in use and the regions. -/
structure HeapRun where
  heap : Heap
  live : List Nat
  regions : List Seg

inductive HeapOp
  | add (region : Seg)
  | alloc (size : Nat)
  | free (block : Nat)
  | realloc (block size : Nat)
  | write (mem : Mem)

/-- The node of a block in use, with the size in its header. -/
def blockNode (h : Heap) (block : Nat) : Seg := ⟨nodeOfBlock block, h.hnSize (nodeOfBlock block)⟩

namespace HeapRun

def blocks (s : HeapRun) : List Seg := s.live.map (blockNode s.heap)

/-- No region yet; the memory is arbitrary. -/
def Empty (s : HeapRun) : Prop := s.heap.root = 0 ∧ s.live = [] ∧ s.regions = []

/-- The bytes of the heap that are not the program's. -/
def Owns (s : HeapRun) (x : Nat) : Prop :=
  (∃ r ∈ s.regions, r.Has x) ∧ ∀ block ∈ s.live, ¬ (block ≤ x ∧ x < (blockNode s.heap block).fin)

/-- What the program may do. -/
def Legal (s : HeapRun) : HeapOp → Prop
  | .add r => IsNode r ∧ ∀ t ∈ s.regions, r.Disjoint t
  | .alloc size => size + 16 < addrMod
  | .free block => block ∈ s.live
  | .realloc block size => (block = 0 ∨ block ∈ s.live) ∧ size + 16 < addrMod
  | .write mem => ∀ x, s.Owns x → mem x = s.heap.mem x

end HeapRun

/-- The blocks in use after a reallocation that returned `p`. -/
def reallocLive (live : List Nat) (block size p : Nat) : List Nat :=
  if block ≠ 0 ∧ size = 0 then live.erase block
  else if p = 0 then live
  else p :: live.erase block

inductive HeapStep : HeapRun → HeapOp → HeapRun → Prop
  | add {s : HeapRun} {r : Seg} {h' : Heap} : s.Legal (.add r) →
      (nutHeapRootAdd s.heap r.addr r.size).Returns h' →
      HeapStep s (.add r) { s with heap := h', regions := r :: s.regions }
  | alloc {s : HeapRun} {size p : Nat} {h' : Heap} : s.Legal (.alloc size) →
      (nutHeapRootAlloc s.heap size).Returns (p, h') →
      HeapStep s (.alloc size) { s with heap := h', live := if p = 0 then s.live else p :: s.live }
  | free {s : HeapRun} {block : Nat} {rc : Int} {h' : Heap} : s.Legal (.free block) →
      (nutHeapRootFree s.heap block).Returns (rc, h') →
      HeapStep s (.free block) { s with heap := h', live := s.live.erase block }
  | realloc {s : HeapRun} {block size p : Nat} {h' : Heap} : s.Legal (.realloc block size) →
      (nutHeapRootRealloc s.heap block size).Returns (p, h') →
      HeapStep s (.realloc block size) { s with heap := h', live := reallocLive s.live block size p }
  | write {s : HeapRun} {mem : Mem} : s.Legal (.write mem) →
      HeapStep s (.write mem) { s with heap := { s.heap with mem := mem } }

/-- The free list `l` and the blocks in use cover the regions once. -/
structure Tiled (s : HeapRun) (l : List Seg) : Prop where
  free : FreeList s.heap l
  nodes : ∀ p ∈ s.live, IsNode (blockNode s.heap p) ∧ p = nodeOfBlock p + 4
  tiles : ∀ x, cover l x + cover s.blocks x = cover s.regions x
  once : ∀ x, cover s.regions x ≤ 1

section Tiled

variable {s t : HeapRun} {h' : Heap} {l l' : List Seg} {b r : Seg} {p : Nat}

theorem blockNode_of_header (hb : IsNode b) (hsize : h'.hnSize b.addr = b.size) :
    blockNode h' (b.addr + 4) = b := by
  unfold blockNode
  rw [nodeOfBlock_eq hb, hsize]

theorem blockNode_congr {h : Heap}
    (hm : ∀ x, nodeOfBlock p ≤ x → x < nodeOfBlock p + 4 → h'.mem x = h.mem x) :
    blockNode h' p = blockNode h p := by
  unfold blockNode
  rw [Heap.hnSize_congr hm]

/-- Where the heap changes no memory but the free nodes', the blocks' `o` and the new regions' `g`, the other
blocks keep their headers. -/
theorem Tiled.keep {o rest : List Nat} {g : List Seg} (hi : Tiled s l) (hlive : s.live.Perm (o ++ rest))
    (honce : ∀ x, cover (g ++ s.regions) x ≤ 1)
    (hframe : ∀ x, cover l x = 0 → cover (o.map (blockNode s.heap)) x = 0 → cover g x = 0 →
      h'.mem x = s.heap.mem x) (hp : p ∈ rest) : blockNode h' p = blockNode s.heap p := by
  have hmem : p ∈ s.live := hlive.mem_iff.mpr (List.mem_append_right _ hp)
  refine blockNode_congr fun x hlo hhi => ?_
  have hhas : (blockNode s.heap p).Has x := (hi.nodes p hmem).1.has hlo (by
    show x < nodeOfBlock p + 8
    omega)
  have hpos : 0 < cover (rest.map (blockNode s.heap)) x :=
    cover_pos.mpr ⟨_, List.mem_map_of_mem hp, hhas⟩
  have h1 := hi.tiles x
  have h2 := honce x
  rw [HeapRun.blocks, cover_perm (hlive.map _), List.map_append, cover_append] at h1
  rw [cover_append] at h2
  exact hframe x (by omega) (by omega) (by omega)

/-- The blocks `o` in use and the new regions `g` give way to the blocks `n`, and the free list `l` to `l'`;
nothing else in the heap changes. -/
theorem Tiled.next {o rest : List Nat} {n g : List Seg} (hi : Tiled s l) (hlive : s.live.Perm (o ++ rest))
    (hf : FreeList h' l') (hn : ∀ b ∈ n, IsNode b ∧ h'.hnSize b.addr = b.size)
    (htiles : ∀ x, cover (o.map (blockNode s.heap)) x + cover l x + cover g x = cover n x + cover l' x)
    (honce : ∀ x, cover (g ++ s.regions) x ≤ 1)
    (hframe : ∀ x, cover l x = 0 → cover (o.map (blockNode s.heap)) x = 0 → cover g x = 0 →
      h'.mem x = s.heap.mem x) :
    Tiled ⟨h', n.map (fun b => b.addr + 4) ++ rest, g ++ s.regions⟩ l' := by
  have hcover : ∀ x, cover s.blocks x =
      cover (o.map (blockNode s.heap)) x + cover (rest.map (blockNode s.heap)) x := fun x => by
    rw [HeapRun.blocks, cover_perm (hlive.map _), List.map_append, cover_append]
  have hrest : ∀ p ∈ rest, p ∈ s.live := fun p hp => hlive.mem_iff.mpr (List.mem_append_right _ hp)
  have hkeep : ∀ p ∈ rest, blockNode h' p = blockNode s.heap p := fun p hp => hi.keep hlive honce hframe hp
  have hnew : (n.map fun b => b.addr + 4).map (blockNode h') = n := by
    rw [List.map_map]
    refine (List.map_congr_left fun b hb => ?_).trans (List.map_id n)
    exact blockNode_of_header (hn b hb).1 (hn b hb).2
  refine ⟨hf, fun p hp => ?_, fun x => ?_, honce⟩
  · rcases List.mem_append.mp hp with hp | hp
    · obtain ⟨b, hb, rfl⟩ := List.mem_map.mp hp
      obtain ⟨hnode, hsize⟩ := hn b hb
      rw [blockNode_of_header hnode hsize, nodeOfBlock_eq hnode]
      exact ⟨hnode, rfl⟩
    · rw [hkeep p hp]
      exact hi.nodes p (hrest p hp)
  · have h1 := hi.tiles x
    have h2 := htiles x
    rw [hcover] at h1
    rw [HeapRun.blocks, List.map_append, hnew, List.map_congr_left hkeep]
    simp only [cover_append]
    omega

/-- A block in use is not free. -/
theorem Tiled.cover_block (hi : Tiled s l) (hp : p ∈ s.live) {x : Nat} (hx : (blockNode s.heap p).Has x) :
    cover l x = 0 := by
  have hpos : 0 < cover s.blocks x := cover_pos.mpr ⟨_, List.mem_map_of_mem hp, hx⟩
  have h1 := hi.tiles x
  have h2 := hi.once x
  omega

/-- Two blocks in use have no byte in common. -/
theorem Tiled.blocks_apart (hi : Tiled s l) {q x : Nat} (hp : p ∈ s.live) (hq : q ∈ s.live) (hne : q ≠ p)
    (hx : (blockNode s.heap q).Has x) : ¬ (blockNode s.heap p).Has x := by
  intro hx'
  have hq' : q ∈ s.live.erase p := (List.mem_erase_of_ne hne).mpr hq
  have hone := count_le_cover (List.mem_map_of_mem (f := blockNode s.heap) hq') x
  have hsplit : cover s.blocks x =
      (blockNode s.heap p).count x + cover ((s.live.erase p).map (blockNode s.heap)) x := by
    rw [HeapRun.blocks, cover_perm ((List.perm_cons_erase hp).map _), List.map_cons, cover_cons]
  have h1 := hi.tiles x
  have h2 := hi.once x
  rw [Seg.count_eq_one.mpr hx] at hone
  rw [Seg.count_eq_one.mpr hx'] at hsplit
  omega

/-! ## The operations -/

/-- A new region meets neither the free list nor the other regions. -/
theorem Tiled.add_apart (hi : Tiled s l) (hl : s.Legal (.add r)) :
    (∀ x, r.Has x → cover l x = 0) ∧ ∀ x, cover ([r] ++ s.regions) x ≤ 1 := by
  have hnone : ∀ x, r.Has x → cover s.regions x = 0 := fun x hx =>
    cover_eq_zero.mpr fun t ht => hl.2 t ht x hx
  refine ⟨fun x hx => ?_, fun x => ?_⟩
  · have h1 := hi.tiles x
    have h2 := hnone x hx
    omega
  · have h1 := hi.once x
    rw [List.singleton_append, cover_cons]
    by_cases hx : r.Has x
    · rw [Seg.count_eq_one.mpr hx, hnone x hx]
    · rw [Seg.count_eq_zero.mpr hx]
      omega

theorem Tiled.add (hi : Tiled s l) (hl : s.Legal (.add r)) :
    (nutHeapRootAdd s.heap r.addr r.size).Ends fun h' =>
      ∃ l', Tiled { s with heap := h', regions := r :: s.regions } l' := by
  obtain ⟨hdisj, honce⟩ := hi.add_apart hl
  refine (nutHeapRootAdd_spec hi.free hl.1 hdisj).mono fun h' hf => ⟨insertSeg r l, ?_⟩
  refine hi.next (o := []) (n := []) (g := [r]) (.refl _) (hf.freeList hi.free hl.1 hdisj) (by simp)
    (fun x => ?_) honce fun x hx _ hrx => hf.frame x hx ?_
  · rw [cover_insertSeg]
    simp
    omega
  · rwa [cover_cons, cover_nil, Nat.add_zero, Seg.count_eq_zero] at hrx

/-- A block out of the free list goes into use. -/
theorem Tiled.taken (hi : Tiled s l) (ht : Taken s.heap h' l l' b) :
    Tiled { s with heap := h', live := (b.addr + 4) :: s.live } l' := by
  refine hi.next (o := []) (n := [b]) (g := []) (.refl _) ht.free (by simpa using ⟨ht.node, ht.header⟩)
    (fun x => ?_) hi.once fun x hx _ _ => ht.frame x hx
  have := ht.tiles x
  simp
  omega

/-- A block in use goes into the free list. -/
theorem Tiled.freed (hi : Tiled s l) (hp : p ∈ s.live) (hf : Freed s.heap h' l (blockNode s.heap p)) :
    Tiled { s with heap := h', live := s.live.erase p } (insertSeg (blockNode s.heap p) l) := by
  obtain ⟨hnode, -⟩ := hi.nodes p hp
  refine hi.next (o := [p]) (n := []) (g := []) (List.perm_cons_erase hp)
    (hf.freeList hi.free hnode fun x hx => hi.cover_block hp hx) (by simp) (fun x => ?_) hi.once
    fun x hx hbx _ => hf.frame x hx ?_
  · rw [cover_insertSeg]
    simp
  · rwa [List.map_singleton, cover_cons, cover_nil, Nat.add_zero, Seg.count_eq_zero] at hbx

/-- What `NutHeapRootFree` does with a block in use. -/
theorem Tiled.free_spec (hi : Tiled s l) (hp : p ∈ s.live) :
    (nutHeapRootFree s.heap p).Ends fun (rc, h') => rc = 0 ∧ Freed s.heap h' l (blockNode s.heap p) := by
  obtain ⟨hnode, hblock⟩ := hi.nodes p hp
  have hspec := nutHeapRootFree_spec hi.free hnode rfl fun x hx => hi.cover_block hp hx
  have haddr : (blockNode s.heap p).addr + 4 = p := hblock.symm
  rwa [haddr] at hspec

/-- A block in use moves. -/
theorem Tiled.moved (hi : Tiled s l) (hp : p ∈ s.live) (hm : Moved s.heap h' l l' (blockNode s.heap p) b) :
    Tiled { s with heap := h', live := (b.addr + 4) :: s.live.erase p } l' := by
  refine hi.next (o := [p]) (n := [b]) (g := []) (List.perm_cons_erase hp) hm.free
    (by simpa using ⟨hm.node, hm.header⟩) (fun x => ?_) hi.once fun x hx hbx _ => hm.frame x hx ?_
  · have := hm.tiles x
    simp
    omega
  · rwa [List.map_singleton, cover_cons, cover_nil, Nat.add_zero, Seg.count_eq_zero] at hbx

/-- What `NutHeapRootRealloc` does with a block in use and a size that is not 0. -/
theorem Tiled.realloc_spec (hi : Tiled s l) (hp : p ∈ s.live) {size : Nat} (hsize : size + 11 < addrMod)
    (hs : size ≠ 0) :
    (nutHeapRootRealloc s.heap p size).Ends fun (q, h') => (q = 0 ∧ h' = s.heap) ∨
      ∃ l' b', q = b'.addr + 4 ∧ allocNeed size ≤ b'.size ∧ Moved s.heap h' l l' (blockNode s.heap p) b' := by
  obtain ⟨hnode, hblock⟩ := hi.nodes p hp
  have hspec := nutHeapRootRealloc_spec hi.free hnode rfl (fun x hx => hi.cover_block hp hx) hsize hs
  have haddr : (blockNode s.heap p).addr + 4 = p := hblock.symm
  rwa [haddr] at hspec

theorem Tiled.alloc (hi : Tiled s l) {size : Nat} (hl : size + 16 < addrMod) :
    (nutHeapRootAlloc s.heap size).Ends fun (p, h') =>
      ∃ l', Tiled { s with heap := h', live := if p = 0 then s.live else p :: s.live } l' := by
  refine (nutHeapRootAlloc_spec hi.free (by omega)).mono ?_
  rintro ⟨p, h'⟩ halloc
  rcases halloc with ⟨rfl, rfl, -⟩ | ⟨l', b, rfl, -, ht⟩
  · exact ⟨l, hi⟩
  · refine ⟨l', ?_⟩
    rw [if_neg (Nat.succ_ne_zero _)]
    exact hi.taken ht

theorem Tiled.release (hi : Tiled s l) {block : Nat} (hp : block ∈ s.live) :
    (nutHeapRootFree s.heap block).Ends fun (rc, h') =>
      rc = 0 ∧ ∃ l', Tiled { s with heap := h', live := s.live.erase block } l' := by
  refine (hi.free_spec hp).mono ?_
  rintro ⟨rc, h'⟩ ⟨hrc, hf⟩
  exact ⟨hrc, _, hi.freed hp hf⟩

theorem Tiled.resize (hi : Tiled s l) {block size : Nat} (hl : s.Legal (.realloc block size)) :
    (nutHeapRootRealloc s.heap block size).Ends fun (p, h') =>
      ∃ l', Tiled { s with heap := h', live := reallocLive s.live block size p } l' := by
  obtain ⟨hp, hsize⟩ := hl
  have hzero : 0 ∉ s.live := fun h0 => by
    have := (hi.nodes 0 h0).2
    omega
  rcases hp with rfl | hp
  · -- `realloc(NULL, size)` is an allocation
    have hlive : ∀ p, reallocLive s.live 0 size p = if p = 0 then s.live else p :: s.live := fun p => by
      unfold reallocLive
      rw [if_neg (fun h => h.1 rfl), List.erase_of_not_mem hzero]
    simp only [hlive]
    exact hi.alloc hsize
  · have hne : block ≠ 0 := fun h => hzero (h ▸ hp)
    by_cases hs : size = 0
    · have hlive : ∀ p, reallocLive s.live block size p = s.live.erase block := fun p => if_pos ⟨hne, hs⟩
      simp only [hlive]
      unfold nutHeapRootRealloc
      rw [if_neg hne, if_pos hs]
      refine Comp.ends_bind.mpr ((hi.release hp).mono ?_)
      rintro ⟨rc, h'⟩ ⟨-, hnext⟩
      exact Comp.ends_pure.mpr hnext
    · refine (hi.realloc_spec hp (by omega) hs).mono ?_
      rintro ⟨p, h'⟩ hres
      rcases hres with ⟨rfl, rfl⟩ | ⟨l', b', rfl, -, hm⟩
      · refine ⟨l, ?_⟩
        have hlive : reallocLive s.live block size 0 = s.live := by
          unfold reallocLive
          rw [if_neg (fun h => hs h.2), if_pos rfl]
        rw [hlive]
        exact hi
      · refine ⟨l', ?_⟩
        have hlive : reallocLive s.live block size (b'.addr + 4) = (b'.addr + 4) :: s.live.erase block := by
          unfold reallocLive
          rw [if_neg (fun h => hs h.2), if_neg (Nat.succ_ne_zero _)]
        rw [hlive]
        exact hi.moved hp hm

/-- A header of a block in use is the heap's. -/
theorem Tiled.owns_header (hi : Tiled s l) (hp : p ∈ s.live) {x : Nat} (hlo : nodeOfBlock p ≤ x)
    (hhi : x < nodeOfBlock p + 4) : s.Owns x := by
  obtain ⟨hnode, hblock⟩ := hi.nodes p hp
  have hhas : (blockNode s.heap p).Has x := hnode.has hlo (by
    show x < nodeOfBlock p + 8
    omega)
  have hpos : 0 < cover s.blocks x := cover_pos.mpr ⟨_, List.mem_map_of_mem hp, hhas⟩
  have h1 := hi.tiles x
  refine ⟨cover_pos.mp (by omega), fun q hq huser => ?_⟩
  obtain ⟨-, hqblock⟩ := hi.nodes q hq
  rcases eq_or_ne q p with rfl | hne
  · omega
  · exact hi.blocks_apart hp hq hne ⟨by show nodeOfBlock q ≤ x; omega, huser.2⟩ hhas

theorem Tiled.write (hi : Tiled s l) {mem : Mem} (hl : s.Legal (.write mem)) :
    Tiled { s with heap := { s.heap with mem := mem } } l := by
  have hfree : ∀ x, 0 < cover l x → mem x = s.heap.mem x := fun x hx => by
    have h1 := hi.tiles x
    have h2 := hi.once x
    refine hl x ⟨cover_pos.mp (by omega), fun p hp huser => ?_⟩
    obtain ⟨-, hblock⟩ := hi.nodes p hp
    have hzero := hi.cover_block hp (x := x) ⟨by show nodeOfBlock p ≤ x; omega, huser.2⟩
    omega
  have hkeep : ∀ p ∈ s.live, blockNode { s.heap with mem := mem } p = blockNode s.heap p := fun p hp =>
    blockNode_congr fun x hlo hhi => hl x (hi.owns_header hp hlo hhi)
  refine ⟨hi.free.frame rfl hfree, fun p hp => ?_, fun x => ?_, hi.once⟩
  · rw [hkeep p hp]
    exact hi.nodes p hp
  · rw [HeapRun.blocks, List.map_congr_left hkeep]
    exact hi.tiles x

/-! ## What a step leaves -/

/-- A new region leaves the blocks in use where they are. -/
theorem Tiled.added (hi : Tiled s l) (hst : HeapStep s (.add r) t) :
    t.live = s.live ∧ t.regions = r :: s.regions ∧ ∀ q ∈ s.live, blockNode t.heap q = blockNode s.heap q := by
  cases hst with
  | @add _ h' hl hret =>
    obtain ⟨hdisj, honce⟩ := hi.add_apart hl
    have hf := (nutHeapRootAdd_spec hi.free hl.1 hdisj).of_returns hret
    refine ⟨rfl, rfl, fun q hq => hi.keep (o := []) (g := [r]) (.refl _) honce (fun x hx _ hrx => ?_) hq⟩
    rw [cover_cons, cover_nil, Nat.add_zero, Seg.count_eq_zero] at hrx
    exact hf.frame x hx hrx

/-- A successful allocation moves a block from the free list to the blocks in use. -/
theorem Tiled.allocated (hi : Tiled s l) {size : Nat} (hst : HeapStep s (.alloc size) t)
    (hp : t.live = p :: s.live) :
    ∃ l', Tiled t l' ∧ size + 4 ≤ (blockNode t.heap p).size ∧
      (∀ x, cover l x = (blockNode t.heap p).count x + cover l' x) ∧
      ∀ q ∈ s.live, blockNode t.heap q = blockNode s.heap q := by
  cases hst with
  | @alloc _ r h' hl hret =>
    have hsize : size + 16 < addrMod := hl
    have hmod : size + 7 < addrMod := by omega
    rcases (nutHeapRootAlloc_spec hi.free hmod).of_returns hret with
      ⟨rfl, -, -⟩ | ⟨l', b, rfl, hneed, ht⟩
    · simp at hp
    · rw [if_neg (Nat.succ_ne_zero _)] at hp ⊢
      obtain rfl : b.addr + 4 = p := (List.cons.inj hp).1
      have hblock : blockNode h' (b.addr + 4) = b := blockNode_of_header ht.node ht.header
      obtain ⟨-, -, hge, -⟩ := allocNeed_eq hmod
      refine ⟨l', hi.taken ht, ?_, fun x => ?_, fun q hq => ?_⟩
      · show size + 4 ≤ (blockNode h' _).size
        rw [hblock]
        omega
      · show cover l x = (blockNode h' _).count x + _
        rw [hblock]
        exact ht.tiles x
      · exact hi.keep (o := []) (g := []) (.refl _) hi.once (fun x hx _ _ => ht.frame x hx) hq

/-- A release moves it back. -/
theorem Tiled.released (hi : Tiled s l) (hst : HeapStep s (.free p) t) :
    ∃ l', Tiled t l' ∧ (∀ x, cover l' x = (blockNode s.heap p).count x + cover l x) ∧
      ∀ q ∈ t.live, blockNode t.heap q = blockNode s.heap q := by
  cases hst with
  | @free _ rc h' hl hret =>
    obtain ⟨-, hf⟩ := (hi.free_spec (show p ∈ s.live from hl)).of_returns hret
    refine ⟨_, hi.freed hl hf, fun x => by rw [cover_insertSeg], fun q hq => ?_⟩
    refine hi.keep (o := [p]) (g := []) (List.perm_cons_erase hl) hi.once (fun x hx hbx _ => ?_) hq
    rw [List.map_singleton, cover_cons, cover_nil, Nat.add_zero, Seg.count_eq_zero] at hbx
    exact hf.frame x hx hbx

/-- A store of the program changes no header. -/
theorem Tiled.written (hi : Tiled s l) {mem : Mem} (hst : HeapStep s (.write mem) t) :
    Tiled t l ∧ t.live = s.live ∧ ∀ q ∈ s.live, blockNode t.heap q = blockNode s.heap q := by
  cases hst with
  | write hl =>
    refine ⟨hi.write hl, rfl, fun q hq => ?_⟩
    exact blockNode_congr fun x hlo hhi => hl x (hi.owns_header hq hlo hhi)

/-! ## Runs -/

/-- Every operation that the program may do ends. -/
theorem Tiled.progress (hi : Tiled s l) {op : HeapOp} (hl : s.Legal op) : ∃ t, HeapStep s op t := by
  cases op with
  | add r =>
    obtain ⟨h', hret, -⟩ := hi.add hl
    exact ⟨_, .add hl hret⟩
  | alloc size =>
    obtain ⟨⟨p, h'⟩, hret, -⟩ := hi.alloc hl
    exact ⟨_, .alloc hl hret⟩
  | free block =>
    obtain ⟨⟨rc, h'⟩, hret, -⟩ := hi.release hl
    exact ⟨_, .free hl hret⟩
  | realloc block size =>
    obtain ⟨⟨p, h'⟩, hret, -⟩ := hi.resize hl
    exact ⟨_, .realloc hl hret⟩
  | write mem => exact ⟨_, .write hl⟩

theorem Tiled.step {op : HeapOp} (hi : Tiled s l) (hst : HeapStep s op t) : ∃ l', Tiled t l' := by
  cases hst with
  | add hl hret => exact (hi.add hl).of_returns hret
  | alloc hl hret => exact (hi.alloc hl).of_returns hret
  | free hl hret => exact ((hi.release hl).of_returns hret).2
  | realloc hl hret => exact (hi.resize hl).of_returns hret
  | write hl => exact ⟨l, hi.write hl⟩

theorem tiled_of_empty (h : s.Empty) : Tiled s [] := by
  obtain ⟨hroot, hlive, hregions⟩ := h
  refine ⟨⟨hroot, by simp, .nil⟩, by simp [hlive], ?_, ?_⟩
  · simp [HeapRun.blocks, hlive, hregions]
  · simp [hregions]

theorem tiled_of_reachable (h : Reachable HeapStep HeapRun.Empty s) : ∃ l, Tiled s l := by
  induction h with
  | init h => exact ⟨[], tiled_of_empty h⟩
  | step _ hst ih =>
    obtain ⟨l, hi⟩ := ih
    exact hi.step hst

/-- The steps of a run that only adds regions. -/
def AddStep (s : HeapRun) (op : HeapOp) (t : HeapRun) : Prop := HeapStep s op t ∧ ∃ r, op = .add r

theorem reachable_of_adds (h : Reachable AddStep HeapRun.Empty s) :
    Reachable HeapStep HeapRun.Empty s ∧ s.live = [] := by
  induction h with
  | init h => exact ⟨.init h, h.2.1⟩
  | step _ hst ih =>
    obtain ⟨hst, r, rfl⟩ := hst
    refine ⟨ih.1.step hst, ?_⟩
    cases hst
    exact ih.2

/-- The regions of a run can be added without the rest of it. -/
theorem exists_adds (h : Reachable HeapStep HeapRun.Empty s) :
    ∃ u, Reachable AddStep HeapRun.Empty u ∧ u.regions = s.regions := by
  induction h with
  | @init s h => exact ⟨s, .init h, rfl⟩
  | step _ hst ih =>
    obtain ⟨u, hu, hregions⟩ := ih
    cases hst with
    | add hl hret =>
      obtain ⟨l, hi⟩ := tiled_of_reachable (reachable_of_adds hu).1
      have hl' : u.Legal (.add _) := ⟨hl.1, by rw [hregions]; exact hl.2⟩
      obtain ⟨h', hret', -⟩ := hi.add hl'
      exact ⟨_, hu.step ⟨.add hl' hret', _, rfl⟩, by simp [hregions]⟩
    | alloc => exact ⟨u, hu, hregions⟩
    | free => exact ⟨u, hu, hregions⟩
    | realloc => exact ⟨u, hu, hregions⟩
    | write => exact ⟨u, hu, hregions⟩

/-- Without blocks in use the free list is determined by the regions. -/
theorem Tiled.ext (hi : Tiled s l) (hi' : Tiled t l') (hs : s.live = []) (ht : t.live = [])
    (hregions : t.regions = s.regions) : l = l' := by
  refine hi.free.separated.ext hi'.free.separated (fun n hn => (hi.free.nodes n hn).size_pos)
    (fun n hn => (hi'.free.nodes n hn).size_pos) fun x => ?_
  have h1 := hi.tiles x
  have h2 := hi'.tiles x
  rw [HeapRun.blocks, hs] at h1
  rw [HeapRun.blocks, ht, hregions] at h2
  exact h1.trans h2.symm

end Tiled

/-- What holds between the operations: `l` is the free list. -/
structure HeapOk (s : HeapRun) (l : List Seg) : Prop where
  freeList : Chain s.heap .root l
  ascending : l.Pairwise fun a b => a.addr < b.addr
  aligned : ∀ n ∈ l, n.size % 4 = 0 ∧ 8 ≤ n.size
  coalesced : ∀ a ∈ l, ∀ b ∈ l, a.fin ≠ b.addr
  /-- The free nodes and the blocks in use do not overlap, and have every byte of the regions. -/
  apart : (l ++ s.blocks).Pairwise Seg.Disjoint
  complete : ∀ x, (∃ n ∈ l ++ s.blocks, n.Has x) ↔ ∃ r ∈ s.regions, r.Has x
  /-- Whatever the program does next, the operation ends. -/
  returns : ∀ op, s.Legal op → ∃ t, HeapStep s op t
  /-- Without blocks in use the free list is the one of a run that only adds the same regions. -/
  restored : s.live = [] → (∃ u, Reachable AddStep HeapRun.Empty u ∧ u.regions = s.regions) ∧
    ∀ u, Reachable AddStep HeapRun.Empty u → u.regions = s.regions → Chain u.heap .root l

theorem Tiled.heapOk {s : HeapRun} {l : List Seg} (hi : Tiled s l)
    (h : Reachable HeapStep HeapRun.Empty s) : HeapOk s l := by
  have hcover : ∀ x, cover (l ++ s.blocks) x = cover s.regions x := fun x => by
    rw [cover_append, hi.tiles]
  have hpos : ∀ n ∈ l, 0 < n.size := fun n hn => (hi.free.nodes n hn).size_pos
  refine ⟨hi.free.chain, hi.free.separated.imp fun {a b} hlt => ?_,
    fun n hn => ⟨(hi.free.nodes n hn).size_mod, (hi.free.nodes n hn).size_ge⟩,
    fun a ha b hb => hi.free.separated.fin_ne hpos ha hb, pairwise_disjoint_of_cover fun x => ?_, fun x => ?_,
    fun op => hi.progress, fun hlive => ⟨exists_adds h, fun u hu hregions => ?_⟩⟩
  · exact Nat.lt_of_le_of_lt (Nat.le_add_right _ _) hlt
  · rw [hcover]
    exact hi.once x
  · rw [← cover_pos, hcover, cover_pos]
  · obtain ⟨hreach, hnone⟩ := reachable_of_adds hu
    obtain ⟨lu, hiu⟩ := tiled_of_reachable hreach
    rw [hi.ext hiu hlive hnone hregions]
    exact hiu.free.chain

/-- After every operation of a run the free list and the blocks in use tile the regions. -/
theorem heap_tiles {s : HeapRun} (h : Reachable HeapStep HeapRun.Empty s) : ∃ l, HeapOk s l := by
  obtain ⟨l, hi⟩ := tiled_of_reachable h
  exact ⟨l, hi.heapOk h⟩

/-- A heap before the first region. -/
def freshHeap : HeapRun := ⟨⟨0, fun _ => 0#8⟩, [], []⟩

/-- Two blocks in a region of 64 bytes; the first is released and the second grows where it is. -/
theorem heap_tiles_grow : ∃ s, s.live = [84] ∧ s.regions = [⟨64, 64⟩] ∧ s.blocks = [⟨80, 24⟩] ∧
    ∃ l, HeapOk s l := by
  have h0 : Reachable HeapStep HeapRun.Empty freshHeap := .init ⟨rfl, rfl, rfl⟩
  have h1 := h0.step (@HeapStep.add _ ⟨64, 64⟩ _ ⟨⟨rfl, rfl, by decide, by decide, by decide⟩,
    by simp [freshHeap]⟩ (Comp.returns_of_run 3 rfl))
  have h2 := h1.step (@HeapStep.alloc _ 10 68 _ (show 10 + 16 < addrMod by decide)
    (Comp.returns_of_run 3 rfl))
  have h3 := h2.step (@HeapStep.alloc _ 4 84 _ (show 4 + 16 < addrMod by decide)
    (Comp.returns_of_run 3 rfl))
  have h4 := h3.step (@HeapStep.free _ 68 0 _ (show 68 ∈ [84, 68] by decide) (Comp.returns_of_run 3 rfl))
  have h5 := h4.step (@HeapStep.realloc _ 84 20 84 _
    ⟨.inr (show 84 ∈ [84] by decide), show 20 + 16 < addrMod by decide⟩ (Comp.returns_of_run 3 rfl))
  exact ⟨_, by decide, by decide, by decide, heap_tiles h5⟩

end V85x
