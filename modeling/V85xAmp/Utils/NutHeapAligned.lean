import V85xAmp.Utils.NutHeapRun

/-!
# Aligned blocks

`NutHeapAllocAligned` asks for room for the alignment and a word, rounds the end of this room down to the
alignment, and keeps the address of the block in the word in front (`alignedPointer_spec`). The word survives
whatever the program does with other blocks (`AlignedStep.kept`), and so `NutHeapFreeAligned` releases
exactly the block (`allocAligned_spec`).
-/

namespace V85x

open Firmware

/-! ## The pointer -/

/-- To clear the low bits is to round down. -/
theorem and_two_pow_sub {n k x : Nat} (hk : k ≤ n) (hx : x < 2 ^ n) :
    x &&& (2 ^ n - 2 ^ k) = x / 2 ^ k * 2 ^ k := by
  have hmask : 2 ^ n - 2 ^ k = (2 ^ (n - k) - 1) <<< k := by
    rw [Nat.shiftLeft_eq, Nat.sub_mul, ← Nat.pow_add, Nat.sub_add_cancel hk, Nat.one_mul]
  rw [hmask, ← Nat.shiftRight_eq_div_pow, ← Nat.shiftLeft_eq]
  apply Nat.eq_of_testBit_eq
  intro i
  rw [Nat.testBit_and, Nat.testBit_shiftLeft, Nat.testBit_shiftLeft, Nat.testBit_two_pow_sub_one,
    Nat.testBit_shiftRight]
  by_cases hi : k ≤ i
  · by_cases hin : i < n
    · simp [hi, show i - k < n - k by omega, Nat.add_sub_cancel' hi]
    · have hzero : x.testBit i = false :=
        Nat.testBit_lt_two_pow (Nat.lt_of_lt_of_le hx (Nat.pow_le_pow_right (by decide) (by omega)))
      simp [hi, hzero, Nat.add_sub_cancel' hi]
  · simp [hi]

theorem alignedOffset_eq {a : Nat} (hpos : 0 < a) (ha : a + 3 < addrMod) : alignedOffset a = a + 3 := by
  unfold alignedOffset
  unfold addrMod at *
  omega

/-- The aligned pointer lies behind the word for the block, and not behind the room that was asked for. -/
theorem alignedPointer_spec {p1 k : Nat} (hp : p1 % 4 = 0) (hk : k < 32) (hlt : p1 + (2 ^ k + 3) < addrMod) :
    alignedPointer p1 (2 ^ k) % 2 ^ k = 0 ∧ (alignedPointer p1 (2 ^ k) - 4) % 4 = 0 ∧
      p1 + 4 ≤ alignedPointer p1 (2 ^ k) ∧ alignedPointer p1 (2 ^ k) ≤ p1 + (2 ^ k + 3) := by
  have hpos : 0 < 2 ^ k := Nat.two_pow_pos k
  have hmask : addrMod - 1 - (2 ^ k + (addrMod - 1)) % addrMod = 2 ^ 32 - 2 ^ k := by
    have hle : 2 ^ k < addrMod := Nat.lt_of_le_of_lt (by omega) hlt
    generalize 2 ^ k = a at *
    unfold addrMod at *
    omega
  have heq : alignedPointer p1 (2 ^ k) = (p1 + (2 ^ k + 3)) / 2 ^ k * 2 ^ k := by
    unfold alignedPointer
    rw [alignedOffset_eq hpos (by omega), hmask, Nat.mod_eq_of_lt hlt, and_two_pow_sub (by omega) hlt]
  have hdiv := Nat.div_add_mod (p1 + (2 ^ k + 3)) (2 ^ k)
  have hmod := Nat.mod_lt (p1 + (2 ^ k + 3)) hpos
  rw [Nat.mul_comm, ← heq] at hdiv
  refine ⟨heq ▸ Nat.mul_mod_left _ _, ?_, by omega, by omega⟩
  -- an alignment below that of a word leaves the pointer directly behind the word
  rcases k with _ | _ | k
  · simp at hdiv hmod
    omega
  · simp at hdiv hmod
    omega
  · have hfour : alignedPointer p1 (2 ^ (k + 1 + 1)) % 4 = 0 := by
      rw [heq, show 2 ^ (k + 1 + 1) = 2 ^ k * 4 by rw [pow_succ, pow_succ]; omega, ← Nat.mul_assoc]
      exact Nat.mul_mod_left _ _
    omega

/-! ## What other operations leave -/

/-- The operation does not release or resize the block `p`. -/
def HeapOp.Spares (p : Nat) : HeapOp → Prop
  | .free block => block ≠ p
  | .realloc block _ => block ≠ p
  | _ => True

section Spared

variable {s t : HeapRun} {l : List Seg} {op : HeapOp} {p x : Nat}

theorem mem_reallocLive {live : List Nat} {block size q : Nat} (hp : p ∈ live) (hne : block ≠ p) :
    p ∈ reallocLive live block size q := by
  have herase : p ∈ live.erase block := (List.mem_erase_of_ne hne.symm).mpr hp
  unfold reallocLive
  split
  · exact herase
  · split
    · exact hp
    · exact List.mem_cons_of_mem _ herase

/-- Heap operations on other blocks change no byte of a block in use. -/
theorem Tiled.spared (hi : Tiled s l) (hst : HeapStep s op t) (hp : p ∈ s.live) (hop : op.Spares p)
    (hwrite : ∀ mem, op = .write mem → mem x = s.heap.mem x) (hx : (blockNode s.heap p).Has x) :
    p ∈ t.live ∧ t.heap.mem x = s.heap.mem x := by
  have hfree := hi.cover_block hp hx
  have hother : ∀ q ∈ s.live, q ≠ p → ¬ (blockNode s.heap q).Has x := fun q hq hne hq' =>
    hi.blocks_apart hp hq hne hq' hx
  cases hst with
  | @add r h' hl hret =>
    obtain ⟨hdisj, honce⟩ := hi.add_apart hl
    refine ⟨hp, ((nutHeapRootAdd_spec hi.free hl.1 hdisj).of_returns hret).frame x hfree fun hrx => ?_⟩
    have h1 := honce x
    have h2 := hi.tiles x
    have h3 := count_le_cover (List.mem_map_of_mem (f := blockNode s.heap) hp) x
    rw [List.singleton_append, cover_cons, Seg.count_eq_one.mpr hrx] at h1
    rw [Seg.count_eq_one.mpr hx] at h3
    replace h3 : 1 ≤ cover s.blocks x := h3
    omega
  | @alloc size q h' hl hret =>
    have hsize : size + 16 < addrMod := hl
    rcases (nutHeapRootAlloc_spec hi.free (by omega)).of_returns hret with
      ⟨rfl, rfl, -⟩ | ⟨l', b, rfl, -, ht⟩
    · exact ⟨hp, rfl⟩
    · rw [if_neg (Nat.succ_ne_zero _)]
      exact ⟨List.mem_cons_of_mem _ hp, ht.frame x hfree⟩
  | @free block rc h' hl hret =>
    obtain ⟨-, hf⟩ := (hi.free_spec hl).of_returns hret
    have hne : block ≠ p := hop
    exact ⟨(List.mem_erase_of_ne hne.symm).mpr hp, hf.frame x hfree (hother block hl hne)⟩
  | @realloc block size q h' hl hret =>
    have hne : block ≠ p := hop
    refine ⟨mem_reallocLive hp hne, ?_⟩
    obtain ⟨hblock, hsize⟩ := hl
    rcases hblock with rfl | hblock
    · rcases (nutHeapRootAlloc_spec hi.free (by omega)).of_returns hret with
        ⟨-, rfl, -⟩ | ⟨l', b, -, -, ht⟩
      · rfl
      · exact ht.frame x hfree
    · by_cases hs : size = 0
      · have hb0 : block ≠ 0 := fun h0 => by
          have := (hi.nodes block hblock).2
          omega
        unfold nutHeapRootRealloc at hret
        rw [if_neg hb0, if_pos hs] at hret
        obtain ⟨⟨rc, h₂⟩, hfreed, hret⟩ := Comp.returns_bind.mp hret
        obtain ⟨-, rfl⟩ := Prod.mk.inj (Comp.returns_pure.mp hret)
        exact ((hi.free_spec hblock).of_returns hfreed).2.frame x hfree (hother block hblock hne)
      · rcases (hi.realloc_spec hblock (by omega) hs).of_returns hret with ⟨-, rfl⟩ | ⟨l', b, -, -, hm⟩
        · rfl
        · exact hm.frame x hfree (hother block hblock hne)
  | @write mem hl => exact ⟨hp, hwrite mem rfl⟩

end Spared

/-! ## The word in front of the pointer -/

/-- A step between the allocation of the aligned block `p`, which is in the block `p1`, and its release: any
operation on other blocks, and any stores that the program may do but to the word in front of `p`. -/
structure AlignedStep (p1 p : Nat) (s : HeapRun) (op : HeapOp) (t : HeapRun) : Prop where
  step : HeapStep s op t
  spares : op.Spares p1
  word : ∀ mem, op = .write mem → ∀ x, p - 4 ≤ x → x < p → mem x = s.heap.mem x

/-- The block is in use, and the word in front of the pointer has its address. -/
structure Kept (p1 p : Nat) (b : Seg) (s : HeapRun) : Prop where
  tiled : ∃ l, Tiled s l
  live : p1 ∈ s.live
  block : blockNode s.heap p1 = b
  word : load32 s.heap.mem (p - 4) = p1

/-- The release of the block `p1`, which has the memory `b`, and nothing else. -/
def FreesExactly (s : HeapRun) (h' : Heap) (p1 : Nat) (b : Seg) : Prop :=
  p1 ∈ s.live ∧ blockNode s.heap p1 = b ∧
    ∃ l, Tiled s l ∧ Tiled { s with heap := h', live := s.live.erase p1 } (insertSeg b l) ∧
      ∀ q ∈ s.live.erase p1, blockNode h' q = blockNode s.heap q

section Kept

variable {s t : HeapRun} {l : List Seg} {op : HeapOp} {p p1 : Nat} {b : Seg}

theorem HeapStep.legal (hst : HeapStep s op t) : s.Legal op := by
  cases hst <;> assumption

theorem AlignedStep.kept (hst : AlignedStep p1 p s op t) (hs : Kept p1 p b s) (hlo : b.addr + 8 ≤ p)
    (hhi : p ≤ b.fin) : Kept p1 p b t := by
  obtain ⟨⟨l, hi⟩, hlive, rfl, hword⟩ := hs
  have hnode := (hi.nodes p1 hlive).1
  have haddr : (blockNode s.heap p1).addr = nodeOfBlock p1 := rfl
  have hheader : ∀ x, nodeOfBlock p1 ≤ x → x < nodeOfBlock p1 + 4 →
      p1 ∈ t.live ∧ t.heap.mem x = s.heap.mem x := fun x h1 h2 => by
      refine hi.spared hst.step hlive hst.spares (fun mem he => ?_) (hnode.has h1 (by omega))
      subst he
      exact hst.step.legal x (hi.owns_header hlive h1 h2)
  have hmem : ∀ x, p - 4 ≤ x → x < p - 4 + 4 → t.heap.mem x = s.heap.mem x := fun x h1 h2 => by
    refine (hi.spared hst.step hlive hst.spares (fun mem he => ?_) ⟨by omega, by omega⟩).2
    exact hst.word mem he x h1 (by omega)
  refine ⟨hi.step hst.step, (hheader _ (Nat.le_refl _) (Nat.lt_add_of_pos_right (by decide))).1, ?_, ?_⟩
  · exact blockNode_congr fun x h1 h2 => (hheader x h1 h2).2
  · rw [load32_congr hmem]
    exact hword

theorem Kept.release (hs : Kept p1 p b s) (hp : 4 ≤ p) (hlt : p < addrMod) :
    (nutHeapFreeAligned s.heap p).Ends fun h' => FreesExactly s h' p1 b := by
  obtain ⟨⟨l, hi⟩, hlive, rfl, hword⟩ := hs
  have hhidden : hiddenWord p = p - 4 := by
    unfold hiddenWord
    unfold addrMod at *
    omega
  unfold nutHeapFreeAligned
  rw [hhidden, hword]
  refine Comp.ends_bind.mpr ((hi.free_spec hlive).mono ?_)
  rintro ⟨rc, h'⟩ ⟨-, hf⟩
  refine Comp.ends_pure.mpr ⟨hlive, rfl, l, hi, hi.freed hlive hf, fun q hq => ?_⟩
  refine hi.keep (o := [p1]) (g := []) (List.perm_cons_erase hlive) hi.once (fun x hx hbx _ => ?_) hq
  rw [List.map_singleton, cover_cons, cover_nil, Nat.add_zero, Seg.count_eq_zero] at hbx
  exact hf.frame x hx hbx

end Kept

/-- The aligned block `p` of `size` bytes, in the one block `p1` that was allocated: `h'` is the heap after
the allocation. -/
structure AlignedBlock (s : HeapRun) (l : List Seg) (h' : Heap) (size alignment p p1 : Nat) : Prop where
  aligned : p % alignment = 0
  word_aligned : (p - 4) % 4 = 0
  /-- The user area of the block starts at `p1`. -/
  word_in : p1 ≤ p - 4 ∧ 4 ≤ p
  range_in : p + size ≤ (blockNode h' p1).fin
  allocated : ∃ l', Tiled { s with heap := h', live := p1 :: s.live } l' ∧
    ∀ x, cover l x = (blockNode h' p1).count x + cover l' x
  reversible : ∀ u, Reachable (AlignedStep p1 p)
    (fun v => v = { s with heap := h', live := p1 :: s.live }) u →
      (nutHeapFreeAligned u.heap p).Ends fun h'' => FreesExactly u h'' p1 (blockNode h' p1)

section Aligned

variable {s : HeapRun} {l l' : List Seg} {h' : Heap} {b : Seg} {size k : Nat}

/-- The block out of the free list and the word in it. -/
theorem Tiled.alignedBlock (hi : Tiled s l) (ht : Taken s.heap h' l l' b) (hk : k < 32)
    (hsize : size + 2 ^ k + 7 ≤ b.size) :
    AlignedBlock s l
      ⟨h'.root, store32 h'.mem (hiddenWord (alignedPointer (b.addr + 4) (2 ^ k))) (b.addr + 4)⟩ size (2 ^ k)
      (alignedPointer (b.addr + 4) (2 ^ k)) (b.addr + 4) := by
  have hfin : b.addr + b.size < addrMod := ht.node.fin_lt
  have h4 := ht.node.addr_mod
  obtain ⟨hal, hword, hlo, hhi⟩ := alignedPointer_spec (show (b.addr + 4) % 4 = 0 by omega) hk (by omega)
  obtain ⟨p, hp⟩ : ∃ p, p = alignedPointer (b.addr + 4) (2 ^ k) := ⟨_, rfl⟩
  rw [← hp] at hal hword hlo hhi ⊢
  have hhidden : hiddenWord p = p - 4 := by
    unfold hiddenWord
    unfold addrMod at *
    omega
  rw [hhidden]
  have htaken := hi.taken ht
  have hblock : blockNode h' (b.addr + 4) = b := blockNode_of_header ht.node ht.header
  obtain ⟨mem, hmem⟩ : ∃ mem, mem = store32 h'.mem (p - 4) (b.addr + 4) := ⟨_, rfl⟩
  rw [← hmem]
  -- the store is one to the block's own memory
  have hlegal : HeapRun.Legal { s with heap := h', live := (b.addr + 4) :: s.live } (.write mem) := by
    intro x hx
    have hout := hx.2 _ List.mem_cons_self
    replace hout : ¬ (b.addr + 4 ≤ x ∧ x < (blockNode h' (b.addr + 4)).fin) := hout
    rw [hblock, Seg.fin] at hout
    rw [hmem]
    exact store32_apply_of_disjoint (by omega)
  obtain ⟨htiled, -, hkeep⟩ := htaken.written (.write hlegal)
  have hnode : blockNode { h' with mem := mem } (b.addr + 4) = b :=
    (hkeep _ List.mem_cons_self).trans hblock
  have hkept : Kept (b.addr + 4) p b
      { s with heap := { h' with mem := mem }, live := (b.addr + 4) :: s.live } := by
    refine ⟨⟨l', htiled⟩, List.mem_cons_self, hnode, ?_⟩
    show load32 mem (p - 4) = b.addr + 4
    rw [hmem, load32_store32_self]
    exact Nat.mod_eq_of_lt (by unfold addrMod at hfin; omega)
  refine ⟨hal, hword, ⟨by omega, by omega⟩, ?_, ⟨l', htiled, fun x => ?_⟩, fun u hu => ?_⟩
  · rw [hnode, Seg.fin]
    omega
  · rw [hnode]
    exact ht.tiles x
  · rw [hnode]
    have hinv : Kept (b.addr + 4) p b u := by
      refine Reachable.invariant ?_ ?_ hu
      · rintro v rfl
        exact hkept
      · intro v op w hv hst
        exact hst.kept hv (by omega) (by unfold Seg.fin; omega)
    exact hinv.release (by omega) (by omega)

end Aligned

/-- Aligned allocation with an alignment of `2 ^ k`: NULL and no change, or an aligned pointer with `size`
bytes and the word in front of it in one new block, and its release later on, after stores and operations on
other blocks, releases exactly this block. -/
theorem allocAligned_spec {s : HeapRun} {l : List Seg} {size k : Nat} (hi : Tiled s l)
    (hsize : size + 2 ^ k + 16 < 2 ^ 31) :
    (nutHeapAllocAligned s.heap size (2 ^ k)).Ends fun (p, h') =>
      (p = 0 → h' = s.heap) ∧ (p ≠ 0 → ∃ p1, AlignedBlock s l h' size (2 ^ k) p p1) := by
  have hk : k < 32 := (Nat.pow_lt_pow_iff_right (by decide : 1 < 2)).mp
    (show 2 ^ k < 2 ^ 32 by omega)
  have hoffset : (size + alignedOffset (2 ^ k)) % addrMod = size + (2 ^ k + 3) := by
    rw [alignedOffset_eq (Nat.two_pow_pos k) (by unfold addrMod; omega)]
    exact Nat.mod_eq_of_lt (by unfold addrMod; omega)
  have hlt : size + (2 ^ k + 3) + 7 < addrMod := by
    unfold addrMod
    omega
  unfold nutHeapAllocAligned
  rw [hoffset]
  refine Comp.ends_bind.mpr ((nutHeapRootAlloc_spec hi.free hlt).mono ?_)
  rintro ⟨p1, h'⟩ hres
  rcases hres with ⟨rfl, rfl, -⟩ | ⟨l', b, rfl, hneed, ht⟩
  · exact Comp.ends_pure.mpr ⟨fun _ => rfl, fun h0 => absurd rfl h0⟩
  · obtain ⟨-, -, hge, -⟩ := allocNeed_eq hlt
    have hblock := hi.alignedBlock ht hk (show size + 2 ^ k + 7 ≤ b.size by omega)
    dsimp only
    rw [if_neg (Nat.succ_ne_zero _)]
    refine Comp.ends_pure.mpr ⟨fun h0 => ?_, fun _ => ⟨b.addr + 4, hblock⟩⟩
    have := hblock.word_in.2
    omega

/-- Five bytes at a multiple of 8, in a region of 64 bytes at 64: the pointer is 72. -/
theorem allocAligned_spec_eight : ∃ (s : HeapRun) (l : List Seg) (h' : Heap) (p1 : Nat),
    (nutHeapAllocAligned s.heap 5 8).Returns (72, h') ∧ AlignedBlock s l h' 5 8 72 p1 := by
  have h0 : Reachable HeapStep HeapRun.Empty freshHeap := .init ⟨rfl, rfl, rfl⟩
  have h1 := h0.step (@HeapStep.add _ ⟨64, 64⟩ _ ⟨⟨rfl, rfl, by decide, by decide, by decide⟩,
    by simp [freshHeap]⟩ (Comp.returns_of_run 3 rfl))
  obtain ⟨l, hi⟩ := tiled_of_reachable h1
  obtain ⟨⟨p, h'⟩, hret, -, hspec⟩ := allocAligned_spec hi (show 5 + 2 ^ 3 + 16 < 2 ^ 31 by decide)
  obtain rfl : p = 72 := (Prod.mk.inj (hret.unique (Comp.returns_of_run 3 rfl))).1
  obtain ⟨p1, hblock⟩ := hspec (by decide)
  exact ⟨_, l, h', p1, hret, hblock⟩

end V85x
