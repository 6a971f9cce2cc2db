import Mathlib.Data.List.Range
import V85xAmp.Lib.Comp
import V85xAmp.Lib.Links
import V85xAmp.Virtio.Virtqueue

/-!
# Virtqueues of a driver (`openamp/virtio/virtqueue.c`)

The operations of a virtqueue whose device has the role `VIRTIO_DEV_DRIVER`. The driver keeps its free
descriptors in a list through their `next` fields, takes the descriptors of a request from the front of
it, and puts the chain of a used request back in front of it.

`virtqueueAddBuffer` is `fill`, up to the slot of the available ring, and `publish`, its index. What
`vqRingAddBuffer` writes into a chain is `Spells`; `returns_freeChain` walks over such a chain.
-/

namespace V85x

open Firmware

/-- `metal_io_virt_to_phys` -/
def metalIoVirtToPhys (io : IoRegion) (virt : BitVec 32) : BitVec 32 :=
  metalIoPhys io (metalIoVirtToOffset io virt)

/-- `VRING_DESC_F_NEXT` -/
def vringDescFNext : BitVec 16 := 1#16

/-- `VRING_DESC_F_WRITE` -/
def vringDescFWrite : BitVec 16 := 2#16

/-- `VRING_DESC_F_INDIRECT` -/
def vringDescFIndirect : BitVec 16 := 4#16

/-- `VQ_RING_DESC_CHAIN_END` -/
def vqRingDescChainEnd : BitVec 16 := 32768#16

/-- `struct vring_desc` -/
structure DriverDesc extends VringDesc where
  flags : BitVec 16
  next : BitVec 16
deriving Repr, DecidableEq

/-- `struct vq_desc_extra`: `none` is NULL. -/
structure VqDescExtra (C : Type) where
  cookie : Option C
  ndescs : BitVec 16
deriving Repr, DecidableEq

/-- `struct virtqueue_buf` -/
structure VirtqueueBuf where
  buf : BitVec 32
  len : BitVec 32
deriving Repr, DecidableEq

/-- `struct virtqueue` of a driver, with the three areas of its ring. -/
structure DriverQueue (C : Type) where
  nentries : BitVec 16
  freeCnt : BitVec 16
  queuedCnt : BitVec 16
  shmIo : IoRegion
  descHeadIdx : BitVec 16
  usedConsIdx : BitVec 16
  descx : Nat → VqDescExtra C
  desc : Nat → DriverDesc
  avail : VringAvail
  used : VringUsed

variable {C : Type}

/-! ## The source -/

/-- `vq_ring_init`, after `vring_init`: the descriptors in a list, in the order of the table. -/
def DriverQueue.vqRingInit (vq : DriverQueue C) : DriverQueue C :=
  let size := vq.nentries.toNat
  let desc := (List.range (size - 1)).foldl (fun desc i =>
    Function.update desc i { desc i with next := BitVec.ofNat 16 (i + 1) }) vq.desc
  let i := size - 1
  { vq with desc := Function.update desc i { desc i with next := vqRingDescChainEnd } }

/-- The virtqueue after `rproc_virtio_create_virtqueue` of a driver, with its region set: the memory of the
ring and that of the virtqueue are cleared, and `virtqueue_create` fills in the rest. -/
def virtqueueCreate (io : IoRegion) (numDescs : BitVec 16) : DriverQueue C :=
  DriverQueue.vqRingInit {
    nentries := numDescs, freeCnt := numDescs, queuedCnt := 0#16, shmIo := io, descHeadIdx := 0#16
    usedConsIdx := 0#16, descx := fun _ => ⟨none, 0#16⟩, desc := fun _ => ⟨⟨0#64, 0#32⟩, 0#16, 0#16⟩
    avail := ⟨0#16, 0#16, fun _ => 0#16⟩, used := ⟨0#16, 0#16, fun _ => ⟨0#32, 0#32⟩⟩ }

/-- The flags of the descriptor number `i`; `bufs` are the buffers behind it. -/
def chainFlags (readable i : Nat) (bufs : List VirtqueueBuf) : BitVec 16 :=
  let flags := 0#16
  let flags := if bufs = [] then flags else flags ||| vringDescFNext
  if readable ≤ i then flags ||| vringDescFWrite else flags

/-- The loop of `vq_ring_add_buffer` at the descriptor `idx`, for the buffers from number `i` on: the table
and the index where it ends. -/
def vqRingAddBuffer (io : IoRegion) (readable : Nat) :
    (Nat → DriverDesc) → BitVec 16 → Nat → List VirtqueueBuf → (Nat → DriverDesc) × BitVec 16
  | desc, idx, _, [] => (desc, idx)
  | desc, idx, i, b :: bufs =>
    let dp := { desc idx.toNat with
      addr := (metalIoVirtToPhys io b.buf).setWidth 64, len := b.len, flags := chainFlags readable i bufs }
    vqRingAddBuffer io readable (Function.update desc idx.toNat dp) dp.next (i + 1) bufs

namespace DriverQueue

/-- `idx & (vq->vq_nentries - 1)` -/
def slot (vq : DriverQueue C) (idx : BitVec 16) : Nat := (idx &&& (vq.nentries - 1#16)).toNat

/-- `virtqueue_add_buffer` up to the slot of `vq_ring_update_avail`. -/
def fill (vq : DriverQueue C) (bufs : List VirtqueueBuf) (readable : Nat) (cookie : C) : DriverQueue C :=
  let needed := BitVec.ofNat 16 bufs.length
  let headIdx := vq.descHeadIdx
  let (desc, idx) := vqRingAddBuffer vq.shmIo readable vq.desc headIdx 0 bufs
  let availIdx := vq.slot vq.avail.idx
  { vq with
    descx := Function.update vq.descx headIdx.toNat ⟨some cookie, needed⟩
    desc
    descHeadIdx := idx
    freeCnt := vq.freeCnt - needed
    avail := { vq.avail with ring := Function.update vq.avail.ring availIdx headIdx } }

section Fill

variable (vq : DriverQueue C) (bufs : List VirtqueueBuf) (readable : Nat) (cookie : C)

@[simp] theorem freeCnt_fill :
    (vq.fill bufs readable cookie).freeCnt = vq.freeCnt - BitVec.ofNat 16 bufs.length := rfl

@[simp] theorem descx_fill : (vq.fill bufs readable cookie).descx =
    Function.update vq.descx vq.descHeadIdx.toNat ⟨some cookie, BitVec.ofNat 16 bufs.length⟩ := rfl

@[simp] theorem avail_fill : (vq.fill bufs readable cookie).avail =
    { vq.avail with ring := Function.update vq.avail.ring (vq.slot vq.avail.idx) vq.descHeadIdx } := rfl

@[simp] theorem nentries_fill : (vq.fill bufs readable cookie).nentries = vq.nentries := rfl

@[simp] theorem shmIo_fill : (vq.fill bufs readable cookie).shmIo = vq.shmIo := rfl

@[simp] theorem used_fill : (vq.fill bufs readable cookie).used = vq.used := rfl

@[simp] theorem usedConsIdx_fill : (vq.fill bufs readable cookie).usedConsIdx = vq.usedConsIdx := rfl

end Fill

/-- The end of `vq_ring_update_avail`. -/
def publish (vq : DriverQueue C) : DriverQueue C :=
  { vq with avail := { vq.avail with idx := vq.avail.idx + 1#16 }, queuedCnt := vq.queuedCnt + 1#16 }

end DriverQueue

/-- `virtqueue_add_buffer`: the first `readable` buffers are for the device to read. -/
def virtqueueAddBuffer (vq : DriverQueue C) (bufs : List VirtqueueBuf) (readable : Nat) (cookie : C) :
    DriverQueue C :=
  (vq.fill bufs readable cookie).publish

/-- The test and the body of the loop of `vq_ring_free_chain`: `dp` and `dxp->ndescs`. -/
def freeChainStep (desc : Nat → DriverDesc) :
    BitVec 16 × BitVec 16 → Comp (BitVec 16 × BitVec 16 ⊕ BitVec 16 × BitVec 16)
  | (dp, ndescs) =>
    if (desc dp.toNat).flags &&& vringDescFNext ≠ 0#16 then
      pure (.inl ((desc dp.toNat).next, ndescs - 1#16))
    else pure (.inr (dp, ndescs))

/-- `vq_ring_free_chain` -/
def vqRingFreeChain (vq : DriverQueue C) (descIdx : BitVec 16) : Comp (DriverQueue C) := do
  let dxp := vq.descx descIdx.toNat
  let start := (descIdx, dxp.ndescs - 1#16)
  let (dp, ndescs) ←
    if (vq.desc descIdx.toNat).flags &&& vringDescFIndirect = 0#16 then
      Comp.loop (freeChainStep vq.desc) start
    else pure start
  pure { vq with
    freeCnt := vq.freeCnt + dxp.ndescs
    descx := Function.update vq.descx descIdx.toNat { dxp with ndescs }
    desc := Function.update vq.desc dp.toNat { vq.desc dp.toNat with next := vq.descHeadIdx }
    descHeadIdx := descIdx }

/-- `virtqueue_get_buffer`: the cookie, `*len` and `*idx`; `none` if there is no used buffer. -/
def virtqueueGetBuffer (vq : DriverQueue C) :
    Comp (Option (Option C × BitVec 32 × Nat) × DriverQueue C) :=
  if vq.usedConsIdx = vq.used.idx then pure (none, vq)
  else do
    let usedIdx := vq.slot vq.usedConsIdx
    let vq := { vq with usedConsIdx := vq.usedConsIdx + 1#16 }
    let uep := vq.used.ring usedIdx
    let descIdx := uep.id.setWidth 16
    let vq ← vqRingFreeChain vq descIdx
    let dxp := vq.descx descIdx.toNat
    let vq := { vq with descx := Function.update vq.descx descIdx.toNat { dxp with cookie := none } }
    pure (some (dxp.cookie, uep.len, usedIdx), vq)

/-! ## Chains in the table -/

/-- The `next` fields. -/
def link (desc : Nat → DriverDesc) (i : BitVec 16) : Option (BitVec 16) := some (desc i.toNat).next

@[simp] theorem link_update (desc : Nat → DriverDesc) (i : BitVec 16) (d : DriverDesc) :
    link (Function.update desc i.toNat d) = Function.update (link desc) i (some d.next) := by
  funext j
  by_cases hj : j = i
  · subst hj
    simp [link]
  · rw [Function.update_of_ne hj, link, link, Function.update_of_ne (fun h => hj (BitVec.eq_of_toNat_eq h))]

/-- The chain of the buffers `bufs`, with numbers from `i` on. -/
inductive Spells (io : IoRegion) (readable : Nat) (desc : Nat → DriverDesc) :
    Nat → List VirtqueueBuf → List (BitVec 16) → Prop
  | nil {i : Nat} : Spells io readable desc i [] []
  | cons {i : Nat} {b : VirtqueueBuf} {bufs : List VirtqueueBuf} {a next : BitVec 16}
      {chain : List (BitVec 16)} :
      desc a.toNat = ⟨⟨(metalIoVirtToPhys io b.buf).setWidth 64, b.len⟩, chainFlags readable i bufs, next⟩ →
      (∀ c ∈ chain.head?, c = next) → Spells io readable desc (i + 1) bufs chain →
      Spells io readable desc i (b :: bufs) (a :: chain)

section Spells

variable {io : IoRegion} {readable i : Nat} {desc desc' : Nat → DriverDesc} {bufs : List VirtqueueBuf}
  {chain l rest : List (BitVec 16)} {a idx : BitVec 16} {e : Option (BitVec 16)}

theorem Spells.length_eq (h : Spells io readable desc i bufs chain) : chain.length = bufs.length := by
  induction h with
  | nil => rfl
  | cons _ _ _ ih => rw [List.length_cons, List.length_cons, ih]

/-- A chain is in its own descriptors. -/
theorem Spells.congr (h : Spells io readable desc i bufs chain)
    (he : ∀ a ∈ chain, desc' a.toNat = desc a.toNat) : Spells io readable desc' i bufs chain := by
  induction h with
  | nil => exact .nil
  | cons hd hnext _ ih =>
    refine .cons ((he _ List.mem_cons_self).trans hd) hnext (ih fun c hc => ?_)
    exact he c (List.mem_cons_of_mem _ hc)

/-- The `next` fields lead through a chain. -/
theorem Spells.path (h : Spells io readable desc i bufs chain) :
    ∃ q, Firmware.Path (link desc) chain.head? chain q := by
  induction h with
  | nil => exact ⟨none, rfl⟩
  | @cons i b bufs a next chain hd hnext _ ih =>
    obtain ⟨q, hq⟩ := ih
    cases chain with
    | nil => exact ⟨link desc a, rfl, rfl⟩
    | cons c chain =>
      refine ⟨q, rfl, ?_⟩
      rw [link, hd, ← hnext c rfl]
      exact hq

/-- What `vq_ring_add_buffer` writes into the first descriptors `l` of the free list, and what it leaves. -/
theorem spells_vqRingAddBuffer (h : Firmware.Path (link desc) (some idx) (l ++ rest) e)
    (hlen : l.length = bufs.length) (hnd : (l ++ rest).Nodup) :
    Firmware.Path (link (vqRingAddBuffer io readable desc idx i bufs).1)
        (some (vqRingAddBuffer io readable desc idx i bufs).2) rest e ∧
      Spells io readable (vqRingAddBuffer io readable desc idx i bufs).1 i bufs l ∧
      ∀ j, (∀ a ∈ l, a.toNat ≠ j) → (vqRingAddBuffer io readable desc idx i bufs).1 j = desc j := by
  induction bufs generalizing desc idx i l with
  | nil =>
    obtain rfl := List.eq_nil_of_length_eq_zero hlen
    exact ⟨h, .nil, fun _ _ => rfl⟩
  | cons b bufs ih =>
    cases l with
    | nil => cases hlen
    | cons a l =>
      obtain ⟨he, hpath⟩ := h
      obtain rfl : idx = a := Option.some.inj he
      rw [List.cons_append, List.nodup_cons] at hnd
      simp only [vqRingAddBuffer]
      generalize hdp : ({ desc idx.toNat with
        addr := (metalIoVirtToPhys io b.buf).setWidth 64, len := b.len
        flags := chainFlags readable i bufs } : DriverDesc) = dp
      have hnext : dp.next = (desc idx.toNat).next := by rw [← hdp]
      have hlink : link (Function.update desc idx.toNat dp) = link desc := by
        rw [link_update, hnext]
        exact Function.update_eq_self idx (link desc)
      rw [link, ← hnext, ← hlink] at hpath
      rw [← hnext]
      obtain ⟨hrest, hspell, hframe⟩ := ih (i := i + 1) hpath (Nat.succ.inj hlen) hnd.2
      have hout : ∀ c ∈ l, c.toNat ≠ idx.toNat := by
        intro c hc he
        rw [BitVec.eq_of_toNat_eq he] at hc
        exact hnd.1 (List.mem_append_left _ hc)
      have hd := (hframe idx.toNat hout).trans (Function.update_self _ _ _)
      refine ⟨hrest, .cons (hd.trans hdp.symm) ?_ hspell, fun j hj => ?_⟩
      · intro c hc
        cases l with
        | nil => cases hc
        | cons c' l =>
          obtain rfl : c' = c := Option.some.inj hc
          rw [← hnext]
          exact (Option.some.inj hpath.1).symm
      · rw [hframe j fun c hc => hj c (List.mem_cons_of_mem _ hc), Function.update_of_ne]
        exact (hj idx List.mem_cons_self).symm

theorem chainFlags_next : chainFlags readable i bufs &&& vringDescFNext ≠ 0#16 ↔ bufs ≠ [] := by
  unfold chainFlags
  split <;> split <;> simp_all [vringDescFNext, vringDescFWrite]

theorem chainFlags_indirect : chainFlags readable i bufs &&& vringDescFIndirect = 0#16 := by
  unfold chainFlags
  split <;> split <;> rfl

theorem Spells.indirect (h : Spells io readable desc i bufs chain) (ha : chain.head? = some a) :
    (desc a.toNat).flags &&& vringDescFIndirect = 0#16 := by
  cases h with
  | nil => cases ha
  | cons hd _ _ =>
    obtain rfl := Option.some.inj ha
    rw [hd]
    exact chainFlags_indirect

/-- The first descriptor has the first buffer. -/
theorem Spells.head (h : Spells io readable desc i bufs chain) (ha : chain.head? = some a) (hne : bufs ≠ []) :
    (desc a.toNat).toVringDesc =
      ⟨(metalIoVirtToPhys io (bufs.head hne).buf).setWidth 64, (bufs.head hne).len⟩ := by
  cases h with
  | nil => cases ha
  | cons hd _ _ =>
    obtain rfl := Option.some.inj ha
    rw [hd, List.head_cons]

/-- The walk of `vq_ring_free_chain` along a chain. -/
theorem returns_freeChain (h : Spells io readable desc i bufs (chain ++ [a])) (ndescs : BitVec 16) :
    (Comp.loop (freeChainStep desc) ((chain ++ [a]).head (by simp), ndescs)).Returns
      (a, ndescs - BitVec.ofNat 16 chain.length) := by
  induction chain generalizing i bufs ndescs with
  | nil =>
    cases h with
    | cons hd _ hrest =>
      cases hrest with
      | nil =>
        refine Comp.returns_loop.mpr ⟨.inr (a, ndescs), ?_, by simp⟩
        have hflags : (desc a.toNat).flags &&& vringDescFNext = 0#16 := by
          rw [hd]
          exact not_not.mp (mt chainFlags_next.mp (not_not.mpr rfl))
        simp [freeChainStep, hflags]
  | cons c chain ih =>
    cases h with
    | @cons _ b bufs _ next _ hd hnext hrest =>
      have hne : bufs ≠ [] := by
        rintro rfl
        have := hrest.length_eq
        simp at this
      have hflags : (desc c.toNat).flags &&& vringDescFNext ≠ 0#16 := by
        rw [hd]
        exact chainFlags_next.mpr hne
      have hhead : (desc c.toNat).next = (chain ++ [a]).head (by simp) := by
        rw [hd]
        exact (hnext _ (List.head_mem_head? (by simp))).symm
      refine Comp.returns_loop.mpr ⟨.inl ((chain ++ [a]).head (by simp), ndescs - 1#16), ?_, ?_⟩
      · rw [← hhead]
        simp [freeChainStep, hflags]
      · have hcount : ndescs - BitVec.ofNat 16 (c :: chain).length =
            ndescs - 1#16 - BitVec.ofNat 16 chain.length := by
          rw [List.length_cons, BitVec.ofNat_add]
          grind
        rw [hcount]
        exact ih hrest (ndescs - 1#16)

end Spells

/-! ## The list after the initialization -/

theorem foldl_next (desc : Nat → DriverDesc) (m j : Nat) :
    (List.range m).foldl (fun desc i =>
      Function.update desc i { desc i with next := BitVec.ofNat 16 (i + 1) }) desc j =
      if j < m then { desc j with next := BitVec.ofNat 16 (j + 1) } else desc j := by
  induction m with
  | zero => rfl
  | succ m ih =>
    rw [List.range_succ, List.foldl_append, List.foldl_cons, List.foldl_nil]
    by_cases hj : j = m
    · subst hj
      rw [Function.update_self, ih, if_neg (Nat.lt_irrefl _), if_pos (Nat.lt_succ_self _)]
    · rw [Function.update_of_ne hj, ih]
      by_cases hlt : j < m
      · rw [if_pos hlt, if_pos (by omega)]
      · rw [if_neg hlt, if_neg (by omega)]

/-- All descriptors are free, in the order of the table. -/
theorem path_vqRingInit {vq : DriverQueue C} {n : Nat} (hn : vq.nentries.toNat = n) (hpos : 0 < n) :
    Firmware.Path (link vq.vqRingInit.desc) (some 0#16) ((List.range n).map (BitVec.ofNat 16))
      (some vqRingDescChainEnd) := by
  have hlt : n < 2 ^ 16 := by
    rw [← hn]
    exact vq.nentries.isLt
  have hnext : ∀ j < n, link vq.vqRingInit.desc (BitVec.ofNat 16 j) =
      some (if j = n - 1 then vqRingDescChainEnd else BitVec.ofNat 16 (j + 1)) := by
    intro j hj
    rw [link, BitVec.toNat_ofNat, Nat.mod_eq_of_lt (by omega)]
    simp only [DriverQueue.vqRingInit, hn]
    by_cases he : j = n - 1
    · subst he
      simp
    · rw [Function.update_of_ne he, foldl_next, if_pos (by omega), if_neg he]
  have hfrom : ∀ m c, c + m + 1 = n →
      Firmware.Path (link vq.vqRingInit.desc) (some (BitVec.ofNat 16 c))
        ((List.range' c (m + 1)).map (BitVec.ofNat 16)) (some vqRingDescChainEnd) := by
    intro m
    induction m with
    | zero =>
      intro c hc
      refine ⟨rfl, ?_⟩
      rw [hnext c (by omega), if_pos (by omega)]
      rfl
    | succ m ih =>
      intro c hc
      refine ⟨rfl, ?_⟩
      rw [hnext c (by omega), if_neg (by omega)]
      exact ih (c + 1) (by omega)
  rw [List.range_eq_range']
  obtain ⟨m, rfl⟩ : ∃ m, n = m + 1 := ⟨n - 1, by omega⟩
  exact hfrom m 0 (by omega)

/-! ## Used requests -/

/-- The virtqueue after a used request with the chain from `head` to `last`. -/
def DriverQueue.reaped (vq : DriverQueue C) (head last : BitVec 16) : DriverQueue C :=
  { vq with
    usedConsIdx := vq.usedConsIdx + 1#16
    freeCnt := vq.freeCnt + (vq.descx head.toNat).ndescs
    descx := Function.update vq.descx head.toNat ⟨none, 0#16⟩
    desc := Function.update vq.desc last.toNat { vq.desc last.toNat with next := vq.descHeadIdx }
    descHeadIdx := head }

section GetBuffer

variable {vq : DriverQueue C} {io : IoRegion} {readable : Nat} {bufs : List VirtqueueBuf}
  {chain : List (BitVec 16)} {head last : BitVec 16} {e : Option (BitVec 16)}

theorem returns_vqRingFreeChain (hspell : Spells io readable vq.desc 0 bufs (chain ++ [last]))
    (hhead : (chain ++ [last]).head? = some head)
    (hcount : (vq.descx head.toNat).ndescs = BitVec.ofNat 16 bufs.length) :
    (vqRingFreeChain vq head).Returns
      { vq with
        freeCnt := vq.freeCnt + (vq.descx head.toNat).ndescs
        descx := Function.update vq.descx head.toNat ⟨(vq.descx head.toNat).cookie, 0#16⟩
        desc := Function.update vq.desc last.toNat { vq.desc last.toNat with next := vq.descHeadIdx }
        descHeadIdx := head } := by
  have hstart : (chain ++ [last]).head (by simp) = head := by
    rw [List.head?_eq_some_head (by simp)] at hhead
    exact Option.some.inj hhead
  have hlen : bufs.length = chain.length + 1 := by
    rw [← hspell.length_eq, List.length_append, List.length_singleton]
  have hzero : (vq.descx head.toNat).ndescs - 1#16 - BitVec.ofNat 16 chain.length = 0#16 := by
    rw [hcount, hlen, BitVec.ofNat_add]
    grind
  have hwalk := returns_freeChain hspell ((vq.descx head.toNat).ndescs - 1#16)
  rw [hstart, hzero] at hwalk
  simp only [vqRingFreeChain, if_pos (hspell.indirect hhead)]
  exact Comp.returns_bind.mpr ⟨_, hwalk, Comp.returns_pure.mpr rfl⟩

theorem returns_virtqueueGetBuffer {len : BitVec 32} (hne : vq.usedConsIdx ≠ vq.used.idx)
    (helem : vq.used.ring (vq.slot vq.usedConsIdx) = ⟨head.setWidth 32, len⟩)
    (hspell : Spells io readable vq.desc 0 bufs (chain ++ [last]))
    (hhead : (chain ++ [last]).head? = some head)
    (hcount : (vq.descx head.toNat).ndescs = BitVec.ofNat 16 bufs.length) :
    (virtqueueGetBuffer vq).Returns
      (some ((vq.descx head.toNat).cookie, len, vq.slot vq.usedConsIdx), vq.reaped head last) := by
  have hid : (head.setWidth 32).setWidth 16 = head := by
    rw [BitVec.setWidth_setWidth_of_le _ (by decide), BitVec.setWidth_eq]
  have hfree : (vqRingFreeChain { vq with usedConsIdx := vq.usedConsIdx + 1#16 } head).Returns _ :=
    returns_vqRingFreeChain hspell hhead hcount
  rw [virtqueueGetBuffer, if_neg hne, Comp.returns_bind]
  simp only [helem, hid]
  refine ⟨_, hfree, Comp.returns_pure.mpr ?_⟩
  simp [DriverQueue.reaped]

/-- The chain is in front of the free list. -/
theorem path_reaped {free : List (BitVec 16)} (hspell : Spells io readable vq.desc 0 bufs (chain ++ [last]))
    (hhead : (chain ++ [last]).head? = some head)
    (hfree : Firmware.Path (link vq.desc) (some vq.descHeadIdx) free e)
    (hnd : (chain ++ [last] ++ free).Nodup) :
    Firmware.Path (link (vq.reaped head last).desc) (some (vq.reaped head last).descHeadIdx)
      (chain ++ [last] ++ free) e := by
  have hnd' := List.nodup_append.mp hnd
  have hlast : last ∉ free := fun h => hnd'.2.2 last (by simp) last h rfl
  have hchain : last ∉ chain := fun h => (List.nodup_append.mp hnd'.1).2.2 last h last (by simp) rfl
  obtain ⟨q, hq⟩ := hspell.path
  rw [hhead] at hq
  simp only [DriverQueue.reaped, link_update]
  exact Firmware.path_append.mpr ⟨_, hq.update_last hchain _, hfree.update hlast _⟩

end GetBuffer

end V85x
