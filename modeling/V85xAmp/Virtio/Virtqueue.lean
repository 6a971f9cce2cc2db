import V85xAmp.Lib.Ring

/-!
# Virtqueues of a device (`openamp/virtio/virtqueue.c`, `metal/io.h`)

The operations that the device side of a virtqueue uses. The descriptor table and the two rings are
functions from slots to entries. The fields that only a driver uses, and the checks of `VQUEUE_DEBUG`,
which the build leaves out, are not here.

`used_event` of the ring is the word behind the available ring, at slot `num`.
-/

namespace V85x

open Firmware

/-! ## I/O regions (`metal/io.h`) -/

/-- `struct metal_io_region` with one page: `page_shift` is `-1`, as `_shmem_init` opens it, and `physmap`
points to the one physical base address. -/
structure IoRegion where
  virt : BitVec 32
  physmap : BitVec 32
  size : BitVec 32
deriving Repr, DecidableEq

/-- `METAL_BAD_OFFSET` -/
def metalBadOffset : BitVec 32 := BitVec.allOnes 32

/-- `METAL_BAD_PHYS` -/
def metalBadPhys : BitVec 32 := BitVec.allOnes 32

/-- `metal_io_phys` -/
def metalIoPhys (io : IoRegion) (offset : BitVec 32) : BitVec 32 :=
  if offset < io.size then io.physmap + offset else metalBadPhys

/-- `metal_io_phys_to_offset`. With one page the loop's step is 0: an offset that is not the right one is
outside the region, and the loop ends there. -/
def metalIoPhysToOffset (io : IoRegion) (phys : BitVec 32) : BitVec 32 :=
  let offset := phys - io.physmap
  if metalIoPhys io offset = phys then offset else metalBadOffset

/-- `metal_io_virt`: `none` is NULL. -/
def metalIoVirt (io : IoRegion) (offset : BitVec 32) : Option (BitVec 32) :=
  if offset < io.size then some (io.virt + offset) else none

/-- `metal_io_phys_to_virt` -/
def metalIoPhysToVirt (io : IoRegion) (phys : BitVec 32) : Option (BitVec 32) :=
  metalIoVirt io (metalIoPhysToOffset io phys)

/-- `metal_io_virt_to_offset` -/
def metalIoVirtToOffset (io : IoRegion) (virt : BitVec 32) : BitVec 32 :=
  let offset := virt - io.virt
  if offset < io.size then offset else metalBadOffset

/-- The region of the shared memory, `SHM_START_ADDRESS` and `SHM_SIZE`, as `_shmem_init` opens it. -/
def shmRegion : IoRegion := ⟨0x43d80000#32, 0x43d80000#32, 0x40000#32⟩

/-- A physical address of the shared memory is its virtual address. -/
theorem metalIoPhysToVirt_shmRegion {a : BitVec 32} (hlo : 0x43d80000 ≤ a.toNat)
    (hhi : a.toNat < 0x43dc0000) : metalIoPhysToVirt shmRegion a = some a := by
  have hoff : a - 0x43d80000#32 < 0x40000#32 := by
    rw [BitVec.lt_def, BitVec.toNat_sub]
    simp only [BitVec.toNat_ofNat]
    omega
  have hback : 0x43d80000#32 + (a - 0x43d80000#32) = a := by
    rw [BitVec.add_comm, BitVec.sub_add_cancel]
  simp [metalIoPhysToVirt, metalIoVirt, metalIoPhysToOffset, metalIoPhys, shmRegion, hoff, hback]

/-! ## The rings (`openamp/virtio_ring.h`) -/

/-- `struct vring_desc`, the fields that a device reads. -/
structure VringDesc where
  addr : BitVec 64
  len : BitVec 32
deriving Repr, DecidableEq

/-- `struct vring_used_elem` -/
structure VringUsedElem where
  id : BitVec 32
  len : BitVec 32
deriving Repr, DecidableEq

/-- `struct vring_avail`, which the driver writes. -/
structure VringAvail where
  flags : BitVec 16
  idx : BitVec 16
  ring : Nat → BitVec 16

/-- `struct vring_used`, which the device writes. -/
structure VringUsed where
  flags : BitVec 16
  idx : BitVec 16
  ring : Nat → VringUsedElem

/-- `struct vring`. `num` is the virtqueue's `vq_nentries`. -/
structure Vring where
  desc : Nat → VringDesc
  avail : VringAvail
  used : VringUsed

/-- `VRING_AVAIL_F_NO_INTERRUPT` -/
def vringAvailFNoInterrupt : BitVec 16 := 1#16

/-- `VRING_USED_F_NO_NOTIFY` -/
def vringUsedFNoNotify : BitVec 16 := 1#16

/-- `VIRTIO_RING_F_EVENT_IDX` -/
def virtioRingFEventIdx : BitVec 32 := 1#32 <<< 29

/-- `vring_need_event` -/
def vringNeedEvent (eventIdx newIdx oldIdx : BitVec 16) : Bool :=
  newIdx - eventIdx - 1#16 < newIdx - oldIdx

/-! ## Virtqueues -/

/-- `role` of `struct virtio_device` -/
inductive VirtioRole
  | driver
  | device
deriving Repr, DecidableEq

/-- `struct virtqueue` -/
structure Virtqueue where
  queueIndex : Nat
  nentries : BitVec 16
  vqRing : Vring
  queuedCnt : BitVec 16
  shmIo : IoRegion
  availableIdx : BitVec 16

namespace Virtqueue

/-- `idx & (vq->vq_nentries - 1)` -/
def slot (vq : Virtqueue) (idx : BitVec 16) : Nat := (idx &&& (vq.nentries - 1#16)).toNat

/-- `vring_used_event` -/
def usedEvent (vq : Virtqueue) : BitVec 16 := vq.vqRing.avail.ring vq.nentries.toNat

section Slot

variable {vq : Virtqueue} {k : Nat}

theorem toNat_nentries (hk : k ≤ 15) (h : vq.nentries = BitVec.ofNat 16 (2 ^ k)) :
    vq.nentries.toNat = 2 ^ k := by
  have hle : 2 ^ k ≤ 2 ^ 15 := Nat.pow_le_pow_right (by decide) hk
  rw [h, BitVec.toNat_ofNat, Nat.mod_eq_of_lt (by omega)]

/-- The slot of a free-running counter. -/
theorem slot_ofNat (hk : k ≤ 15) (h : vq.nentries = BitVec.ofNat 16 (2 ^ k)) (c : Nat) :
    vq.slot (BitVec.ofNat 16 c) = c % 2 ^ k := by
  have hmask : vq.nentries - 1#16 = BitVec.ofNat 16 (2 ^ k - 1) := by
    rw [h]
    exact counter_sub Nat.one_le_two_pow
  unfold slot
  rw [hmask, slot_counter (by omega)]

end Slot

end Virtqueue

/-- `virtqueue_get_buffer_length` -/
def virtqueueGetBufferLength (vq : Virtqueue) (idx : BitVec 16) : BitVec 32 :=
  (vq.vqRing.desc idx.toNat).len

/-- `virtqueue_get_buffer_addr`. The 64-bit address of the descriptor is cut to a `metal_phys_addr_t`. -/
def virtqueueGetBufferAddr (vq : Virtqueue) (idx : BitVec 16) : Option (BitVec 32) :=
  metalIoPhysToVirt vq.shmIo (BitVec.setWidth 32 (vq.vqRing.desc idx.toNat).addr)

/-- `virtqueue_get_available_buffer`: the buffer, `*avail_idx` and `*len`. -/
def virtqueueGetAvailableBuffer (vq : Virtqueue) :
    Option (BitVec 32 × BitVec 16 × BitVec 32) × Virtqueue :=
  if vq.availableIdx = vq.vqRing.avail.idx then (none, vq)
  else
    let headIdx := vq.slot vq.availableIdx
    let vq := { vq with availableIdx := vq.availableIdx + 1#16 }
    let availIdx := vq.vqRing.avail.ring headIdx
    ((virtqueueGetBufferAddr vq availIdx).map fun buffer =>
      (buffer, availIdx, virtqueueGetBufferLength vq availIdx), vq)

/-- The buffer of a descriptor is in the shared memory. -/
structure VringDesc.InRegion (d : VringDesc) : Prop where
  le : 0x43d80000 ≤ d.addr.toNat
  lt : d.addr.toNat < 0x43dc0000
  end_le : d.addr.toNat + d.len.toNat ≤ 0x43dc0000

theorem VringDesc.InRegion.toNat_setWidth {d : VringDesc} (h : d.InRegion) :
    (BitVec.setWidth 32 d.addr).toNat = d.addr.toNat := by
  have := h.lt
  rw [BitVec.toNat_setWidth, Nat.mod_eq_of_lt (by omega)]

/-- The index that the driver published next. -/
def Virtqueue.nextIdx (vq : Virtqueue) : BitVec 16 := vq.vqRing.avail.ring (vq.slot vq.availableIdx)

/-- A published buffer in the shared memory. -/
theorem virtqueueGetAvailableBuffer_eq {vq : Virtqueue} {d : VringDesc} (hio : vq.shmIo = shmRegion)
    (havail : vq.availableIdx ≠ vq.vqRing.avail.idx) (hdesc : vq.vqRing.desc vq.nextIdx.toNat = d)
    (hd : d.InRegion) :
    virtqueueGetAvailableBuffer vq = (some (BitVec.setWidth 32 d.addr, vq.nextIdx, d.len),
      { vq with availableIdx := vq.availableIdx + 1#16 }) := by
  have hcut := hd.toNat_setWidth
  have hvirt : metalIoPhysToVirt shmRegion (BitVec.setWidth 32 d.addr) = some (BitVec.setWidth 32 d.addr) :=
    metalIoPhysToVirt_shmRegion (by rw [hcut]; exact hd.le) (by rw [hcut]; exact hd.lt)
  have hnext : vq.vqRing.avail.ring (vq.slot vq.availableIdx) = vq.nextIdx := rfl
  rw [virtqueueGetAvailableBuffer, if_neg havail]
  simp only [virtqueueGetBufferAddr, virtqueueGetBufferLength, hio, hnext, hdesc, hvirt, Option.map_some]

/-- `ERROR_VRING_NO_BUFF` -/
def errorVringNoBuff : Int := -3007

/-- `virtqueue_add_consumed_buffer` -/
def virtqueueAddConsumedBuffer (vq : Virtqueue) (headIdx : BitVec 16) (len : BitVec 32) :
    Int × Virtqueue :=
  if vq.nentries ≤ headIdx then (errorVringNoBuff, vq)
  else
    let used := vq.vqRing.used
    let usedIdx := vq.slot used.idx
    let elem : VringUsedElem := ⟨BitVec.setWidth 32 headIdx, len⟩
    let used := { used with ring := Function.update used.ring usedIdx elem, idx := used.idx + 1#16 }
    (0, { vq with vqRing := { vq.vqRing with used }, queuedCnt := vq.queuedCnt + 1#16 })

/-- `vq_ring_must_notify`, for a device with these features. -/
def vqRingMustNotify (features : BitVec 32) (vq : Virtqueue) : Bool :=
  if features &&& virtioRingFEventIdx ≠ 0#32 then
    let newIdx := vq.vqRing.used.idx
    vringNeedEvent vq.usedEvent newIdx (newIdx - vq.queuedCnt)
  else vq.vqRing.avail.flags &&& vringAvailFNoInterrupt = 0#16

@[simp] theorem queueIndex_virtqueueAddConsumedBuffer (vq : Virtqueue) (headIdx : BitVec 16)
    (len : BitVec 32) : (virtqueueAddConsumedBuffer vq headIdx len).2.queueIndex = vq.queueIndex := by
  unfold virtqueueAddConsumedBuffer
  split <;> rfl

end V85x
