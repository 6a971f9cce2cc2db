import V85xAmp.Rpmsg.Address
import V85xAmp.Rpmsg.TransmitInv
import V85xAmp.Virtio.BlockWrite

/-!
# The length of a transmission (`virt_uart_transmit`, `rpmsg_virtio_send_offchannel_raw`)

A call that nothing preempts, with the length `L` of the descriptor that the host wrote. `virt_uart_transmit`
compares the size with a constant. `rpmsg_virtio_send_offchannel_raw` subtracts the header from `L` without a
sign, compares the result with one, and truncates the message to it.

* Up to `L = 15` the difference is negative, and so is the length of the copy, which stores to all of the
  address space: the call does not return.
* Up to the size and the header, the message is truncated and its new length returned.
* From `2 ^ 31 + 16` on, the difference is negative again. `metal_io_block_write` copies up to the end of the
  region.

In the last two cases the descriptor goes to the host. `RPMSG_ASSERT` is empty in this build, so that no
status stops the call. No code of the program releases a tx buffer, so that there is none to recycle.
-/

namespace V85x

open Firmware

/-- `RPMSG_ERR_NO_BUFF` -/
def rpmsgErrNoBuff : Int := -2002

/-- The device side of the tx virtqueue. `written` are the addresses of the stores to message buffers. -/
structure TxSide where
  mem : Mem
  written : List Nat
  vq : Virtqueue
  shbufIo : IoRegion
  features : BitVec 32
  driverOk : Bool
  kicks : Nat

namespace TxSide

/-! ## The source -/

/-- `rp_hdr->reserved = v` -/
def setReserved (s : TxSide) (hdr : BitVec 32) (v : Nat) : TxSide :=
  { s with
    mem := setHdrReserved s.mem hdr.toNat v
    written := s.written ++ (List.range 4).map (hdr.toNat + 8 + ·) }

def store (s : TxSide) (stores : Stores) : TxSide :=
  { s with mem := storeAll s.mem stores, written := s.written ++ stores.map (·.2) }

/-- The driver's part of the ring at an attempt to take a buffer. -/
def publish (s : TxSide) (driver : VringAvail × (Nat → VringDesc)) : TxSide :=
  { s with vq := { s.vq with vqRing := { s.vq.vqRing with avail := driver.1, desc := driver.2 } } }

/-- The loop of `rpmsg_virtio_get_tx_payload_buffer` with `ticks` for `tick_count`: there is no callback to
wait with, and `metal_sleep_usec` lets the host go on. `driver` is what the host has published then. -/
def rpmsgVirtioGetTxBuffer (driver : Nat → VringAvail × (Nat → VringDesc)) :
    Nat → TxSide → Option (BitVec 32 × BitVec 16 × BitVec 32) × TxSide
  | 0, s =>
    let (r, vq) := virtqueueGetAvailableBuffer (s.publish (driver 0)).vq
    (r, { s with vq })
  | ticks + 1, s =>
    let (r, vq) := virtqueueGetAvailableBuffer (s.publish (driver (ticks + 1))).vq
    if r.isSome then (r, { s with vq }) else rpmsgVirtioGetTxBuffer driver ticks { s with vq }

/-- The index and the hold counter in the `reserved` field of a buffer that a call took. -/
def reserve (s : TxSide) (hdr : BitVec 32) (idx : BitVec 16) : TxSide :=
  let s := s.setReserved hdr idx.toNat
  s.setReserved hdr (hdrReserved s.mem hdr.toNat + rpmsgBufHeld)

/-- `rpmsg_virtio_get_tx_payload_buffer`: the payload buffer and `*len`. -/
def rpmsgVirtioGetTxPayloadBuffer (s : TxSide) (driver : Nat → VringAvail × (Nat → VringDesc)) :
    Option (BitVec 32 × BitVec 32) × TxSide :=
  if s.driverOk then
    match rpmsgVirtioGetTxBuffer driver rpmsgTicks s with
    | (none, s) => (none, s)
    | (some (hdr, idx, len), s) =>
      (some (hdr + BitVec.ofNat 32 rpmsgHdrSize, len - BitVec.ofNat 32 rpmsgHdrSize), s.reserve hdr idx)
  else (none, s)

/-- `virtqueue_kick` -/
def virtqueueKick (s : TxSide) : TxSide :=
  { s with
    kicks := if vqRingMustNotify s.features s.vq then s.kicks + 1 else s.kicks
    vq := { s.vq with queuedCnt := 0#16 } }

/-- The critical section of `rpmsg_virtio_send_offchannel_nocopy`. -/
def enqueue (s : TxSide) (idx : BitVec 16) : TxSide :=
  let buffLen := virtqueueGetBufferLength s.vq idx
  virtqueueKick { s with vq := (virtqueueAddConsumedBuffer s.vq idx buffLen).2 }

/-- The local `rp_hdr` of `rpmsg_virtio_send_offchannel_nocopy`, which is at `addr`. -/
def rpHdr (addr src dst len : BitVec 32) : Source :=
  ⟨addr, fun i => (rpmsgHdrBytes ⟨src, dst, []⟩ len.toNat).getD i 0#8⟩

/-- `rpmsg_virtio_send_offchannel_nocopy` -/
def rpmsgVirtioSendOffchannelNocopy (s : TxSide) (sp src dst data len : BitVec 32) :
    Comp (Int × TxSide) := do
  let hdr := data - BitVec.ofNat 32 rpmsgHdrSize
  let idx := rpmsgBufIndex s.mem hdr.toNat
  let w ← metalIoBlockWrite s.shbufIo (metalIoVirtToOffset s.shbufIo hdr) (rpHdr sp src dst len)
    (BitVec.ofNat 32 rpmsgHdrSize)
  pure (len.toInt, (s.store w.2).enqueue idx)

/-- `rpmsg_virtio_send_offchannel_raw` -/
def rpmsgVirtioSendOffchannelRaw (s : TxSide) (driver : Nat → VringAvail × (Nat → VringDesc))
    (sp src dst : BitVec 32) (data : Source) (len : BitVec 32) : Comp (Int × TxSide) :=
  match s.rpmsgVirtioGetTxPayloadBuffer driver with
  | (none, s) => pure (rpmsgErrNoBuff, s)
  | (some (buffer, buffLen), s) => do
    let len := if buffLen.toInt < len.toInt then buffLen else len
    let w ← metalIoBlockWrite s.shbufIo (metalIoVirtToOffset s.shbufIo buffer) data len
    (s.store w.2).rpmsgVirtioSendOffchannelNocopy sp src dst buffer len

/-- `rpmsg_send_offchannel_raw`. The device has the operation. -/
def rpmsgSendOffchannelRaw (s : TxSide) (driver : Nat → VringAvail × (Nat → VringDesc)) (sp : BitVec 32)
    (ept : RpmsgEndpoint) (src dst : BitVec 32) (data : Source) (len : BitVec 32) : Comp (Int × TxSide) :=
  if ept.rdev = false ∨ data.addr = 0#32 ∨ dst = rpmsgAddrAny ∨ len.toInt < 0 then pure (rpmsgErrParam, s)
  else s.rpmsgVirtioSendOffchannelRaw driver sp src dst data len

/-- `virt_uart_transmit` of a UART with the endpoint `ept`. -/
def virtUartTransmit (s : TxSide) (driver : Nat → VringAvail × (Nat → VringDesc)) (sp : BitVec 32)
    (ept : RpmsgEndpoint) (data : Source) (size : BitVec 16) : Comp (Int × TxSide) :=
  if rpmsgBufferSize - 16 < size.toNat then pure (-1, s)
  else s.rpmsgSendOffchannelRaw driver sp ept ept.addr ept.destAddr data (BitVec.setWidth 32 size)

/-! ## What is claimed -/

/-- The device can send: the host is ready, and the endpoint has a device and a destination. -/
structure Ready (s : TxSide) (ept : RpmsgEndpoint) : Prop where
  shbufIo : s.shbufIo = shmRegion
  driverOk : s.driverOk = true
  rdev : ept.rdev = true
  destAddr : ept.destAddr ≠ rpmsgAddrAny

/-- The buffer at `hdr` is in the shared memory, as far as a message goes in it: `len` is what the descriptor
says, whatever that is. -/
structure Placed (hdr len : BitVec 32) : Prop where
  le : 0x43d80000 ≤ hdr.toNat
  lt : hdr.toNat < 0x43dc0000
  end_le : hdr.toNat + min len.toNat rpmsgBufferSize ≤ 0x43dc0000

/-- From `s` to `t`, exactly the descriptor `idx` was queued. -/
structure Queued (s t : TxSide) (idx : BitVec 16) : Prop where
  idx_eq : t.vq.vqRing.used.idx = s.vq.vqRing.used.idx + 1#16
  id_eq : (t.vq.vqRing.used.ring (s.vq.slot s.vq.vqRing.used.idx)).id = BitVec.setWidth 32 idx
  ring_eq : ∀ i ≠ s.vq.slot s.vq.vqRing.used.idx, t.vq.vqRing.used.ring i = s.vq.vqRing.used.ring i

/-- The buffer has a message with the data. -/
def Holds (t : TxSide) (hdr : BitVec 32) (data : Source) (size : BitVec 16) : Prop :=
  hdrLen t.mem hdr.toNat = size ∧ ∀ i < size.toNat, t.mem (rpmsgLocateData hdr.toNat + i) = data.bytes i

/-- The result of a call: all of the message or nothing of it, and no store outside the buffer. -/
def AllOrNothing (s : TxSide) (hdr : BitVec 32) (idx : BitVec 16) (len : BitVec 32) (data : Source)
    (size : BitVec 16) (r : Int × TxSide) : Prop :=
  (r.1 = size.toNat ∧ Queued s r.2 idx ∧ r.2.Holds hdr data size ∨
    r.1 < 0 ∧ r.2.vq.vqRing.used = s.vq.vqRing.used) ∧
  ∃ new, r.2.written = s.written ++ new ∧ ∀ a ∈ new, hdr.toNat ≤ a ∧ a < hdr.toNat + len.toNat

/-! ## What a call does -/

/-- The length of the message, as `rpmsg_virtio_send_offchannel_raw` truncates it. -/
def sendLen (len buffLen : BitVec 32) : BitVec 32 :=
  if (buffLen - 16#32).toInt < len.toInt then buffLen - 16#32 else len

/-- After the copy of the data. -/
def copied (s : TxSide) (hdr : BitVec 32) (idx : BitVec 16) (data : Source) (n : BitVec 32) : TxSide :=
  (s.reserve hdr idx).store
    (blockWriteStores s.shbufIo (metalIoVirtToOffset s.shbufIo (hdr + 16#32)) data n)

/-- After the call. -/
def sent (s : TxSide) (hdr : BitVec 32) (idx : BitVec 16) (data header : Source) (n : BitVec 32) : TxSide :=
  let s := s.copied hdr idx data n
  (s.store (blockWriteStores s.shbufIo (metalIoVirtToOffset s.shbufIo hdr) header 16#32)).enqueue
    (rpmsgBufIndex s.mem hdr.toNat)

/-- The copy of the data returns. -/
def CopyEnds (hdr n : BitVec 32) : Prop :=
  WriteEnds shmRegion (metalIoVirtToOffset shmRegion (hdr + 16#32)) n

section

variable {s s₁ : TxSide} {driver : Nat → VringAvail × (Nat → VringDesc)} {hdr buffLen : BitVec 32}
  {idx : BitVec 16}

/-- The call, once it has a buffer. -/
theorem sendOffchannelRaw_eq (hok : s.driverOk = true)
    (hget : rpmsgVirtioGetTxBuffer driver rpmsgTicks s = (some (hdr, idx, buffLen), s₁))
    (hio : s₁.shbufIo = shmRegion) (sp src dst : BitVec 32) (data : Source) (len : BitVec 32) :
    s.rpmsgVirtioSendOffchannelRaw driver sp src dst data len =
      metalIoBlockWrite shmRegion (metalIoVirtToOffset shmRegion (hdr + 16#32)) data (sendLen len buffLen)
        >>= fun w => ((s₁.reserve hdr idx).store w.2).rpmsgVirtioSendOffchannelNocopy sp src dst
          (hdr + 16#32) (sendLen len buffLen) := by
  have hio' : (s₁.reserve hdr idx).shbufIo = shmRegion := hio
  have hpayload : s.rpmsgVirtioGetTxPayloadBuffer driver =
      (some (hdr + 16#32, buffLen - 16#32), s₁.reserve hdr idx) := by
    rw [rpmsgVirtioGetTxPayloadBuffer, if_pos hok, hget]
    rfl
  rw [rpmsgVirtioSendOffchannelRaw, hpayload]
  simp only [hio']
  rfl

theorem sendOffchannelRaw_returns (hok : s.driverOk = true)
    (hget : rpmsgVirtioGetTxBuffer driver rpmsgTicks s = (some (hdr, idx, buffLen), s₁))
    (hio : s₁.shbufIo = shmRegion) (hlo : 0x43d80000 ≤ hdr.toNat) {len : BitVec 32}
    (hends : CopyEnds hdr (sendLen len buffLen)) (sp src dst : BitVec 32) (data : Source) :
    (s.rpmsgVirtioSendOffchannelRaw driver sp src dst data len).Returns
      ((sendLen len buffLen).toInt, s₁.sent hdr idx data (rpHdr sp src dst (sendLen len buffLen))
        (sendLen len buffLen)) := by
  have hhdr : WriteEnds shmRegion (metalIoVirtToOffset shmRegion hdr) 16#32 :=
    writeEnds_of_lt hlo (by decide)
  have hcopied : (s₁.copied hdr idx data (sendLen len buffLen)).shbufIo = shmRegion := hio
  rw [sendOffchannelRaw_eq hok hget hio]
  obtain ⟨ret, hw⟩ := metalIoBlockWrite_returns hends data
  obtain ⟨ret', hw'⟩ := metalIoBlockWrite_returns hhdr (rpHdr sp src dst (sendLen len buffLen))
  refine Comp.returns_bind.mpr ⟨_, hw, ?_⟩
  simp only [rpmsgVirtioSendOffchannelNocopy, rpmsgHdrSize, BitVec.add_sub_cancel, sent, hcopied]
  rw [copied, hio] at hcopied ⊢
  simp only [hcopied]
  exact Comp.returns_bind.mpr ⟨_, hw', Comp.returns_pure.mpr rfl⟩

theorem sendOffchannelRaw_diverges (hok : s.driverOk = true)
    (hget : rpmsgVirtioGetTxBuffer driver rpmsgTicks s = (some (hdr, idx, buffLen), s₁))
    (hio : s₁.shbufIo = shmRegion) {len : BitVec 32} (hends : ¬ CopyEnds hdr (sendLen len buffLen))
    (sp src dst : BitVec 32) (data : Source) :
    (s.rpmsgVirtioSendOffchannelRaw driver sp src dst data len).Diverges := by
  rw [sendOffchannelRaw_eq hok hget hio]
  exact (metalIoBlockWrite_diverges hends data).bind _

end

/-! ## The index and the queue -/

section

variable {s t : TxSide} {hdr buffLen n : BitVec 32} {idx : BitVec 16} {data header : Source}

theorem hdrReserved_reserve (s : TxSide) (hdr : BitVec 32) (idx : BitVec 16) :
    hdrReserved (s.reserve hdr idx).mem hdr.toNat = idx.toNat + rpmsgBufHeld := by
  have hidx := idx.isLt
  have hheld : rpmsgBufHeld = 0x10000 := rfl
  have hset : hdrReserved (s.setReserved hdr idx.toNat).mem hdr.toNat = idx.toNat :=
    hdrReserved_setHdrReserved _ _ (by omega)
  rw [reserve, hset]
  exact hdrReserved_setHdrReserved _ _ (by omega)

/-- The index survives stores that leave the header. -/
theorem rpmsgBufIndex_store {stores : Stores}
    (h : ∀ x, hdr.toNat + 8 ≤ x → x < hdr.toNat + 12 → x ∉ stores.map (·.2)) :
    rpmsgBufIndex ((s.reserve hdr idx).store stores).mem hdr.toNat = idx := by
  have hidx := idx.isLt
  have hheld : rpmsgBufHeld = 0x10000 := rfl
  have hkeep : hdrReserved ((s.reserve hdr idx).store stores).mem hdr.toNat =
      hdrReserved (s.reserve hdr idx).mem hdr.toNat :=
    hdrReserved_congr fun x h8 h12 => storeAll_of_notMem (h x h8 h12) _
  rw [rpmsgBufIndex, hkeep, hdrReserved_reserve]
  apply BitVec.eq_of_toNat_eq
  rw [BitVec.toNat_ofNat]
  omega

theorem enqueue_queued (hvq : t.vq = s.vq) (hidx : idx < s.vq.nentries) : Queued s (t.enqueue idx) idx := by
  have hadd : ¬ t.vq.nentries ≤ idx := by
    rw [hvq]
    exact BitVec.not_le.mpr hidx
  rw [enqueue, virtqueueAddConsumedBuffer, if_neg hadd]
  simp only [virtqueueKick, hvq]
  exact ⟨rfl, by simp [Virtqueue.slot], fun i hi => Function.update_of_ne hi _ _⟩

theorem Queued.used_ne (h : Queued s t idx) : t.vq.vqRing.used ≠ s.vq.vqRing.used := by
  intro he
  have hidx := h.idx_eq
  rw [he] at hidx
  have hone := BitVec.self_eq_add_right.mp hidx
  exact absurd hone (by decide)

/-- The loop that takes a buffer leaves the memory and the used ring. -/
structure SameUsed (s t : TxSide) : Prop where
  mem : t.mem = s.mem
  written : t.written = s.written
  shbufIo : t.shbufIo = s.shbufIo
  used : t.vq.vqRing.used = s.vq.vqRing.used
  nentries : t.vq.nentries = s.vq.nentries

theorem SameUsed.trans {u : TxSide} (h : SameUsed s t) (h' : SameUsed t u) : SameUsed s u :=
  ⟨h'.mem.trans h.mem, h'.written.trans h.written, h'.shbufIo.trans h.shbufIo, h'.used.trans h.used,
    h'.nentries.trans h.nentries⟩

theorem SameUsed.symm (h : SameUsed s t) : SameUsed t s :=
  ⟨h.mem.symm, h.written.symm, h.shbufIo.symm, h.used.symm, h.nentries.symm⟩

theorem SameUsed.queued (h : SameUsed s t) {u : TxSide} (hq : Queued t u idx) : Queued s u idx := by
  obtain ⟨hidx, hid, hring⟩ := hq
  have hslot : ∀ i, t.vq.slot i = s.vq.slot i := fun i => by rw [Virtqueue.slot, h.nentries, Virtqueue.slot]
  rw [h.used, hslot] at hid hring
  rw [h.used] at hidx
  exact ⟨hidx, hid, hring⟩

theorem sameUsed_getAvailable (s : TxSide) (driver : VringAvail × (Nat → VringDesc)) :
    SameUsed s { s with vq := (virtqueueGetAvailableBuffer (s.publish driver).vq).2 } := by
  rw [virtqueueGetAvailableBuffer]
  split <;> exact ⟨rfl, rfl, rfl, rfl, rfl⟩

theorem sameUsed_getTxBuffer (driver : Nat → VringAvail × (Nat → VringDesc)) (ticks : Nat) (s : TxSide) :
    SameUsed s (rpmsgVirtioGetTxBuffer driver ticks s).2 := by
  induction ticks generalizing s with
  | zero => exact sameUsed_getAvailable s (driver 0)
  | succ ticks ih =>
    have hsame := sameUsed_getAvailable s (driver (ticks + 1))
    rw [rpmsgVirtioGetTxBuffer]
    simp only
    split
    · exact hsame
    · exact hsame.trans (ih _)

theorem sameUsed_of_getTxBuffer {driver : Nat → VringAvail × (Nat → VringDesc)} {ticks : Nat}
    {r : Option (BitVec 32 × BitVec 16 × BitVec 32)} (hget : rpmsgVirtioGetTxBuffer driver ticks s = (r, t)) :
    SameUsed s t := by
  have hsame := sameUsed_getTxBuffer driver ticks s
  rwa [hget] at hsame

/-! ## The stores -/

theorem Placed.toNat_data (h : Placed hdr buffLen) : (hdr + 16#32).toNat = hdr.toNat + 16 := by
  have hlt := h.lt
  rw [BitVec.toNat_add]
  exact Nat.mod_eq_of_lt (by change hdr.toNat + 16 < _; omega)

/-- The stores of the data. -/
def dataStores (hdr : BitVec 32) (data : Source) (n : BitVec 32) : Stores :=
  blockWriteStores shmRegion (metalIoVirtToOffset shmRegion (hdr + 16#32)) data n

/-- The stores of the header. -/
def hdrStores (hdr : BitVec 32) (header : Source) : Stores :=
  blockWriteStores shmRegion (metalIoVirtToOffset shmRegion hdr) header 16#32

/-- The stores of a copy that returns leave the header. -/
theorem Placed.notMem_dataStores (h : Placed hdr buffLen) (hends : CopyEnds hdr n) {x : Nat}
    (hlo : hdr.toNat ≤ x) (hhi : x < hdr.toNat + 16) : x ∉ (dataStores hdr data n).map (·.2) := by
  have hdata := h.toNat_data
  have hle := h.le
  rw [dataStores]
  by_cases hin : hdr.toNat + 16 < 0x43dc0000
  · have hlen := (writeEnds_iff (by omega) (by omega) n).mp hends
    rw [blockWriteStores_of_lt (by omega) (by omega)]
    exact notMem_blockStores (by omega) (by omega) (by omega) (by omega)
  · rw [blockWriteStores_of_le (by omega)]
    exact List.not_mem_nil

theorem sent_queued (hio : s.shbufIo = shmRegion) (h : Placed hdr buffLen) (hidx : idx < s.vq.nentries)
    (hends : CopyEnds hdr n) : Queued s (s.sent hdr idx data header n) idx := by
  have hback : rpmsgBufIndex (s.copied hdr idx data n).mem hdr.toNat = idx := by
    rw [copied, hio]
    exact rpmsgBufIndex_store fun x h8 h12 => h.notMem_dataStores hends (by omega) (by omega)
  rw [sent, hback]
  exact enqueue_queued rfl hidx

/-- The addresses of the stores to the `reserved` field. -/
def reservedAddrs (hdr : BitVec 32) : List Nat :=
  (List.range 4).map (hdr.toNat + 8 + ·) ++ (List.range 4).map (hdr.toNat + 8 + ·)

theorem written_sent (hio : s.shbufIo = shmRegion) : (s.sent hdr idx data header n).written =
    s.written ++ (reservedAddrs hdr ++
      ((dataStores hdr data n).map (·.2) ++ (hdrStores hdr header).map (·.2))) := by
  simp only [sent, copied, reserve, setReserved, store, enqueue, virtqueueKick, hio, reservedAddrs,
    dataStores, hdrStores, List.append_assoc]

theorem mem_sent (hio : s.shbufIo = shmRegion) : (s.sent hdr idx data header n).mem =
    storeAll (storeAll (s.reserve hdr idx).mem (dataStores hdr data n)) (hdrStores hdr header) := by
  have hio' : (s.reserve hdr idx).shbufIo = shmRegion := hio
  simp only [sent, copied, store, enqueue, virtqueueKick, hio, hio', dataStores, hdrStores]

/-! ## The cases of the length -/

variable {size : BitVec 16}

theorem toNat_setWidth_size (size : BitVec 16) : (BitVec.setWidth 32 size).toNat = size.toNat :=
  BitVec.toNat_setWidth_of_le (by decide)

theorem toInt_setWidth_size (hsize : size.toNat ≤ 496) : (BitVec.setWidth 32 size).toInt = size.toNat := by
  rw [BitVec.toInt_eq_toNat_cond, toNat_setWidth_size, if_pos (by omega)]

theorem toNat_room (h : 16 ≤ buffLen.toNat) : (buffLen - 16#32).toNat = buffLen.toNat - 16 :=
  BitVec.toNat_sub_of_le (by rw [BitVec.le_def]; exact h)

/-- The room behind the header, when it is not negative. -/
theorem toInt_room (hlo : 16 ≤ buffLen.toNat) (hhi : buffLen.toNat < 2 ^ 31 + 16) :
    (buffLen - 16#32).toInt = (buffLen.toNat : Int) - 16 := by
  rw [BitVec.toInt_eq_toNat_cond, toNat_room hlo, if_pos (by omega)]
  omega

theorem toInt_room_neg (h : buffLen.toNat < 16 ∨ 2 ^ 31 + 16 ≤ buffLen.toNat) :
    (buffLen - 16#32).toInt < 0 := by
  have hlt := buffLen.isLt
  have hsub : (buffLen - 16#32).toNat = (2 ^ 32 - 16 + buffLen.toNat) % 2 ^ 32 := BitVec.toNat_sub _ _
  rw [BitVec.toInt_eq_toNat_cond, hsub]
  split <;> omega

/-- The message fits. -/
theorem sendLen_of_fits (hsize : size.toNat ≤ 496) (hlo : 16 + size.toNat ≤ buffLen.toNat)
    (hhi : buffLen.toNat < 2 ^ 31 + 16) :
    sendLen (BitVec.setWidth 32 size) buffLen = BitVec.setWidth 32 size := by
  rw [sendLen, toInt_room (by omega) hhi, toInt_setWidth_size hsize, if_neg (by omega)]

/-- The message does not fit. -/
theorem sendLen_of_not_fits (hsize : size.toNat ≤ 496)
    (h : ¬ (16 + size.toNat ≤ buffLen.toNat ∧ buffLen.toNat < 2 ^ 31 + 16)) :
    sendLen (BitVec.setWidth 32 size) buffLen = buffLen - 16#32 := by
  rw [sendLen, toInt_setWidth_size hsize]
  by_cases hroom : 16 ≤ buffLen.toNat ∧ buffLen.toNat < 2 ^ 31 + 16
  · rw [toInt_room hroom.1 hroom.2, if_pos (by omega)]
  · have hneg := @toInt_room_neg buffLen (by omega)
    rw [if_pos (by omega)]

/-! ## A message that fits -/

theorem Placed.copyEnds (h : Placed hdr buffLen) (hn : n.toNat < 2 ^ 31) : CopyEnds hdr n := by
  have hdata := h.toNat_data
  have hle := h.le
  exact writeEnds_of_lt (by omega) hn

theorem Placed.dataStores_eq (h : Placed hdr buffLen) (hsize : size.toNat ≤ 496)
    (hfits : 16 + size.toNat ≤ buffLen.toNat) :
    dataStores hdr data (BitVec.setWidth 32 size) = blockStores data (hdr + 16#32) size.toNat := by
  have hdata := h.toNat_data
  have hle := h.le
  have hend := h.end_le
  have h512 : rpmsgBufferSize = 512 := rfl
  have hwide := toNat_setWidth_size size
  rw [dataStores]
  by_cases hin : hdr.toNat + 16 < 0x43dc0000
  · rw [blockWriteStores_of_lt (by omega) (by omega), toNat_blockLen (by omega) (by omega), hwide,
      if_neg (by omega)]
  · have hzero : size.toNat = 0 := by omega
    rw [blockWriteStores_of_le (by omega), hzero]
    rfl

theorem Placed.hdrStores_eq (h : Placed hdr buffLen) (hfits : 16 ≤ buffLen.toNat) :
    hdrStores hdr header = blockStores header hdr 16 := by
  have hle := h.le
  have hend := h.end_le
  have h512 : rpmsgBufferSize = 512 := rfl
  rw [hdrStores, blockWriteStores_of_lt hle h.lt, toNat_blockLen hle h.lt,
    if_neg (by simp only [BitVec.toNat_ofNat]; omega)]
  rfl

/-- The addresses of stores that do not wrap. -/
theorem mem_blockStores {src : Source} {p : BitVec 32} {k a : Nat} (hp : p.toNat + k ≤ 2 ^ 32)
    (ha : a ∈ (blockStores src p k).map (·.2)) : p.toNat ≤ a ∧ a < p.toNat + k := by
  rw [map_snd_blockStores] at ha
  obtain ⟨i, hi, rfl⟩ := List.mem_map.mp ha
  have hik := List.mem_range.mp hi
  rw [BitVec.toNat_add, BitVec.toNat_ofNat]
  omega

theorem mem_reservedAddrs {a : Nat} (ha : a ∈ reservedAddrs hdr) :
    hdr.toNat + 8 ≤ a ∧ a < hdr.toNat + 12 := by
  simp only [reservedAddrs, List.mem_append, List.mem_map, List.mem_range, or_self] at ha
  obtain ⟨i, hi, rfl⟩ := ha
  omega

theorem sent_holds (hio : s.shbufIo = shmRegion) (h : Placed hdr buffLen) (hsize : size.toNat ≤ 496)
    (hfits : 16 + size.toNat ≤ buffLen.toNat) (sp src dst : BitVec 32) :
    (s.sent hdr idx data (rpHdr sp src dst (BitVec.setWidth 32 size))
      (BitVec.setWidth 32 size)).Holds hdr data size := by
  have hdata := h.toNat_data
  have hlt := h.lt
  have hwide := toNat_setWidth_size size
  rw [Holds, mem_sent hio, h.dataStores_eq hsize hfits, h.hdrStores_eq (by omega)]
  constructor
  · have hbytes : BytesAt (storeAll (storeAll (s.reserve hdr idx).mem
        (blockStores data (hdr + 16#32) size.toNat)) (blockStores (rpHdr sp src dst
          (BitVec.setWidth 32 size)) hdr 16)) hdr.toNat (rpmsgHdrBytes ⟨src, dst, []⟩ size.toNat) := by
      intro i hi
      rw [length_rpmsgHdrBytes] at hi
      rw [storeAll_blockStores (by omega), if_pos (by omega), Nat.add_sub_cancel_left, rpHdr, hwide]
    apply BitVec.eq_of_toNat_eq
    exact hdrLen_of_bytesAt (by omega) hbytes
  · intro i hi
    rw [rpmsgLocateData, rpmsgHdrSize, storeAll_blockStores (by omega), if_neg (by omega),
      storeAll_blockStores (by omega), if_pos (by omega)]
    congr 1
    omega

theorem sent_of_fits (hio : s.shbufIo = shmRegion) (h : Placed hdr buffLen) (hidx : idx < s.vq.nentries)
    (hsize : size.toNat ≤ 496) (hfits : 16 + size.toNat ≤ buffLen.toNat) (sp src dst : BitVec 32) :
    AllOrNothing s hdr idx buffLen data size (size.toNat, s.sent hdr idx data
      (rpHdr sp src dst (BitVec.setWidth 32 size)) (BitVec.setWidth 32 size)) := by
  have hdata := h.toNat_data
  have hlt := h.lt
  have hwide := toNat_setWidth_size size
  refine ⟨.inl ⟨rfl, sent_queued hio h hidx (h.copyEnds (by omega)), sent_holds hio h hsize hfits ..⟩,
    _, written_sent hio, fun a ha => ?_⟩
  rw [h.dataStores_eq hsize hfits, h.hdrStores_eq (by omega)] at ha
  rcases List.mem_append.mp ha with ha | ha
  · have := mem_reservedAddrs ha
    omega
  · rcases List.mem_append.mp ha with ha | ha
    · have := mem_blockStores (by omega) ha
      omega
    · have := mem_blockStores (by omega) ha
      omega

/-! ## A message that does not fit -/

/-- A call that queues its descriptor has to return the size. -/
theorem Queued.not_allOrNothing {r : Int × TxSide} (hq : Queued s r.2 idx) (hr : r.1 ≠ size.toNat) :
    ¬ AllOrNothing s hdr idx buffLen data size r := by
  rintro ⟨⟨hsize, -⟩ | ⟨-, hused⟩, -⟩
  · exact hr hsize
  · exact hq.used_ne hused

theorem sent_of_not_fits (hio : s.shbufIo = shmRegion) (h : Placed hdr buffLen) (hidx : idx < s.vq.nentries)
    (hends : CopyEnds hdr (buffLen - 16#32))
    (hfits : ¬ (16 + size.toNat ≤ buffLen.toNat ∧ buffLen.toNat < 2 ^ 31 + 16)) (header : Source) :
    ¬ AllOrNothing s hdr idx buffLen data size
      ((buffLen - 16#32).toInt, s.sent hdr idx data header (buffLen - 16#32)) := by
  have hq : Queued s (s.sent hdr idx data header (buffLen - 16#32)) idx := sent_queued hio h hidx hends
  apply hq.not_allOrNothing
  simp only
  by_cases hpos : 16 ≤ buffLen.toNat ∧ buffLen.toNat < 2 ^ 31 + 16
  · rw [toInt_room hpos.1 hpos.2]
    omega
  · have hneg := @toInt_room_neg buffLen (by omega)
    omega

/-! ## The call -/

/-- What a call with a buffer does with a message that is not too long. -/
theorem sent_allOrNothing_iff (hio : s.shbufIo = shmRegion) (h : Placed hdr buffLen)
    (hidx : idx < s.vq.nentries) (hsize : size.toNat ≤ 496)
    (hends : CopyEnds hdr (sendLen (BitVec.setWidth 32 size) buffLen)) (sp src dst : BitVec 32) :
    AllOrNothing s hdr idx buffLen data size
      ((sendLen (BitVec.setWidth 32 size) buffLen).toInt, s.sent hdr idx data
        (rpHdr sp src dst (sendLen (BitVec.setWidth 32 size) buffLen))
        (sendLen (BitVec.setWidth 32 size) buffLen)) ↔
      16 + size.toNat ≤ buffLen.toNat ∧ buffLen.toNat < 2 ^ 31 + 16 := by
  by_cases hfits : 16 + size.toNat ≤ buffLen.toNat ∧ buffLen.toNat < 2 ^ 31 + 16
  · rw [sendLen_of_fits hsize hfits.1 hfits.2, toInt_setWidth_size hsize]
    exact iff_of_true (sent_of_fits hio h hidx hsize hfits.1 ..) hfits
  · rw [sendLen_of_not_fits hsize hfits] at hends ⊢
    exact iff_of_false (sent_of_not_fits hio h hidx hends hfits _) hfits

/-- A call is judged by what was there before it took its buffer. -/
theorem SameUsed.allOrNothing_iff (hs : SameUsed s t) {r : Int × TxSide} :
    AllOrNothing t hdr idx buffLen data size r ↔ AllOrNothing s hdr idx buffLen data size r := by
  have hq : Queued t r.2 idx ↔ Queued s r.2 idx := ⟨hs.queued, hs.symm.queued⟩
  rw [AllOrNothing, AllOrNothing, hq, hs.used, hs.written]

/-- A call that does nothing and returns an error. -/
theorem allOrNothing_refused {ret : Int} (h : ret < 0) : AllOrNothing s hdr idx buffLen data size (ret, s) :=
  ⟨.inr ⟨h, rfl⟩, [], (List.append_nil _).symm, fun _ ha => absurd ha List.not_mem_nil⟩

theorem virtUartTransmit_long {ept : RpmsgEndpoint} {driver : Nat → VringAvail × (Nat → VringDesc)}
    {sp : BitVec 32} (hsize : ¬ size.toNat ≤ 496) :
    s.virtUartTransmit driver sp ept data size = pure (-1, s) :=
  if_pos (show rpmsgBufferSize - 16 < size.toNat from Nat.lt_of_not_le hsize)

theorem virtUartTransmit_null {ept : RpmsgEndpoint} {driver : Nat → VringAvail × (Nat → VringDesc)}
    {sp : BitVec 32} (hsize : size.toNat ≤ 496) (hdata : data.addr = 0#32) :
    s.virtUartTransmit driver sp ept data size = pure (rpmsgErrParam, s) := by
  rw [virtUartTransmit, if_neg (show ¬ rpmsgBufferSize - 16 < size.toNat from Nat.not_lt.mpr hsize),
    rpmsgSendOffchannelRaw, if_pos (.inr (.inl hdata))]

/-- A call that passes the checks. -/
theorem virtUartTransmit_raw {ept : RpmsgEndpoint} (hready : s.Ready ept) (hsize : size.toNat ≤ 496)
    (hdata : data.addr ≠ 0#32) (driver : Nat → VringAvail × (Nat → VringDesc)) (sp : BitVec 32) :
    s.virtUartTransmit driver sp ept data size =
      s.rpmsgVirtioSendOffchannelRaw driver sp ept.addr ept.destAddr data (BitVec.setWidth 32 size) := by
  have h512 : rpmsgBufferSize = 512 := rfl
  have hpass : ¬ (ept.rdev = false ∨ data.addr = 0#32 ∨ ept.destAddr = rpmsgAddrAny ∨
      (BitVec.setWidth 32 size).toInt < 0) := by
    rw [hready.rdev, toInt_setWidth_size hsize]
    simp only [Bool.true_eq_false, hdata, hready.destAddr, false_or]
    omega
  rw [virtUartTransmit, if_neg (by omega), rpmsgSendOffchannelRaw, if_neg hpass]

/-- With a buffer. -/
theorem virtUartTransmit_returns {s₁ : TxSide} {ept : RpmsgEndpoint}
    {driver : Nat → VringAvail × (Nat → VringDesc)} (hready : s.Ready ept)
    (hget : rpmsgVirtioGetTxBuffer driver rpmsgTicks s = (some (hdr, idx, buffLen), s₁))
    (h : Placed hdr buffLen) (hends : CopyEnds hdr (sendLen (BitVec.setWidth 32 size) buffLen))
    (hsize : size.toNat ≤ 496) (hdata : data.addr ≠ 0#32) (sp : BitVec 32) :
    (s.virtUartTransmit driver sp ept data size).Returns
      ((sendLen (BitVec.setWidth 32 size) buffLen).toInt, s₁.sent hdr idx data
        (rpHdr sp ept.addr ept.destAddr (sendLen (BitVec.setWidth 32 size) buffLen))
        (sendLen (BitVec.setWidth 32 size) buffLen)) := by
  have hsame := sameUsed_of_getTxBuffer hget
  rw [virtUartTransmit_raw hready hsize hdata]
  exact sendOffchannelRaw_returns hready.driverOk hget (hsame.shbufIo.trans hready.shbufIo) h.le hends ..

/-- With a buffer, and a copy of a negative length. -/
theorem virtUartTransmit_diverges {s₁ : TxSide} {ept : RpmsgEndpoint}
    {driver : Nat → VringAvail × (Nat → VringDesc)} (hready : s.Ready ept)
    (hget : rpmsgVirtioGetTxBuffer driver rpmsgTicks s = (some (hdr, idx, buffLen), s₁))
    (hends : ¬ CopyEnds hdr (sendLen (BitVec.setWidth 32 size) buffLen)) (hsize : size.toNat ≤ 496)
    (hdata : data.addr ≠ 0#32) (sp : BitVec 32) :
    (s.virtUartTransmit driver sp ept data size).Diverges := by
  have hsame := sameUsed_of_getTxBuffer hget
  rw [virtUartTransmit_raw hready hsize hdata]
  exact sendOffchannelRaw_diverges hready.driverOk hget (hsame.shbufIo.trans hready.shbufIo) hends _ _ _ _

/-- Without one until the ticks are over: nothing is queued or stored. -/
theorem virtUartTransmit_noBuffer {s₁ : TxSide} {ept : RpmsgEndpoint}
    {driver : Nat → VringAvail × (Nat → VringDesc)} (hready : s.Ready ept)
    (hget : rpmsgVirtioGetTxBuffer driver rpmsgTicks s = (none, s₁)) (hsize : size.toNat ≤ 496)
    (hdata : data.addr ≠ 0#32) (sp : BitVec 32) :
    s.virtUartTransmit driver sp ept data size = pure (rpmsgErrNoBuff, s₁) ∧ SameUsed s s₁ := by
  have hsame := sameUsed_of_getTxBuffer hget
  refine ⟨?_, hsame⟩
  rw [virtUartTransmit_raw hready hsize hdata, rpmsgVirtioSendOffchannelRaw, rpmsgVirtioGetTxPayloadBuffer,
    if_pos hready.driverOk, hget]

end

/-- The part of a message that a buffer of `buffLen` bytes has room for. -/
def sentSize (size : BitVec 16) (buffLen : BitVec 32) : BitVec 16 :=
  BitVec.ofNat 16 (min size.toNat (buffLen.toNat - 16))

theorem toNat_sentSize (size : BitVec 16) (buffLen : BitVec 32) :
    (sentSize size buffLen).toNat = min size.toNat (buffLen.toNat - 16) := by
  have hlt := size.isLt
  rw [sentSize, BitVec.toNat_ofNat, Nat.mod_eq_of_lt (by omega)]

theorem sendLen_eq_sentSize {size : BitVec 16} {buffLen : BitVec 32} (hsize : size.toNat ≤ 496)
    (hlo : 16 ≤ buffLen.toNat) (hhi : buffLen.toNat < 2 ^ 31 + 16) :
    sendLen (BitVec.setWidth 32 size) buffLen = BitVec.setWidth 32 (sentSize size buffLen) := by
  apply BitVec.eq_of_toNat_eq
  rw [toNat_setWidth_size, toNat_sentSize]
  by_cases hfits : 16 + size.toNat ≤ buffLen.toNat
  · rw [sendLen_of_fits hsize hfits hhi, toNat_setWidth_size]
    omega
  · rw [sendLen_of_not_fits hsize fun h => hfits h.1, toNat_room hlo]
    omega

/-- `virt_uart_transmit` of a UART that is ready, for every size and data, with a length in the descriptor
handed out that leaves a room which is no negative `int`: it sends what there is room for, or nothing, and
stores nothing outside the buffer. -/
theorem virtUartTransmit_sends {s s₁ : TxSide} {ept : RpmsgEndpoint}
    {driver : Nat → VringAvail × (Nat → VringDesc)} {hdr buffLen : BitVec 32} {idx : BitVec 16}
    (hready : s.Ready ept)
    (hget : rpmsgVirtioGetTxBuffer driver rpmsgTicks s = (some (hdr, idx, buffLen), s₁))
    (hidx : idx < s.vq.nentries) (hplaced : Placed hdr buffLen) (sp : BitVec 32) (data : Source)
    (size : BitVec 16) (hlen : size.toNat ≤ 496 → 16 ≤ buffLen.toNat ∧ buffLen.toNat < 2 ^ 31 + 16) :
    (s.virtUartTransmit driver sp ept data size).Ends
      (AllOrNothing s hdr idx buffLen data (sentSize size buffLen)) := by
  by_cases hsize : size.toNat ≤ 496
  · obtain ⟨hlo, hhi⟩ := hlen hsize
    by_cases hdata : data.addr = 0#32
    · rw [virtUartTransmit_null hsize hdata, Comp.ends_pure]
      exact allOrNothing_refused (by decide)
    · have hsame := sameUsed_of_getTxBuffer hget
      have hsent := toNat_sentSize size buffLen
      have hwide := toNat_setWidth_size (sentSize size buffLen)
      have hends : CopyEnds hdr (sendLen (BitVec.setWidth 32 size) buffLen) := by
        rw [sendLen_eq_sentSize hsize hlo hhi]
        exact hplaced.copyEnds (by omega)
      rw [(virtUartTransmit_returns hready hget hplaced hends hsize hdata sp).ends_iff,
        ← hsame.allOrNothing_iff, sendLen_eq_sentSize hsize hlo hhi, toInt_setWidth_size (by omega)]
      exact sent_of_fits (hsame.shbufIo.trans hready.shbufIo) hplaced
        (by rw [hsame.nentries]; exact hidx) (by omega) (by omega) ..
  · rw [virtUartTransmit_long hsize, Comp.ends_pure]
    exact allOrNothing_refused (by decide)

/-- Exactly when it is all of the message or nothing, for every length that the host wrote: the call is
refused at once, or the length has room for the header and the data and is below `2 ^ 31 + 16`. -/
theorem virtUartTransmit_allOrNothing_iff {s s₁ : TxSide} {ept : RpmsgEndpoint}
    {driver : Nat → VringAvail × (Nat → VringDesc)} {hdr buffLen : BitVec 32} {idx : BitVec 16}
    (hready : s.Ready ept)
    (hget : rpmsgVirtioGetTxBuffer driver rpmsgTicks s = (some (hdr, idx, buffLen), s₁))
    (hidx : idx < s.vq.nentries) (hplaced : Placed hdr buffLen) (sp : BitVec 32) (data : Source)
    (size : BitVec 16) :
    (s.virtUartTransmit driver sp ept data size).Ends (AllOrNothing s hdr idx buffLen data size) ↔
      496 < size.toNat ∨ data.addr = 0#32 ∨
        16 + size.toNat ≤ buffLen.toNat ∧ buffLen.toNat < 2 ^ 31 + 16 := by
  by_cases hsize : size.toNat ≤ 496
  · rw [or_iff_right (Nat.not_lt.mpr hsize)]
    by_cases hdata : data.addr = 0#32
    · rw [virtUartTransmit_null hsize hdata, Comp.ends_pure]
      exact iff_of_true (allOrNothing_refused (by decide)) (.inl hdata)
    · have hsame := sameUsed_of_getTxBuffer hget
      rw [or_iff_right hdata]
      by_cases hends : CopyEnds hdr (sendLen (BitVec.setWidth 32 size) buffLen)
      · rw [(virtUartTransmit_returns hready hget hplaced hends hsize hdata sp).ends_iff,
          ← hsame.allOrNothing_iff]
        exact sent_allOrNothing_iff (hsame.shbufIo.trans hready.shbufIo) hplaced
          (by rw [hsame.nentries]; exact hidx) hsize hends ..
      · refine iff_of_false ((virtUartTransmit_diverges hready hget hends hsize hdata sp).not_ends _) ?_
        rintro ⟨hlo, hhi⟩
        have hwide := toNat_setWidth_size size
        rw [sendLen_of_fits hsize hlo hhi] at hends
        exact hends (hplaced.copyEnds (by omega))
  · rw [virtUartTransmit_long hsize, Comp.ends_pure]
    exact iff_of_true (allOrNothing_refused (by decide)) (.inl (Nat.lt_of_not_le hsize))

/-! ## Runs -/

/-- A buffer at the first attempt. -/
theorem getTxBuffer_first {s : TxSide} {driver : Nat → VringAvail × (Nat → VringDesc)} {ticks : Nat}
    {r : BitVec 32 × BitVec 16 × BitVec 32} {vq : Virtqueue}
    (h : virtqueueGetAvailableBuffer (s.publish (driver ticks)).vq = (some r, vq)) :
    rpmsgVirtioGetTxBuffer driver ticks s = (some r, { s with vq }) := by
  cases ticks with
  | zero => rw [rpmsgVirtioGetTxBuffer, h]
  | succ ticks =>
    rw [rpmsgVirtioGetTxBuffer, h]
    rfl

/-- A device that has sent nothing. -/
def boot : TxSide where
  mem _ := 0#8
  written := []
  vq := ⟨0, 16#16, ⟨fun _ => ⟨0#64, 0#32⟩, ⟨0#16, 0#16, fun _ => 0#16⟩, ⟨0#16, 0#16, fun _ => ⟨0#32, 0#32⟩⟩⟩,
    0#16, shmRegion, 0#16⟩
  shbufIo := shmRegion
  features := 0#32
  driverOk := true
  kicks := 0

/-- The host publishes the first buffer of the shared memory, with the length `len`. -/
def bootDriver (len : BitVec 32) (_ : Nat) : VringAvail × (Nat → VringDesc) :=
  (⟨0#16, 1#16, fun _ => 3#16⟩, fun _ => ⟨0x43d80000#64, len⟩)

def bootEpt : RpmsgEndpoint := ⟨[], 0x400#32, 0x401#32, 1#32, true⟩

def bootData : Source := ⟨0x43e00000#32, fun _ => 46#8⟩

theorem boot_ready : boot.Ready bootEpt := ⟨rfl, rfl, rfl, by decide⟩

theorem boot_getTxBuffer (len : BitVec 32) (hlen : len.toNat ≤ 512) :
    ∃ s₁, rpmsgVirtioGetTxBuffer (bootDriver len) rpmsgTicks boot =
      (some (0x43d80000#32, 3#16, len), s₁) ∧ SameUsed boot s₁ := by
  have hin : VringDesc.InRegion ⟨0x43d80000#64, len⟩ :=
    ⟨show 0x43d80000 ≤ 0x43d80000 by decide, show 0x43d80000 < 0x43dc0000 by decide,
      show 0x43d80000 + len.toNat ≤ 0x43dc0000 by omega⟩
  have hget : virtqueueGetAvailableBuffer (boot.publish (bootDriver len rpmsgTicks)).vq =
      (some (0x43d80000#32, 3#16, len), _) :=
    virtqueueGetAvailableBuffer_eq rfl (show 0#16 ≠ 1#16 by decide) rfl hin
  have hfirst := getTxBuffer_first hget
  exact ⟨_, hfirst, sameUsed_of_getTxBuffer hfirst⟩

theorem boot_placed (len : BitVec 32) : Placed 0x43d80000#32 len :=
  ⟨by decide, by decide, show 0x43d80000 + min len.toNat 512 ≤ 0x43dc0000 by omega⟩

/-- Ten bytes, of which a descriptor of 20 has room for four. -/
theorem virtUartTransmit_sends_four :
    (boot.virtUartTransmit (bootDriver 20#32) 0x43e01000#32 bootEpt bootData 10#16).Ends
      (AllOrNothing boot 0x43d80000#32 3#16 20#32 bootData 4#16) := by
  obtain ⟨s₁, hget, -⟩ := boot_getTxBuffer 20#32 (by decide)
  exact virtUartTransmit_sends boot_ready hget (by decide) (boot_placed _) _ bootData 10#16 fun _ => by decide

/-- That is not the message. -/
theorem virtUartTransmit_truncates :
    ∃ t, (boot.virtUartTransmit (bootDriver 20#32) 0x43e01000#32 bootEpt bootData 10#16).Returns (4, t) ∧
      ¬ AllOrNothing boot 0x43d80000#32 3#16 20#32 bootData 10#16 (4, t) := by
  obtain ⟨s₁, hget, hsame⟩ := boot_getTxBuffer 20#32 (by decide)
  have hends : CopyEnds 0x43d80000#32 (sendLen (BitVec.setWidth 32 10#16) 20#32) :=
    (boot_placed 20#32).copyEnds (by decide)
  refine ⟨_, virtUartTransmit_returns boot_ready hget (boot_placed _) hends (by decide) (by decide) _,
    fun h => ?_⟩
  exact sent_of_not_fits hsame.shbufIo (boot_placed _) (by rw [hsame.nentries]; decide) hends (by decide) _
    (hsame.allOrNothing_iff.mpr h)

end TxSide

end V85x
