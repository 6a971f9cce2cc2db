import V85xAmp.Rpmsg.Receive
import V85xAmp.VirtUart.Echo

/-!
# The transmit path (`virt_uart_transmit`, `rpmsg_virtio_send_offchannel_raw`)

A call runs one access to shared memory at a time. Main code calls, and the mailbox interrupt calls on top of
it: the interrupt runs to its end, main code stands still. The host posts empty buffers on the tx vring, takes
back the used ones and writes what is its own between any two accesses.

The device side has a mutex around its accesses to the virtqueue. What `metal_mutex_acquire` does with it is
`acquireStep`.

`virtqueue_get_available_buffer` reads `vq_available_idx` for its test and again for its increment. The field
is not volatile, so that a compiler may use the first value twice: `merged` says whether it does.
-/

namespace V85x

open Firmware

/-! ## The mutex (`metal/system/generic/mutex.h`) -/

/-- `METAL_MUTEX_UNLOCKED` -/
def metalMutexUnlocked : Nat := 0

/-- `METAL_MUTEX_LOCKED` -/
def metalMutexLocked : Nat := 1

/-- `atomic_compare_exchange_weak`: its result, `*object` and `*expected` after it. `spurious` is a failure
without a reason. -/
def atomicCompareExchangeWeak (object expected desired : Nat) (spurious : Bool) : Bool × Nat × Nat :=
  if object = expected ∧ spurious = false then (true, desired, expected) else (false, object, object)

/-! ## Calls -/

/-- The arguments of a call: the addresses of the endpoint and the data. -/
structure TxCall where
  src : BitVec 32
  dst : BitVec 32
  data : List Byte
deriving Repr, DecidableEq

/-- The access that is next in a call. `ticks` is `tick_count`, `unlocked` the local variable of
`metal_mutex_acquire`, `hdr` the buffer, `len` the number of bytes to send and `buffLen` the length of the
buffer; the other arguments are values on their way from a load to a store. `RPMSG_ASSERT` is empty in this
build, and the code goes on behind one that fails. No run gets there: it is no place of the invariant
(`AtPc`). -/
inductive TxPc
  | idle
  | status
  | acquireGet (ticks unlocked : Nat)
  | loadAvailable (ticks : Nat)
  | test (ticks : Nat) (available : BitVec 16)
  | reloadAvailable (ticks : Nat) (available : BitVec 16)
  | storeAvailable (ticks : Nat) (available : BitVec 16)
  | loadRing (ticks : Nat) (available : BitVec 16)
  | loadAddr (ticks : Nat) (idx : BitVec 16)
  | loadLen (ticks : Nat) (idx : BitVec 16) (buffer : Option (BitVec 32))
  | releaseGet (ticks : Nat) (buffer : Option (Nat × BitVec 16 × BitVec 32))
  | setReserved (hdr : Nat) (idx : BitVec 16) (buffLen : BitVec 32)
  | loadHeld (hdr : Nat) (buffLen : BitVec 32)
  | storeHeld (hdr : Nat) (buffLen : BitVec 32) (reserved : Nat)
  | copy (hdr len i : Nat)
  | loadIndex (hdr len : Nat)
  | header (hdr len : Nat) (idx : BitVec 16) (i : Nat)
  | acquireSend (len : Nat) (idx : BitVec 16) (unlocked : Nat)
  | loadBuffLen (len : Nat) (idx : BitVec 16)
  | loadUsed (len : Nat) (idx : BitVec 16) (buffLen : BitVec 32)
  | storeId (len : Nat) (idx : BitVec 16) (buffLen : BitVec 32) (used : BitVec 16)
  | storeLen (len : Nat) (buffLen : BitVec 32) (used : BitVec 16)
  | reloadUsed (len : Nat)
  | storeUsed (len : Nat) (used : BitVec 16)
  | loadQueued (len : Nat)
  | storeQueued (len : Nat) (queued : BitVec 16)
  | kick (len : Nat)
  | clearQueued (len : Nat)
  | releaseSend (len : Nat)
  | assertFailed
deriving Repr, DecidableEq

namespace TxPc

/-- In the loop of `metal_mutex_acquire`. -/
def InAcquire : TxPc → Prop
  | .acquireGet _ _ | .acquireSend _ _ _ => True
  | _ => False

/-- Between the loads of `avail->idx` and of `vq_available_idx` that the increment needs. -/
def AtReloadAvailable : TxPc → Prop
  | .reloadAvailable _ _ => True
  | _ => False

/-- Between the load and the store of `vq_available_idx++`. -/
def AtStoreAvailable : TxPc → Prop
  | .storeAvailable _ _ => True
  | _ => False

/-- Between the load that `vq_available_idx++` uses and its store. The load is the one of the test when the
two are merged. -/
def InTake (merged : Bool) : TxPc → Prop
  | .test _ _ | .reloadAvailable _ _ => merged = true
  | .storeAvailable _ _ => True
  | _ => False

/-- Before the first store to a slot of the used ring. -/
def AtStoreId : TxPc → Prop
  | .storeId _ _ _ _ => True
  | _ => False

/-- Between the load of `used->idx` that chooses the slot and the store of `used->idx++`. -/
def InUsed : TxPc → Prop
  | .storeId _ _ _ _ | .storeLen _ _ _ | .reloadUsed _ | .storeUsed _ _ => True
  | _ => False

end TxPc

/-- A call and where it is. -/
structure TxCtx where
  call : TxCall
  pc : TxPc

def TxCtx.goto (c : TxCtx) (pc : TxPc) : TxCtx := { c with pc }

/-- `tick_count` of a call that waits, `RPMSG_TICK_COUNT / RPMSG_TICKS_PER_INTERVAL`. -/
def rpmsgTicks : Nat := 15000000 / 1000

/-- `virt_uart_transmit` up to its first access. A call with too much data, or without a destination, returns
at once. -/
def virtUartTransmit (c : TxCtx) (call : TxCall) : TxCtx :=
  if rpmsgBufferSize - 16 < call.data.length then c
  else if call.dst = rpmsgAddrAny then c
  else { call, pc := .status }

/-- The bytes of `rp_hdr` in `rpmsg_virtio_send_offchannel_nocopy`; `len` and `flags` share the last word. -/
def rpmsgHdrBytes (call : TxCall) (len : Nat) : List Byte :=
  bytesOf call.src ++ bytesOf call.dst ++ bytesOf 0#32 ++ bytesOf (BitVec.ofNat 32 (len % 0x10000))

/-- The payload of the message at `p`. -/
def payloadAt (m : Mem) (p : Nat) : List Byte :=
  (List.range (hdrLen m p).toNat).map fun i => m (rpmsgLocateData p + i)

/-! ## The device -/

/-- The tx virtqueue, the mutex of the device and what is around them; the buffers that the host posted and
those that it has not got back; and what happened so far: the payloads that the host read, the descriptors
that the calls took, and the data of the calls that returned its size. `merged` is the compiler's choice for
the two loads of `vq_available_idx`. -/
structure TxDevice where
  merged : Bool
  mem : Mem
  vq : Virtqueue
  features : BitVec 32
  driverOk : Bool
  lock : Nat
  kicks : Nat
  posted : List Posted
  withDevice : List Posted
  reaped : List (List Byte)
  taken : List (BitVec 16)
  sent : List (List Byte)

namespace TxDevice

def setUsed (d : TxDevice) (used : VringUsed) : TxDevice :=
  { d with vq := { d.vq with vqRing := { d.vq.vqRing with used } } }

/-- One attempt of `metal_mutex_acquire`: a failure leaves the value of the mutex in `unlocked`. -/
def acquireStep (d : TxDevice) (unlocked : Nat) (spurious : Bool) (done : TxPc) (again : Nat → TxPc) :
    TxDevice × TxPc :=
  let (ok, lock, unlocked) := atomicCompareExchangeWeak d.lock unlocked metalMutexLocked spurious
  ({ d with lock }, if ok then done else again unlocked)

/-- `metal_mutex_release` -/
def metalMutexRelease (d : TxDevice) : TxDevice := { d with lock := metalMutexUnlocked }

/-- The next access of a call. -/
def access (d : TxDevice) (call : TxCall) (spurious : Bool) : TxPc → TxDevice × TxPc
  | .idle => (d, .idle)
  -- `rpmsg_virtio_get_tx_payload_buffer`
  | .status => (d, if d.driverOk then .acquireGet rpmsgTicks metalMutexUnlocked else .idle)
  | .acquireGet ticks unlocked =>
    d.acquireStep unlocked spurious (.loadAvailable ticks) (.acquireGet ticks)
  -- `virtqueue_get_available_buffer`
  | .loadAvailable ticks => (d, .test ticks d.vq.availableIdx)
  | .test ticks available =>
    (d, if available = d.vq.vqRing.avail.idx then .releaseGet ticks none
      else .reloadAvailable ticks available)
  | .reloadAvailable ticks available =>
    (d, .storeAvailable ticks (if d.merged then available else d.vq.availableIdx))
  | .storeAvailable ticks available =>
    ({ d with vq := { d.vq with availableIdx := available + 1#16 } }, .loadRing ticks available)
  | .loadRing ticks available =>
    let idx := d.vq.vqRing.avail.ring (d.vq.slot available)
    ({ d with taken := d.taken ++ [idx] }, .loadAddr ticks idx)
  | .loadAddr ticks idx => (d, .loadLen ticks idx (virtqueueGetBufferAddr d.vq idx))
  | .loadLen ticks idx buffer =>
    (d, .releaseGet ticks (buffer.map fun b => (b.toNat, idx, virtqueueGetBufferLength d.vq idx)))
  -- there is no callback to wait with, and `metal_sleep_usec` returns at once
  | .releaseGet ticks none =>
    (d.metalMutexRelease, if ticks = 0 then .idle else .acquireGet (ticks - 1) metalMutexUnlocked)
  | .releaseGet _ (some (hdr, idx, buffLen)) => (d.metalMutexRelease, .setReserved hdr idx buffLen)
  | .setReserved hdr idx buffLen =>
    ({ d with mem := setHdrReserved d.mem hdr idx.toNat }, .loadHeld hdr buffLen)
  | .loadHeld hdr buffLen => (d, .storeHeld hdr buffLen (hdrReserved d.mem hdr))
  -- `rpmsg_virtio_send_offchannel_raw`
  | .storeHeld hdr buffLen reserved =>
    let room := buffLen - BitVec.ofNat 32 rpmsgHdrSize
    let len := if room.toInt < call.data.length then room.toInt.toNat else call.data.length
    ({ d with mem := setHdrReserved d.mem hdr (reserved + rpmsgBufHeld) }, .copy hdr len 0)
  | .copy hdr len i =>
    if i < len then
      let mem := Function.update d.mem (rpmsgLocateData hdr + i) (call.data.getD i 0#8)
      ({ d with mem }, .copy hdr len (i + 1))
    else (d, .loadIndex hdr len)
  -- `rpmsg_virtio_send_offchannel_nocopy`
  | .loadIndex hdr len => (d, .header hdr len (BitVec.ofNat 16 (hdrReserved d.mem hdr)) 0)
  | .header hdr len idx i =>
    if i < rpmsgHdrSize then
      let mem := Function.update d.mem (hdr + i) ((rpmsgHdrBytes call len).getD i 0#8)
      ({ d with mem }, .header hdr len idx (i + 1))
    else (d, .acquireSend len idx metalMutexUnlocked)
  | .acquireSend len idx unlocked =>
    d.acquireStep unlocked spurious (.loadBuffLen len idx) (.acquireSend len idx)
  | .loadBuffLen len idx => (d, .loadUsed len idx (virtqueueGetBufferLength d.vq idx))
  -- `virtqueue_add_consumed_buffer`
  | .loadUsed len idx buffLen =>
    (d, if d.vq.nentries ≤ idx then .assertFailed else .storeId len idx buffLen d.vq.vqRing.used.idx)
  | .storeId len idx buffLen used =>
    let u := d.vq.vqRing.used
    let i := d.vq.slot used
    let ring := Function.update u.ring i { u.ring i with id := BitVec.setWidth 32 idx }
    (d.setUsed { u with ring }, .storeLen len buffLen used)
  | .storeLen len buffLen used =>
    let u := d.vq.vqRing.used
    let i := d.vq.slot used
    let ring := Function.update u.ring i { u.ring i with len := buffLen }
    (d.setUsed { u with ring }, .reloadUsed len)
  | .reloadUsed len => (d, .storeUsed len d.vq.vqRing.used.idx)
  | .storeUsed len used => (d.setUsed { d.vq.vqRing.used with idx := used + 1#16 }, .loadQueued len)
  | .loadQueued len => (d, .storeQueued len d.vq.queuedCnt)
  | .storeQueued len queued => ({ d with vq := { d.vq with queuedCnt := queued + 1#16 } }, .kick len)
  -- `virtqueue_kick`
  | .kick len =>
    ({ d with kicks := if vqRingMustNotify d.features d.vq then d.kicks + 1 else d.kicks }, .clearQueued len)
  | .clearQueued len => ({ d with vq := { d.vq with queuedCnt := 0#16 } }, .releaseSend len)
  | .releaseSend len =>
    let d := d.metalMutexRelease
    ({ d with sent := if len = call.data.length then d.sent ++ [call.data] else d.sent }, .idle)
  | .assertFailed => (d, .assertFailed)

/-! ## The host -/

/-- The rules for a new buffer. -/
structure MayPost (d : TxDevice) (q : Posted) : Prop where
  idx_lt : q.idx < d.vq.nentries
  len : rpmsgHdrSize ≤ q.desc.len.toNat
  region : 0x43d80000 ≤ q.base ∧ q.base + q.desc.len.toNat ≤ 0x43dc0000
  room : d.withDevice.length < d.vq.nentries.toNat
  apart : ∀ p ∈ d.withDevice, p.idx ≠ q.idx ∧ ∀ x, p.Covers x → ¬ q.Covers x
  mem : ∀ p ∈ d.withDevice, ∀ x, p.Covers x → q.mem x = d.mem x

/-- The host gives the device the buffer `q`. -/
def post (d : TxDevice) (q : Posted) : TxDevice :=
  let ring := d.vq.vqRing
  let avail := ring.avail
  let avail := { avail with
    ring := Function.update avail.ring (d.vq.slot avail.idx) q.idx
    idx := avail.idx + 1#16 }
  let desc := Function.update ring.desc q.idx.toNat q.desc
  { d with
    mem := q.mem
    vq := { d.vq with vqRing := { ring with avail, desc } }
    posted := d.posted ++ [q]
    withDevice := d.withDevice ++ [q] }

/-- The payload that the host finds behind entry `e` of the used ring. -/
def hostPayload (d : TxDevice) (e : Nat) : List Byte :=
  let elem := d.vq.vqRing.used.ring (d.vq.slot (BitVec.ofNat 16 e))
  payloadAt d.mem (d.vq.vqRing.desc elem.id.toNat).addr.toNat

/-- The number of used entries that the host has not read. -/
def unread (d : TxDevice) : Nat := (d.vq.vqRing.used.idx - BitVec.ofNat 16 d.reaped.length).toNat

/-- The host reads the next used entry and has the buffer back. -/
def reap (d : TxDevice) : TxDevice :=
  let elem := d.vq.vqRing.used.ring (d.vq.slot (BitVec.ofNat 16 d.reaped.length))
  { d with
    reaped := d.reaped ++ [d.hostPayload d.reaped.length]
    withDevice := d.withDevice.filter fun q => q.idx.toNat ≠ elem.id.toNat }

/-- What else the host and the rest of the program may write. -/
structure MayWrite (d : TxDevice) (mem : Mem) (avail : VringAvail) (desc : Nat → VringDesc) : Prop where
  mem : ∀ p ∈ d.withDevice, ∀ x, p.Covers x → mem x = d.mem x
  idx : avail.idx = d.vq.vqRing.avail.idx
  ring : ∀ i < d.vq.nentries.toNat, avail.ring i = d.vq.vqRing.avail.ring i
  desc : ∀ p ∈ d.withDevice, desc p.idx.toNat = d.vq.vqRing.desc p.idx.toNat

def write (d : TxDevice) (mem : Mem) (avail : VringAvail) (desc : Nat → VringDesc) (driverOk : Bool) :
    TxDevice :=
  { d with mem, driverOk, vq := { d.vq with vqRing := { d.vq.vqRing with avail, desc } } }

end TxDevice

/-! ## Steps -/

/-- The device, the call of the main code and the call of the interrupt. -/
structure TxState where
  device : TxDevice
  main : TxCtx
  isr : TxCtx

inductive TxAct
  | post (q : Posted)
  | reap
  | write (mem : Mem) (avail : VringAvail) (desc : Nat → VringDesc) (driverOk : Bool)
  | call (call : TxCall)
  | interrupt (call : TxCall)
  | receive
  | main (spurious : Bool)
  | isr (spurious : Bool)

namespace TxState

/-- The next access of the main code. -/
def mainStep (s : TxState) (spurious : Bool) : TxState :=
  let r := s.device.access s.main.call spurious s.main.pc
  { s with device := r.1, main := s.main.goto r.2 }

/-- The next access of the interrupt. -/
def isrStep (s : TxState) (spurious : Bool) : TxState :=
  let r := s.device.access s.isr.call spurious s.isr.pc
  { s with device := r.1, isr := s.isr.goto r.2 }

end TxState

/-- One step. Main code runs while no interrupt does. `receive` is a critical section of the receive path in
the interrupt: it leaves the mutex released. -/
inductive TxStep : TxState → TxAct → TxState → Prop
  | post {s : TxState} (q : Posted) : s.device.MayPost q →
      TxStep s (.post q) { s with device := s.device.post q }
  | reap {s : TxState} : s.device.unread ≠ 0 → TxStep s .reap { s with device := s.device.reap }
  | write {s : TxState} (mem : Mem) (avail : VringAvail) (desc : Nat → VringDesc) (driverOk : Bool) :
      s.device.MayWrite mem avail desc →
      TxStep s (.write mem avail desc driverOk) { s with device := s.device.write mem avail desc driverOk }
  | call {s : TxState} (call : TxCall) : s.main.pc = .idle → s.isr.pc = .idle →
      TxStep s (.call call) { s with main := virtUartTransmit s.main call }
  | interrupt {s : TxState} (call : TxCall) : s.isr.pc = .idle →
      TxStep s (.interrupt call) { s with isr := virtUartTransmit s.isr call }
  | receive {s : TxState} : s.isr.pc = .idle →
      TxStep s .receive { s with device := s.device.metalMutexRelease }
  | main {s : TxState} (spurious : Bool) : s.main.pc ≠ .idle → s.isr.pc = .idle →
      TxStep s (.main spurious) (s.mainStep spurious)
  | isr {s : TxState} (spurious : Bool) : s.isr.pc ≠ .idle → TxStep s (.isr spurious) (s.isrStep spurious)

/-- The device after its initialisation with a ring of `2 ^ k` entries that the host zeroed. -/
structure TxState.Fresh (k : Nat) (s : TxState) : Prop where
  le : k ≤ 15
  nentries : s.device.vq.nentries = BitVec.ofNat 16 (2 ^ k)
  shmIo : s.device.vq.shmIo = shmRegion
  avail : s.device.vq.vqRing.avail.idx = 0#16
  used : s.device.vq.vqRing.used.idx = 0#16
  available : s.device.vq.availableIdx = 0#16
  main : s.main.pc = .idle
  isr : s.isr.pc = .idle
  posted : s.device.posted = []
  withDevice : s.device.withDevice = []
  reaped : s.device.reaped = []
  taken : s.device.taken = []
  sent : s.device.sent = []

/-! ## What is claimed -/

namespace TxDevice

/-- The host finds the payload `data` behind used entry `e`, or found it there. -/
def Shows (d : TxDevice) (e : Nat) (data : List Byte) : Prop :=
  d.reaped[e]? = some data ∨
    d.reaped.length ≤ e ∧ e < d.reaped.length + d.unread ∧ d.hostPayload e = data

/-- Each posted descriptor is taken by at most one call. -/
def TakenOnce (d : TxDevice) : Prop := ∀ idx, d.taken.count idx ≤ (d.posted.map (·.idx)).count idx

/-- Every call that returned its size has a used entry of its own, with its data. -/
def NoneLost (d : TxDevice) : Prop :=
  ∃ entries : List Nat, entries.Nodup ∧ List.Forall₂ d.Shows entries d.sent

end TxDevice

namespace TxState

/-- The interrupt leaves `metal_mutex_acquire` after at most two attempts that do not fail spuriously. -/
def AcquireReturns (s : TxState) : Prop :=
  s.isr.pc.InAcquire →
    ¬ (s.isrStep false).isr.pc.InAcquire ∨ ¬ ((s.isrStep false).isrStep false).isr.pc.InAcquire

structure TxOk (s : TxState) : Prop where
  once : s.device.TakenOnce
  kept : s.device.NoneLost
  returns : s.AcquireReturns

/-- A step that is no race: main code reloads `vq_available_idx` while there is a buffer for it; the interrupt
does not take a buffer while main code is between the load and the store of `vq_available_idx++`, and does
not write to the used ring while main code is between the choice of its slot and the store of `used->idx++`;
and the host does not come round to a slot of the available ring that a call is about to read. -/
def NoRace (s : TxState) : TxAct → Prop
  | .main _ => s.main.pc.AtReloadAvailable → s.device.vq.availableIdx ≠ s.device.vq.vqRing.avail.idx
  | .isr _ => (s.isr.pc.AtStoreAvailable → ¬ s.main.pc.InTake s.device.merged) ∧
      (s.isr.pc.AtStoreId → ¬ s.main.pc.InUsed)
  | .post _ => ∀ c ∈ [s.main, s.isr], ∀ ticks available, c.pc = .loadRing ticks available →
      s.device.vq.slot available ≠ s.device.vq.slot s.device.vq.vqRing.avail.idx
  | _ => True

end TxState

end V85x
