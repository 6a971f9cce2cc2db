import V85xAmp.Lib.Run
import V85xAmp.OpenAmp.Init
import V85xAmp.Rpmsg.Basic

/-!
# The receive path (`sunxi_openamp_receive`, `rpmsg_virtio_rx_callback`)

The mailbox interrupt runs the rx callback step by step: each step is one critical section of its loop, or
one access between two of them. Between two steps the host may post messages on the rx vring and write
whatever memory is its own.

Main code runs between interrupts; what it writes is in the host's steps.
-/

namespace V85x

open Firmware

/-! ## Messages -/

/-- A message that the host posted: the index of its descriptor, the descriptor, and the memory at that
moment. -/
structure Posted where
  idx : BitVec 16
  desc : VringDesc
  mem : Mem

namespace Posted

/-- The address of the buffer. -/
def base (q : Posted) : Nat := q.desc.addr.toNat

/-- `x` is an address of the buffer. -/
def Covers (q : Posted) (x : Nat) : Prop := q.base ≤ x ∧ x < q.base + q.desc.len.toNat

/-- The used entry that returns the buffer. -/
def usedElem (q : Posted) : VringUsedElem := ⟨BitVec.setWidth 32 q.idx, q.desc.len⟩

end Posted

/-- A call of an endpoint's callback: the endpoint, `data`, `len` and `src`. -/
structure EptCall where
  ept : Nat
  data : Nat
  len : BitVec 16
  src : BitVec 32
deriving Repr, DecidableEq

/-! ## The state -/

/-- Where `rpmsg_virtio_rx_callback` is: `hdr` is its `rp_hdr`. `RPMSG_ASSERT` is empty in this build, and the
code goes on behind one that fails. No run gets there: it is no place of the invariant (`AtPc`). -/
inductive RxPc
  | idle
  | fetch
  | tag (hdr : Nat) (idx : BitVec 16)
  | lookup (hdr : Nat)
  | deliver (hdr : Nat) (ept : Option Nat)
  | release (hdr : Nat) (ept : Option Nat)
  | kick
  | assertFailed
deriving Repr, DecidableEq

/-- The device side, and the logs of the posted messages, of the consumed indices, of the callbacks' calls and
of the used entries. `vdevNotifyid` and `vringNotifyid` are the notifyids of the device and of the rx
vring. -/
structure RxState where
  mem : Mem
  vq : Virtqueue
  features : BitVec 32
  vdevNotifyid : BitVec 32
  vringNotifyid : BitVec 32
  ept : Nat → RpmsgEndpoint
  endpoints : List Nat
  pc : RxPc
  kicks : Nat
  posted : List Posted
  consumed : List (BitVec 16)
  calls : List EptCall
  returned : List VringUsedElem

namespace RxState

/-- The messages whose buffers are with the device. -/
def outstanding (s : RxState) : List Posted := s.posted.drop s.returned.length

/-! ## The interrupt -/

/-- `rproc_virtio_notified`: the callback of the tx vring does nothing, so the id of the rx vring decides. -/
def rprocVirtioNotified (s : RxState) (notifyid : BitVec 32) : RxState :=
  if s.vdevNotifyid = notifyid then s
  else if s.vringNotifyid = notifyid ∨ notifyid = rscNotifyIdAny then { s with pc := .fetch }
  else s

/-- `sunxi_openamp_receive`. It does not look at the word. -/
def sunxiOpenampReceive (s : RxState) (_word : BitVec 32) : RxState := s.rprocVirtioNotified vring1Id

/-- `rpmsg_virtio_get_rx_buffer` and the exit of the loop. -/
def rpmsgVirtioGetRxBuffer (s : RxState) : RxState :=
  match virtqueueGetAvailableBuffer s.vq with
  | (none, vq) => { s with vq, pc := .idle }
  | (some (buffer, idx, _), vq) =>
    { s with vq, consumed := s.consumed ++ [idx], pc := .tag buffer.toNat idx }

/-- The endpoint of the message, which is now in use, as is the buffer. -/
def lookup (s : RxState) (hdr : Nat) : RxState :=
  let ept := rpmsgGetEptFromAddr s.ept s.endpoints (hdrDst s.mem hdr)
  { s with ept := rpmsgEptIncref s.ept ept, mem := rpmsgBufHeldInc s.mem hdr, pc := .deliver hdr ept }

/-- The call `ept->cb`. The callback leaves the memory `mem` and the destination addresses `dest`, where it
changes them. -/
def deliver (s : RxState) (hdr e : Nat) (mem : Mem) (dest : Nat → Option (BitVec 32)) : RxState :=
  let src := hdrSrc s.mem hdr
  let ept :=
    if (s.ept e).destAddr = rpmsgAddrAny then
      Function.update s.ept e { s.ept e with destAddr := src }
    else s.ept
  { s with
    mem
    ept := fun i => { ept i with destAddr := (dest i).getD (ept i).destAddr }
    calls := s.calls ++ [⟨e, rpmsgLocateData hdr, hdrLen s.mem hdr, src⟩]
    pc := .release hdr (some e) }

/-- `rpmsg_virtio_release_rx_buffer_nolock` up to the kick. -/
def rpmsgVirtioReleaseRxBufferNolock (s : RxState) (hdr : Nat) : RxState :=
  let idx := rpmsgBufIndex s.mem hdr
  let len := virtqueueGetBufferLength s.vq idx
  let ret := virtqueueAddConsumedBuffer s.vq idx len
  if ret.1 = 0 then
    { s with vq := ret.2, returned := s.returned ++ [⟨BitVec.setWidth 32 idx, len⟩], pc := .kick }
  else { s with vq := ret.2, pc := .assertFailed }

/-- The end of the loop's body. -/
def release (s : RxState) (hdr : Nat) (e : Option Nat) : RxState :=
  let test := rpmsgVirtioBufHeldDecTest s.mem hdr
  let s := { s with ept := rpmsgEptDecref s.ept e, mem := test.2 }
  if test.1 then s.rpmsgVirtioReleaseRxBufferNolock hdr else { s with pc := .fetch }

/-- `virtqueue_kick` -/
def virtqueueKick (s : RxState) : RxState :=
  { s with
    vq := { s.vq with queuedCnt := 0#16 }
    kicks := if vqRingMustNotify s.features s.vq then s.kicks + 1 else s.kicks
    pc := .fetch }

/-- One step of the interrupt. `mem` and `dest` are what a callback leaves. -/
def isrStep (s : RxState) (mem : Mem) (dest : Nat → Option (BitVec 32)) : RxState :=
  match s.pc with
  | .idle => s
  | .fetch => s.rpmsgVirtioGetRxBuffer
  | .tag hdr idx => { s with mem := setHdrReserved s.mem hdr idx.toNat, pc := .lookup hdr }
  | .lookup hdr => s.lookup hdr
  | .deliver hdr none => { s with pc := .release hdr none }
  | .deliver hdr (some e) => s.deliver hdr e mem dest
  | .release hdr e => s.release hdr e
  | .kick => s.virtqueueKick
  | .assertFailed => s

/-! ## The host -/

/-- The rules for a new message. -/
structure MayPost (s : RxState) (q : Posted) : Prop where
  idx_lt : q.idx < s.vq.nentries
  len : rpmsgHdrSize ≤ q.desc.len.toNat
  region : 0x43d80000 ≤ q.base ∧ q.base + q.desc.len.toNat ≤ 0x43dc0000
  room : s.posted.length < s.returned.length + s.vq.nentries.toNat
  other : ∀ p ∈ s.outstanding, p.idx ≠ q.idx
  disjoint : ∀ p ∈ s.outstanding, ∀ x, p.Covers x → ¬ q.Covers x
  mem : ∀ p ∈ s.outstanding, ∀ x, p.Covers x → q.mem x = s.mem x

/-- The host fills a buffer and its descriptor and publishes the index. -/
def post (s : RxState) (q : Posted) : RxState :=
  let ring := s.vq.vqRing
  let avail := ring.avail
  let avail := { avail with
    ring := Function.update avail.ring (s.vq.slot avail.idx) q.idx
    idx := avail.idx + 1#16 }
  let desc := Function.update ring.desc q.idx.toNat q.desc
  { s with
    mem := q.mem
    vq := { s.vq with vqRing := { ring with avail, desc } }
    posted := s.posted ++ [q] }

/-- What else the host and main code may write. -/
structure MayWrite (s : RxState) (mem : Mem) (avail : VringAvail) (desc : Nat → VringDesc) : Prop where
  mem : ∀ p ∈ s.outstanding, ∀ x, p.Covers x → mem x = s.mem x
  idx : avail.idx = s.vq.vqRing.avail.idx
  ring : ∀ i < s.vq.nentries.toNat, avail.ring i = s.vq.vqRing.avail.ring i
  desc : ∀ p ∈ s.outstanding, desc p.idx.toNat = s.vq.vqRing.desc p.idx.toNat

def write (s : RxState) (mem : Mem) (avail : VringAvail) (desc : Nat → VringDesc) : RxState :=
  { s with mem, vq := { s.vq with vqRing := { s.vq.vqRing with avail, desc } } }

/-- A callback does not hold the buffer and leaves the header and the other buffers alone. -/
def MayLeave (s : RxState) (mem : Mem) : Prop :=
  ∀ hdr e, s.pc = .deliver hdr (some e) →
    (∀ x, hdr ≤ x → x < hdr + rpmsgHdrSize → mem x = s.mem x) ∧
      ∀ p ∈ s.posted.drop s.consumed.length, ∀ x, p.Covers x → mem x = s.mem x

end RxState

/-! ## Steps -/

inductive RxAct
  | post (q : Posted)
  | write (mem : Mem) (avail : VringAvail) (desc : Nat → VringDesc)
  | interrupt (word : BitVec 32)
  | isr (mem : Mem) (dest : Nat → Option (BitVec 32))

open RxState

/-- One step of the interrupt. -/
inductive IsrStep : RxState → RxAct → RxState → Prop
  | isr {s : RxState} (mem : Mem) (dest : Nat → Option (BitVec 32)) : s.pc ≠ .idle → s.MayLeave mem →
      IsrStep s (.isr mem dest) (s.isrStep mem dest)

/-- One step. The interrupt does not interrupt itself. -/
inductive RxStep : RxState → RxAct → RxState → Prop
  | post {s : RxState} (q : Posted) : s.MayPost q → RxStep s (.post q) (s.post q)
  | write {s : RxState} (mem : Mem) (avail : VringAvail) (desc : Nat → VringDesc) :
      s.MayWrite mem avail desc → RxStep s (.write mem avail desc) (s.write mem avail desc)
  | interrupt {s : RxState} (word : BitVec 32) : s.pc = .idle →
      RxStep s (.interrupt word) (s.sunxiOpenampReceive word)
  | isr {s t : RxState} {act : RxAct} : IsrStep s act t → RxStep s act t

/-- The device after its initialisation with a ring of `2 ^ k` entries that the host zeroed. -/
structure RxState.Fresh (k : Nat) (s : RxState) : Prop where
  le : k ≤ 15
  nentries : s.vq.nentries = BitVec.ofNat 16 (2 ^ k)
  shmIo : s.vq.shmIo = shmRegion
  avail : s.vq.vqRing.avail.idx = 0#16
  used : s.vq.vqRing.used.idx = 0#16
  available : s.vq.availableIdx = 0#16
  vdev : s.vdevNotifyid = vdevId
  vring : s.vringNotifyid = vring1Id
  endpoints : DistinctAddrs s.ept s.endpoints
  pc : s.pc = .idle
  posted : s.posted = []
  consumed : s.consumed = []
  calls : s.calls = []
  returned : s.returned = []

end V85x
