import Mathlib.Algebra.BigOperators.Group.List.Basic
import V85xAmp.Lib.Exchange
import V85xAmp.Lib.RingQueue
import V85xAmp.Virtio.Driver

/-!
# A driver and a device on one ring (`openamp/virtio/virtqueue.c`)

The two sides of a virtqueue share the descriptor table and the two rings. `SplitQueue.Step` interleaves
their accesses: an addition to a ring is a write of its slot and then, at any later time, one of its index,
and the other side may do anything in between. What the other side wrote is read at one moment, because
an index that was seen leaves the entries before it alone.

Both sides have a contract, which no code checks. A driver asks for no more descriptors than `vq_free_cnt`
(`MayAsk`): the test of it in `virtqueue_add_buffer` is a `VQ_PARAM_CHK`, which this build leaves out, and the
call would go on with a full table. A device gives back only what it holds.

`SplitQueue.shows_exchange`: what the two sides see is an exchange. The driver lends its requests, the device
gets them in order, with the buffer at its own address of the same memory, and the driver collects the
results in the order in which they were given back, each with the cookie of its request.
-/

namespace V85x

open Firmware

variable {C : Type}

/-! ## The accesses of the device -/

namespace Virtqueue

/-- `virtqueue_add_consumed_buffer` up to the entry of the used ring. -/
def putUsed (vq : Virtqueue) (headIdx : BitVec 16) (len : BitVec 32) : Virtqueue :=
  let used := vq.vqRing.used
  let elem : VringUsedElem := ⟨headIdx.setWidth 32, len⟩
  { vq with vqRing := { vq.vqRing with
      used := { used with ring := Function.update used.ring (vq.slot used.idx) elem } } }

/-- The rest of it. -/
def showUsed (vq : Virtqueue) : Virtqueue :=
  let used := vq.vqRing.used
  { vq with
    vqRing := { vq.vqRing with used := { used with idx := used.idx + 1#16 } }
    queuedCnt := vq.queuedCnt + 1#16 }

end Virtqueue

theorem virtqueueAddConsumedBuffer_eq {vq : Virtqueue} {headIdx : BitVec 16} (h : headIdx < vq.nentries)
    (len : BitVec 32) : virtqueueAddConsumedBuffer vq headIdx len = (0, (vq.putUsed headIdx len).showUsed) :=
  if_neg (by rw [BitVec.not_le]; exact h)

/-! ## The two sides -/

/-- A request to the device: the first `readable` buffers are for it to read. -/
structure Ask (C : Type) where
  bufs : List VirtqueueBuf
  readable : Nat
  cookie : C
  bufs_ne : bufs ≠ []

/-- The address is in the region. -/
def IoRegion.Holds (io : IoRegion) (virt : BitVec 32) : Prop := virt - io.virt < io.size

/-- The first buffer of a request, at its address on the device. -/
def Ask.view (driverIo deviceIo : IoRegion) (ask : Ask C) : BitVec 32 × BitVec 32 :=
  let b := ask.bufs.head ask.bufs_ne
  (deviceIo.virt + (b.buf - driverIo.virt), b.len)

/-- The driver's virtqueue with the shared ring, the fields of the device's virtqueue, which side is between
the two writes of an addition, and the requests that the device has. -/
structure SplitQueue (C : Type) where
  driver : DriverQueue C
  driverBusy : Bool
  queueIndex : Nat
  queuedCnt : BitVec 16
  deviceIo : IoRegion
  availableIdx : BitVec 16
  deviceBusy : Bool
  held : List (BitVec 16)

/-- What the two sides do. -/
inductive SplitAct (C : Type)
  | fill (ask : Ask C)
  | publish
  | reap (cookie : Option C) (len : BitVec 32)
  | take (idx : BitVec 16) (buffer len : BitVec 32)
  | putUsed (idx : BitVec 16) (len : BitVec 32)
  | showUsed

/-- What the two sides see of it. -/
def SplitAct.event : SplitAct C →
    Option (Exchange.Event (BitVec 16) (Ask C) (BitVec 32) (BitVec 32 × BitVec 32) (Option C))
  | .fill ask => some (.lend ask)
  | .publish => none
  | .reap cookie len => some (.collect cookie len)
  | .take idx buffer len => some (.borrow idx (buffer, len))
  | .putUsed idx len => some (.giveBack idx len)
  | .showUsed => none

namespace SplitQueue

/-- The device's virtqueue. -/
def device (s : SplitQueue C) : Virtqueue where
  queueIndex := s.queueIndex
  nentries := s.driver.nentries
  vqRing := ⟨fun i => (s.driver.desc i).toVringDesc, s.driver.avail, s.driver.used⟩
  queuedCnt := s.queuedCnt
  shmIo := s.deviceIo
  availableIdx := s.availableIdx

/-- The state after a call of the device that leaves `vq`. -/
def setDevice (s : SplitQueue C) (vq : Virtqueue) : SplitQueue C :=
  { s with
    driver := { s.driver with used := vq.vqRing.used }
    queuedCnt := vq.queuedCnt
    availableIdx := vq.availableIdx }

/-- What `virtqueue_add_buffer` leaves to its caller: there are descriptors for the request, and its buffers
are in the driver's region. -/
structure MayAsk (s : SplitQueue C) (ask : Ask C) : Prop where
  room : ask.bufs.length ≤ s.driver.freeCnt.toNat
  holds : ∀ b ∈ ask.bufs, s.driver.shmIo.Holds b.buf

/-- One access of two sides that keep their contracts. -/
inductive Step : SplitQueue C → SplitAct C → SplitQueue C → Prop
  | fill {s : SplitQueue C} {ask : Ask C} : s.driverBusy = false → MayAsk s ask →
      Step s (.fill ask)
        { s with driver := s.driver.fill ask.bufs ask.readable ask.cookie, driverBusy := true }
  | publish {s : SplitQueue C} : s.driverBusy = true →
      Step s .publish { s with driver := s.driver.publish, driverBusy := false }
  | reap {s : SplitQueue C} {cookie : Option C} {len : BitVec 32} {usedIdx : Nat} {driver : DriverQueue C} :
      s.driverBusy = false → (virtqueueGetBuffer s.driver).Returns (some (cookie, len, usedIdx), driver) →
      Step s (.reap cookie len) { s with driver }
  | take {s : SplitQueue C} {idx : BitVec 16} {buffer len : BitVec 32} {vq : Virtqueue} :
      s.deviceBusy = false → virtqueueGetAvailableBuffer s.device = (some (buffer, idx, len), vq) →
      Step s (.take idx buffer len) { s.setDevice vq with held := s.held ++ [idx] }
  | putUsed {s : SplitQueue C} {idx : BitVec 16} {len : BitVec 32} : s.deviceBusy = false → idx ∈ s.held →
      Step s (.putUsed idx len)
        { s.setDevice (s.device.putUsed idx len) with deviceBusy := true, held := s.held.erase idx }
  | showUsed {s : SplitQueue C} : s.deviceBusy = true →
      Step s .showUsed { s.setDevice s.device.showUsed with deviceBusy := false }

/-- The ring after its creation by the driver, with `2 ^ k` entries, and a new device. The two sides have
one region, each at its own address. -/
structure Init (k : Nat) (driverIo deviceIo : IoRegion) (s : SplitQueue C) : Prop where
  le : k ≤ 15
  physmap : deviceIo.physmap = driverIo.physmap
  size : deviceIo.size = driverIo.size
  driver : s.driver = virtqueueCreate driverIo (BitVec.ofNat 16 (2 ^ k))
  driverBusy : s.driverBusy = false
  deviceIo_eq : s.deviceIo = deviceIo
  availableIdx : s.availableIdx = 0#16
  deviceBusy : s.deviceBusy = false
  held : s.held = []

/-! ## The layout of the table and the rings -/

/-- The request `l` in the table, with the descriptors `chain`. -/
structure Loan (vq : DriverQueue C) (l : BitVec 16 × Ask C) (chain : List (BitVec 16)) : Prop where
  head : chain.head? = some l.1
  spells : Spells vq.shmIo l.2.readable vq.desc 0 l.2.bufs chain
  descx : vq.descx l.1.toNat = ⟨some l.2.cookie, BitVec.ofNat 16 l.2.bufs.length⟩
  holds : ∀ b ∈ l.2.bufs, vq.shmIo.Holds b.buf

/-- The table with the requests `out`, with the chains `chains`, and the free list `free`. -/
structure Table (k : Nat) (vq : DriverQueue C) (out : List (BitVec 16 × Ask C)) (free : List (BitVec 16))
    (chains : BitVec 16 → List (BitVec 16)) : Prop where
  freeList : Firmware.Path (link vq.desc) (some vq.descHeadIdx) free (some vqRingDescChainEnd)
  freeCnt : vq.freeCnt = BitVec.ofNat 16 free.length
  part : (free ++ out.flatMap (fun l => chains l.1)).Perm ((List.range (2 ^ k)).map (BitVec.ofNat 16))
  loans : ∀ l ∈ out, Loan vq l (chains l.1)

/-- The entry of the used ring for a request. -/
def usedElem (p : (BitVec 16 × Ask C) × BitVec 32) : VringUsedElem := ⟨p.1.1.setWidth 32, p.2⟩

/-- The requests that are out are those of `x`: the ones posted are in the available ring, the ones done in
the used ring. -/
structure Layout (k : Nat) (driverIo deviceIo : IoRegion) (s : SplitQueue C)
    (x : Exchange (BitVec 16) (Ask C) (BitVec 32)) : Prop where
  le : k ≤ 15
  physmap : deviceIo.physmap = driverIo.physmap
  size : deviceIo.size = driverIo.size
  driverIo_eq : s.driver.shmIo = driverIo
  deviceIo_eq : s.deviceIo = deviceIo
  nentries : s.driver.nentries = BitVec.ofNat 16 (2 ^ k)
  table : ∃ free chains, Table k s.driver x.outstanding free chains
  held : s.held = x.held.map (·.1)
  avail : RingQueue (2 ^ k) s.driver.avail.ring s.availableIdx s.driver.avail.idx s.driverBusy.toNat
    (x.posted.map (·.1))
  used : RingQueue (2 ^ k) s.driver.used.ring s.driver.usedConsIdx s.driver.used.idx s.deviceBusy.toNat
    (x.done.map usedElem)

/-! ## The table -/

section Table

variable {k : Nat} {vq : DriverQueue C} {out out' : List (BitVec 16 × Ask C)} {free : List (BitVec 16)}
  {chains : BitVec 16 → List (BitVec 16)} {l : BitVec 16 × Ask C}

theorem Table.perm (h : Table k vq out free chains) (hp : out.Perm out') : Table k vq out' free chains :=
  ⟨h.freeList, h.freeCnt, ((hp.flatMap_right _).symm.append_left free).trans h.part,
    fun l hl => h.loans l (hp.mem_iff.mpr hl)⟩

/-- What the table and its fields say does not depend on the rings. -/
theorem Table.congr {vq' : DriverQueue C} (h : Table k vq out free chains) (hdesc : vq'.desc = vq.desc)
    (hhead : vq'.descHeadIdx = vq.descHeadIdx) (hcnt : vq'.freeCnt = vq.freeCnt)
    (hdescx : vq'.descx = vq.descx) (hio : vq'.shmIo = vq.shmIo) : Table k vq' out free chains := by
  refine ⟨by rw [hdesc, hhead]; exact h.freeList, by rw [hcnt]; exact h.freeCnt, h.part, fun l hl => ?_⟩
  have hl := h.loans l hl
  exact ⟨hl.head, by rw [hio, hdesc]; exact hl.spells, by rw [hdescx]; exact hl.descx,
    by rw [hio]; exact hl.holds⟩

theorem Table.nodup (hk : k ≤ 15) (h : Table k vq out free chains) :
    (free ++ out.flatMap (fun l => chains l.1)).Nodup := by
  rw [h.part.nodup_iff]
  refine (List.nodup_range).map_on ?_
  intro i hi j hj he
  have hle : 2 ^ k ≤ 2 ^ 15 := Nat.pow_le_pow_right (by decide) hk
  have hi := List.mem_range.mp hi
  have hj := List.mem_range.mp hj
  have := congrArg BitVec.toNat he
  simp only [BitVec.toNat_ofNat] at this
  omega

theorem Loan.mem {chain : List (BitVec 16)} (h : Loan vq l chain) : l.1 ∈ chain :=
  List.mem_of_mem_head? h.head

/-- Every request has a descriptor. -/
theorem Table.length_le (h : Table k vq out free chains) : free.length + out.length ≤ 2 ^ k := by
  have hlen := h.part.length_eq
  rw [List.length_append, List.length_map, List.length_range, List.length_flatMap] at hlen
  have hle : out.length ≤ (out.map fun l => (chains l.1).length).sum := by
    have hone : ∀ n ∈ out.map (fun l => (chains l.1).length), 1 ≤ n := by
      intro n hn
      obtain ⟨l, hl, rfl⟩ := List.mem_map.mp hn
      exact List.length_pos_of_mem (h.loans l hl).mem
    calc out.length = (out.map fun l => (chains l.1).length).length := (List.length_map _).symm
      _ ≤ _ := List.length_le_sum_of_one_le _ hone
  omega

theorem Table.toNat_freeCnt (hk : k ≤ 15) (h : Table k vq out free chains) :
    vq.freeCnt.toNat = free.length := by
  have hle : 2 ^ k ≤ 2 ^ 15 := Nat.pow_le_pow_right (by decide) hk
  have := h.length_le
  rw [h.freeCnt, BitVec.toNat_ofNat, Nat.mod_eq_of_lt (by omega)]

/-- Descriptors of different requests are different. -/
theorem Table.ne (hk : k ≤ 15) (h : Table k vq (l :: out) free chains) {m : BitVec 16 × Ask C} (hm : m ∈ out)
    {a b : BitVec 16} (ha : a ∈ chains l.1) (hb : b ∈ chains m.1) : b ≠ a := by
  have hnd := (List.nodup_append.mp (h.nodup hk)).2.1
  rw [List.flatMap_cons] at hnd
  exact fun he => (List.nodup_append.mp hnd).2.2 a ha b (List.mem_flatMap.mpr ⟨m, hm, hb⟩) he.symm

/-- A request takes its descriptors from the front of the free list. -/
theorem Table.fill (hk : k ≤ 15) (h : Table k vq out free chains) (ask : Ask C)
    (hcnt : ask.bufs.length ≤ vq.freeCnt.toNat) (hin : ∀ b ∈ ask.bufs, vq.shmIo.Holds b.buf) :
    (∀ l ∈ out, l.1 ≠ vq.descHeadIdx) ∧ ∃ free' chains',
      Table k (vq.fill ask.bufs ask.readable ask.cookie) ((vq.descHeadIdx, ask) :: out) free' chains' := by
  have hnd := h.nodup hk
  rw [h.toNat_freeCnt hk] at hcnt
  obtain ⟨l, rest, rfl, hlen⟩ : ∃ l rest, free = l ++ rest ∧ l.length = ask.bufs.length :=
    ⟨_, _, (List.take_append_drop ask.bufs.length free).symm, List.length_take_of_le hcnt⟩
  obtain ⟨a, l, rfl⟩ : ∃ a l', l = a :: l' := by
    cases l with
    | nil => exact absurd (List.eq_nil_of_length_eq_zero hlen.symm) ask.bufs_ne
    | cons a l => exact ⟨a, l, rfl⟩
  obtain rfl : vq.descHeadIdx = a := Option.some.inj h.freeList.1
  have hsep := (List.nodup_append.mp hnd).2.2
  have hkey : ∀ m ∈ out, m.1 ≠ vq.descHeadIdx := by
    intro m hm he
    exact hsep vq.descHeadIdx (by simp) m.1 (List.mem_flatMap.mpr ⟨m, hm, (h.loans m hm).mem⟩) he.symm
  obtain ⟨hrest, hspell, hframe⟩ :
      Firmware.Path (link (vqRingAddBuffer vq.shmIo ask.readable vq.desc vq.descHeadIdx 0 ask.bufs).1) _ rest
        _ ∧ _ ∧ _ :=
    spells_vqRingAddBuffer h.freeList hlen (List.nodup_append.mp hnd).1
  refine ⟨hkey, rest, Function.update chains vq.descHeadIdx (vq.descHeadIdx :: l), hrest, ?_, ?_, ?_⟩
  · rw [DriverQueue.freeCnt_fill, h.freeCnt, counter_sub (by simp [← hlen])]
    simp [← hlen]
  · have hout : out.flatMap (fun m => Function.update chains vq.descHeadIdx (vq.descHeadIdx :: l) m.1) =
        out.flatMap (fun m => chains m.1) :=
      List.flatMap_congr fun m hm => Function.update_of_ne (hkey m hm) _ _
    rw [List.flatMap_cons, Function.update_self, hout, ← List.append_assoc]
    exact (List.perm_append_comm.append_right _).trans h.part
  · intro m hm
    rcases List.mem_cons.mp hm with rfl | hm
    · rw [Function.update_self]
      exact ⟨rfl, hspell, Function.update_self _ _ _, hin⟩
    · have hl := h.loans m hm
      rw [Function.update_of_ne (hkey m hm)]
      refine ⟨hl.head, hl.spells.congr fun b hb => hframe b.toNat fun c hc he => ?_, ?_, hl.holds⟩
      · refine hsep c (List.mem_append_left _ hc) b (List.mem_flatMap.mpr ⟨m, hm, hb⟩) ?_
        exact BitVec.eq_of_toNat_eq he
      · rw [DriverQueue.descx_fill, Function.update_of_ne, hl.descx]
        exact fun he => hkey m hm (BitVec.eq_of_toNat_eq he)

/-- The chain of a used request goes back in front of the free list. -/
theorem Table.reap (hk : k ≤ 15) (h : Table k vq (l :: out) free chains) {len : BitVec 32}
    (hne : vq.usedConsIdx ≠ vq.used.idx)
    (helem : vq.used.ring (vq.slot vq.usedConsIdx) = ⟨l.1.setWidth 32, len⟩) :
    ∃ last, (virtqueueGetBuffer vq).Returns
        (some (some l.2.cookie, len, vq.slot vq.usedConsIdx), vq.reaped l.1 last) ∧
      Table k (vq.reaped l.1 last) out (chains l.1 ++ free) chains := by
  have hl := h.loans l List.mem_cons_self
  have hnd := h.nodup hk
  obtain ⟨chain, last, hchain⟩ : ∃ chain last, chains l.1 = chain ++ [last] :=
    ⟨_, _, (List.dropLast_append_getLast (List.ne_nil_of_mem hl.mem)).symm⟩
  have hspell := hl.spells
  have hhead := hl.head
  rw [hchain] at hspell hhead
  have hret := returns_virtqueueGetBuffer hne helem hspell hhead (by rw [hl.descx])
  rw [hl.descx] at hret
  have hfree : (chain ++ [last] ++ free).Nodup := by
    rw [← hchain, List.perm_append_comm.nodup_iff]
    rw [List.flatMap_cons, ← List.append_assoc] at hnd
    exact (List.nodup_append.mp hnd).1
  refine ⟨last, hret, ?_, ?_, ?_, fun m hm => ?_⟩
  · rw [hchain]
    exact path_reaped hspell hhead h.freeList hfree
  · have hlen := hspell.length_eq
    simp only [DriverQueue.reaped]
    rw [hl.descx, h.freeCnt, ← BitVec.ofNat_add, hchain, List.length_append, hlen, Nat.add_comm]
  · refine List.Perm.trans ?_ h.part
    rw [List.flatMap_cons, ← List.append_assoc]
    exact List.perm_append_comm.append_right _
  · have hm' := h.loans m (List.mem_cons_of_mem _ hm)
    refine ⟨hm'.head, hm'.spells.congr fun b hb => ?_, ?_, hm'.holds⟩
    · refine Function.update_of_ne (fun he => ?_) _ _
      exact h.ne hk hm (by rw [hchain]; simp) hb (BitVec.eq_of_toNat_eq he)
    · rw [← hm'.descx]
      refine Function.update_of_ne (fun he => ?_) _ _
      exact h.ne hk hm hl.mem hm'.mem (BitVec.eq_of_toNat_eq he)

end Table

/-! ## One access -/

/-- The slot of an index. -/
theorem toNat_and_nentries {k : Nat} (hk : k ≤ 15) (x : BitVec 16) :
    (x &&& (BitVec.ofNat 16 (2 ^ k) - 1#16)).toNat = x.toNat % 2 ^ k := by
  have hmask : BitVec.ofNat 16 (2 ^ k) - 1#16 = BitVec.ofNat 16 (2 ^ k - 1) := counter_sub Nat.one_le_two_pow
  rw [hmask, toNat_mask (by omega)]

/-- A buffer of the driver at its address on the device. -/
theorem metalIoPhysToVirt_metalIoVirtToPhys {driverIo deviceIo : IoRegion} {virt : BitVec 32}
    (hphys : deviceIo.physmap = driverIo.physmap) (hsize : deviceIo.size = driverIo.size)
    (h : driverIo.Holds virt) : metalIoPhysToVirt deviceIo (metalIoVirtToPhys driverIo virt) =
      some (deviceIo.virt + (virt - driverIo.virt)) := by
  have hlt : virt - driverIo.virt < driverIo.size := h
  have hoff : driverIo.physmap + (virt - driverIo.virt) - driverIo.physmap = virt - driverIo.virt := by
    rw [BitVec.add_comm, BitVec.add_sub_cancel]
  simp [metalIoVirtToPhys, metalIoVirtToOffset, metalIoPhysToVirt, metalIoPhysToOffset, metalIoPhys,
    metalIoVirt, hlt, hphys, hsize, hoff]

section Access

variable {k : Nat} {driverIo deviceIo : IoRegion} {s t : SplitQueue C}
  {x : Exchange (BitVec 16) (Ask C) (BitVec 32)}

theorem Layout.slot_driver (h : Layout k driverIo deviceIo s x) (idx : BitVec 16) :
    s.driver.slot idx = idx.toNat % 2 ^ k := by
  rw [DriverQueue.slot, h.nentries, toNat_and_nentries h.le]

theorem Layout.slot_device (h : Layout k driverIo deviceIo s x) (idx : BitVec 16) :
    s.device.slot idx = idx.toNat % 2 ^ k := by
  rw [Virtqueue.slot, device, h.nentries, toNat_and_nentries h.le]

theorem Layout.length_le (h : Layout k driverIo deviceIo s x) : x.outstanding.length ≤ 2 ^ k := by
  obtain ⟨free, chains, ht⟩ := h.table
  have := ht.length_le
  omega

/-- The device gets the request that was posted first. -/
theorem Layout.getAvailable (h : Layout k driverIo deviceIo s x)
    (hne : s.availableIdx ≠ s.driver.avail.idx) :
    ∃ l posted, x.posted = l :: posted ∧
      virtqueueGetAvailableBuffer s.device =
        (some ((l.2.view driverIo deviceIo).1, l.1, (l.2.view driverIo deviceIo).2),
          { s.device with availableIdx := s.availableIdx + 1#16 }) ∧
      RingQueue (2 ^ k) s.driver.avail.ring (s.availableIdx + 1#16) s.driver.avail.idx s.driverBusy.toNat
        (posted.map (·.1)) := by
  obtain ⟨a, q, hq, hslot, hring⟩ := h.avail.pop (h.le.trans (by decide)) hne
  obtain ⟨l, posted, hposted, rfl, rfl⟩ := List.map_eq_cons_iff.mp hq
  refine ⟨l, posted, hposted, ?_, hring⟩
  obtain ⟨free, chains, ht⟩ := h.table
  have hl := ht.loans l (by simp [Exchange.outstanding, hposted])
  have hidx : s.device.vqRing.avail.ring (s.device.slot s.device.availableIdx) = l.1 := by
    rw [h.slot_device]
    exact hslot
  have hdesc : s.device.vqRing.desc l.1.toNat = _ := hl.spells.head hl.head l.2.bufs_ne
  have hin : driverIo.Holds (l.2.bufs.head l.2.bufs_ne).buf := by
    rw [← h.driverIo_eq]
    exact hl.holds _ (List.head_mem _)
  have haddr := metalIoPhysToVirt_metalIoVirtToPhys h.physmap h.size hin
  have hne' : s.device.availableIdx ≠ s.device.vqRing.avail.idx := hne
  rw [virtqueueGetAvailableBuffer, if_neg hne']
  simp only [hidx, virtqueueGetBufferAddr, virtqueueGetBufferLength, hdesc, h.driverIo_eq,
    BitVec.setWidth_setWidth_of_le _ (show 32 ≤ 64 by decide), BitVec.setWidth_eq]
  rw [show s.device.shmIo = deviceIo from h.deviceIo_eq, haddr]
  rfl

/-- The driver gets the request that was done first, with its cookie, and the call ends. -/
theorem Layout.getBuffer (h : Layout k driverIo deviceIo s x)
    (hne : s.driver.usedConsIdx ≠ s.driver.used.idx) :
    ∃ l len done last, x.done = (l, len) :: done ∧
      (virtqueueGetBuffer s.driver).Returns
        (some (some l.2.cookie, len, s.driver.slot s.driver.usedConsIdx), s.driver.reaped l.1 last) ∧
      (∃ free chains, Table k (s.driver.reaped l.1 last)
        (Exchange.outstanding ⟨x.posted, x.held, done⟩) free chains) ∧
      RingQueue (2 ^ k) s.driver.used.ring (s.driver.usedConsIdx + 1#16) s.driver.used.idx s.deviceBusy.toNat
        (done.map usedElem) := by
  obtain ⟨a, q, hq, hslot, hring⟩ := h.used.pop (h.le.trans (by decide)) hne
  obtain ⟨⟨l, len⟩, done, hdone, rfl, rfl⟩ := List.map_eq_cons_iff.mp hq
  obtain ⟨posted, held, done'⟩ := x
  obtain rfl : done' = (l, len) :: done := hdone
  obtain ⟨free, chains, ht⟩ := h.table
  have ht := ht.perm (Exchange.perm_outstanding_collect l len posted held done)
  rw [← h.slot_driver] at hslot
  obtain ⟨last, hret, ht⟩ := ht.reap h.le hne hslot
  exact ⟨l, len, done, last, rfl, hret, ⟨_, _, ht⟩, hring⟩

theorem Layout.fill (h : Layout k driverIo deviceIo s x) (hbusy : s.driverBusy = false) {ask : Ask C}
    (hask : MayAsk s ask) :
    (∀ l ∈ x.outstanding, l.1 ≠ s.driver.descHeadIdx) ∧
      Layout k driverIo deviceIo
        { s with driver := s.driver.fill ask.bufs ask.readable ask.cookie, driverBusy := true }
        { x with posted := x.posted ++ [(s.driver.descHeadIdx, ask)] } := by
  obtain ⟨free, chains, ht⟩ := h.table
  obtain ⟨hkey, free', chains', ht'⟩ := ht.fill h.le ask hask.room hask.holds
  have hperm := Exchange.perm_outstanding_lend x (s.driver.descHeadIdx, ask)
  have hroom : (x.posted.map (·.1)).length < 2 ^ k := by
    have := ht'.length_le
    simp [Exchange.outstanding] at this ⊢
    omega
  have havail := h.avail
  rw [hbusy] at havail
  refine ⟨hkey, { h with table := ⟨free', chains', ht'.perm hperm.symm⟩, avail := ?_ }⟩
  simp only [DriverQueue.avail_fill, h.slot_driver, List.map_append, List.map_cons, List.map_nil]
  exact havail.write (h.le.trans (by decide)) hroom _

theorem Layout.publish (h : Layout k driverIo deviceIo s x) (hbusy : s.driverBusy = true) :
    Layout k driverIo deviceIo { s with driver := s.driver.publish, driverBusy := false } x := by
  obtain ⟨free, chains, ht⟩ := h.table
  have havail := h.avail
  rw [hbusy] at havail
  exact { h with table := ⟨free, chains, ht.congr rfl rfl rfl rfl rfl⟩, avail := havail.show_ }

theorem Layout.putUsed (h : Layout k driverIo deviceIo s x) (hbusy : s.deviceBusy = false) {idx : BitVec 16}
    (hidx : idx ∈ s.held) (len : BitVec 32) :
    ∃ ask held₁ held₂, x.held = held₁ ++ (idx, ask) :: held₂ ∧ Layout k driverIo deviceIo
      { s.setDevice (s.device.putUsed idx len) with deviceBusy := true, held := s.held.erase idx }
      ⟨x.posted, held₁ ++ held₂, x.done ++ [((idx, ask), len)]⟩ := by
  obtain ⟨posted, held, done⟩ := x
  have hheld := h.held
  rw [hheld] at hidx
  obtain ⟨⟨idx, ask⟩, hmem, rfl⟩ := List.mem_map.mp hidx
  obtain ⟨held₁, held₂, rfl⟩ := List.append_of_mem hmem
  obtain ⟨free, chains, ht⟩ := h.table
  have hperm := Exchange.perm_outstanding_giveBack (idx, ask) len posted held₁ held₂ done
  have hroom : (done.map usedElem).length < 2 ^ k := by
    have := ht.length_le
    simp [Exchange.outstanding] at this ⊢
    omega
  have hused := h.used
  rw [hbusy] at hused
  refine ⟨ask, held₁, held₂, rfl, { h with
    table := ⟨free, chains, (ht.perm hperm.symm).congr rfl rfl rfl rfl rfl⟩, held := ?_, used := ?_ }⟩
  · have hnot : idx ∉ held₁.map (·.1) := by
      have hout : (Exchange.outstanding ⟨posted, held₁ ++ (idx, ask) :: held₂, done⟩).Perm
          ((idx, ask) :: (posted ++ held₁ ++ (held₂ ++ done.map (·.1)))) := by
        simp only [Exchange.outstanding, List.append_assoc, List.cons_append]
        rw [← List.append_assoc, ← List.append_assoc]
        exact List.perm_middle
      have ht := ht.perm hout
      intro hmem
      obtain ⟨m, hm, he⟩ := List.mem_map.mp hmem
      exact ht.ne h.le (m := m) (by simp [hm]) (ht.loans _ List.mem_cons_self).mem
        (ht.loans m (by simp [hm])).mem he
    simp only [hheld, List.map_append, List.map_cons]
    rw [List.erase_append_right _ hnot, List.erase_cons_head]
  · rw [List.map_append]
    have hslot : s.device.slot s.device.vqRing.used.idx = _ := h.slot_device _
    simp only [setDevice, Virtqueue.putUsed, hslot]
    exact hused.write (h.le.trans (by decide)) hroom _

theorem Layout.showUsed (h : Layout k driverIo deviceIo s x) (hbusy : s.deviceBusy = true) :
    Layout k driverIo deviceIo { s.setDevice s.device.showUsed with deviceBusy := false } x := by
  obtain ⟨free, chains, ht⟩ := h.table
  have hused := h.used
  rw [hbusy] at hused
  exact { h with table := ⟨free, chains, ht.congr rfl rfl rfl rfl rfl⟩, used := hused.show_ }

end Access

/-! ## Runs -/

section Runs

variable {k : Nat} {driverIo deviceIo : IoRegion} {s t : SplitQueue C}
  {x : Exchange (BitVec 16) (Ask C) (BitVec 32)}
  {tr : List (Exchange.Event (BitVec 16) (Ask C) (BitVec 32) (BitVec 32 × BitVec 32) (Option C))}

/-- The token of a request: its cookie. -/
def token (ask : Ask C) : Option C := some ask.cookie

theorem Init.layout (h : Init k driverIo deviceIo s) : Layout k driverIo deviceIo s .empty := by
  have hpow : 2 ^ k ≤ 2 ^ 15 := Nat.pow_le_pow_right (by decide) h.le
  have hn : (BitVec.ofNat 16 (2 ^ k)).toNat = 2 ^ k := by
    rw [BitVec.toNat_ofNat, Nat.mod_eq_of_lt (by omega)]
  refine ⟨h.le, h.physmap, h.size, ?_, h.deviceIo_eq, ?_,
    ⟨(List.range (2 ^ k)).map (BitVec.ofNat 16), fun _ => [], ?_, ?_, ?_, ?_⟩, ?_, ?_, ?_⟩
  · rw [h.driver]
    rfl
  · rw [h.driver]
    rfl
  · rw [h.driver]
    exact path_vqRingInit hn (Nat.two_pow_pos k)
  · rw [h.driver, List.length_map, List.length_range]
    rfl
  · rw [show Exchange.outstanding (.empty : Exchange (BitVec 16) (Ask C) (BitVec 32)) = [] from rfl,
      List.flatMap_nil, List.append_nil]
  · intro l hl
    cases hl
  · rw [h.held]
    rfl
  · rw [h.availableIdx, h.driverBusy, h.driver]
    exact RingQueue.nil _ _ _
  · rw [h.deviceBusy, h.driver]
    exact RingQueue.nil _ _ _

/-- What a call that gets a used buffer leaves. -/
theorem Layout.reap (h : Layout k driverIo deviceIo s x) {cookie : Option C} {len : BitVec 32} {usedIdx : Nat}
    {driver : DriverQueue C}
    (hret : (virtqueueGetBuffer s.driver).Returns (some (cookie, len, usedIdx), driver)) :
    ∃ l done last, x.done = (l, len) :: done ∧ cookie = some l.2.cookie ∧ driver = s.driver.reaped l.1 last ∧
      Layout k driverIo deviceIo { s with driver } ⟨x.posted, x.held, done⟩ := by
  by_cases hne : s.driver.usedConsIdx = s.driver.used.idx
  · rw [virtqueueGetBuffer, if_pos hne] at hret
    have := Comp.returns_pure.mp hret
    simp at this
  · obtain ⟨l, len', done, last, hdone, hret', ht, hused⟩ := h.getBuffer hne
    obtain ⟨⟨rfl, rfl, rfl⟩, rfl⟩ : ((some l.2.cookie = cookie ∧ len' = len ∧ _ = usedIdx) ∧
        s.driver.reaped l.1 last = driver) := by simpa using hret'.unique hret
    exact ⟨l, done, last, hdone, rfl, rfl, { h with table := ht, used := hused }⟩

/-- What a call that gets an available buffer leaves. -/
theorem Layout.take (h : Layout k driverIo deviceIo s x) {idx : BitVec 16} {buffer len : BitVec 32}
    {vq : Virtqueue} (hget : virtqueueGetAvailableBuffer s.device = (some (buffer, idx, len), vq)) :
    ∃ l posted, x.posted = l :: posted ∧ idx = l.1 ∧ (buffer, len) = l.2.view driverIo deviceIo ∧
      vq = { s.device with availableIdx := s.availableIdx + 1#16 } ∧
      Layout k driverIo deviceIo { s.setDevice vq with held := s.held ++ [idx] }
        ⟨posted, x.held ++ [l], x.done⟩ := by
  by_cases hne : s.availableIdx = s.driver.avail.idx
  · have hne' : s.device.availableIdx = s.device.vqRing.avail.idx := hne
    rw [virtqueueGetAvailableBuffer, if_pos hne'] at hget
    simp at hget
  · obtain ⟨l, posted, hposted, hget', havail⟩ := h.getAvailable hne
    rw [hget'] at hget
    obtain ⟨⟨rfl, rfl, rfl⟩, rfl⟩ : (((l.2.view driverIo deviceIo).1 = buffer ∧ l.1 = idx ∧
        (l.2.view driverIo deviceIo).2 = len) ∧
        { s.device with availableIdx := s.availableIdx + 1#16 } = vq) := by simpa using hget
    obtain ⟨posted', held, done⟩ := x
    obtain rfl : posted' = l :: posted := hposted
    obtain ⟨free, chains, ht⟩ := h.table
    refine ⟨l, posted, rfl, rfl, rfl, rfl, { h with
      table := ⟨free, chains, ?_⟩, held := ?_, avail := havail }⟩
    · exact (ht.perm (Exchange.perm_outstanding_borrow l posted held done).symm).congr rfl rfl rfl rfl rfl
    · simp [h.held]

/-- Every access is a step of the exchange, or shows nothing. -/
theorem Layout.step {act : SplitAct C} (h : Layout k driverIo deviceIo s x) (hst : Step s act t) :
    match act.event with
    | none => Layout k driverIo deviceIo t x
    | some ev => ∃ y, Exchange.Step (Ask.view driverIo deviceIo) token x ev y ∧
        Layout k driverIo deviceIo t y := by
  cases hst with
  | fill hbusy hask =>
    obtain ⟨hkey, ht⟩ := h.fill hbusy hask
    exact ⟨_, .lend hkey, ht⟩
  | publish hbusy => exact h.publish hbusy
  | reap hbusy hret =>
    obtain ⟨l, done, last, hdone, rfl, -, ht⟩ := h.reap hret
    obtain ⟨posted, held, done'⟩ := x
    obtain rfl : done' = _ := hdone
    exact ⟨_, .collect, ht⟩
  | take hbusy hget =>
    obtain ⟨l, posted, hposted, rfl, hview, -, ht⟩ := h.take hget
    obtain ⟨posted', held, done⟩ := x
    obtain rfl : posted' = _ := hposted
    refine ⟨_, ?_, ht⟩
    rw [hview]
    exact .borrow
  | putUsed hbusy hidx =>
    obtain ⟨ask, held₁, held₂, hheld, ht⟩ := h.putUsed hbusy hidx _
    obtain ⟨posted, held, done⟩ := x
    obtain rfl : held = _ := hheld
    exact ⟨_, .giveBack, ht⟩
  | showUsed hbusy => exact h.showUsed hbusy

/-- What the two sides see in any interleaving of their accesses is an exchange, and the ring has the layout
of its state. -/
theorem shows_exchange (h : Shows Step SplitAct.event (Init k driverIo deviceIo) tr s) :
    ∃ x, Traces (Exchange.Step (Ask.view driverIo deviceIo) (token (C := C))) (· = .empty) tr x ∧
      Layout k driverIo deviceIo s x := by
  refine h.simulate (Layout k driverIo deviceIo) (fun s hs => ⟨_, rfl, hs.layout⟩) ?_ ?_
  · intro s act t x hx hst hev
    have := hx.step hst
    rwa [hev] at this
  · intro s act t x ev hx hst hev
    have := hx.step hst
    rwa [hev] at this

end Runs

end SplitQueue

end V85x
