import V85xAmp.Lib.Lists
import V85xAmp.Lib.Ring
import V85xAmp.Rpmsg.Receive

/-!
# Exactly-once delivery

The invariant of the receive path counts messages: of the `posted` ones, `consumed.length` were taken from
the available ring and `returned.length` are back in the used ring, in posting order, and at most one is in
the hands of the interrupt. `AtPc` says where that one is: `reserved` holds its index until the hold
counter is added, and then both.

`rx_exactly_once` reads the three logs off the invariant.
-/

namespace V85x

open Firmware

namespace Posted

def dst (q : Posted) : BitVec 32 := hdrDst q.mem q.base

/-- The endpoint with the address in the header. -/
def target (s₀ : RxState) (q : Posted) : Option Nat :=
  s₀.endpoints.find? fun e => (s₀.ept e).addr = q.dst

/-- The call that the message is for, if it is for an endpoint. -/
def call (s₀ : RxState) (q : Posted) : Option EptCall :=
  (q.target s₀).map fun e => ⟨e, rpmsgLocateData q.base, hdrLen q.mem q.base, hdrSrc q.mem q.base⟩

/-- The message is one that the rules allow. -/
structure Wf (k : Nat) (q : Posted) : Prop where
  idx_lt : q.idx.toNat < 2 ^ k
  len : rpmsgHdrSize ≤ q.desc.len.toNat
  region : 0x43d80000 ≤ q.base ∧ q.base + q.desc.len.toNat ≤ 0x43dc0000

variable {k : Nat} {q : Posted}

/-- The address fits into a `metal_phys_addr_t`. -/
theorem Wf.toNat_addr (h : q.Wf k) : (BitVec.setWidth 32 q.desc.addr).toNat = q.base := by
  have := h.region
  rw [BitVec.toNat_setWidth, Nat.mod_eq_of_lt (by unfold Posted.base at this; omega)]
  rfl

/-- The header lies in the buffer. -/
theorem Wf.covers (h : q.Wf k) {x : Nat} (h1 : q.base ≤ x) (h2 : x < q.base + 16) : q.Covers x := by
  have := h.len
  unfold rpmsgHdrSize at this
  exact ⟨h1, by omega⟩

/-- The buffer lies in the shared memory. -/
theorem Wf.metalIoPhysToVirt (h : q.Wf k) :
    metalIoPhysToVirt shmRegion (BitVec.setWidth 32 q.desc.addr) = some (BitVec.setWidth 32 q.desc.addr) := by
  have h1 := h.region
  have h2 := h.toNat_addr
  have h3 := h.len
  unfold rpmsgHdrSize at h3
  exact metalIoPhysToVirt_shmRegion (by omega) (by omega)

end Posted

/-- Different descriptors with disjoint buffers. -/
def Apart (p q : Posted) : Prop := p.idx ≠ q.idx ∧ ∀ x, p.Covers x → ¬ q.Covers x

/-! ## The invariant -/

/-- The rx virtqueue and the logs. -/
structure RxRings (k : Nat) (vq : Virtqueue) (posted : List Posted) (consumed : List (BitVec 16))
    (returned : List VringUsedElem) : Prop where
  le : k ≤ 15
  nentries : vq.nentries = BitVec.ofNat 16 (2 ^ k)
  shmIo : vq.shmIo = shmRegion
  avail : vq.vqRing.avail.idx = BitVec.ofNat 16 posted.length
  used : vq.vqRing.used.idx = BitVec.ofNat 16 returned.length
  available : vq.availableIdx = BitVec.ofNat 16 consumed.length
  returned_le : returned.length ≤ consumed.length
  consumed_le : consumed.length ≤ posted.length
  room : posted.length ≤ returned.length + 2 ^ k
  consumedLog : consumed = (posted.take consumed.length).map (·.idx)
  returnedLog : returned = (posted.take returned.length).map (·.usedElem)
  slots : HoldsFrom (2 ^ k) vq.vqRing.avail.ring (posted.map (·.idx)) consumed.length
  usedRing : HoldsFrom (2 ^ k) vq.vqRing.used.ring returned (returned.length - 2 ^ k)
  wf : ∀ q ∈ posted, q.Wf k
  desc : ∀ q ∈ posted.drop returned.length, vq.vqRing.desc q.idx.toNat = q.desc

namespace RxState

/-- The endpoints are the ones of the start, apart from their destination addresses and use. -/
structure SameDevice (s₀ s : RxState) : Prop where
  distinct : DistinctAddrs s₀.ept s₀.endpoints
  endpoints : s.endpoints = s₀.endpoints
  addr : ∀ e, (s.ept e).addr = (s₀.ept e).addr
  vdev : s.vdevNotifyid = vdevId
  vring : s.vringNotifyid = vring1Id

/-- The buffers that are with the device are apart, and the ones that the interrupt has not taken are as the
host left them. -/
structure Buffers (mem : Mem) (posted : List Posted) (consumed returned : Nat) : Prop where
  apart : (posted.drop returned).Pairwise Apart
  intact : ∀ q ∈ posted.drop consumed, ∀ x, q.Covers x → mem x = q.mem x

/-- The calls for the first `n` messages. -/
def CallsUpTo (s₀ s : RxState) (n : Nat) : Prop := s.calls = (s.posted.take n).filterMap (·.call s₀)

/-- The interrupt holds the message `q`, whose header is at `hdr`. -/
structure Holds (s : RxState) (hdr : Nat) (q : Posted) : Prop where
  consumed : s.consumed.length = s.returned.length + 1
  posted : s.posted[s.returned.length]? = some q
  hdr_eq : hdr = q.base

/-- The header of the message is as the host wrote it, apart from `reserved`. -/
def HeaderIntact (mem : Mem) (q : Posted) : Prop :=
  ∀ x, q.base ≤ x → x < q.base + 16 → (x < q.base + 8 ∨ q.base + 12 ≤ x) → mem x = q.mem x

/-- What holds at each place of the interrupt. -/
def AtPc (s₀ s : RxState) : Prop :=
  match s.pc with
  | .idle | .fetch | .kick => s.consumed.length = s.returned.length ∧ CallsUpTo s₀ s s.returned.length
  | .tag hdr idx =>
    ∃ q, s.Holds hdr q ∧ idx = q.idx ∧ HeaderIntact s.mem q ∧ CallsUpTo s₀ s s.returned.length
  | .lookup hdr =>
    ∃ q, s.Holds hdr q ∧ hdrReserved s.mem hdr = q.idx.toNat ∧ HeaderIntact s.mem q ∧
      CallsUpTo s₀ s s.returned.length
  | .deliver hdr ept =>
    ∃ q, s.Holds hdr q ∧ hdrReserved s.mem hdr = q.idx.toNat + rpmsgBufHeld ∧ HeaderIntact s.mem q ∧
      ept = q.target s₀ ∧ CallsUpTo s₀ s s.returned.length
  | .release hdr _ =>
    ∃ q, s.Holds hdr q ∧ hdrReserved s.mem hdr = q.idx.toNat + rpmsgBufHeld ∧
      CallsUpTo s₀ s (s.returned.length + 1)
  | .assertFailed => False

/-- The invariant of the runs from `s₀`. -/
structure Inv (k : Nat) (s₀ s : RxState) : Prop where
  rings : RxRings k s.vq s.posted s.consumed s.returned
  device : SameDevice s₀ s
  buffers : Buffers s.mem s.posted s.consumed.length s.returned.length
  atPc : AtPc s₀ s

end RxState

/-! ## The rings -/

namespace RxRings

variable {k : Nat} {vq : Virtqueue} {posted : List Posted} {consumed : List (BitVec 16)}
  {returned : List VringUsedElem} {q : Posted}

theorem toNat_nentries (h : RxRings k vq posted consumed returned) : vq.nentries.toNat = 2 ^ k :=
  Virtqueue.toNat_nentries h.le h.nentries

theorem slot (h : RxRings k vq posted consumed returned) (c : Nat) :
    vq.slot (BitVec.ofNat 16 c) = c % 2 ^ k :=
  Virtqueue.slot_ofNat h.le h.nentries c

/-- The interrupt has seen all messages if and only if the counters are equal. -/
theorem available_eq_iff (h : RxRings k vq posted consumed returned) :
    vq.availableIdx = vq.vqRing.avail.idx ↔ consumed.length = posted.length := by
  have hk : 2 ^ k ≤ 2 ^ 15 := Nat.pow_le_pow_right (by decide) h.le
  have h1 := h.returned_le
  have h2 := h.room
  rw [h.available, h.avail, eq_comm, counter_eq_iff h.consumed_le (by omega), eq_comm]

/-- The next message from the available ring. -/
theorem getAvailableBuffer (h : RxRings k vq posted consumed returned)
    (hq : posted[consumed.length]? = some q) :
    virtqueueGetAvailableBuffer vq =
      (some (BitVec.setWidth 32 q.desc.addr, q.idx, q.desc.len),
        { vq with availableIdx := BitVec.ofNat 16 (consumed.length + 1) }) := by
  obtain ⟨hlt, hget⟩ := List.getElem?_eq_some_iff.mp hq
  have hwf := h.wf q (List.mem_of_getElem? hq)
  have hne : vq.availableIdx ≠ vq.vqRing.avail.idx := fun he =>
    absurd (h.available_eq_iff.mp he) (by omega)
  have hidx : vq.vqRing.avail.ring (vq.slot vq.availableIdx) = q.idx := by
    rw [h.available, h.slot, h.slots _ (by simpa using hlt) (Nat.le_refl _)]
    simp [hget]
  have hdesc : vq.vqRing.desc q.idx.toNat = q.desc :=
    h.desc q (mem_drop_of_getElem? hq h.returned_le)
  have hvirt := hwf.metalIoPhysToVirt
  have hnext : vq.availableIdx + 1#16 = BitVec.ofNat 16 (consumed.length + 1) := by
    rw [h.available, counter_succ]
  unfold virtqueueGetAvailableBuffer
  rw [if_neg hne]
  simp only [hidx, virtqueueGetBufferAddr, virtqueueGetBufferLength, hdesc, h.shmIo, hvirt, Option.map_some,
    hnext]

/-- After the last message there is none. -/
theorem getAvailableBuffer_of_all (h : RxRings k vq posted consumed returned)
    (hall : consumed.length = posted.length) : virtqueueGetAvailableBuffer vq = (none, vq) :=
  if_pos (h.available_eq_iff.mpr hall)

/-- The virtqueue after the return of `q` as entry `n` of the used ring. -/
def returnOf (k n : Nat) (vq : Virtqueue) (q : Posted) : Virtqueue :=
  let used := { vq.vqRing.used with
    ring := Function.update vq.vqRing.used.ring (n % 2 ^ k) q.usedElem
    idx := BitVec.ofNat 16 (n + 1) }
  { vq with vqRing := { vq.vqRing with used }, queuedCnt := vq.queuedCnt + 1#16 }

/-- The return of the oldest buffer. -/
theorem addConsumedBuffer (h : RxRings k vq posted consumed returned)
    (hq : posted[returned.length]? = some q) :
    virtqueueGetBufferLength vq q.idx = q.desc.len ∧
      virtqueueAddConsumedBuffer vq q.idx q.desc.len = (0, returnOf k returned.length vq q) := by
  have hdesc := h.desc q (mem_drop_of_getElem? hq (Nat.le_refl _))
  have hlt : ¬ vq.nentries ≤ q.idx := by
    rw [BitVec.le_def, h.toNat_nentries]
    have := (h.wf q (List.mem_of_getElem? hq)).idx_lt
    omega
  refine ⟨congrArg VringDesc.len hdesc, ?_⟩
  unfold virtqueueAddConsumedBuffer
  rw [if_neg hlt]
  dsimp only
  rw [h.used, h.slot, counter_succ]
  rfl

/-- The rings after a message is taken. -/
theorem take (h : RxRings k vq posted consumed returned) (hq : posted[consumed.length]? = some q) :
    RxRings k { vq with availableIdx := BitVec.ofNat 16 (consumed.length + 1) } posted
      (consumed ++ [q.idx]) returned :=
  { h with
    available := by rw [List.length_append, List.length_singleton]
    returned_le := by simpa using Nat.le_succ_of_le h.returned_le
    consumed_le := by simpa using Nat.succ_le_of_lt (List.getElem?_eq_some_iff.mp hq).1
    consumedLog := by
      rw [List.length_append, List.length_singleton, take_succ_of_getElem? hq, List.map_append,
        ← h.consumedLog]
      rfl
    slots := h.slots.drop (by simp) }

/-- The rings after the oldest buffer is returned. -/
theorem giveBack (h : RxRings k vq posted consumed returned) (hlt : returned.length < consumed.length)
    (hq : posted[returned.length]? = some q) :
    RxRings k (returnOf k returned.length vq q) posted consumed (returned ++ [q.usedElem]) :=
  { h with
    used := by rw [List.length_append, List.length_singleton]; rfl
    returned_le := by simpa using Nat.succ_le_of_lt hlt
    room := by have := h.room; simp; omega
    returnedLog := by
      rw [List.length_append, List.length_singleton, take_succ_of_getElem? hq, List.map_append,
        ← h.returnedLog]
      rfl
    usedRing := by
      rw [List.length_append, List.length_singleton]
      exact HoldsFrom.push (h.usedRing.drop (by omega)) (by omega) q.usedElem
    desc := fun p hp => h.desc p (List.mem_of_mem_drop (i := 1) (by simpa using hp)) }

/-- The rings after a new message. -/
theorem post (h : RxRings k vq posted consumed returned) (hwf : q.Wf k)
    (hroom : posted.length < returned.length + 2 ^ k)
    (hother : ∀ p ∈ posted.drop returned.length, p.idx ≠ q.idx) :
    RxRings k
      { vq with vqRing := { vq.vqRing with
          avail := { vq.vqRing.avail with
            ring := Function.update vq.vqRing.avail.ring (vq.slot vq.vqRing.avail.idx) q.idx
            idx := vq.vqRing.avail.idx + 1#16 }
          desc := Function.update vq.vqRing.desc q.idx.toNat q.desc } }
      (posted ++ [q]) consumed returned :=
  have hle := h.returned_le
  { h with
    avail := by
      show vq.vqRing.avail.idx + 1#16 = _
      rw [h.avail, counter_succ, List.length_append, List.length_singleton]
    consumed_le := by simpa using Nat.le_succ_of_le h.consumed_le
    room := by simpa using Nat.succ_le_of_lt hroom
    consumedLog := by rw [List.take_append_of_le_length h.consumed_le, ← h.consumedLog]
    returnedLog := by
      rw [List.take_append_of_le_length (hle.trans h.consumed_le), ← h.returnedLog]
    slots := by
      show HoldsFrom _ (Function.update _ (vq.slot vq.vqRing.avail.idx) _) _ _
      rw [h.avail, h.slot, List.map_append]
      have hpush := h.slots.push (by simp; omega) q.idx
      simpa using hpush
    wf := by
      intro p hp
      rcases List.mem_append.mp hp with hp | hp
      · exact h.wf p hp
      · rw [List.mem_singleton.mp hp]
        exact hwf
    desc := by
      intro p hp
      rw [List.drop_append_of_le_length (hle.trans h.consumed_le)] at hp
      rcases List.mem_append.mp hp with hp | hp
      · have hne : p.idx.toNat ≠ q.idx.toNat := fun he => hother p hp (BitVec.eq_of_toNat_eq he)
        exact (Function.update_of_ne hne _ _).trans (h.desc p hp)
      · rw [List.mem_singleton.mp hp]
        exact Function.update_self _ _ _ }

/-- The rings after the host wrote elsewhere. -/
theorem write (h : RxRings k vq posted consumed returned) {avail : VringAvail} {desc : Nat → VringDesc}
    (hidx : avail.idx = vq.vqRing.avail.idx)
    (hring : ∀ i < vq.nentries.toNat, avail.ring i = vq.vqRing.avail.ring i)
    (hdesc : ∀ p ∈ posted.drop returned.length, desc p.idx.toNat = vq.vqRing.desc p.idx.toNat) :
    RxRings k { vq with vqRing := { vq.vqRing with avail, desc } } posted consumed returned :=
  { h with
    avail := hidx.trans h.avail
    slots := h.slots.congr fun i _ _ => hring _ (by rw [h.toNat_nentries]; exact Nat.mod_lt _ (by simp))
    desc := fun p hp => (hdesc p hp).trans (h.desc p hp) }

end RxRings

namespace RxState

variable {k : Nat} {s₀ s t : RxState} {q : Posted} {hdr : Nat}

/-! ## Steps of the host -/

/-- A step of the host leaves the interrupt where it is. -/
theorem AtPc.of_host (h : AtPc s₀ s) (hwf : ∀ q ∈ s.posted, q.Wf k) (hpc : t.pc = s.pc)
    (hconsumed : t.consumed = s.consumed) (hreturned : t.returned = s.returned) (hcalls : t.calls = s.calls)
    (hle : s.consumed.length ≤ s.posted.length) (hposted : ∃ l, t.posted = s.posted ++ l)
    (hmem : ∀ q ∈ s.outstanding, ∀ x, q.Covers x → t.mem x = s.mem x) : AtPc s₀ t := by
  obtain ⟨l, hl⟩ := hposted
  have hupTo : ∀ {n}, n ≤ s.consumed.length → CallsUpTo s₀ s n → CallsUpTo s₀ t n := by
    intro n hn hc
    unfold CallsUpTo
    rw [hcalls, hl, List.take_append_of_le_length (hn.trans hle), hc]
  have hholds : ∀ {hdr q}, s.Holds hdr q → t.Holds hdr q := by
    rintro hdr q ⟨hc, hp, rfl⟩
    refine ⟨by rw [hconsumed, hreturned, hc], ?_, rfl⟩
    rw [hreturned, hl, List.getElem?_append_left (List.getElem?_eq_some_iff.mp hp).1, hp]
  have hheader : ∀ {hdr q}, s.Holds hdr q → ∀ x, q.base ≤ x → x < q.base + 16 → t.mem x = s.mem x :=
    fun hq x h1 h2 => hmem _ (mem_drop_of_getElem? hq.posted (Nat.le_refl _)) x
      ((hwf _ (List.mem_of_getElem? hq.posted)).covers h1 h2)
  have hintact : ∀ {hdr q}, s.Holds hdr q → HeaderIntact s.mem q → HeaderIntact t.mem q :=
    fun hq hi x h1 h2 h3 => (hheader hq x h1 h2).trans (hi x h1 h2 h3)
  have hreserved : ∀ {hdr q}, s.Holds hdr q → hdrReserved t.mem hdr = hdrReserved s.mem hdr := by
    intro hdr q hq
    rw [hq.hdr_eq]
    exact hdrReserved_congr fun x h1 h2 => hheader hq x (by omega) (by omega)
  unfold AtPc at h ⊢
  rw [hpc]
  cases hspc : s.pc with
  | idle | fetch | kick =>
    simp only [hspc] at h
    simp only [hconsumed, hreturned]
    exact ⟨h.1, hupTo (by omega) h.2⟩
  | tag hdr idx =>
    simp only [hspc] at h
    obtain ⟨q, hq, hidx, hi, hc⟩ := h
    exact ⟨q, hholds hq, hidx, hintact hq hi, hreturned ▸ hupTo (by have := hq.consumed; omega) hc⟩
  | lookup hdr =>
    simp only [hspc] at h
    obtain ⟨q, hq, hres, hi, hc⟩ := h
    exact ⟨q, hholds hq, (hreserved hq).trans hres, hintact hq hi,
      hreturned ▸ hupTo (by have := hq.consumed; omega) hc⟩
  | deliver hdr ept =>
    simp only [hspc] at h
    obtain ⟨q, hq, hres, hi, he, hc⟩ := h
    exact ⟨q, hholds hq, (hreserved hq).trans hres, hintact hq hi, he,
      hreturned ▸ hupTo (by have := hq.consumed; omega) hc⟩
  | release hdr ept =>
    simp only [hspc] at h
    obtain ⟨q, hq, hres, hc⟩ := h
    exact ⟨q, hholds hq, (hreserved hq).trans hres, hreturned ▸ hupTo (by have := hq.consumed; omega) hc⟩
  | assertFailed => simp only [hspc] at h

theorem Buffers.write {mem mem' : Mem} {posted : List Posted} {consumed returned : Nat}
    (h : Buffers mem posted consumed returned) (hle : returned ≤ consumed)
    (hmem : ∀ p ∈ posted.drop returned, ∀ x, p.Covers x → mem' x = mem x) :
    Buffers mem' posted consumed returned where
  apart := h.apart
  intact p hp x hx := by
    have hdrop : p ∈ posted.drop returned := (List.drop_sublist_drop_left posted hle).subset hp
    exact (hmem p hdrop x hx).trans (h.intact p hp x hx)

theorem Inv.post (h : Inv k s₀ s) (hq : s.MayPost q) : Inv k s₀ (s.post q) := by
  have hroom := hq.room
  have hidx := hq.idx_lt
  rw [h.rings.toNat_nentries] at hroom
  rw [BitVec.lt_def, h.rings.toNat_nentries] at hidx
  refine ⟨h.rings.post ⟨hidx, hq.len, hq.region⟩ hroom hq.other,
    { h.device with }, ⟨?_, ?_⟩, ?_⟩
  · have hle := h.rings.returned_le.trans h.rings.consumed_le
    show ((s.posted ++ [q]).drop s.returned.length).Pairwise Apart
    rw [List.drop_append_of_le_length hle, List.pairwise_append]
    refine ⟨h.buffers.apart, List.pairwise_singleton _ _, fun p hp p' hp' => ?_⟩
    rw [List.mem_singleton.mp hp']
    exact ⟨hq.other p hp, hq.disjoint p hp⟩
  · intro p hp x hx
    change p ∈ (s.posted ++ [q]).drop s.consumed.length at hp
    rw [List.drop_append_of_le_length h.rings.consumed_le] at hp
    rcases List.mem_append.mp hp with hp | hp
    · have hout : p ∈ s.outstanding :=
        (List.drop_sublist_drop_left s.posted h.rings.returned_le).subset hp
      exact (hq.mem p hout x hx).trans (h.buffers.intact p hp x hx)
    · rw [List.mem_singleton.mp hp]
      rfl
  · exact h.atPc.of_host h.rings.wf rfl rfl rfl rfl h.rings.consumed_le ⟨[q], rfl⟩ hq.mem

theorem Inv.write (h : Inv k s₀ s) {mem : Mem} {avail : VringAvail} {desc : Nat → VringDesc}
    (hw : s.MayWrite mem avail desc) : Inv k s₀ (s.write mem avail desc) where
  rings := h.rings.write hw.idx hw.ring hw.desc
  device := { h.device with }
  buffers := h.buffers.write h.rings.returned_le hw.mem
  atPc := h.atPc.of_host h.rings.wf rfl rfl rfl rfl h.rings.consumed_le ⟨[], (List.append_nil _).symm⟩ hw.mem

/-! ## Steps of the interrupt -/

theorem atPc_rest (hpc : s.pc = .idle ∨ s.pc = .fetch ∨ s.pc = .kick) :
    AtPc s₀ s ↔ s.consumed.length = s.returned.length ∧ CallsUpTo s₀ s s.returned.length := by
  unfold AtPc
  rcases hpc with hpc | hpc | hpc <;> simp only [hpc]

/-- The interrupt moves between places where it holds no message. -/
theorem Inv.move (h : Inv k s₀ s) (hpc : s.pc = .idle ∨ s.pc = .fetch ∨ s.pc = .kick) {pc : RxPc}
    (hpc' : pc = .idle ∨ pc = .fetch ∨ pc = .kick) : Inv k s₀ { s with pc } where
  rings := h.rings
  device := { h.device with }
  buffers := h.buffers
  atPc := (atPc_rest hpc').mpr ((atPc_rest hpc).mp h.atPc)

theorem Inv.interrupt (h : Inv k s₀ s) (hpc : s.pc = .idle) (word : BitVec 32) :
    Inv k s₀ (s.sunxiOpenampReceive word) := by
  unfold sunxiOpenampReceive rprocVirtioNotified
  split
  · exact h
  · split
    · exact h.move (.inl hpc) (.inr (.inl rfl))
    · exact h

theorem Inv.getRxBuffer (h : Inv k s₀ s) (hpc : s.pc = .fetch) :
    Inv k s₀ s.rpmsgVirtioGetRxBuffer := by
  obtain ⟨hlen, hcalls⟩ := (atPc_rest (.inr (.inl hpc))).mp h.atPc
  unfold rpmsgVirtioGetRxBuffer
  by_cases hall : s.consumed.length = s.posted.length
  · rw [h.rings.getAvailableBuffer_of_all hall]
    exact h.move (.inr (.inl hpc)) (.inl rfl)
  · have hlt : s.consumed.length < s.posted.length := by
      have := h.rings.consumed_le
      omega
    obtain ⟨q, hq⟩ : ∃ q, s.posted[s.consumed.length]? = some q := ⟨_, List.getElem?_eq_getElem hlt⟩
    have hwf := h.rings.wf q (List.mem_of_getElem? hq)
    rw [h.rings.getAvailableBuffer hq]
    refine ⟨h.rings.take hq, { h.device with },
      ⟨h.buffers.apart, fun p hp => h.buffers.intact p ?_⟩, ?_⟩
    · rw [List.length_append] at hp
      exact (List.drop_sublist_drop_left s.posted (Nat.le_add_right _ _)).subset hp
    · refine ⟨q, ⟨by simp [hlen], hlen ▸ hq, hwf.toNat_addr⟩, rfl, fun x h1 h2 _ => ?_, hcalls⟩
      exact h.buffers.intact q (mem_drop_of_getElem? hq (Nat.le_refl _)) x (hwf.covers h1 h2)

/-- A change to `reserved` of the held message's header keeps the other buffers. -/
theorem Buffers.of_reserved (h : Inv k s₀ s) (hq : s.Holds hdr q) {mem : Mem}
    (hmem : ∀ x, (x < hdr + 8 ∨ hdr + 12 ≤ x) → mem x = s.mem x) :
    Buffers mem s.posted s.consumed.length s.returned.length := by
  refine ⟨h.buffers.apart, fun p hp x hx => ?_⟩
  have hapart := h.buffers.apart
  rw [drop_of_getElem? hq.posted, List.pairwise_cons, ← hq.consumed] at hapart
  have hwf := h.rings.wf q (List.mem_of_getElem? hq.posted)
  have hne : x < hdr + 8 ∨ hdr + 12 ≤ x := by
    by_contra hin
    rw [hq.hdr_eq] at hin
    exact (hapart.1 p hp).2 x (hwf.covers (by omega) (by omega)) hx
  exact (hmem x hne).trans (h.buffers.intact p hp x hx)

theorem HeaderIntact.setHdrReserved {mem : Mem} (h : HeaderIntact mem q) (v : Nat) :
    HeaderIntact (setHdrReserved mem q.base v) q :=
  fun x h1 h2 h3 => (setHdrReserved_apply h3).trans (h x h1 h2 h3)

theorem Inv.tag (h : Inv k s₀ s) {idx : BitVec 16} (hpc : s.pc = .tag hdr idx) :
    Inv k s₀ { s with mem := setHdrReserved s.mem hdr idx.toNat, pc := .lookup hdr } := by
  have hat := h.atPc
  simp only [AtPc, hpc] at hat
  obtain ⟨q, hq, rfl, hi, hc⟩ := hat
  refine ⟨h.rings, { h.device with },
    Buffers.of_reserved h hq fun x hx => setHdrReserved_apply hx, q,
    ⟨hq.consumed, hq.posted, hq.hdr_eq⟩, ?_, ?_, hc⟩
  · exact hdrReserved_setHdrReserved _ _ (by have := q.idx.isLt; omega)
  · rw [hq.hdr_eq]
    exact hi.setHdrReserved _

/-- The header's fields are those that the host wrote. -/
theorem HeaderIntact.fields {mem : Mem} (h : HeaderIntact mem q) :
    hdrSrc mem q.base = hdrSrc q.mem q.base ∧ hdrDst mem q.base = q.dst ∧
      hdrLen mem q.base = hdrLen q.mem q.base :=
  hdr_congr h

/-- The lookup finds the endpoint that the message is for. -/
theorem SameDevice.getEptFromAddr (h : SameDevice s₀ s) (q : Posted) :
    rpmsgGetEptFromAddr s.ept s.endpoints q.dst = q.target s₀ := by
  rw [getEptFromAddr_congr h.addr, h.endpoints, getEptFromAddr_eq_find h.distinct]
  rfl

theorem Inv.lookup (h : Inv k s₀ s) (hpc : s.pc = .lookup hdr) : Inv k s₀ (s.lookup hdr) := by
  have hat := h.atPc
  simp only [AtPc, hpc] at hat
  obtain ⟨q, hq, hres, hi, hc⟩ := hat
  refine ⟨h.rings, { h.device with addr := fun e => ?_ },
    Buffers.of_reserved h hq fun x hx => setHdrReserved_apply hx, q,
    ⟨hq.consumed, hq.posted, hq.hdr_eq⟩, ?_, ?_, ?_, hc⟩
  · exact (addr_rpmsgEptIncref _ e).trans (h.device.addr e)
  · show hdrReserved (V85x.setHdrReserved _ _ _) _ = _
    have hidx := q.idx.isLt
    rw [hdrReserved_setHdrReserved _ _ (by rw [hres]; unfold rpmsgBufHeld; omega), hres]
  · show HeaderIntact (V85x.setHdrReserved _ _ _) _
    rw [hq.hdr_eq]
    exact hi.setHdrReserved _
  · rw [hq.hdr_eq, hi.fields.2.1]
    exact h.device.getEptFromAddr q

/-- A call to an endpoint's callback, for the message that the interrupt holds. -/
theorem Inv.deliver (h : Inv k s₀ s) {e : Nat} (hpc : s.pc = .deliver hdr (some e)) {mem : Mem}
    (hmay : s.MayLeave mem) (dest : Nat → Option (BitVec 32)) :
    Inv k s₀ (s.deliver hdr e mem dest) := by
  have hat := h.atPc
  simp only [AtPc, hpc] at hat
  obtain ⟨q, hq, hres, hi, htarget, hc⟩ := hat
  obtain ⟨hheader, hother⟩ := hmay hdr e hpc
  unfold rpmsgHdrSize at hheader
  refine ⟨h.rings, { h.device with addr := fun i => ?_ },
    ⟨h.buffers.apart, fun p hp x hx => (hother p hp x hx).trans (h.buffers.intact p hp x hx)⟩,
    q, ⟨hq.consumed, hq.posted, hq.hdr_eq⟩, ?_, ?_⟩
  · refine Eq.trans ?_ (h.device.addr i)
    show RpmsgEndpoint.addr ((if _ then _ else _ : Nat → RpmsgEndpoint) i) = _
    split
    · rcases eq_or_ne i e with rfl | hne
      · rw [Function.update_self]
      · rw [Function.update_of_ne hne]
    · rfl
  · exact (hdrReserved_congr fun x h1 h2 => hheader x (by omega) (by omega)).trans hres
  · obtain ⟨hsrc, -, hlen⟩ := hi.fields
    have hcall : q.call s₀ = some ⟨e, rpmsgLocateData hdr, hdrLen s.mem hdr, hdrSrc s.mem hdr⟩ := by
      rw [Posted.call, ← htarget, hq.hdr_eq, hsrc, hlen]
      rfl
    show s.calls ++ _ = (s.posted.take (s.returned.length + 1)).filterMap _
    rw [take_succ_of_getElem? hq.posted, List.filterMap_append, ← hc]
    simp [hcall]

/-- No endpoint has the address. -/
theorem Inv.drop (h : Inv k s₀ s) (hpc : s.pc = .deliver hdr none) :
    Inv k s₀ { s with pc := .release hdr none } := by
  have hat := h.atPc
  simp only [AtPc, hpc] at hat
  obtain ⟨q, hq, hres, -, htarget, hc⟩ := hat
  refine ⟨h.rings, { h.device with }, h.buffers, q,
    ⟨hq.consumed, hq.posted, hq.hdr_eq⟩, hres, ?_⟩
  have hcall : q.call s₀ = none := by rw [Posted.call, ← htarget]; rfl
  show s.calls = (s.posted.take (s.returned.length + 1)).filterMap _
  rw [take_succ_of_getElem? hq.posted, List.filterMap_append, ← hc]
  simp [hcall]

/-- The end of the loop's body returns the buffer of the message. -/
theorem Inv.release_eq (h : Inv k s₀ s) {e : Option Nat} (hpc : s.pc = .release hdr e) :
    ∃ q mem, s.Holds hdr q ∧ CallsUpTo s₀ s (s.returned.length + 1) ∧
      (∀ x, (x < hdr + 8 ∨ hdr + 12 ≤ x) → mem x = s.mem x) ∧
      s.release hdr e =
        { s with
          mem, ept := rpmsgEptDecref s.ept e
          vq := RxRings.returnOf k s.returned.length s.vq q
          returned := s.returned ++ [q.usedElem], pc := .kick } := by
  have hat := h.atPc
  simp only [AtPc, hpc] at hat
  obtain ⟨q, hq, hres, hc⟩ := hat
  obtain ⟨mem, htest, hidx, hmem⟩ := heldDecTest_of_held_once hres
  obtain ⟨hlen, hadd⟩ := h.rings.addConsumedBuffer hq.posted
  refine ⟨q, mem, hq, hc, hmem, ?_⟩
  unfold RxState.release
  simp only [htest, if_true]
  unfold rpmsgVirtioReleaseRxBufferNolock
  simp only [hidx, hlen, hadd, if_true]
  rfl

theorem Inv.release (h : Inv k s₀ s) {e : Option Nat} (hpc : s.pc = .release hdr e) :
    Inv k s₀ (s.release hdr e) := by
  obtain ⟨q, mem, hq, hc, hmem, hstep⟩ := h.release_eq hpc
  have hgive := h.rings.giveBack (by rw [hq.consumed]; omega) hq.posted
  have hbuf := Buffers.of_reserved h hq hmem
  rw [hstep]
  refine ⟨hgive, { h.device with addr := fun i => ?_ }, ⟨?_, hbuf.intact⟩, ?_⟩
  · exact (addr_rpmsgEptDecref e i).trans (h.device.addr i)
  · have hapart := hbuf.apart
    rw [drop_of_getElem? hq.posted, List.pairwise_cons] at hapart
    simpa using hapart.2
  · refine (atPc_rest (.inr (.inr rfl))).mpr ⟨by simp [hq.consumed], ?_⟩
    simpa [CallsUpTo] using hc

theorem Inv.isrStep (h : Inv k s₀ s) {mem : Mem} (hmay : s.MayLeave mem)
    (dest : Nat → Option (BitVec 32)) : Inv k s₀ (s.isrStep mem dest) := by
  unfold RxState.isrStep
  split
  next => exact h
  next hpc => exact h.getRxBuffer hpc
  next hpc => exact h.tag hpc
  next hpc => exact h.lookup hpc
  next hpc => exact h.drop hpc
  next hpc => exact h.deliver hpc hmay dest
  next hpc => exact h.release hpc
  next hpc =>
    obtain ⟨hrings, hdevice, hbuffers, hat⟩ := h.move (.inr (.inr hpc)) (.inr (.inl rfl))
    exact ⟨{ hrings with }, { hdevice with }, hbuffers, hat⟩
  next hpc => exact h

theorem Inv.step (h : Inv k s₀ s) {act : RxAct} (hst : RxStep s act t) : Inv k s₀ t := by
  cases hst with
  | post q hq => exact h.post hq
  | write mem avail desc hw => exact h.write hw
  | interrupt word hpc => exact h.interrupt hpc word
  | isr hst =>
    cases hst with
    | isr mem dest _ hmay => exact h.isrStep hmay dest

theorem Fresh.inv (h : Fresh k s) : Inv k s s where
  rings :=
    { le := h.le
      nentries := h.nentries
      shmIo := h.shmIo
      avail := by rw [h.avail, h.posted]; rfl
      used := by rw [h.used, h.returned]; rfl
      available := by rw [h.available, h.consumed]; rfl
      returned_le := by simp [h.returned]
      consumed_le := by simp [h.consumed]
      room := by simp [h.posted]
      consumedLog := by simp [h.consumed]
      returnedLog := by simp [h.returned]
      slots := by rw [h.posted]; exact holdsFrom_nil
      usedRing := by rw [h.returned]; exact holdsFrom_nil
      wf := by simp [h.posted]
      desc := by simp [h.posted] }
  device := ⟨h.endpoints, rfl, fun _ => rfl, h.vdev, h.vring⟩
  buffers := ⟨by simp [h.posted], by simp [h.posted]⟩
  atPc := (atPc_rest (.inl h.pc)).mpr
    ⟨by rw [h.consumed, h.returned]; rfl, by simp [CallsUpTo, h.calls, h.returned]⟩

/-! ## The interrupt ends -/

/-- The steps that the interrupt still needs, if the host posts nothing. -/
def isrBound (s : RxState) : Nat :=
  6 * (s.posted.length - s.consumed.length) +
    match s.pc with
    | .idle | .assertFailed => 0
    | .fetch => 1
    | .kick => 2
    | .release _ _ => 3
    | .deliver _ _ => 4
    | .lookup _ => 5
    | .tag _ _ => 6

theorem Inv.isrBound_lt (h : Inv k s₀ s) {act : RxAct} (hst : IsrStep s act t) :
    t.isrBound < s.isrBound ∧ t.posted = s.posted ∧
      (t.pc = .idle → t.consumed.length = t.posted.length) := by
  cases hst with
  | isr mem dest hidle _ =>
    unfold RxState.isrStep
    cases hpc : s.pc with
    | idle => exact absurd hpc hidle
    | fetch =>
      show (rpmsgVirtioGetRxBuffer s).isrBound < _ ∧ (rpmsgVirtioGetRxBuffer s).posted = _ ∧ _
      unfold rpmsgVirtioGetRxBuffer
      by_cases hall : s.consumed.length = s.posted.length
      · simp [h.rings.getAvailableBuffer_of_all hall, isrBound, hpc, hall]
      · have hle := h.rings.consumed_le
        have hlt : s.consumed.length < s.posted.length := by omega
        rw [h.rings.getAvailableBuffer (List.getElem?_eq_getElem hlt)]
        simp [isrBound, hpc]
        omega
    | release hdr e =>
      obtain ⟨q, mem', hq, -, -, hstep⟩ := h.release_eq hpc
      simp only [hstep]
      simp [isrBound, hpc]
    | deliver hdr e =>
      cases e with
      | none => simp [isrBound, hpc]
      | some e => simp [isrBound, hpc, RxState.deliver]
    | lookup hdr => simp [isrBound, hpc, RxState.lookup]
    | tag hdr idx => simp [isrBound, hpc]
    | kick => simp [isrBound, hpc, virtqueueKick]
    | assertFailed =>
      have hat := h.atPc
      simp only [AtPc, hpc] at hat

theorem Inv.isr (h : Inv k s₀ s) {act : RxAct} (hst : IsrStep s act t) : Inv k s₀ t := h.step (.isr hst)

/-! ## The three logs -/

/-- What the receive path has done with the posted messages. -/
structure ExactlyOnce (k : Nat) (s₀ s : RxState) : Prop where
  /-- The descriptors are consumed once, in posting order. -/
  consumed : s.consumed = (s.posted.take s.consumed.length).map (·.idx)
  /-- Each message makes the call that it is for, once, after it is consumed and before it is returned. -/
  calls : ∃ n, s.returned.length ≤ n ∧ n ≤ s.consumed.length ∧
    s.calls = (s.posted.take n).filterMap (·.call s₀)
  /-- The used entries are those of the messages, once, in posting order. -/
  returned : s.returned = (s.posted.take s.returned.length).map (·.usedElem)
  usedIdx : s.vq.vqRing.used.idx = BitVec.ofNat 16 s.returned.length
  usedRing : HoldsFrom (2 ^ k) s.vq.vqRing.used.ring s.returned (s.returned.length - 2 ^ k)
  /-- At most one message is in the hands of the interrupt. -/
  inHand : s.returned.length ≤ s.consumed.length ∧ s.consumed.length ≤ s.returned.length + 1
  /-- An interrupt that runs ends, unless the host keeps posting. -/
  progress : s.pc ≠ .idle → ∃ act t, IsrStep s act t
  ends : ∀ tr, Run IsrStep s tr → tr.length ≤ s.isrBound
  /-- An interrupt that ran returned every message posted before its end. -/
  drains : s.pc = .idle → ∀ word tr, Run IsrStep (s.sunxiOpenampReceive word) tr →
    (endOf (s.sunxiOpenampReceive word) tr).pc = .idle →
      (endOf (s.sunxiOpenampReceive word) tr).consumed = s.posted.map (·.idx) ∧
      (endOf (s.sunxiOpenampReceive word) tr).calls = s.posted.filterMap (·.call s₀) ∧
      (endOf (s.sunxiOpenampReceive word) tr).returned = s.posted.map (·.usedElem)

theorem Inv.inHand (h : Inv k s₀ s) : s.consumed.length ≤ s.returned.length + 1 := by
  have hat := h.atPc
  unfold AtPc at hat
  cases hpc : s.pc with
  | idle | fetch | kick =>
    simp only [hpc] at hat
    omega
  | tag | lookup | deliver | release =>
    simp only [hpc] at hat
    obtain ⟨q, hq, -⟩ := hat
    exact hq.consumed.le
  | assertFailed => simp only [hpc] at hat

theorem Inv.calls (h : Inv k s₀ s) : ∃ n, s.returned.length ≤ n ∧ n ≤ s.consumed.length ∧
    s.calls = (s.posted.take n).filterMap (·.call s₀) := by
  have hat := h.atPc
  have hle := h.rings.returned_le
  unfold AtPc at hat
  cases hpc : s.pc with
  | idle | fetch | kick =>
    simp only [hpc] at hat
    exact ⟨_, Nat.le_refl _, hle, hat.2⟩
  | tag | lookup =>
    simp only [hpc] at hat
    obtain ⟨q, hq, -, -, hc⟩ := hat
    exact ⟨_, Nat.le_refl _, hle, hc⟩
  | deliver =>
    simp only [hpc] at hat
    obtain ⟨q, hq, -, -, -, hc⟩ := hat
    exact ⟨_, Nat.le_refl _, hle, hc⟩
  | release =>
    simp only [hpc] at hat
    obtain ⟨q, hq, -, hc⟩ := hat
    exact ⟨_, Nat.le_succ _, hq.consumed.ge, hc⟩
  | assertFailed => simp only [hpc] at hat

/-- An idle interrupt that has consumed every message has returned them all. -/
theorem Inv.all (h : Inv k s₀ s) (hpc : s.pc = .idle) (hall : s.consumed.length = s.posted.length) :
    s.consumed = s.posted.map (·.idx) ∧ s.calls = s.posted.filterMap (·.call s₀) ∧
      s.returned = s.posted.map (·.usedElem) := by
  obtain ⟨hlen, hcalls⟩ := (atPc_rest (.inl hpc)).mp h.atPc
  have htake : s.posted.take s.returned.length = s.posted := by
    rw [← hlen, hall, List.take_length]
  refine ⟨?_, ?_, ?_⟩
  · have hc := h.rings.consumedLog
    rwa [hall, List.take_length] at hc
  · rwa [CallsUpTo, htake] at hcalls
  · have hr := h.rings.returnedLog
    rwa [htake] at hr

theorem Inv.exactlyOnce (h : Inv k s₀ s) : ExactlyOnce k s₀ s where
  consumed := h.rings.consumedLog
  calls := h.calls
  returned := h.rings.returnedLog
  usedIdx := h.rings.used
  usedRing := h.rings.usedRing
  inHand := ⟨h.rings.returned_le, h.inHand⟩
  progress hidle :=
    ⟨_, _, .isr s.mem (fun _ => none) hidle fun _ _ _ => ⟨fun _ _ _ => rfl, fun _ _ _ _ => rfl⟩⟩
  ends tr hrun := by
    have hlower : ∀ u act t, Inv k s₀ u → IsrStep u act t → Inv k s₀ t ∧ t.isrBound < u.isrBound :=
      fun u act t hu hst => ⟨hu.isr hst, (hu.isrBound_lt hst).1⟩
    exact hrun.length_le isrBound hlower h
  drains hpc word tr hrun hend := by
    have hfetch : s.sunxiOpenampReceive word = { s with pc := .fetch } := by
      have hne : vdevId ≠ vring1Id := by decide
      simp [sunxiOpenampReceive, rprocVirtioNotified, h.device.vdev, h.device.vring, hne]
    have hstart := h.interrupt hpc word
    rw [hfetch] at hrun hend hstart ⊢
    -- the last step of the run leaves the loop, and so it has seen every message
    have hlast : ∀ u act t, (Inv k s₀ u ∧ u.posted = s.posted ∧
        (u.pc = .idle → u.consumed.length = u.posted.length)) → IsrStep u act t →
        (Inv k s₀ t ∧ t.posted = s.posted ∧ (t.pc = .idle → t.consumed.length = t.posted.length)) := by
      rintro u act t ⟨hu, hposted, -⟩ hst
      obtain ⟨-, hp, hall⟩ := hu.isrBound_lt hst
      exact ⟨hu.isr hst, hp.trans hposted, hall⟩
    obtain ⟨hinv, hposted, hall⟩ := hrun.endOf hlast ⟨hstart, rfl, fun he => nomatch he⟩
    have h3 := hinv.all hend (hall hend)
    rwa [hposted] at h3

end RxState

open RxState in
/-- In every run from a fresh device, with the host and the interrupt in any interleaving, every posted
message is consumed, delivered and returned exactly once and in order. -/
theorem rx_exactly_once {k : Nat} {s₀ s : RxState} (h₀ : s₀.Fresh k)
    (h : Reachable RxStep (· = s₀) s) : ExactlyOnce k s₀ s := by
  have hinv : Inv k s₀ s :=
    h.invariant (fun s hs => hs ▸ h₀.inv) fun s act t hs hst => hs.step hst
  exact hinv.exactlyOnce

namespace RxState

/-- A device with one endpoint, at address 0x400, and a zeroed ring of 16 entries. -/
def boot : RxState where
  mem _ := 0#8
  vq := ⟨1, 16#16, ⟨fun _ => ⟨0#64, 0#32⟩, ⟨0#16, 0#16, fun _ => 0#16⟩, ⟨0#16, 0#16, fun _ => ⟨0#32, 0#32⟩⟩⟩,
    0#16, shmRegion, 0#16⟩
  features := 0#32
  vdevNotifyid := vdevId
  vringNotifyid := vring1Id
  ept _ := ⟨[], 0x400#32, rpmsgAddrAny, 1#32, true⟩
  endpoints := [0]
  pc := .idle
  kicks := 0
  posted := []
  consumed := []
  calls := []
  returned := []

/-- A message of two bytes for 0x400, in the first buffer of the shared memory. -/
def hello : Posted where
  idx := 3#16
  desc := ⟨0x43d80000#64, 512#32⟩
  mem x := ([(0x43d80005, 4#8), (0x43d8000c, 2#8), (0x43d80010, 72#8), (0x43d80011, 105#8)].lookup x).getD 0#8

/-- One of one byte for 0x900, in the second buffer. -/
def astray : Posted where
  idx := 5#16
  desc := ⟨0x43d80200#64, 512#32⟩
  mem x :=
    if x < 0x43d80200 then hello.mem x
    else ([(0x43d80205, 9#8), (0x43d8020c, 1#8), (0x43d80210, 33#8)].lookup x).getD 0#8

theorem boot_fresh : boot.Fresh 4 :=
  ⟨by decide, rfl, rfl, rfl, rfl, rfl, rfl, rfl, ⟨by decide, by decide⟩, rfl, rfl, rfl, rfl, rfl⟩

theorem boot_mayPost : boot.MayPost hello :=
  ⟨by decide, by decide, by decide, by decide, by simp [outstanding, boot], by simp [outstanding, boot],
    by simp [outstanding, boot]⟩

theorem hello_mayPost_astray : (boot.post hello).MayPost astray := by
  have hout : (boot.post hello).outstanding = [hello] := rfl
  have hbase : hello.base = 0x43d80000 ∧ astray.base = 0x43d80200 := ⟨rfl, rfl⟩
  have hlen : hello.desc.len.toNat = 512 ∧ astray.desc.len.toNat = 512 := ⟨rfl, rfl⟩
  refine ⟨by decide, by decide, by decide, by decide, ?_, ?_, ?_⟩
  · rw [hout, List.forall_mem_singleton]
    decide
  · rw [hout, List.forall_mem_singleton]
    intro x hx hx'
    unfold Posted.Covers at hx hx'
    omega
  · rw [hout, List.forall_mem_singleton]
    intro x hx
    unfold Posted.Covers at hx
    exact if_pos (by omega)

/-- A step of the interrupt with a callback that changes nothing. -/
def isrAlone (s : RxState) : RxState := s.isrStep s.mem fun _ => none

theorem reachable_isrAlone {init : RxState → Prop} (n : Nat) {s : RxState}
    (h : Reachable RxStep init s) : Reachable RxStep init (isrAlone^[n] s) := by
  induction n generalizing s with
  | zero => exact h
  | succ n ih =>
    rw [Function.iterate_succ_apply]
    apply ih
    by_cases hpc : s.pc = .idle
    · have hstay : s.isrAlone = s := by simp [isrAlone, isrStep, hpc]
      rwa [hstay]
    · exact h.step (.isr (.isr s.mem _ hpc fun _ _ _ => ⟨fun _ _ _ => rfl, fun _ _ _ _ => rfl⟩))

end RxState

open RxState in
/-- Two messages, of which one is for no endpoint, and an interrupt that ran to its end. -/
theorem rx_exactly_once_hello :
    ∃ s, ExactlyOnce 4 boot s ∧ s.pc = .idle ∧ s.consumed = [3#16, 5#16] ∧
      s.calls = [⟨0, 0x43d80010, 2#16, 0#32⟩] ∧ s.returned = [⟨3#32, 512#32⟩, ⟨5#32, 512#32⟩] := by
  have hpost : Reachable RxStep (· = boot) (boot.post hello) := .step (.init rfl) (.post _ boot_mayPost)
  have hpost' := hpost.step (.post _ hello_mayPost_astray)
  have hrun := reachable_isrAlone 13 (hpost'.step (.interrupt 0#32 rfl))
  exact ⟨_, rx_exactly_once boot_fresh hrun, by decide, by decide, by decide, by decide⟩

end V85x
