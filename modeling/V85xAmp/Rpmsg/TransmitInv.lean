import V85xAmp.Rpmsg.ReceiveInv
import V85xAmp.Rpmsg.Transmit

/-!
# What the two calls hold

The mutex does not keep the interrupt out of the critical sections of main code. What keeps the two calls
apart, in the runs where something does, is `NoRace`. The invariant says what each call holds: the buffers
with the device are those of the unread used entries, the ones that the two calls hold and the ones that are
still available (`outstanding`), and they are pairwise apart. `AtPc` follows the message of a call through
its accesses, and `AtPc.frame` says what it needs of a step of somebody else.
-/

namespace V85x

open Firmware

/-! ## Messages in memory -/

section Payload

variable {m m' : Mem} {p : Nat} {l : List Byte}

theorem length_payloadAt (m : Mem) (p : Nat) : (payloadAt m p).length = (hdrLen m p).toNat := by
  simp [payloadAt]

/-- A payload depends on its length in the header and on its bytes. -/
theorem payloadAt_congr (h : ∀ x, p ≤ x → x < p + 16 + (payloadAt m p).length → m' x = m x) :
    payloadAt m' p = payloadAt m p := by
  have hlen : hdrLen m' p = hdrLen m p := by
    unfold hdrLen
    rw [load16_congr fun x h1 h2 => h x (by omega) (by omega)]
  rw [length_payloadAt] at h
  unfold payloadAt
  rw [hlen]
  refine List.map_congr_left fun i hi => ?_
  have hlt := List.mem_range.mp hi
  unfold rpmsgLocateData rpmsgHdrSize
  exact h _ (by omega) (by omega)

/-- A payload behind a header with its length. -/
theorem payloadAt_of_bytesAt (hlen : (hdrLen m p).toNat = l.length) (hl : BytesAt m (p + 16) l) :
    payloadAt m p = l := by
  unfold payloadAt
  rw [hlen]
  exact hl.map_range

theorem length_rpmsgHdrBytes (call : TxCall) (len : Nat) : (rpmsgHdrBytes call len).length = 16 := by
  simp [rpmsgHdrBytes, bytesOf]

/-- The length in a header that is complete. -/
theorem hdrLen_of_bytesAt {call : TxCall} {len : Nat} (hlen : len < 0x10000)
    (h : BytesAt m p (rpmsgHdrBytes call len)) : (hdrLen m p).toNat = len := by
  have hl := length_rpmsgHdrBytes call len
  have h12 : (m (p + 12)).toNat = len % 0x100 := by
    rw [h 12 (by omega)]
    show (BitVec.setWidth 8 (BitVec.ofNat 32 (len % 0x10000) >>> 0)).toNat = _
    rw [BitVec.toNat_setWidth, BitVec.toNat_ushiftRight, BitVec.toNat_ofNat, Nat.shiftRight_zero]
    omega
  have h13 : (m (p + 13)).toNat = len / 0x100 := by
    rw [h 13 (by omega)]
    show (BitVec.setWidth 8 (BitVec.ofNat 32 (len % 0x10000) >>> 8)).toNat = _
    rw [BitVec.toNat_setWidth, BitVec.toNat_ushiftRight, BitVec.toNat_ofNat, Nat.shiftRight_eq_div_pow]
    omega
  unfold hdrLen load16
  rw [BitVec.toNat_ofNat, h12, show p + 12 + 1 = p + 13 from rfl, h13]
  omega

end Payload

/-! ## The invariant -/

/-- What a call holds: nothing, a buffer before it has read its index, a buffer, or the number of its used
entry. -/
inductive Hold
  | nothing
  | claimed (q : Posted)
  | buffer (q : Posted)
  | entry (e : Nat)

namespace Hold

def buffers : Hold → List Posted
  | .claimed q | .buffer q => [q]
  | _ => []

/-- The buffers whose indices are read. -/
def loaded : Hold → List Posted
  | .buffer q => [q]
  | _ => []

def entries : Hold → List Nat
  | .entry e => [e]
  | _ => []

@[simp] theorem buffers_nothing : nothing.buffers = [] := rfl

@[simp] theorem buffers_claimed (q : Posted) : (claimed q).buffers = [q] := rfl

@[simp] theorem buffers_buffer (q : Posted) : (buffer q).buffers = [q] := rfl

@[simp] theorem buffers_entry (e : Nat) : (entry e).buffers = [] := rfl

@[simp] theorem loaded_nothing : nothing.loaded = [] := rfl

@[simp] theorem loaded_claimed (q : Posted) : (claimed q).loaded = [] := rfl

@[simp] theorem loaded_buffer (q : Posted) : (buffer q).loaded = [q] := rfl

@[simp] theorem loaded_entry (e : Nat) : (entry e).loaded = [] := rfl

@[simp] theorem entries_nothing : nothing.entries = [] := rfl

@[simp] theorem entries_claimed (q : Posted) : (claimed q).entries = [] := rfl

@[simp] theorem entries_buffer (q : Posted) : (buffer q).entries = [] := rfl

@[simp] theorem entries_entry (e : Nat) : (entry e).entries = [e] := rfl

end Hold

/-- The number of buffers taken, the used entries with their buffers and payloads, and the entries of the
calls in `sent`. -/
structure TxGhost where
  taken : Nat
  entries : List (Posted × List Byte)
  sent : List Nat

/-- The payload of entry `e`. -/
def TxGhost.payload (g : TxGhost) (e : Nat) : Option (List Byte) := (g.entries[e]?).map (·.2)

/-- The buffer holds the message. -/
structure Filled (mem : Mem) (q : Posted) (payload : List Byte) : Prop where
  fits : payload.length + 16 ≤ q.desc.len.toNat
  payload : payloadAt mem q.base = payload

/-- The first `len` bytes of the data fit into the buffer. -/
structure Room (q : Posted) (call : TxCall) (len : Nat) : Prop where
  le : len ≤ call.data.length
  fits : len + 16 ≤ q.desc.len.toNat

/-- What holds at each access. -/
def AtPc (d : TxDevice) (g : TxGhost) (c : TxCtx) (h : Hold) : Prop :=
  match c.pc with
  | .idle | .status | .acquireGet _ _ | .loadAvailable _ | .releaseGet _ none => h = .nothing
  | .test _ available | .reloadAvailable _ available =>
    h = .nothing ∧ (d.merged = true → available = d.vq.availableIdx)
  | .storeAvailable _ available =>
    h = .nothing ∧ available = d.vq.availableIdx ∧ g.taken < d.posted.length
  | .loadRing _ available => ∃ q, h = .claimed q ∧ d.vq.vqRing.avail.ring (d.vq.slot available) = q.idx
  | .loadAddr _ idx => ∃ q, h = .buffer q ∧ idx = q.idx
  | .loadLen _ idx buffer => ∃ q, h = .buffer q ∧ idx = q.idx ∧ buffer = some (BitVec.setWidth 32 q.desc.addr)
  | .releaseGet _ (some (hdr, idx, buffLen)) | .setReserved hdr idx buffLen =>
    ∃ q, h = .buffer q ∧ hdr = q.base ∧ idx = q.idx ∧ buffLen = q.desc.len
  | .loadHeld hdr buffLen =>
    ∃ q, h = .buffer q ∧ hdr = q.base ∧ buffLen = q.desc.len ∧ hdrReserved d.mem q.base = q.idx.toNat
  | .storeHeld hdr buffLen reserved =>
    ∃ q, h = .buffer q ∧ hdr = q.base ∧ buffLen = q.desc.len ∧ reserved = q.idx.toNat
  | .copy hdr len i =>
    ∃ q, h = .buffer q ∧ hdr = q.base ∧ Room q c.call len ∧ i ≤ len ∧
      hdrReserved d.mem q.base = q.idx.toNat + rpmsgBufHeld ∧
      BytesAt d.mem (q.base + 16) ((c.call.data.take len).take i)
  | .loadIndex hdr len =>
    ∃ q, h = .buffer q ∧ hdr = q.base ∧ Room q c.call len ∧
      hdrReserved d.mem q.base = q.idx.toNat + rpmsgBufHeld ∧
      BytesAt d.mem (q.base + 16) (c.call.data.take len)
  | .header hdr len idx i =>
    ∃ q, h = .buffer q ∧ hdr = q.base ∧ idx = q.idx ∧ Room q c.call len ∧ i ≤ 16 ∧
      BytesAt d.mem (q.base + 16) (c.call.data.take len) ∧
      BytesAt d.mem q.base ((rpmsgHdrBytes c.call len).take i)
  | .acquireSend len idx _ | .loadBuffLen len idx =>
    ∃ q, h = .buffer q ∧ idx = q.idx ∧ Filled d.mem q (c.call.data.take len)
  | .loadUsed len idx buffLen =>
    ∃ q, h = .buffer q ∧ idx = q.idx ∧ buffLen = q.desc.len ∧ Filled d.mem q (c.call.data.take len)
  | .storeId len idx buffLen used =>
    ∃ q, h = .buffer q ∧ idx = q.idx ∧ buffLen = q.desc.len ∧ Filled d.mem q (c.call.data.take len) ∧
      used = d.vq.vqRing.used.idx
  | .storeLen len buffLen used =>
    ∃ q, h = .buffer q ∧ buffLen = q.desc.len ∧ Filled d.mem q (c.call.data.take len) ∧
      used = d.vq.vqRing.used.idx ∧ (d.vq.vqRing.used.ring (d.vq.slot used)).id = BitVec.setWidth 32 q.idx
  | .reloadUsed len =>
    ∃ q, h = .buffer q ∧ Filled d.mem q (c.call.data.take len) ∧
      d.vq.vqRing.used.ring (d.vq.slot d.vq.vqRing.used.idx) = q.usedElem
  | .storeUsed len used =>
    ∃ q, h = .buffer q ∧ Filled d.mem q (c.call.data.take len) ∧ used = d.vq.vqRing.used.idx ∧
      d.vq.vqRing.used.ring (d.vq.slot used) = q.usedElem
  | .loadQueued len | .storeQueued len _ | .kick len | .clearQueued len | .releaseSend len =>
    ∃ e, h = .entry e ∧ g.payload e = some (c.call.data.take len)
  | .assertFailed => False

/-- The buffers with the device: those of the used entries that the host has not read, those that the calls
hold, and those that are available. -/
def outstanding (d : TxDevice) (g : TxGhost) (hc ho : Hold) : List Posted :=
  (g.entries.drop d.reaped.length).map (·.1) ++ hc.buffers ++ ho.buffers ++ d.posted.drop g.taken

/-- The tx virtqueue and the logs. -/
structure TxRings (k : Nat) (d : TxDevice) (g : TxGhost) : Prop where
  le : k ≤ 15
  nentries : d.vq.nentries = BitVec.ofNat 16 (2 ^ k)
  shmIo : d.vq.shmIo = shmRegion
  avail : d.vq.vqRing.avail.idx = BitVec.ofNat 16 d.posted.length
  available : d.vq.availableIdx = BitVec.ofNat 16 g.taken
  used : d.vq.vqRing.used.idx = BitVec.ofNat 16 g.entries.length
  taken_le : g.taken ≤ d.posted.length
  reaped_le : d.reaped.length ≤ g.entries.length
  room : d.withDevice.length ≤ 2 ^ k
  wf : ∀ q ∈ d.posted, q.Wf k
  slots : HoldsFrom (2 ^ k) d.vq.vqRing.avail.ring (d.posted.map (·.idx)) g.taken
  usedRing : HoldsFrom (2 ^ k) d.vq.vqRing.used.ring (g.entries.map (·.1.usedElem)) d.reaped.length
  reapedLog : d.reaped = (g.entries.take d.reaped.length).map (·.2)
  filled : ∀ p ∈ g.entries.drop d.reaped.length, Filled d.mem p.1 p.2
  sentLog : List.Forall₂ (fun e data => g.payload e = some data) g.sent d.sent

/-- The invariant, for a call `c` and the other call `o`. -/
structure TxInv (k : Nat) (d : TxDevice) (g : TxGhost) (c o : TxCtx) (hc ho : Hold) : Prop where
  rings : TxRings k d g
  owners : (g.entries.map (·.1) ++ hc.buffers ++ ho.buffers).Perm (d.posted.take g.taken)
  takenLog : d.taken.Perm ((g.entries.map (·.1) ++ hc.loaded ++ ho.loaded).map (·.idx))
  withDevice : d.withDevice.Perm (outstanding d g hc ho)
  apart : (outstanding d g hc ho).Pairwise Apart
  desc : ∀ q ∈ outstanding d g hc ho, d.vq.vqRing.desc q.idx.toNat = q.desc
  nodup : (g.sent ++ hc.entries ++ ho.entries).Nodup
  fits : c.pc ≠ .idle → c.call.data.length ≤ 496
  fits' : o.pc ≠ .idle → o.call.data.length ≤ 496
  atPc : AtPc d g c hc
  atPc' : AtPc d g o ho

/-! ## Frames -/

section Frame

variable {d d' : TxDevice} {g g' : TxGhost} {c o : TxCtx} {h hc ho : Hold} {k : Nat} {q : Posted}
  {payload : List Byte} {mem : Mem}

theorem Filled.frame (hf : Filled d.mem q payload) (hm : ∀ x, q.Covers x → mem x = d.mem x) :
    Filled mem q payload := by
  have hfits := hf.fits
  refine ⟨hfits, (payloadAt_congr fun x h1 h2 => hm x ⟨h1, ?_⟩).trans hf.payload⟩
  rw [hf.payload] at h2
  omega

theorem payload_lt {e : Nat} (he : g.payload e = some payload) : e < g.entries.length := by
  obtain ⟨p, hp, -⟩ := Option.map_eq_some_iff.mp he
  exact (List.getElem?_eq_some_iff.mp hp).1

/-- Entries stay what they are. -/
theorem payload_mono {l : List (Posted × List Byte)} (hl : g'.entries = g.entries ++ l) {e : Nat}
    (he : g.payload e = some payload) : g'.payload e = some payload := by
  obtain ⟨p, hp, rfl⟩ := Option.map_eq_some_iff.mp he
  unfold TxGhost.payload
  rw [hl, List.getElem?_append_left (List.getElem?_eq_some_iff.mp hp).1, hp]
  rfl

/-- A call does not see changes to what it does not hold. -/
theorem AtPc.frame (hat : AtPc d g c h) (hwf : ∀ q ∈ h.buffers, 16 ≤ q.desc.len.toNat)
    (hmerged : d'.merged = d.merged) (hnentries : d'.vq.nentries = d.vq.nentries)
    (hposted : d.posted.length ≤ d'.posted.length)
    (htaken : c.pc.InTake d.merged → d'.vq.availableIdx = d.vq.availableIdx ∧ g'.taken = g.taken)
    (hring : ∀ ticks a, c.pc = .loadRing ticks a →
      d'.vq.vqRing.avail.ring (d.vq.slot a) = d.vq.vqRing.avail.ring (d.vq.slot a))
    (hmem : ∀ q ∈ h.buffers, ∀ x, q.Covers x → d'.mem x = d.mem x)
    (hused : c.pc.InUsed → d'.vq.vqRing.used = d.vq.vqRing.used)
    (hentries : ∃ l, g'.entries = g.entries ++ l) : AtPc d' g' c h := by
  have hslot : ∀ a, d'.vq.slot a = d.vq.slot a := fun a => by
    unfold Virtqueue.slot
    rw [hnentries]
  have hfilled : ∀ {q payload}, h = .buffer q → Filled d.mem q payload → Filled d'.mem q payload :=
    fun hq hf => hf.frame fun x hx => hmem _ (by rw [hq]; exact List.mem_singleton_self _) x hx
  have hbytes : ∀ {q : Posted} {a l}, h = .buffer q → q.base ≤ a → a + l.length ≤ q.base + q.desc.len.toNat →
      BytesAt d.mem a l → BytesAt d'.mem a l := fun {q a l} hq h1 h2 hb =>
    hb.congr fun x h3 h4 => hmem q (by rw [hq]; exact List.mem_singleton_self _) x ⟨by omega, by omega⟩
  have hreserved : ∀ {q : Posted}, h = .buffer q → hdrReserved d'.mem q.base = hdrReserved d.mem q.base :=
    fun {q} hq => hdrReserved_congr fun x h1 h2 => by
      have hin : q ∈ h.buffers := by rw [hq]; exact List.mem_singleton_self _
      have := hwf q hin
      exact hmem q hin x ⟨by omega, by omega⟩
  obtain ⟨l, hl⟩ := hentries
  obtain ⟨call, pc⟩ := c
  unfold AtPc at *
  cases pc with
  | test ticks a | reloadAvailable ticks a =>
    obtain ⟨h1, h2⟩ := hat
    refine ⟨h1, fun hm => ?_⟩
    rw [hmerged] at hm
    exact (h2 hm).trans (htaken hm).1.symm
  | storeAvailable ticks a =>
    obtain ⟨h1, h2, h3⟩ := hat
    obtain ⟨h4, h5⟩ := htaken trivial
    exact ⟨h1, h2.trans h4.symm, by omega⟩
  | loadRing ticks a =>
    obtain ⟨q, hq, hr⟩ := hat
    exact ⟨q, hq, by rw [hslot, hring _ _ rfl, hr]⟩
  | loadHeld hdr buffLen =>
    obtain ⟨q, hq, h1, h2, h3⟩ := hat
    exact ⟨q, hq, h1, h2, (hreserved hq).trans h3⟩
  | copy hdr len i =>
    obtain ⟨q, hq, h1, hroom, h2, h3, h4⟩ := hat
    have hfits := hroom.fits
    exact ⟨q, hq, h1, hroom, h2, (hreserved hq).trans h3, hbytes hq (by omega) (by simp; omega) h4⟩
  | loadIndex hdr len =>
    obtain ⟨q, hq, h1, hroom, h2, h3⟩ := hat
    have hfits := hroom.fits
    exact ⟨q, hq, h1, hroom, (hreserved hq).trans h2, hbytes hq (by omega) (by simp; omega) h3⟩
  | header hdr len idx i =>
    obtain ⟨q, hq, h1, h2, hroom, h3, h4, h5⟩ := hat
    have hfits := hroom.fits
    exact ⟨q, hq, h1, h2, hroom, h3, hbytes hq (by omega) (by simp; omega) h4,
      hbytes hq (Nat.le_refl _) (by simp; omega) h5⟩
  | acquireSend _ _ _ | loadBuffLen _ _ =>
    obtain ⟨q, hq, h1, hf⟩ := hat
    exact ⟨q, hq, h1, hfilled hq hf⟩
  | loadUsed _ _ _ =>
    obtain ⟨q, hq, h1, h2, hf⟩ := hat
    exact ⟨q, hq, h1, h2, hfilled hq hf⟩
  | storeId _ _ _ _ =>
    obtain ⟨q, hq, h1, h2, hf, h3⟩ := hat
    exact ⟨q, hq, h1, h2, hfilled hq hf, by rw [hused trivial, h3]⟩
  | storeLen _ _ _ =>
    obtain ⟨q, hq, h1, hf, h2, h3⟩ := hat
    exact ⟨q, hq, h1, hfilled hq hf, by rw [hused trivial, h2], by rw [hslot, hused trivial, h3]⟩
  | reloadUsed _ =>
    obtain ⟨q, hq, hf, h1⟩ := hat
    exact ⟨q, hq, hfilled hq hf, by rw [hslot, hused trivial, h1]⟩
  | storeUsed _ _ =>
    obtain ⟨q, hq, hf, h1, h2⟩ := hat
    exact ⟨q, hq, hfilled hq hf, by rw [hused trivial, h1], by rw [hslot, hused trivial, h2]⟩
  | loadQueued _ | storeQueued _ _ | kick _ | clearQueued _ | releaseSend _ =>
    obtain ⟨e, he, hd⟩ := hat
    exact ⟨e, he, payload_mono hl hd⟩
  | releaseGet ticks buffer =>
    cases buffer with
    | none => exact hat
    | some b => exact hat
  | idle | status | acquireGet _ _ | loadAvailable _ | loadAddr _ _
  | loadLen _ _ _ | setReserved _ _ _ | storeHeld _ _ _ | assertFailed => exact hat

end Frame

/-! ## What the invariant says -/

theorem Apart.symm {p q : Posted} (h : Apart p q) : Apart q p := ⟨h.1.symm, fun x h1 h2 => h.2 x h2 h1⟩

section Outstanding

variable {d : TxDevice} {g : TxGhost} {c o : TxCtx} {hc ho : Hold} {k : Nat} {p q : Posted}

theorem mem_outstanding : p ∈ outstanding d g hc ho ↔
    p ∈ (g.entries.drop d.reaped.length).map (·.1) ∨ p ∈ hc.buffers ∨ p ∈ ho.buffers ∨
      p ∈ d.posted.drop g.taken := by
  simp only [outstanding, List.mem_append, or_assoc]

theorem outstanding_comm (d : TxDevice) (g : TxGhost) (hc ho : Hold) :
    (outstanding d g hc ho).Perm (outstanding d g ho hc) := by
  simp only [outstanding, List.append_assoc]
  apply List.Perm.append_left
  rw [← List.append_assoc, ← List.append_assoc]
  exact List.perm_append_comm.append_right _

/-- The buffer that a call holds and the others. -/
theorem outstanding_perm (hq : hc.buffers = [q]) :
    (outstanding d g hc ho).Perm (q :: outstanding d g .nothing ho) := by
  simp only [outstanding, hq, Hold.buffers_nothing, List.append_nil, List.append_assoc, List.singleton_append]
  exact List.perm_middle

namespace TxRings

theorem slot (h : TxRings k d g) (n : Nat) : d.vq.slot (BitVec.ofNat 16 n) = n % 2 ^ k :=
  Virtqueue.slot_ofNat h.le h.nentries n

theorem two_pow_le (h : TxRings k d g) : 2 ^ k ≤ 2 ^ 15 := Nat.pow_le_pow_right (by decide) h.le

end TxRings

namespace TxInv

/-- The two calls have the same part in the invariant. -/
theorem symm (h : TxInv k d g c o hc ho) : TxInv k d g o c ho hc where
  rings := h.rings
  owners := by
    refine (List.Perm.trans ?_ h.owners)
    simp only [List.append_assoc]
    exact List.perm_append_comm.append_left _
  takenLog := by
    refine h.takenLog.trans (List.Perm.map _ ?_)
    simp only [List.append_assoc]
    exact List.perm_append_comm.append_left _
  withDevice := h.withDevice.trans (outstanding_comm d g hc ho)
  apart := ((outstanding_comm d g hc ho).pairwise_iff Apart.symm).mp h.apart
  desc q hq := h.desc q ((outstanding_comm d g hc ho).mem_iff.mpr hq)
  nodup := by
    refine (List.Perm.nodup_iff ?_).mp h.nodup
    simp only [List.append_assoc]
    exact List.perm_append_comm.append_left _
  fits := h.fits'
  fits' := h.fits
  atPc := h.atPc'
  atPc' := h.atPc

/-- Buffers with the device are of the host's making. -/
theorem wf (h : TxInv k d g c o hc ho) (hp : p ∈ outstanding d g hc ho) : p.Wf k := by
  refine h.rings.wf p ?_
  have howners : ∀ q ∈ g.entries.map (·.1) ++ hc.buffers ++ ho.buffers, q ∈ d.posted :=
    fun q hq => List.mem_of_mem_take (h.owners.mem_iff.mp hq)
  rcases mem_outstanding.mp hp with hp | hp | hp | hp
  · refine howners p (List.mem_append_left _ (List.mem_append_left _ ?_))
    obtain ⟨e, he, rfl⟩ := List.mem_map.mp hp
    exact List.mem_map_of_mem (List.mem_of_mem_drop he)
  · exact howners p (List.mem_append_left _ (List.mem_append_right _ hp))
  · exact howners p (List.mem_append_right _ hp)
  · exact List.mem_of_mem_drop hp

/-- No other buffer has the index or a byte of the one that a call holds. -/
theorem apart_held (h : TxInv k d g c o hc ho) (hq : hc.buffers = [q])
    (hp : p ∈ outstanding d g .nothing ho) : Apart q p := by
  have hpair := ((outstanding_perm hq).pairwise_iff Apart.symm).mp h.apart
  exact (List.pairwise_cons.mp hpair).1 p hp

/-- The buffers with the device fit into the ring. -/
theorem length_le (h : TxInv k d g c o hc ho) :
    (g.entries.length - d.reaped.length) + hc.buffers.length + ho.buffers.length +
      (d.posted.length - g.taken) ≤ 2 ^ k := by
  have hlen := h.withDevice.length_eq
  simp only [outstanding, List.length_append, List.length_map, List.length_drop] at hlen
  have := h.rings.room
  omega

/-- An entry that a call has to itself exists. -/
theorem entry_lt (h : TxInv k d g c o hc ho) {e : Nat} (he : e ∈ ho.entries) : e < g.entries.length := by
  have hat := h.atPc'
  obtain ⟨e', rfl⟩ : ∃ e', ho = .entry e' := by
    cases ho with
    | entry e' => exact ⟨e', rfl⟩
    | nothing | claimed | buffer => cases he
  obtain rfl := List.mem_singleton.mp he
  -- only after the store of `used->idx` does a call have an entry
  obtain ⟨call, pc⟩ := o
  have hpayload : ∃ data, g.payload e = some data := by
    cases pc with
    | loadQueued | storeQueued | kick | clearQueued | releaseSend =>
      obtain ⟨e', he, hdata⟩ := hat
      obtain rfl := Hold.entry.inj he
      exact ⟨_, hdata⟩
    | releaseGet ticks buffer => cases buffer <;> simp [AtPc] at hat
    | _ => simp [AtPc] at hat
  obtain ⟨data, hdata⟩ := hpayload
  exact payload_lt hdata

end TxInv

end Outstanding

end V85x
