import V85xAmp.Rpmsg.TransmitInv

/-!
# Steps of the host and of the calls

Each kind of step keeps `TxInv`. A step of a call leaves what the other call holds, and what it has read
since its last store: the hypotheses `havail` and `hused` say which stores must not fall in between.
-/

namespace V85x

open Firmware

variable {d : TxDevice} {g : TxGhost} {c o : TxCtx} {hc ho : Hold} {k : Nat} {p q : Posted}

/-- `rpmsg_virtio_send_offchannel_raw` sends what fits into the buffer. -/
theorem Posted.Wf.room (hq : q.Wf k) (call : TxCall) :
    let room := q.desc.len - BitVec.ofNat 32 rpmsgHdrSize
    Room q call (if room.toInt < call.data.length then room.toInt.toNat else call.data.length) := by
  intro room
  have hlen := hq.len
  have hregion := hq.region
  have hroom : room.toNat = q.desc.len.toNat - 16 := by
    simp only [room, rpmsgHdrSize] at *
    rw [BitVec.toNat_sub_of_le (by rw [BitVec.le_def]; exact hlen)]
    rfl
  have hint : room.toInt = (q.desc.len.toNat - 16 : Nat) := by
    rw [BitVec.toInt_eq_toNat_of_lt (by omega), hroom]
  unfold rpmsgHdrSize at hlen
  rw [hint]
  split
  · exact ⟨by omega, by omega⟩
  · exact ⟨Nat.le_refl _, by omega⟩

theorem Posted.Wf.apart_reserved (hq : q.Wf k) {x : Nat} (hx : ¬ q.Covers x) :
    x < q.base + 8 ∨ q.base + 12 ≤ x := by
  by_contra hin
  exact hx (hq.covers (by omega) (by omega))

namespace TxInv

/-! ## The host -/

/-- The number of used entries that the host has not read. -/
theorem unread_eq (h : TxInv k d g c o hc ho) : d.unread = g.entries.length - d.reaped.length := by
  have hlen := h.length_le
  have hk := h.rings.two_pow_le
  unfold TxDevice.unread
  rw [h.rings.used, toNat_counter_sub h.rings.reaped_le (by omega)]

/-- What the host finds behind an entry that it has not read. -/
theorem hostPayload_eq (h : TxInv k d g c o hc ho) {e : Nat} {p : Posted × List Byte}
    (hlo : d.reaped.length ≤ e) (he : g.entries[e]? = some p) :
    d.vq.vqRing.used.ring (d.vq.slot (BitVec.ofNat 16 e)) = p.1.usedElem ∧ d.hostPayload e = p.2 := by
  obtain ⟨hlt, hget⟩ := List.getElem?_eq_some_iff.mp he
  have helem : d.vq.vqRing.used.ring (d.vq.slot (BitVec.ofNat 16 e)) = p.1.usedElem := by
    rw [h.rings.slot, h.rings.usedRing e (by simpa using hlt) hlo]
    simp [hget]
  have hmem : p ∈ g.entries.drop d.reaped.length := mem_drop_of_getElem? he hlo
  have hdesc : d.vq.vqRing.desc p.1.idx.toNat = p.1.desc :=
    h.desc p.1 (mem_outstanding.mpr (.inl (List.mem_map_of_mem hmem)))
  have hid : (BitVec.setWidth 32 p.1.idx).toNat = p.1.idx.toNat := by
    rw [BitVec.toNat_setWidth]
    have := p.1.idx.isLt
    omega
  refine ⟨helem, ?_⟩
  unfold TxDevice.hostPayload
  simp only [helem, Posted.usedElem, hid, hdesc]
  exact (h.rings.filled p hmem).payload

/-- What a change of the memory outside of the buffers with the device leaves. -/
theorem filled_of_host (h : TxInv k d g c o hc ho) {mem : Mem}
    (hm : ∀ p ∈ d.withDevice, ∀ x, p.Covers x → mem x = d.mem x) :
    ∀ p ∈ g.entries.drop d.reaped.length, Filled mem p.1 p.2 := by
  intro p hp
  have hwith : p.1 ∈ d.withDevice :=
    h.withDevice.mem_iff.mpr (mem_outstanding.mpr (.inl (List.mem_map_of_mem hp)))
  exact (h.rings.filled p hp).frame (hm p.1 hwith)

theorem buffers_withDevice (h : TxInv k d g c o hc ho) (hq : q ∈ hc.buffers) : q ∈ d.withDevice :=
  h.withDevice.mem_iff.mpr (mem_outstanding.mpr (.inr (.inl hq)))

/-- A call does not see changes to what it does not hold. -/
theorem frame (h : TxInv k d g c o hc ho) {d' : TxDevice} {g' : TxGhost}
    (hmerged : d'.merged = d.merged) (hnentries : d'.vq.nentries = d.vq.nentries)
    (hposted : d.posted.length ≤ d'.posted.length)
    (htaken : c.pc.InTake d.merged → d'.vq.availableIdx = d.vq.availableIdx ∧ g'.taken = g.taken)
    (hring : ∀ ticks a, c.pc = .loadRing ticks a →
      d'.vq.vqRing.avail.ring (d.vq.slot a) = d.vq.vqRing.avail.ring (d.vq.slot a))
    (hmem : ∀ q ∈ hc.buffers, ∀ x, q.Covers x → d'.mem x = d.mem x)
    (hused : c.pc.InUsed → d'.vq.vqRing.used = d.vq.vqRing.used)
    (hentries : ∃ l, g'.entries = g.entries ++ l) : AtPc d' g' c hc :=
  h.atPc.frame (fun _ hq => (h.wf (mem_outstanding.mpr (.inr (.inl hq)))).len) hmerged hnentries hposted
    htaken hring hmem hused hentries

theorem entries_refl (g : TxGhost) : ∃ l, g.entries = g.entries ++ l := ⟨[], (List.append_nil _).symm⟩

/-- A step of the host is none of a call. -/
theorem frame_host (h : TxInv k d g c o hc ho) {d' : TxDevice} (hmerged : d'.merged = d.merged)
    (hnentries : d'.vq.nentries = d.vq.nentries) (hposted : d.posted.length ≤ d'.posted.length)
    (havail : d'.vq.availableIdx = d.vq.availableIdx)
    (hring : ∀ ticks a, c.pc = .loadRing ticks a →
      d'.vq.vqRing.avail.ring (d.vq.slot a) = d.vq.vqRing.avail.ring (d.vq.slot a))
    (hm : ∀ p ∈ d.withDevice, ∀ x, p.Covers x → d'.mem x = d.mem x)
    (hused : d'.vq.vqRing.used = d.vq.vqRing.used) : AtPc d' g c hc :=
  h.frame hmerged hnentries hposted (fun _ => ⟨havail, rfl⟩) hring
    (fun q hq => hm q (h.buffers_withDevice hq)) (fun _ => hused) (entries_refl g)

theorem post (h : TxInv k d g c o hc ho) (hq : d.MayPost q)
    (hslot : ∀ ticks a, c.pc = .loadRing ticks a → d.vq.slot a ≠ d.vq.slot d.vq.vqRing.avail.idx)
    (hslot' : ∀ ticks a, o.pc = .loadRing ticks a → d.vq.slot a ≠ d.vq.slot d.vq.vqRing.avail.idx) :
    TxInv k (d.post q) g c o hc ho := by
  have hnum := Virtqueue.toNat_nentries h.rings.le h.rings.nentries
  have hroom := hq.room
  have hidx := hq.idx_lt
  rw [hnum] at hroom
  rw [BitVec.lt_def, hnum] at hidx
  have hfree : d.posted.length < g.taken + 2 ^ k := by
    have hlen := h.withDevice.length_eq
    simp only [outstanding, List.length_append, List.length_drop] at hlen
    omega
  have hout : outstanding (d.post q) g hc ho = outstanding d g hc ho ++ [q] := by
    show _ ++ (d.posted ++ [q]).drop g.taken = _
    rw [List.drop_append_of_le_length h.rings.taken_le, ← List.append_assoc]
    rfl
  have hother : ∀ p ∈ outstanding d g hc ho, p.idx ≠ q.idx ∧ ∀ x, p.Covers x → ¬ q.Covers x :=
    fun p hp => hq.apart p (h.withDevice.mem_iff.mpr hp)
  have hring : ∀ {c : TxCtx}, (∀ ticks a, c.pc = .loadRing ticks a →
      d.vq.slot a ≠ d.vq.slot d.vq.vqRing.avail.idx) → ∀ ticks a, c.pc = .loadRing ticks a →
      (d.post q).vq.vqRing.avail.ring (d.vq.slot a) = d.vq.vqRing.avail.ring (d.vq.slot a) :=
    fun hne ticks a hpc => Function.update_of_ne (hne ticks a hpc) _ _
  have hposted : d.posted.length ≤ (d.post q).posted.length := by
    simp only [TxDevice.post, List.length_append, Nat.le_add_right]
  exact
    { rings :=
        { h.rings with
          avail := by
            show d.vq.vqRing.avail.idx + 1#16 = _
            rw [h.rings.avail, counter_succ]
            simp [TxDevice.post]
          taken_le := h.rings.taken_le.trans hposted
          room := by
            simp only [TxDevice.post, List.length_append, List.length_singleton]
            exact hroom
          wf := by
            intro p hp
            rcases List.mem_append.mp hp with hp | hp
            · exact h.rings.wf p hp
            · rw [List.mem_singleton.mp hp]
              exact ⟨hidx, hq.len, hq.region⟩
          slots := by
            show HoldsFrom _ (Function.update _ (d.vq.slot d.vq.vqRing.avail.idx) _)
              ((d.posted ++ [q]).map _) _
            have hpush := h.rings.slots.push (by simpa using hfree) q.idx
            rw [h.rings.avail, h.rings.slot, List.map_append]
            simpa using hpush
          filled := h.filled_of_host hq.mem }
      owners := by
        show List.Perm _ ((d.posted ++ [q]).take g.taken)
        rw [List.take_append_of_le_length h.rings.taken_le]
        exact h.owners
      takenLog := h.takenLog
      withDevice := by
        rw [hout]
        exact h.withDevice.append_right [q]
      apart := by
        rw [hout, List.pairwise_append]
        refine ⟨h.apart, List.pairwise_singleton _ _, fun p hp p' hp' => ?_⟩
        rw [List.mem_singleton.mp hp']
        exact hother p hp
      desc := by
        rw [hout]
        intro p hp
        rcases List.mem_append.mp hp with hp | hp
        · have hne : p.idx.toNat ≠ q.idx.toNat := fun he => (hother p hp).1 (BitVec.eq_of_toNat_eq he)
          exact (Function.update_of_ne hne _ _).trans (h.desc p hp)
        · rw [List.mem_singleton.mp hp]
          exact Function.update_self _ _ _
      nodup := h.nodup
      fits := h.fits
      fits' := h.fits'
      atPc := h.frame_host rfl rfl hposted rfl (hring hslot) hq.mem rfl
      atPc' := h.symm.frame_host rfl rfl hposted rfl (hring hslot') hq.mem rfl }

theorem write (h : TxInv k d g c o hc ho) {mem : Mem} {avail : VringAvail} {desc : Nat → VringDesc}
    (hw : d.MayWrite mem avail desc) (driverOk : Bool) :
    TxInv k (d.write mem avail desc driverOk) g c o hc ho := by
  have hnum := Virtqueue.toNat_nentries h.rings.le h.rings.nentries
  have hring : ∀ i < 2 ^ k, avail.ring i = d.vq.vqRing.avail.ring i := fun i hi => hw.ring i (by rwa [hnum])
  have hslot : ∀ a, avail.ring (d.vq.slot a) = d.vq.vqRing.avail.ring (d.vq.slot a) := by
    intro a
    apply hring
    have ha : a = BitVec.ofNat 16 a.toNat := by simp
    rw [ha, h.rings.slot]
    exact Nat.mod_lt _ (Nat.two_pow_pos k)
  exact
    { h with
      rings :=
        { h.rings with
          avail := hw.idx.trans h.rings.avail
          slots := h.rings.slots.congr fun i _ _ => hring _ (Nat.mod_lt _ (Nat.two_pow_pos k))
          filled := h.filled_of_host hw.mem }
      desc := fun q hq => (hw.desc q (h.withDevice.mem_iff.mpr hq)).trans (h.desc q hq)
      atPc := h.frame_host rfl rfl (Nat.le_refl _) rfl (fun _ a _ => hslot a) hw.mem rfl
      atPc' := h.symm.frame_host rfl rfl (Nat.le_refl _) rfl (fun _ a _ => hslot a) hw.mem rfl }

theorem reap (h : TxInv k d g c o hc ho) (hunread : d.unread ≠ 0) : TxInv k d.reap g c o hc ho := by
  rw [h.unread_eq] at hunread
  have hlt : d.reaped.length < g.entries.length := by omega
  obtain ⟨p, hp⟩ : ∃ p, g.entries[d.reaped.length]? = some p := ⟨_, List.getElem?_eq_getElem hlt⟩
  obtain ⟨helem, hpayload⟩ := h.hostPayload_eq (Nat.le_refl _) hp
  have hlen : d.reap.reaped.length = d.reaped.length + 1 := by
    simp only [TxDevice.reap, List.length_append, List.length_singleton]
  have hout : outstanding d g hc ho = p.1 :: outstanding d.reap g hc ho := by
    unfold outstanding
    rw [hlen, drop_of_getElem? hp]
    rfl
  have hapart := h.apart
  rw [hout, List.pairwise_cons] at hapart
  have hsub : ∀ q ∈ outstanding d.reap g hc ho, q ∈ outstanding d g hc ho := fun q hq => by
    rw [hout]
    exact List.mem_cons_of_mem _ hq
  have hid : (BitVec.setWidth 32 p.1.idx).toNat = p.1.idx.toNat := by
    rw [BitVec.toNat_setWidth]
    have := p.1.idx.isLt
    omega
  exact
    { h with
      rings :=
        { h.rings with
          reaped_le := by rw [hlen]; exact hlt
          room := (List.length_filter_le _ _).trans h.rings.room
          usedRing := h.rings.usedRing.drop (by rw [hlen]; exact Nat.le_succ _)
          reapedLog := by
            rw [hlen, take_succ_of_getElem? hp, List.map_append, ← h.rings.reapedLog]
            simp only [TxDevice.reap, hpayload, List.map_cons, List.map_nil]
          filled := fun q hq => h.rings.filled q ((List.drop_sublist_drop_left _ (by omega)).subset hq) }
      withDevice := by
        have hkeep : (outstanding d.reap g hc ho).filter (fun q => q.idx.toNat ≠ p.1.idx.toNat) =
            outstanding d.reap g hc ho := by
          rw [List.filter_eq_self]
          intro q hq
          exact decide_eq_true fun he => (hapart.1 q hq).1 (BitVec.eq_of_toNat_eq he).symm
        have hperm := h.withDevice.filter fun q : Posted => q.idx.toNat ≠ p.1.idx.toNat
        rw [hout, List.filter_cons_of_neg (by simp), hkeep] at hperm
        simpa only [TxDevice.reap, helem, Posted.usedElem, hid] using hperm
      apart := hapart.2
      desc := fun q hq => h.desc q (hsub q hq)
      atPc := h.frame_host rfl rfl (Nat.le_refl _) rfl (fun _ _ _ => rfl) (fun _ _ _ _ => rfl) rfl
      atPc' := h.symm.frame_host rfl rfl (Nat.le_refl _) rfl (fun _ _ _ => rfl) (fun _ _ _ _ => rfl) rfl }

/-! ## Calls -/

/-- A step that changes what the calls do not look at. -/
theorem move (h : TxInv k d g c o hc ho) (hne : c.pc ≠ .idle) (pc : TxPc) (hat : AtPc d g (c.goto pc) hc)
    (lock kicks : Nat) (queuedCnt : BitVec 16) :
    TxInv k { d with lock, kicks, vq := { d.vq with queuedCnt } } g (c.goto pc) o hc ho :=
  { h with
    rings := { h.rings with }
    fits := fun _ => h.fits hne
    atPc := hat }

/-- A call writes to its buffer. -/
theorem writeBuffer (h : TxInv k d g c o hc ho) (hne : c.pc ≠ .idle) (hq : hc = .buffer q) {mem : Mem}
    {pc : TxPc} (hm : ∀ x, ¬ q.Covers x → mem x = d.mem x) (hat : AtPc { d with mem } g (c.goto pc) hc) :
    TxInv k { d with mem } g (c.goto pc) o hc ho := by
  have hother : ∀ p ∈ outstanding d g .nothing ho, ∀ x, p.Covers x → mem x = d.mem x := by
    intro p hp x hx
    have hapart := h.apart_held (by rw [hq]; rfl) hp
    exact hm x fun hcov => hapart.2 x hcov hx
  exact
    { h with
      rings :=
        { h.rings with
          filled := fun p hp => (h.rings.filled p hp).frame
            (hother p.1 (mem_outstanding.mpr (.inl (List.mem_map_of_mem hp)))) }
      fits := fun _ => h.fits hne
      atPc := hat
      atPc' := h.symm.frame rfl rfl (Nat.le_refl _) (fun _ => ⟨rfl, rfl⟩) (fun _ _ _ => rfl)
        (fun p hp => hother p (mem_outstanding.mpr (.inr (.inr (.inl hp))))) (fun _ => rfl) (entries_refl g) }

/-- A call takes the next buffer. -/
theorem take (h : TxInv k d g c o .nothing ho) (hne : c.pc ≠ .idle) (hlt : g.taken < d.posted.length)
    (ho' : ¬ o.pc.InTake d.merged) (ticks : Nat) : ∃ q,
    TxInv k { d with vq := { d.vq with availableIdx := d.vq.availableIdx + 1#16 } }
      { g with taken := g.taken + 1 } (c.goto (.loadRing ticks d.vq.availableIdx)) o (.claimed q) ho := by
  obtain ⟨q, hq⟩ : ∃ q, d.posted[g.taken]? = some q := ⟨_, List.getElem?_eq_getElem hlt⟩
  have hperm : (outstanding d g .nothing ho).Perm
      (outstanding d { g with taken := g.taken + 1 } (.claimed q) ho) := by
    simp only [outstanding, drop_of_getElem? hq, Hold.buffers_nothing, Hold.buffers_claimed, List.append_nil,
      List.append_assoc, List.singleton_append]
    exact List.perm_middle.append_left _
  refine ⟨q, ?_⟩
  exact
    { rings :=
        { h.rings with
          available := by
            show d.vq.availableIdx + 1#16 = _
            rw [h.rings.available, counter_succ]
          taken_le := hlt
          slots := h.rings.slots.drop (Nat.le_succ _) }
      owners := by
        show List.Perm _ (d.posted.take (g.taken + 1))
        rw [take_succ_of_getElem? hq]
        refine List.Perm.trans ?_ (h.owners.append_right [q])
        simp only [Hold.buffers_nothing, Hold.buffers_claimed, List.append_nil, List.append_assoc]
        exact List.perm_append_comm.append_left _
      takenLog := h.takenLog
      withDevice := h.withDevice.trans hperm
      apart := (hperm.pairwise_iff Apart.symm).mp h.apart
      desc := fun p hp => h.desc p (hperm.mem_iff.mpr hp)
      nodup := h.nodup
      fits := fun _ => h.fits hne
      fits' := h.fits'
      atPc := by
        refine ⟨q, rfl, ?_⟩
        show d.vq.vqRing.avail.ring (d.vq.slot d.vq.availableIdx) = q.idx
        rw [h.rings.available, h.rings.slot, h.rings.slots g.taken (by simpa using hlt) (Nat.le_refl _)]
        simp [(List.getElem?_eq_some_iff.mp hq).2]
      atPc' := h.symm.frame rfl rfl (Nat.le_refl _) (fun hpc => absurd hpc ho') (fun _ _ _ => rfl)
        (fun _ _ _ _ => rfl) (fun _ => rfl) (entries_refl g) }

/-- A call reads the index of the buffer that it took. -/
theorem load (h : TxInv k d g c o (.claimed q) ho) (hne : c.pc ≠ .idle) (ticks : Nat) :
    TxInv k { d with taken := d.taken ++ [q.idx] } g (c.goto (.loadAddr ticks q.idx)) o (.buffer q) ho :=
  { h with
    rings := { h.rings with }
    takenLog := by
      refine (h.takenLog.append_right [q.idx]).trans ?_
      simp only [Hold.loaded_claimed, Hold.loaded_buffer, List.append_nil, List.append_assoc, List.map_append,
        List.map_cons, List.map_nil]
      exact List.perm_append_comm.append_left _
    fits := fun _ => h.fits hne
    atPc := ⟨q, rfl, rfl⟩ }

/-- A call writes to the slot of the next used entry. -/
theorem writeUsed (h : TxInv k d g c o hc ho) (hne : c.pc ≠ .idle) (hq : hc = .buffer q) (ho' : ¬ o.pc.InUsed)
    {elem : VringUsedElem} {pc : TxPc}
    (hat : AtPc (d.setUsed { d.vq.vqRing.used with
      ring := Function.update d.vq.vqRing.used.ring (d.vq.slot d.vq.vqRing.used.idx) elem })
      g (c.goto pc) hc) :
    TxInv k (d.setUsed { d.vq.vqRing.used with
      ring := Function.update d.vq.vqRing.used.ring (d.vq.slot d.vq.vqRing.used.idx) elem })
      g (c.goto pc) o hc ho := by
  have hlen := h.length_le
  rw [hq, Hold.buffers_buffer, List.length_singleton] at hlen
  exact
    { h with
      rings :=
        { h.rings with
          usedRing := h.rings.usedRing.congr fun i hlo hhi => by
            rw [List.length_map] at hhi
            refine Function.update_of_ne ?_ _ _
            rw [h.rings.used, h.rings.slot]
            exact slot_ne hhi (by omega) }
      fits := fun _ => h.fits hne
      atPc := hat
      atPc' := h.symm.frame rfl rfl (Nat.le_refl _) (fun _ => ⟨rfl, rfl⟩) (fun _ _ _ => rfl)
        (fun _ _ _ _ => rfl)
        (fun hpc => absurd hpc ho') (entries_refl g) }

/-- A call publishes its used entry. -/
theorem publish (h : TxInv k d g c o (.buffer q) ho) (hne : c.pc ≠ .idle) (ho' : ¬ o.pc.InUsed) {len : Nat}
    (hf : Filled d.mem q (c.call.data.take len))
    (helem : d.vq.vqRing.used.ring (d.vq.slot d.vq.vqRing.used.idx) = q.usedElem) :
    TxInv k (d.setUsed { d.vq.vqRing.used with idx := d.vq.vqRing.used.idx + 1#16 })
      { g with entries := g.entries ++ [(q, c.call.data.take len)] } (c.goto (.loadQueued len)) o
      (.entry g.entries.length) ho := by
  have hle := h.rings.reaped_le
  have hout : outstanding d { g with entries := g.entries ++ [(q, c.call.data.take len)] }
      (.entry g.entries.length) ho = outstanding d g (.buffer q) ho := by
    simp only [outstanding, List.drop_append_of_le_length hle, List.map_append, List.map_cons, List.map_nil,
      Hold.buffers_entry, Hold.buffers_buffer, List.append_nil]
  have hsent : ∀ e ∈ g.sent, e < g.entries.length := by
    have hboth := h.rings.sentLog.imp fun e data he => And.intro (payload_lt he) he
    exact ((List.forall₂_and_left g.sent d.sent).mp hboth).1
  have hfilled : ∀ p ∈ (g.entries ++ [(q, c.call.data.take len)]).drop d.reaped.length,
      Filled d.mem p.1 p.2 := by
    intro p hp
    rw [List.drop_append_of_le_length hle] at hp
    rcases List.mem_append.mp hp with hp | hp
    · exact h.rings.filled p hp
    · rw [List.mem_singleton.mp hp]
      exact hf
  have howners : ((g.entries ++ [(q, c.call.data.take len)]).map Prod.fst ++ [] ++ ho.buffers).Perm
      (d.posted.take g.taken) := by
    simpa using h.owners
  have hlog : d.taken.Perm
      (((g.entries ++ [(q, c.call.data.take len)]).map Prod.fst ++ [] ++ ho.loaded).map Posted.idx) := by
    simpa using h.takenLog
  have hnodup : (g.sent ++ [g.entries.length] ++ ho.entries).Nodup := by
    have hold := h.nodup
    rw [Hold.entries_buffer, List.append_nil] at hold
    rw [List.append_assoc, List.singleton_append, List.nodup_middle]
    refine List.nodup_cons.mpr ⟨fun hin => ?_, hold⟩
    rcases List.mem_append.mp hin with hin | hin
    · exact Nat.lt_irrefl _ (hsent _ hin)
    · exact Nat.lt_irrefl _ (h.entry_lt hin)
  have hwith := h.withDevice
  have hapart := h.apart
  have hdesc := h.desc
  rw [← hout] at hwith hapart hdesc
  exact
    { rings :=
        { h.rings with
          used := by
            show d.vq.vqRing.used.idx + 1#16 = _
            rw [h.rings.used, counter_succ, List.length_append, List.length_singleton]
          reaped_le := by
            rw [List.length_append]
            exact Nat.le_add_right_of_le hle
          usedRing := by
            rw [h.rings.used, h.rings.slot] at helem
            rw [List.map_append]
            exact h.rings.usedRing.snoc (by rw [List.length_map]; exact helem)
          reapedLog := h.rings.reapedLog.trans (congrArg _ (List.take_append_of_le_length hle).symm)
          filled := hfilled
          sentLog := h.rings.sentLog.imp fun _ _ he => payload_mono rfl he }
      owners := howners
      takenLog := hlog
      withDevice := hwith
      apart := hapart
      desc := hdesc
      nodup := hnodup
      fits := fun _ => h.fits hne
      fits' := h.fits'
      atPc := ⟨g.entries.length, rfl, by simp [TxGhost.payload, TxCtx.goto]⟩
      atPc' := h.symm.frame rfl rfl (Nat.le_refl _) (fun _ => ⟨rfl, rfl⟩) (fun _ _ _ => rfl)
        (fun _ _ _ _ => rfl)
        (fun hpc => absurd hpc ho') ⟨_, rfl⟩ }

/-- A call returns, and with its size if that is what it sent. -/
theorem finish {e len : Nat} (h : TxInv k d g c o (.entry e) ho)
    (hpayload : g.payload e = some (c.call.data.take len)) (spurious : Bool) :
    ∃ g', TxInv k (d.access c.call spurious (.releaseSend len)).1 g' (c.goto .idle) o .nothing ho := by
  have hnodup := h.nodup
  rw [Hold.entries_entry] at hnodup
  by_cases hlen : len = c.call.data.length
  · have hlog : List.Forall₂ (fun e data => g.payload e = some data) (g.sent ++ [e])
        (d.sent ++ [c.call.data]) :=
      List.rel_append h.rings.sentLog (.cons (by rw [hpayload, hlen, List.take_length]) .nil)
    refine ⟨{ g with sent := g.sent ++ [e] }, ?_⟩
    simp only [TxDevice.access, TxDevice.metalMutexRelease, if_pos hlen]
    exact
      { h with
        rings := { h.rings with sentLog := hlog }
        nodup := by rwa [Hold.entries_nothing, List.append_nil]
        fits := fun hne => absurd rfl hne
        atPc := rfl }
  · refine ⟨g, ?_⟩
    simp only [TxDevice.access, TxDevice.metalMutexRelease, if_neg hlen]
    exact
      { h with
        rings := { h.rings with }
        nodup := by
          show (g.sent ++ [] ++ ho.entries).Nodup
          rw [List.append_nil]
          exact hnodup.sublist ((List.sublist_append_left _ _).append (.refl _))
        fits := fun hne => absurd rfl hne
        atPc := rfl }

/-- The receive path releases the mutex. -/
theorem release (h : TxInv k d g c o hc ho) : TxInv k d.metalMutexRelease g c o hc ho :=
  { h with rings := { h.rings with } }

/-- A new call. -/
theorem call (h : TxInv k d g c o hc ho) (hpc : c.pc = .idle) (call : TxCall) :
    TxInv k d g (virtUartTransmit c call) o hc ho := by
  have hat : hc = .nothing := by
    have hidle := h.atPc
    unfold AtPc at hidle
    rwa [hpc] at hidle
  unfold virtUartTransmit
  split
  · exact h
  · split
    · exact h
    · rename_i hlen _
      exact { h with fits := fun _ => Nat.le_of_not_lt hlen, atPc := hat }

/-! ## The accesses of a call -/

theorem stay (h : TxInv k d g c o hc ho) (hne : c.pc ≠ .idle) {pc : TxPc} (hat : AtPc d g (c.goto pc) hc) :
    TxInv k d g (c.goto pc) o hc ho :=
  h.move hne pc hat d.lock d.kicks d.vq.queuedCnt

/-- An attempt to acquire the mutex. -/
theorem acquireStep (h : TxInv k d g c o hc ho) (hne : c.pc ≠ .idle) (done : TxPc) (again : Nat → TxPc)
    (hdone : AtPc d g (c.goto done) hc) (hagain : ∀ u, AtPc d g (c.goto (again u)) hc) (unlocked : Nat)
    (spurious : Bool) :
    TxInv k (d.acquireStep unlocked spurious done again).1 g
      (c.goto (d.acquireStep unlocked spurious done again).2) o hc ho := by
  unfold TxDevice.acquireStep atomicCompareExchangeWeak
  by_cases hok : d.lock = unlocked ∧ spurious = false
  · rw [if_pos hok]
    exact h.move hne done hdone metalMutexLocked d.kicks d.vq.queuedCnt
  · rw [if_neg hok]
    exact h.stay hne (hagain d.lock)

/-- The buffer that a call holds. -/
theorem held (h : TxInv k d g c o hc ho) (hq : hc = .buffer q) :
    q.Wf k ∧ d.vq.vqRing.desc q.idx.toNat = q.desc := by
  have hin : q ∈ outstanding d g hc ho :=
    mem_outstanding.mpr (.inr (.inl (by rw [hq]; exact List.mem_singleton_self _)))
  exact ⟨h.wf hin, h.desc q hin⟩

/-- There is a buffer to take. -/
theorem taken_lt (h : TxInv k d g c o hc ho) (hne : d.vq.availableIdx ≠ d.vq.vqRing.avail.idx) :
    g.taken < d.posted.length := by
  refine Nat.lt_of_le_of_ne h.rings.taken_le fun he => hne ?_
  rw [h.rings.available, h.rings.avail, he]

theorem available_ne (h : TxInv k d g c o hc ho) (hlt : g.taken < d.posted.length) :
    d.vq.availableIdx ≠ d.vq.vqRing.avail.idx := by
  have hlen := h.length_le
  have hk := h.rings.two_pow_le
  rw [h.rings.available, h.rings.avail]
  intro he
  have := (counter_eq_iff h.rings.taken_le (by omega)).mp he.symm
  omega

/-- A call copies a byte of the data, or is at its end. -/
theorem copy {call : TxCall} {hdr len i : Nat} (h : TxInv k d g ⟨call, .copy hdr len i⟩ o hc ho)
    (spurious : Bool) :
    TxInv k (d.access call spurious (.copy hdr len i)).1 g
      (TxCtx.goto ⟨call, .copy hdr len i⟩ (d.access call spurious (.copy hdr len i)).2) o hc ho := by
  obtain ⟨q, hq, rfl, hroom, hle, hres, hbytes⟩ := h.atPc
  have hlen : (call.data.take len).length = len := by
    rw [List.length_take]
    exact Nat.min_eq_left hroom.le
  have hfits := hroom.fits
  by_cases hlt : i < len
  · simp only [TxDevice.access, if_pos hlt, rpmsgLocateData, rpmsgHdrSize]
    refine h.writeBuffer nofun hq (fun x hx => Function.update_of_ne ?_ _ _) ?_
    · rintro rfl
      exact hx ⟨by omega, by omega⟩
    · refine ⟨q, hq, rfl, hroom, hlt, ?_, ?_⟩
      · rw [← hres]
        refine hdrReserved_congr fun x _ hx => ?_
        exact Function.update_of_ne (by omega) _ _
      · have hstore := hbytes.store (by rw [hlen]; exact hlt)
        have hget : (call.data.take len).getD i 0#8 = call.data.getD i 0#8 := by
          simp [List.getD, hlt]
        rwa [hget] at hstore
  · simp only [TxDevice.access, if_neg hlt]
    have hi : i = len := Nat.le_antisymm hle (Nat.le_of_not_lt hlt)
    refine h.stay nofun ⟨q, hq, rfl, hroom, hres, ?_⟩
    have hall : (call.data.take len).take i = call.data.take len := by
      rw [hi]
      exact List.take_of_length_le (Nat.le_of_eq hlen)
    rwa [hall] at hbytes

/-- A call writes a byte of the header, or is at its end: then the buffer holds the message. -/
theorem header {call : TxCall} {hdr len i : Nat} {idx : BitVec 16}
    (h : TxInv k d g ⟨call, .header hdr len idx i⟩ o hc ho) (spurious : Bool) :
    TxInv k (d.access call spurious (.header hdr len idx i)).1 g
      (TxCtx.goto ⟨call, .header hdr len idx i⟩ (d.access call spurious (.header hdr len idx i)).2) o hc
      ho := by
  obtain ⟨q, hq, rfl, rfl, hroom, hle, hbytes, hhdr⟩ := h.atPc
  have hfits := hroom.fits
  have hlen : (call.data.take len).length = len := by
    rw [List.length_take]
    exact Nat.min_eq_left hroom.le
  have hhdrLen := length_rpmsgHdrBytes call len
  by_cases hlt : i < rpmsgHdrSize
  · simp only [TxDevice.access, if_pos hlt]
    unfold rpmsgHdrSize at hlt
    refine h.writeBuffer nofun hq (fun x hx => Function.update_of_ne ?_ _ _) ?_
    · rintro rfl
      exact hx ⟨by omega, by omega⟩
    · refine ⟨q, hq, rfl, rfl, hroom, hlt, ?_, hhdr.store (by rw [hhdrLen]; exact hlt)⟩
      refine hbytes.congr fun x hx _ => ?_
      exact Function.update_of_ne (by omega) _ _
  · simp only [TxDevice.access, if_neg hlt]
    unfold rpmsgHdrSize at hlt
    have hall : (rpmsgHdrBytes call len).take i = rpmsgHdrBytes call len :=
      List.take_of_length_le (by omega)
    rw [hall] at hhdr
    have hdata : call.data.length ≤ 496 := h.fits nofun
    have hmax : len ≤ call.data.length := hroom.le
    have hfilled : Filled d.mem q (call.data.take len) :=
      ⟨by rw [hlen]; exact hfits,
        payloadAt_of_bytesAt (by rw [hdrLen_of_bytesAt (by omega) hhdr, hlen]) hbytes⟩
    exact h.stay nofun ⟨q, hq, rfl, hfilled⟩

/-- One access of a call. -/
theorem access (h : TxInv k d g c o hc ho) (hne : c.pc ≠ .idle)
    (hreload : c.pc.AtReloadAvailable → d.vq.availableIdx ≠ d.vq.vqRing.avail.idx)
    (havail : c.pc.AtStoreAvailable → ¬ o.pc.InTake d.merged) (hused : c.pc.InUsed → ¬ o.pc.InUsed)
    (spurious : Bool) :
    ∃ g' hc', TxInv k (d.access c.call spurious c.pc).1 g' (c.goto (d.access c.call spurious c.pc).2) o hc'
      ho := by
  have hat := h.atPc
  obtain ⟨call, pc⟩ := c
  cases pc with
  | idle => exact absurd rfl hne
  | status =>
    refine ⟨g, hc, ?_⟩
    simp only [TxDevice.access]
    split
    · exact h.stay hne hat
    · exact h.stay hne hat
  | acquireGet ticks unlocked =>
    exact ⟨g, hc,
      h.acquireStep hne (.loadAvailable ticks) (.acquireGet ticks) hat (fun _ => hat) unlocked spurious⟩
  | loadAvailable ticks => exact ⟨g, hc, h.stay hne ⟨hat, fun _ => rfl⟩⟩
  | test ticks available =>
    refine ⟨g, hc, ?_⟩
    simp only [TxDevice.access]
    split
    · exact h.stay hne hat.1
    · exact h.stay hne hat
  | reloadAvailable ticks available =>
    refine ⟨g, hc, ?_⟩
    have hval : (if d.merged then available else d.vq.availableIdx) = d.vq.availableIdx := by
      split
      · next hm => exact hat.2 hm
      · rfl
    simp only [TxDevice.access, hval]
    exact h.stay hne ⟨hat.1, rfl, h.taken_lt (hreload trivial)⟩
  | storeAvailable ticks available =>
    obtain ⟨rfl, rfl, hlt⟩ := hat
    obtain ⟨q, hq⟩ := h.take hne hlt (havail trivial) ticks
    exact ⟨_, _, hq⟩
  | loadRing ticks available =>
    obtain ⟨q, rfl, hq⟩ := hat
    refine ⟨g, .buffer q, ?_⟩
    simp only [TxDevice.access, hq]
    exact h.load hne ticks
  | loadAddr ticks idx =>
    obtain ⟨q, hq, rfl⟩ := hat
    obtain ⟨hwf, hdesc⟩ := h.held hq
    refine ⟨g, hc, h.stay hne ⟨q, hq, rfl, ?_⟩⟩
    unfold virtqueueGetBufferAddr
    rw [hdesc, h.rings.shmIo, hwf.metalIoPhysToVirt]
  | loadLen ticks idx buffer =>
    obtain ⟨q, hq, rfl, rfl⟩ := hat
    obtain ⟨hwf, hdesc⟩ := h.held hq
    exact ⟨g, hc, h.stay hne ⟨q, hq, hwf.toNat_addr, rfl, congrArg VringDesc.len hdesc⟩⟩
  | releaseGet ticks buffer =>
    cases buffer with
    | none =>
      refine ⟨g, hc, ?_⟩
      simp only [TxDevice.access]
      split
      · exact h.move hne .idle hat metalMutexUnlocked d.kicks d.vq.queuedCnt
      · exact h.move hne (.acquireGet (ticks - 1) _) hat metalMutexUnlocked d.kicks d.vq.queuedCnt
    | some b =>
      obtain ⟨hdr, idx, buffLen⟩ := b
      exact ⟨g, hc, h.move hne (.setReserved hdr idx buffLen) hat metalMutexUnlocked d.kicks d.vq.queuedCnt⟩
  | setReserved hdr idx buffLen =>
    obtain ⟨q, hq, rfl, rfl, rfl⟩ := hat
    have hidx := q.idx.isLt
    exact ⟨g, hc, h.writeBuffer hne hq (fun x hx => setHdrReserved_apply ((h.held hq).1.apart_reserved hx))
      ⟨q, hq, rfl, rfl, hdrReserved_setHdrReserved _ _ (by omega)⟩⟩
  | loadHeld hdr buffLen =>
    obtain ⟨q, hq, rfl, rfl, hres⟩ := hat
    exact ⟨g, hc, h.stay hne ⟨q, hq, rfl, rfl, hres⟩⟩
  | storeHeld hdr buffLen reserved =>
    obtain ⟨q, hq, rfl, rfl, rfl⟩ := hat
    have hidx := q.idx.isLt
    have hwf := (h.held hq).1
    refine ⟨g, hc, h.writeBuffer hne hq (fun x hx => setHdrReserved_apply (hwf.apart_reserved hx))
      ⟨q, hq, rfl, hwf.room call, Nat.zero_le _, hdrReserved_setHdrReserved _ _ ?_, bytesAt_nil _ _⟩⟩
    unfold rpmsgBufHeld
    omega
  | copy hdr len i => exact ⟨g, hc, h.copy spurious⟩
  | loadIndex hdr len =>
    obtain ⟨q, hq, rfl, hroom, hres, hbytes⟩ := hat
    have hidx : BitVec.ofNat 16 (hdrReserved d.mem q.base) = q.idx := by
      rw [hres]
      unfold rpmsgBufHeld
      apply BitVec.eq_of_toNat_eq
      have := q.idx.isLt
      simp only [BitVec.toNat_ofNat]
      omega
    exact ⟨g, hc, h.stay hne ⟨q, hq, rfl, hidx, hroom, Nat.zero_le _, hbytes, bytesAt_nil _ _⟩⟩
  | header hdr len idx i => exact ⟨g, hc, h.header spurious⟩
  | acquireSend len idx unlocked =>
    exact ⟨g, hc,
      h.acquireStep hne (.loadBuffLen len idx) (.acquireSend len idx) hat (fun _ => hat) unlocked spurious⟩
  | loadBuffLen len idx =>
    obtain ⟨q, hq, rfl, hf⟩ := hat
    exact ⟨g, hc, h.stay hne ⟨q, hq, rfl, congrArg VringDesc.len (h.held hq).2, hf⟩⟩
  | loadUsed len idx buffLen =>
    obtain ⟨q, hq, rfl, rfl, hf⟩ := hat
    refine ⟨g, hc, ?_⟩
    have hlt : ¬ d.vq.nentries ≤ q.idx := by
      rw [BitVec.le_def, Virtqueue.toNat_nentries h.rings.le h.rings.nentries]
      exact Nat.not_le_of_lt (h.held hq).1.idx_lt
    simp only [TxDevice.access, if_neg hlt]
    exact h.stay hne ⟨q, hq, rfl, rfl, hf, rfl⟩
  | storeId len idx buffLen used =>
    obtain ⟨q, hq, rfl, rfl, hf, rfl⟩ := hat
    refine ⟨g, hc, h.writeUsed hne hq (hused trivial) ⟨q, hq, rfl, hf, rfl, ?_⟩⟩
    exact congrArg VringUsedElem.id (Function.update_self _ _ d.vq.vqRing.used.ring)
  | storeLen len buffLen used =>
    obtain ⟨q, hq, rfl, hf, rfl, hid⟩ := hat
    refine ⟨g, hc, h.writeUsed hne hq (hused trivial) ⟨q, hq, hf, ?_⟩⟩
    refine (Function.update_self _ _ _).trans ?_
    rw [Posted.usedElem, ← hid]
  | reloadUsed len =>
    obtain ⟨q, hq, hf, helem⟩ := hat
    exact ⟨g, hc, h.stay hne ⟨q, hq, hf, rfl, helem⟩⟩
  | storeUsed len used =>
    obtain ⟨q, rfl, hf, rfl, helem⟩ := hat
    exact ⟨_, _, h.publish hne (hused trivial) hf helem⟩
  | loadQueued len => exact ⟨g, hc, h.stay hne hat⟩
  | storeQueued len queued => exact ⟨g, hc, h.move hne (.kick len) hat d.lock d.kicks (queued + 1#16)⟩
  | kick len => exact ⟨g, hc, h.move hne (.clearQueued len) hat d.lock _ d.vq.queuedCnt⟩
  | clearQueued len => exact ⟨g, hc, h.move hne (.releaseSend len) hat d.lock d.kicks 0#16⟩
  | releaseSend len =>
    obtain ⟨e, rfl, hpayload⟩ := hat
    obtain ⟨g', hg⟩ := h.finish hpayload spurious
    exact ⟨g', .nothing, hg⟩
  | assertFailed => exact hat.elim

end TxInv

end V85x
