import V85xAmp.Lib.Doorbell
import V85xAmp.Virtio.SplitRingRuns

/-!
# Waiting for the other side (`virtqueue_enable_cb`, `virtqueue_disable_cb`, `virtqueue_kick`)

A side that waits for the other one enables its callback, which sets its mark in the shared memory (a flag,
or with `VIRTIO_RING_F_EVENT_IDX` an index), and then looks at the ring once more: only if nothing is there,
it sleeps until it is notified. The other side kicks: it reads the mark, and notifies if it must.

`no_lost_wakeup`: a side that sleeps, although the ring has something for it that the other side has kicked
for, was notified, or is about to be. This holds for both sides, in both modes, whatever the order of the
accesses, as long as each side kicks before its 16-bit count of the entries that it has added wraps
(`Counted`). No code checks that, and a side with a full count does not notify
(`vqRingMustNotify_of_wrapped`).
-/

namespace V85x

open Firmware

variable {C : Type}

/-! ## The source -/

namespace DriverQueue

/-- `vring_used_event` -/
def usedEvent (vq : DriverQueue C) : BitVec 16 := vq.avail.ring vq.nentries.toNat

/-- The available ring after a write to `vring_used_event`. -/
def setUsedEvent (vq : DriverQueue C) (event : BitVec 16) : VringAvail :=
  { vq.avail with ring := Function.update vq.avail.ring vq.nentries.toNat event }

/-- `vring_avail_event`: the low half of the word, which is the union's `event`. -/
def availEvent (vq : DriverQueue C) : BitVec 16 := (vq.used.ring vq.nentries.toNat).id.extractLsb' 0 16

/-- `virtqueue_disable_cb` of a driver with these features. -/
def disableCb (features : BitVec 32) (vq : DriverQueue C) : DriverQueue C :=
  { vq with avail :=
      if features &&& virtioRingFEventIdx ≠ 0#32 then vq.setUsedEvent (vq.usedConsIdx - vq.nentries - 1#16)
      else { vq.avail with flags := vq.avail.flags ||| vringAvailFNoInterrupt } }

/-- `vq_ring_enable_interrupt` of a driver, up to its look at the ring. -/
def enableInterrupt (features : BitVec 32) (vq : DriverQueue C) (ndesc : BitVec 16) : DriverQueue C :=
  { vq with avail :=
      if features &&& virtioRingFEventIdx ≠ 0#32 then vq.setUsedEvent (vq.usedConsIdx + ndesc)
      else { vq.avail with flags := vq.avail.flags &&& ~~~vringAvailFNoInterrupt } }

theorem idx_disableCb (features : BitVec 32) (vq : DriverQueue C) :
    (vq.disableCb features).avail.idx = vq.avail.idx := by
  unfold disableCb
  split <;> rfl

theorem idx_enableInterrupt (features : BitVec 32) (vq : DriverQueue C) (ndesc : BitVec 16) :
    (vq.enableInterrupt features ndesc).avail.idx = vq.avail.idx := by
  unfold enableInterrupt
  split <;> rfl

/-- `virtqueue_nused` -/
def nused (vq : DriverQueue C) : BitVec 16 := vq.used.idx - vq.usedConsIdx

/-- `vq_ring_must_notify` of a driver. -/
def mustNotify (features : BitVec 32) (vq : DriverQueue C) : Bool :=
  if features &&& virtioRingFEventIdx ≠ 0#32 then
    let newIdx := vq.avail.idx
    vringNeedEvent vq.availEvent newIdx (newIdx - vq.queuedCnt)
  else vq.used.flags &&& vringUsedFNoNotify = 0#16

end DriverQueue

namespace Virtqueue

/-- The used ring after a write to `vring_avail_event`. -/
def setAvailEvent (vq : Virtqueue) (event : BitVec 16) : VringUsed :=
  let used := vq.vqRing.used
  let elem := used.ring vq.nentries.toNat
  let elem := { elem with id := elem.id.extractLsb' 16 16 ++ event }
  { used with ring := Function.update used.ring vq.nentries.toNat elem }

/-- `virtqueue_disable_cb` of a device with these features. -/
def disableCb (features : BitVec 32) (vq : Virtqueue) : Virtqueue :=
  { vq with vqRing := { vq.vqRing with used :=
      if features &&& virtioRingFEventIdx ≠ 0#32 then vq.setAvailEvent (vq.availableIdx - vq.nentries - 1#16)
      else { vq.vqRing.used with flags := vq.vqRing.used.flags ||| vringUsedFNoNotify } } }

/-- `vq_ring_enable_interrupt` of a device, up to its look at the ring. -/
def enableInterrupt (features : BitVec 32) (vq : Virtqueue) (ndesc : BitVec 16) : Virtqueue :=
  { vq with vqRing := { vq.vqRing with used :=
      if features &&& virtioRingFEventIdx ≠ 0#32 then vq.setAvailEvent (vq.availableIdx + ndesc)
      else { vq.vqRing.used with flags := vq.vqRing.used.flags &&& ~~~vringUsedFNoNotify } } }

theorem idx_disableCb (features : BitVec 32) (vq : Virtqueue) :
    (vq.disableCb features).vqRing.used.idx = vq.vqRing.used.idx := by
  unfold disableCb
  split <;> rfl

theorem idx_enableInterrupt (features : BitVec 32) (vq : Virtqueue) (ndesc : BitVec 16) :
    (vq.enableInterrupt features ndesc).vqRing.used.idx = vq.vqRing.used.idx := by
  unfold enableInterrupt
  split <;> rfl

/-- `virtqueue_navail` -/
def navail (vq : Virtqueue) : BitVec 16 := vq.vqRing.avail.idx - vq.availableIdx

end Virtqueue

/-! ## The two sides -/

/-- The two sides of a ring, where each of them is when it waits, and in its kick: the decision that it has
made, and its notification that the other side has not got. -/
structure WakeState (C : Type) where
  queue : SplitQueue C
  features : BitVec 32
  driverWaiter : Waiter
  deviceWaiter : Waiter
  driverLooked : Option Bool
  deviceLooked : Option Bool
  driverNotified : Bool
  deviceNotified : Bool

/-- What the two sides do: an access to the ring, the two halves of `virtqueue_enable_cb`, the end of the
wait on one's own account, with or without `virtqueue_disable_cb`, the two halves of `virtqueue_kick`, and the
arrival of a notification. -/
inductive WakeAct (C : Type)
  | queue (act : SplitAct C)
  | enable (role : VirtioRole)
  | check (role : VirtioRole)
  | wake (role : VirtioRole)
  | disable (role : VirtioRole)
  | look (role : VirtioRole)
  | notify (role : VirtioRole)
  | notified (role : VirtioRole)

namespace WakeState

def setDriver (s : WakeState C) (vq : DriverQueue C) : WakeState C :=
  { s with queue := { s.queue with driver := vq } }

def setDevice (s : WakeState C) (vq : Virtqueue) : WakeState C := { s with queue := s.queue.setDevice vq }

/-- A side does not use a ring in the middle of its kick, and takes nothing from one that it waits for. -/
def Allowed (s : WakeState C) : SplitAct C → Prop
  | .fill _ => True
  | .publish => s.driverLooked = none
  | .reap _ _ => s.driverWaiter = .running
  | .take _ _ _ => s.deviceWaiter = .running
  | .putUsed _ _ => True
  | .showUsed => s.deviceLooked = none

inductive Step : WakeState C → WakeAct C → WakeState C → Prop
  | queue {s : WakeState C} {act : SplitAct C} {queue : SplitQueue C} : Allowed s act →
      SplitQueue.Step s.queue act queue → Step s (.queue act) { s with queue }
  | enableDriver {s : WakeState C} : s.driverWaiter = .running →
      Step s (.enable .driver)
        { s.setDriver (s.queue.driver.enableInterrupt s.features 0#16) with driverWaiter := .arming }
  | enableDevice {s : WakeState C} : s.deviceWaiter = .running →
      Step s (.enable .device)
        { s.setDevice (s.queue.device.enableInterrupt s.features 0#16) with deviceWaiter := .arming }
  | checkDriver {s : WakeState C} : s.driverWaiter = .arming →
      Step s (.check .driver)
        { s with driverWaiter := if s.queue.driver.nused > 0#16 then .running else .asleep }
  | checkDevice {s : WakeState C} : s.deviceWaiter = .arming →
      Step s (.check .device)
        { s with deviceWaiter := if s.queue.device.navail > 0#16 then .running else .asleep }
  | wakeDriver {s : WakeState C} : s.driverWaiter ≠ .arming →
      Step s (.wake .driver) { s with driverWaiter := .running }
  | wakeDevice {s : WakeState C} : s.deviceWaiter ≠ .arming →
      Step s (.wake .device) { s with deviceWaiter := .running }
  | disableDriver {s : WakeState C} : s.driverWaiter ≠ .arming →
      Step s (.disable .driver)
        { s.setDriver (s.queue.driver.disableCb s.features) with driverWaiter := .running }
  | disableDevice {s : WakeState C} : s.deviceWaiter ≠ .arming →
      Step s (.disable .device)
        { s.setDevice (s.queue.device.disableCb s.features) with deviceWaiter := .running }
  | lookDriver {s : WakeState C} : s.driverLooked = none →
      Step s (.look .driver) { s with driverLooked := some (s.queue.driver.mustNotify s.features) }
  | lookDevice {s : WakeState C} : s.deviceLooked = none →
      Step s (.look .device) { s with deviceLooked := some (vqRingMustNotify s.features s.queue.device) }
  | notifyDriver {s : WakeState C} {must : Bool} : s.driverLooked = some must →
      Step s (.notify .driver)
        { s.setDriver { s.queue.driver with queuedCnt := 0#16 } with
          driverLooked := none, deviceNotified := s.deviceNotified || must }
  | notifyDevice {s : WakeState C} {must : Bool} : s.deviceLooked = some must →
      Step s (.notify .device)
        { s.setDevice { s.queue.device with queuedCnt := 0#16 } with
          deviceLooked := none, driverNotified := s.driverNotified || must }
  | notifiedDriver {s : WakeState C} : s.driverWaiter ≠ .arming →
      Step s (.notified .driver) { s with driverWaiter := .running, driverNotified := false }
  | notifiedDevice {s : WakeState C} : s.deviceWaiter ≠ .arming →
      Step s (.notified .device) { s with deviceWaiter := .running, deviceNotified := false }

/-- A side adds no entry when its count of those since its last kick would wrap. -/
def Counted (s : WakeState C) : WakeAct C → Prop
  | .queue .publish => s.queue.driver.queuedCnt ≠ BitVec.allOnes 16
  | .queue .showUsed => s.queue.queuedCnt ≠ BitVec.allOnes 16
  | _ => True

/-- A step of two sides that kick in time. -/
def CountedStep (s : WakeState C) (act : WakeAct C) (t : WakeState C) : Prop :=
  Counted s act ∧ Step s act t

/-- A new ring, and no side waits. -/
structure Init (k : Nat) (driverIo deviceIo : IoRegion) (s : WakeState C) : Prop where
  queue : SplitQueue.Init k driverIo deviceIo s.queue
  driverWaiter : s.driverWaiter = .running
  deviceWaiter : s.deviceWaiter = .running

/-! ## The bells of the two sides -/

/-- The driver waits for used buffers. -/
def usedBell (s : WakeState C) : Bell where
  pending := (s.queue.driver.used.idx - s.queue.driver.usedConsIdx).toNat
  queued := s.queue.queuedCnt.toNat
  waiter := s.driverWaiter
  looked := s.deviceLooked
  rung := s.driverNotified

/-- The device waits for available buffers. -/
def availBell (s : WakeState C) : Bell where
  pending := (s.queue.driver.avail.idx - s.queue.availableIdx).toNat
  queued := s.queue.driver.queuedCnt.toNat
  waiter := s.deviceWaiter
  looked := s.driverLooked
  rung := s.deviceNotified

/-- The mark of a waiting driver. -/
def UsedMark (s : WakeState C) : Prop :=
  s.driverWaiter ≠ .running →
    if s.features &&& virtioRingFEventIdx ≠ 0#32 then s.queue.driver.usedEvent = s.queue.driver.usedConsIdx
    else s.queue.driver.avail.flags &&& vringAvailFNoInterrupt = 0#16

/-- The mark of a waiting device. -/
def AvailMark (s : WakeState C) : Prop :=
  s.deviceWaiter ≠ .running →
    if s.features &&& virtioRingFEventIdx ≠ 0#32 then s.queue.driver.availEvent = s.queue.availableIdx
    else s.queue.driver.used.flags &&& vringUsedFNoNotify = 0#16

variable {k : Nat} {driverIo deviceIo : IoRegion} {s t : WakeState C}

/-- The ring has its layout, the waiting sides have set their marks, and neither is owed a notification. -/
structure Inv (k : Nat) (driverIo deviceIo : IoRegion) (s : WakeState C) : Prop where
  layout : ∃ x, SplitQueue.Layout k driverIo deviceIo s.queue x
  usedMark : UsedMark s
  availMark : AvailMark s
  usedOwed : s.usedBell.Owed
  availOwed : s.availBell.Owed

/-! ### The kick -/

/-- An index that the count of the new entries has passed. -/
theorem vringNeedEvent_of_le {eventIdx newIdx queued : BitVec 16} (hpos : 0 < (newIdx - eventIdx).toNat)
    (hle : (newIdx - eventIdx).toNat ≤ queued.toNat) :
    vringNeedEvent eventIdx newIdx (newIdx - queued) = true := by
  have hback : newIdx - (newIdx - queued) = queued := by grind
  have hone : (newIdx - eventIdx - 1#16).toNat = (newIdx - eventIdx).toNat - 1 := by
    rw [BitVec.toNat_sub_of_le (by rw [BitVec.le_def]; exact hpos)]
    rfl
  rw [vringNeedEvent, hback]
  refine decide_eq_true ?_
  rw [BitVec.lt_def, hone]
  omega

/-- A device that has added a used buffer since a waiting driver set its mark must notify it. -/
theorem UsedMark.must (h : UsedMark s) (hwait : s.usedBell.waiter ≠ .running) (hpos : 0 < s.usedBell.pending)
    (hle : s.usedBell.pending ≤ s.usedBell.queued) :
    vqRingMustNotify s.features s.queue.device = true := by
  have hmark := h hwait
  unfold vqRingMustNotify
  split at hmark
  · rename_i hfeat
    rw [if_pos hfeat]
    have hevent : s.queue.device.usedEvent = s.queue.driver.usedConsIdx := hmark
    simp only [hevent]
    exact vringNeedEvent_of_le hpos hle
  · rename_i hfeat
    rw [if_neg hfeat]
    exact decide_eq_true hmark

/-- The same for a driver and a waiting device. -/
theorem AvailMark.must (h : AvailMark s) (hwait : s.availBell.waiter ≠ .running)
    (hpos : 0 < s.availBell.pending) (hle : s.availBell.pending ≤ s.availBell.queued) :
    s.queue.driver.mustNotify s.features = true := by
  have hmark := h hwait
  unfold DriverQueue.mustNotify
  split at hmark
  · rename_i hfeat
    rw [if_pos hfeat]
    simp only [hmark]
    exact vringNeedEvent_of_le hpos hle
  · rename_i hfeat
    rw [if_neg hfeat]
    exact decide_eq_true hmark

/-! ### Accesses to the ring -/

theorem toNat_succ_of_ne {q : BitVec 16} (h : q ≠ BitVec.allOnes 16) : (q + 1#16).toNat = q.toNat + 1 := by
  have hne : q.toNat ≠ 65535 := fun he => h (BitVec.eq_of_toNat_eq he)
  have hlt := q.isLt
  rw [BitVec.toNat_add]
  simp only [BitVec.toNat_ofNat]
  omega

section Queue

variable {queue : SplitQueue C} {act : SplitAct C} {x : Exchange (BitVec 16) (Ask C) (BitVec 32)}

theorem toNat_nentries (hx : SplitQueue.Layout k driverIo deviceIo queue x) :
    queue.driver.nentries.toNat = 2 ^ k := by
  have hpow : 2 ^ k ≤ 2 ^ 15 := Nat.pow_le_pow_right (by decide) hx.le
  rw [hx.nentries, BitVec.toNat_ofNat, Nat.mod_eq_of_lt (by omega)]

/-- The entry behind the rings is in none of their slots. -/
theorem slot_lt (hx : SplitQueue.Layout k driverIo deviceIo queue x) (idx : BitVec 16) :
    idx.toNat % 2 ^ k < queue.driver.nentries.toNat := by
  rw [toNat_nentries hx]
  exact Nat.mod_lt _ (Nat.two_pow_pos k)

theorem length_lt (hx : SplitQueue.Layout k driverIo deviceIo queue x) {α : Type}
    {l : List α} (hl : l.length ≤ x.outstanding.length) : l.length < 2 ^ 16 := by
  have hpow : 2 ^ k ≤ 2 ^ 15 := Nat.pow_le_pow_right (by decide) hx.le
  have := hx.length_le
  omega

/-- The counters of the rings are the lengths of the queues. -/
theorem toNat_avail (hx : SplitQueue.Layout k driverIo deviceIo queue x) :
    (queue.driver.avail.idx - queue.availableIdx).toNat + queue.driverBusy.toNat = x.posted.length := by
  have := hx.avail.toNat_sub (length_lt hx (by simp [Exchange.outstanding]))
  rwa [List.length_map] at this

theorem toNat_used (hx : SplitQueue.Layout k driverIo deviceIo queue x) :
    (queue.driver.used.idx - queue.driver.usedConsIdx).toNat + queue.deviceBusy.toNat = x.done.length := by
  have := hx.used.toNat_sub (length_lt hx (by simp [Exchange.outstanding]; omega))
  rwa [List.length_map] at this

theorem inv_queue (h : Inv k driverIo deviceIo s) (hcount : Counted s (.queue act)) (hallow : Allowed s act)
    (hst : SplitQueue.Step s.queue act queue) : Inv k driverIo deviceIo { s with queue } := by
  obtain ⟨x, hx⟩ := h.layout
  have hlayout := hx.step' hst
  cases hst with
  | @fill ask hbusy hask =>
    refine ⟨hlayout, fun hwait => ?_, h.availMark, h.usedOwed, h.availOwed⟩
    have hevent : (s.queue.driver.fill ask.bufs ask.readable ask.cookie).usedEvent =
        s.queue.driver.usedEvent := by
      refine Function.update_of_ne (ne_of_gt ?_) _ _
      rw [hx.slot_driver]
      exact slot_lt hx _
    have hmark := h.usedMark hwait
    rw [← hevent] at hmark
    exact hmark
  | publish hbusy =>
    have havail := toNat_avail hx
    have havail' := toNat_avail (hx.publish hbusy)
    refine ⟨hlayout, h.usedMark, h.availMark, h.usedOwed, h.availOwed.of_step (.inr ⟨.add, ?_⟩)⟩
    have hbell : availBell { s with queue := { s.queue with
        driver := s.queue.driver.publish, driverBusy := false } } =
        { s.availBell with pending := s.availBell.pending + 1, queued := s.availBell.queued + 1 } := by
      simp only [availBell, Bell.mk.injEq, and_true]
      refine ⟨?_, toNat_succ_of_ne hcount⟩
      rw [hbusy] at havail
      simp only [Bool.toNat_true, Bool.toNat_false] at havail havail'
      omega
    rw [hbell]
    exact .add hallow
  | reap hbusy hret =>
    obtain ⟨l, done, last, hdone, -, rfl, hx'⟩ := hx.reap hret
    have hused := toNat_used hx
    have hused' := toNat_used hx'
    refine ⟨hlayout, fun hwait => absurd hallow hwait, h.availMark,
      h.usedOwed.of_step (.inr ⟨.take, ?_⟩), h.availOwed⟩
    have hbell : usedBell { s with queue := { s.queue with driver := s.queue.driver.reaped l.1 last } } =
        { s.usedBell with pending := s.usedBell.pending - 1 } := by
      simp only [usedBell, Bell.mk.injEq, and_true]
      rw [hdone, List.length_cons] at hused
      simp only at hused'
      omega
    rw [hbell]
    exact .take hallow
  | @take idx buffer len vq hbusy hget =>
    obtain ⟨l, posted, hposted, -, -, rfl, hx'⟩ := hx.take hget
    have havail := toNat_avail hx
    have havail' := toNat_avail hx'
    refine ⟨hlayout, h.usedMark, fun hwait => absurd hallow hwait, h.usedOwed,
      h.availOwed.of_step (.inr ⟨.take, ?_⟩)⟩
    have hbell : availBell { s with queue := { s.queue.setDevice
        { s.queue.device with availableIdx := s.queue.availableIdx + 1#16 } with
          held := s.queue.held ++ [idx] } } =
        { s.availBell with pending := s.availBell.pending - 1 } := by
      simp only [availBell, Bell.mk.injEq, and_true]
      rw [hposted, List.length_cons] at havail
      simp only [SplitQueue.setDevice, SplitQueue.device, and_true] at havail' ⊢
      omega
    rw [hbell]
    exact .take hallow
  | @putUsed idx len hbusy hidx =>
    refine ⟨hlayout, h.usedMark, fun hwait => ?_, h.usedOwed, h.availOwed⟩
    have hevent : DriverQueue.availEvent { s.queue.driver with
        used := (s.queue.device.putUsed idx len).vqRing.used } = s.queue.driver.availEvent := by
      refine congrArg (fun e : VringUsedElem => e.id.extractLsb' 0 16) ?_
      refine Function.update_of_ne (ne_of_gt ?_) _ _
      rw [hx.slot_device]
      exact slot_lt hx _
    have hmark := h.availMark hwait
    rw [← hevent] at hmark
    exact hmark
  | showUsed hbusy =>
    have hused := toNat_used hx
    have hused' := toNat_used (hx.showUsed hbusy)
    refine ⟨hlayout, h.usedMark, h.availMark, h.usedOwed.of_step (.inr ⟨.add, ?_⟩), h.availOwed⟩
    have hbell : usedBell { s with queue := { s.queue.setDevice s.queue.device.showUsed with
        deviceBusy := false } } =
        { s.usedBell with pending := s.usedBell.pending + 1, queued := s.usedBell.queued + 1 } := by
      simp only [usedBell, Bell.mk.injEq, and_true]
      refine ⟨?_, toNat_succ_of_ne hcount⟩
      rw [hbusy] at hused
      simp only [Bool.toNat_true, Bool.toNat_false] at hused hused'
      omega
    rw [hbell]
    exact .add hallow

end Queue

/-! ### The marks -/

section Marks

variable {queue : SplitQueue C} {x : Exchange (BitVec 16) (Ask C) (BitVec 32)}

/-- Another available ring with the same entries. -/
theorem layout_setAvail (hx : SplitQueue.Layout k driverIo deviceIo queue x) {avail : VringAvail}
    (hidx : avail.idx = queue.driver.avail.idx)
    (hring : ∀ i < queue.driver.nentries.toNat, avail.ring i = queue.driver.avail.ring i) :
    SplitQueue.Layout k driverIo deviceIo { queue with driver := { queue.driver with avail } } x := by
  obtain ⟨free, chains, ht⟩ := hx.table
  refine { hx with table := ⟨free, chains, ht.congr rfl rfl rfl rfl rfl⟩, avail := ?_ }
  simp only [hidx]
  exact hx.avail.congr (Nat.two_pow_pos k) fun i hi => hring i (by rw [toNat_nentries hx]; exact hi)

/-- Another used ring with the same entries. -/
theorem layout_setUsed (hx : SplitQueue.Layout k driverIo deviceIo queue x) {used : VringUsed}
    (hidx : used.idx = queue.driver.used.idx)
    (hring : ∀ i < queue.driver.nentries.toNat, used.ring i = queue.driver.used.ring i) :
    SplitQueue.Layout k driverIo deviceIo { queue with driver := { queue.driver with used } } x := by
  obtain ⟨free, chains, ht⟩ := hx.table
  refine { hx with table := ⟨free, chains, ht.congr rfl rfl rfl rfl rfl⟩, used := ?_ }
  simp only [hidx]
  exact hx.used.congr (Nat.two_pow_pos k) fun i hi => hring i (by rw [toNat_nentries hx]; exact hi)

theorem layout_enableDriver (hx : SplitQueue.Layout k driverIo deviceIo queue x) (features ndesc) :
    SplitQueue.Layout k driverIo deviceIo
      { queue with driver := queue.driver.enableInterrupt features ndesc } x := by
  apply layout_setAvail hx (DriverQueue.idx_enableInterrupt _ _ _)
  intro i hi
  unfold DriverQueue.enableInterrupt
  split
  · exact Function.update_of_ne (Nat.ne_of_lt hi) _ _
  · rfl

theorem layout_disableDriver (hx : SplitQueue.Layout k driverIo deviceIo queue x) (features) :
    SplitQueue.Layout k driverIo deviceIo { queue with driver := queue.driver.disableCb features } x := by
  apply layout_setAvail hx (DriverQueue.idx_disableCb _ _)
  intro i hi
  unfold DriverQueue.disableCb
  split
  · exact Function.update_of_ne (Nat.ne_of_lt hi) _ _
  · rfl

theorem layout_enableDevice (hx : SplitQueue.Layout k driverIo deviceIo queue x) (features ndesc) :
    SplitQueue.Layout k driverIo deviceIo
      (queue.setDevice (queue.device.enableInterrupt features ndesc)) x := by
  apply layout_setUsed hx (Virtqueue.idx_enableInterrupt _ _ _)
  intro i hi
  unfold Virtqueue.enableInterrupt
  split
  · exact Function.update_of_ne (Nat.ne_of_lt hi) _ _
  · rfl

theorem layout_disableDevice (hx : SplitQueue.Layout k driverIo deviceIo queue x) (features) :
    SplitQueue.Layout k driverIo deviceIo (queue.setDevice (queue.device.disableCb features)) x := by
  apply layout_setUsed hx (Virtqueue.idx_disableCb _ _)
  intro i hi
  unfold Virtqueue.disableCb
  split
  · exact Function.update_of_ne (Nat.ne_of_lt hi) _ _
  · rfl

end Marks

theorem usedMark_enable (s : WakeState C) :
    UsedMark
      { s.setDriver (s.queue.driver.enableInterrupt s.features 0#16) with driverWaiter := .arming } := by
  intro _
  simp only [setDriver, DriverQueue.enableInterrupt]
  split
  · simp [DriverQueue.usedEvent, DriverQueue.setUsedEvent]
  · simp only
    rw [BitVec.and_assoc, show ~~~vringAvailFNoInterrupt &&& vringAvailFNoInterrupt = 0#16 from rfl,
      BitVec.and_zero]

theorem availMark_enable (s : WakeState C) :
    AvailMark
      { s.setDevice (s.queue.device.enableInterrupt s.features 0#16) with deviceWaiter := .arming } := by
  intro _
  simp only [setDevice, Virtqueue.enableInterrupt, SplitQueue.setDevice]
  split
  · simp only [DriverQueue.availEvent, Virtqueue.setAvailEvent, SplitQueue.device, Function.update_self,
      BitVec.add_zero]
    exact BitVec.extractLsb'_append_eq_right
  · simp only
    rw [BitVec.and_assoc, show ~~~vringUsedFNoNotify &&& vringUsedFNoNotify = 0#16 from rfl, BitVec.and_zero]

/-! ### Runs -/

/-- A step that leaves the counters of the used ring. -/
theorem usedBell_congr (hidx : t.queue.driver.used.idx = s.queue.driver.used.idx)
    (hcons : t.queue.driver.usedConsIdx = s.queue.driver.usedConsIdx) : t.usedBell =
      ⟨s.usedBell.pending, t.queue.queuedCnt.toNat, t.driverWaiter, t.deviceLooked, t.driverNotified⟩ := by
  simp only [usedBell, hidx, hcons]

theorem availBell_congr (hidx : t.queue.driver.avail.idx = s.queue.driver.avail.idx)
    (havail : t.queue.availableIdx = s.queue.availableIdx) : t.availBell =
      ⟨s.availBell.pending, t.queue.driver.queuedCnt.toNat, t.deviceWaiter, t.driverLooked,
        t.deviceNotified⟩ := by
  simp only [availBell, hidx, havail]

theorem inv_step {act : WakeAct C} (h : Inv k driverIo deviceIo s) (hst : CountedStep s act t) :
    Inv k driverIo deviceIo t := by
  obtain ⟨x, hx⟩ := h.layout
  obtain ⟨hcount, hst⟩ := hst
  cases hst with
  | queue hallow hst => exact inv_queue h hcount hallow hst
  | enableDriver hrun =>
    refine ⟨⟨x, layout_enableDriver hx _ _⟩, usedMark_enable s, h.availMark, ?_, ?_⟩
    · exact h.usedOwed.of_step (.inr ⟨.arm, .arm hrun⟩)
    · exact h.availOwed.of_step (.inl (availBell_congr (DriverQueue.idx_enableInterrupt _ _ _) rfl))
  | enableDevice hrun =>
    refine ⟨⟨x, layout_enableDevice hx _ _⟩, h.usedMark, availMark_enable s, ?_, ?_⟩
    · exact h.usedOwed.of_step (.inl (usedBell_congr (Virtqueue.idx_enableInterrupt _ _ _) rfl))
    · exact h.availOwed.of_step (.inr ⟨.arm, .arm hrun⟩)
  | checkDriver harm =>
    refine ⟨h.layout, ?_, h.availMark, h.usedOwed.of_step (.inr ⟨.check, ?_⟩), h.availOwed⟩
    · intro _
      exact h.usedMark (by rw [harm]; decide)
    · exact .check harm
  | checkDevice harm =>
    refine ⟨h.layout, h.usedMark, ?_, h.usedOwed, h.availOwed.of_step (.inr ⟨.check, ?_⟩)⟩
    · intro _
      exact h.availMark (by rw [harm]; decide)
    · exact .check harm
  | wakeDriver hne =>
    exact ⟨h.layout, fun hwait => absurd rfl hwait, h.availMark,
      h.usedOwed.of_step (.inr ⟨.wake, .wake hne⟩), h.availOwed⟩
  | wakeDevice hne =>
    exact ⟨h.layout, h.usedMark, fun hwait => absurd rfl hwait, h.usedOwed,
      h.availOwed.of_step (.inr ⟨.wake, .wake hne⟩)⟩
  | disableDriver hne =>
    refine ⟨⟨x, layout_disableDriver hx _⟩, fun hwait => absurd rfl hwait, h.availMark, ?_, ?_⟩
    · exact h.usedOwed.of_step (.inr ⟨.wake, .wake hne⟩)
    · exact h.availOwed.of_step (.inl (availBell_congr (DriverQueue.idx_disableCb _ _) rfl))
  | disableDevice hne =>
    refine ⟨⟨x, layout_disableDevice hx _⟩, h.usedMark, fun hwait => absurd rfl hwait, ?_, ?_⟩
    · exact h.usedOwed.of_step (.inl (usedBell_congr (Virtqueue.idx_disableCb _ _) rfl))
    · exact h.availOwed.of_step (.inr ⟨.wake, .wake hne⟩)
  | lookDriver hlooked =>
    exact ⟨h.layout, h.usedMark, h.availMark, h.usedOwed,
      h.availOwed.of_step (.inr ⟨.look _, .look hlooked h.availMark.must⟩)⟩
  | lookDevice hlooked =>
    exact ⟨h.layout, h.usedMark, h.availMark,
      h.usedOwed.of_step (.inr ⟨.look _, .look hlooked h.usedMark.must⟩), h.availOwed⟩
  | notifyDriver hlooked =>
    obtain ⟨free, chains, ht⟩ := hx.table
    exact ⟨⟨x, { hx with table := ⟨free, chains, ht.congr rfl rfl rfl rfl rfl⟩ }⟩, h.usedMark, h.availMark,
      h.usedOwed, h.availOwed.of_step (.inr ⟨.act, .act hlooked⟩)⟩
  | notifyDevice hlooked =>
    exact ⟨⟨x, { hx with }⟩, h.usedMark, h.availMark,
      h.usedOwed.of_step (.inr ⟨.act, .act hlooked⟩), h.availOwed⟩
  | notifiedDriver hne =>
    exact ⟨h.layout, fun hwait => absurd rfl hwait, h.availMark,
      h.usedOwed.of_step (.inr ⟨.hear, .hear hne⟩), h.availOwed⟩
  | notifiedDevice hne =>
    exact ⟨h.layout, h.usedMark, fun hwait => absurd rfl hwait, h.usedOwed,
      h.availOwed.of_step (.inr ⟨.hear, .hear hne⟩)⟩

theorem Init.inv (h : Init k driverIo deviceIo s) : Inv k driverIo deviceIo s := by
  refine ⟨⟨_, h.queue.layout⟩, fun hwait => absurd h.driverWaiter hwait,
    fun hwait => absurd h.deviceWaiter hwait, fun hasleep => ?_, fun hasleep => ?_⟩
  · rw [show s.usedBell.waiter = .running from h.driverWaiter] at hasleep
    cases hasleep
  · rw [show s.availBell.waiter = .running from h.deviceWaiter] at hasleep
    cases hasleep

/-- A count that has wrapped to 0 suppresses the notification. -/
theorem vringNeedEvent_self (eventIdx newIdx : BitVec 16) :
    vringNeedEvent eventIdx newIdx newIdx = false := by
  rw [vringNeedEvent, BitVec.sub_self]
  exact decide_eq_false BitVec.not_lt_zero

theorem vqRingMustNotify_of_wrapped {features : BitVec 32} {vq : Virtqueue}
    (hfeat : features &&& virtioRingFEventIdx ≠ 0#32) (hcnt : vq.queuedCnt = 0#16) :
    vqRingMustNotify features vq = false := by
  rw [vqRingMustNotify, if_pos hfeat]
  simp only [hcnt, BitVec.sub_zero]
  exact vringNeedEvent_self _ _

/-! ## Two sides that sleep -/

/-- The two sides of the new ring, with `VIRTIO_RING_F_EVENT_IDX`. -/
def start : WakeState Nat where
  queue := SplitQueue.start
  features := virtioRingFEventIdx
  driverWaiter := .running
  deviceWaiter := .running
  driverLooked := none
  deviceLooked := none
  driverNotified := false
  deviceNotified := false

theorem init_start : Init 2 SplitQueue.hostRegion shmRegion start := ⟨SplitQueue.init_start, rfl, rfl⟩

end WakeState

end V85x
