import V85xAmp.Virtio.SplitRing

/-!
# Runs of a driver and a device on one ring

What holds of the ring in every state that an interleaving of the two sides reaches: each descriptor is free
or part of one request (`table_of_reachable`), and without new requests the two sides come to rest after
finitely many accesses, with every request answered once and every descriptor free again (`drains`).
-/

namespace V85x

open Firmware

namespace SplitQueue

variable {C : Type} {k : Nat} {driverIo deviceIo : IoRegion} {s t : SplitQueue C}
  {x : Exchange (BitVec 16) (Ask C) (BitVec 32)}
  {tr : List (Exchange.Event (BitVec 16) (Ask C) (BitVec 32) (BitVec 32 × BitVec 32) (Option C))}

theorem exists_layout (h : Reachable Step (Init k driverIo deviceIo) s) :
    ∃ x, Layout k driverIo deviceIo s x := by
  obtain ⟨tr, htr⟩ := Shows.of_reachable h SplitAct.event
  obtain ⟨x, -, hx⟩ := shows_exchange htr
  exact ⟨x, hx⟩

theorem Layout.step' {act : SplitAct C} (h : Layout k driverIo deviceIo s x) (hst : Step s act t) :
    ∃ y, Layout k driverIo deviceIo t y := by
  have := h.step hst
  cases hev : act.event with
  | none =>
    rw [hev] at this
    exact ⟨x, this⟩
  | some ev =>
    rw [hev] at this
    obtain ⟨y, -, hy⟩ := this
    exact ⟨y, hy⟩

/-- The free list and the chains of the requests that are out share the table: each descriptor is in one of
them, once. The device holds such requests, and gets others of them. -/
theorem table_of_reachable (h : Reachable Step (Init k driverIo deviceIo) s) :
    ∃ out free chains, Table k s.driver out free chains ∧ (∀ idx ∈ s.held, ∃ ask, (idx, ask) ∈ out) ∧
      ∀ buffer idx len vq, virtqueueGetAvailableBuffer s.device = (some (buffer, idx, len), vq) →
        idx ∉ s.held ∧ ∃ ask, (idx, ask) ∈ out ∧ (buffer, len) = ask.view driverIo deviceIo := by
  obtain ⟨x, hx⟩ := exists_layout h
  obtain ⟨free, chains, ht⟩ := hx.table
  refine ⟨x.outstanding, free, chains, ht, fun idx hidx => ?_, fun buffer idx len vq hget => ?_⟩
  · rw [hx.held] at hidx
    obtain ⟨⟨idx, ask⟩, hmem, rfl⟩ := List.mem_map.mp hidx
    exact ⟨ask, by simp [Exchange.outstanding, hmem]⟩
  · obtain ⟨l, posted, hposted, rfl, hview, -⟩ := hx.take hget
    refine ⟨fun hheld => ?_, l.2, by simp [Exchange.outstanding, hposted], hview⟩
    rw [hx.held] at hheld
    obtain ⟨m, hm, he⟩ := List.mem_map.mp hheld
    have ht' : Table k s.driver (l :: (posted ++ (x.held ++ x.done.map (·.1)))) free chains := by
      simpa [Exchange.outstanding, hposted] using ht
    exact ht'.ne hx.le (m := m) (by simp [hm]) (ht'.loans l List.mem_cons_self).mem
      (ht'.loans m (by simp [hm])).mem he

/-! ## The way to rest -/

/-- An access that is not a new request. -/
def Serve (s : SplitQueue C) (act : SplitAct C) (t : SplitQueue C) : Prop :=
  Step s act t ∧ ∀ ask, act ≠ .fill ask

/-- The accesses that the requests in the rings still need. -/
def work (s : SplitQueue C) : Nat :=
  4 * ((s.driver.avail.idx - s.availableIdx).toNat + s.driverBusy.toNat) + s.driverBusy.toNat +
    3 * s.held.length + ((s.driver.used.idx - s.driver.usedConsIdx).toNat + s.deviceBusy.toNat) +
    s.deviceBusy.toNat

/-- No request is out, and no side is in an addition. -/
structure Idle (s : SplitQueue C) : Prop where
  driverBusy : s.driverBusy = false
  deviceBusy : s.deviceBusy = false
  availableIdx : s.availableIdx = s.driver.avail.idx
  usedConsIdx : s.driver.usedConsIdx = s.driver.used.idx
  held : s.held = []

theorem Layout.work_eq (h : Layout k driverIo deviceIo s x) :
    s.work = 4 * x.posted.length + s.driverBusy.toNat + 3 * x.held.length + x.done.length +
      s.deviceBusy.toNat := by
  have hpow : 2 ^ k ≤ 2 ^ 15 := Nat.pow_le_pow_right (by decide) h.le
  have hle := h.length_le
  simp only [Exchange.outstanding, List.length_append, List.length_map] at hle
  have havail := h.avail.toNat_sub (by rw [List.length_map]; omega)
  have hused := h.used.toNat_sub (by rw [List.length_map]; omega)
  rw [List.length_map] at havail hused
  rw [work, havail, hused, h.held, List.length_map]

theorem Layout.work_lt {act : SplitAct C} (h : Layout k driverIo deviceIo s x) (hst : Serve s act t) :
    t.work < s.work := by
  have hs := h.work_eq
  have ht := h.step hst.1
  obtain ⟨hst, hfill⟩ := hst
  cases hst with
  | fill => exact absurd rfl (hfill _)
  | publish hbusy =>
    rw [Layout.work_eq ht, hs, hbusy]
    simp
  | reap hbusy hret =>
    obtain ⟨y, hstep, hy⟩ := ht
    cases hstep with
    | collect =>
      rw [hy.work_eq, hs]
      simp
  | take hbusy hget =>
    obtain ⟨y, hstep, hy⟩ := ht
    cases hstep with
    | borrow =>
      rw [hy.work_eq, hs]
      simp [setDevice]
      omega
  | putUsed hbusy hidx =>
    obtain ⟨y, hstep, hy⟩ := ht
    cases hstep with
    | giveBack =>
      rw [hy.work_eq, hs, hbusy]
      simp [setDevice]
      omega
  | showUsed hbusy =>
    rw [Layout.work_eq ht, hs, hbusy]
    simp [setDevice]

/-- Nothing is left to do only when nothing is out. -/
theorem Layout.idle (h : Layout k driverIo deviceIo s x) (hstuck : ∀ act t, ¬ Serve s act t) : Idle s := by
  have hdriver : s.driverBusy = false := by
    cases hb : s.driverBusy with
    | false => rfl
    | true => exact absurd ⟨.publish hb, by simp⟩ (hstuck _ _)
  have hdevice : s.deviceBusy = false := by
    cases hb : s.deviceBusy with
    | false => rfl
    | true => exact absurd ⟨.showUsed hb, by simp⟩ (hstuck _ _)
  have havail : s.availableIdx = s.driver.avail.idx := by
    by_contra hne
    obtain ⟨l, posted, -, hget, -⟩ := h.getAvailable hne
    exact hstuck _ _ ⟨.take hdevice hget, by simp⟩
  have hused : s.driver.usedConsIdx = s.driver.used.idx := by
    by_contra hne
    obtain ⟨l, len, done, last, -, hret, -⟩ := h.getBuffer hne
    exact hstuck _ _ ⟨.reap hdriver hret, by simp⟩
  have hheld : s.held = [] := by
    cases hh : s.held with
    | nil => rfl
    | cons idx held =>
      have hmem : idx ∈ s.held := by rw [hh]; exact List.mem_cons_self
      exact absurd ⟨.putUsed hdevice hmem, by simp⟩ (hstuck (.putUsed idx 0#32) _)
  exact ⟨hdriver, hdevice, havail, hused, hheld⟩

theorem Idle.eq_empty (hi : Idle s) (h : Layout k driverIo deviceIo s x) : x = .empty := by
  have hpow : 2 ^ k ≤ 2 ^ 15 := Nat.pow_le_pow_right (by decide) h.le
  have hle := h.length_le
  simp only [Exchange.outstanding, List.length_append, List.length_map] at hle
  have havail := (h.avail.eq_iff (by rw [List.length_map]; omega)).mp hi.availableIdx
  have hused := (h.used.eq_iff (by rw [List.length_map]; omega)).mp hi.usedConsIdx
  have hheld := h.held
  rw [hi.driverBusy] at havail
  rw [hi.deviceBusy] at hused
  rw [hi.held] at hheld
  obtain ⟨posted, held, done⟩ := x
  simp_all [Exchange.empty]

/-- All descriptors are free then. -/
theorem Idle.freeCnt (hi : Idle s) (h : Layout k driverIo deviceIo s x) :
    s.driver.freeCnt = s.driver.nentries := by
  obtain rfl := hi.eq_empty h
  obtain ⟨free, chains, ht⟩ := h.table
  have hlen := ht.part.length_eq
  simp [Exchange.outstanding, Exchange.empty] at hlen
  rw [ht.freeCnt, h.nentries, hlen]

/-- Nothing is left to do then. -/
theorem Idle.not_serve (hi : Idle s) (act : SplitAct C) (t : SplitQueue C) : ¬ Serve s act t := by
  rintro ⟨hst, hfill⟩
  cases hst with
  | fill => exact hfill _ rfl
  | publish hbusy => exact absurd (hi.driverBusy.symm.trans hbusy) (by decide)
  | reap _ hret =>
    rw [virtqueueGetBuffer, if_pos hi.usedConsIdx] at hret
    cases Comp.returns_pure.mp hret
  | take _ hget =>
    have hnone : s.device.availableIdx = s.device.vqRing.avail.idx := hi.availableIdx
    rw [virtqueueGetAvailableBuffer, if_pos hnone] at hget
    cases hget
  | putUsed _ hidx =>
    rw [hi.held] at hidx
    exact absurd hidx List.not_mem_nil
  | showUsed hbusy => exact absurd (hi.deviceBusy.symm.trans hbusy) (by decide)

theorem Layout.serve {act : SplitAct C} (h : ∃ x, Layout k driverIo deviceIo s x) (hst : Serve s act t) :
    (∃ x, Layout k driverIo deviceIo t x) ∧ t.work < s.work := by
  obtain ⟨x, hx⟩ := h
  exact ⟨hx.step' hst.1, hx.work_lt hst⟩

/-- Without new requests every run ends, after at most four accesses for each descriptor and the two that
the sides were about to make, and where it cannot go on all descriptors are free. -/
theorem drains (h : Reachable Step (Init k driverIo deviceIo) s) {acts : List (SplitAct C × SplitQueue C)}
    (hrun : Run Serve s acts) :
    acts.length ≤ 4 * 2 ^ k + 2 ∧ ((∀ act t, ¬ Serve (endOf s acts) act t) →
      Idle (endOf s acts) ∧ (endOf s acts).driver.freeCnt = (endOf s acts).driver.nentries) := by
  obtain ⟨x, hx⟩ := exists_layout h
  constructor
  · have hle := hx.length_le
    simp only [Exchange.outstanding, List.length_append, List.length_map] at hle
    have hwork := hx.work_eq
    have hbusy := Bool.toNat_le s.driverBusy
    have hbusy' := Bool.toNat_le s.deviceBusy
    have := hrun.length_le work (fun _ _ _ => Layout.serve) ⟨x, hx⟩
    omega
  · intro hstuck
    obtain ⟨y, hy⟩ := hrun.endOf (fun _ _ _ hs hst => (Layout.serve hs hst).1) ⟨x, hx⟩
    have hi := hy.idle hstuck
    exact ⟨hi, hi.freeCnt hy⟩

/-- The device gets the requests, and the driver the results, in order; at rest it has got them all, and each
request's cookie once. -/
theorem answered (h : Shows Step SplitAct.event (Init k driverIo deviceIo) tr s) :
    Exchange.borrowed tr <+: (Exchange.lent tr).map (Ask.view driverIo deviceIo) ∧
      (Exchange.collected tr).map (·.2) <+: Exchange.given tr ∧
      (Idle s → Exchange.borrowed tr = (Exchange.lent tr).map (Ask.view driverIo deviceIo) ∧
        (Exchange.collected tr).map (·.2) = Exchange.given tr ∧
        ((Exchange.collected tr).map (·.1)).Perm ((Exchange.lent tr).map token)) := by
  obtain ⟨x, htr, hx⟩ := shows_exchange h
  have hborrowed := Exchange.borrowed_eq htr
  have hcollected := Exchange.collected_eq htr
  refine ⟨⟨_, hborrowed⟩, ⟨_, hcollected⟩, fun hi => ?_⟩
  obtain rfl := hi.eq_empty hx
  have htokens := Exchange.perm_tokens htr
  simp only [Exchange.outstanding, Exchange.empty, List.map_nil,
    List.append_nil] at hborrowed hcollected htokens
  exact ⟨hborrowed, hcollected, htokens⟩

/-! ## Two requests -/

/-- The host's mapping of the shared memory. -/
def hostRegion : IoRegion := ⟨0x40000000#32, 0x43d80000#32, 0x40000#32⟩

def start : SplitQueue Nat where
  driver := virtqueueCreate hostRegion 4#16
  driverBusy := false
  queueIndex := 0
  queuedCnt := 0#16
  deviceIo := shmRegion
  availableIdx := 0#16
  deviceBusy := false
  held := []

theorem init_start : Init 2 hostRegion shmRegion start := ⟨by decide, rfl, rfl, rfl, rfl, rfl, rfl, rfl, rfl⟩

/-- A buffer to read and one to write, with the cookie 7. -/
def ask : Ask Nat := ⟨[⟨0x40000100#32, 64#32⟩, ⟨0x40000200#32, 32#32⟩], 1, 7, by simp⟩

/-- A buffer to write, with the cookie 8. -/
def shortAsk : Ask Nat := ⟨[⟨0x40000300#32, 16#32⟩], 0, 8, by simp⟩

/-- The state after a write of a request. -/
def filled (s : SplitQueue Nat) (ask : Ask Nat) : SplitQueue Nat :=
  { s with driver := s.driver.fill ask.bufs ask.readable ask.cookie, driverBusy := true }

def published (s : SplitQueue Nat) : SplitQueue Nat :=
  { s with driver := s.driver.publish, driverBusy := false }

/-- The driver has written both requests. -/
def asked : SplitQueue Nat := filled (published (filled start ask)) shortAsk

theorem mayAsk_ask : MayAsk start ask := by
  refine ⟨by decide, ?_⟩
  simp [ask, IoRegion.Holds, start, virtqueueCreate, DriverQueue.vqRingInit, hostRegion]

theorem mayAsk_shortAsk {s : SplitQueue Nat} (hio : s.driver.shmIo = hostRegion)
    (hcnt : 0 < s.driver.freeCnt.toNat) : MayAsk s shortAsk := by
  refine ⟨hcnt, fun b hb => ?_⟩
  obtain rfl := List.mem_singleton.mp hb
  rw [hio]
  exact show 0x40000300#32 - 0x40000000#32 < 0x40000#32 by decide

theorem shows_asked : Shows Step SplitAct.event (Init 2 hostRegion shmRegion) [.lend ask, .lend shortAsk]
    asked :=
  (((Shows.init init_start).step (Step.fill rfl mayAsk_ask)).step (Step.publish rfl)).step
    (Step.fill rfl (mayAsk_shortAsk rfl (by decide)))

/-- The requests go to the device and back, the second one first. -/
theorem serve_asked : ∃ acts, Run Serve asked acts ∧ acts.map (·.1) = [.publish,
    .take 0#16 0x43d80100#32 64#32, .take 2#16 0x43d80300#32 16#32, .putUsed 2#16 9#32, .showUsed,
    .putUsed 0#16 5#32, .showUsed, .reap (some 8) 9#32, .reap (some 7) 5#32] ∧
      Idle (endOf asked acts) := by
  refine ⟨[_, _, _, _, _, _, _, _, _], .cons ⟨.publish rfl, by simp⟩ (.cons ⟨.take rfl rfl, by simp⟩
    (.cons ⟨.take rfl rfl, by simp⟩ (.cons ⟨.putUsed rfl (by decide), by simp⟩
    (.cons ⟨.showUsed rfl, by simp⟩ (.cons ⟨.putUsed rfl (by decide), by simp⟩
    (.cons ⟨.showUsed rfl, by simp⟩ (.cons ⟨.reap rfl (Comp.returns_of_run 3 rfl), by simp⟩
    (.cons ⟨.reap rfl (Comp.returns_of_run 3 rfl), by simp⟩ (.nil _))))))))), rfl, ?_⟩
  exact ⟨rfl, rfl, rfl, rfl, rfl⟩

/-- What the two sides see of it. -/
def startEvents :
    List (Exchange.Event (BitVec 16) (Ask Nat) (BitVec 32) (BitVec 32 × BitVec 32) (Option Nat)) :=
  [.lend ask, .lend shortAsk, .borrow 0#16 (0x43d80100#32, 64#32), .borrow 2#16 (0x43d80300#32, 16#32),
    .giveBack 2#16 9#32, .giveBack 0#16 5#32, .collect (some 8) 9#32, .collect (some 7) 5#32]

theorem shows_start : ∃ s, Shows Step SplitAct.event (Init 2 hostRegion shmRegion) startEvents s ∧
    Idle s := by
  obtain ⟨acts, hrun, hacts, hidle⟩ := serve_asked
  have hshows := shows_asked.run hrun (fun _ _ _ hst => hst.1)
  have hobs : acts.filterMap (fun p => p.1.event) = (acts.map (·.1)).filterMap SplitAct.event := by
    rw [List.filterMap_map]
    rfl
  rw [hobs, hacts] at hshows
  exact ⟨_, hshows, hidle⟩

theorem shows_exchange_start : ∃ s x, Traces (Exchange.Step (Ask.view hostRegion shmRegion) token)
    (· = .empty) startEvents x ∧ Layout 2 hostRegion shmRegion s x := by
  obtain ⟨s, h, -⟩ := shows_start
  exact ⟨s, shows_exchange h⟩

/-- The device has taken both requests. -/
theorem reachable_taken : ∃ s : SplitQueue Nat, Reachable Step (Init 2 hostRegion shmRegion) s ∧
    s.held = [0#16, 2#16] := by
  have h1 := shows_asked.reachable.step (Step.publish rfl)
  have h2 := h1.step (Step.take rfl rfl)
  exact ⟨_, h2.step (Step.take rfl rfl), rfl⟩

theorem table_of_reachable_asked : ∃ vq : DriverQueue Nat, ∃ out free chains, Table 2 vq out free chains ∧
    (∃ ask, (0#16, ask) ∈ out) ∧ ∃ ask, (2#16, ask) ∈ out := by
  obtain ⟨s, h, hheld⟩ := reachable_taken
  obtain ⟨out, free, chains, ht, hout, -⟩ := table_of_reachable h
  exact ⟨s.driver, out, free, chains, ht, hout _ (by rw [hheld]; simp), hout _ (by rw [hheld]; simp)⟩

theorem drains_asked : ∃ acts, Run Serve asked acts ∧ acts.length = 9 ∧ acts.length ≤ 4 * 2 ^ 2 + 2 ∧
    (∀ act t, ¬ Serve (endOf asked acts) act t) ∧ Idle (endOf asked acts) ∧
      (endOf asked acts).driver.freeCnt = (endOf asked acts).driver.nentries := by
  obtain ⟨acts, hrun, hacts, hidle⟩ := serve_asked
  have hlen := congrArg List.length hacts
  rw [List.length_map] at hlen
  obtain ⟨hle, hrest⟩ := drains shows_asked.reachable hrun
  exact ⟨acts, hrun, hlen, hle, hidle.not_serve, hrest hidle.not_serve⟩

theorem answered_start : ∃ s, Shows Step SplitAct.event (Init 2 hostRegion shmRegion) startEvents s ∧
    [9#32, 5#32] = Exchange.given startEvents ∧ [some 8, some 7].Perm ([ask, shortAsk].map token) := by
  obtain ⟨s, h, hidle⟩ := shows_start
  have hrest := (answered h).2.2 hidle
  exact ⟨s, h, hrest.2.1, hrest.2.2⟩

end SplitQueue

end V85x
