import V85xAmp.Rpmsg.TransmitSteps

/-!
# Runs of the transmit path

The invariant of the runs without races (`Inv`), and what it says about the descriptors taken and the
messages sent. That an acquire of the interrupt returns needs no invariant: the compare-exchange leaves the
value that it found in `expected`, so the second attempt succeeds whoever holds the mutex. That is also why
the mutex excludes nobody, and `raced` is a run where both calls take the same buffer.
-/

namespace V85x

open Firmware

namespace TxState

variable {k : Nat} {s t : TxState} {g : TxGhost} {hm hi : Hold} {act : TxAct}

/-! ## The mutex -/

theorem acquireStep_of_ne {d : TxDevice} {unlocked : Nat} (h : d.lock ≠ unlocked) (done : TxPc)
    (again : Nat → TxPc) : d.acquireStep unlocked false done again = (d, again d.lock) := by
  unfold TxDevice.acquireStep atomicCompareExchangeWeak
  rw [if_neg fun he => h he.1]
  rfl

theorem acquireStep_of_eq {d : TxDevice} {unlocked : Nat} (h : d.lock = unlocked) (done : TxPc)
    (again : Nat → TxPc) : (d.acquireStep unlocked false done again).2 = done := by
  unfold TxDevice.acquireStep atomicCompareExchangeWeak
  rw [if_pos ⟨h, rfl⟩]
  rfl

/-- Two attempts that do not fail spuriously: the second one finds what the first one left in `expected`. -/
theorem acquire_twice {call : TxCall} (done : TxPc) (again : Nat → TxPc) (hdone : ¬ done.InAcquire)
    (hagain : ∀ (d : TxDevice) (u : Nat), d.access call false (again u) = d.acquireStep u false done again)
    {unlocked : Nat} (hisr : s.isr = ⟨call, again unlocked⟩) :
    ¬ (s.isrStep false).isr.pc.InAcquire ∨ ¬ ((s.isrStep false).isrStep false).isr.pc.InAcquire := by
  obtain ⟨d, main, isr⟩ := s
  obtain rfl := hisr
  by_cases hl : d.lock = unlocked
  · left
    simp only [isrStep, hagain, acquireStep_of_eq hl, TxCtx.goto]
    exact hdone
  · right
    simp only [isrStep, hagain, acquireStep_of_ne hl, acquireStep_of_eq rfl, TxCtx.goto]
    exact hdone

/-- No mutex keeps the interrupt out. -/
theorem acquire_returns (s : TxState) : s.AcquireReturns := by
  obtain ⟨d, main, call, pc⟩ := s
  intro hin
  cases pc with
  | acquireGet ticks unlocked =>
    exact acquire_twice (.loadAvailable ticks) (.acquireGet ticks) id (fun _ _ => rfl) rfl
  | acquireSend len idx unlocked =>
    exact acquire_twice (.loadBuffLen len idx) (.acquireSend len idx) id (fun _ _ => rfl) rfl
  | _ => exact hin.elim

/-! ## The invariant -/

/-- What the interrupt has read is still so: main code stands still. -/
def IsrCurrent (s : TxState) : Prop :=
  match s.isr.pc with
  | .test _ available => available = s.device.vq.availableIdx
  | .reloadAvailable _ _ => s.device.vq.availableIdx ≠ s.device.vq.vqRing.avail.idx
  | .storeLen _ _ _ | .reloadUsed _ | .storeUsed _ _ => ¬ s.main.pc.InUsed
  | _ => True

/-- The invariant of the runs without races. -/
structure Inv (k : Nat) (s : TxState) : Prop where
  holds : ∃ g hm hi, TxInv k s.device g s.main s.isr hm hi
  current : s.IsrCurrent

theorem isrCurrent_of_idle (h : s.isr.pc = .idle) : s.IsrCurrent := by
  unfold IsrCurrent
  rw [h]
  trivial

theorem Fresh.inv (h : s.Fresh k) : s.Inv k where
  holds := by
    have hat : ∀ {c : TxCtx}, c.pc = .idle → AtPc s.device ⟨0, [], []⟩ c .nothing := fun hpc => by
      unfold AtPc
      rw [hpc]
    have hout : outstanding s.device ⟨0, [], []⟩ .nothing .nothing = [] := by
      unfold outstanding
      rw [h.posted, List.drop_nil]
      rfl
    refine ⟨⟨0, [], []⟩, .nothing, .nothing, ?_⟩
    exact
      { rings :=
          { le := h.le
            nentries := h.nentries
            shmIo := h.shmIo
            avail := by rw [h.avail, h.posted]; rfl
            available := h.available
            used := h.used
            taken_le := Nat.zero_le _
            reaped_le := by rw [h.reaped]; exact Nat.le_refl _
            room := by rw [h.withDevice]; exact Nat.zero_le _
            wf := by rw [h.posted]; exact nofun
            slots := by rw [h.posted]; exact holdsFrom_nil
            usedRing := holdsFrom_nil
            reapedLog := by rw [h.reaped]; rfl
            filled := by rw [List.drop_nil]; exact nofun
            sentLog := by rw [h.sent]; exact .nil }
        owners := .nil
        takenLog := by rw [h.taken]; exact .nil
        withDevice := by rw [h.withDevice, hout]
        apart := by rw [hout]; exact .nil
        desc := by rw [hout]; exact nofun
        nodup := .nil
        fits := fun hne => absurd h.main hne
        fits' := fun hne => absurd h.isr hne
        atPc := hat h.main
        atPc' := hat h.isr }
  current := isrCurrent_of_idle h.isr

/-! ## Steps -/

/-- A call begins with its first access. -/
theorem isrCurrent_interrupt (hpc : s.isr.pc = .idle) (call : TxCall) :
    IsrCurrent { s with isr := virtUartTransmit s.isr call } := by
  have hidle := isrCurrent_of_idle hpc
  unfold virtUartTransmit
  split
  · exact hidle
  · split
    · exact hidle
    · exact trivial

theorem isrCurrent_isr {spurious : Bool} (h : s.IsrCurrent) (hrace : s.NoRace (.isr spurious)) :
    (s.isrStep spurious).IsrCurrent := by
  have hmain := hrace.2
  obtain ⟨d, main, call, pc⟩ := s
  cases pc with
  | loadAvailable ticks => exact rfl
  | test ticks available =>
    have havail : available = d.vq.availableIdx := h
    by_cases hall : available = d.vq.vqRing.avail.idx
    · simp only [isrStep, TxDevice.access, if_pos hall]
      exact trivial
    · simp only [isrStep, TxDevice.access, if_neg hall]
      exact fun he => hall (havail.trans he)
  | storeId len idx buffLen used => exact hmain trivial
  | storeLen len buffLen used => exact h
  | reloadUsed len => exact h
  | acquireGet ticks unlocked =>
    simp only [isrStep, TxDevice.access, TxDevice.acquireStep]
    split <;> exact trivial
  | acquireSend len idx unlocked =>
    simp only [isrStep, TxDevice.access, TxDevice.acquireStep]
    split <;> exact trivial
  | status =>
    simp only [isrStep, TxDevice.access]
    split <;> exact trivial
  | releaseGet ticks buffer =>
    cases buffer with
    | none =>
      simp only [isrStep, TxDevice.access]
      split <;> exact trivial
    | some b => exact trivial
  | copy hdr len i =>
    simp only [isrStep, TxDevice.access]
    split <;> exact trivial
  | header hdr len idx i =>
    simp only [isrStep, TxDevice.access]
    split <;> exact trivial
  | loadUsed len idx buffLen =>
    simp only [isrStep, TxDevice.access]
    split <;> exact trivial
  | _ => exact trivial

theorem Inv.step (h : s.Inv k) (hrace : s.NoRace act) (hst : TxStep s act t) : t.Inv k := by
  obtain ⟨g, hm, hi, hinv⟩ := h.holds
  have hcur := h.current
  cases hst with
  | post q hq =>
    have hslot : ∀ c ∈ [s.main, s.isr], _ := hrace
    have hnext := hinv.post hq (hslot s.main (by simp)) (hslot s.isr (by simp))
    refine ⟨⟨g, hm, hi, hnext⟩, ?_⟩
    obtain ⟨d, main, call, pc⟩ := s
    cases pc with
    | reloadAvailable ticks _ =>
      have hlt : g.taken < d.posted.length := hinv.taken_lt hcur
      apply hnext.available_ne
      simp only [TxDevice.post, List.length_append]
      exact Nat.lt_add_right _ hlt
    | _ => exact hcur
  | reap hunread => exact ⟨⟨g, hm, hi, hinv.reap hunread⟩, hcur⟩
  | write mem avail desc driverOk hw =>
    refine ⟨⟨g, hm, hi, hinv.write hw driverOk⟩, ?_⟩
    obtain ⟨d, main, call, pc⟩ := s
    cases pc with
    | reloadAvailable ticks _ => exact fun he => hcur (he.trans hw.idx)
    | _ => exact hcur
  | call call hmain hisr =>
    exact ⟨⟨g, hm, hi, hinv.call hmain call⟩, isrCurrent_of_idle hisr⟩
  | interrupt call hisr =>
    exact ⟨⟨g, hm, hi, (hinv.symm.call hisr call).symm⟩, isrCurrent_interrupt hisr call⟩
  | receive hisr => exact ⟨⟨g, hm, hi, hinv.release⟩, isrCurrent_of_idle hisr⟩
  | main spurious hmain hisr =>
    have hidle : ¬ s.isr.pc.InTake s.device.merged ∧ ¬ s.isr.pc.InUsed := by
      rw [hisr]
      exact ⟨id, id⟩
    obtain ⟨g', hm', hnext⟩ := hinv.access hmain hrace (fun _ => hidle.1) (fun _ => hidle.2) spurious
    exact ⟨⟨g', hm', hi, hnext⟩, isrCurrent_of_idle hisr⟩
  | isr spurious hisr =>
    have hreload : s.isr.pc.AtReloadAvailable → s.device.vq.availableIdx ≠ s.device.vq.vqRing.avail.idx := by
      obtain ⟨d, main, call, pc⟩ := s
      cases pc with
      | reloadAvailable ticks _ => exact fun _ => hcur
      | _ => exact False.elim
    have hused : s.isr.pc.InUsed → ¬ s.main.pc.InUsed := by
      have hid := hrace.2
      obtain ⟨d, main, call, pc⟩ := s
      cases pc with
      | storeId len idx buffLen used => exact fun _ => hid trivial
      | storeLen | reloadUsed | storeUsed => exact fun _ => hcur
      | _ => exact False.elim
    obtain ⟨g', hi', hnext⟩ := hinv.symm.access hisr hreload hrace.1 hused spurious
    exact ⟨⟨g', hm, hi', hnext.symm⟩, isrCurrent_isr hcur hrace⟩

/-! ## The logs -/

theorem loaded_sublist (h : Hold) : h.loaded.Sublist h.buffers := by
  cases h with
  | buffer q => exact .refl _
  | nothing | claimed | entry => exact List.nil_sublist _

theorem takenOnce (h : TxInv k s.device g s.main s.isr hm hi) : s.device.TakenOnce := by
  intro idx
  have hsub : (g.entries.map (·.1) ++ hm.loaded ++ hi.loaded).Sublist
      (g.entries.map (·.1) ++ hm.buffers ++ hi.buffers) :=
    ((List.Sublist.refl _).append (loaded_sublist hm)).append (loaded_sublist hi)
  calc s.device.taken.count idx
      = ((g.entries.map (·.1) ++ hm.loaded ++ hi.loaded).map (·.idx)).count idx := h.takenLog.count_eq idx
    _ ≤ ((g.entries.map (·.1) ++ hm.buffers ++ hi.buffers).map (·.idx)).count idx := (hsub.map _).count_le idx
    _ = ((s.device.posted.take g.taken).map (·.idx)).count idx := (h.owners.map _).count_eq idx
    _ ≤ (s.device.posted.map (·.idx)).count idx := ((List.take_sublist _ _).map _).count_le idx

/-- A used entry shows its payload to the host. -/
theorem shows_of_payload (h : TxInv k s.device g s.main s.isr hm hi) {e : Nat} {data : List Byte}
    (he : g.payload e = some data) : s.device.Shows e data := by
  obtain ⟨p, hp, rfl⟩ := Option.map_eq_some_iff.mp he
  rcases Nat.lt_or_ge e s.device.reaped.length with hlt | hge
  · left
    rw [h.rings.reapedLog, List.getElem?_map, List.getElem?_take_of_lt hlt, hp]
    rfl
  · right
    have hlen := (List.getElem?_eq_some_iff.mp hp).1
    have hle := h.rings.reaped_le
    rw [h.unread_eq]
    exact ⟨hge, by omega, (h.hostPayload_eq hge hp).2⟩

theorem noneLost (h : TxInv k s.device g s.main s.isr hm hi) : s.device.NoneLost := by
  refine ⟨g.sent, ?_, h.rings.sentLog.imp fun _ _ he => shows_of_payload h he⟩
  have hnodup := h.nodup
  rw [List.append_assoc] at hnodup
  exact hnodup.sublist (List.sublist_append_left _ _)

theorem Inv.ok (h : s.Inv k) : s.TxOk := by
  obtain ⟨g, hm, hi, hinv⟩ := h.holds
  exact ⟨takenOnce hinv, noneLost hinv, acquire_returns s⟩

end TxState

/-- A step that is no race. -/
def TxState.CalmStep (s : TxState) (act : TxAct) (t : TxState) : Prop := s.NoRace act ∧ TxStep s act t

open TxState in
/-- In every run without races, whatever main code, the interrupt and the host do, no descriptor is taken
twice and no message is lost. -/
theorem tx_ok_of_noRace {k : Nat} {s₀ s : TxState} (h₀ : s₀.Fresh k)
    (h : Reachable CalmStep (· = s₀) s) : s.TxOk := by
  have hinv : s.Inv k :=
    h.invariant (fun s hs => hs ▸ h₀.inv) fun s act t hs hst => hs.step hst.1 hst.2
  exact hinv.ok

namespace TxState

/-- A device with a zeroed ring of two entries, and a program with one load of `vq_available_idx`. -/
def boot : TxState where
  device :=
    { merged := true
      mem := fun _ => 0#8
      vq := ⟨0, 2#16,
        ⟨fun _ => ⟨0#64, 0#32⟩, ⟨0#16, 0#16, fun _ => 0#16⟩, ⟨0#16, 0#16, fun _ => ⟨0#32, 0#32⟩⟩⟩,
        0#16, shmRegion, 0#16⟩
      features := 0#32
      driverOk := true
      lock := metalMutexUnlocked
      kicks := 0
      posted := []
      withDevice := []
      reaped := []
      taken := []
      sent := [] }
  main := ⟨⟨0#32, 0#32, []⟩, .idle⟩
  isr := ⟨⟨0#32, 0#32, []⟩, .idle⟩

theorem boot_fresh : boot.Fresh 1 :=
  ⟨by decide, rfl, rfl, rfl, rfl, rfl, rfl, rfl, rfl, rfl, rfl, rfl, rfl⟩

/-- The first buffer of the shared memory, and the second one. -/
def buffer (idx : BitVec 16) : Posted :=
  ⟨idx, ⟨0x43d80000#64 + 512#64 * idx.setWidth 64, 512#32⟩, fun _ => 0#8⟩

theorem boot_mayPost : boot.device.MayPost (buffer 0#16) :=
  ⟨by decide, by decide, by decide, by decide, nofun, nofun⟩

theorem boot_mayPost_second : (boot.device.post (buffer 0#16)).MayPost (buffer 1#16) := by
  refine ⟨by decide, by decide, by decide, by decide, ?_, fun _ _ _ _ => rfl⟩
  intro p hp
  obtain rfl := List.mem_singleton.mp hp
  refine ⟨by decide, fun x h1 h2 => ?_⟩
  have hend : x < 0x43d80200 := h1.2
  have hbase : 0x43d80200 ≤ x := h2.1
  omega

/-- A call with one byte of data, to the endpoint 0x401. -/
def oneByte (b : Byte) : TxCall := ⟨0x400#32, 0x401#32, [b]⟩

/-- Accesses of the main code, one after the other. -/
def mainRun (n : Nat) (s : TxState) : TxState := (mainStep · false)^[n] s

/-- Accesses of the interrupt, one after the other. -/
def isrRun (n : Nat) (s : TxState) : TxState := (isrStep · false)^[n] s

theorem reachable_mainRun {step : TxState → TxAct → TxState → Prop} {init : TxState → Prop} {s : TxState}
    (h : Reachable step init s) (n : Nat)
    (hs : ∀ j < n, step (mainRun j s) (.main false) ((mainRun j s).mainStep false)) :
    Reachable step init (mainRun n s) :=
  h.iterate (mainStep · false) n fun j hj => ⟨_, hs j hj⟩

theorem reachable_isrRun {step : TxState → TxAct → TxState → Prop} {init : TxState → Prop} {s : TxState}
    (h : Reachable step init s) (n : Nat)
    (hs : ∀ j < n, step (isrRun j s) (.isr false) ((isrRun j s).isrStep false)) :
    Reachable step init (isrRun n s) :=
  h.iterate (isrStep · false) n fun j hj => ⟨_, hs j hj⟩

/-- The devices with one buffer and with two. -/
def oneBuffer : TxState := { boot with device := boot.device.post (buffer 0#16) }

def twoBuffers : TxState := { oneBuffer with device := oneBuffer.device.post (buffer 1#16) }

/-- A call of the main code, and one of the interrupt. -/
def called (s : TxState) : TxState := { s with main := virtUartTransmit s.main (oneByte 1#8) }

def interrupted (s : TxState) : TxState := { s with isr := virtUartTransmit s.isr (oneByte 2#8) }

instance : DecidablePred TxPc.AtReloadAvailable
  | .reloadAvailable _ _ => .isTrue trivial
  | .idle | .status | .acquireGet _ _ | .loadAvailable _ | .test _ _ | .storeAvailable _ _ | .loadRing _ _
  | .loadAddr _ _ | .loadLen _ _ _ | .releaseGet _ _ | .setReserved _ _ _ | .loadHeld _ _ | .storeHeld _ _ _
  | .copy _ _ _ | .loadIndex _ _ | .header _ _ _ _ | .acquireSend _ _ _ | .loadBuffLen _ _ | .loadUsed _ _ _
  | .storeId _ _ _ _ | .storeLen _ _ _ | .reloadUsed _ | .storeUsed _ _ | .loadQueued _ | .storeQueued _ _
  | .kick _ | .clearQueued _ | .releaseSend _ | .assertFailed => .isFalse id

theorem noRace_post {s : TxState} (hmain : s.main.pc = .idle) (hisr : s.isr.pc = .idle) (q : Posted) :
    s.NoRace (.post q) := by
  intro c hc ticks available hpc
  rcases List.mem_pair.mp hc with rfl | rfl
  · rw [hmain] at hpc
    cases hpc
  · rw [hisr] at hpc
    cases hpc

/-- Main code is in the loop that takes a buffer, with the mutex locked. -/
def locked : TxState := mainRun 2 (called twoBuffers)

/-- The interrupt has sent on top of it. -/
def nested : TxState := isrRun 46 (interrupted locked)

/-- Main code is between the load and the store of `vq_available_idx++`. -/
def loaded : TxState := mainRun 5 (called oneBuffer)

/-- The interrupt has sent in between. -/
def raced : TxState := isrRun 46 (interrupted loaded)

theorem not_shows {d : TxDevice} {data : List Byte} (hreaped : d.reaped = [])
    (hne : ∀ e < d.unread, d.hostPayload e ≠ data) (e : Nat) : ¬ d.Shows e data := by
  rintro (hshow | ⟨-, hlt, hshow⟩)
  · rw [hreaped] at hshow
    cases hshow
  · rw [hreaped, List.length_nil, Nat.zero_add] at hlt
    exact hne e hlt hshow

end TxState

open TxState in
set_option maxRecDepth 10000 in
/-- The interrupt sends while main code holds the mutex, and main code goes on. -/
theorem tx_ok_nested : ∃ s : TxState, s.TxOk ∧ s.main.pc = .idle ∧ s.isr.pc = .idle ∧
    s.device.taken = [0#16, 1#16] ∧ s.device.sent = [[2#8], [1#8]] := by
  have hone : Reachable CalmStep (· = boot) oneBuffer :=
    .step (.init rfl) ⟨noRace_post rfl rfl _, .post _ boot_mayPost⟩
  have htwo : Reachable CalmStep (· = boot) twoBuffers :=
    hone.step ⟨noRace_post rfl rfl _, .post _ boot_mayPost_second⟩
  have hcall : CalmStep twoBuffers (.call (oneByte 1#8)) (called twoBuffers) := ⟨trivial, .call _ rfl rfl⟩
  have hmain : ∀ j < 2, (mainRun j (called twoBuffers)).main.pc ≠ .idle ∧
      (mainRun j (called twoBuffers)).isr.pc = .idle ∧
      ¬ (mainRun j (called twoBuffers)).main.pc.AtReloadAvailable := by decide
  have hlocked : Reachable CalmStep (· = boot) locked := reachable_mainRun (htwo.step hcall) 2 fun j hj =>
    ⟨fun hr => absurd hr (hmain j hj).2.2, .main false (hmain j hj).1 (hmain j hj).2.1⟩
  have hinterrupt : CalmStep locked (.interrupt (oneByte 2#8)) (interrupted locked) :=
    ⟨trivial, .interrupt _ rfl⟩
  have hisr : ∀ j < 46, (isrRun j (interrupted locked)).isr.pc ≠ .idle ∧
      (isrRun j (interrupted locked)).main.pc = .loadAvailable rpmsgTicks := by decide
  have hnested : Reachable CalmStep (· = boot) nested := by
    refine reachable_isrRun (hlocked.step hinterrupt) 46 fun j hj => ⟨?_, .isr false (hisr j hj).1⟩
    unfold NoRace
    rw [(hisr j hj).2]
    exact ⟨fun _ => id, fun _ => id⟩
  have hrest : ∀ j < 43, (mainRun j nested).main.pc ≠ .idle ∧ (mainRun j nested).isr.pc = .idle ∧
      (mainRun j nested).NoRace (.main false) := by
    unfold NoRace
    decide
  have hend : Reachable CalmStep (· = boot) (mainRun 43 nested) := reachable_mainRun hnested 43 fun j hj =>
    ⟨(hrest j hj).2.2, .main false (hrest j hj).1 (hrest j hj).2.1⟩
  exact ⟨_, tx_ok_of_noRace boot_fresh hend, by decide, by decide, by decide, by decide⟩

open TxState in
set_option maxRecDepth 10000 in
/-- Main code is between the load and the store of `vq_available_idx++` when the interrupt sends: both take
the only buffer, both return their size, and the host gets the byte of the main code twice. -/
theorem tx_double_take : ∃ s : TxState, boot.Fresh 1 ∧ Reachable TxStep (· = boot) s ∧
    s.device.sent = [[2#8], [1#8]] ∧ ¬ s.device.TakenOnce ∧ ¬ s.device.NoneLost := by
  have hposted : Reachable TxStep (· = boot) oneBuffer := .step (.init rfl) (.post _ boot_mayPost)
  have hcalled : Reachable TxStep (· = boot) (called oneBuffer) := hposted.step (.call _ rfl rfl)
  have hmain : ∀ j < 5, (mainRun j (called oneBuffer)).main.pc ≠ .idle ∧
      (mainRun j (called oneBuffer)).isr.pc = .idle := by decide
  have hloaded : Reachable TxStep (· = boot) loaded := reachable_mainRun hcalled 5 fun j hj =>
    .main false (hmain j hj).1 (hmain j hj).2
  have hinterrupted : Reachable TxStep (· = boot) (interrupted loaded) := hloaded.step (.interrupt _ rfl)
  have hisr : ∀ j < 46, (isrRun j (interrupted loaded)).isr.pc ≠ .idle := by decide
  have hraced : Reachable TxStep (· = boot) raced := reachable_isrRun hinterrupted 46 fun j hj =>
    .isr false (hisr j hj)
  have hrest : ∀ j < 40, (mainRun j raced).main.pc ≠ .idle ∧ (mainRun j raced).isr.pc = .idle := by decide
  have hend : Reachable TxStep (· = boot) (mainRun 40 raced) := reachable_mainRun hraced 40 fun j hj =>
    .main false (hrest j hj).1 (hrest j hj).2
  have hsent : (mainRun 40 raced).device.sent = [[2#8], [1#8]] := by decide
  refine ⟨_, boot_fresh, hend, hsent, fun honce => absurd (honce 0#16) (by decide), ?_⟩
  rintro ⟨entries, -, hshown⟩
  rw [hsent] at hshown
  cases hshown with
  | cons hshow _ => exact not_shows (by decide) (by decide) _ hshow

end V85x
