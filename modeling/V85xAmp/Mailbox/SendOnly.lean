import V85xAmp.Mailbox.Handler

/-!
# Send-only endpoints

`hal_msgbox_alloc_channel` takes a negative read channel and then leaves the enable register alone.
`irq_msgbox_channel_handler` and `msgbox_disable_rec_int` do not look: they compute the registers and the
shift from whatever `read_ch` is. The status register of channel -1 is the FIFO status of channel 3.

`Inert`: the accesses are to registers of channels that are listened on, and the shifts are not by negative
amounts. `inert_iff`: this holds in every run of the handler if and only if no endpoint of the list is
send-only, and of `hal_msgbox_free_channel` if and only if the call leaves an endpoint in the list or frees
one that listens.
-/

namespace V85x

open Firmware Mailbox

variable {Ep : Type}

/-- The accesses of `msgbox_disable_rec_int`. -/
def disableEvents (medp : Ep) (s : Mailbox Ep) : List (Ep × RegEvent) :=
  let irqE := recIntReg (s.ep medp)
  [(medp, .read irqE), (medp, .shift (recIntShift (s.ep medp))),
    (medp, .write irqE (s.reg irqE &&& ~~~ recIntBit (s.ep medp)))]

/-- `hal_msgbox_free_channel` with its accesses. -/
def freeChannelEvents [DecidableEq Ep] (edp : Ep) (s : Mailbox Ep) :
    Comp (Mailbox Ep × List (Ep × RegEvent)) := do
  let s ← takeFromList edp s
  let s := s.setNext edp none
  let rev ← revInt s s.itEdp
  pure (if rev then (s, []) else (msgboxDisableRecInt edp s, disableEvents edp s))

/-- The channel is not negative, and its double is an `int`. -/
def Listens (medp : MsgEndpoint Ep) : Prop := 0 ≤ medp.readCh ∧ medp.readCh < 0x40000000

/-- The registers of an endpoint that the handler, `hal_msgbox_alloc_channel` and `hal_msgbox_free_channel`
have to do with. -/
def ownRegs (medp : MsgEndpoint Ep) : List (BitVec 32) :=
  [msgSts medp, msgReg medp, msgIrqS medp, recIntReg medp]

/-- The access is not by a send-only endpoint, is to a register of an endpoint of `es` that listens, and no
shift is by a negative amount. -/
def Inert (s : Mailbox Ep) (es : List Ep) (p : Ep × RegEvent) : Prop :=
  0 ≤ (s.ep p.1).readCh ∧
    match p.2 with
    | .read a | .write a _ => ∃ e ∈ es, 0 ≤ (s.ep e).readCh ∧ a ∈ ownRegs (s.ep e)
    | .shift k => 0 ≤ k

/-- The read channels are of type `int32_t`. -/
def ReadChInt (s : Mailbox Ep) : Prop := ∀ e, (s.ep e).readCh < 0x80000000

variable {s : Mailbox Ep} {l es : List Ep} {e edp : Ep}

theorem recIntShift_nonneg_iff {medp : MsgEndpoint Ep} (hint : medp.readCh < 0x80000000)
    (hread : 0 ≤ medp.readCh) : 0 ≤ recIntShift medp ↔ Listens medp := by
  unfold recIntShift Listens
  rw [BitVec.toInt_ofInt, Int.bmod_def]
  omega

theorem Listens.shift (h : Listens (s.ep e)) : 0 ≤ recIntShift (s.ep e) := by
  obtain ⟨hread, hlt⟩ := h
  exact (recIntShift_nonneg_iff (by omega) hread).mpr ⟨hread, hlt⟩

/-- What the code does for an endpoint concerns its own registers and its own shift. -/
def OwnEvent (medp : MsgEndpoint Ep) : RegEvent → Prop
  | .read a | .write a _ => a ∈ ownRegs medp
  | .shift k => k = recIntShift medp

theorem Listens.inert (h : Listens (s.ep e)) (he : e ∈ es) {ev : RegEvent} (hev : OwnEvent (s.ep e) ev) :
    Inert s es (e, ev) := by
  refine ⟨h.1, ?_⟩
  cases ev with
  | read a => exact ⟨e, he, h.1, hev⟩
  | write a v => exact ⟨e, he, h.1, hev⟩
  | shift k =>
    obtain rfl : k = recIntShift (s.ep e) := hev
    exact h.shift

theorem listens_of_inert_shift (hint : ReadChInt s) (h : Inert s es (e, .shift (recIntShift (s.ep e)))) :
    Listens (s.ep e) :=
  (recIntShift_nonneg_iff (hint e) h.1).mp h.2

/-! ## The handler -/

namespace Handler

variable {receive : Ep → Bool} {h : Handler Ep}

/-- What a step adds is for the endpoint that the handler is at. -/
theorem step_events {h' : Handler Ep} {r : Nat} (hs : Step s receive h r h') :
    ∃ e new, h.pc.at = some e ∧ h'.events = h.events ++ new ∧ ∀ p ∈ new, p.1 = e ∧ OwnEvent (s.ep e) p.2 := by
  rcases step_cases hs with ⟨e, hpc, rfl⟩ | ⟨e, hpc, rfl⟩ | ⟨e, hpc, rfl⟩
  · refine ⟨e, [(e, .read (msgSts (s.ep e)))], by rw [hpc]; rfl, rfl, fun p hp => ?_⟩
    obtain rfl := List.mem_singleton.mp hp
    exact ⟨rfl, by simp [OwnEvent, ownRegs]⟩
  · refine ⟨e, [(e, .read (msgReg (s.ep e)))], by rw [hpc]; rfl, rfl, fun p hp => ?_⟩
    obtain rfl := List.mem_singleton.mp hp
    exact ⟨rfl, by simp [OwnEvent, ownRegs]⟩
  · refine ⟨e, _, by rw [hpc]; rfl, rfl, fun p hp => ?_⟩
    rcases List.mem_cons.mp hp with rfl | hp
    · exact ⟨rfl, rfl⟩
    · obtain rfl := List.mem_singleton.mp hp
      exact ⟨rfl, by simp [OwnEvent, ownRegs]⟩

/-- The handler only takes endpoints of the list, each with its own registers. -/
theorem Runs.inert (hl : s.Linked l) (hlisten : ∀ e ∈ l, Listens (s.ep e)) (hrun : Runs s receive h) :
    ∀ p ∈ h.events, Inert s l p := by
  suffices hinv : (∃ rest, Before s h rest ∧ rest <:+ l) ∧ ∀ p ∈ h.events, Inert s l p from hinv.2
  induction hrun with
  | init h0 =>
    subst h0
    exact ⟨⟨l, start_before hl, List.suffix_refl l⟩, by simp [start]⟩
  | @step h h' r _ hs ih =>
    obtain ⟨⟨rest, hb, hsuff⟩, hev⟩ := ih
    refine ⟨?_, fun p hp => ?_⟩
    · rcases hb.step hs with hb' | ⟨e, post, rfl, hb'⟩
      · exact ⟨rest, hb', hsuff⟩
      · exact ⟨post, hb', (List.suffix_cons e post).trans hsuff⟩
    · obtain ⟨e, new, hat, hevents, hnew⟩ := step_events hs
      have he : e ∈ l := by
        obtain ⟨post, rfl, -⟩ := hb.cons hat
        exact hsuff.subset List.mem_cons_self
      rw [hevents] at hp
      rcases List.mem_append.mp hp with hp | hp
      · exact hev p hp
      · obtain ⟨hself, hown⟩ := hnew p hp
        obtain ⟨f, ev⟩ := p
        obtain rfl : f = e := hself
        exact (hlisten f he).inert he hown

/-- The handler comes to every endpoint of the list, and there computes its shift. -/
theorem Runs.exists_shift (hl : s.Linked l) (he : e ∈ l) (receive : Ep → Bool) :
    ∃ h, Runs s receive h ∧ (e, .shift (recIntShift (s.ep e))) ∈ h.events := by
  obtain ⟨pre, rest, rfl⟩ := List.append_of_mem he
  have hstart : Runs s receive (start s) := .init rfl
  obtain ⟨h, hrun, hpc⟩ := hstart.reaches (start_before hl) (by simp [start])
  have hrun := (hrun.step (step_poll hpc 0)).step (step_ack rfl 0)
  exact ⟨_, hrun, by simp [ack]⟩

end Handler

/-! ## Freeing -/

variable [DecidableEq Ep]

/-- The accesses do not change what the call does. -/
theorem freeChannelEvents_returns {t : Mailbox Ep} :
    (halMsgboxFreeChannel edp s).Returns t ↔ ∃ ev, (freeChannelEvents edp s).Returns (t, ev) := by
  unfold halMsgboxFreeChannel freeChannelEvents
  simp only [Comp.returns_bind, Comp.returns_pure]
  constructor
  · rintro ⟨s₀, htake, rev, hrev, rfl⟩
    refine ⟨if rev then [] else disableEvents edp (s₀.setNext edp none), s₀, htake, rev, hrev, ?_⟩
    cases rev <;> rfl
  · rintro ⟨ev, s₀, htake, rev, hrev, hret⟩
    refine ⟨s₀, htake, rev, hrev, ?_⟩
    cases rev <;> cases hret <;> rfl

/-- The accesses of a call that returns: none while endpoints are left. -/
theorem freeChannelEvents_spec (hl : s.Linked l) (edp : Ep) :
    ∃ s₁ : Mailbox Ep, s₁.ep edp = s.cfg edp ∧
      (l.erase edp = [] → ∃ t, (freeChannelEvents edp s).Returns (t, disableEvents edp s₁)) ∧
      ∀ t ev, (freeChannelEvents edp s).Returns (t, ev) →
        ev = if l.erase edp = [] then disableEvents edp s₁ else [] := by
  obtain ⟨s₀, htake, hl₀, hcfg, -⟩ := takeFromList_spec hl edp
  have hself : (s₀.setNext edp none).ep edp = s.cfg edp := by
    have := congrFun hcfg edp
    simpa [Mailbox.cfg, setNext, setEp] using this
  refine ⟨s₀.setNext edp none, hself, fun hnil => ?_, fun t ev hret => ?_⟩
  · rw [hnil] at hl₀
    exact ⟨_, Comp.returns_bind.mpr ⟨s₀, htake,
      Comp.returns_bind.mpr ⟨false, revInt_nil hl₀, Comp.returns_pure.mpr rfl⟩⟩⟩
  · obtain ⟨s₂, htake', hret⟩ := Comp.returns_bind.mp hret
    obtain rfl := htake.unique htake'
    obtain ⟨rev, hrev, hret⟩ := Comp.returns_bind.mp hret
    have hret := Comp.returns_pure.mp hret
    cases hrest : l.erase edp with
    | nil =>
      rw [hrest] at hl₀
      obtain rfl := (revInt_nil hl₀).unique hrev
      cases hret
      rfl
    | cons a rest =>
      rw [hrest] at hl₀
      have hread : 0 ≤ ((s₀.setNext edp none).ep a).readCh := by
        by_contra hneg
        exact (revInt_diverges hl₀ (by omega)).not_returns rev hrev
      obtain rfl := (revInt_cons hl₀ hread).unique hrev
      cases hret
      rfl

/-- The receive side of a list keeps to the channels that are listened on, in the handler and in
`hal_msgbox_free_channel`, exactly where no send-only endpoint is looked at. -/
theorem inert_iff (hl : s.Linked l) (hint : ReadChInt s) :
    ((∀ receive h, Handler.Runs s receive h → ∀ p ∈ h.events, Inert s l p) ↔ ∀ e ∈ l, Listens (s.ep e)) ∧
      ∀ edp, ((∀ t ev, (freeChannelEvents edp s).Returns (t, ev) → ∀ p ∈ ev, Inert s (edp :: l) p) ↔
        (l.erase edp = [] → Listens (s.ep edp))) := by
  refine ⟨⟨fun hall e he => ?_, fun hlisten receive h hrun => hrun.inert hl hlisten⟩, fun edp => ?_⟩
  · obtain ⟨h, hrun, hshift⟩ := Handler.Runs.exists_shift hl he fun _ => true
    exact listens_of_inert_shift hint (hall _ h hrun _ hshift)
  · obtain ⟨s₁, hself, hnil, hret⟩ := freeChannelEvents_spec hl edp
    have hshift : recIntShift (s₁.ep edp) = recIntShift (s.ep edp) := by
      rw [hself]
      rfl
    have hreg : recIntReg (s₁.ep edp) = recIntReg (s.ep edp) := by
      rw [hself]
      rfl
    constructor
    · intro hall herase
      obtain ⟨t, ht⟩ := hnil herase
      have hinert := hall t _ ht (edp, .shift (recIntShift (s₁.ep edp))) (by simp [disableEvents])
      rw [hshift] at hinert
      exact listens_of_inert_shift hint hinert
    · intro hlisten t ev ht p hp
      obtain ⟨-, rfl⟩ := hret t ev ht
      split at hp
      · next herase =>
        simp only [disableEvents, hreg, hshift, List.mem_cons, List.not_mem_nil, or_false] at hp
        rcases hp with rfl | rfl | rfl <;>
          exact (hlisten herase).inert List.mem_cons_self (by simp [OwnEvent, ownRegs])
      · cases hp

/-- The handler is at fault on this list, and freeing its send-only endpoint is not. -/
theorem inert_sendOnlyFirst :
    (¬ ∀ receive h, Handler.Runs sendOnlyFirst receive h →
      ∀ p ∈ h.events, Inert sendOnlyFirst [false, true] p) ∧
    ∀ t ev, (freeChannelEvents false sendOnlyFirst).Returns (t, ev) →
      ∀ p ∈ ev, Inert sendOnlyFirst [false, false, true] p := by
  have hint : ReadChInt sendOnlyFirst := by
    unfold ReadChInt
    decide
  obtain ⟨hhandler, hfree⟩ := inert_iff sendOnlyFirst_linked hint
  refine ⟨fun hall => ?_, (hfree false).mpr fun herase => absurd herase (by decide)⟩
  exact absurd (hhandler.mp hall false (by decide)).1 (by decide)

/-- A list of one send-only endpoint. The handler reads the FIFO status of channel 3 and writes bit 30 of the
pending register; freeing the endpoint clears bit 30 of the enable register. Both shift by -2. -/
theorem sendOnly_not_inert :
    ∃ s, (halMsgboxAllocChannel (0 : Fin 2) 0 (-1) 0 Tracked.boot.mbox).Returns (0#32, s) ∧ s.Linked [0] ∧
      (∃ h, Handler.Runs s (fun _ => true) h ∧
        h.events = [(0, .read (msgboxFifoStaReg msgboxRiscv 0 3)), (0, .shift (-2)),
          (0, .write (msgboxRdIrqStaReg msgboxRiscv 0) 0x40000000#32)] ∧
        ∀ p ∈ h.events, ¬ Inert s [0] p) ∧
      ∃ t ev, (freeChannelEvents 0 s).Returns (t, ev) ∧ ev.length = 3 ∧ (0, .shift (-2)) ∈ ev ∧
        ∀ p ∈ ev, ¬ Inert s [0, 0] p := by
  have hboot : Tracked.boot.mbox.Linked [] := rfl
  obtain ⟨s, hs, hspec⟩ := alloc_spec hboot 0 0 (-1) 0
  have hl : s.Linked [0] := hspec.linked
  have hself : s.ep 0 = ⟨1, 0, 0, -1, none⟩ := hspec.self
  have hnot : ∀ es p, p.1 = 0 → ¬ Inert s es p := fun es p hp hin => by
    have hread := hin.1
    rw [hp, hself] at hread
    exact absurd hread (by decide)
  refine ⟨s, hs, hl, ?_, ?_⟩
  · have hpc : (Handler.start s).pc = .poll 0 := by
      unfold Handler.start
      rw [hl.1]
      rfl
    have hstart : Handler.Runs s (fun _ => true) (Handler.start s) := .init rfl
    have hrun := (hstart.step (Handler.step_poll hpc 0)).step (Handler.step_ack rfl 0)
    refine ⟨_, hrun, ?_, fun p hp => hnot [0] p ?_⟩
    · simp only [Handler.ack, Handler.poll, Handler.start, hself]
      decide
    · simp only [Handler.ack, Handler.poll, Handler.start, List.nil_append, List.cons_append, List.mem_cons,
        List.not_mem_nil, or_false] at hp
      rcases hp with rfl | rfl | rfl <;> rfl
  · obtain ⟨s₁, hself₁, hnil, -⟩ := freeChannelEvents_spec hl 0
    obtain ⟨t, ht⟩ := hnil rfl
    refine ⟨t, _, ht, rfl, ?_, fun p hp => hnot [0, 0] p ?_⟩
    · rw [disableEvents, hself₁, Mailbox.cfg, hself]
      exact List.mem_cons_of_mem _ List.mem_cons_self
    · simp only [disableEvents, List.mem_cons, List.not_mem_nil, or_false] at hp
      rcases hp with rfl | rfl | rfl <;> rfl

end V85x
