import V85xAmp.Mailbox.EndpointList

/-!
# The mailbox interrupt handler (`arch/riscv/sun8i-v85x/sunxi_mailbox.c`)

`irq_msgbox_handler` takes the endpoints of the list in order. For each of them
`irq_msgbox_channel_handler` reads a message while the status register is not 0, and then writes the bit of
the channel to the pending register.

One step of `Handler` is one access to a register and what follows it, so that the other core can run in
between. What the hardware answers to a read is an argument of the step. The callbacks do not change the
endpoint list.
-/

namespace V85x

open Firmware Mailbox

variable {Ep : Type}

/-! ## The registers of an endpoint -/

/-- `msg_sts` of `irq_msgbox_channel_handler` -/
def msgSts (medp : MsgEndpoint Ep) : BitVec 32 :=
  msgboxMsgStaReg medp.localAmp (calculteN medp.localAmp medp.remoteAmp) medp.readCh

/-- `msg_reg` of `irq_msgbox_channel_handler` -/
def msgReg (medp : MsgEndpoint Ep) : BitVec 32 :=
  msgboxMsgReg medp.localAmp (calculteN medp.localAmp medp.remoteAmp) medp.readCh

/-- `msg_irq_s` of `irq_msgbox_channel_handler` -/
def msgIrqS (medp : MsgEndpoint Ep) : BitVec 32 :=
  msgboxRdIrqStaReg medp.localAmp (calculteN medp.localAmp medp.remoteAmp)

/-- `medp->read_ch * 2` as an `int` -/
def recIntShift (medp : MsgEndpoint Ep) : Int := (BitVec.ofInt 32 (medp.readCh * 2)).toInt

/-! ## The handler -/

/-- What the code does to the registers, and the shift amounts that it computes on the way. -/
inductive RegEvent
  | read (reg : BitVec 32)
  | write (reg value : BitVec 32)
  | shift (amount : Int)
deriving Repr, DecidableEq

/-- The next access: the status of an endpoint, a message of it, or its pending bit. -/
inductive HandlerPc (Ep : Type)
  | poll (medp : Ep)
  | message (medp : Ep)
  | ack (medp : Ep)
  | done
deriving Repr, DecidableEq

/-- Where the handler stands, the calls of `receive` so far, and the accesses with their endpoints. -/
structure Handler (Ep : Type) where
  pc : HandlerPc Ep
  calls : List (Ep × BitVec 32)
  events : List (Ep × RegEvent)
deriving Repr, DecidableEq

/-- The test of the loop of `irq_msgbox_handler`. -/
def HandlerPc.enter : Option Ep → HandlerPc Ep
  | some t => .poll t
  | none => .done

/-- The endpoint `t` of the loop of `irq_msgbox_handler`. -/
def HandlerPc.at : HandlerPc Ep → Option Ep
  | .poll t | .message t | .ack t => some t
  | .done => none

@[simp] theorem HandlerPc.at_enter (p : Option Ep) : (HandlerPc.enter p).at = p := by
  cases p with
  | none => rfl
  | some t => rfl

theorem HandlerPc.enter_ne_message (p : Option Ep) (e : Ep) : HandlerPc.enter p ≠ .message e := by
  cases p with
  | none => nofun
  | some t => nofun

namespace Handler

variable (m : Mailbox Ep) (receive : Ep → Bool)

def start : Handler Ep := ⟨.enter m.itEdp, [], []⟩

/-- `while (read32(msg_sts))`, when the read answers `r` -/
def poll (medp : Ep) (r : Nat) (h : Handler Ep) : Handler Ep where
  pc := if r = 0 then .ack medp else .message medp
  calls := h.calls
  events := h.events ++ [(medp, .read (msgSts (m.ep medp)))]

/-- The body of the loop. `receive medp`: the endpoint has a callback. -/
def message (medp : Ep) (r : Nat) (h : Handler Ep) : Handler Ep where
  pc := .poll medp
  calls := if receive medp then h.calls ++ [(medp, BitVec.ofNat 32 r)] else h.calls
  events := h.events ++ [(medp, .read (msgReg (m.ep medp)))]

/-- `write32(msg_irq_s, 1 << (medp->read_ch * 2))`, and on to the next endpoint -/
def ack (medp : Ep) (h : Handler Ep) : Handler Ep where
  pc := .enter (m.ep medp).next
  calls := h.calls
  events := h.events ++
    [(medp, .shift (recIntShift (m.ep medp))), (medp, .write (msgIrqS (m.ep medp)) (recIntBit (m.ep medp)))]

/-- The step with the answer `r`. -/
def exec (h : Handler Ep) (r : Nat) : Option (Handler Ep) :=
  match h.pc with
  | .poll medp => some (h.poll m medp r)
  | .message medp => some (h.message m receive medp r)
  | .ack medp => some (h.ack m medp)
  | .done => none

/-- The register that the next step reads. -/
def reads (h : Handler Ep) : Option (BitVec 32) :=
  match h.pc with
  | .poll medp => some (msgSts (m.ep medp))
  | .message medp => some (msgReg (m.ep medp))
  | .ack _ | .done => none

def Step (h : Handler Ep) (r : Nat) (h' : Handler Ep) : Prop := h.exec m receive r = some h'

/-- A run of the handler on any hardware. -/
abbrev Runs : Handler Ep → Prop := Reachable (Step m receive) (· = start m)

variable {m receive} {h h' : Handler Ep} {r : Nat} {e : Ep} {l rest : List Ep}

theorem step_cases (hs : Step m receive h r h') :
    (∃ e, h.pc = .poll e ∧ h' = h.poll m e r) ∨
      (∃ e, h.pc = .message e ∧ h' = h.message m receive e r) ∨
      (∃ e, h.pc = .ack e ∧ h' = h.ack m e) := by
  unfold Step exec at hs
  split at hs
  · next e hpc => exact .inl ⟨e, hpc, (Option.some.inj hs).symm⟩
  · next e hpc => exact .inr (.inl ⟨e, hpc, (Option.some.inj hs).symm⟩)
  · next e hpc => exact .inr (.inr ⟨e, hpc, (Option.some.inj hs).symm⟩)
  · cases hs

theorem step_poll (hpc : h.pc = .poll e) (r : Nat) : Step m receive h r (h.poll m e r) := by
  unfold Step exec
  rw [hpc]

theorem step_message (hpc : h.pc = .message e) (r : Nat) :
    Step m receive h r (h.message m receive e r) := by
  unfold Step exec
  rw [hpc]

theorem step_ack (hpc : h.pc = .ack e) (r : Nat) : Step m receive h r (h.ack m e) := by
  unfold Step exec
  rw [hpc]

/-- The handler never stops before the end of the list. -/
theorem exists_step (hpc : h.pc ≠ .done) (r : Nat) : ∃ h', Step m receive h r h' := by
  cases hp : h.pc with
  | poll e => exact ⟨_, step_poll hp r⟩
  | message e => exact ⟨_, step_message hp r⟩
  | ack e => exact ⟨_, step_ack hp r⟩
  | done => exact absurd hp hpc

/-! ## The place in the list -/

/-- The handler has the endpoints `rest` before it, its own one first. -/
def Before (m : Mailbox Ep) (h : Handler Ep) (rest : List Ep) : Prop := Chain m.next h.pc.at rest

theorem start_before (hl : m.Linked l) : Before m (start m) l := by
  unfold Before
  rw [start, HandlerPc.at_enter]
  exact hl

theorem Before.cons (hb : Before m h rest) (he : h.pc.at = some e) :
    ∃ post, rest = e :: post ∧ Chain m.next (m.next e) post := by
  unfold Before at hb
  rw [he] at hb
  cases rest with
  | nil => cases hb
  | cons a post =>
    obtain ⟨ha, hpost⟩ := hb
    obtain rfl := Option.some.inj ha
    exact ⟨post, rfl, hpost⟩

theorem Before.stay (hb : Before m h rest) (hat : h'.pc.at = h.pc.at) : Before m h' rest := by
  unfold Before at hb ⊢
  rwa [hat]

/-- Behind the write of `e`, the handler has the endpoints behind `e` before it. -/
theorem before_ack (hpost : Chain m.next (m.next e) rest) : Before m (h.ack m e) rest := by
  unfold Before ack
  rw [HandlerPc.at_enter]
  exact hpost

theorem poll_at (r : Nat) : (h.poll m e r).pc.at = some e := by
  unfold poll
  split <;> rfl

/-- A step stays at its endpoint or goes on to the next one. -/
theorem Before.step (hb : Before m h rest) (hs : Step m receive h r h') :
    Before m h' rest ∨ ∃ e post, rest = e :: post ∧ Before m h' post := by
  rcases step_cases hs with ⟨e, hpc, rfl⟩ | ⟨e, hpc, rfl⟩ | ⟨e, hpc, rfl⟩
  · exact .inl (hb.stay (by rw [poll_at, hpc]; rfl))
  · exact .inl (hb.stay (by rw [hpc]; rfl))
  · obtain ⟨post, rfl, hpost⟩ := hb.cons (e := e) (by rw [hpc]; rfl)
    exact .inr ⟨e, post, rfl, before_ack hpost⟩

/-- The handler reaches every endpoint of the list: here when all status reads answer 0. -/
theorem Runs.reaches {pre : List Ep} (hrun : Runs m receive h) (hb : Before m h (pre ++ e :: rest))
    (hpc : h.pc = .enter h.pc.at) : ∃ h', Runs m receive h' ∧ h'.pc = .poll e := by
  induction pre generalizing h with
  | nil =>
    have hat : h.pc.at = some e := hb.1
    exact ⟨h, hrun, by rw [hpc, hat]; rfl⟩
  | cons a pre ih =>
    obtain ⟨hat, hpost⟩ := hb
    rw [hat] at hpc
    have hrun1 := hrun.step (step_poll hpc 0)
    have hrun2 := hrun1.step (step_ack rfl 0)
    exact ih hrun2 (before_ack hpost) (by simp [ack])

end Handler

end V85x
