import Mathlib.Logic.Function.Basic
import V85xAmp.Lib.Comp

/-!
# The mailbox driver (`arch/riscv/sun8i-v85x/sunxi_mailbox.c`)

Endpoints are nodes of one singly linked list that starts at `it_edp`. `Ep` is the type of endpoint
pointers other than NULL, and the memory behind them is a function `ep`. Channels and core numbers
are integers; shift amounts count modulo 32, as the RV32 shift instructions take them, so that a
negative channel has a shift too.

The list walks are loops of `Comp`: nothing in the code bounds them.
-/

namespace V85x

open Firmware

/-! ## Register addresses (`sunxi_mailbox.h`) -/

def msgboxArm : Int := 0
def msgboxRiscv : Int := 1
def thisMsgboxUse : Int := msgboxRiscv
def msgboxMaxQueue : Nat := 8

/-- `msgbox_base_get` -/
def msgboxBaseGet (m : Int) : Int :=
  if m = msgboxArm then 0x03003000
  else if m = msgboxRiscv then 0x06020000
  else 0

/-- `MSGBOX_RD_IRQ_EN_REG` -/
def msgboxRdIrqEnReg (m n : Int) : BitVec 32 := BitVec.ofInt 32 (msgboxBaseGet m + 0x20 + n * 0x100)

/-- `MSGBOX_RD_IRQ_STA_REG` -/
def msgboxRdIrqStaReg (m n : Int) : BitVec 32 := BitVec.ofInt 32 (msgboxBaseGet m + 0x24 + n * 0x100)

/-- `MSGBOX_FIFO_STA_REG` -/
def msgboxFifoStaReg (m n p : Int) : BitVec 32 :=
  BitVec.ofInt 32 (msgboxBaseGet m + 0x50 + n * 0x100 + p * 0x4)

/-- `MSGBOX_MSG_STA_REG` -/
def msgboxMsgStaReg (m n p : Int) : BitVec 32 :=
  BitVec.ofInt 32 (msgboxBaseGet m + 0x60 + n * 0x100 + p * 0x4)

/-- `MSGBOX_MSG_REG` -/
def msgboxMsgReg (m n p : Int) : BitVec 32 :=
  BitVec.ofInt 32 (msgboxBaseGet m + 0x70 + n * 0x100 + p * 0x4)

/-- `calculte_n` -/
def calculteN (loc remote : Int) : Int := if remote < loc then remote else remote - 1

/-! ## Endpoints -/

/-- `struct msg_endpoint`, less its callbacks. -/
structure MsgEndpoint (Ep : Type) where
  localAmp : Int
  remoteAmp : Int
  writeCh : Int
  readCh : Int
  next : Option Ep

/-- The endpoint list and the registers of the mailbox. -/
structure Mailbox (Ep : Type) where
  itEdp : Option Ep
  ep : Ep → MsgEndpoint Ep
  reg : BitVec 32 → BitVec 32

namespace Mailbox

variable {Ep : Type}

/-- The links of the list. -/
def next (s : Mailbox Ep) (e : Ep) : Option Ep := (s.ep e).next

variable [DecidableEq Ep]

def setEp (s : Mailbox Ep) (e : Ep) (v : MsgEndpoint Ep) : Mailbox Ep :=
  { s with ep := Function.update s.ep e v }

/-- `e->next = v` -/
def setNext (s : Mailbox Ep) (e : Ep) (v : Option Ep) : Mailbox Ep :=
  s.setEp e { s.ep e with next := v }

end Mailbox

variable {Ep : Type}

/-- `1 << (medp->read_ch * 2)` -/
def recIntBit (medp : MsgEndpoint Ep) : BitVec 32 := 1#32 <<< (medp.readCh * 2 % 32).toNat

/-- The enable register of an endpoint. -/
def recIntReg (medp : MsgEndpoint Ep) : BitVec 32 :=
  msgboxRdIrqEnReg medp.localAmp (calculteN medp.localAmp medp.remoteAmp)

/-- `msgbox_enable_rec_int` -/
def msgboxEnableRecInt (medp : Ep) (s : Mailbox Ep) : Mailbox Ep :=
  let irqE := recIntReg (s.ep medp)
  { s with reg := Function.update s.reg irqE (s.reg irqE ||| recIntBit (s.ep medp)) }

/-- `msgbox_disable_rec_int` -/
def msgboxDisableRecInt (medp : Ep) (s : Mailbox Ep) : Mailbox Ep :=
  let irqE := recIntReg (s.ep medp)
  { s with reg := Function.update s.reg irqE (s.reg irqE &&& ~~~ recIntBit (s.ep medp)) }

/-! ## Allocating and freeing channels -/

variable [DecidableEq Ep]

/-- The walk of `hal_msgbox_alloc_channel` from `t`: link `edp` behind the last endpoint. -/
def linkLast (edp : Ep) (s : Mailbox Ep) (t : Option Ep) : Comp (Mailbox Ep) :=
  Comp.loop (fun
    | none => pure (.inr s)
    | some t =>
      match (s.ep t).next with
      | none => pure (.inr (s.setNext t (some edp)))
      | some u => pure (.inl (some u))) t

/-- "Add to global list" of `hal_msgbox_alloc_channel`. -/
def addToList (edp : Ep) (s : Mailbox Ep) : Comp (Mailbox Ep) :=
  match s.itEdp with
  | none => pure { s with itEdp := some edp }
  | some t => linkLast edp s (some t)

/-- `hal_msgbox_alloc_channel`. The endpoint's own `next` is cleared after the endpoint is linked. -/
def halMsgboxAllocChannel (edp : Ep) (remote read write : Int) (s : Mailbox Ep) :
    Comp (BitVec 32 × Mailbox Ep) := do
  let s ← addToList edp (s.setEp edp
    { s.ep edp with localAmp := thisMsgboxUse, remoteAmp := remote, readCh := read, writeCh := write })
  let s := s.setNext edp none
  pure (0#32, if 0 ≤ read then msgboxEnableRecInt edp s else s)

/-- The walk of `hal_msgbox_free_channel` from `t`: take `edp` out behind its predecessor. -/
def unlinkAfter (edp : Ep) (s : Mailbox Ep) (t : Option Ep) : Comp (Mailbox Ep) :=
  Comp.loop (fun
    | none => pure (.inr s)
    | some t =>
      if (s.ep t).next = some edp then pure (.inr (s.setNext t (s.ep edp).next))
      else pure (.inl (s.ep t).next)) t

/-- The list part of `hal_msgbox_free_channel`. -/
def takeFromList (edp : Ep) (s : Mailbox Ep) : Comp (Mailbox Ep) :=
  if s.itEdp = some edp then pure { s with itEdp := (s.ep edp).next }
  else unlinkAfter edp s s.itEdp

/-- `rev_int` of `hal_msgbox_free_channel`: the loop looks at `t` and does not advance it. -/
def revInt (s : Mailbox Ep) (t : Option Ep) : Comp Bool :=
  Comp.loop (fun
    | none => pure (.inr false)
    | some t => if 0 ≤ (s.ep t).readCh then pure (.inr true) else pure (.inl (some t))) t

/-- `hal_msgbox_free_channel` -/
def halMsgboxFreeChannel (edp : Ep) (s : Mailbox Ep) : Comp (Mailbox Ep) := do
  let s ← takeFromList edp s
  let s := s.setNext edp none
  let rev ← revInt s s.itEdp
  pure (if rev then s else msgboxDisableRecInt edp s)

/-! ## Sending -/

/-- The loop of `hal_msgbox_channel_send` from byte `i` of `len` on: the words that it passes to
`msgbox_channel_send_data`. -/
def sendWords (len i : Nat) (data : BitVec 32) : List (BitVec 8) → List (BitVec 32)
  | [] => []
  | b :: bf =>
    let data := if i % 4 = 0 then 0#32 else data
    let data := data ||| b.setWidth 32 <<< ((i % 4) <<< 3)
    if i % 4 = 3 ∨ i = len - 1 then data :: sendWords len (i + 1) data bf
    else sendWords len (i + 1) data bf

/-- `hal_msgbox_channel_send`: the words that it passes to `msgbox_channel_send_data`, in order. -/
def halMsgboxChannelSend (bf : List (BitVec 8)) : List (BitVec 32) := sendWords bf.length 0 0#32 bf

/-- The bytes of a `uint32_t` in memory. -/
def bytesOf (w : BitVec 32) : List (BitVec 8) := (List.range 4).map fun i => (w >>> (8 * i)).setWidth 8

end V85x
