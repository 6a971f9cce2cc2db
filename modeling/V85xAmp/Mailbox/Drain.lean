import V85xAmp.Mailbox.Handler

/-!
# Draining the receive FIFOs

The hardware has a FIFO for each receive channel: its status register reports the fill, and a read of its
message register takes the first word. `Drain` is the handler together with the FIFOs. The other core
appends words at any time; `came` records what each FIFO held at the start and what came since.

`irqMsgboxHandler_drains` is for lists whose endpoints have different message registers (`OwnRegisters`). The
addresses count modulo 2^32, so two remotes that differ by a multiple of 2^24 have the same registers.
-/

namespace V85x

open Firmware Mailbox

/-! ## The hardware -/

/-- The words in each receive FIFO, by the address of its message register. -/
abbrev Fifos := BitVec 32 → List (BitVec 32)

/-- The registers of one remote come in rows of 16 bytes: row 6 has the status registers of the four channels
and row 7 the message registers. -/
def regRow (a : BitVec 32) : Nat := a.toNat % 0x100 / 0x10

/-- `read32`: the answer, and the FIFOs after it. -/
def busRead (fifo : Fifos) (a : BitVec 32) : Nat × Fifos :=
  if regRow a = 6 then ((fifo (a + 0x10#32)).length, fifo)
  else if regRow a = 7 then
    match fifo a with
    | w :: ws => (w.toNat, Function.update fifo a ws)
    | [] => (0, fifo)
  else (0, fifo)

/-- A word comes in behind the others. -/
def appendWord (fifo : Fifos) (a : BitVec 32) (w : BitVec 32) : Fifos :=
  Function.update fifo a (fifo a ++ [w])

/-! ## The handler on this hardware -/

variable {Ep : Type}

structure Drain (Ep : Type) where
  handler : Handler Ep
  fifo : Fifos
  came : Fifos

/-- `tick`: the handler's next access. `arrive`: the other core appends a word. -/
inductive DrainAct
  | tick
  | arrive (a w : BitVec 32)
deriving Repr, DecidableEq

def DrainAct.isTick : DrainAct → Bool
  | .tick => true
  | .arrive _ _ => false

/-- The words that `receive` got for an endpoint, in order. -/
def Handler.words [DecidableEq Ep] (h : Handler Ep) (e : Ep) : List (BitVec 32) :=
  (h.calls.filter (·.1 = e)).map (·.2)

/-- The writes of the handler, in order. -/
def Handler.writes (h : Handler Ep) : List (BitVec 32 × BitVec 32) :=
  h.events.filterMap fun p =>
    match p.2 with
    | .write a v => some (a, v)
    | .read _ | .shift _ => none

namespace Drain

variable (m : Mailbox Ep) (receive : Ep → Bool)

def start (fifo : Fifos) : Drain Ep := ⟨.start m, fifo, fifo⟩

/-- The answer to the handler's next access, if it is a read. -/
def bus (x : Drain Ep) : Nat × Fifos :=
  match x.handler.reads m with
  | some a => busRead x.fifo a
  | none => (0, x.fifo)

def exec (x : Drain Ep) : DrainAct → Option (Drain Ep)
  | .tick => (x.handler.exec m receive (x.bus m).1).map fun h => ⟨h, (x.bus m).2, x.came⟩
  | .arrive a w => some ⟨x.handler, appendWord x.fifo a w, appendWord x.came a w⟩

def Step (x : Drain Ep) (act : DrainAct) (y : Drain Ep) : Prop := x.exec m receive act = some y

/-- The FIFO of an endpoint. -/
def fifoOf (x : Drain Ep) (e : Ep) : List (BitVec 32) := x.fifo (msgReg (m.ep e))

/-- What an endpoint's FIFO held at the start, and what came since. -/
def cameOf (x : Drain Ep) (e : Ep) : List (BitVec 32) := x.came (msgReg (m.ep e))

end Drain

/-! ## Registers -/

/-- The endpoints of the list are on the RISC-V core, on channels 0 to 3, and no two of them have one
register block and one channel. -/
structure OwnRegisters (m : Mailbox Ep) (l : List Ep) : Prop where
  linked : m.Linked l
  core : ∀ e ∈ l, (m.ep e).localAmp = msgboxRiscv
  channel : ∀ e ∈ l, 0 ≤ (m.ep e).readCh ∧ (m.ep e).readCh ≤ 3
  apart : ∀ e ∈ l, ∀ f ∈ l, e ≠ f →
    ¬ (calculteN msgboxRiscv (m.ep e).remoteAmp % 0x1000000 =
        calculteN msgboxRiscv (m.ep f).remoteAmp % 0x1000000 ∧ (m.ep e).readCh = (m.ep f).readCh)

/-- Remotes up to 2^24 have different register blocks. -/
theorem OwnRegisters.of_remote {m : Mailbox Ep} {l : List Ep} (hl : m.Linked l)
    (hcore : ∀ e ∈ l, (m.ep e).localAmp = msgboxRiscv)
    (hremote : ∀ e ∈ l, 0 ≤ (m.ep e).remoteAmp ∧ (m.ep e).remoteAmp ≠ (m.ep e).localAmp ∧
      (m.ep e).remoteAmp ≤ 0x1000000)
    (hchannel : ∀ e ∈ l, 0 ≤ (m.ep e).readCh ∧ (m.ep e).readCh ≤ 3)
    (hne : ∀ e ∈ l, ∀ f ∈ l, e ≠ f →
      ((m.ep e).remoteAmp, (m.ep e).readCh) ≠ ((m.ep f).remoteAmp, (m.ep f).readCh)) :
    OwnRegisters m l := by
  refine ⟨hl, hcore, hchannel, fun e he f hf hef ⟨hblock, hch⟩ => ?_⟩
  obtain ⟨he0, heloc, hemax⟩ := hremote e he
  obtain ⟨hf0, hfloc, hfmax⟩ := hremote f hf
  rw [hcore e he, msgboxRiscv] at heloc
  rw [hcore f hf, msgboxRiscv] at hfloc
  refine hne e he f hf hef (Prod.ext ?_ hch)
  simp only [calculteN, msgboxRiscv] at hblock
  omega

variable {m : Mailbox Ep} {l : List Ep} {e f : Ep}

theorem OwnRegisters.regs (hm : OwnRegisters m l) (he : e ∈ l) :
    regRow (msgSts (m.ep e)) = 6 ∧ regRow (msgReg (m.ep e)) = 7 ∧
      msgSts (m.ep e) + 0x10#32 = msgReg (m.ep e) := by
  have hcore := hm.core e he
  obtain ⟨h0, h3⟩ := hm.channel e he
  unfold msgSts msgReg msgboxMsgStaReg msgboxMsgReg regRow
  rw [hcore]
  generalize calculteN msgboxRiscv (m.ep e).remoteAmp = n
  have hbase : msgboxBaseGet msgboxRiscv = 0x06020000 := rfl
  rw [hbase]
  refine ⟨?_, ?_, ?_⟩
  · rw [BitVec.toNat_ofInt]
    omega
  · rw [BitVec.toNat_ofInt]
    omega
  · apply BitVec.eq_of_toNat_eq
    rw [BitVec.toNat_add, BitVec.toNat_ofInt, BitVec.toNat_ofInt, BitVec.toNat_ofNat]
    omega

theorem OwnRegisters.msgReg_inj (hm : OwnRegisters m l) (he : e ∈ l) (hf : f ∈ l)
    (hreg : msgReg (m.ep e) = msgReg (m.ep f)) : e = f := by
  by_contra hef
  apply hm.apart e he f hf hef
  obtain ⟨he0, he3⟩ := hm.channel e he
  obtain ⟨hf0, hf3⟩ := hm.channel f hf
  have hnat := congrArg BitVec.toNat hreg
  unfold msgReg msgboxMsgReg at hnat
  rw [hm.core e he, hm.core f hf, BitVec.toNat_ofInt, BitVec.toNat_ofInt,
    show msgboxBaseGet msgboxRiscv = 0x06020000 from rfl] at hnat
  omega

/-! ## Steps -/

namespace Handler

variable {receive : Ep → Bool} {h : Handler Ep} {r : Nat}

@[simp] theorem writes_poll : (h.poll m e r).writes = h.writes := by
  simp [writes, poll]

@[simp] theorem writes_message : (h.message m receive e r).writes = h.writes := by
  simp [writes, message]

@[simp] theorem writes_ack :
    (h.ack m e).writes = h.writes ++ [(msgIrqS (m.ep e), recIntBit (m.ep e))] := by
  simp [writes, ack]

variable [DecidableEq Ep]

@[simp] theorem words_poll : (h.poll m e r).words f = h.words f := rfl

@[simp] theorem words_ack : (h.ack m e).words f = h.words f := rfl

/-- The callback of one endpoint gets the word that was read. -/
theorem words_message (w : BitVec 32) :
    (h.message m receive e w.toNat).words f =
      if e = f ∧ receive e = true then h.words f ++ [w] else h.words f := by
  unfold words message
  by_cases hrec : receive e = true
  · by_cases hef : e = f
    · subst hef
      simp [hrec, List.filter_append]
    · simp [hrec, hef, List.filter_append]
  · simp [hrec]

end Handler

namespace Drain

variable {receive : Ep → Bool} {x y : Drain Ep} {act : DrainAct} {rest : List Ep}

/-- All that a step does while the handler is at endpoints of the list and finds the messages that it was
told of. -/
theorem step_cases (hm : OwnRegisters m l) (hat : ∀ e, x.handler.pc.at = some e → e ∈ l)
    (hready : ∀ e, x.handler.pc = .message e → x.fifoOf m e ≠ []) (hs : Step m receive x act y) :
    (∃ e ∈ l, act = .tick ∧ x.handler.pc = .poll e ∧
      y = ⟨x.handler.poll m e (x.fifoOf m e).length, x.fifo, x.came⟩) ∨
    (∃ e ∈ l, ∃ w ws, act = .tick ∧ x.handler.pc = .message e ∧ x.fifoOf m e = w :: ws ∧
      y = ⟨x.handler.message m receive e w.toNat, Function.update x.fifo (msgReg (m.ep e)) ws, x.came⟩) ∨
    (∃ e ∈ l, act = .tick ∧ x.handler.pc = .ack e ∧ y = ⟨x.handler.ack m e, x.fifo, x.came⟩) ∨
    ∃ a w, act = .arrive a w ∧ y = ⟨x.handler, appendWord x.fifo a w, appendWord x.came a w⟩ := by
  cases act with
  | arrive a w => exact .inr (.inr (.inr ⟨a, w, rfl, (Option.some.inj hs).symm⟩))
  | tick =>
    obtain ⟨h, hexec, rfl⟩ := Option.map_eq_some_iff.mp hs
    rcases Handler.step_cases hexec with ⟨e, hpc, rfl⟩ | ⟨e, hpc, rfl⟩ | ⟨e, hpc, rfl⟩
    · have he := hat e (by rw [hpc]; rfl)
      obtain ⟨hrow, -, hnext⟩ := hm.regs he
      refine .inl ⟨e, he, rfl, hpc, ?_⟩
      simp [bus, Handler.reads, hpc, busRead, hrow, hnext, fifoOf]
    · have he := hat e (by rw [hpc]; rfl)
      obtain ⟨-, hrow, -⟩ := hm.regs he
      obtain ⟨w, ws, hw⟩ := List.exists_cons_of_ne_nil (hready e hpc)
      have hw' : x.fifo (msgReg (m.ep e)) = w :: ws := hw
      refine .inr (.inl ⟨e, he, w, ws, rfl, hpc, hw, ?_⟩)
      simp [bus, Handler.reads, hpc, busRead, hrow, hw']
    · have he := hat e (by rw [hpc]; rfl)
      refine .inr (.inr (.inl ⟨e, he, rfl, hpc, ?_⟩))
      simp [bus, Handler.reads, hpc]

/-- The handler's accesses never wait. -/
theorem exists_tick (hpc : x.handler.pc ≠ .done) : ∃ y, Step m receive x .tick y := by
  obtain ⟨h, hs⟩ : ∃ h, Handler.Step m receive x.handler (x.bus m).1 h := Handler.exists_step hpc _
  exact ⟨_, Option.map_eq_some_iff.mpr ⟨h, hs, rfl⟩⟩

/-! ## What every run keeps -/

variable [DecidableEq Ep]

/-- The words taken from the FIFO of an endpoint of the list are those that came first, and its callback, if
it has one, got exactly these, in order. No other callback got a word, and no other FIFO was touched. -/
structure Faithful (m : Mailbox Ep) (receive : Ep → Bool) (l : List Ep) (x : Drain Ep) : Prop where
  own : ∀ e ∈ l, ∃ taken, taken ++ x.fifoOf m e = x.cameOf m e ∧
    x.handler.words e = if receive e then taken else []
  foreign : ∀ e, e ∉ l → x.handler.words e = []
  untouched : ∀ a, (∀ e ∈ l, msgReg (m.ep e) ≠ a) → x.fifo a = x.came a

/-- The handler has done with the endpoints of the list before `rest`, and has written their pending bits. -/
structure Inv (m : Mailbox Ep) (receive : Ep → Bool) (l : List Ep) (x : Drain Ep) (rest : List Ep) :
    Prop where
  before : Handler.Before m x.handler rest
  acked : ∃ pre, l = pre ++ rest ∧
    x.handler.writes = pre.map fun e => (msgIrqS (m.ep e), recIntBit (m.ep e))
  ready : ∀ e, x.handler.pc = .message e → x.fifoOf m e ≠ []
  faithful : Faithful m receive l x

theorem start_inv (hm : OwnRegisters m l) (fifo : Fifos) : Inv m receive l (start m fifo) l := by
  refine ⟨Handler.start_before hm.linked, ⟨[], rfl, rfl⟩, fun e he => ?_, ?_⟩
  · exact absurd he (HandlerPc.enter_ne_message m.itEdp e)
  · have hwords : ∀ e, (start m fifo).handler.words e = [] := fun e => rfl
    exact ⟨fun e _ => ⟨[], rfl, by simp [hwords]⟩, fun e _ => hwords e, fun a _ => rfl⟩

theorem Inv.at_mem (hinv : Inv m receive l x rest) (hat : x.handler.pc.at = some e) : e ∈ l := by
  obtain ⟨post, rfl, -⟩ := hinv.before.cons hat
  obtain ⟨pre, rfl, -⟩ := hinv.acked
  simp

/-- A step without a call and a read from a FIFO. -/
theorem Faithful.stay (hf : Faithful m receive l x) {h : Handler Ep} (hcalls : h.calls = x.handler.calls) :
    Faithful m receive l ⟨h, x.fifo, x.came⟩ := by
  have hwords : ∀ e, h.words e = x.handler.words e := fun e => by
    rw [Handler.words, hcalls, Handler.words]
  refine ⟨fun e he => ?_, fun e he => (hwords e).trans (hf.foreign e he), hf.untouched⟩
  obtain ⟨taken, hsplit, htaken⟩ := hf.own e he
  exact ⟨taken, hsplit, (hwords e).trans htaken⟩

/-- A word that comes in stands behind the others. -/
theorem Faithful.arrive (hf : Faithful m receive l x) (a w : BitVec 32) :
    Faithful m receive l ⟨x.handler, appendWord x.fifo a w, appendWord x.came a w⟩ := by
  have hall : ∀ b (taken : List (BitVec 32)), taken ++ x.fifo b = x.came b →
      taken ++ appendWord x.fifo a w b = appendWord x.came a w b := fun b taken hb => by
    unfold appendWord
    by_cases hba : b = a
    · subst hba
      simp [← hb]
    · simpa [Function.update_of_ne hba] using hb
  refine ⟨fun e he => ?_, hf.foreign, fun b hb => ?_⟩
  · obtain ⟨taken, hsplit, hwords⟩ := hf.own e he
    exact ⟨taken, hall _ taken hsplit, hwords⟩
  · exact hall b [] (hf.untouched b hb)

/-- A word that is taken from the FIFO of an endpoint goes to the callback of this endpoint. -/
theorem Faithful.message (hm : OwnRegisters m l) (hf : Faithful m receive l x) (he : e ∈ l)
    {w : BitVec 32} {ws : List (BitVec 32)} (hw : x.fifoOf m e = w :: ws) :
    Faithful m receive l
      ⟨x.handler.message m receive e w.toNat, Function.update x.fifo (msgReg (m.ep e)) ws, x.came⟩ := by
  refine ⟨fun f hfl => ?_, fun f hfl => ?_, fun a ha => ?_⟩
  · obtain ⟨taken, hsplit, hwords⟩ := hf.own f hfl
    by_cases hef : e = f
    · subst hef
      refine ⟨taken ++ [w], ?_, ?_⟩
      · rw [hw] at hsplit
        simpa [fifoOf, cameOf] using hsplit
      · rw [Handler.words_message, hwords]
        by_cases hrec : receive e = true
        · simp [hrec]
        · simp [hrec]
    · have hreg : msgReg (m.ep f) ≠ msgReg (m.ep e) := fun h => hef (hm.msgReg_inj hfl he h).symm
      refine ⟨taken, ?_, ?_⟩
      · simpa [fifoOf, cameOf, Function.update_of_ne hreg] using hsplit
      · rw [Handler.words_message, if_neg fun h => hef h.1]
        exact hwords
  · have hef : e ≠ f := fun h => hfl (h ▸ he)
    rw [Handler.words_message, if_neg fun h => hef h.1]
    exact hf.foreign f hfl
  · rw [← hf.untouched a ha]
    exact Function.update_of_ne (ha e he).symm _ _

omit [DecidableEq Ep] in
theorem appendWord_ne_nil {fifo : Fifos} {b : BitVec 32} (h : fifo b ≠ []) (a w : BitVec 32) :
    appendWord fifo a w b ≠ [] := by
  unfold appendWord
  by_cases hba : b = a
  · subst hba
    simp
  · rwa [Function.update_of_ne hba]

/-! ## The accesses that are left

Two for each word and two for each endpoint. -/

/-- The accesses that a list of endpoints takes. -/
def backlog (m : Mailbox Ep) (fifo : Fifos) : List Ep → Nat
  | [] => 0
  | e :: rest => 2 * (fifo (msgReg (m.ep e))).length + 2 + backlog m fifo rest

/-- The accesses that are left to a handler with these endpoints before it. -/
def cost (m : Mailbox Ep) (x : Drain Ep) : List Ep → Nat
  | [] => 0
  | e :: post =>
    (match x.handler.pc with
      | .poll _ => 2 * (x.fifoOf m e).length + 2
      | .message _ => 2 * (x.fifoOf m e).length + 1
      | .ack _ | .done => 1) + backlog m x.fifo post

section Cost

variable {post : List Ep}

omit [DecidableEq Ep]

theorem cost_poll (hpc : x.handler.pc = .poll e) :
    cost m x (e :: post) = backlog m x.fifo (e :: post) := by
  simp [cost, backlog, hpc, fifoOf]

theorem cost_message (hpc : x.handler.pc = .message e) :
    cost m x (e :: post) + 1 = backlog m x.fifo (e :: post) := by
  simp [cost, backlog, hpc, fifoOf]
  omega

theorem cost_ack (hpc : x.handler.pc = .ack e) : cost m x (e :: post) = backlog m x.fifo post + 1 := by
  simp [cost, hpc]
  omega

/-- The cost of a handler that comes to the next endpoint. -/
theorem cost_enter (hb : Handler.Before m x.handler rest) {p : Option Ep} (hpc : x.handler.pc = .enter p) :
    cost m x rest = backlog m x.fifo rest := by
  cases rest with
  | nil => rfl
  | cons e post =>
    have hat := hb.1
    rw [hpc, HandlerPc.at_enter] at hat
    subst hat
    exact cost_poll hpc

theorem backlog_congr {fifo fifo' : Fifos}
    (h : ∀ e ∈ rest, fifo' (msgReg (m.ep e)) = fifo (msgReg (m.ep e))) :
    backlog m fifo' rest = backlog m fifo rest := by
  induction rest with
  | nil => rfl
  | cons e post ih =>
    rw [backlog, backlog, h e List.mem_cons_self, ih fun f hf => h f (List.mem_cons_of_mem _ hf)]

/-- A word comes into the FIFO of one endpoint at most. -/
theorem backlog_appendWord (hm : OwnRegisters m l) (fifo : Fifos) (a w : BitVec 32) (hnodup : rest.Nodup)
    (hsub : ∀ e ∈ rest, e ∈ l) : backlog m (appendWord fifo a w) rest ≤ backlog m fifo rest + 2 := by
  induction rest with
  | nil => exact Nat.zero_le _
  | cons e post ih =>
    obtain ⟨he, hpost⟩ := List.nodup_cons.mp hnodup
    have hle := ih hpost fun f hf => hsub f (List.mem_cons_of_mem _ hf)
    rw [backlog, backlog]
    by_cases ha : msgReg (m.ep e) = a
    · have hsame : backlog m (appendWord fifo a w) post = backlog m fifo post := by
        apply backlog_congr
        intro f hf
        have hne : msgReg (m.ep f) ≠ a := fun h =>
          he (hm.msgReg_inj (hsub e List.mem_cons_self) (hsub f (List.mem_cons_of_mem _ hf))
            (ha.trans h.symm) ▸ hf)
        exact Function.update_of_ne hne _ _
      rw [hsame, ha]
      simp [appendWord]
      omega
    · have hhead : appendWord fifo a w (msgReg (m.ep e)) = fifo (msgReg (m.ep e)) :=
        Function.update_of_ne ha _ _
      rw [hhead]
      omega

end Cost

/-! The four kinds of steps. -/

theorem Inv.rest_mem (hinv : Inv m receive l x rest) (he : e ∈ rest) : e ∈ l := by
  obtain ⟨pre, rfl, -⟩ := hinv.acked
  exact List.mem_append_right pre he

theorem Inv.rest_nodup (hinv : Inv m receive l x rest) : rest.Nodup := Chain.nodup hinv.before

theorem Inv.poll (hinv : Inv m receive l x rest) (hpc : x.handler.pc = .poll e) :
    let y : Drain Ep := ⟨x.handler.poll m e (x.fifoOf m e).length, x.fifo, x.came⟩
    Inv m receive l y rest ∧ cost m y rest + 1 = cost m x rest := by
  intro y
  obtain ⟨post, rfl, -⟩ := hinv.before.cons (e := e) (by rw [hpc]; rfl)
  have hbefore : Handler.Before m y.handler (e :: post) :=
    hinv.before.stay (by rw [hpc]; exact Handler.poll_at _)
  by_cases hnil : x.fifoOf m e = []
  · have hy : y.handler.pc = .ack e := if_pos (by rw [hnil]; rfl)
    refine ⟨⟨hbefore, by simpa [y] using hinv.acked, fun f hf => ?_, hinv.faithful.stay rfl⟩, ?_⟩
    · rw [hy] at hf
      cases hf
    · rw [cost_ack hy, cost_poll hpc]
      simp [backlog, y, show x.fifo (msgReg (m.ep e)) = [] from hnil]
      omega
  · have hy : y.handler.pc = .message e := if_neg (by simpa using hnil)
    refine ⟨⟨hbefore, by simpa [y] using hinv.acked, fun f hf => ?_, hinv.faithful.stay rfl⟩, ?_⟩
    · rw [hy] at hf
      cases hf
      exact hnil
    · rw [cost_message hy, cost_poll hpc]

theorem Inv.message (hm : OwnRegisters m l) (hinv : Inv m receive l x rest) (hpc : x.handler.pc = .message e)
    {w : BitVec 32} {ws : List (BitVec 32)} (hw : x.fifoOf m e = w :: ws) :
    let y : Drain Ep :=
      ⟨x.handler.message m receive e w.toNat, Function.update x.fifo (msgReg (m.ep e)) ws, x.came⟩
    Inv m receive l y rest ∧ cost m y rest + 1 = cost m x rest := by
  intro y
  have he : e ∈ l := hinv.at_mem (by rw [hpc]; rfl)
  obtain ⟨post, rfl, -⟩ := hinv.before.cons (e := e) (by rw [hpc]; rfl)
  have hy : y.handler.pc = .poll e := rfl
  refine ⟨⟨hinv.before.stay (by rw [hpc]; rfl), ?_, fun f hf => ?_, hinv.faithful.message hm he hw⟩, ?_⟩
  · simpa [y] using hinv.acked
  · rw [hy] at hf
    cases hf
  · have hpost : backlog m y.fifo post = backlog m x.fifo post := by
      apply backlog_congr
      intro f hf
      have hne : msgReg (m.ep f) ≠ msgReg (m.ep e) := fun h =>
        (List.nodup_cons.mp hinv.rest_nodup).1
          (hm.msgReg_inj (hinv.rest_mem (List.mem_cons_of_mem _ hf)) he h ▸ hf)
      exact Function.update_of_ne hne _ _
    have hx : cost m x (e :: post) + 1 = backlog m x.fifo (e :: post) := cost_message hpc
    rw [backlog, show x.fifo (msgReg (m.ep e)) = w :: ws from hw, List.length_cons] at hx
    rw [cost_poll hy, backlog, hpost, show y.fifo (msgReg (m.ep e)) = ws from Function.update_self _ _ _]
    omega

theorem Inv.ack (hinv : Inv m receive l x rest) (hpc : x.handler.pc = .ack e) :
    let y : Drain Ep := ⟨x.handler.ack m e, x.fifo, x.came⟩
    ∃ post, Inv m receive l y post ∧ cost m y post + 1 = cost m x rest := by
  intro y
  obtain ⟨post, rfl, hpost⟩ := hinv.before.cons (e := e) (by rw [hpc]; rfl)
  obtain ⟨pre, hl, hwrites⟩ := hinv.acked
  have hbefore : Handler.Before m y.handler post := Handler.before_ack hpost
  refine ⟨post, ⟨hbefore, ⟨pre ++ [e], by simpa using hl, ?_⟩, fun f hf => ?_, hinv.faithful.stay rfl⟩, ?_⟩
  · simp [y, hwrites]
  · exact absurd hf (HandlerPc.enter_ne_message (m.next e) f)
  · rw [cost_ack hpc, cost_enter hbefore rfl]

theorem Inv.arrive (hm : OwnRegisters m l) (hinv : Inv m receive l x rest) (a w : BitVec 32) :
    let y : Drain Ep := ⟨x.handler, appendWord x.fifo a w, appendWord x.came a w⟩
    Inv m receive l y rest ∧ cost m y rest ≤ cost m x rest + 2 := by
  intro y
  refine ⟨⟨hinv.before, hinv.acked, fun e he => appendWord_ne_nil (hinv.ready e he) a w,
    hinv.faithful.arrive a w⟩, ?_⟩
  cases hrest : rest with
  | nil => exact Nat.zero_le _
  | cons e post =>
    rw [hrest] at hinv
    have hall := backlog_appendWord hm x.fifo a w hinv.rest_nodup fun f hf => hinv.rest_mem hf
    have hat : x.handler.pc.at = some e := hinv.before.1
    cases hpc : x.handler.pc with
    | poll t =>
      rw [hpc] at hat
      cases hat
      rw [cost_poll hpc, cost_poll (x := y) hpc]
      exact hall
    | message t =>
      rw [hpc] at hat
      cases hat
      have hx : cost m x (e :: post) + 1 = backlog m x.fifo (e :: post) := cost_message hpc
      have hy : cost m y (e :: post) + 1 = backlog m (appendWord x.fifo a w) (e :: post) := cost_message hpc
      omega
    | ack t =>
      rw [hpc] at hat
      cases hat
      rw [cost_ack hpc, cost_ack (x := y) hpc]
      have hpost := backlog_appendWord hm x.fifo a w (List.nodup_cons.mp hinv.rest_nodup).2
        fun f hf => hinv.rest_mem (List.mem_cons_of_mem _ hf)
      change backlog m (appendWord x.fifo a w) post + 1 ≤ _
      omega
    | done =>
      rw [hpc] at hat
      cases hat

/-- A step of the handler lowers the cost by one, and a word that comes in raises it by two at most. -/
theorem Inv.step (hm : OwnRegisters m l) (hinv : Inv m receive l x rest) (hs : Step m receive x act y) :
    ∃ rest', Inv m receive l y rest' ∧
      if act.isTick then cost m y rest' + 1 = cost m x rest else cost m y rest' ≤ cost m x rest + 2 := by
  rcases step_cases hm (fun e => hinv.at_mem) hinv.ready hs with
    ⟨e, -, rfl, hpc, rfl⟩ | ⟨e, -, w, ws, rfl, hpc, hw, rfl⟩ | ⟨e, -, rfl, hpc, rfl⟩ | ⟨a, w, rfl, rfl⟩
  · exact ⟨rest, hinv.poll hpc⟩
  · exact ⟨rest, hinv.message hm hpc hw⟩
  · exact hinv.ack hpc
  · exact ⟨rest, hinv.arrive hm a w⟩

/-! ## Runs -/

/-- The accesses of a run. -/
def ticks (tr : List (DrainAct × Drain Ep)) : Nat := tr.countP (·.1.isTick)

/-- The words that come in in a run. -/
def arrivals (tr : List (DrainAct × Drain Ep)) : Nat := tr.countP (!·.1.isTick)

theorem Inv.ticks_le (hm : OwnRegisters m l) {tr : List (DrainAct × Drain Ep)} (hinv : Inv m receive l x rest)
    (h : Run (Step m receive) x tr) : ticks tr ≤ cost m x rest + 2 * arrivals tr := by
  induction h generalizing rest with
  | nil => exact Nat.zero_le _
  | @cons x y act tr hs _ ih =>
    obtain ⟨rest', hinv', hcost⟩ := hinv.step hm hs
    have hle := ih hinv'
    unfold ticks arrivals at hle ⊢
    rw [List.countP_cons, List.countP_cons]
    cases hact : act.isTick with
    | true =>
      rw [hact] at hcost
      simp only [if_true, Bool.not_true, Bool.false_eq_true, if_false] at hcost ⊢
      omega
    | false =>
      rw [hact] at hcost
      simp only [if_true, Bool.not_false, Bool.false_eq_true, if_false] at hcost ⊢
      omega

/-- The write of `irq_msgbox_channel_handler` for an endpoint: bit `2 * read_ch` of its pending register. -/
def ackWrite (m : Mailbox Ep) (e : Ep) : BitVec 32 × BitVec 32 :=
  (msgIrqS (m.ep e), BitVec.twoPow 32 (2 * (m.ep e).readCh.toNat))

omit [DecidableEq Ep] in
theorem ackWrite_eq (hm : OwnRegisters m l) (he : e ∈ l) :
    ackWrite m e = (msgIrqS (m.ep e), recIntBit (m.ep e)) := by
  obtain ⟨h0, h3⟩ := hm.channel e he
  have hshift : ((m.ep e).readCh * 2 % 32).toNat = 2 * (m.ep e).readCh.toNat := by omega
  rw [ackWrite, recIntBit, hshift]
  rfl

/-- One run of `irq_msgbox_handler`, whatever the FIFOs hold at the start and whatever comes in meanwhile.
In every state the words taken from each FIFO went to the callback of its own endpoint, once and in order;
the loop of an endpoint ends with an empty FIFO; the pending bits are written in the order of the list. The
handler never waits, and takes at most two accesses for each word and two for each endpoint. -/
theorem irqMsgboxHandler_drains (hm : OwnRegisters m l) (fifo : Fifos) :
    (∀ x, Reachable (Step m receive) (· = start m fifo) x →
      Faithful m receive l x ∧
      (∀ e y, x.handler.pc = .poll e → Step m receive x .tick y → y.handler.pc = .ack e →
        y.fifoOf m e = []) ∧
      (∃ pre, pre <+: l ∧ x.handler.writes = pre.map (ackWrite m) ∧ (x.handler.pc = .done → pre = l)) ∧
      (x.handler.pc ≠ .done → ∃ y, Step m receive x .tick y)) ∧
    ∀ tr, Run (Step m receive) (start m fifo) tr →
      ticks tr ≤ backlog m fifo l + 2 * arrivals tr := by
  have hstart : Inv m receive l (start m fifo) l := start_inv hm fifo
  refine ⟨fun x hx => ?_, fun tr htr => ?_⟩
  · obtain ⟨rest, hinv⟩ : ∃ rest, Inv m receive l x rest := by
      induction hx with
      | init h0 =>
        subst h0
        exact ⟨l, hstart⟩
      | step _ hs ih =>
        obtain ⟨rest, hinv⟩ := ih
        obtain ⟨rest', hinv', -⟩ := hinv.step hm hs
        exact ⟨rest', hinv'⟩
    refine ⟨hinv.faithful, fun e y hpc hs hack => ?_, ?_, exists_tick⟩
    · rcases step_cases hm (fun e => hinv.at_mem) hinv.ready hs with
        ⟨f, -, -, hpc', rfl⟩ | ⟨f, -, w, ws, -, hpc', -, rfl⟩ | ⟨f, -, -, hpc', rfl⟩ | ⟨a, w, hact, -⟩
      · rw [hpc] at hpc'
        cases hpc'
        by_contra hnil
        have hne : x.fifoOf m e ≠ [] := hnil
        rw [Handler.poll, if_neg (by simpa using hne)] at hack
        cases hack
      · rw [hpc] at hpc'
        cases hpc'
      · rw [hpc] at hpc'
        cases hpc'
      · cases hact
    · obtain ⟨pre, hl, hwrites⟩ := hinv.acked
      refine ⟨pre, ⟨rest, hl.symm⟩, ?_, fun hdone => ?_⟩
      · rw [hwrites]
        exact List.map_congr_left fun e he => (ackWrite_eq hm (hl ▸ List.mem_append_left rest he)).symm
      · have hbefore := hinv.before
        rw [Handler.Before, hdone] at hbefore
        cases rest with
        | nil => simpa using hl.symm
        | cons e post => cases hbefore.1
  · have hle := hstart.ticks_le hm htr
    rw [cost_enter hstart.before rfl] at hle
    exact hle

/-- One channel of each of two remotes. -/
def twoRemotes : Mailbox Bool where
  itEdp := some false
  ep
    | false => ⟨1, 0, 0, 1, some true⟩
    | true => ⟨1, 2, 0, 1, none⟩
  reg _ := 0#32

theorem twoRemotes_ownRegisters : OwnRegisters twoRemotes [false, true] :=
  .of_remote ⟨rfl, rfl, rfl⟩ (by decide) (by decide) (by decide) (by decide)

/-- The second endpoint has no callback; its words are taken all the same. -/
theorem twoRemotes_drains :
    OwnRegisters twoRemotes [false, true] ∧
      ∀ x, Reachable (Step twoRemotes fun e => !e) (· = start twoRemotes fun _ => [7#32, 8#32]) x →
        Faithful twoRemotes (fun e => !e) [false, true] x :=
  ⟨twoRemotes_ownRegisters,
    fun x hx => ((irqMsgboxHandler_drains twoRemotes_ownRegisters fun _ => [7#32, 8#32]).1 x hx).1⟩

/-- Two remotes with one register block. -/
def aliasedRemotes : Mailbox Bool where
  itEdp := some false
  ep
    | false => ⟨1, 0, 0, 0, some true⟩
    | true => ⟨1, 0x1000001, 0, 0, none⟩
  reg _ := 0#32

def aliasedFifo : Fifos := fun a => if a = msgReg (aliasedRemotes.ep true) then [5#32] else []

/-- The remotes 0 and 2^24 + 1 are different, but the word in the FIFO of the second one goes to the callback
of the first one, and the callback of the second one is never called. -/
theorem aliasedRemotes_misdelivers :
    aliasedRemotes.Linked [false, true] ∧
    (∀ e, (aliasedRemotes.ep e).localAmp = msgboxRiscv ∧ 0 ≤ (aliasedRemotes.ep e).remoteAmp ∧
      (aliasedRemotes.ep e).remoteAmp ≠ (aliasedRemotes.ep e).localAmp ∧
      0 ≤ (aliasedRemotes.ep e).readCh ∧ (aliasedRemotes.ep e).readCh ≤ 3) ∧
    (aliasedRemotes.ep false).remoteAmp ≠ (aliasedRemotes.ep true).remoteAmp ∧
    ∃ tr, trace (exec aliasedRemotes fun _ => true) (start aliasedRemotes aliasedFifo)
        [.tick, .tick, .tick, .tick, .tick, .tick] = some tr ∧
      let x := endOf (start aliasedRemotes aliasedFifo) tr
      x.handler.pc = .done ∧ x.cameOf aliasedRemotes true = [5#32] ∧ x.handler.words true = [] ∧
        x.handler.words false = [5#32] := by
  refine ⟨⟨rfl, rfl, rfl⟩, by decide, by decide, exists_trace ?_⟩
  decide

end Drain

end V85x
