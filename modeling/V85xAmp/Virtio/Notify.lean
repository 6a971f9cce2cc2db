import V85xAmp.Lib.Run
import V85xAmp.Mailbox.Basic
import V85xAmp.Virtio.Virtqueue

/-!
# Notifications to the host

A kick of a virtqueue goes through `rproc_virtio_virtqueue_notify` and `sunxi_openamp_notify` to the
mailbox. `NotifyState` follows the device side at the level of its accesses to the mailbox: a send
under way waits for room in the FIFO (`poll`) and writes its word (`write`), an interrupt may put
another send on top of it, and the host reads words and rewrites its part of the rings at any time.

`wordsOk_iff_along`: the host reads the notifyids of the kicked vrings exactly in the runs that kick only
vrings with notifyid `VRING0_ID`, because that is what `sunxi_openamp_notify` sends whatever id it
is given.
-/

namespace V85x

open Firmware

/-! ## The source -/

/-- `VRING0_ID` -/
def vring0Id : BitVec 32 := 0#32

/-- `VRING1_ID` -/
def vring1Id : BitVec 32 := 1#32

/-- `struct virtio_vring_info`: the virtqueue and the id of a vring. -/
structure VringInfo where
  vq : Virtqueue
  notifyid : BitVec 32

/-- `sunxi_openamp_notify`: the words that it hands to the mailbox. It does not look at `id`. -/
def sunxiOpenampNotify (_id : BitVec 32) : List (BitVec 32) :=
  let channel := vring0Id
  halMsgboxChannelSend (bytesOf channel)

/-- `rproc_virtio_virtqueue_notify` -/
def rprocVirtioVirtqueueNotify (vringsInfo : Nat → VringInfo) (vq : Virtqueue) : List (BitVec 32) :=
  let vringInfo := vringsInfo vq.queueIndex
  sunxiOpenampNotify vringInfo.notifyid

/-! ## The device side and the host -/

/-- A kick that is being sent: its vring, the words still to be written, and whether the last read of the
FIFO's status allows the next write. -/
structure Sending where
  vring : Nat
  words : List (BitVec 32)
  polled : Bool
deriving Repr, DecidableEq

/-- The vrings, the sends under way (an interrupt's send before the one that it interrupted), the transmit
FIFO, and what happened so far: the words that the host read, the kicks that were not suppressed, and
the written words with the vrings of their kicks. -/
structure NotifyState where
  features : BitVec 32
  vringsInfo : Nat → VringInfo
  sends : List Sending
  fifo : List (BitVec 32)
  read : List (BitVec 32)
  kicked : List Nat
  written : List (Nat × BitVec 32)

namespace NotifyState

def setVq (s : NotifyState) (i : Nat) (vq : Virtqueue) : NotifyState :=
  { s with vringsInfo := Function.update s.vringsInfo i { s.vringsInfo i with vq } }

/-- `vq->vq_queued_cnt = 0`, the end of `virtqueue_kick`. -/
def endKick (s : NotifyState) (i : Nat) : NotifyState :=
  s.setVq i { (s.vringsInfo i).vq with queuedCnt := 0#16 }

/-- `virtqueue_kick` up to the mailbox. -/
def virtqueueKick (s : NotifyState) (i : Nat) : NotifyState :=
  let vq := (s.vringsInfo i).vq
  if vqRingMustNotify s.features vq then
    { s with
      sends := ⟨i, rprocVirtioVirtqueueNotify s.vringsInfo vq, false⟩ :: s.sends
      kicked := s.kicked ++ [i] }
  else s.endKick i

/-- `virtqueue_add_consumed_buffer` of a descriptor with its length. -/
def addConsumed (s : NotifyState) (i : Nat) (idx : BitVec 16) : NotifyState :=
  let vq := (s.vringsInfo i).vq
  s.setVq i (virtqueueAddConsumedBuffer vq idx (virtqueueGetBufferLength vq idx)).2

/-- The end of `rpmsg_virtio_send_offchannel_nocopy`: the used entry on the tx ring, vring 0, and the kick. -/
def sendOffchannelNocopy (s : NotifyState) (idx : BitVec 16) : NotifyState :=
  (s.addConsumed 0 idx).virtqueueKick 0

/-- `rpmsg_virtio_release_rx_buffer_nolock`: the used entry on the rx ring, vring 1, and the kick. -/
def releaseRxBufferNolock (s : NotifyState) (idx : BitVec 16) : NotifyState :=
  (s.addConsumed 1 idx).virtqueueKick 1

end NotifyState

/-- What the device side and the host do. `poll` and `write` are the two accesses of
`msgbox_channel_send_data` for the innermost send. -/
inductive NotifyAct
  | send (idx : BitVec 16)
  | release (idx : BitVec 16)
  | poll
  | write
  | hostRead
  | host (avail : Nat → VringAvail) (desc : Nat → Nat → VringDesc)

namespace NotifyState

/-- The host's part of the rings, rewritten. -/
def hostWrite (s : NotifyState) (avail : Nat → VringAvail) (desc : Nat → Nat → VringDesc) : NotifyState :=
  { s with vringsInfo := fun i =>
      let info := s.vringsInfo i
      let ring := { info.vq.vqRing with avail := avail i, desc := desc i }
      { info with vq := { info.vq with vqRing := ring } } }

/-- One step. A new send starts in the main code or, on top of one send of the main code, in the
interrupt. The words are what is modelled here, and the FIFO takes all of them: a write that an older poll
lets through to a full one, which loses its word, is in `Fifo.push`. -/
inductive Step : NotifyState → NotifyAct → NotifyState → Prop
  | send {s : NotifyState} (idx : BitVec 16) : s.sends.length ≤ 1 →
      Step s (.send idx) (s.sendOffchannelNocopy idx)
  | release {s : NotifyState} (idx : BitVec 16) : s.sends.length ≤ 1 →
      Step s (.release idx) (s.releaseRxBufferNolock idx)
  | poll {s : NotifyState} {f : Sending} {rest : List Sending} : s.sends = f :: rest →
      Step s .poll { s with sends := { f with polled := s.fifo.length ≠ msgboxMaxQueue } :: rest }
  | write {s : NotifyState} {i : Nat} {w v : BitVec 32} {words : List (BitVec 32)} {rest : List Sending} :
      s.sends = ⟨i, w :: v :: words, true⟩ :: rest →
      Step s .write { s with
        sends := ⟨i, v :: words, false⟩ :: rest, fifo := s.fifo ++ [w], written := s.written ++ [(i, w)] }
  | writeLast {s : NotifyState} {i : Nat} {w : BitVec 32} {rest : List Sending} :
      s.sends = ⟨i, [w], true⟩ :: rest →
      Step s .write ({ s with
        sends := rest, fifo := s.fifo ++ [w], written := s.written ++ [(i, w)] }.endKick i)
  | hostRead {s : NotifyState} {w : BitVec 32} {fifo : List (BitVec 32)} : s.fifo = w :: fifo →
      Step s .hostRead { s with fifo, read := s.read ++ [w] }
  | host {s : NotifyState} (avail : Nat → VringAvail) (desc : Nat → Nat → VringDesc) :
      Step s (.host avail desc) (s.hostWrite avail desc)

/-! ## The words -/

/-- The host has read, and will find in the FIFO, the notifyids of the kicked vrings in the order of the
writes, and each send under way is about to write the notifyid of its vring. -/
def WordsOk (s : NotifyState) : Prop :=
  s.read ++ s.fifo = s.written.map (fun p => (s.vringsInfo p.1).notifyid) ∧
    ∀ f ∈ s.sends, f.words = [(s.vringsInfo f.vring).notifyid]

/-- The kick at the end of the call is suppressed, or its vring has the notifyid `VRING0_ID`. -/
def KicksVring0 (s : NotifyState) : NotifyAct → Prop
  | .send idx => vqRingMustNotify s.features ((s.addConsumed 0 idx).vringsInfo 0).vq = true →
      (s.vringsInfo 0).notifyid = vring0Id
  | .release idx => vqRingMustNotify s.features ((s.addConsumed 1 idx).vringsInfo 1).vq = true →
      (s.vringsInfo 1).notifyid = vring0Id
  | _ => True

/-- The device side after its initialisation. -/
def Booted (s : NotifyState) : Prop :=
  s.sends = [] ∧ s.fifo = [] ∧ s.read = [] ∧ s.kicked = [] ∧ s.written = [] ∧
    ∀ i, (s.vringsInfo i).vq.queueIndex = i

/-- The invariant of the runs: every send has one word, which is `VRING0_ID`, each kick has one send or one
written word, and the words go from the device to the host in order. -/
structure Inv (s : NotifyState) : Prop where
  queueIndex : ∀ i, (s.vringsInfo i).vq.queueIndex = i
  words : ∀ f ∈ s.sends, f.words = [vring0Id]
  fifo : s.read ++ s.fifo = s.written.map (·.2)
  kicked : (s.written.map (·.1) ++ s.sends.map (·.vring)).Perm s.kicked

/-- The states have the same vrings, apart from what their rings hold. -/
def SameVrings (s t : NotifyState) : Prop :=
  ∀ i, (t.vringsInfo i).notifyid = (s.vringsInfo i).notifyid ∧
    (t.vringsInfo i).vq.queueIndex = (s.vringsInfo i).vq.queueIndex

variable {s t : NotifyState}

theorem sameVrings_setVq (s : NotifyState) {i : Nat} {vq : Virtqueue}
    (h : vq.queueIndex = (s.vringsInfo i).vq.queueIndex) : SameVrings s (s.setVq i vq) := by
  intro j
  by_cases hj : j = i
  · subst hj
    simp [setVq, h]
  · simp [setVq, Function.update_of_ne hj]

theorem sameVrings_addConsumed (s : NotifyState) (i : Nat) (idx : BitVec 16) :
    SameVrings s (s.addConsumed i idx) :=
  sameVrings_setVq s (by simp)

theorem sameVrings_endKick (s : NotifyState) (i : Nat) : SameVrings s (s.endKick i) :=
  sameVrings_setVq s rfl

theorem SameVrings.trans {u : NotifyState} (h : SameVrings s t) (h' : SameVrings t u) :
    SameVrings s u := fun i => ⟨(h' i).1.trans (h i).1, (h' i).2.trans (h i).2⟩

/-- What adding a used entry to vring `i` and kicking it does, when the kick is suppressed and when it is
not: a kick that is not starts the send of one word, `VRING0_ID`. -/
structure Kicks (s : NotifyState) (i : Nat) (must : Bool) (t : NotifyState) : Prop where
  vrings : SameVrings s t
  sends : t.sends = if must then ⟨i, [vring0Id], false⟩ :: s.sends else s.sends
  kicked : t.kicked = if must then s.kicked ++ [i] else s.kicked
  fifo : t.fifo = s.fifo
  read : t.read = s.read
  written : t.written = s.written

theorem virtqueueKick_of_must {i : Nat} (h : vqRingMustNotify s.features (s.vringsInfo i).vq = true) :
    s.virtqueueKick i =
      { s with sends := ⟨i, [vring0Id], false⟩ :: s.sends, kicked := s.kicked ++ [i] } :=
  if_pos h

theorem virtqueueKick_of_suppressed {i : Nat}
    (h : vqRingMustNotify s.features (s.vringsInfo i).vq = false) : s.virtqueueKick i = s.endKick i :=
  if_neg (by simp [h])

theorem kicks_addConsumed (s : NotifyState) (i : Nat) (idx : BitVec 16) :
    Kicks s i (vqRingMustNotify s.features ((s.addConsumed i idx).vringsInfo i).vq)
      ((s.addConsumed i idx).virtqueueKick i) := by
  have hsame := sameVrings_addConsumed s i idx
  cases hmust : vqRingMustNotify s.features ((s.addConsumed i idx).vringsInfo i).vq with
  | true =>
    rw [virtqueueKick_of_must (s := s.addConsumed i idx) hmust]
    exact ⟨hsame, rfl, rfl, rfl, rfl, rfl⟩
  | false =>
    rw [virtqueueKick_of_suppressed (s := s.addConsumed i idx) hmust]
    exact ⟨hsame.trans (sameVrings_endKick _ i), rfl, rfl, rfl, rfl, rfl⟩

theorem Kicks.inv {i : Nat} {must : Bool} (h : Kicks s i must t) (hs : Inv s) : Inv t where
  queueIndex j := (h.vrings j).2.trans (hs.queueIndex j)
  words f hf := by
    rw [h.sends] at hf
    split at hf
    · rcases List.mem_cons.mp hf with rfl | hf
      · rfl
      · exact hs.words f hf
    · exact hs.words f hf
  fifo := by rw [h.read, h.fifo, h.written, hs.fifo]
  kicked := by
    rw [h.written, h.sends, h.kicked]
    split
    · rw [List.map_cons]
      apply List.perm_middle.trans
      exact (List.Perm.cons i hs.kicked).trans (List.perm_append_singleton i s.kicked).symm
    · exact hs.kicked

theorem SameVrings.map_written (h : SameVrings s t) (l : List (Nat × BitVec 32)) :
    l.map (fun p => (t.vringsInfo p.1).notifyid) = l.map (fun p => (s.vringsInfo p.1).notifyid) :=
  List.map_congr_left fun p _ => (h p.1).1

/-- A kick keeps the words right if and only if it is suppressed or its vring has the notifyid
`VRING0_ID`. -/
theorem Kicks.wordsOk_iff {i : Nat} {must : Bool} (h : Kicks s i must t) (hs : WordsOk s) :
    WordsOk t ↔ (must = true → (s.vringsInfo i).notifyid = vring0Id) := by
  have hw : t.read ++ t.fifo = t.written.map (fun p => (t.vringsInfo p.1).notifyid) := by
    rw [h.read, h.fifo, h.written, h.vrings.map_written, hs.1]
  have hsends : ∀ f ∈ s.sends, f.words = [(t.vringsInfo f.vring).notifyid] := by
    intro f hf
    rw [(h.vrings f.vring).1]
    exact hs.2 f hf
  cases must with
  | false => exact iff_of_true ⟨hw, by rw [h.sends]; exact hsends⟩ (by simp)
  | true =>
    simp only [WordsOk, h.sends, if_true, List.forall_mem_cons, hw, true_and, (h.vrings i).1,
      forall_const]
    constructor
    · rintro ⟨heq, -⟩
      exact (List.cons.inj heq).1.symm
    · intro heq
      exact ⟨by rw [heq], hsends⟩

/-! ## Runs -/

theorem Booted.inv (h : Booted s) : Inv s := by
  obtain ⟨h1, h2, h3, h4, h5, h6⟩ := h
  exact ⟨h6, by simp [h1], by simp [h2, h3, h5], by simp [h1, h4, h5]⟩

theorem Booted.wordsOk (h : Booted s) : WordsOk s := by
  obtain ⟨h1, h2, h3, -, h5, -⟩ := h
  exact ⟨by simp [h2, h3, h5], by simp [h1]⟩

theorem inv_step {act : NotifyAct} (hs : Inv s) (h : Step s act t) : Inv t := by
  cases h with
  | send idx => exact (kicks_addConsumed s 0 idx).inv hs
  | release idx => exact (kicks_addConsumed s 1 idx).inv hs
  | @poll f rest hsends =>
    have hw := hs.words
    have hk := hs.kicked
    rw [hsends] at hw hk
    rw [List.forall_mem_cons] at hw
    exact ⟨hs.queueIndex, List.forall_mem_cons.mpr hw, hs.fifo, hk⟩
  | @write i w v words rest hsends =>
    have hw := hs.words
    rw [hsends, List.forall_mem_cons] at hw
    exact absurd hw.1 (by simp)
  | @writeLast i w rest hsends =>
    have hw := hs.words
    have hk := hs.kicked
    rw [hsends] at hw hk
    rw [List.forall_mem_cons] at hw
    refine ⟨fun j => ?_, hw.2, ?_, ?_⟩
    · exact (sameVrings_endKick _ i j).2.trans (hs.queueIndex j)
    · simp [endKick, setVq, ← hs.fifo, ← List.append_assoc]
    · simpa [endKick, setVq] using hk
  | @hostRead w fifo hfifo =>
    refine ⟨hs.queueIndex, hs.words, ?_, hs.kicked⟩
    rw [← hs.fifo, hfifo]
    simp
  | host avail desc => exact ⟨hs.queueIndex, hs.words, hs.fifo, hs.kicked⟩

theorem wordsOk_step {act : NotifyAct} (hs : Inv s) (hok : WordsOk s) (h : Step s act t) :
    WordsOk t ↔ KicksVring0 s act := by
  cases h with
  | send idx => exact (kicks_addConsumed s 0 idx).wordsOk_iff hok
  | release idx => exact (kicks_addConsumed s 1 idx).wordsOk_iff hok
  | @poll f rest hsends =>
    obtain ⟨hok₁, hok₂⟩ := hok
    rw [hsends, List.forall_mem_cons] at hok₂
    exact iff_of_true ⟨hok₁, List.forall_mem_cons.mpr hok₂⟩ trivial
  | @write i w v words rest hsends =>
    have hw := hs.words
    rw [hsends, List.forall_mem_cons] at hw
    exact absurd hw.1 (by simp)
  | @writeLast i w rest hsends =>
    obtain ⟨hok₁, hok₂⟩ := hok
    rw [hsends, List.forall_mem_cons] at hok₂
    have hsame := sameVrings_endKick
      { s with sends := rest, fifo := s.fifo ++ [w], written := s.written ++ [(i, w)] } i
    refine iff_of_true ⟨?_, fun f hf => ?_⟩ trivial
    · show s.read ++ (s.fifo ++ [w]) = _
      rw [← List.append_assoc, hok₁]
      exact ((hsame.map_written (s.written ++ [(i, w)])).trans (by simp [(List.cons.inj hok₂.1).1])).symm
    · exact (hok₂.2 f hf).trans (by rw [(hsame f.vring).1])
  | @hostRead w fifo hfifo =>
    refine iff_of_true ⟨?_, hok.2⟩ trivial
    rw [← hok.1, hfifo]
    simp
  | host avail desc => exact iff_of_true hok trivial

/-- In every run, each kick that is not suppressed has one send under way or one written word, and the words
that the host reads are the notifyids of the kicked vrings if and only if all of these vrings have the
notifyid `VRING0_ID`. -/
theorem wordsOk_iff_along {s : NotifyState} {tr : List (NotifyAct × NotifyState)} (h0 : Booted s)
    (h : Run Step s tr) :
    (∀ p ∈ tr, (p.2.written.map (·.1) ++ p.2.sends.map (·.vring)).Perm p.2.kicked) ∧
      ((∀ p ∈ tr, WordsOk p.2) ↔ Along KicksVring0 s tr) :=
  ⟨fun p hp => (h.invariant (fun _ _ _ hs hst => inv_step hs hst) h0.inv p hp).kicked,
    Run.always_iff Inv WordsOk KicksVring0 (fun _ _ _ hs _ hst _ => inv_step hs hst)
      (fun _ _ _ hs hok hst => wordsOk_step hs hok hst) h h0.inv h0.wordsOk⟩

/-- The two vrings of the resource table, empty, with a host that asks for every notification. -/
def boot : NotifyState where
  features := 0#32
  vringsInfo i :=
    { vq :=
        { queueIndex := i, nentries := 16#16, queuedCnt := 0#16, availableIdx := 0#16
          shmIo := ⟨0x43d80000#32, 0x43d80000#32, 0x40000#32⟩
          vqRing := ⟨fun _ => ⟨0x43d80000#64, 512#32⟩, ⟨0#16, 0#16, fun _ => 0#16⟩,
            ⟨0#16, 0#16, fun _ => ⟨0#32, 0#32⟩⟩⟩ }
      notifyid := if i = 1 then vring1Id else vring0Id }
  sends := []
  fifo := []
  read := []
  kicked := []
  written := []

theorem boot_booted : Booted boot := ⟨rfl, rfl, rfl, rfl, rfl, fun _ => rfl⟩

/-- A send on the tx ring. -/
theorem wordsOk_send :
    ∃ tr, Run Step boot tr ∧ tr.map (·.1) = [.send 3#16, .poll, .write, .hostRead] ∧
      ∀ p ∈ tr, WordsOk p.2 := by
  have hrun : ∃ tr, Run Step boot tr ∧ tr.map (·.1) = [.send 3#16, .poll, .write, .hostRead] ∧
      Along KicksVring0 boot tr :=
    ⟨_, .cons (.send 3#16 (by decide)) (.cons (.poll rfl) (.cons (.writeLast rfl) (.cons (.hostRead rfl)
      (.nil _)))), rfl, fun _ => rfl, trivial, trivial, trivial, trivial⟩
  obtain ⟨tr, h, hacts, hcond⟩ := hrun
  exact ⟨tr, h, hacts, (wordsOk_iff_along boot_booted h).2.mpr hcond⟩

/-- The kick after the return of an rx buffer writes 0, and not the notifyid 1 of vring 1. -/
theorem rx_kick_writes_vring0Id :
    ∃ tr t, Run Step boot (tr ++ [(.write, t)]) ∧ tr.map (·.1) = [.release 3#16, .poll] ∧
      t.kicked = [1] ∧ t.fifo = [0#32] ∧ (t.vringsInfo 1).notifyid = 1#32 ∧ ¬ WordsOk t := by
  refine ⟨[_, _], _, .cons (.release 3#16 (by decide)) (.cons (.poll rfl) (.cons (.writeLast rfl) (.nil _))),
    rfl, rfl, rfl, rfl, fun h => ?_⟩
  exact absurd h.1 (by decide)

end NotifyState

end V85x
