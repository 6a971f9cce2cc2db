import V85xAmp.Lib.Run
import V85xAmp.Mailbox.Basic

/-!
# The transmit FIFO (`arch/riscv/sun8i-v85x/sunxi_mailbox.c`)

`msgbox_channel_send_data` reads the fill of the FIFO until it is not `MSGBOX_MAX_QUEUE` and then writes
its word. These are two accesses of one call; between them an interrupt may make whole calls of
`hal_msgbox_channel_send` on the same endpoint, and the remote core takes words at any time.

Calls may be of any bytes. A word that is written to a full FIFO is lost. `received_iff_along`: every word
is received, in order and once, if and only if each write that follows an interrupt's write after
its own last read of the fill finds room all the same.
-/

namespace V85x

open Firmware

/-- A call of `hal_msgbox_channel_send` under way: the words still to be written, whether the last read of
the fill allows the next write, and whether an interrupt's call wrote a word since that read. -/
structure FifoSend where
  words : List (BitVec 32)
  polled : Bool
  stale : Bool
deriving Repr, DecidableEq

/-- The FIFO, the calls under way (an interrupt's call before the one that it interrupted), and what happened
so far: the words written, the words that the remote core took, and the words written to a full FIFO. -/
structure Fifo where
  fifo : List (BitVec 32)
  sends : List FifoSend
  sent : List (BitVec 32)
  received : List (BitVec 32)
  lost : List (BitVec 32)
deriving Repr, DecidableEq

/-- `poll` and `write` are the two accesses of `msgbox_channel_send_data` for the innermost call. -/
inductive FifoAct
  | call (bf : List (BitVec 8))
  | poll
  | write
  | take
deriving Repr, DecidableEq

namespace Fifo

/-- A write to the message register. -/
def push (s : Fifo) (w : BitVec 32) : Fifo :=
  if s.fifo.length < msgboxMaxQueue then { s with fifo := s.fifo ++ [w], sent := s.sent ++ [w] }
  else { s with sent := s.sent ++ [w], lost := s.lost ++ [w] }

/-- One step. A call starts in the main code or, on top of one call of the main code, in the interrupt. -/
def exec (s : Fifo) : FifoAct → Option Fifo
  | .call bf =>
    if s.sends.length ≤ 1 then
      match halMsgboxChannelSend bf with
      | [] => some s
      | w :: words => some { s with sends := ⟨w :: words, false, false⟩ :: s.sends }
    else none
  | .poll =>
    match s.sends with
    | f :: rest =>
      some { s with sends := { f with polled := s.fifo.length ≠ msgboxMaxQueue, stale := false } :: rest }
    | [] => none
  | .write =>
    match s.sends with
    | ⟨w :: words, true, _⟩ :: rest =>
      let rest := rest.map fun f => { f with stale := true }
      match words with
      | [] => some { s.push w with sends := rest }
      | v :: words => some { s.push w with sends := ⟨v :: words, false, false⟩ :: rest }
    | _ => none
  | .take =>
    match s.fifo with
    | w :: fifo => some { s with fifo, received := s.received ++ [w] }
    | [] => none

def Step (s : Fifo) (act : FifoAct) (t : Fifo) : Prop := s.exec act = some t

/-- An empty FIFO and no call under way. -/
def Initial (s : Fifo) : Prop := s = ⟨[], [], [], [], []⟩

/-- No word was written to a full FIFO, and the words written are those that the remote core took and those
that it will find, in order. -/
def Ok (s : Fifo) : Prop := s.lost = [] ∧ s.received ++ s.fifo = s.sent

/-- A write whose call was overtaken by an interrupt's write since its last read of the fill finds room. -/
def Room (s : Fifo) : FifoAct → Prop
  | .write => ∀ f ∈ s.sends.head?, f.stale = true → s.fifo.length < msgboxMaxQueue
  | _ => True

instance (s : Fifo) : (act : FifoAct) → Decidable (s.Room act)
  | .write => inferInstanceAs (Decidable (∀ f ∈ s.sends.head?, _))
  | .call _ | .poll | .take => .isTrue trivial

/-- The fill that a call read is an upper bound until an interrupt's call writes. -/
structure Inv (s : Fifo) : Prop where
  fill : s.fifo.length ≤ msgboxMaxQueue
  polled : ∀ f ∈ s.sends, f.polled = true → f.stale = false → s.fifo.length < msgboxMaxQueue

variable {s t : Fifo} {act : FifoAct}

theorem Initial.inv (h : Initial s) : Inv s := by
  subst h
  exact ⟨Nat.zero_le _, by simp⟩

theorem Initial.ok (h : Initial s) : Ok s := by
  subst h
  exact ⟨rfl, rfl⟩

/-- What a write does. -/
theorem push_spec (h : Inv s) (w : BitVec 32) :
    (s.push w).fifo.length ≤ msgboxMaxQueue ∧ (s.push w).sends = s.sends ∧
      (Ok s → (Ok (s.push w) ↔ s.fifo.length < msgboxMaxQueue)) := by
  have hfill := h.fill
  by_cases hroom : s.fifo.length < msgboxMaxQueue
  · rw [push, if_pos hroom]
    refine ⟨by rw [List.length_append]; exact hroom, rfl, fun hok => iff_of_true ⟨hok.1, ?_⟩ hroom⟩
    simp [← hok.2]
  · rw [push, if_neg hroom]
    exact ⟨hfill, rfl, fun _ => iff_of_false (fun hok => by simp [Ok] at hok) hroom⟩

/-- What a step does. A write is one of the innermost call, and overtakes the others. -/
theorem exec_cases (hs : Step s act t) :
    (∃ bf, act = .call bf ∧ s.sends.length ≤ 1 ∧ (halMsgboxChannelSend bf = [] ∧ t = s ∨
      ∃ w words, halMsgboxChannelSend bf = w :: words ∧
        t = { s with sends := ⟨w :: words, false, false⟩ :: s.sends })) ∨
    (∃ f rest, act = .poll ∧ s.sends = f :: rest ∧ t = { s with
      sends := { f with polled := s.fifo.length ≠ msgboxMaxQueue, stale := false } :: rest }) ∨
    (∃ w words stale rest, act = .write ∧ s.sends = ⟨w :: words, true, stale⟩ :: rest ∧
      t = { s.push w with
        sends := (if words = [] then [] else [⟨words, false, false⟩]) ++
          rest.map (fun f => { f with stale := true }) }) ∨
    ∃ w fifo, act = .take ∧ s.fifo = w :: fifo ∧ t = { s with fifo, received := s.received ++ [w] } := by
  cases act with
  | call bf =>
    simp only [Step, exec] at hs
    split at hs
    · next hone =>
      split at hs
      · next hnil => exact .inl ⟨bf, rfl, hone, .inl ⟨hnil, (Option.some.inj hs).symm⟩⟩
      · next w words hcons => exact .inl ⟨bf, rfl, hone, .inr ⟨w, words, hcons, (Option.some.inj hs).symm⟩⟩
    · cases hs
  | poll =>
    simp only [Step, exec] at hs
    split at hs
    · next f rest hsends => exact .inr (.inl ⟨f, rest, rfl, hsends, (Option.some.inj hs).symm⟩)
    · cases hs
  | write =>
    simp only [Step, exec] at hs
    split at hs
    · next w words stale rest hsends =>
      refine .inr (.inr (.inl ⟨w, words, stale, rest, rfl, hsends, ?_⟩))
      cases words with
      | nil => simpa using hs.symm
      | cons v words => simpa using hs.symm
    · cases hs
  | take =>
    simp only [Step, exec] at hs
    split at hs
    · next w fifo hfifo => exact .inr (.inr (.inr ⟨w, fifo, rfl, hfifo, (Option.some.inj hs).symm⟩))
    · cases hs

theorem inv_step (h : Inv s) (hs : Step s act t) : Inv t := by
  obtain ⟨bf, rfl, -, ⟨-, rfl⟩ | ⟨w, words, -, rfl⟩⟩ | ⟨f, rest, rfl, hsends, rfl⟩ |
    ⟨w, words, stale, rest, rfl, hsends, rfl⟩ | ⟨w, fifo, rfl, hfifo, rfl⟩ := exec_cases hs
  · exact h
  · exact ⟨h.fill, List.forall_mem_cons.mpr ⟨by simp, h.polled⟩⟩
  · have hpolled := h.polled
    rw [hsends, List.forall_mem_cons] at hpolled
    refine ⟨h.fill, List.forall_mem_cons.mpr ⟨fun hne _ => ?_, hpolled.2⟩⟩
    exact Nat.lt_of_le_of_ne h.fill (by simpa using hne)
  · refine ⟨(push_spec h w).1, fun f hf hpolled hstale => ?_⟩
    -- the next word of the call has not been polled for, and the interrupted call is overtaken
    rcases List.mem_append.mp hf with hf | hf
    · split at hf
      · cases hf
      · obtain rfl := List.mem_singleton.mp hf
        cases hpolled
    · obtain ⟨f, -, rfl⟩ := List.mem_map.mp hf
      cases hstale
  · have hfill := h.fill
    have hpolled := h.polled
    simp only [hfifo, List.length_cons] at hfill hpolled
    exact ⟨Nat.le_of_succ_le hfill, fun f hf hp hst => Nat.lt_of_succ_lt (hpolled f hf hp hst)⟩

/-- A step loses a word if and only if it is the write of an overtaken call and finds no room. -/
theorem ok_step (h : Inv s) (hok : Ok s) (hs : Step s act t) : Ok t ↔ Room s act := by
  obtain ⟨bf, rfl, -, ⟨-, rfl⟩ | ⟨w, words, -, rfl⟩⟩ | ⟨f, rest, rfl, -, rfl⟩ |
    ⟨w, words, stale, rest, rfl, hsends, rfl⟩ | ⟨w, fifo, rfl, hfifo, rfl⟩ := exec_cases hs
  · exact iff_of_true hok trivial
  · exact iff_of_true hok trivial
  · exact iff_of_true hok trivial
  · refine ((push_spec h w).2.2 hok).trans ?_
    simp only [Room, hsends, List.head?_cons, Option.mem_some_iff, forall_eq']
    refine ⟨fun hroom _ => hroom, fun hroom => ?_⟩
    cases stale with
    | true => exact hroom rfl
    | false => exact h.polled _ (by rw [hsends]; exact List.mem_cons_self) rfl rfl
  · refine iff_of_true ⟨hok.1, ?_⟩ trivial
    rw [← hok.2, hfifo]
    simp

end Fifo

open Fifo

/-- In every interleaving, no word is written to a full FIFO and the words written are received in order, each
once, if and only if each write of a call that an interrupt's write overtook since its last read of the
fill finds room. -/
theorem received_iff_along {s : Fifo} {tr : List (FifoAct × Fifo)} (h0 : Initial s) (h : Run Step s tr) :
    (∀ p ∈ tr, Ok p.2) ↔ Along Room s tr :=
  Run.always_iff Inv Ok Room (fun _ _ _ hinv _ hst _ => inv_step hinv hst)
    (fun _ _ _ hinv hok hst => ok_step hinv hok hst) h h0.inv h0.ok

/-- An interrupt's notification between the read and the write of another one, with room for both. -/
theorem received_two : ∃ tr, Run Step ⟨[], [], [], [], []⟩ tr ∧
    tr.map (·.1) = [.call (bytesOf 0#32), .poll, .call (bytesOf 0#32), .poll, .write, .write, .take, .take] ∧
    ∀ p ∈ tr, Ok p.2 := by
  have htrace : ∃ tr, trace exec ⟨[], [], [], [], []⟩
      [.call (bytesOf 0#32), .poll, .call (bytesOf 0#32), .poll, .write, .write, .take, .take] = some tr ∧
      Along Room ⟨[], [], [], [], []⟩ tr := exists_trace (by decide)
  obtain ⟨tr, htr, hroom⟩ := htrace
  exact ⟨tr, run_of_trace htr, map_trace htr, (received_iff_along rfl (run_of_trace htr)).mpr hroom⟩

/-- Seven words are in the FIFO, and the remote core takes none: the interrupt's notification takes the last
place, and the interrupted one is lost. -/
theorem fifo_overrun : ∃ tr, Run Step ⟨[], [], [], [], []⟩ tr ∧
    tr.map (·.1) =
      ((List.replicate 7 [.call (bytesOf 0#32), .poll, .write]).flatten : List FifoAct) ++
      ([.call (bytesOf 0#32), .poll, .call (bytesOf 0#32), .poll, .write, .write] : List FifoAct) ∧
    (endOf ⟨[], [], [], [], []⟩ tr).fifo.length = msgboxMaxQueue ∧
    (endOf ⟨[], [], [], [], []⟩ tr).lost = [0#32] := by
  have htrace : ∃ tr, trace exec ⟨[], [], [], [], []⟩
      (((List.replicate 7 [.call (bytesOf 0#32), .poll, .write]).flatten : List FifoAct) ++
        ([.call (bytesOf 0#32), .poll, .call (bytesOf 0#32), .poll, .write, .write] : List FifoAct)) =
        some tr ∧
      (endOf ⟨[], [], [], [], []⟩ tr).fifo.length = msgboxMaxQueue ∧
      (endOf ⟨[], [], [], [], []⟩ tr).lost = [0#32] := exists_trace (by decide)
  obtain ⟨tr, htr, hfill, hlost⟩ := htrace
  exact ⟨tr, run_of_trace htr, map_trace htr, hfill, hlost⟩

end V85x
