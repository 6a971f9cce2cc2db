import Mathlib.Data.List.GetD
import V85xAmp.Mailbox.Basic

/-!
# Bytes on the mailbox (`arch/riscv/sun8i-v85x/sunxi_mailbox.c`)

`hal_msgbox_channel_send` collects four bytes in a word, the first byte lowest, and sends the word behind the
fourth byte and behind the last one. `Holds data pre`: the word has the bytes `pre`, and zeros behind them.
This is what the loop keeps (`flatMap_sendWords`).
-/

namespace V85x

open Firmware

/-! ## One word -/

section Word

variable {data : BitVec 32} {pre : List (BitVec 8)}

/-- Byte `k` of a word, the lowest one first. -/
def byteAt (w : BitVec 32) (k : Nat) : BitVec 8 := (w >>> (8 * k)).setWidth 8

/-- The bytes of the word are `pre` and zeros. -/
def Holds (data : BitVec 32) (pre : List (BitVec 8)) : Prop := ∀ k < 4, byteAt data k = pre.getD k 0#8

/-- A byte is set at its place. -/
theorem byteAt_or (data : BitVec 32) (b : BitVec 8) {r k : Nat} (hr : r < 4) (hk : k < 4) :
    byteAt (data ||| b.setWidth 32 <<< (r <<< 3)) k =
      if k = r then byteAt data k ||| b else byteAt data k := by
  have hshift : r <<< 3 = 8 * r := by
    rw [Nat.shiftLeft_eq]
    omega
  apply BitVec.eq_of_getLsbD_eq
  intro j hj
  have hlow : (byteAt (data ||| b.setWidth 32 <<< (8 * r)) k).getLsbD j =
      (data.getLsbD (8 * k + j) || (!decide (8 * k + j < 8 * r) && b.getLsbD (8 * k + j - 8 * r))) := by
    simp [byteAt, hj, show 8 * k + j < 32 by omega]
  rw [hshift, hlow]
  split
  · next heq =>
    subst heq
    simp [byteAt, hj, show ¬ 8 * k + j < 8 * k by omega]
  · next hne =>
    -- the byte lies above or below
    have hout : (!decide (8 * k + j < 8 * r) && b.getLsbD (8 * k + j - 8 * r)) = false := by
      rcases Nat.lt_or_ge k r with hlt | hge
      · simp [show 8 * k + j < 8 * r by omega]
      · simp [BitVec.getLsbD_of_ge b (8 * k + j - 8 * r) (by omega)]
    rw [hout, Bool.or_false]
    simp [byteAt, hj]

theorem holds_zero : Holds 0#32 [] := by
  intro k _
  simp [byteAt]

theorem Holds.push (h : Holds data pre) (hlen : pre.length < 4) (b : BitVec 8) :
    Holds (data ||| b.setWidth 32 <<< (pre.length <<< 3)) (pre ++ [b]) := by
  intro k hk
  rw [byteAt_or data b hlen hk, h k hk]
  rcases Nat.lt_trichotomy k pre.length with hlt | rfl | hgt
  · rw [if_neg (by omega), List.getD_append _ _ _ _ hlt]
  · simp
  · rw [if_neg (by omega), List.getD_eq_default _ _ (by omega), List.getD_eq_default]
    rw [List.length_append, List.length_singleton]
    omega

/-- What the receiver of the word sees. -/
theorem Holds.bytesOf (h : Holds data pre) (hlen : pre.length ≤ 4) :
    bytesOf data = pre ++ List.replicate (4 - pre.length) 0#8 := by
  apply List.ext_getElem
  · simp [V85x.bytesOf]
    omega
  · intro k hk hk'
    have hk4 : k < 4 := by simpa [V85x.bytesOf] using hk
    have hbyte : (V85x.bytesOf data)[k] = pre.getD k 0#8 := by
      rw [← h k hk4]
      simp [V85x.bytesOf, byteAt]
    apply hbyte.trans
    rcases Nat.lt_or_ge k pre.length with hlt | hge
    · rw [List.getElem_append_left hlt, List.getD_eq_getElem _ _ hlt]
    · rw [List.getElem_append_right hge, List.getElem_replicate, List.getD_eq_default _ _ hge]

end Word

/-! ## The loop -/

/-- The words of the bytes `rest`, when the word under way holds the bytes `pre`. -/
theorem flatMap_sendWords {len i : Nat} {data : BitVec 32} {pre rest : List (BitVec 8)}
    (hlen : i + rest.length = len) (hpre : pre.length = i % 4) (hdata : i % 4 ≠ 0 → Holds data pre)
    (hne : rest ≠ []) : ∃ pad < 4,
      (sendWords len i data rest).flatMap bytesOf = pre ++ rest ++ List.replicate pad 0#8 := by
  induction rest generalizing i data pre with
  | nil => exact absurd rfl hne
  | cons b rest ih =>
    obtain ⟨word, hword⟩ : ∃ word, word = (if i % 4 = 0 then 0#32 else data) := ⟨_, rfl⟩
    obtain ⟨next, hnext⟩ : ∃ next, next = word ||| b.setWidth 32 <<< ((i % 4) <<< 3) := ⟨_, rfl⟩
    have hholds : Holds word pre := by
      rw [hword]
      split
      · next hzero =>
        obtain rfl : pre = [] := List.eq_nil_of_length_eq_zero (by omega)
        exact holds_zero
      · next hzero => exact hdata hzero
    have hpush : Holds next (pre ++ [b]) := by
      rw [hnext, ← hpre]
      exact hholds.push (by omega) b
    have hlast : rest = [] ↔ i = len - 1 := by
      rw [← List.length_eq_zero_iff]
      rw [List.length_cons] at hlen
      omega
    have hlen' : i + 1 + rest.length = len := by
      rw [← hlen, List.length_cons]
      omega
    have hsize : (pre ++ [b]).length = i % 4 + 1 := by
      rw [List.length_append, hpre, List.length_singleton]
    rw [sendWords, ← hword, ← hnext]
    by_cases hrest : rest = []
    · -- the last byte
      rw [if_pos (.inr (hlast.mp hrest)), hrest, sendWords, List.flatMap_cons, List.flatMap_nil,
        List.append_nil, hpush.bytesOf (by omega)]
      exact ⟨_, by omega, rfl⟩
    · have hgo : ¬ i = len - 1 := fun h => hrest (hlast.mpr h)
      split
      · next hfull =>
        -- a full word, and the next byte begins a new one
        have hmod : i % 4 = 3 := hfull.resolve_right hgo
        have hstart : ([] : List (BitVec 8)).length = (i + 1) % 4 := by
          rw [List.length_nil]
          omega
        obtain ⟨pad, hpad, hih⟩ := ih hlen' hstart (fun h => absurd hstart.symm h) hrest
        refine ⟨pad, hpad, ?_⟩
        rw [List.flatMap_cons, hih, hpush.bytesOf (by omega), show 4 - (pre ++ [b]).length = 0 by omega]
        simp
      · next hfull =>
        obtain ⟨pad, hpad, hih⟩ := ih hlen' (show (pre ++ [b]).length = (i + 1) % 4 by omega)
          (fun _ => hpush) hrest
        refine ⟨pad, hpad, ?_⟩
        rw [hih]
        simp

theorem length_flatMap_bytesOf (ws : List (BitVec 32)) : (ws.flatMap bytesOf).length = 4 * ws.length := by
  induction ws with
  | nil => rfl
  | cons w ws ih =>
    rw [List.flatMap_cons, List.length_append, ih, List.length_cons, bytesOf, List.length_map,
      List.length_range]
    omega

/-- The words that a call sends have its bytes, and fewer than four zeros behind them. -/
theorem flatMap_halMsgboxChannelSend (s : List (BitVec 8)) : ∃ pad < 4,
    (halMsgboxChannelSend s).flatMap bytesOf = s ++ List.replicate pad 0#8 := by
  by_cases hs : s = []
  · exact ⟨0, by decide, by rw [hs]; rfl⟩
  · have hstart : ([] : List (BitVec 8)).length = 0 % 4 := rfl
    simpa [halMsgboxChannelSend] using
      flatMap_sendWords (Nat.zero_add s.length) hstart (fun h => absurd rfl h) hs

/-! ## The register -/

/-- The message register of a channel: how often the sender has read the fill, and the words that it wrote. -/
structure TxPort where
  polls : Nat
  written : List (BitVec 32)
deriving Repr, DecidableEq

/-- `msgbox_channel_send_data`, where read `n` of the status register gives `fill n`. -/
def msgboxChannelSendData (fill : Nat → BitVec 32) (data : BitVec 32) (port : TxPort) : Comp TxPort :=
  Comp.loop (fun port =>
    if fill port.polls = BitVec.ofNat 32 msgboxMaxQueue then
      pure (.inl { port with polls := port.polls + 1 })
    else pure (.inr ⟨port.polls + 1, port.written ++ [data]⟩)) port

/-- The calls of `msgbox_channel_send_data` for some words. -/
def sendAll (fill : Nat → BitVec 32) : List (BitVec 32) → TxPort → Comp TxPort
  | [], port => pure port
  | w :: ws, port => do
    let port ← msgboxChannelSendData fill w port
    sendAll fill ws port

/-- The queue is not full for good. -/
def Drains (fill : Nat → BitVec 32) : Prop := ∀ n, ∃ k, fill (n + k) ≠ BitVec.ofNat 32 msgboxMaxQueue

theorem msgboxChannelSendData_spec {fill : Nat → BitVec 32} (hfill : Drains fill) (data : BitVec 32)
    (port : TxPort) :
    (msgboxChannelSendData fill data port).Ends fun port' => port'.written = port.written ++ [data] := by
  obtain ⟨k, hk⟩ := hfill port.polls
  -- the ghost state counts the reads until there is room
  refine Comp.loop_ends
    (fun (g : Nat) (p : TxPort) => p.polls + g = port.polls + k ∧ p.written = port.written)
    (fun g => g) ?_ k port ⟨rfl, rfl⟩
  rintro g ⟨polls, written⟩ ⟨hpolls, rfl⟩
  dsimp only at hpolls ⊢
  split
  · next hfull =>
    refine Comp.ends_pure.mpr ⟨g - 1, ?_⟩
    have hpos : g ≠ 0 := by
      rintro rfl
      rw [Nat.add_zero] at hpolls
      exact hk (hpolls ▸ hfull)
    exact ⟨by omega, by dsimp only; omega, rfl⟩
  · exact Comp.ends_pure.mpr rfl

theorem sendAll_spec {fill : Nat → BitVec 32} (hfill : Drains fill) (ws : List (BitVec 32))
    (port : TxPort) : (sendAll fill ws port).Ends fun port' => port'.written = port.written ++ ws := by
  induction ws generalizing port with
  | nil => exact Comp.ends_pure.mpr (List.append_nil _).symm
  | cons w ws ih =>
    refine Comp.ends_bind.mpr ((msgboxChannelSendData_spec hfill w port).mono fun port' hw => ?_)
    refine (ih port').mono fun port'' hws => ?_
    rw [hws, hw, List.append_assoc, List.singleton_append]

/-! ## What the receiver gets -/

/-- A call sends one word for each four bytes begun. The bytes of the words, up to the length of the string,
are the string, and what is behind them is zero; the empty string sends nothing. As long as the queue does not
stay full, the words are written in this order, once each, and nothing else is. -/
theorem send_lossless (s : List (BitVec 8)) :
    (halMsgboxChannelSend s).length = (s.length + 3) / 4 ∧
    ((halMsgboxChannelSend s).flatMap bytesOf).take s.length = s ∧
    (∀ b ∈ ((halMsgboxChannelSend s).flatMap bytesOf).drop s.length, b = 0#8) ∧
    (s = [] → halMsgboxChannelSend s = []) ∧
    ∀ fill port, Drains fill → (sendAll fill (halMsgboxChannelSend s) port).Ends fun port' =>
      port'.written = port.written ++ halMsgboxChannelSend s := by
  obtain ⟨pad, hpad, hbytes⟩ := flatMap_halMsgboxChannelSend s
  have hlength : 4 * (halMsgboxChannelSend s).length = s.length + pad := by
    rw [← length_flatMap_bytesOf, hbytes, List.length_append, List.length_replicate]
  refine ⟨by omega, ?_, fun b hb => ?_, ?_, fun fill port hfill => sendAll_spec hfill _ port⟩
  · rw [hbytes, List.take_left]
  · rw [hbytes, List.drop_left] at hb
    exact List.eq_of_mem_replicate hb
  · rintro rfl
    rfl

/-- Five bytes, through a queue that is full at the first three reads of the status register. -/
theorem send_lossless_full :
    (sendAll (fun n => if n < 3 then 8#32 else 2#32) (halMsgboxChannelSend [1#8, 2#8, 3#8, 4#8, 5#8])
      ⟨0, []⟩).Ends fun port => port.written = [0x04030201#32, 5#32] := by
  have hdrains : Drains fun n => if n < 3 then 8#32 else 2#32 := fun n =>
    ⟨3, by simp [show ¬ n + 3 < 3 by omega, msgboxMaxQueue]⟩
  exact (send_lossless [1#8, 2#8, 3#8, 4#8, 5#8]).2.2.2.2 _ _ hdrains

end V85x
