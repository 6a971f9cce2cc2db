import V85xAmp.Lib.Lists
import V85xAmp.Lib.Run
import V85xAmp.Utils.RingBuffer

/-!
# The console's receive side (`arch/riscv/sun8i-v85x/sunxi_usart.c`)

The interrupt handler puts each received byte into a ring of `USART_RX_BUFFER_SIZE` bytes, and
`sunxi_usart_getbyte` takes them out. On an empty ring `ringbuffer_get` leaves the local variable `ans`
as it is, and nothing but `ans` is returned: what a call of the model finds in it is a parameter.

`delivered_iff_along` follows a run of receptions and calls. The bytes that calls take from the ring are
always a subsequence of the received ones; the result tells a caller which calls these were exactly as
long as no call comes on an empty ring.
-/

namespace V85x

open Firmware

def usartRxBufferSize : Nat := 256

/-- `sunxi_uart_irq_handler`, with the word that it reads from the data register. -/
def sunxiUartIrqHandler (val : BitVec 32) (rb : RingBuffer) : Option RingBuffer :=
  (ringbufferPut rb (val.setWidth 8)).map (·.2)

/-- `sunxi_usart_data_in_receive_buffer` -/
def sunxiUsartDataInReceiveBuffer (rb : RingBuffer) : BitVec 16 := (ringbufferNum rb).setWidth 16

/-- `sunxi_usart_getbyte`: the result and the ring. `ans` is what the uninitialised variable holds. -/
def sunxiUsartGetbyte (ans : Byte) (rb : RingBuffer) : Option (Byte × RingBuffer) :=
  (ringbufferGet rb ans).map fun (_, ans, rb) => (ans, rb)

/-- The ring, the bytes received so far, and the results of the calls of `sunxi_usart_getbyte`, each with
whether the ring held a byte. -/
structure Console where
  rb : RingBuffer
  received : List Byte
  results : List (Bool × Byte)
deriving Repr, DecidableEq

inductive ConsoleAct
  | receive (val : BitVec 32)
  | getbyte (ans : Byte)
deriving Repr, DecidableEq

namespace Console

def exec (s : Console) : ConsoleAct → Option Console
  | .receive val => (sunxiUartIrqHandler val s.rb).map fun rb =>
      { s with rb, received := s.received ++ [val.setWidth 8] }
  | .getbyte ans => (sunxiUsartGetbyte ans s.rb).map fun (b, rb) =>
      { s with rb, results := s.results ++ [(decide (ringbufferNum s.rb ≠ 0#32), b)] }

def Step (s : Console) (act : ConsoleAct) (t : Console) : Prop := s.exec act = some t

/-- The ring as `sunxi_usart_init` leaves it. -/
def Initial (s : Console) : Prop :=
  ∃ rb₀ buf, buf.size = usartRxBufferSize ∧
    s = ⟨(ringbufferInit rb₀ buf (BitVec.ofNat 32 usartRxBufferSize)).2, [], []⟩

/-- The bytes that calls took from the ring. -/
def delivered (s : Console) : List Byte := (s.results.filter (·.1)).map (·.2)

/-- No call on an empty ring had the result of a call that returns a received byte. -/
def Distinguishable (s : Console) : Prop :=
  ∀ b, (false, b) ∈ s.results → ∀ t, Reachable Step Initial t → (true, b) ∉ t.results

/-- A call finds a byte in the ring. -/
def NonEmpty (s : Console) : ConsoleAct → Prop
  | .receive _ => True
  | .getbyte _ => sunxiUsartDataInReceiveBuffer s.rb ≠ 0#16

instance (s : Console) : (act : ConsoleAct) → Decidable (s.NonEmpty act)
  | .receive _ => .isTrue trivial
  | .getbyte _ => inferInstanceAs (Decidable (_ ≠ _))

/-- The ring holds the received bytes from number `lo` on, and the delivered ones came before them. -/
def Inv (s : Console) : Prop :=
  ∃ lo, Represents 8 s.rb s.received lo ∧ s.delivered.Sublist (s.received.take lo)

variable {s t : Console} {act : ConsoleAct}

theorem Initial.inv (h : Initial s) : Inv s := by
  obtain ⟨rb₀, buf, hbuf, rfl⟩ := h
  exact ⟨0, (represents_init (k := 8) rb₀ buf (by decide) hbuf).2, List.nil_sublist _⟩

/-- `sunxi_usart_data_in_receive_buffer` is the number of bytes in the ring. -/
theorem dataInReceiveBuffer_eq {log : List Byte} {lo : Nat} {rb : RingBuffer} (h : Represents 8 rb log lo) :
    (sunxiUsartDataInReceiveBuffer rb ≠ 0#16 ↔ lo < log.length) ∧
      (ringbufferNum rb ≠ 0#32 ↔ lo < log.length) := by
  have hlo := h.lo_le
  have hle := h.le_lo
  have hnum := h.num (by decide)
  constructor
  · rw [Ne, ← BitVec.toNat_inj, sunxiUsartDataInReceiveBuffer, BitVec.toNat_setWidth, hnum, BitVec.toNat_zero,
      Nat.mod_eq_of_lt (by omega)]
    omega
  · rw [Ne, ← BitVec.toNat_inj, hnum, BitVec.toNat_zero]
    omega

/-- What a reception does. -/
theorem receive_spec (h : Inv s) (val : BitVec 32) :
    ∃ t, Step s (.receive val) t ∧ Inv t ∧ t.results = s.results := by
  obtain ⟨lo, hrep, hdel⟩ := h
  have hlo := hrep.lo_le
  obtain ⟨rb, hput, hrep'⟩ := ringbufferPut_represents hrep (by decide) (val.setWidth 8)
  refine ⟨{ s with rb, received := s.received ++ [val.setWidth 8] }, ?_, ⟨_, hrep', ?_⟩, rfl⟩
  · simp [Step, exec, sunxiUartIrqHandler, hput]
  · exact hdel.trans (take_sublist_snoc hlo (by split <;> omega))

/-- What a call does: with a byte in the ring it takes the oldest one, and otherwise it returns whatever
`ans` holds. -/
theorem getbyte_spec (h : Inv s) (ans : Byte) :
    ∃ t b, Step s (.getbyte ans) t ∧ Inv t ∧
      t.results = s.results ++ [(decide (s.NonEmpty (.getbyte ans)), b)] ∧
      (¬ s.NonEmpty (.getbyte ans) → b = ans) := by
  obtain ⟨lo, hrep, hdel⟩ := h
  have hlo := hrep.lo_le
  obtain ⟨hin, hnum⟩ := dataInReceiveBuffer_eq hrep
  by_cases hlt : lo < s.received.length
  · obtain ⟨rb, hget, hrep'⟩ := ringbufferGet_represents hrep (by decide) ans hlt
    have hne : s.NonEmpty (.getbyte ans) := hin.mpr hlt
    refine ⟨{ s with rb, results := s.results ++ [(true, s.received[lo])] }, s.received[lo], ?_,
      ⟨_, hrep', ?_⟩, by simp [hne], fun hemp => absurd hne hemp⟩
    · simp [Step, exec, sunxiUsartGetbyte, hget, hnum.mpr hlt]
    · have happ := hdel.append (List.Sublist.refl [s.received[lo]])
      rw [← List.take_succ_eq_append_getElem hlt] at happ
      simpa [delivered] using happ
  · obtain rfl : lo = s.received.length := by omega
    have hne : ¬ s.NonEmpty (.getbyte ans) := fun hne => hlt (hin.mp hne)
    refine ⟨{ s with results := s.results ++ [(false, ans)] }, ans, ?_, ⟨_, hrep, ?_⟩, by simp [hne],
      fun _ => rfl⟩
    · have hzero : ringbufferNum s.rb = 0#32 := not_not.mp fun hz => hlt (hnum.mp hz)
      simp [Step, exec, sunxiUsartGetbyte, ringbufferGet_of_empty hrep, hzero]
    · simpa [delivered] using hdel

theorem inv_step (h : Inv s) (hs : Step s act t) : Inv t := by
  cases act with
  | receive val =>
    obtain ⟨u, hu, hinv, -⟩ := receive_spec h val
    obtain rfl := Option.some.inj (hu.symm.trans hs)
    exact hinv
  | getbyte ans =>
    obtain ⟨u, b, hu, hinv, -⟩ := getbyte_spec h ans
    obtain rfl := Option.some.inj (hu.symm.trans hs)
    exact hinv

/-- A console with a zeroed buffer. -/
def boot : Console :=
  ⟨(ringbufferInit ⟨#[], 0#32, 0#32, 0#32⟩ (Array.replicate usartRxBufferSize 0#8)
    (BitVec.ofNat 32 usartRxBufferSize)).2, [], []⟩

theorem boot_initial : Initial boot := ⟨_, _, Array.size_replicate, rfl⟩

/-- Every byte can be received and returned. -/
theorem exists_delivered (b : Byte) : ∃ t, Reachable Step Initial t ∧ (true, b) ∈ t.results := by
  have hrep := (represents_init (k := 8) ⟨#[], 0#32, 0#32, 0#32⟩ (Array.replicate usartRxBufferSize 0#8)
    (by decide) Array.size_replicate).2
  obtain ⟨rb₁, hput, hrep₁⟩ := ringbufferPut_represents hrep (by decide) b
  obtain ⟨rb₂, hget, -⟩ := ringbufferGet_represents hrep₁ (by decide) 0#8 (by simp)
  have hnum := (dataInReceiveBuffer_eq hrep₁).2.mpr (by simp)
  have hreceive : Step boot (.receive (b.setWidth 32)) ⟨rb₁, [b], []⟩ := by
    have hb : (b.setWidth 32).setWidth 8 = b := by simp
    have hrb : ringbufferPut boot.rb b = some (0, rb₁) := hput
    simp only [Step, exec, sunxiUartIrqHandler, hb, hrb]
    rfl
  have hgetbyte : Step ⟨rb₁, [b], []⟩ (.getbyte 0#8) ⟨rb₂, [b], [(true, b)]⟩ := by
    simp [Step, exec, sunxiUsartGetbyte, hget, hnum]
  exact ⟨_, ((Reachable.init boot_initial).step hreceive).step hgetbyte, by simp⟩

/-- A step keeps the calls on empty rings apart from the others if and only if it is none. -/
theorem distinguishable_step (h : Inv s) (hd : s.Distinguishable) (hs : Step s act t) :
    t.Distinguishable ↔ s.NonEmpty act := by
  cases act with
  | receive val =>
    obtain ⟨u, hu, -, hres⟩ := receive_spec h val
    obtain rfl := Option.some.inj (hu.symm.trans hs)
    refine iff_of_true ?_ trivial
    rw [Distinguishable, hres]
    exact hd
  | getbyte ans =>
    obtain ⟨u, b, hu, -, hres, hans⟩ := getbyte_spec h ans
    obtain rfl := Option.some.inj (hu.symm.trans hs)
    rw [Distinguishable, hres]
    constructor
    · intro hdist
      by_contra hemp
      obtain ⟨t, ht, hmem⟩ := exists_delivered ans
      exact hdist ans (by simp [hemp, hans hemp]) t ht hmem
    · intro hne c hc
      exact hd c (by simpa [hne] using hc)

end Console

open Console

/-- In every run, the bytes that calls take from the ring are a subsequence of the received bytes, none of
them twice; and the results tell these calls from those on an empty ring if and only if there are none
of the latter. -/
theorem delivered_iff_along {s : Console} {tr : List (ConsoleAct × Console)} (h0 : Initial s)
    (h : Run Step s tr) :
    (∀ p ∈ tr, p.2.delivered.Sublist p.2.received) ∧
      ((∀ p ∈ tr, p.2.Distinguishable) ↔ Along NonEmpty s tr) := by
  constructor
  · intro p hp
    obtain ⟨lo, -, hdel⟩ := h.invariant (fun _ _ _ hinv hst => inv_step hinv hst) h0.inv p hp
    exact hdel.trans (List.take_sublist _ _)
  · refine Run.always_iff Inv Distinguishable NonEmpty (fun _ _ _ hinv _ hst _ => inv_step hinv hst)
      (fun _ _ _ hinv hd hst => distinguishable_step hinv hd hst) h h0.inv ?_
    obtain ⟨rb₀, buf, -, rfl⟩ := h0
    simp [Distinguishable]

set_option maxRecDepth 4000 in
/-- Two bytes received and taken out. -/
theorem delivered_two : ∃ tr, Run Step boot tr ∧
    tr.map (·.1) = [.receive 0x161#32, .receive 0x62#32, .getbyte 7#8, .getbyte 7#8] ∧
    ∀ p ∈ tr, p.2.Distinguishable := by
  have htrace : ∃ tr, trace exec boot
      [.receive 0x161#32, .receive 0x62#32, .getbyte 7#8, .getbyte 7#8] = some tr ∧
      Along NonEmpty boot tr := ⟨_, rfl, by decide⟩
  obtain ⟨tr, htr, hne⟩ := htrace
  exact ⟨tr, run_of_trace htr, map_trace htr, (delivered_iff_along boot_initial (run_of_trace htr)).2.mpr hne⟩

set_option maxRecDepth 4000 in
/-- A call on the empty ring returns what `ans` held, here the same byte as the call before it. -/
theorem empty_indistinguishable : ∃ tr, Run Step boot tr ∧
    tr.map (·.1) = [.receive 0x61#32, .getbyte 7#8, .getbyte 0x61#8] ∧
    (endOf boot tr).results = [(true, 0x61#8), (false, 0x61#8)] ∧ ¬ (endOf boot tr).Distinguishable := by
  have htrace : ∃ tr, trace exec boot [.receive 0x61#32, .getbyte 7#8, .getbyte 0x61#8] = some tr ∧
      (endOf boot tr).results = [(true, 0x61#8), (false, 0x61#8)] := ⟨_, rfl, rfl⟩
  obtain ⟨tr, htr, hres⟩ := htrace
  refine ⟨tr, run_of_trace htr, map_trace htr, hres, fun hdist => ?_⟩
  obtain ⟨t, ht, hmem⟩ := exists_delivered 0x61#8
  exact hdist 0x61#8 (by rw [hres]; simp) t ht hmem

end V85x
