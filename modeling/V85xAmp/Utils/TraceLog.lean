import Mathlib.Data.List.Induction
import V85xAmp.Lib.CString
import V85xAmp.Lib.Run
import V85xAmp.Utils.Debug

/-!
# The trace log (`_putchar` of `utils/debug.c`, `log_trace_buffer`)

`_putchar` accesses `offset` three times: it tests it and resets it at the end of the log, it stores the
character there, and it stores a NUL behind the character and increments it. `accessAll_putchar` puts the
accesses together to the function. An index from `logTraceBufferSize` on is outside the log.

* Without preemption the log is a string after each character, of the last ones (`traceLog_latest`). The
  test resets `offset` one before the end, so that `offset` goes round `logTraceBufferSize - 1` positions.
* The mailbox ISR prints as well. Its calls between the test of the main program and the last store can
  move `offset` to the last position, and then the NUL goes behind the log (`tracing_inBounds_iff`).
-/

namespace V85x

open Firmware

/-! ## The source -/

/-- The log, and the indices of `log_trace_buffer` stored to so far. -/
structure TraceAccesses where
  log : TraceLog
  stores : List Nat

/-- The accesses of `_putchar` to `offset`. -/
inductive PutcharAccess
  | test
  | storeChar (c : Byte)
  | storeNul
deriving Repr, DecidableEq

def PutcharAccess.exec (t : TraceAccesses) : PutcharAccess → TraceAccesses
  | .test => { t with log := { t.log with
      offset := if logTraceBufferSize ≤ t.log.offset + 1 then 0 else t.log.offset } }
  | .storeChar c =>
    { log := { t.log with buffer := Function.update t.log.buffer t.log.offset c }
      stores := t.stores ++ [t.log.offset] }
  | .storeNul =>
    { log := ⟨t.log.offset + 1, Function.update t.log.buffer (t.log.offset + 1) 0#8⟩
      stores := t.stores ++ [t.log.offset + 1] }

def putcharAccesses (c : Byte) : List PutcharAccess := [.test, .storeChar c, .storeNul]

def accessAll (as : List PutcharAccess) (t : TraceAccesses) : TraceAccesses :=
  as.foldl PutcharAccess.exec t

/-- The log at boot. -/
def bootLog : TraceLog := ⟨0, fun _ => 0#8⟩

/-- The offset after the test. -/
def resetOffset (offset : Nat) : Nat := if logTraceBufferSize ≤ offset + 1 then 0 else offset

/-- The accesses of `_putchar` make up the function. -/
theorem accessAll_putchar (c : Byte) (t : TraceAccesses) : accessAll (putcharAccesses c) t =
    { log := putchar c t.log
      stores := t.stores ++ [resetOffset t.log.offset, resetOffset t.log.offset + 1] } := by
  simp [accessAll, putcharAccesses, PutcharAccess.exec, putchar, resetOffset]

theorem resetOffset_add_one_lt (offset : Nat) : resetOffset offset + 1 < logTraceBufferSize := by
  rw [resetOffset]
  split
  · decide
  · omega

/-! ## Without preemption -/

/-- The offset after `n` characters, which is the number of those that the log still has. -/
def shown : Nat → Nat
  | 0 => 0
  | n + 1 => n % (logTraceBufferSize - 1) + 1

theorem resetOffset_shown (n : Nat) : resetOffset (shown n) = n % (logTraceBufferSize - 1) := by
  cases n with
  | zero => rfl
  | succ n =>
    have hsize : logTraceBufferSize = 2048 := rfl
    have hcycle : logTraceBufferSize - 1 = 2047 := rfl
    rw [resetOffset, shown, hcycle]
    split <;> omega

theorem resetOffset_eq (offset : Nat) : resetOffset offset = 0 ∨ resetOffset offset = offset := by
  rw [resetOffset]
  split
  · exact .inl rfl
  · exact .inr rfl

/-- The log after the characters `chars`. -/
structure ShowsLatest (log : TraceLog) (chars : List Byte) : Prop where
  offset : log.offset = shown chars.length
  string : IsCString log.buffer (chars.drop (chars.length - shown chars.length))

theorem showsLatest_boot : ShowsLatest bootLog [] :=
  ⟨rfl, fun i hi => absurd hi (Nat.not_lt_zero i), rfl, List.not_mem_nil⟩

/-- The bytes in front of the place where the next character goes. -/
theorem ShowsLatest.kept {log : TraceLog} {chars : List Byte} (h : ShowsLatest log chars) :
    (∀ i (hi : i < (chars.drop (chars.length - resetOffset log.offset)).length),
      log.buffer i = (chars.drop (chars.length - resetOffset log.offset))[i]) ∧
      0#8 ∉ chars.drop (chars.length - resetOffset log.offset) := by
  rcases resetOffset_eq log.offset with h0 | hsame
  · rw [h0, Nat.sub_zero, List.drop_length]
    exact ⟨fun i hi => absurd hi (Nat.not_lt_zero i), List.not_mem_nil⟩
  · rw [hsame, h.offset]
    exact ⟨h.string.get, h.string.notMem⟩

theorem ShowsLatest.putchar {log : TraceLog} {chars : List Byte} {c : Byte} (h : ShowsLatest log chars)
    (hc : c ≠ 0#8) : ShowsLatest (putchar c log) (chars ++ [c]) := by
  obtain ⟨hget, hnot⟩ := h.kept
  have hreset : resetOffset log.offset = chars.length % (logTraceBufferSize - 1) := by
    rw [h.offset, resetOffset_shown]
  have hle : resetOffset log.offset ≤ chars.length := by
    rw [hreset]
    exact Nat.mod_le _ _
  have hshown : shown (chars ++ [c]).length = resetOffset log.offset + 1 := by
    rw [List.length_append, List.length_singleton, shown, hreset]
  refine ⟨hshown.symm, ?_⟩
  have hstring := isCString_snoc hget hnot hc
  rw [List.length_drop, Nat.sub_sub_self hle] at hstring
  rw [hshown, List.length_append, List.length_singleton, Nat.add_sub_add_right,
    List.drop_append_of_le_length (Nat.sub_le _ _)]
  exact hstring

/-- Calls of `_putchar` one after the other. -/
theorem accessAll_putchars (chars : List Byte) (hnul : 0#8 ∉ chars) :
    ∃ t, accessAll (chars.flatMap putcharAccesses) ⟨bootLog, []⟩ = t ∧ ShowsLatest t.log chars ∧
      ∀ i ∈ t.stores, i < logTraceBufferSize := by
  induction chars using List.reverseRecOn with
  | nil => exact ⟨_, rfl, showsLatest_boot, fun i hi => absurd hi List.not_mem_nil⟩
  | append_singleton chars c ih =>
    obtain ⟨t, ht, hlog, hstores⟩ := ih fun h0 => hnul (by simp [h0])
    have hlt := resetOffset_add_one_lt t.log.offset
    refine ⟨_, rfl, ?_⟩
    rw [List.flatMap_append, List.flatMap_singleton, accessAll, List.foldl_append]
    rw [accessAll] at ht
    rw [ht, ← accessAll, accessAll_putchar]
    refine ⟨hlog.putchar fun h0 => hnul (by simp [h0]), fun i hi => ?_⟩
    rcases List.mem_append.mp hi with hi | hi
    · exact hstores i hi
    · rcases List.mem_pair.mp hi with rfl | rfl <;> omega

/-- From boot, after calls of `_putchar` with characters other than NUL: all stores are inside the log, and
the string in it is the last `(k - 1) % (logTraceBufferSize - 1) + 1` of the `k` characters. -/
theorem traceLog_latest (chars : List Byte) (hne : chars ≠ []) (hnul : 0#8 ∉ chars) :
    (∀ i ∈ (accessAll (chars.flatMap putcharAccesses) ⟨bootLog, []⟩).stores, i < logTraceBufferSize) ∧
      IsCString (accessAll (chars.flatMap putcharAccesses) ⟨bootLog, []⟩).log.buffer
        (chars.drop (chars.length - ((chars.length - 1) % (logTraceBufferSize - 1) + 1))) := by
  obtain ⟨t, ht, hlog, hstores⟩ := accessAll_putchars chars hnul
  rw [ht]
  obtain ⟨n, hn⟩ := Nat.exists_eq_succ_of_ne_zero (mt List.length_eq_zero_iff.mp hne)
  have hstring := hlog.string
  rw [hn, shown] at hstring
  rw [hn]
  exact ⟨hstores, hstring⟩

/-- The first character of the second round stands alone. -/
theorem traceLog_latest_2048 :
    ∃ chars : List Byte, chars.length = 2048 ∧
      (∀ i ∈ (accessAll (chars.flatMap putcharAccesses) ⟨bootLog, []⟩).stores, i < logTraceBufferSize) ∧
      IsCString (accessAll (chars.flatMap putcharAccesses) ⟨bootLog, []⟩).log.buffer [46#8] := by
  obtain ⟨chars, hchars⟩ : ∃ chars : List Byte, chars = List.replicate 2048 46#8 := ⟨_, rfl⟩
  have hlen : chars.length = 2048 := by rw [hchars, List.length_replicate]
  have hlast : chars.drop 2047 = [46#8] := by rw [hchars, List.drop_replicate, List.replicate_one]
  obtain ⟨hstores, hstring⟩ := traceLog_latest chars (List.ne_nil_of_length_pos (by omega))
    (fun h => absurd (List.eq_of_mem_replicate (hchars ▸ h)) (by decide))
  rw [hlen] at hstring
  exact ⟨chars, hlen, hstores, hlast ▸ hstring⟩

/-! ## With the ISR -/

/-- Where the main program is in `_putchar`. -/
inductive PutcharAt
  | outside
  | tested (c : Byte)
  | stored
deriving Repr, DecidableEq

/-- `finished` is the number of the calls that have ended. `preempted` says that the ISR made one since the
test of the main program. -/
structure Tracing where
  acc : TraceAccesses
  main : PutcharAt
  finished : Nat
  preempted : Bool

/-- The next access of the main program, or a whole call of the ISR. -/
inductive TraceAction
  | test (c : Byte)
  | storeChar
  | storeNul
  | isr (c : Byte)
deriving Repr, DecidableEq

def Tracing.exec (s : Tracing) : TraceAction → Option Tracing
  | .test c =>
    match s.main with
    | .outside =>
      some { s with acc := PutcharAccess.exec s.acc .test, main := .tested c, preempted := false }
    | _ => none
  | .storeChar =>
    match s.main with
    | .tested c => some { s with acc := PutcharAccess.exec s.acc (.storeChar c), main := .stored }
    | _ => none
  | .storeNul =>
    match s.main with
    | .stored =>
      some { s with
        acc := PutcharAccess.exec s.acc .storeNul, main := .outside, finished := s.finished + 1 }
    | _ => none
  | .isr c =>
    some { s with
      acc := accessAll (putcharAccesses c) s.acc, finished := s.finished + 1, preempted := true }

def bootTracing : Tracing := ⟨⟨bootLog, []⟩, .outside, 0, false⟩

/-- All stores so far are inside the log. -/
def Tracing.InBounds (s : Tracing) : Prop := ∀ i ∈ s.acc.stores, i < logTraceBufferSize

/-- The last store of the main program does not come at the end of a round, after calls of the ISR. -/
def NulFits (s : Tracing) (a : TraceAction) : Prop :=
  a = .storeNul → s.preempted = true → ¬ logTraceBufferSize - 1 ∣ s.finished

instance (s : Tracing) (a : TraceAction) : Decidable (NulFits s a) :=
  inferInstanceAs (Decidable (_ → _ → _))

/-- A whole call takes `offset` to the number of the characters shown; the test of the main program leaves
it where the next one goes. -/
inductive Tracing.Inv (s : Tracing) : Prop
  | outside : s.main = .outside → s.acc.log.offset = shown s.finished → s.Inv
  | tested : s.main ≠ .outside → s.preempted = false →
    s.acc.log.offset = resetOffset (shown s.finished) → s.Inv
  | preempted : s.preempted = true → 0 < s.finished → s.acc.log.offset = shown s.finished → s.Inv

theorem shown_succ (n : Nat) : shown (n + 1) = resetOffset (shown n) + 1 := by
  rw [resetOffset_shown, shown]

theorem shown_lt (n : Nat) : shown n < logTraceBufferSize := by
  cases n with
  | zero => decide
  | succ n =>
    rw [shown_succ]
    exact resetOffset_add_one_lt _

theorem shown_add_one_lt_iff {n : Nat} (h : 0 < n) :
    shown n + 1 < logTraceBufferSize ↔ ¬ logTraceBufferSize - 1 ∣ n := by
  have hsize : logTraceBufferSize = 2048 := rfl
  have hcycle : logTraceBufferSize - 1 = 2047 := rfl
  obtain ⟨n, rfl⟩ := Nat.exists_eq_add_one_of_ne_zero h.ne'
  rw [shown, hcycle, Nat.dvd_iff_mod_eq_zero]
  omega

theorem resetOffset_reset (offset : Nat) : resetOffset (resetOffset offset) = resetOffset offset :=
  if_neg (Nat.not_le.mpr (resetOffset_add_one_lt offset))

theorem Tracing.Inv.offset_lt {s : Tracing} (h : s.Inv) : s.acc.log.offset < logTraceBufferSize := by
  cases h with
  | outside _ h => exact h ▸ shown_lt _
  | tested _ _ h => exact h ▸ Nat.lt_of_succ_lt (resetOffset_add_one_lt _)
  | preempted _ _ h => exact h ▸ shown_lt _

theorem Tracing.Inv.reset {s : Tracing} (h : s.Inv) :
    resetOffset s.acc.log.offset + 1 = shown (s.finished + 1) := by
  rw [shown_succ]
  cases h with
  | outside _ h => rw [h]
  | tested _ _ h => rw [h, resetOffset_reset]
  | preempted _ _ h => rw [h]

/-- The NUL of the main program. -/
theorem Tracing.Inv.nul {s : Tracing} (h : s.Inv) (hmain : s.main = .stored) :
    (s.acc.log.offset + 1 < logTraceBufferSize ↔ NulFits s .storeNul) ∧
      (NulFits s .storeNul → s.acc.log.offset + 1 = shown (s.finished + 1)) := by
  cases h with
  | outside hout _ =>
    rw [hmain] at hout
    cases hout
  | tested _ hpre h =>
    have hfits : NulFits s .storeNul := fun _ ht => by
      rw [hpre] at ht
      cases ht
    rw [h, shown_succ]
    exact ⟨iff_of_true (resetOffset_add_one_lt _) hfits, fun _ => rfl⟩
  | preempted hpre hpos h =>
    have hfits : NulFits s .storeNul ↔ s.acc.log.offset + 1 < logTraceBufferSize := by
      rw [h, shown_add_one_lt_iff hpos]
      exact ⟨fun hf => hf rfl hpre, fun hf _ _ => hf⟩
    refine ⟨hfits.symm, fun hf => ?_⟩
    rw [shown_succ, ← h, resetOffset, if_neg (Nat.not_le.mpr (hfits.mp hf))]

theorem inBounds_snoc {stores : List Nat} (i : Nat) :
    (∀ j ∈ stores ++ [i], j < logTraceBufferSize) ↔
      (∀ j ∈ stores, j < logTraceBufferSize) ∧ i < logTraceBufferSize := by
  rw [List.forall_mem_append, List.forall_mem_singleton]

/-- What an action can do. -/
theorem Tracing.exec_cases {s t : Tracing} {a : TraceAction} (h : s.exec a = some t) :
    (∃ c, a = .test c ∧ s.main = .outside ∧
      t = { s with acc := PutcharAccess.exec s.acc .test, main := .tested c, preempted := false }) ∨
    (∃ c, a = .storeChar ∧ s.main = .tested c ∧
      t = { s with acc := PutcharAccess.exec s.acc (.storeChar c), main := .stored }) ∨
    (a = .storeNul ∧ s.main = .stored ∧
      t = { s with
        acc := PutcharAccess.exec s.acc .storeNul, main := .outside, finished := s.finished + 1 }) ∨
    ∃ c, a = .isr c ∧
      t = { s with
        acc := accessAll (putcharAccesses c) s.acc, finished := s.finished + 1, preempted := true } := by
  cases a with
  | test c =>
    simp only [exec] at h
    split at h
    · next hmain => exact .inl ⟨c, rfl, hmain, (Option.some.inj h).symm⟩
    · cases h
  | storeChar =>
    simp only [exec] at h
    split at h
    · next c hmain => exact .inr (.inl ⟨c, rfl, hmain, (Option.some.inj h).symm⟩)
    · cases h
  | storeNul =>
    simp only [exec] at h
    split at h
    · next hmain => exact .inr (.inr (.inl ⟨rfl, hmain, (Option.some.inj h).symm⟩))
    · cases h
  | isr c => exact .inr (.inr (.inr ⟨c, rfl, (Option.some.inj h).symm⟩))

/-- One action keeps the stores inside the log if and only if it is not the NUL at the end of a round, after
calls of the ISR. -/
theorem Tracing.exec_inBounds {s t : Tracing} {a : TraceAction} (hi : s.Inv) (hb : s.InBounds)
    (h : s.exec a = some t) : t.InBounds ↔ NulFits s a := by
  obtain ⟨c, rfl, -, rfl⟩ | ⟨c, rfl, -, rfl⟩ | ⟨rfl, hmain, rfl⟩ | ⟨c, rfl, rfl⟩ := exec_cases h
  · exact iff_of_true hb fun ha => by cases ha
  · exact iff_of_true ((inBounds_snoc _).mpr ⟨hb, hi.offset_lt⟩) fun ha => by cases ha
  · exact (inBounds_snoc _).trans ((and_iff_right hb).trans (hi.nul hmain).1)
  · have hlt := resetOffset_add_one_lt s.acc.log.offset
    refine iff_of_true (fun i hmem => ?_) fun ha => by cases ha
    simp only [accessAll_putchar] at hmem
    rcases List.mem_append.mp hmem with hmem | hmem
    · exact hb i hmem
    · rcases List.mem_pair.mp hmem with rfl | rfl <;> omega

theorem Tracing.exec_inv {s t : Tracing} {a : TraceAction} (hi : s.Inv) (hc : NulFits s a)
    (h : s.exec a = some t) : t.Inv := by
  obtain ⟨c, rfl, hmain, rfl⟩ | ⟨c, rfl, hmain, rfl⟩ | ⟨rfl, hmain, rfl⟩ | ⟨c, rfl, rfl⟩ := exec_cases h
  · have hoff : s.acc.log.offset = shown s.finished := by
      cases hi with
      | outside _ h => exact h
      | tested hne => exact absurd hmain hne
      | preempted _ _ h => exact h
    exact .tested (by simp) rfl (congrArg resetOffset hoff)
  · cases hi with
    | outside hout =>
      rw [hmain] at hout
      cases hout
    | tested _ hpre h => exact .tested (by simp) hpre h
    | preempted hpre hpos h => exact .preempted hpre hpos h
  · exact .outside rfl ((hi.nul hmain).2 hc)
  · apply Inv.preempted rfl (Nat.succ_pos _)
    simp only [accessAll_putchar]
    exact hi.reset

abbrev Tracing.Step (s : Tracing) (a : TraceAction) (t : Tracing) : Prop := s.exec a = some t

theorem inv_bootTracing : bootTracing.Inv := .outside rfl rfl

theorem inBounds_bootTracing : bootTracing.InBounds := fun _ hi => absurd hi List.not_mem_nil

/-- In every interleaving from boot, all stores are inside the log if and only if no call of the main program
that the ISR has preempted stores its NUL when the number of the characters so far is a multiple of
`logTraceBufferSize - 1`. -/
theorem tracing_inBounds_iff {tr : List (TraceAction × Tracing)} (h : Run Tracing.Step bootTracing tr) :
    (∀ p ∈ tr, p.2.InBounds) ↔ Along NulFits bootTracing tr :=
  h.always_iff Tracing.Inv Tracing.InBounds NulFits
    (fun _ _ _ hi _ hst hc => Tracing.exec_inv hi hc hst)
    (fun _ _ _ hi hb hst => Tracing.exec_inBounds hi hb hst)
    inv_bootTracing inBounds_bootTracing

/-- The ISR prints in the middle of the first call. -/
theorem tracing_inBounds_preempted :
    ∃ tr, tr.map (·.1) = [.test 97#8, .isr 98#8, .storeChar, .isr 99#8, .storeNul] ∧
      Run Tracing.Step bootTracing tr ∧ ∀ p ∈ tr, p.2.InBounds := by
  obtain ⟨tr, htr, hc⟩ : ∃ tr, trace Tracing.exec bootTracing
      [.test 97#8, .isr 98#8, .storeChar, .isr 99#8, .storeNul] = some tr ∧
      Along NulFits bootTracing tr := exists_trace (by decide)
  have hrun := run_of_trace htr
  exact ⟨tr, map_trace htr, hrun, (tracing_inBounds_iff hrun).mpr hc⟩

theorem reachable_isr (n : Nat) : ∃ acc preempted,
    Reachable Tracing.Step (· = bootTracing) ⟨acc, .outside, n, preempted⟩ ∧ acc.log.offset = shown n := by
  induction n with
  | zero => exact ⟨_, _, .init rfl, rfl⟩
  | succ n ih =>
    obtain ⟨acc, preempted, hs, hoff⟩ := ih
    refine ⟨accessAll (putcharAccesses 98#8) acc, true, hs.step (i := .isr 98#8) rfl, ?_⟩
    rw [accessAll_putchar, shown_succ, ← hoff]
    rfl

/-- With one character less than a round in the log, the ISR prints one after the test of the main program:
the NUL goes behind the log. -/
theorem tracing_outOfBounds :
    ∃ s, Reachable Tracing.Step (· = bootTracing) s ∧ logTraceBufferSize ∈ s.acc.stores := by
  obtain ⟨acc, preempted, h₀, hoff⟩ := reachable_isr 2046
  have h₁ := h₀.step (i := .test 97#8) rfl
  have h₂ := h₁.step (i := .isr 98#8) rfl
  have h₃ := h₂.step (i := .storeChar) rfl
  have h₄ := h₃.step (i := .storeNul) rfl
  have hlast : (accessAll (putcharAccesses 98#8) (PutcharAccess.exec acc .test)).log.offset =
      logTraceBufferSize - 1 := by
    rw [accessAll_putchar]
    change resetOffset (resetOffset acc.log.offset) + 1 = _
    rw [resetOffset_reset, hoff]
    rfl
  refine ⟨_, h₄, List.mem_append_right _ (List.mem_singleton.mpr ?_)⟩
  exact (congrArg (· + 1) hlast).symm

end V85x
