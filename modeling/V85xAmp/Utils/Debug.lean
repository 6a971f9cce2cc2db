import Mathlib.Logic.Function.Basic
import V85xAmp.Utils.Printf

/-!
# Debug output (`utils/debug.c`, `main.h`)

The build has `CONFIG_ENABLE_LOG_TRACE`: the characters go to the trace log. A `debug_riscv` returns
whenever its format is one of plain characters and strings (`debugRiscv_ends`), and nothing else of
the program reads what it prints.
-/

namespace V85x

open Firmware

/-- `LOG_TRACE_BUFFER_SIZE` -/
def logTraceBufferSize : Nat := 2048

/-- `offset` and `log_trace_buffer`. -/
structure TraceLog where
  offset : Nat
  buffer : Nat → Byte

/-- `_putchar` -/
def putchar (c : Byte) (log : TraceLog) : TraceLog :=
  let offset := if logTraceBufferSize ≤ log.offset + 1 then 0 else log.offset
  { offset := offset + 1
    buffer := Function.update (Function.update log.buffer offset c) (offset + 1) 0#8 }

/-- `_out_char` -/
def outChar (c : Byte) (_idx _maxlen : Nat) (log : TraceLog) : TraceLog :=
  if c ≠ 0#8 then putchar c log else log

/-- `debug`, that is `vprintf_`: the log after it. -/
def debug (fmt : List Char) (va : List VaArg) (log : TraceLog) : Comp (Option TraceLog) := do
  let r ← vsnprintf outChar sizeMax fmt va log
  pure (r.map (·.2))

/-- `debug_riscv` -/
def debugRiscv (fmt : List Char) (va : List VaArg) (log : TraceLog) : Comp (Option TraceLog) := do
  let r ← debug "v85x-riscv: ".toList [] log
  match r with
  | none => pure none
  | some log => debug fmt va log

theorem debug_ends {fmt : List Char} {va : List VaArg} {l : List Byte} (h : Formats fmt va l)
    (hlen : l.length < sizeMax) (log : TraceLog) :
    ∃ log', (debug fmt va log).Returns (some log') :=
  ⟨_, Comp.returns_bind.mpr ⟨_, vsnprintf_returns_of_formats outChar h log hlen, Comp.returns_pure.mpr rfl⟩⟩

theorem debugRiscv_ends {fmt : List Char} {va : List VaArg} {l : List Byte} (h : Formats fmt va l)
    (hlen : l.length < sizeMax) (log : TraceLog) :
    ∃ log', (debugRiscv fmt va log).Returns (some log') := by
  have hprefix : Formats "v85x-riscv: ".toList [] ("v85x-riscv: ".toList.map ch) := by
    simpa using (Formats.nil []).chars "v85x-riscv: ".toList (by decide)
  obtain ⟨log₁, h₁⟩ := debug_ends hprefix (by decide) log
  obtain ⟨log₂, h₂⟩ := debug_ends h hlen log₁
  exact ⟨log₂, Comp.returns_bind.mpr ⟨_, h₁, h₂⟩⟩

end V85x
