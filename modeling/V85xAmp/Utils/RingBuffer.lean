import Mathlib.Data.List.Basic
import V85xAmp.Lib.Mem
import V85xAmp.Lib.Ring

/-!
# The byte ring (`utils/ringbuffer.c`)

The ring is driven by two free-running 32-bit indices. `size` is the size of the buffer minus one:
it is the mask of the indices and the bound of the full test. An access outside the buffer is
`none`.

`BoundedQueue` says what the ring is for: a queue of bounded length whose `push` gives up the
oldest entry when the queue is full. `Represents` relates the two through the counts behind the
indices, which survives their wrap-around, and `ringbuffer_refines` follows a whole run.

`ringbuffer_init` takes size 0 for a power of two as well. The mask of such a ring is all ones, and its
first `ringbuffer_put` stores outside the buffer (`ringbuffer_safe_iff`).
-/

namespace V85x

open Firmware

/-! ## The source -/

/-- `ringbuffer_t` with the buffer that `buf` points to. -/
structure RingBuffer where
  buf : Array Byte
  size : BitVec 32
  readIndex : BitVec 32
  writeIndex : BitVec 32
deriving Repr, DecidableEq

/-- `ringbuffer_init`: the return code, and the ring (as it was when the size is refused). -/
def ringbufferInit (rb : RingBuffer) (buf : Array Byte) (size : BitVec 32) : Int × RingBuffer :=
  if size &&& (size - 1#32) ≠ 0#32 then (-1, rb)
  else (0, { buf := buf, size := size - 1#32, readIndex := 0#32, writeIndex := 0#32 })

/-- `ringbuffer_get`: the return code, `*data` (`data` before the call) and the ring. The code is 0
on an empty ring too, and `*data` keeps its value there. -/
def ringbufferGet (rb : RingBuffer) (data : Byte) : Option (Int × Byte × RingBuffer) :=
  if rb.writeIndex ≠ rb.readIndex then do
    let b ← rb.buf[(rb.readIndex &&& rb.size).toNat]?
    some (0, b, { rb with readIndex := rb.readIndex + 1#32 })
  else some (0, data, rb)

/-- `ringbuffer_put`. The full test comes after the store and before the increment. -/
def ringbufferPut (rb : RingBuffer) (data : Byte) : Option (Int × RingBuffer) :=
  let i := (rb.writeIndex &&& rb.size).toNat
  if i < rb.buf.size then
    let rb := { rb with buf := rb.buf.setIfInBounds i data }
    let rb :=
      if rb.size < rb.writeIndex - rb.readIndex then
        { rb with readIndex := rb.writeIndex - rb.size }
      else rb
    some (0, { rb with writeIndex := rb.writeIndex + 1#32 })
  else none

/-- `ringbuffer_num` -/
def ringbufferNum (rb : RingBuffer) : BitVec 32 := rb.writeIndex - rb.readIndex

/-- `ringbuffer_flush` -/
def ringbufferFlush (rb : RingBuffer) : Int × RingBuffer := (0, { rb with readIndex := rb.writeIndex })

/-! ## Bounded queues -/

/-- A queue of at most `cap` entries, oldest first. -/
structure BoundedQueue (α : Type) (cap : Nat) where
  items : List α
  le : items.length ≤ cap

namespace BoundedQueue

variable {α : Type} {cap : Nat}

def empty : BoundedQueue α cap := ⟨[], Nat.zero_le _⟩

/-- Add an entry. A full queue gives up its oldest one. -/
def push (q : BoundedQueue α cap) (a : α) : BoundedQueue α cap :=
  if h : q.items.length < cap then ⟨q.items ++ [a], by rw [List.length_append]; exact h⟩
  else ⟨(q.items ++ [a]).tail, by rw [List.length_tail, List.length_append]; exact q.le⟩

def pop (q : BoundedQueue α cap) : BoundedQueue α cap :=
  ⟨q.items.tail, by have := q.le; rw [List.length_tail]; omega⟩

/-- A `push` on a full queue of positive capacity discards exactly the oldest entry. -/
theorem items_push_of_full {q : BoundedQueue α cap} {a b : α} {l : List α} (hq : q.items = b :: l)
    (hfull : q.items.length = cap) : (q.push a).items = l ++ [a] := by
  rw [push, dif_neg (by omega)]
  simp [hq]

theorem items_push_of_room {q : BoundedQueue α cap} (a : α) (h : q.items.length < cap) :
    (q.push a).items = q.items ++ [a] := by
  simp [push, h]

end BoundedQueue

/-! ## Runs -/

inductive RingOp
  | put (data : Byte)
  | get
  | flush
deriving Repr, DecidableEq

/-- One call. The second component is the caller's byte that `data` of `ringbuffer_get` points to. -/
def RingOp.exec : RingOp → RingBuffer × Byte → Option (RingBuffer × Byte)
  | .put b, (rb, data) => (ringbufferPut rb b).map fun (_, rb) => (rb, data)
  | .get, (rb, data) => (ringbufferGet rb data).map fun (_, data, rb) => (rb, data)
  | .flush, (rb, data) => some ((ringbufferFlush rb).2, data)

/-- The same call on the queue: `get` stores the oldest entry, if there is one. -/
def RingOp.spec {n : Nat} : RingOp → BoundedQueue Byte n × Byte → BoundedQueue Byte n × Byte
  | .put b, (q, data) => (q.push b, data)
  | .get, (q, data) => (q.pop, q.items.head?.getD data)
  | .flush, (_, data) => (BoundedQueue.empty, data)

def execAll (ops : List RingOp) (s : RingBuffer × Byte) : Option (RingBuffer × Byte) :=
  ops.foldlM (fun s op => op.exec s) s

def specAll {n : Nat} (ops : List RingOp) (s : BoundedQueue Byte n × Byte) :
    BoundedQueue Byte n × Byte :=
  ops.foldl (fun s op => op.spec s) s

/-- The bytes that a ring holds, oldest first. -/
def RingBuffer.contents (rb : RingBuffer) : List Byte :=
  (List.range (ringbufferNum rb).toNat).map fun i =>
    rb.buf.getD ((rb.readIndex + BitVec.ofNat 32 i) &&& rb.size).toNat 0#8

/-! ## The ring represents a queue -/

/-- `log` is every byte ever put and `lo` the number of those that are gone: the ring holds the
rest, and its indices are the two counts. -/
structure Represents (k : Nat) (rb : RingBuffer) (log : List Byte) (lo : Nat) : Prop where
  size : rb.size = BitVec.ofNat 32 (2 ^ k - 1)
  bufSize : rb.buf.size = 2 ^ k
  writeIndex : rb.writeIndex = BitVec.ofNat 32 log.length
  readIndex : rb.readIndex = BitVec.ofNat 32 lo
  lo_le : lo ≤ log.length
  le_lo : log.length ≤ lo + 2 ^ k
  holds : HoldsFrom (2 ^ k) (fun i => rb.buf.getD i 0#8) log lo

section

variable {k : Nat} {rb : RingBuffer} {log : List Byte} {lo : Nat}

theorem two_pow_lt (hk : k ≤ 31) : 2 ^ k < 2 ^ 32 := Nat.pow_lt_pow_right (by decide) (by omega)

theorem Represents.num (h : Represents k rb log lo) (hk : k ≤ 31) :
    (ringbufferNum rb).toNat = log.length - lo := by
  have := two_pow_lt hk
  have := h.le_lo
  rw [ringbufferNum, h.writeIndex, h.readIndex, toNat_counter_sub h.lo_le (by omega)]

/-- The slot of a counter is inside the buffer. -/
theorem Represents.slot (h : Represents k rb log lo) (hk : k ≤ 31) (c : Nat) :
    (BitVec.ofNat 32 c &&& rb.size).toNat = c % 2 ^ k := by
  rw [h.size, slot_counter (by omega)]

theorem Represents.contents (h : Represents k rb log lo) (hk : k ≤ 31) :
    rb.contents = log.drop lo := by
  have hlo := h.lo_le
  apply List.ext_getElem
  · simp [RingBuffer.contents, h.num hk]
  · intro i h1 h2
    simp only [RingBuffer.contents, List.length_map, List.length_range, h.num hk] at h1
    simp only [RingBuffer.contents, List.getElem_map, List.getElem_range, List.getElem_drop]
    rw [h.readIndex, ← BitVec.ofNat_add, h.slot hk]
    exact h.holds (lo + i) (by omega) (by omega)

theorem represents_init (rb₀ : RingBuffer) (buf : Array Byte) (hk : k ≤ 31)
    (hbuf : buf.size = 2 ^ k) :
    (ringbufferInit rb₀ buf (BitVec.ofNat 32 (2 ^ k))).1 = 0 ∧
      Represents k (ringbufferInit rb₀ buf (BitVec.ofNat 32 (2 ^ k))).2 [] 0 := by
  have hlt := two_pow_lt hk
  have hpos := Nat.two_pow_pos k
  have hsize : BitVec.ofNat 32 (2 ^ k) - 1#32 = BitVec.ofNat 32 (2 ^ k - 1) :=
    counter_sub hpos
  have hzero : BitVec.ofNat 32 (2 ^ k) &&& BitVec.ofNat 32 (2 ^ k - 1) = 0#32 := by
    apply BitVec.eq_of_toNat_eq
    rw [slot_counter (by omega), Nat.mod_self]
    rfl
  rw [ringbufferInit, hsize, if_neg (not_not.mpr hzero)]
  exact ⟨rfl, rfl, hbuf, rfl, rfl, Nat.le_refl _, Nat.zero_le _, holdsFrom_nil⟩

/-- The full test of `ringbuffer_put`. -/
theorem Represents.full_iff (h : Represents k rb log lo) (hk : k ≤ 31) :
    rb.size < rb.writeIndex - rb.readIndex ↔ ¬ log.length < lo + 2 ^ k := by
  have hlt := two_pow_lt hk
  have hpos := Nat.two_pow_pos k
  have hle := h.le_lo
  rw [BitVec.lt_def, h.writeIndex, h.readIndex, toNat_counter_sub h.lo_le (by omega), h.size,
    BitVec.toNat_ofNat, Nat.mod_eq_of_lt (by omega)]
  omega

/-- `ringbuffer_put` appends to the log; a full ring gives up its oldest byte. -/
theorem ringbufferPut_represents (h : Represents k rb log lo) (hk : k ≤ 31) (data : Byte) :
    ∃ rb', ringbufferPut rb data = some (0, rb') ∧
      Represents k rb' (log ++ [data]) (if log.length < lo + 2 ^ k then lo else lo + 1) := by
  have hlt := two_pow_lt hk
  have hpos := Nat.two_pow_pos k
  have hlo := h.lo_le
  have hle := h.le_lo
  have hslot : (rb.writeIndex &&& rb.size).toNat = log.length % 2 ^ k := by
    rw [h.writeIndex, h.slot hk]
  have hin : log.length % 2 ^ k < rb.buf.size := by
    rw [h.bufSize]
    exact Nat.mod_lt _ hpos
  have hfull := h.full_iff hk
  have hset : ∀ i, (rb.buf.setIfInBounds (log.length % 2 ^ k) data).getD i 0#8 =
      Function.update (fun i => rb.buf.getD i 0#8) (log.length % 2 ^ k) data i := by
    intro i
    by_cases hi : i = log.length % 2 ^ k
    · subst hi
      simp [Array.getD_eq_getD_getElem?, hin]
    · simp [Array.getD_eq_getD_getElem?, Function.update_of_ne hi,
        Array.getElem?_setIfInBounds_ne (Ne.symm hi)]
  simp only [ringbufferPut, hslot, hin, ↓reduceIte]
  refine ⟨_, rfl, ?_⟩
  by_cases hroom : log.length < lo + 2 ^ k
  · rw [if_neg (by rw [hfull]; simpa using hroom), if_pos hroom]
    refine ⟨h.size, by simpa using h.bufSize, ?_, h.readIndex, by simp; omega, by simp; omega, ?_⟩
    · simp only [h.writeIndex, counter_succ, List.length_append, List.length_singleton]
    · exact (h.holds.push hroom data).congr fun i _ _ => hset _
  · rw [if_pos (by rw [hfull]; exact hroom), if_neg hroom]
    refine ⟨h.size, by simpa using h.bufSize, ?_, ?_, by simp; omega, by simp; omega, ?_⟩
    · simp only [h.writeIndex, counter_succ, List.length_append, List.length_singleton]
    · simp only [h.writeIndex, h.size]
      rw [counter_sub (by omega)]
      congr 1
      omega
    · exact ((h.holds.drop (Nat.le_succ lo)).push (by omega) data).congr fun i _ _ => hset _

/-- `ringbuffer_get` of a ring that holds something. -/
theorem ringbufferGet_represents (h : Represents k rb log lo) (hk : k ≤ 31) (data : Byte)
    (hlt : lo < log.length) :
    ∃ rb', ringbufferGet rb data = some (0, log[lo], rb') ∧ Represents k rb' log (lo + 1) := by
  have h32 := two_pow_lt hk
  have hle := h.le_lo
  have hne : rb.writeIndex ≠ rb.readIndex := by
    rw [h.writeIndex, h.readIndex, Ne, counter_eq_iff (Nat.le_of_lt hlt) (by omega)]
    omega
  have hin : lo % 2 ^ k < rb.buf.size := by
    rw [h.bufSize]
    exact Nat.mod_lt _ (Nat.two_pow_pos k)
  have hget : rb.buf[lo % 2 ^ k]? = some log[lo] := by
    have := h.holds lo hlt (Nat.le_refl _)
    simp only [Array.getD_eq_getD_getElem?, Array.getElem?_eq_getElem hin, Option.getD_some] at this
    rw [Array.getElem?_eq_getElem hin, this]
  refine ⟨{ rb with readIndex := rb.readIndex + 1#32 }, ?_, ?_⟩
  · have hslot : (rb.readIndex &&& rb.size).toNat = lo % 2 ^ k := by rw [h.readIndex, h.slot hk]
    simp only [ringbufferGet, hne, ne_eq, not_false_eq_true, ↓reduceIte, hslot, hget]
    rfl
  · exact ⟨h.size, h.bufSize, h.writeIndex, by simp only [h.readIndex, counter_succ], hlt, by omega,
      h.holds.drop (Nat.le_succ lo)⟩

/-- `ringbuffer_get` of an empty ring leaves the ring and `*data`. -/
theorem ringbufferGet_of_empty (h : Represents k rb log log.length) (data : Byte) :
    ringbufferGet rb data = some (0, data, rb) := by
  simp [ringbufferGet, h.writeIndex, h.readIndex]

theorem ringbufferFlush_represents (h : Represents k rb log lo) :
    Represents k (ringbufferFlush rb).2 log log.length :=
  ⟨h.size, h.bufSize, h.writeIndex, h.writeIndex, Nat.le_refl _, Nat.le_add_right _ _,
    h.holds.drop h.lo_le⟩

/-- One call: the ring does what the queue of the bytes it holds does. -/
theorem RingOp.exec_represents (h : Represents k rb log lo) (hk : k ≤ 31) (op : RingOp)
    (data : Byte) (q : BoundedQueue Byte (2 ^ k)) (hq : q.items = log.drop lo) :
    ∃ rb' log' lo', op.exec (rb, data) = some (rb', (op.spec (q, data)).2) ∧
      Represents k rb' log' lo' ∧ (op.spec (q, data)).1.items = log'.drop lo' := by
  have hlo := h.lo_le
  have hle := h.le_lo
  cases op with
  | put b =>
    obtain ⟨rb', hput, h'⟩ := ringbufferPut_represents h hk b
    refine ⟨rb', _, _, by simp [exec, hput, spec], h', ?_⟩
    simp only [spec]
    by_cases hroom : log.length < lo + 2 ^ k
    · rw [if_pos hroom, BoundedQueue.items_push_of_room _ (by simp [hq]; omega), hq,
        List.drop_append_of_le_length hlo]
    · have hlt : lo < log.length := by have := Nat.two_pow_pos k; omega
      rw [if_neg hroom, BoundedQueue.items_push_of_full (hq.trans (List.drop_eq_getElem_cons hlt))
        (by simp [hq]; omega), List.drop_append_of_le_length hlt]
  | get =>
    by_cases hlt : lo < log.length
    · obtain ⟨rb', hget, h'⟩ := ringbufferGet_represents h hk data hlt
      refine ⟨rb', _, _, ?_, h', ?_⟩
      · simp [exec, hget, spec, hq, hlt]
      · simp [spec, BoundedQueue.pop, hq]
    · obtain rfl : lo = log.length := by omega
      refine ⟨rb, _, _, ?_, h, ?_⟩
      · simp [exec, ringbufferGet_of_empty h, spec, hq]
      · simp [spec, BoundedQueue.pop, hq]
  | flush =>
    refine ⟨_, _, _, rfl, ringbufferFlush_represents h, ?_⟩
    simp [spec, BoundedQueue.empty]

/-- A run of calls. -/
theorem execAll_represents (h : Represents k rb log lo) (hk : k ≤ 31) (ops : List RingOp)
    (data : Byte) (q : BoundedQueue Byte (2 ^ k)) (hq : q.items = log.drop lo) :
    ∃ rb' log' lo', execAll ops (rb, data) = some (rb', (specAll ops (q, data)).2) ∧
      Represents k rb' log' lo' ∧ (specAll ops (q, data)).1.items = log'.drop lo' := by
  induction ops generalizing rb log lo data q with
  | nil => exact ⟨rb, log, lo, rfl, h, hq⟩
  | cons op ops ih =>
    obtain ⟨rb₁, log₁, lo₁, he, h₁, hq₁⟩ := op.exec_represents h hk data q hq
    obtain ⟨rb₂, log₂, lo₂, he₂, h₂, hq₂⟩ := ih h₁ (op.spec (q, data)).2 _ hq₁
    exact ⟨rb₂, log₂, lo₂, by simpa [execAll, specAll, he] using he₂, h₂, hq₂⟩

end

/-- The ring refines a bounded queue that drops its oldest entry. For every ring that
`ringbuffer_init` made with a power of two size up to `2 ^ 31`, every run of calls stays inside the
buffer and leaves exactly the queue's entries in the ring, oldest first, and in `*data` what the
queue's `get`s put there. -/
theorem ringbuffer_refines {k : Nat} (hk : k ≤ 31) (rb₀ : RingBuffer) (buf : Array Byte)
    (hbuf : buf.size = 2 ^ k) (data : Byte) (ops : List RingOp) :
    (ringbufferInit rb₀ buf (BitVec.ofNat 32 (2 ^ k))).1 = 0 ∧
    ∃ rb, execAll ops ((ringbufferInit rb₀ buf (BitVec.ofNat 32 (2 ^ k))).2, data) =
        some (rb, (specAll (n := 2 ^ k) ops (BoundedQueue.empty, data)).2) ∧
      rb.contents = (specAll (n := 2 ^ k) ops (BoundedQueue.empty, data)).1.items ∧
      (ringbufferNum rb).toNat = (specAll (n := 2 ^ k) ops (BoundedQueue.empty, data)).1.items.length ∧
      (ringbufferNum rb).toNat ≤ 2 ^ k := by
  obtain ⟨h0, hinit⟩ := represents_init rb₀ buf hk hbuf
  obtain ⟨rb, log, lo, hexec, h, hq⟩ := execAll_represents hinit hk ops data BoundedQueue.empty rfl
  have hnum := h.num hk
  refine ⟨h0, rb, hexec, ?_, ?_, ?_⟩
  · rw [h.contents hk, hq]
  · rw [hnum, hq, List.length_drop]
  · have := h.le_lo
    omega

/-- A ring of four bytes: the fifth `put` gives up the first byte. -/
theorem ringbuffer_refines_four :
    ∃ rb, execAll ([1#8, 2#8, 3#8, 4#8, 5#8].map .put ++ [.get])
        ((ringbufferInit ⟨#[], 0#32, 0#32, 0#32⟩ #[0#8, 0#8, 0#8, 0#8] 4#32).2, 0#8) =
        some (rb, 2#8) ∧ rb.contents = [3#8, 4#8, 5#8] := by
  obtain ⟨-, rb, hexec, hcontents, -⟩ := ringbuffer_refines (k := 2) (by decide)
    ⟨#[], 0#32, 0#32, 0#32⟩ #[0#8, 0#8, 0#8, 0#8] rfl 0#8 ([1#8, 2#8, 3#8, 4#8, 5#8].map .put ++ [.get])
  exact ⟨rb, hexec, hcontents⟩

/-! ## Accepted sizes -/

section

variable {rb₀ : RingBuffer} {buf : Array Byte} {size : BitVec 32}

theorem ringbufferInit_accepts_iff (rb₀ : RingBuffer) (buf : Array Byte) (size : BitVec 32) :
    (ringbufferInit rb₀ buf size).1 = 0 ↔ size &&& (size - 1#32) = 0#32 := by
  rw [ringbufferInit]
  by_cases h : size &&& (size - 1#32) = 0#32
  · rw [if_neg (not_not.mpr h)]
    exact iff_of_true rfl h
  · rw [if_pos h]
    exact iff_of_false (show ¬ (-1 : Int) = 0 by decide) h

/-- The accepted sizes but 0 are the powers of two. -/
theorem eq_two_pow_of_accepted (h : size &&& (size - 1#32) = 0#32) (hne : size ≠ 0#32) :
    ∃ k ≤ 31, size = BitVec.ofNat 32 (2 ^ k) := by
  have hlt := size.isLt
  have h0 : size.toNat ≠ 0 := fun h0 => hne (BitVec.eq_of_toNat_eq h0)
  have hand : size.toNat &&& (size.toNat - 1) = 0 := by
    have hsub : (size - 1#32).toNat = size.toNat - 1 :=
      BitVec.toNat_sub_of_le (by rw [BitVec.le_def]; exact Nat.one_le_iff_ne_zero.mpr h0)
    rw [← hsub, ← BitVec.toNat_and, h]
    rfl
  obtain ⟨k, hk⟩ := (Nat.and_sub_one_eq_zero_iff_isPowerOfTwo h0).mp hand
  rw [hk] at hlt
  have hk32 : k < 32 := (Nat.pow_lt_pow_iff_right (by decide)).mp hlt
  refine ⟨k, by omega, BitVec.eq_of_toNat_eq ?_⟩
  rw [hk, BitVec.toNat_ofNat, Nat.mod_eq_of_lt hlt]

/-- A ring without a buffer that holds nothing. A `put` has no place to store to. -/
structure Bufferless (rb : RingBuffer) : Prop where
  bufSize : rb.buf.size = 0
  empty : rb.writeIndex = rb.readIndex

theorem RingOp.exec_bufferless {rb : RingBuffer} (h : Bufferless rb) (op : RingOp) (data : Byte) :
    (∀ b, op = .put b → op.exec (rb, data) = none) ∧
      ((∀ b, op ≠ .put b) → ∃ rb', op.exec (rb, data) = some (rb', data) ∧ Bufferless rb') := by
  cases op with
  | put b =>
    refine ⟨fun _ _ => ?_, fun hne => absurd rfl (hne b)⟩
    simp [exec, ringbufferPut, h.bufSize]
  | get =>
    refine ⟨fun b hb => RingOp.noConfusion hb, fun _ => ⟨rb, ?_, h⟩⟩
    simp [exec, ringbufferGet, h.empty]
  | flush => exact ⟨fun b hb => RingOp.noConfusion hb, fun _ => ⟨_, rfl, h.bufSize, rfl⟩⟩

/-- A run of such a ring ends inside the buffer if and only if it has no `put`. -/
theorem execAll_bufferless {rb : RingBuffer} (h : Bufferless rb) (ops : List RingOp) (data : Byte) :
    (execAll ops (rb, data)).isSome ↔ ∀ b, .put b ∉ ops := by
  induction ops generalizing rb with
  | nil => simp [execAll]
  | cons op ops ih =>
    obtain ⟨hput, hother⟩ := op.exec_bufferless h data
    by_cases hop : ∃ b, op = .put b
    · obtain ⟨b, rfl⟩ := hop
      refine iff_of_false ?_ fun hno => hno b (by simp)
      simp [execAll, hput b rfl]
    · obtain ⟨rb', he, h'⟩ := hother fun b hb => hop ⟨b, hb⟩
      have hrest : execAll (op :: ops) (rb, data) = execAll ops (rb', data) := by simp [execAll, he]
      rw [hrest, ih h']
      refine forall_congr' fun b => ?_
      rw [List.mem_cons, or_iff_right fun hb => hop ⟨b, hb.symm⟩]

end

/-- Every run of calls of an accepted ring stays inside its buffer if and only if the ring has a buffer or
the run no `put`. -/
theorem ringbuffer_safe_iff (rb₀ : RingBuffer) (buf : Array Byte) (size : BitVec 32)
    (hbuf : buf.size = size.toNat) (hinit : (ringbufferInit rb₀ buf size).1 = 0) (data : Byte)
    (ops : List RingOp) :
    (execAll ops ((ringbufferInit rb₀ buf size).2, data)).isSome ↔
      size ≠ 0#32 ∨ ∀ b, .put b ∉ ops := by
  have hsize := (ringbufferInit_accepts_iff rb₀ buf size).mp hinit
  by_cases h0 : size = 0#32
  · subst h0
    have hempty : Bufferless (ringbufferInit rb₀ buf 0#32).2 := ⟨hbuf, rfl⟩
    rw [execAll_bufferless hempty, or_iff_right (not_not.mpr rfl)]
  · obtain ⟨k, hk, rfl⟩ := eq_two_pow_of_accepted hsize h0
    rw [BitVec.toNat_ofNat, Nat.mod_eq_of_lt (two_pow_lt hk)] at hbuf
    obtain ⟨rb, -, -, hexec, -⟩ :=
      execAll_represents (represents_init rb₀ buf hk hbuf).2 hk ops data BoundedQueue.empty rfl
    rw [hexec]
    exact iff_of_true rfl (.inl h0)

theorem ringbuffer_safe_two :
    #[0#8, 0#8].size = (2#32).toNat ∧
      (execAll [.put 1#8, .put 2#8, .put 3#8, .get, .flush, .put 4#8]
        ((ringbufferInit ⟨#[], 0#32, 0#32, 0#32⟩ #[0#8, 0#8] 2#32).2, 0#8)).isSome := by
  have hbuf : #[0#8, 0#8].size = (2#32).toNat := rfl
  exact ⟨hbuf, (ringbuffer_safe_iff _ _ 2#32 hbuf rfl 0#8 _).mpr (.inl (by decide))⟩

/-- An accepted ring of size 0. -/
theorem ringbuffer_unsafe_zero :
    (ringbufferInit ⟨#[], 0#32, 0#32, 0#32⟩ #[] 0#32).1 = 0 ∧
      execAll [.put 1#8] ((ringbufferInit ⟨#[], 0#32, 0#32, 0#32⟩ #[] 0#32).2, 0#8) = none := by
  decide

end V85x
