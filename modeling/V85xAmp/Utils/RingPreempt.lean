import V85xAmp.Lib.Lists
import V85xAmp.Lib.Run
import V85xAmp.Utils.RingBuffer

/-!
# The byte ring under preemption (`utils/ringbuffer.c`)

`ringbuffer_get` runs in the main code and `ringbuffer_put` in the interrupt handler of the UART, so
that any number of `put`s come between two accesses of a `get`: the compare of the indices, the load of
the byte, the load of `read_index` and the store of `read_index + 1`.

`put` on a full ring moves `read_index` too. Between the load and the store of a `get`, one such move
agrees with the store, but the store takes further ones back: the ring then claims bytes that are
overwritten. `Calm` excludes these, and `preempted_ok` says that nothing else goes wrong.
-/

namespace V85x

open Firmware

/-! ## The source, access by access -/

/-- Where a `ringbuffer_get` stands, with what it has loaded. -/
inductive GetPc
  | idle
  | loadByte
  | loadIndex (data : Byte)
  | storeIndex (data : Byte) (readIndex : BitVec 32)
deriving Repr, DecidableEq

/-- The ring, the `get` under way, and the bytes put and returned so far. -/
structure PreemptedRing where
  rb : RingBuffer
  pc : GetPc
  log : List Byte
  got : List Byte
deriving Repr, DecidableEq

/-- The accesses of `ringbuffer_get`, and a whole `ringbuffer_put` in between. -/
inductive RingAct
  | compare
  | loadByte
  | loadIndex
  | storeIndex
  | put (data : Byte)
deriving Repr, DecidableEq

namespace PreemptedRing

/-- The state after an access, if it is the next one of the `get`. A compare of equal indices ends the
`get`. -/
def exec (s : PreemptedRing) : RingAct → Option PreemptedRing
  | .compare =>
    match s.pc with
    | .idle => some { s with pc := if s.rb.writeIndex ≠ s.rb.readIndex then .loadByte else .idle }
    | _ => none
  | .loadByte =>
    match s.pc with
    | .loadByte => s.rb.buf[(s.rb.readIndex &&& s.rb.size).toNat]?.map fun b => { s with pc := .loadIndex b }
    | _ => none
  | .loadIndex =>
    match s.pc with
    | .loadIndex b => some { s with pc := .storeIndex b s.rb.readIndex }
    | _ => none
  | .storeIndex =>
    match s.pc with
    | .storeIndex b r =>
      some { s with rb := { s.rb with readIndex := r + 1#32 }, pc := .idle, got := s.got ++ [b] }
    | _ => none
  | .put data => (ringbufferPut s.rb data).map fun (_, rb) => { s with rb, log := s.log ++ [data] }

def Step (s : PreemptedRing) (act : RingAct) (t : PreemptedRing) : Prop := s.exec act = some t

/-- A ring of `2 ^ k` bytes as `ringbuffer_init` leaves it. -/
def Initial (k : Nat) (s : PreemptedRing) : Prop :=
  ∃ rb₀ buf, buf.size = 2 ^ k ∧ s = ⟨(ringbufferInit rb₀ buf (BitVec.ofNat 32 (2 ^ k))).2, .idle, [], []⟩

/-- The bytes returned are a subsequence of the bytes put, and between two `get`s the ring holds at most
`2 ^ k` bytes. -/
def Ok (k : Nat) (s : PreemptedRing) : Prop :=
  s.got.Sublist s.log ∧ (s.pc = .idle → (ringbufferNum s.rb).toNat ≤ 2 ^ k)

instance (k : Nat) (s : PreemptedRing) : Decidable (s.Ok k) := inferInstanceAs (Decidable (_ ∧ _))

/-- The full test of `ringbuffer_put`. -/
def Full (s : PreemptedRing) : Prop := s.rb.size < s.rb.writeIndex - s.rb.readIndex

instance (s : PreemptedRing) : Decidable s.Full := inferInstanceAs (Decidable (_ < _))

/-- No `put` on a full ring while a `get` is about to store `read_index`, after an earlier one moved it. -/
def Calm (s : PreemptedRing) : RingAct → Prop
  | .put _ =>
    match s.pc with
    | .storeIndex _ r => s.Full → s.rb.readIndex = r
    | _ => True
  | _ => True

instance (s : PreemptedRing) (act : RingAct) : Decidable (s.Calm act) := by
  unfold Calm
  split
  · split
    · infer_instance
    · exact .isTrue trivial
  · exact .isTrue trivial

/-! ## The invariant -/

/-- What the `get` under way has loaded from a ring that holds `log` from number `lo` on. `read_index`
may have moved by one since it was loaded. -/
def Loaded (k : Nat) (log got : List Byte) (lo : Nat) : GetPc → Prop
  | .idle => got.Sublist (log.take lo)
  | .loadByte => got.Sublist (log.take lo) ∧ lo < log.length
  | .loadIndex b => (got ++ [b]).Sublist (log.take (lo + 1)) ∧ lo < log.length
  | .storeIndex b r => ∃ c, r = BitVec.ofNat 32 c ∧ (lo = c ∨ lo = c + 1) ∧ c < log.length ∧
      log.length ≤ c + 1 + 2 ^ k ∧ (got ++ [b]).Sublist (log.take (c + 1))

/-- The ring holds the bytes put from number `lo` on, and the bytes returned came before them. -/
def Inv (k : Nat) (s : PreemptedRing) : Prop :=
  ∃ lo, Represents k s.rb s.log lo ∧ Loaded k s.log s.got lo s.pc

variable {k lo lo' : Nat} {log got : List Byte} {pc : GetPc} {a : Byte} {s t : PreemptedRing}
  {act : RingAct}

/-- A `put` that keeps `read_index`, or moves it by one while no store of `read_index` is due for an index
that it left already. -/
theorem Loaded.put (h : Loaded k log got lo pc) (hlo : lo ≤ log.length) (hle : lo ≤ lo')
    (hlo' : lo' ≤ log.length) (hroom : log.length < lo' + 2 ^ k)
    (hcalm : ∀ b c, pc = .storeIndex b (BitVec.ofNat 32 c) → lo = c + 1 → lo' = lo)
    (hstep : lo' ≤ lo + 1) : Loaded k (log ++ [a]) got lo' pc := by
  cases pc with
  | idle => exact h.trans (take_sublist_snoc hlo hle)
  | loadByte => exact ⟨h.1.trans (take_sublist_snoc hlo hle), by simp; omega⟩
  | loadIndex b => exact ⟨h.1.trans (take_sublist_snoc h.2 (by omega)), by simp; omega⟩
  | storeIndex b r =>
    obtain ⟨c, rfl, hc, hlt, hlen, hgot⟩ := h
    have := hcalm b c rfl
    exact ⟨c, rfl, by omega, by simp; omega, by simp; omega, hgot.trans (take_sublist_snoc hlt (by omega))⟩

theorem Initial.inv (hk : k ≤ 31) (h : Initial k s) : Inv k s := by
  obtain ⟨rb₀, buf, hbuf, rfl⟩ := h
  exact ⟨0, (represents_init rb₀ buf hk hbuf).2, List.nil_sublist _⟩

theorem Inv.ok (hk : k ≤ 31) (h : Inv k s) : Ok k s := by
  obtain ⟨lo, hrep, hpc⟩ := h
  constructor
  · cases hcase : s.pc with
    | idle => rw [hcase] at hpc; exact hpc.trans (List.take_sublist _ _)
    | loadByte => rw [hcase] at hpc; exact hpc.1.trans (List.take_sublist _ _)
    | loadIndex b =>
      rw [hcase] at hpc
      exact (List.sublist_append_left _ _).trans (hpc.1.trans (List.take_sublist _ _))
    | storeIndex b r =>
      rw [hcase] at hpc
      obtain ⟨c, -, -, -, -, hgot⟩ := hpc
      exact (List.sublist_append_left _ _).trans (hgot.trans (List.take_sublist _ _))
  · intro _
    have hlo := hrep.lo_le
    have hle := hrep.le_lo
    rw [hrep.num hk]
    omega

/-- Each access of a `get`, and each `put`, keeps the invariant. -/
theorem inv_step (hk : k ≤ 31) (h : Inv k s) (hs : Step s act t) (hcalm : Calm s act) : Inv k t := by
  obtain ⟨rb, pc, log, got⟩ := s
  obtain ⟨lo, hrep, hpc⟩ := h
  replace hrep : Represents k rb log lo := hrep
  replace hpc : Loaded k log got lo pc := hpc
  have hlo := hrep.lo_le
  have hle := hrep.le_lo
  have hpos := Nat.two_pow_pos k
  have h32 := two_pow_lt hk
  cases act with
  | compare =>
    cases pc <;> simp only [Step, exec, reduceCtorEq, Option.some.injEq] at hs
    subst hs
    refine ⟨lo, hrep, ?_⟩
    split
    · next hne =>
      refine ⟨hpc, show lo < log.length from ?_⟩
      rw [hrep.writeIndex, hrep.readIndex, Ne, counter_eq_iff hlo (by omega)] at hne
      omega
    · exact hpc
  | loadByte =>
    cases pc <;> simp only [Step, exec, reduceCtorEq, Option.map_eq_some_iff] at hs
    obtain ⟨b, hb, rfl⟩ := hs
    obtain ⟨hgot, hlt⟩ := hpc
    refine ⟨lo, hrep, ?_, hlt⟩
    have hget : b = log[lo] := by
      have hslot := hrep.holds lo hlt (Nat.le_refl _)
      rw [hrep.readIndex, hrep.slot hk] at hb
      simp only [Array.getD_eq_getD_getElem?, hb, Option.getD_some] at hslot
      exact hslot
    rw [hget, List.take_succ_eq_append_getElem hlt]
    exact hgot.append (List.Sublist.refl _)
  | loadIndex =>
    cases pc <;> simp only [Step, exec, reduceCtorEq, Option.some.injEq] at hs
    subst hs
    obtain ⟨hgot, hlt⟩ := hpc
    exact ⟨lo, hrep, lo, hrep.readIndex, .inl rfl, hlt, show log.length ≤ lo + 1 + 2 ^ k by omega, hgot⟩
  | storeIndex =>
    cases pc <;> simp only [Step, exec, reduceCtorEq, Option.some.injEq] at hs
    subst hs
    obtain ⟨c, rfl, hc, hlt, hlen, hgot⟩ := hpc
    exact ⟨c + 1, ⟨hrep.size, hrep.bufSize, hrep.writeIndex, counter_succ c, hlt, hlen,
      hrep.holds.drop (by omega)⟩, hgot⟩
  | put data =>
    obtain ⟨rb', hput, hrep'⟩ := ringbufferPut_represents hrep hk data
    simp only [Step, exec, hput, Option.map_some, Option.some.injEq] at hs
    subst hs
    have hloaded : Loaded k (log ++ [data]) got (if log.length < lo + 2 ^ k then lo else lo + 1) pc := by
      refine hpc.put hlo (by split <;> omega) (by split <;> omega) (by split <;> omega) ?_
        (by split <;> omega)
      rintro b c rfl rfl
      by_cases hroom : log.length < c + 1 + 2 ^ k
      · rw [if_pos hroom]
      · -- a full ring whose `read_index` has moved already
        have hmoved : rb.readIndex = _ := hcalm ((hrep.full_iff hk).mpr hroom)
        rw [hrep.readIndex, counter_eq_iff (Nat.le_succ c) (by omega)] at hmoved
        omega
    exact ⟨_, hrep', hloaded⟩

/-- Every access that a `get` has left can be made, and so can every `put`. -/
theorem exec_isSome (hk : k ≤ 31) (h : Inv k s) (data : Byte) :
    (s.exec (.put data)).isSome ∧ ∃ act, (∀ b, act ≠ .put b) ∧ (s.exec act).isSome := by
  obtain ⟨rb, pc, log, got⟩ := s
  obtain ⟨lo, hrep, hpc⟩ := h
  replace hrep : Represents k rb log lo := hrep
  obtain ⟨rb', hput, -⟩ := ringbufferPut_represents hrep hk data
  refine ⟨by simp [exec, hput], ?_⟩
  cases pc with
  | idle => exact ⟨.compare, by simp, rfl⟩
  | loadByte =>
    have hin : lo % 2 ^ k < rb.buf.size := by
      rw [hrep.bufSize]
      exact Nat.mod_lt _ (Nat.two_pow_pos k)
    refine ⟨.loadByte, by simp, ?_⟩
    simp [exec, hrep.readIndex, hrep.slot hk, hin]
  | loadIndex b => exact ⟨.loadIndex, by simp, rfl⟩
  | storeIndex b r => exact ⟨.storeIndex, by simp, rfl⟩

end PreemptedRing

open PreemptedRing

/-- In every interleaving from an initialised ring in which no `put` finds the ring full between the load
and the store of a `get` once `read_index` has moved in between, the ring holds at most its size between
`get`s, and the bytes returned are the bytes put, in order and none twice, less those given up. -/
theorem preempted_ok {k : Nat} (hk : k ≤ 31) {s : PreemptedRing} {tr : List (RingAct × PreemptedRing)}
    (h0 : Initial k s) (h : Run Step s tr) (hcalm : Along Calm s tr) : ∀ p ∈ tr, Ok k p.2 := by
  have hinv := h.invariant_along (Inv k) Calm (fun _ _ _ hinv hc hst => inv_step hk hinv hst hc)
    (h0.inv hk) hcalm
  exact fun p hp => (hinv p hp).ok hk

/-- A ring of two bytes, empty. -/
def ringOfTwo : PreemptedRing := ⟨(ringbufferInit ⟨#[], 0#32, 0#32, 0#32⟩ #[0#8, 0#8] 2#32).2, .idle, [], []⟩

theorem ringOfTwo_initial : Initial 1 ringOfTwo := ⟨_, #[0#8, 0#8], rfl, rfl⟩

/-- One `put` on the full ring between the load and the store. -/
theorem preempted_once : ∃ tr, Run Step ringOfTwo tr ∧
    tr.map (·.1) = [.put 1#8, .put 2#8, .compare, .loadByte, .loadIndex, .put 3#8, .storeIndex] ∧
    ∀ p ∈ tr, Ok 1 p.2 := by
  have htrace : ∃ tr, trace exec ringOfTwo
      [.put 1#8, .put 2#8, .compare, .loadByte, .loadIndex, .put 3#8, .storeIndex] = some tr ∧
      Along Calm ringOfTwo tr := exists_trace (by decide)
  obtain ⟨tr, htr, hcalm⟩ := htrace
  have hrun := run_of_trace htr
  exact ⟨tr, hrun, map_trace htr, preempted_ok (by decide) ringOfTwo_initial hrun hcalm⟩

/-- Two of them: the ring of two bytes claims to hold three, and hands out the fourth byte before the third
and again after it. -/
theorem preempted_twice : ∃ tr, Run Step ringOfTwo tr ∧
    tr.map (·.1) =
      ([.put 1#8, .put 2#8, .compare, .loadByte, .loadIndex, .put 3#8, .put 4#8, .storeIndex] : List RingAct) ++
      ([.compare, .loadByte, .loadIndex, .storeIndex, .compare, .loadByte, .loadIndex, .storeIndex] :
        List RingAct) ++
      ([.compare, .loadByte, .loadIndex, .storeIndex] : List RingAct) ∧
    (∃ p ∈ tr, p.2.pc = .idle ∧ (ringbufferNum p.2.rb).toNat = 3) ∧
    (endOf ringOfTwo tr).log = [1#8, 2#8, 3#8, 4#8] ∧ (endOf ringOfTwo tr).got = [1#8, 4#8, 3#8, 4#8] := by
  have htrace : ∃ tr, trace exec ringOfTwo
      (([.put 1#8, .put 2#8, .compare, .loadByte, .loadIndex, .put 3#8, .put 4#8, .storeIndex] : List RingAct) ++
        ([.compare, .loadByte, .loadIndex, .storeIndex, .compare, .loadByte, .loadIndex, .storeIndex] :
          List RingAct) ++
        ([.compare, .loadByte, .loadIndex, .storeIndex] : List RingAct)) = some tr ∧
      (∃ p ∈ tr, p.2.pc = .idle ∧ (ringbufferNum p.2.rb).toNat = 3) ∧
      (endOf ringOfTwo tr).log = [1#8, 2#8, 3#8, 4#8] ∧
      (endOf ringOfTwo tr).got = [1#8, 4#8, 3#8, 4#8] := exists_trace (by decide)
  obtain ⟨tr, htr, hnum, hlog, hgot⟩ := htrace
  exact ⟨tr, run_of_trace htr, map_trace htr, hnum, hlog, hgot⟩

end V85x
