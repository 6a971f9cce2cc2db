import Mathlib.Data.List.Basic
import Mathlib.Logic.Function.Basic
import Mathlib.Tactic.Ring

/-!
# Ring buffers with free-running counters

A ring of `n = 2 ^ k` slots is driven by counters of `w ≥ k` bits that only ever grow and wrap at
`2 ^ w`. The proofs follow the unbounded counts behind them: `BitVec.ofNat w c` is the counter after
`c` increments.

* A counter's slot is its low bits, and that is the count modulo `n` (`toNat_mask`).
* The difference of two counters is the difference of the counts while that is below `2 ^ w`
  (`toNat_counter_sub`), and equal counters have equal counts (`counter_eq_iff`).
* `HoldsFrom n ring log lo`: the ring holds the entries of `log` from number `lo` on, entry `i` in
  slot `i % n`. Writing the next slot appends an entry (`HoldsFrom.push`) while fewer than `n`
  entries are held; giving up the oldest ones only raises `lo` (`HoldsFrom.drop`).
-/

namespace Firmware

/-! ## Counters -/

/-- The low `k` bits of a word. -/
theorem toNat_mask {w k : Nat} (hk : k ≤ w) (x : BitVec w) :
    (x &&& BitVec.ofNat w (2 ^ k - 1)).toNat = x.toNat % 2 ^ k := by
  have hle : 2 ^ k ≤ 2 ^ w := Nat.pow_le_pow_right (by decide) hk
  have hpos : 0 < 2 ^ k := Nat.two_pow_pos k
  rw [BitVec.toNat_and, BitVec.toNat_ofNat, Nat.mod_eq_of_lt (by omega),
    Nat.and_two_pow_sub_one_eq_mod]

/-- The slot of a counter after `c` increments. -/
theorem slot_counter {w k : Nat} (hk : k ≤ w) (c : Nat) :
    (BitVec.ofNat w c &&& BitVec.ofNat w (2 ^ k - 1)).toNat = c % 2 ^ k := by
  rw [toNat_mask hk, BitVec.toNat_ofNat, Nat.mod_mod_of_dvd _ (Nat.pow_dvd_pow 2 hk)]

theorem counter_succ {w : Nat} (c : Nat) : BitVec.ofNat w c + 1#w = BitVec.ofNat w (c + 1) :=
  (BitVec.ofNat_add c 1).symm

theorem counter_sub {w : Nat} {a b : Nat} (h : b ≤ a) :
    BitVec.ofNat w a - BitVec.ofNat w b = BitVec.ofNat w (a - b) := by
  have : BitVec.ofNat w a = BitVec.ofNat w (a - b) + BitVec.ofNat w b := by
    rw [← BitVec.ofNat_add, Nat.sub_add_cancel h]
  rw [this, BitVec.add_sub_cancel]

/-- The distance of two counters. -/
theorem toNat_counter_sub {w : Nat} {a b : Nat} (h : b ≤ a) (hlt : a - b < 2 ^ w) :
    (BitVec.ofNat w a - BitVec.ofNat w b).toNat = a - b := by
  rw [counter_sub h, BitVec.toNat_ofNat, Nat.mod_eq_of_lt hlt]

/-- Counters less than a full turn apart are equal only for equal counts. -/
theorem counter_eq_iff {w : Nat} {a b : Nat} (h : b ≤ a) (hlt : a - b < 2 ^ w) :
    BitVec.ofNat w a = BitVec.ofNat w b ↔ a = b := by
  refine ⟨fun he => ?_, fun he => by rw [he]⟩
  have hd := toNat_counter_sub h hlt
  rw [he, BitVec.sub_self, BitVec.toNat_zero] at hd
  omega

/-! ## Slots -/

/-- Numbers less than one turn apart have different slots. -/
theorem slot_ne {n i j : Nat} (hij : i < j) (hlt : j - i < n) : i % n ≠ j % n := by
  intro h
  have hdvd : n ∣ j - i := Nat.dvd_of_mod_eq_zero (Nat.sub_mod_eq_zero_of_mod_eq h.symm)
  have := Nat.le_of_dvd (by omega) hdvd
  omega

variable {α : Type}

/-- The ring holds the entries of `log` from number `lo` on, entry `i` in slot `i % n`. -/
def HoldsFrom (n : Nat) (ring : Nat → α) (log : List α) (lo : Nat) : Prop :=
  ∀ i (hi : i < log.length), lo ≤ i → ring (i % n) = log[i]

variable {n lo lo' : Nat} {ring : Nat → α} {log : List α} {a : α}

theorem holdsFrom_nil : HoldsFrom n ring [] lo := by
  intro i hi
  cases hi

/-- Give up the oldest entries. -/
theorem HoldsFrom.drop (h : HoldsFrom n ring log lo) (hlo : lo ≤ lo') : HoldsFrom n ring log lo' :=
  fun i hi hle => h i hi (hlo.trans hle)

/-- Write the next entry into its slot. -/
theorem HoldsFrom.push (h : HoldsFrom n ring log lo) (hroom : log.length < lo + n) (a : α) :
    HoldsFrom n (Function.update ring (log.length % n) a) (log ++ [a]) lo := by
  intro i hi hle
  by_cases hlast : i = log.length
  · subst hlast
    simp
  · have hlt : i < log.length := by simp at hi; omega
    rw [Function.update_of_ne (slot_ne hlt (by omega)), List.getElem_append_left hlt]
    exact h i hlt hle

/-- The next slot has the next entry already. -/
theorem HoldsFrom.snoc (h : HoldsFrom n ring log lo) (ha : ring (log.length % n) = a) :
    HoldsFrom n ring (log ++ [a]) lo := by
  intro i hi hle
  by_cases hlast : i = log.length
  · subst hlast
    simpa using ha
  · have hlt : i < log.length := by simp at hi; omega
    rw [List.getElem_append_left hlt]
    exact h i hlt hle

/-- A write to a slot outside the window. -/
theorem HoldsFrom.congr {ring' : Nat → α} (h : HoldsFrom n ring log lo)
    (he : ∀ i, lo ≤ i → i < log.length → ring' (i % n) = ring (i % n)) :
    HoldsFrom n ring' log lo :=
  fun i hi hle => (he i hle hi).trans (h i hi hle)

end Firmware
