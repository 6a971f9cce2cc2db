import Mathlib.Logic.Function.Basic
import Mathlib.Algebra.Group.Nat.Even

/-!
# Byte-addressed memory

`Mem` is a memory of bytes. `load16`, `load32`, `store16` and `store32` access little-endian words,
whose values are natural numbers (a store keeps the low bits). An access of `n` bytes at `a` covers
`a..a+n`; it does not wrap at the end of the address space.

A load is determined by the bytes that it covers (`load32_congr`), a store leaves every other byte
(`store32_apply_of_disjoint`), and a load after a store to the same place gives the stored value
(`load32_store32_self`).
-/

namespace Firmware

abbrev Byte := BitVec 8

/-- A memory of bytes. -/
abbrev Mem := Nat → Byte

def load16 (m : Mem) (a : Nat) : Nat := (m a).toNat + 0x100 * (m (a + 1)).toNat

def load32 (m : Mem) (a : Nat) : Nat :=
  (m a).toNat + 0x100 * (m (a + 1)).toNat + 0x10000 * (m (a + 2)).toNat +
    0x1000000 * (m (a + 3)).toNat

def store16 (m : Mem) (a v : Nat) : Mem := fun x =>
  if x = a then BitVec.ofNat 8 v
  else if x = a + 1 then BitVec.ofNat 8 (v / 0x100)
  else m x

def store32 (m : Mem) (a v : Nat) : Mem := fun x =>
  if x = a then BitVec.ofNat 8 v
  else if x = a + 1 then BitVec.ofNat 8 (v / 0x100)
  else if x = a + 2 then BitVec.ofNat 8 (v / 0x10000)
  else if x = a + 3 then BitVec.ofNat 8 (v / 0x1000000)
  else m x

/-- `memcpy` between ranges that do not overlap. -/
def copyBytes (m : Mem) (dst src n : Nat) : Mem := fun x =>
  if dst ≤ x ∧ x < dst + n then m (src + (x - dst)) else m x

/-- The bytes `l` lie in memory from `a` on. -/
def BytesAt (m : Mem) (a : Nat) (l : List Byte) : Prop := ∀ i < l.length, m (a + i) = l.getD i 0#8

section Lemmas

variable {m m' : Mem} {a b v x : Nat} {l : List Byte}

theorem load32_lt (m : Mem) (a : Nat) : load32 m a < 2 ^ 32 := by
  have h0 := (m a).isLt
  have h1 := (m (a + 1)).isLt
  have h2 := (m (a + 2)).isLt
  have h3 := (m (a + 3)).isLt
  unfold load32
  omega

theorem load32_congr (h : ∀ x, a ≤ x → x < a + 4 → m' x = m x) : load32 m' a = load32 m a := by
  unfold load32
  rw [h a (by omega) (by omega), h (a + 1) (by omega) (by omega), h (a + 2) (by omega) (by omega),
    h (a + 3) (by omega) (by omega)]

theorem load16_congr (h : ∀ x, a ≤ x → x < a + 2 → m' x = m x) : load16 m' a = load16 m a := by
  unfold load16
  rw [h a (by omega) (by omega), h (a + 1) (by omega) (by omega)]

theorem store32_apply_of_disjoint (h : x < a ∨ a + 4 ≤ x) : store32 m a v x = m x := by
  unfold store32
  rw [if_neg (by omega), if_neg (by omega), if_neg (by omega), if_neg (by omega)]

theorem load32_store32_self (m : Mem) (a v : Nat) : load32 (store32 m a v) a = v % 2 ^ 32 := by
  simp [load32, store32]
  omega

theorem load32_store32_of_disjoint (h : a + 4 ≤ b ∨ b + 4 ≤ a) :
    load32 (store32 m a v) b = load32 m b :=
  load32_congr fun x h1 h2 => store32_apply_of_disjoint (by omega)

theorem copyBytes_apply_of_disjoint {dst src n : Nat} (h : x < dst ∨ dst + n ≤ x) :
    copyBytes m dst src n x = m x := by
  unfold copyBytes
  rw [if_neg (by omega)]

theorem bytesAt_nil (m : Mem) (a : Nat) : BytesAt m a [] := fun _ hi => (Nat.not_lt_zero _ hi).elim

theorem BytesAt.congr (h : BytesAt m a l) (hm : ∀ x, a ≤ x → x < a + l.length → m' x = m x) :
    BytesAt m' a l :=
  fun i hi => (hm _ (Nat.le_add_right _ _) (by omega)).trans (h i hi)

/-- One more byte of a list is stored. -/
theorem BytesAt.store {n : Nat} (h : BytesAt m a (l.take n)) (hn : n < l.length) :
    BytesAt (Function.update m (a + n) (l.getD n 0#8)) a (l.take (n + 1)) := by
  intro i hi
  rw [List.length_take] at hi
  have htake : ∀ {j}, i < j → (l.take j).getD i 0#8 = l.getD i 0#8 := fun hj => by
    simp [List.getD, hj]
  rcases Nat.lt_or_ge i n with hlt | hge
  · have hi' : i < (l.take n).length := by
      rw [List.length_take]
      omega
    rw [Function.update_of_ne (by omega), h i hi', htake hlt, htake (by omega)]
  · obtain rfl : i = n := by omega
    rw [Function.update_self, htake (Nat.lt_succ_self i)]

/-- What a reader of the bytes gets. -/
theorem BytesAt.map_range (h : BytesAt m a l) : (List.range l.length).map (fun i => m (a + i)) = l := by
  apply List.ext_getElem (by simp)
  intro i hi hi'
  rw [List.getElem_map, List.getElem_range, h i hi', ← List.getElem_eq_getD]

end Lemmas

end Firmware
