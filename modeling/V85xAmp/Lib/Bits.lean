/-!
# Bit fields of machine words

`setField x i n v` is the word `x` with its `n` bits from bit `i` on replaced by the low bits of `v`, computed
by clearing a shifted mask and setting the shifted value. `getLsbD_setField` says which bits it has,
and `extractLsb'_setField` what another field, or the same one, reads afterwards.

`orField x i v` sets the bits of a small word `v` in `x` from bit `i` on, without clearing any.
`foldl_or_eq_iff` says when the bits that are collected in this way are those of one of the words.
-/

namespace Firmware

variable {w : Nat}

/-- The word with its `n` low bits set. -/
def lowOnes (w n : Nat) : BitVec w := ~~~ (BitVec.allOnes w <<< n)

def setField (x : BitVec w) (i n : Nat) (v : BitVec w) : BitVec w :=
  x &&& ~~~ (lowOnes w n <<< i) ||| (v &&& lowOnes w n) <<< i

theorem getLsbD_lowOnes (n j : Nat) : (lowOnes w n).getLsbD j = (decide (j < w) && decide (j < n)) := by
  by_cases hw : j < w
  · simp [lowOnes, hw]
  · simp [lowOnes, hw]

/-- The bits of the field are those of the value, the others are kept. -/
theorem getLsbD_setField (x v : BitVec w) (i n j : Nat) :
    (setField x i n v).getLsbD j =
      if i ≤ j ∧ j < i + n then decide (j < w) && v.getLsbD (j - i) else x.getLsbD j := by
  by_cases hw : j < w
  · simp only [setField, BitVec.getLsbD_or, BitVec.getLsbD_and, BitVec.getLsbD_not, BitVec.getLsbD_shiftLeft,
      getLsbD_lowOnes, hw, decide_true, Bool.true_and]
    by_cases hi : j < i
    · simp [hi, show ¬ i ≤ j by omega]
    · by_cases hn : j < i + n
      · simp [hi, show i ≤ j by omega, hn, show j - i < w by omega, show j - i < n by omega]
      · simp [hi, hn, show ¬ j - i < n by omega]
  · rw [BitVec.getLsbD_of_ge _ _ (by omega), BitVec.getLsbD_of_ge x _ (by omega)]
    simp [hw]

/-- A field reads back as it was written. -/
theorem extractLsb'_setField_self {i n : Nat} (h : i + n ≤ w) (x v : BitVec w) :
    (setField x i n v).extractLsb' i n = v.setWidth n := by
  apply BitVec.eq_of_getLsbD_eq
  intro j hj
  rw [BitVec.getLsbD_extractLsb', getLsbD_setField, if_pos (by omega), BitVec.getLsbD_setWidth]
  simp [hj, show i + j < w by omega, show i + j - i = j by omega]

/-- A disjoint field keeps its value. -/
theorem extractLsb'_setField_of_disjoint {i n i' n' : Nat} (h : i + n ≤ i' ∨ i' + n' ≤ i) (x v : BitVec w) :
    (setField x i n v).extractLsb' i' n' = x.extractLsb' i' n' := by
  apply BitVec.eq_of_getLsbD_eq
  intro j hj
  rw [BitVec.getLsbD_extractLsb', BitVec.getLsbD_extractLsb', getLsbD_setField, if_neg (by omega)]

/-! ## Setting bits -/

/-- The word `x` with the bits of `v` set from bit `i` on. -/
def orField {n : Nat} (x : BitVec w) (i : Nat) (v : BitVec n) : BitVec w := x ||| v.setWidth w <<< i

theorem getLsbD_orField {n : Nat} (x : BitVec w) (i : Nat) (v : BitVec n) (j : Nat) :
    (orField x i v).getLsbD j = (x.getLsbD j || (decide (i ≤ j ∧ j < w) && v.getLsbD (j - i))) := by
  simp only [orField, BitVec.getLsbD_or, BitVec.getLsbD_shiftLeft, BitVec.getLsbD_setWidth]
  by_cases hw : j < w
  · by_cases hi : i ≤ j
    · simp [hw, hi, show ¬ j < i by omega, show j - i < w by omega]
    · simp [hi, show j < i by omega]
  · simp [hw]

theorem extractLsb'_orField_self {n i : Nat} (h : i + n ≤ w) (x : BitVec w) (v : BitVec n) :
    (orField x i v).extractLsb' i n = x.extractLsb' i n ||| v := by
  apply BitVec.eq_of_getLsbD_eq
  intro j hj
  rw [BitVec.getLsbD_extractLsb', getLsbD_orField, BitVec.getLsbD_or, BitVec.getLsbD_extractLsb']
  simp [hj, show i + j < w by omega]

/-- A bit that is not in the field keeps its value. -/
theorem getLsbD_orField_of_disjoint {n i j : Nat} (h : j < i ∨ i + n ≤ j) (x : BitVec w) (v : BitVec n) :
    (orField x i v).getLsbD j = x.getLsbD j := by
  rw [getLsbD_orField]
  rcases h with h | h
  · simp [show ¬ i ≤ j by omega]
  · simp [BitVec.getLsbD_of_ge v (j - i) (by omega)]

theorem extractLsb'_orField_of_disjoint {n i i' n' : Nat} (h : i + n ≤ i' ∨ i' + n' ≤ i) (x : BitVec w)
    (v : BitVec n) : (orField x i v).extractLsb' i' n' = x.extractLsb' i' n' := by
  apply BitVec.eq_of_getLsbD_eq
  intro j hj
  rw [BitVec.getLsbD_extractLsb', BitVec.getLsbD_extractLsb', getLsbD_orField_of_disjoint (by omega)]

/-- To clear the bits of a value before they are set makes no difference. -/
theorem and_not_or (x v : BitVec w) : x &&& ~~~ v ||| v = x ||| v := by
  apply BitVec.eq_of_getLsbD_eq
  intro j hj
  simp only [BitVec.getLsbD_or, BitVec.getLsbD_and, BitVec.getLsbD_not, hj, decide_true, Bool.true_and]
  cases x.getLsbD j <;> cases v.getLsbD j <;> rfl

theorem getLsbD_foldl_or (l : List (BitVec w)) (x : BitVec w) (j : Nat) :
    (l.foldl (· ||| ·) x).getLsbD j = (x.getLsbD j || l.any (·.getLsbD j)) := by
  induction l generalizing x with
  | nil => simp
  | cons y l ih => rw [List.foldl_cons, ih, BitVec.getLsbD_or, List.any_cons, Bool.or_assoc]

theorem and_eq_left_iff {x y : BitVec w} : x &&& y = x ↔ ∀ j, x.getLsbD j = true → y.getLsbD j = true := by
  constructor
  · intro h j hj
    rw [← h, BitVec.getLsbD_and, Bool.and_eq_true] at hj
    exact hj.2
  · intro h
    apply BitVec.eq_of_getLsbD_eq
    intro j _
    rw [BitVec.getLsbD_and]
    cases hx : x.getLsbD j with
    | false => rfl
    | true => rw [h j hx, Bool.and_self]

/-- Collected bits are those of one of the words exactly if every other word has none but those. -/
theorem foldl_or_eq_iff {l : List (BitVec w)} {x y : BitVec w} (hy : y ∈ l) :
    l.foldl (· ||| ·) x = y ↔ ∀ z ∈ x :: l, z &&& y = z := by
  constructor
  · intro h z hz
    rw [and_eq_left_iff]
    intro j hj
    rw [← h, getLsbD_foldl_or, Bool.or_eq_true, List.any_eq_true]
    rcases List.mem_cons.mp hz with rfl | hz
    · exact .inl hj
    · exact .inr ⟨z, hz, hj⟩
  · intro h
    apply BitVec.eq_of_getLsbD_eq
    intro j _
    rw [getLsbD_foldl_or, Bool.eq_iff_iff, Bool.or_eq_true, List.any_eq_true]
    constructor
    · rintro (hx | ⟨z, hz, hj⟩)
      · exact and_eq_left_iff.mp (h x List.mem_cons_self) j hx
      · exact and_eq_left_iff.mp (h z (List.mem_cons_of_mem _ hz)) j hj
    · exact fun hj => .inr ⟨y, hy, hj⟩

/-- The test of a single bit. -/
theorem and_one_shiftLeft_ne_zero {i : Nat} (h : i < w) (x : BitVec w) :
    x &&& 1#w <<< i ≠ 0#w ↔ x.getLsbD i = true := by
  have hbit : ∀ j, j < w → (x &&& 1#w <<< i).getLsbD j = (decide (j = i) && x.getLsbD i) := by
    intro j hj
    rw [BitVec.getLsbD_and, BitVec.getLsbD_shiftLeft, BitVec.getLsbD_one]
    by_cases he : j = i
    · subst he
      simp [hj, show 0 < w by omega]
    · simp [he, hj]
      omega
  constructor
  · intro hne
    cases hx : x.getLsbD i with
    | true => rfl
    | false =>
      refine absurd ?_ hne
      apply BitVec.eq_of_getLsbD_eq
      intro j hj
      rw [hbit j hj, hx]
      simp
  · intro hx hzero
    have := hbit i h
    rw [hzero, hx] at this
    simp at this

end Firmware
