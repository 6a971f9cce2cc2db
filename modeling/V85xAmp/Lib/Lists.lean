import Mathlib.Data.List.Nodup
import Mathlib.Data.List.TakeWhile

/-!
# Parts of a list

`l.takeWhile (· ≠ a)` is the part of `l` before the first `a`; `l.take n` is what the first `n` steps of a
process on `l` have seen, and `l.drop n` what is left.
-/

namespace Firmware

section Parts

variable {α : Type} {l : List α} {a : α} {n i : Nat}

theorem mem_drop_of_getElem? (h : l[i]? = some a) (hn : n ≤ i) : a ∈ l.drop n := by
  refine @List.mem_of_getElem? _ _ (i - n) _ ?_
  rw [List.getElem?_drop, Nat.add_sub_cancel' hn, h]

theorem take_succ_of_getElem? (h : l[n]? = some a) : l.take (n + 1) = l.take n ++ [a] := by
  rw [List.take_add_one, h]
  rfl

/-- What is left after one more step. -/
theorem drop_of_getElem? (h : l[n]? = some a) : l.drop n = a :: l.drop (n + 1) := by
  obtain ⟨hlt, rfl⟩ := List.getElem?_eq_some_iff.mp h
  exact List.drop_eq_getElem_cons hlt

/-- The first entries of a log are among those of a longer one. -/
theorem take_sublist_snoc {m : Nat} (hm : m ≤ l.length) (hmn : m ≤ n) :
    (l.take m).Sublist ((l ++ [a]).take n) := by
  have htake : (l ++ [a]).take m = l.take m := List.take_append_of_le_length hm
  rw [← htake]
  exact (List.take_prefix_take_left hmn).sublist

end Parts

variable {α : Type} [DecidableEq α] {a : α} {l l₁ l₂ : List α}

theorem takeWhile_ne_append_cons (ha : a ∉ l₁) : (l₁ ++ a :: l₂).takeWhile (· ≠ a) = l₁ := by
  rw [List.takeWhile_append_of_pos fun x hx => by simpa using ne_of_mem_of_not_mem hx ha]
  simp

theorem takeWhile_ne_of_notMem (ha : a ∉ l) : l.takeWhile (· ≠ a) = l :=
  List.takeWhile_eq_self_iff.mpr fun x hx => by simpa using ne_of_mem_of_not_mem hx ha

end Firmware
