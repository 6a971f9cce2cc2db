import V85xAmp.Lib.Comp
import V85xAmp.Lib.Lists
import V85xAmp.Lib.Mem

/-!
# C strings

A character pointer is the function from offsets to the bytes it reads. `IsCString p l`: the string at
`p` is `l`, that is, the bytes of `l` are not NUL and a NUL follows them. A memory has at most one
string at a place (`IsCString.unique`), and a NUL among the first bytes ends it there
(`isCString_beforeNul`).
-/

namespace Firmware

/-- The characters of `l`, none of them NUL, followed by a NUL. -/
structure IsCString (p : Nat → Byte) (l : List Byte) : Prop where
  get : ∀ i (h : i < l.length), p i = l[i]
  nul : p l.length = 0#8
  notMem : 0#8 ∉ l

/-- A pointer to a string literal. -/
def cstr (l : List Byte) : Nat → Byte := fun i => l.getD i 0#8

variable {p : Nat → Byte} {l l' : List Byte}

theorem isCString_cstr (h : 0#8 ∉ l) : IsCString (cstr l) l :=
  ⟨fun i hi => by simp [cstr, hi], by simp [cstr], h⟩

theorem IsCString.ne_nul (h : IsCString p l) {i : Nat} (hi : i < l.length) : p i ≠ 0#8 := by
  rw [h.get i hi]
  exact fun h0 => h.notMem (h0 ▸ List.getElem_mem hi)

theorem IsCString.length_unique (h : IsCString p l) (h' : IsCString p l') : l.length = l'.length := by
  rcases Nat.lt_trichotomy l.length l'.length with hlt | heq | hgt
  · exact absurd h.nul (h'.ne_nul hlt)
  · exact heq
  · exact absurd h'.nul (h.ne_nul hgt)

theorem IsCString.unique (h : IsCString p l) (h' : IsCString p l') : l = l' := by
  apply List.ext_getElem (h.length_unique h')
  intro i hi hi'
  rw [← h.get i hi, h'.get i hi']

/-- The part of `l` before its first NUL. -/
def beforeNul (l : List Byte) : List Byte := l.takeWhile (· ≠ 0#8)

theorem length_beforeNul_le (l : List Byte) : (beforeNul l).length ≤ l.length :=
  (List.takeWhile_sublist _).length_le

theorem beforeNul_of_notMem (h : 0#8 ∉ l) : beforeNul l = l := takeWhile_ne_of_notMem h

/-- Bytes with a NUL among them or behind them: the string ends at the first one. -/
theorem isCString_beforeNul (hget : ∀ i (h : i < l.length), p i = l[i])
    (hnul : p l.length = 0#8 ∨ 0#8 ∈ l) : IsCString p (beforeNul l) := by
  by_cases h0 : 0#8 ∈ l
  · obtain ⟨l₁, l₂, hnot, rfl, -⟩ := List.exists_erase_eq h0
    rw [beforeNul, takeWhile_ne_append_cons hnot]
    refine ⟨fun i hi => ?_, ?_, hnot⟩
    · rw [hget i (by simp; omega), List.getElem_append_left hi]
    · rw [hget l₁.length (by simp), List.getElem_append_right (Nat.le_refl _)]
      simp
  · rw [beforeNul_of_notMem h0]
    exact ⟨hget, hnul.resolve_right h0, h0⟩

/-- A store of a character behind the bytes of `l`, and of a NUL behind it. -/
theorem isCString_snoc {c : Byte} (hget : ∀ i (h : i < l.length), p i = l[i]) (hl : 0#8 ∉ l) (hc : c ≠ 0#8) :
    IsCString (Function.update (Function.update p l.length c) (l.length + 1) 0#8) (l ++ [c]) := by
  refine ⟨fun i hi => ?_, by simp, by simp [hl, hc.symm]⟩
  rw [List.length_append, List.length_singleton] at hi
  rw [Function.update_of_ne (by omega)]
  by_cases hlast : i = l.length
  · subst hlast
    simp
  · have hlt : i < l.length := by omega
    rw [Function.update_of_ne hlast, List.getElem_append_left hlt, hget i hlt]

/-! ## Length -/

/-- `strlen` -/
def strlen (p : Nat → Byte) : Comp Nat :=
  Comp.loop (fun s => pure (if p s ≠ 0#8 then .inl (s + 1) else .inr s)) 0

theorem strlen_returns (h : IsCString p l) : (strlen p).Returns l.length := by
  have hend : (strlen p).Ends (· = l.length) := by
    refine Comp.loop_ends (fun g s => s = g ∧ g ≤ l.length) (l.length - ·) ?_ 0 0 ⟨rfl, Nat.zero_le _⟩
    rintro g s ⟨rfl, hs⟩
    rw [Comp.ends_pure]
    by_cases hlt : s < l.length
    · rw [if_pos (h.ne_nul hlt)]
      exact ⟨s + 1, by omega, rfl, hlt⟩
    · obtain rfl : s = l.length := by omega
      rw [if_neg (by simp [h.nul])]
  obtain ⟨n, hn, rfl⟩ := hend
  exact hn

end Firmware
