import V85xAmp.Lib.Ring

/-!
# Queues in a ring

Two parties share a ring of `n = 2 ^ k` slots: one writes entries behind the counter `hi`, the other one
reads those from its counter `lo` on. `RingQueue n ring lo hi ahead q`: the slots from `lo` on hold the
queue `q`, and `hi` has passed all of it but the last `ahead` entries, which are written and not yet
shown to the reader.

The operations are those of a queue: an empty one is seen from the counters (`eq_iff`), the reader takes the
first entry (`pop`), and the writer adds one in two steps (`write`, `show_`).
-/

namespace Firmware

variable {α : Type} {w k n ahead : Nat} {ring : Nat → α} {lo hi : BitVec w} {q : List α}

def RingQueue (n : Nat) (ring : Nat → α) (lo hi : BitVec w) (ahead : Nat) (q : List α) : Prop :=
  ∃ c v, lo = BitVec.ofNat w c ∧ hi = BitVec.ofNat w (c + v) ∧ v + ahead = q.length ∧
    ∀ i (h : i < q.length), ring ((c + i) % n) = q[i]

namespace RingQueue

theorem nil (n : Nat) (ring : Nat → α) (lo : BitVec w) : RingQueue n ring lo lo 0 [] :=
  ⟨lo.toNat, 0, (BitVec.ofNat_toNat w lo).symm ▸ by simp, by simp, rfl, fun i h => by cases h⟩

/-- The slot of a counter. -/
theorem slot_eq (hk : k ≤ w) (c : Nat) : (BitVec.ofNat w c).toNat % 2 ^ k = c % 2 ^ k := by
  rw [BitVec.toNat_ofNat, Nat.mod_mod_of_dvd _ (Nat.pow_dvd_pow 2 hk)]

/-- The counters are equal when nothing is shown. -/
theorem eq_iff (h : RingQueue n ring lo hi ahead q) (hlt : q.length < 2 ^ w) :
    lo = hi ↔ q.length = ahead := by
  obtain ⟨c, v, rfl, rfl, hv, -⟩ := h
  rw [eq_comm, counter_eq_iff (by omega) (by omega)]
  omega

/-- The reader takes the first entry. -/
theorem pop (hk : k ≤ w) (h : RingQueue (2 ^ k) ring lo hi ahead q) (hne : lo ≠ hi) :
    ∃ a q', q = a :: q' ∧ ring (lo.toNat % 2 ^ k) = a ∧ RingQueue (2 ^ k) ring (lo + 1#w) hi ahead q' := by
  obtain ⟨c, v, rfl, rfl, hv, hring⟩ := h
  have hpos : v ≠ 0 := by
    rintro rfl
    exact hne rfl
  cases q with
  | nil =>
    rw [List.length_nil] at hv
    omega
  | cons a q' =>
    refine ⟨a, q', rfl, ?_, c + 1, v - 1, counter_succ c, ?_, ?_, fun i hi => ?_⟩
    · rw [slot_eq hk]
      exact hring 0 (Nat.succ_pos _)
    · rw [show c + 1 + (v - 1) = c + v by omega]
    · rw [List.length_cons] at hv
      omega
    · rw [show c + 1 + i = c + (i + 1) by omega]
      exact hring (i + 1) (Nat.succ_lt_succ hi)

/-- The writer fills the slot behind the queue. -/
theorem write (hk : k ≤ w) (h : RingQueue (2 ^ k) ring lo hi 0 q) (hroom : q.length < 2 ^ k) (a : α) :
    RingQueue (2 ^ k) (Function.update ring (hi.toNat % 2 ^ k) a) lo hi 1 (q ++ [a]) := by
  obtain ⟨c, v, rfl, rfl, hv, hring⟩ := h
  obtain rfl : v = q.length := hv
  refine ⟨c, q.length, rfl, rfl, by simp, fun i hi => ?_⟩
  rw [slot_eq hk]
  by_cases hlast : i = q.length
  · subst hlast
    simp
  · have hlt : i < q.length := by simp at hi; omega
    rw [Function.update_of_ne (slot_ne (by omega) (by omega)), List.getElem_append_left hlt]
    exact hring i hlt

/-- The writer shows what it wrote. -/
theorem show_ (h : RingQueue n ring lo hi 1 q) : RingQueue n ring lo (hi + 1#w) 0 q := by
  obtain ⟨c, v, rfl, rfl, hv, hring⟩ := h
  exact ⟨c, v + 1, rfl, counter_succ (c + v), hv, hring⟩

/-- Only the slots of the ring matter. -/
theorem congr {ring' : Nat → α} (h : RingQueue n ring lo hi ahead q) (hn : 0 < n)
    (he : ∀ i < n, ring' i = ring i) : RingQueue n ring' lo hi ahead q := by
  obtain ⟨c, v, hlo, hhi, hv, hring⟩ := h
  refine ⟨c, v, hlo, hhi, hv, fun i hi => ?_⟩
  rw [he _ (Nat.mod_lt _ hn)]
  exact hring i hi

/-- How far the counters are apart. -/
theorem toNat_sub (h : RingQueue n ring lo hi ahead q) (hlt : q.length < 2 ^ w) :
    (hi - lo).toNat + ahead = q.length := by
  obtain ⟨c, v, rfl, rfl, hv, -⟩ := h
  rw [toNat_counter_sub (by omega) (by omega)]
  omega

end RingQueue

end Firmware
