import Mathlib.Logic.Function.Basic
import V85xAmp.Lib.Lists

/-!
# Intrusive singly linked lists

A singly linked list that lives in its nodes is a successor function `next`, and `none` is the null
pointer. `Path next p l q`: following `next` from `p` visits the nodes `l` and then stands at `q`.
`Chain next p l` is a path to the null pointer: the list that a walk from `p` sees.

A chain from `p` is determined by `next` and `p` (`Chain.unique`) and visits no node twice
(`Chain.nodup`). The edits of such lists change `next` at one node: `Path.update` for a node off the
path and `Path.update_last` for its last node. `Chain.link` links a node behind the last one: if the
node is in the chain already, the chain is cut after it. `Chain.unlink` takes a node out.
-/

namespace Firmware

variable {α : Type}

/-- Following `next` from `p` visits the nodes `l` in order and then stands at `q`. -/
def Path (next : α → Option α) : Option α → List α → Option α → Prop
  | p, [], q => p = q
  | p, a :: l, q => p = some a ∧ Path next (next a) l q

/-- The walk along `next` from `p` sees the nodes `l` and ends. -/
abbrev Chain (next : α → Option α) (p : Option α) (l : List α) : Prop := Path next p l none

variable {next next' : α → Option α} {p q : Option α} {a b : α} {l l₁ l₂ : List α}

@[simp] theorem path_nil : Path next p [] q ↔ p = q := Iff.rfl

@[simp] theorem path_cons : Path next p (a :: l) q ↔ p = some a ∧ Path next (next a) l q := Iff.rfl

theorem path_append :
    Path next p (l₁ ++ l₂) q ↔ ∃ r, Path next p l₁ r ∧ Path next r l₂ q := by
  induction l₁ generalizing p with
  | nil => simp
  | cons a l ih => simp [ih, and_assoc]

theorem path_concat : Path next p (l ++ [a]) q ↔ Path next p l (some a) ∧ next a = q := by
  simp [path_append]

/-- A path reads `next` only at its nodes. -/
theorem Path.congr (h : Path next p l q) (he : ∀ a ∈ l, next' a = next a) : Path next' p l q := by
  induction l generalizing p with
  | nil => exact h
  | cons a l ih =>
    refine ⟨h.1, ?_⟩
    rw [he a List.mem_cons_self]
    exact ih h.2 fun b hb => he b (List.mem_cons_of_mem _ hb)

/-- A chain is determined by its start. -/
theorem Chain.unique (h₁ : Chain next p l₁) (h₂ : Chain next p l₂) : l₁ = l₂ := by
  induction l₁ generalizing p l₂ with
  | nil =>
    cases l₂ with
    | nil => rfl
    | cons b l => simp [Chain] at h₁ h₂; simp [h₁] at h₂
  | cons a l ih =>
    cases l₂ with
    | nil => simp [Chain] at h₁ h₂; simp [h₂] at h₁
    | cons b l' =>
      obtain ⟨rfl, h₁⟩ := h₁
      obtain ⟨hab, h₂⟩ := h₂
      cases hab
      rw [ih h₁ h₂]

/-- A chain visits no node twice: from a second visit on, it would go round forever. -/
theorem Chain.nodup (h : Chain next p l) : l.Nodup := by
  induction l generalizing p with
  | nil => exact List.nodup_nil
  | cons a l ih =>
    refine List.nodup_cons.mpr ⟨fun hmem => ?_, ih h.2⟩
    obtain ⟨x, y, rfl⟩ := List.append_of_mem hmem
    obtain ⟨r, -, hr⟩ := path_append.mp h.2
    obtain ⟨rfl, hy⟩ := hr
    have hlen := congrArg List.length (Chain.unique h.2 hy)
    simp at hlen
    omega

section Update

variable [DecidableEq α]

/-- Changing the successor of a node off the path. -/
theorem Path.update (h : Path next p l q) (ha : a ∉ l) (v : Option α) :
    Path (Function.update next a v) p l q :=
  h.congr fun _ hb => Function.update_of_ne (ne_of_mem_of_not_mem hb ha) _ _

/-- Changing the successor of the last node of a path. -/
theorem Path.update_last (h : Path next p (l ++ [a]) q) (ha : a ∉ l) (v : Option α) :
    Path (Function.update next a v) p (l ++ [a]) v :=
  path_concat.mpr ⟨(path_concat.mp h).1.update ha v, Function.update_self _ _ _⟩

/-- Link `a` behind the last node `b` and end the chain at `a`. What stood behind `a` before is
lost. -/
theorem Chain.link (h : Chain next p (l ++ [b])) (a : α) :
    Chain (Function.update (Function.update next b (some a)) a none) p
      ((l ++ [b]).takeWhile (· ≠ a) ++ [a]) := by
  have hnodup := Chain.nodup h
  refine path_concat.mpr ⟨?_, Function.update_self _ _ _⟩
  by_cases ha : a ∈ l ++ [b]
  · obtain ⟨l₁, l₂, ha₁, he, -⟩ := List.exists_erase_eq ha
    have hlast : b ∈ a :: l₂ := by
      have hl : (l ++ [b]).getLast (by simp) = (l₁ ++ a :: l₂).getLast (by simp) := by simp only [he]
      rw [List.getLast_append_of_ne_nil _ (List.cons_ne_nil _ _), List.getLast_singleton,
        List.getLast_append_of_ne_nil _ (List.cons_ne_nil _ _)] at hl
      rw [hl]
      exact List.getLast_mem _
    have hb : b ∉ l₁ := by
      rw [he] at hnodup
      exact fun hb => (List.nodup_append.mp hnodup).2.2 b hb b hlast rfl
    rw [he, takeWhile_ne_append_cons ha₁]
    rw [he] at h
    obtain ⟨r, h₁, rfl, -⟩ := path_append.mp h
    exact (h₁.update hb _).update ha₁ _
  · rw [takeWhile_ne_of_notMem ha]
    have hb : b ∉ l := fun hb => (List.nodup_append.mp hnodup).2.2 b hb b (by simp) rfl
    exact (h.update_last hb _).update ha _

/-- Take `a` out behind its predecessor `b`. -/
theorem Chain.unlink (h : Chain next p (l₁ ++ [b] ++ a :: l₂)) :
    Chain (Function.update (Function.update next b (next a)) a none) p (l₁ ++ [b] ++ l₂) := by
  have hnodup := Chain.nodup h
  simp only [List.nodup_append, List.nodup_cons, List.mem_append, List.mem_cons] at hnodup
  obtain ⟨r, h₁, rfl, h₂⟩ := path_append.mp h
  refine path_append.mpr ⟨next a, ?_, ?_⟩
  · exact (h₁.update_last (fun hb => by grind) _).update (by grind) _
  · exact (h₂.update (by grind) _).update (by grind) _

end Update

end Firmware
