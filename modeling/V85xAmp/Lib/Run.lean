import Mathlib.Logic.Basic
import Mathlib.Logic.Function.Iterate

/-!
# Runs of a step relation

`step s i t`: the system goes from `s` to `t` by the action `i`.

* `Reachable step init s`: some run from a state of `init` ends in `s`; `Reachable.invariant` is
  the rule of invariants.
* `Run step s tr`: `tr` lists the actions of a run from `s`, each with the state after it.
  `Along cond s tr` says that `cond` holds of every action in the state before it.
  `Run.invariant_along` is the rule of invariants for such runs, and `trace` computes a run.
  `Run.always_iff` is the rule for a property that one step keeps under exactly one condition: all
  states of a run have the property if and only if all its actions meet the condition.
-/

namespace Firmware

variable {σ ι : Type}

/-- The states that a run from a state of `init` reaches. -/
inductive Reachable (step : σ → ι → σ → Prop) (init : σ → Prop) : σ → Prop
  | init {s : σ} : init s → Reachable step init s
  | step {s t : σ} {i : ι} : Reachable step init s → step s i t → Reachable step init t

/-- An invariant: it holds initially and every step keeps it. -/
theorem Reachable.invariant {step : σ → ι → σ → Prop} {init inv : σ → Prop}
    (h0 : ∀ s, init s → inv s) (hs : ∀ s i t, inv s → step s i t → inv t) {s : σ}
    (h : Reachable step init s) : inv s := by
  induction h with
  | init h => exact h0 _ h
  | step _ hst ih => exact hs _ _ _ ih hst

/-- Steps that repeat a function. -/
theorem Reachable.iterate {step : σ → ι → σ → Prop} {init : σ → Prop} {s : σ} (h : Reachable step init s)
    (f : σ → σ) (n : Nat) (hs : ∀ j < n, ∃ i, step (f^[j] s) i (f (f^[j] s))) :
    Reachable step init (f^[n] s) := by
  induction n with
  | zero => exact h
  | succ n ih =>
    obtain ⟨i, hi⟩ := hs n (Nat.lt_succ_self n)
    rw [Function.iterate_succ_apply']
    exact (ih fun j hj => hs j (Nat.lt_succ_of_lt hj)).step hi

/-- The run of the actions of `tr` from a state, with the state after each action. -/
inductive Run (step : σ → ι → σ → Prop) : σ → List (ι × σ) → Prop
  | nil (s : σ) : Run step s []
  | cons {s t : σ} {i : ι} {tr : List (ι × σ)} :
      step s i t → Run step t tr → Run step s ((i, t) :: tr)

/-- `cond` holds of every action of the run in the state before it. -/
def Along (cond : σ → ι → Prop) : σ → List (ι × σ) → Prop
  | _, [] => True
  | s, (i, t) :: tr => cond s i ∧ Along cond t tr

instance instDecidableAlong {cond : σ → ι → Prop} [∀ s i, Decidable (cond s i)] :
    (s : σ) → (tr : List (ι × σ)) → Decidable (Along cond s tr)
  | _, [] => .isTrue trivial
  | s, (i, t) :: tr =>
    have : Decidable (Along cond t tr) := instDecidableAlong t tr
    inferInstanceAs (Decidable (cond s i ∧ Along cond t tr))

/-- The state after the run. -/
def endOf (s : σ) (tr : List (ι × σ)) : σ := (tr.getLast?.map (·.2)).getD s

/-- The states of a run satisfy every invariant. -/
theorem Run.invariant {step : σ → ι → σ → Prop} {inv : σ → Prop}
    (hs : ∀ s i t, inv s → step s i t → inv t) {s : σ} {tr : List (ι × σ)} (h : Run step s tr)
    (h0 : inv s) : ∀ p ∈ tr, inv p.2 := by
  induction h with
  | nil => simp
  | cons hst _ ih =>
    have ht := hs _ _ _ h0 hst
    rintro p (_ | ⟨_, hp⟩)
    · exact ht
    · exact ih ht p hp

/-- The states of a run whose actions all meet `cond` satisfy every invariant that such actions keep. -/
theorem Run.invariant_along {step : σ → ι → σ → Prop} (inv : σ → Prop) (cond : σ → ι → Prop)
    (hs : ∀ s i t, inv s → cond s i → step s i t → inv t) {s : σ} {tr : List (ι × σ)} (h : Run step s tr)
    (h0 : inv s) (hc : Along cond s tr) : ∀ p ∈ tr, inv p.2 := by
  induction h with
  | nil => simp
  | cons hst _ ih =>
    have ht := hs _ _ _ h0 hc.1 hst
    rintro p (_ | ⟨_, hp⟩)
    · exact ht
    · exact ih ht hc.2 p hp

/-- A run whose steps lower a measure is at most as long as the measure. -/
theorem Run.length_le {step : σ → ι → σ → Prop} {inv : σ → Prop} (m : σ → Nat)
    (hs : ∀ s i t, inv s → step s i t → inv t ∧ m t < m s) {s : σ} {tr : List (ι × σ)}
    (h : Run step s tr) (h0 : inv s) : tr.length ≤ m s := by
  induction h with
  | nil => exact Nat.zero_le _
  | cons hst _ ih =>
    obtain ⟨ht, hlt⟩ := hs _ _ _ h0 hst
    have hle := ih ht
    rw [List.length_cons]
    omega

/-- The run of the actions `is` from `s`, when each of them has at most one result. -/
def trace (exec : σ → ι → Option σ) : σ → List ι → Option (List (ι × σ))
  | _, [] => some []
  | s, i :: is => (exec s i).bind fun t => (trace exec t is).map ((i, t) :: ·)

theorem run_of_trace {exec : σ → ι → Option σ} {s : σ} {is : List ι} {tr : List (ι × σ)}
    (h : trace exec s is = some tr) : Run (fun s i t => exec s i = some t) s tr := by
  induction is generalizing s tr with
  | nil =>
    obtain rfl := Option.some.inj h
    exact .nil s
  | cons i is ih =>
    obtain ⟨t, ht, h⟩ := Option.bind_eq_some_iff.mp h
    obtain ⟨tr, htr, rfl⟩ := Option.map_eq_some_iff.mp h
    exact .cons ht (ih htr)

/-- A computed run with a property that can be computed. -/
theorem exists_trace {exec : σ → ι → Option σ} {s : σ} {is : List ι} {good : List (ι × σ) → Prop}
    [DecidablePred good] (h : (trace exec s is).any (fun tr => decide (good tr)) = true) :
    ∃ tr, trace exec s is = some tr ∧ good tr := by
  cases htr : trace exec s is with
  | none =>
    rw [htr] at h
    cases h
  | some tr =>
    rw [htr] at h
    exact ⟨tr, rfl, of_decide_eq_true h⟩

theorem map_trace {exec : σ → ι → Option σ} {s : σ} {is : List ι} {tr : List (ι × σ)}
    (h : trace exec s is = some tr) : tr.map (·.1) = is := by
  induction is generalizing s tr with
  | nil =>
    obtain rfl := Option.some.inj h
    rfl
  | cons i is ih =>
    obtain ⟨t, ht, h⟩ := Option.bind_eq_some_iff.mp h
    obtain ⟨tr, htr, rfl⟩ := Option.map_eq_some_iff.mp h
    rw [List.map_cons, ih htr]

@[simp] theorem endOf_cons (s t : σ) (i : ι) (tr : List (ι × σ)) : endOf s ((i, t) :: tr) = endOf t tr := by
  cases tr with
  | nil => rfl
  | cons p tr =>
    rw [endOf, endOf, List.getLast?_cons_cons]
    cases h : (p :: tr).getLast? with
    | none => simp at h
    | some q => rfl

/-- What every step keeps holds at the end of a run. -/
theorem Run.endOf {step : σ → ι → σ → Prop} {inv : σ → Prop}
    (hs : ∀ s i t, inv s → step s i t → inv t) {s : σ} {tr : List (ι × σ)} (h : Run step s tr)
    (h0 : inv s) : inv (endOf s tr) := by
  cases hlast : tr.getLast? with
  | none =>
    rw [List.getLast?_eq_none_iff.mp hlast]
    exact h0
  | some p =>
    rw [Firmware.endOf, hlast]
    exact h.invariant hs h0 p (List.mem_of_getLast? hlast)

/-- Conditions that agree in the states of an invariant agree along a run. -/
theorem Run.along_iff {step : σ → ι → σ → Prop} {inv : σ → Prop} {cond cond' : σ → ι → Prop}
    (hs : ∀ s i t, inv s → step s i t → inv t) (hc : ∀ s i, inv s → (cond s i ↔ cond' s i)) {s : σ}
    {tr : List (ι × σ)} (h : Run step s tr) (h0 : inv s) : Along cond s tr ↔ Along cond' s tr := by
  induction h with
  | nil => exact Iff.rfl
  | @cons s t i tr hst _ ih => exact and_congr (hc s i h0) (ih (hs s i t h0 hst))

/-- A property `good` that a step from a good state keeps if and only if `cond` holds of its
action holds in every state of a run if and only if `cond` holds of every action. -/
theorem Run.always_iff {step : σ → ι → σ → Prop} (inv good : σ → Prop) (cond : σ → ι → Prop)
    (hinv : ∀ s i t, inv s → good s → step s i t → cond s i → inv t)
    (hgood : ∀ s i t, inv s → good s → step s i t → (good t ↔ cond s i))
    {s : σ} {tr : List (ι × σ)} (h : Run step s tr) (h0 : inv s) (hg : good s) :
    (∀ p ∈ tr, good p.2) ↔ Along cond s tr := by
  induction h with
  | nil => simp [Along]
  | @cons s t i tr hst _ ih =>
    have hiff := hgood s i t h0 hg hst
    simp only [List.forall_mem_cons, Along]
    constructor
    · rintro ⟨ht, hrest⟩
      exact ⟨hiff.mp ht, (ih (hinv s i t h0 hg hst (hiff.mp ht)) ht).mp hrest⟩
    · rintro ⟨hc, hrest⟩
      have ht := hiff.mpr hc
      exact ⟨ht, (ih (hinv s i t h0 hg hst hc) ht).mpr hrest⟩

/-- The same for a property that no step regains: the last state of a run has it if and only if all
actions meet `cond`. -/
theorem Run.endOf_iff {step : σ → ι → σ → Prop} (inv good : σ → Prop) (cond : σ → ι → Prop)
    (hinv : ∀ s i t, inv s → step s i t → inv t)
    (hgood : ∀ s i t, inv s → good s → step s i t → (good t ↔ cond s i))
    (hlost : ∀ s i t, inv s → ¬ good s → step s i t → ¬ good t)
    {s : σ} {tr : List (ι × σ)} (h : Run step s tr) (h0 : inv s) (hg : good s) :
    good (Firmware.endOf s tr) ↔ Along cond s tr := by
  induction h with
  | nil s => exact iff_of_true hg trivial
  | @cons s t i tr hst hrun ih =>
    have ht := hinv s i t h0 hst
    have hiff := hgood s i t h0 hg hst
    rw [endOf_cons]
    by_cases hc : cond s i
    · exact (ih ht (hiff.mpr hc)).trans (and_iff_right hc).symm
    · have hkeep : ∀ s i t, inv s ∧ ¬ good s → step s i t → inv t ∧ ¬ good t :=
        fun s i t hs hst => ⟨hinv s i t hs.1 hst, hlost s i t hs.1 hs.2 hst⟩
      have hbad := hrun.endOf hkeep ⟨ht, fun hgt => hc (hiff.mp hgt)⟩
      exact iff_of_false hbad.2 fun h => hc h.1

end Firmware
