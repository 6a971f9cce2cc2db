import V85xAmp.Lib.Run

/-!
# Refinement of labelled systems

`obs i` is what an action `i` shows to the outside, and `none` for a step that shows nothing.
`Shows step obs init tr s`: some run from a state of `init` ends in `s` and has shown `tr`.

`Shows.simulate` is the rule of forward simulation: when every step of one system is a step of another one
with the same label, or shows nothing and leaves the other one where it is, then everything that the one
shows is something that the other one shows.
-/

namespace Firmware

variable {σ α ι κ : Type}

/-- The states that runs reach, with what the runs have shown. -/
inductive Shows (step : σ → ι → σ → Prop) (obs : ι → Option κ) (init : σ → Prop) : List κ → σ → Prop
  | init {s : σ} : init s → Shows step obs init [] s
  | step {tr : List κ} {s t : σ} {i : ι} : Shows step obs init tr s → step s i t →
      Shows step obs init (tr ++ (obs i).toList) t

/-- The labels that a system can show, when all its actions show. -/
abbrev Traces (step : α → κ → α → Prop) (init : α → Prop) : List κ → α → Prop := Shows step some init

variable {step : σ → ι → σ → Prop} {obs : ι → Option κ} {init : σ → Prop} {tr : List κ} {s : σ}

theorem Shows.reachable (h : Shows step obs init tr s) : Reachable step init s := by
  induction h with
  | init h => exact .init h
  | step _ hst ih => exact ih.step hst

theorem Shows.of_reachable (h : Reachable step init s) (obs : ι → Option κ) :
    ∃ tr, Shows step obs init tr s := by
  induction h with
  | init h => exact ⟨[], .init h⟩
  | step _ hst ih =>
    obtain ⟨tr, htr⟩ := ih
    exact ⟨_, htr.step hst⟩

/-- An invariant of the state and of what was shown. -/
theorem Shows.invariant (inv : List κ → σ → Prop) (h0 : ∀ s, init s → inv [] s)
    (hs : ∀ tr s i t, inv tr s → step s i t → inv (tr ++ (obs i).toList) t) (h : Shows step obs init tr s) :
    inv tr s := by
  induction h with
  | init h => exact h0 _ h
  | step _ hst ih => exact hs _ _ _ _ ih hst

/-- A run goes on. -/
theorem Shows.run {step' : σ → ι → σ → Prop} {acts : List (ι × σ)} (hrun : Run step' s acts)
    (hsub : ∀ s i t, step' s i t → step s i t) (h : Shows step obs init tr s) :
    Shows step obs init (tr ++ acts.filterMap fun p => obs p.1) (endOf s acts) := by
  induction hrun generalizing tr with
  | nil => simpa [endOf] using h
  | @cons s t i acts hst _ ih =>
    have ht := ih (h.step (hsub _ _ _ hst))
    rw [List.append_assoc] at ht
    rw [endOf_cons, List.filterMap_cons]
    cases hobs : obs i with
    | none => simpa [hobs] using ht
    | some k => simpa [hobs] using ht

/-- Forward simulation by the relation `rel`. -/
theorem Shows.simulate {astep : α → κ → α → Prop} {ainit : α → Prop} (rel : σ → α → Prop)
    (h0 : ∀ s, init s → ∃ a, ainit a ∧ rel s a)
    (hsilent : ∀ s i t a, rel s a → step s i t → obs i = none → rel t a)
    (hshow : ∀ s i t a k, rel s a → step s i t → obs i = some k → ∃ b, astep a k b ∧ rel t b)
    (h : Shows step obs init tr s) : ∃ a, Traces astep ainit tr a ∧ rel s a := by
  induction h with
  | init h =>
    obtain ⟨a, ha, hrel⟩ := h0 _ h
    exact ⟨a, .init ha, hrel⟩
  | @step tr s t i _ hst ih =>
    obtain ⟨a, htr, hrel⟩ := ih
    cases hobs : obs i with
    | none =>
      rw [Option.toList_none, List.append_nil]
      exact ⟨a, htr, hsilent s i t a hrel hst hobs⟩
    | some k =>
      obtain ⟨b, hab, hb⟩ := hshow s i t a k hrel hst hobs
      exact ⟨b, htr.step hab, hb⟩

end Firmware
