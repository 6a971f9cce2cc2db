import Mathlib.Logic.Basic

/-!
# Computations that may run forever

`Comp α` is a computation given by its results for every amount of fuel. The structure carries
the fact that a result, once there, stays (`mono`), so a computation has at most one result
(`Returns.unique`) and the amount of fuel never shows in a statement:

* `c.Returns a`: `c` ends with `a` (some amount of fuel is enough);
* `c.Diverges`: no amount of fuel is enough;
* `c.Ends Q`: total correctness, `c` ends and its result satisfies `Q`.

`loop body s` is a `while` loop whose body either repeats with a new state (`.inl`) or leaves
with a result (`.inr`). `loop_ends` is its rule for total correctness (an invariant and a
measure) and `loop_diverges` its rule for non-termination (an invariant that no iteration leaves).
`run` is computable, so a run on a fixed input is evaluated with some fuel and transferred by
`returns_of_run`. `stuck` has no result: what a program does there is not modelled.
-/

namespace Firmware

/-- A computation that may run forever: `run n` is its result if `n` units of fuel are enough. -/
structure Comp (α : Type) where
  run : Nat → Option α
  mono : ∀ {n : Nat} {a : α}, run n = some a → run (n + 1) = some a

namespace Comp

variable {α β σ : Type}

/-- More fuel keeps a result. -/
theorem run_le (c : Comp α) {n m : Nat} {a : α} (h : n ≤ m) (hr : c.run n = some a) :
    c.run m = some a := by
  induction h with
  | refl => exact hr
  | step _ ih => exact c.mono ih

instance : Monad Comp where
  pure a := ⟨fun _ => some a, fun h => h⟩
  bind c f :=
    { run := fun n => (c.run n).bind fun a => (f a).run n
      mono := by
        intro n b h
        obtain ⟨a, ha, hb⟩ := Option.bind_eq_some_iff.mp h
        exact Option.bind_eq_some_iff.mpr ⟨a, c.mono ha, (f a).mono hb⟩ }

@[simp] theorem run_pure (a : α) (n : Nat) : (pure a : Comp α).run n = some a := rfl

@[simp] theorem run_bind (c : Comp α) (f : α → Comp β) (n : Nat) :
    (c >>= f).run n = (c.run n).bind fun a => (f a).run n := rfl

/-- No result. -/
def stuck : Comp α := ⟨fun _ => none, fun h => h⟩

/-! ## Loops -/

/-- The iterations of `loop`, one unit of fuel each. -/
def loopRun (body : σ → Comp (σ ⊕ α)) : Nat → σ → Option α
  | 0, _ => none
  | n + 1, s => ((body s).run n).bind fun
    | .inl s' => loopRun body n s'
    | .inr a => some a

theorem loopRun_mono (body : σ → Comp (σ ⊕ α)) {n : Nat} {s : σ} {a : α}
    (h : loopRun body n s = some a) : loopRun body (n + 1) s = some a := by
  induction n generalizing s with
  | zero => cases h
  | succ n ih =>
    obtain ⟨r, hr, hk⟩ := Option.bind_eq_some_iff.mp h
    refine Option.bind_eq_some_iff.mpr ⟨r, (body s).mono hr, ?_⟩
    cases r with
    | inl s' => exact ih hk
    | inr b => exact hk

/-- `while`: repeat `body` until it leaves with a result. -/
def loop (body : σ → Comp (σ ⊕ α)) (s : σ) : Comp α := ⟨fun n => loopRun body n s, loopRun_mono body⟩

@[simp] theorem run_loop (body : σ → Comp (σ ⊕ α)) (s : σ) (n : Nat) :
    (loop body s).run n = loopRun body n s := rfl

/-! ## Results -/

/-- `c` ends with the result `a`. -/
def Returns (c : Comp α) (a : α) : Prop := ∃ n, c.run n = some a

/-- `c` never ends. -/
def Diverges (c : Comp α) : Prop := ∀ n, c.run n = none

/-- `c` ends with a result that satisfies `Q`. -/
def Ends (c : Comp α) (Q : α → Prop) : Prop := ∃ a, c.Returns a ∧ Q a

theorem returns_of_run {c : Comp α} {a : α} (n : Nat) (h : c.run n = some a) : c.Returns a := ⟨n, h⟩

/-- A computation has at most one result. -/
theorem Returns.unique {c : Comp α} {a b : α} (ha : c.Returns a) (hb : c.Returns b) : a = b := by
  obtain ⟨n, hn⟩ := ha
  obtain ⟨m, hm⟩ := hb
  have h1 := c.run_le (Nat.le_max_left n m) hn
  have h2 := c.run_le (Nat.le_max_right n m) hm
  exact Option.some.inj (h1.symm.trans h2)

theorem Diverges.not_returns {c : Comp α} (h : c.Diverges) (a : α) : ¬ c.Returns a := by
  rintro ⟨n, hn⟩
  rw [h n] at hn
  cases hn

theorem Diverges.not_ends {c : Comp α} (h : c.Diverges) (Q : α → Prop) : ¬ c.Ends Q :=
  fun ⟨a, ha, _⟩ => h.not_returns a ha

theorem Diverges.bind {c : Comp α} (h : c.Diverges) (f : α → Comp β) : (c >>= f).Diverges := fun n => by
  rw [run_bind, h n, Option.bind_none]

theorem stuck_diverges : (stuck : Comp α).Diverges := fun _ => rfl

/-- The result of a computation that ends satisfies its postcondition. -/
theorem Ends.of_returns {c : Comp α} {Q : α → Prop} {a : α} (h : c.Ends Q) (ha : c.Returns a) :
    Q a := by
  obtain ⟨b, hb, hq⟩ := h
  rwa [ha.unique hb]

/-- What a computation with a known result ends with. -/
theorem Returns.ends_iff {c : Comp α} {Q : α → Prop} {a : α} (h : c.Returns a) : c.Ends Q ↔ Q a :=
  ⟨fun he => he.of_returns h, fun hq => ⟨a, h, hq⟩⟩

theorem Ends.mono {c : Comp α} {Q R : α → Prop} (h : c.Ends Q) (hqr : ∀ a, Q a → R a) : c.Ends R := by
  obtain ⟨a, ha, hq⟩ := h
  exact ⟨a, ha, hqr a hq⟩

@[simp] theorem returns_pure {a b : α} : (pure a : Comp α).Returns b ↔ a = b :=
  ⟨fun ⟨_, h⟩ => Option.some.inj h, fun h => ⟨0, congrArg some h⟩⟩

@[simp] theorem returns_bind {c : Comp α} {f : α → Comp β} {b : β} :
    (c >>= f).Returns b ↔ ∃ a, c.Returns a ∧ (f a).Returns b := by
  constructor
  · rintro ⟨n, h⟩
    obtain ⟨a, ha, hb⟩ := Option.bind_eq_some_iff.mp h
    exact ⟨a, ⟨n, ha⟩, ⟨n, hb⟩⟩
  · rintro ⟨a, ⟨n, ha⟩, ⟨m, hb⟩⟩
    refine ⟨max n m, Option.bind_eq_some_iff.mpr ⟨a, ?_, ?_⟩⟩
    · exact c.run_le (Nat.le_max_left n m) ha
    · exact (f a).run_le (Nat.le_max_right n m) hb

@[simp] theorem ends_pure {a : α} {Q : α → Prop} : (pure a : Comp α).Ends Q ↔ Q a := by
  simp [Ends]

/-- The rule of sequencing. -/
theorem ends_bind {c : Comp α} {f : α → Comp β} {Q : β → Prop} :
    (c >>= f).Ends Q ↔ c.Ends fun a => (f a).Ends Q := by
  constructor
  · rintro ⟨b, hb, hq⟩
    obtain ⟨a, ha, hf⟩ := returns_bind.mp hb
    exact ⟨a, ha, b, hf, hq⟩
  · rintro ⟨a, ha, b, hf, hq⟩
    exact ⟨b, returns_bind.mpr ⟨a, ha, hf⟩, hq⟩

/-- One iteration of a loop. -/
theorem returns_loop {body : σ → Comp (σ ⊕ α)} {s : σ} {a : α} :
    (loop body s).Returns a ↔ ∃ r, (body s).Returns r ∧
      (match r with
        | .inl s' => (loop body s').Returns a
        | .inr b => b = a) := by
  constructor
  · rintro ⟨n, h⟩
    cases n with
    | zero => cases h
    | succ n =>
      obtain ⟨r, hr, hk⟩ := Option.bind_eq_some_iff.mp h
      refine ⟨r, ⟨n, hr⟩, ?_⟩
      cases r with
      | inl s' => exact ⟨n, hk⟩
      | inr b => exact Option.some.inj hk
  · rintro ⟨r, ⟨n, hr⟩, hk⟩
    cases r with
    | inl s' =>
      obtain ⟨m, hm⟩ := hk
      refine ⟨max n m + 1, Option.bind_eq_some_iff.mpr ⟨.inl s', ?_, ?_⟩⟩
      · exact (body s).run_le (Nat.le_max_left n m) hr
      · exact (loop body s').run_le (Nat.le_max_right n m) hm
    | inr b =>
      exact ⟨n + 1, Option.bind_eq_some_iff.mpr ⟨.inr b, hr, congrArg some hk⟩⟩

/-- Total correctness of a loop, with a ghost state `g` that the body does not see: every
iteration keeps the invariant `inv` for some ghost state of smaller measure, or leaves with a
result that satisfies `Q`. -/
theorem loop_ends {γ : Type} {body : σ → Comp (σ ⊕ α)} {Q : α → Prop} (inv : γ → σ → Prop)
    (m : γ → Nat)
    (step : ∀ g s, inv g s → (body s).Ends fun
      | .inl s' => ∃ g', m g' < m g ∧ inv g' s'
      | .inr a => Q a) (g : γ) (s : σ) (h : inv g s) : (loop body s).Ends Q := by
  induction g using (measure m).wf.induction generalizing s with
  | _ g ih =>
    obtain ⟨r, hr, hq⟩ := step g s h
    cases r with
    | inl s' =>
      obtain ⟨g', hlt, hinv⟩ := hq
      obtain ⟨a, ha, hqa⟩ := ih g' hlt s' hinv
      exact ⟨a, returns_loop.mpr ⟨.inl s', hr, ha⟩, hqa⟩
    | inr a => exact ⟨a, returns_loop.mpr ⟨.inr a, hr, rfl⟩, hq⟩

/-- A loop that stays in `inv` forever does not end. -/
theorem loop_diverges {body : σ → Comp (σ ⊕ α)} (inv : σ → Prop)
    (step : ∀ s, inv s → ∃ s', (body s).Returns (.inl s') ∧ inv s') :
    ∀ s, inv s → (loop body s).Diverges := by
  intro s hs n
  induction n generalizing s with
  | zero => rfl
  | succ n ih =>
    obtain ⟨s', hr, hinv⟩ := step s hs
    rw [run_loop, loopRun]
    cases hb : (body s).run n with
    | none => rfl
    | some r =>
      obtain rfl : r = .inl s' := Returns.unique ⟨n, hb⟩ hr
      exact ih s' hinv

end Comp

end Firmware
