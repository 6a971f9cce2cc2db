import V85xAmp.Arch.Gpio

/-!
# Pulls of GPIO pins (`arch/riscv/sun8i-v85x/sunxi_gpio.c`)

The pull of a pin is a field of two bits; a register has the fields of sixteen pins.
`sunxi_gpio_set_pull` clears the bits of the new encoding only, so that what was in the field stays:
`pullField_setPullAll` says that the encodings of all calls add up, and `pull_lastWins_iff` when the last one
is nevertheless what the field has.
-/

namespace V85x

open Firmware

/-! ## The source -/

def gpioPul0 : BitVec 32 := 0x24#32

/-- `enum gpio_pull_t` -/
inductive GpioPull
  | up
  | down
  | none
deriving Repr, DecidableEq

/-- The `v` of `sunxi_gpio_set_pull`. -/
def GpioPull.v : GpioPull → BitVec 32
  | .up => 0x1#32
  | .down => 0x2#32
  | .none => 0x0#32

/-- `sunxi_gpio_set_pull` -/
def sunxiGpioSetPull (pin : BitVec 32) (pull : GpioPull) (m : Words) : Words :=
  let v := pull.v
  let addr := portBaseGet pin + gpioPul0 + (pinNum pin >>> 4) <<< 2
  let val := read32 addr m
  let val := val &&& ~~~ (v <<< ((pinNum pin &&& 0xf#32) <<< 1))
  let val := val ||| v <<< ((pinNum pin &&& 0xf#32) <<< 1)
  write32 addr val m

/-! ## Pull fields -/

namespace Pin

/-- The word of a pin's pull field. -/
def pulWord (p : Pin) : Nat := 0x800000 + 12 * p.port + 9 + p.num / 16

/-- The first bit of a pin's pull field. -/
def pulBit (p : Pin) : Nat := 2 * (p.num % 16)

/-- The pull register that `sunxi_gpio_set_pull` computes. -/
theorem toNat_pulReg (p : Pin) :
    (portBaseGet p.gpio + gpioPul0 + (pinNum p.gpio >>> 4) <<< 2).toNat / 4 = p.pulWord := by
  have hshift : ((pinNum p.gpio >>> 4) <<< 2).toNat = p.num / 16 * 4 := by
    rw [BitVec.toNat_shiftLeft, BitVec.toNat_ushiftRight, toNat_pinNum, Nat.shiftRight_eq_div_pow,
      Nat.shiftLeft_eq]
    omega
  have hpul0 : gpioPul0.toNat = 0x24 := rfl
  rw [BitVec.toNat_add, BitVec.toNat_add, toNat_portBaseGet, hshift, hpul0, pulWord]
  omega

/-- The shift of the pull field. -/
theorem toNat_pulShift (p : Pin) : ((pinNum p.gpio &&& 0xf#32) <<< 1).toNat = p.pulBit := by
  have hmask : (0xf#32).toNat = 2 ^ 4 - 1 := rfl
  rw [BitVec.toNat_shiftLeft, BitVec.toNat_and, toNat_pinNum, hmask, Nat.and_two_pow_sub_one_eq_mod,
    Nat.shiftLeft_eq, pulBit]
  omega

/-- The bit is in the pull field of the pin. -/
def HasPull (p : Pin) (word bit : Nat) : Prop := word = p.pulWord ∧ p.pulBit ≤ bit ∧ bit < p.pulBit + 2

end Pin

/-- The encoding of a pull. -/
def GpioPull.enc : GpioPull → BitVec 2
  | .up => 1#2
  | .down => 2#2
  | .none => 0#2

def pullField (m : Words) (p : Pin) : BitVec 2 := (m p.pulWord).extractLsb' p.pulBit 2

section

variable {p q : Pin} {m : Words} {word bit : Nat}

/-- A call sets the bits of its encoding in the pull field of its pin, and clears none. -/
theorem sunxiGpioSetPull_eq (p : Pin) (pull : GpioPull) (m : Words) :
    sunxiGpioSetPull p.gpio pull m =
      Function.update m p.pulWord (orField (m p.pulWord) p.pulBit pull.enc) := by
  have henc : pull.enc.setWidth 32 = pull.v := by cases pull <;> rfl
  simp only [sunxiGpioSetPull, read32, write32, Pin.toNat_pulReg, BitVec.shiftLeft_eq', Pin.toNat_pulShift,
    and_not_or, orField, henc]

/-- The pull fields of two pins do not overlap. -/
theorem pul_disjoint (hne : p ≠ q) (hw : q.pulWord = p.pulWord) :
    p.pulBit + 2 ≤ q.pulBit ∨ q.pulBit + 2 ≤ p.pulBit := by
  have hp := p.num.isLt
  have hq := q.num.isLt
  have hdiff : ¬ ((p.port : Nat) = q.port ∧ (p.num : Nat) = q.num) := fun h => hne (Pin.eq_of_val h.1 h.2)
  simp only [Pin.pulWord, Pin.pulBit] at hw ⊢
  omega

theorem pullField_setPull_self (p : Pin) (pull : GpioPull) (m : Words) :
    pullField (sunxiGpioSetPull p.gpio pull m) p = pullField m p ||| pull.enc := by
  have hfit : p.pulBit + 2 ≤ 32 := by simp only [Pin.pulBit]; omega
  rw [sunxiGpioSetPull_eq, pullField, Function.update_self, extractLsb'_orField_self hfit]
  rfl

theorem pullField_setPull_of_ne (hne : p ≠ q) (pull : GpioPull) (m : Words) :
    pullField (sunxiGpioSetPull p.gpio pull m) q = pullField m q := by
  rw [sunxiGpioSetPull_eq, pullField, pullField]
  by_cases hw : q.pulWord = p.pulWord
  · rw [hw, Function.update_self, extractLsb'_orField_of_disjoint (pul_disjoint hne hw)]
  · rw [Function.update_of_ne hw]

/-- A call keeps every bit that is not in the pull field of its pin. -/
theorem sunxiGpioSetPull_frame (pull : GpioPull) (m : Words) (h : ¬ p.HasPull word bit) :
    (sunxiGpioSetPull p.gpio pull m word).getLsbD bit = (m word).getLsbD bit := by
  rw [sunxiGpioSetPull_eq]
  by_cases hw : word = p.pulWord
  · subst hw
    have hbit : bit < p.pulBit ∨ p.pulBit + 2 ≤ bit := by
      unfold Pin.HasPull at h
      omega
    rw [Function.update_self, getLsbD_orField_of_disjoint hbit]
  · rw [Function.update_of_ne hw]

end

/-! ## Sequences -/

/-- Calls of `sunxi_gpio_set_pull`, the first one first. -/
def setPullAll (ops : List (Pin × GpioPull)) (m : Words) : Words :=
  ops.foldl (fun m op => sunxiGpioSetPull op.1.gpio op.2 m) m

/-- The settings given for a pin. -/
def pullsFor (p : Pin) (ops : List (Pin × GpioPull)) : List GpioPull :=
  ops.filterMap fun op => if op.1 = p then some op.2 else none

/-- The last setting given for a pin. -/
def lastPull (p : Pin) (ops : List (Pin × GpioPull)) : Option GpioPull := (pullsFor p ops).getLast?

section

variable {p : Pin} {m : Words} {ops : List (Pin × GpioPull)}

/-- What is in the field of a pin: what was there and all encodings given for it. -/
theorem pullField_setPullAll (ops : List (Pin × GpioPull)) (m : Words) (p : Pin) :
    pullField (setPullAll ops m) p = ((pullsFor p ops).map GpioPull.enc).foldl (· ||| ·) (pullField m p) := by
  induction ops generalizing m with
  | nil => rfl
  | cons op ops ih =>
    obtain ⟨q, pull⟩ := op
    rw [setPullAll, List.foldl_cons, ← setPullAll, ih]
    by_cases hq : q = p
    · subst hq
      simp only [pullsFor, List.filterMap_cons, if_true, List.map_cons, List.foldl_cons,
        pullField_setPull_self]
    · simp only [pullsFor, List.filterMap_cons, hq, if_false, pullField_setPull_of_ne hq]

theorem setPullAll_frame {word bit : Nat} (h : ∀ op ∈ ops, ¬ op.1.HasPull word bit) (m : Words) :
    (setPullAll ops m word).getLsbD bit = (m word).getLsbD bit := by
  induction ops generalizing m with
  | nil => rfl
  | cons op ops ih =>
    obtain ⟨hop, hops⟩ := List.forall_mem_cons.mp h
    rw [setPullAll, List.foldl_cons, ← setPullAll, ih hops, sunxiGpioSetPull_frame op.2 m hop]

/-- The last setting is what the field has if it includes the field's bits and all settings before it. -/
theorem pullField_eq_last_iff {pull : GpioPull} (h : lastPull p ops = some pull) :
    pullField (setPullAll ops m) p = pull.enc ↔
      pullField m p &&& pull.enc = pullField m p ∧
        ∀ given ∈ pullsFor p ops, given.enc &&& pull.enc = given.enc := by
  have hmem : pull.enc ∈ (pullsFor p ops).map GpioPull.enc :=
    List.mem_map_of_mem (List.mem_of_getLast? h)
  rw [pullField_setPullAll, foldl_or_eq_iff hmem, List.forall_mem_cons, List.forall_mem_map]

end

/-- After a sequence of calls each configured pin has the last setting given for it, and every bit that is in
the field of no configured pin is as it was. -/
def LastPullWins (ops : List (Pin × GpioPull)) (m : Words) : Prop :=
  (∀ p pull, lastPull p ops = some pull → pullField (setPullAll ops m) p = pull.enc) ∧
    ∀ word bit, (∀ op ∈ ops, ¬ op.1.HasPull word bit) →
      (setPullAll ops m word).getLsbD bit = (m word).getLsbD bit

/-- The last setting of every pin wins exactly if the bits that were in its field, and those of all settings
given for it, are among the bits of the last one. -/
theorem pull_lastWins_iff (ops : List (Pin × GpioPull)) (m : Words) :
    LastPullWins ops m ↔ ∀ p pull, lastPull p ops = some pull →
      pullField m p &&& pull.enc = pullField m p ∧
        ∀ given ∈ pullsFor p ops, given.enc &&& pull.enc = given.enc := by
  constructor
  · exact fun h p pull hlast => (pullField_eq_last_iff hlast).mp (h.1 p pull hlast)
  · intro h
    refine ⟨fun p pull hlast => (pullField_eq_last_iff hlast).mpr (h p pull hlast), fun word bit hbit => ?_⟩
    exact setPullAll_frame hbit m

/-- Pin 0 of port A, pulled up and then released, is still pulled up. -/
theorem pull_up_stays :
    ¬ LastPullWins [(⟨0, 0⟩, .up), (⟨0, 0⟩, .none)] (fun _ => 0#32) := by
  intro h
  have hlast := h.1 ⟨0, 0⟩ .none rfl
  rw [pullField_setPullAll] at hlast
  exact absurd hlast (by decide)

end V85x
