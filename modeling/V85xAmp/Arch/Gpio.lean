import Mathlib.Data.List.Induction
import Mathlib.Logic.Function.Basic
import Mathlib.Tactic.IntervalCases
import V85xAmp.Lib.Bits

/-!
# GPIO pins (`arch/riscv/sun8i-v85x/sunxi_gpio.c`)

The PIO block is plain memory of 32-bit words. A pin has a field of four bits in one of the
configuration registers of its port and one bit in the port's data register; all addresses are
multiples of four, and the word at `reg` is word `reg / 4`.

`PinState` is what the driver is for: each pin has a mux and a level of its own. `pinState_init` and
`pinState_setValue` say which bits a call changes, and `gpio_independent` follows a sequence of calls: a pin
is what its own last calls made it, and no other bit changes.
-/

namespace V85x

open Firmware

/-! ## The source -/

/-- The words of the memory. -/
abbrev Words := Nat → BitVec 32

def read32 (reg : BitVec 32) (m : Words) : BitVec 32 := m (reg.toNat / 4)

def write32 (reg value : BitVec 32) (m : Words) : Words := Function.update m (reg.toNat / 4) value

def gpioCfg0 : BitVec 32 := 0x00#32
def gpioDat : BitVec 32 := 0x10#32
def pioNumIoBits : Nat := 5

/-- `GPIO_PIN` -/
def gpioPin (x y : BitVec 32) : BitVec 32 := x <<< pioNumIoBits ||| y

/-- `_port_base_get` -/
def portBaseGet (pin : BitVec 32) : BitVec 32 :=
  match (pin >>> pioNumIoBits).toNat with
  | 0 => 0x02000000#32
  | 1 => 0x02000030#32
  | 2 => 0x02000060#32
  | 3 => 0x02000090#32
  | 4 => 0x020000c0#32
  | 5 => 0x020000f0#32
  | 6 => 0x02000120#32
  | 7 => 0x02000150#32
  | 8 => 0x02000180#32
  | _ => 0#32

/-- `_pin_num` -/
def pinNum (pin : BitVec 32) : BitVec 32 := pin &&& (1#32 <<< pioNumIoBits - 1#32)

/-- `sunxi_gpio_init` -/
def sunxiGpioInit (pin cfg : BitVec 32) (m : Words) : Words :=
  let addr := portBaseGet pin + gpioCfg0 + (pinNum pin >>> 3) <<< 2
  let val := read32 addr m
  let val := val &&& ~~~ (0xf#32 <<< ((pinNum pin &&& 0x7#32) <<< 2))
  let val := val ||| (cfg &&& 0xf#32) <<< ((pinNum pin &&& 0x7#32) <<< 2)
  write32 addr val m

/-- `sunxi_gpio_set_value` -/
def sunxiGpioSetValue (pin value : BitVec 32) (m : Words) : Words :=
  let addr := portBaseGet pin + gpioDat
  let val := read32 addr m
  let val := val &&& ~~~ (1#32 <<< pinNum pin)
  let val := val ||| (if value ≠ 0#32 then 1#32 else 0#32) <<< pinNum pin
  write32 addr val m

/-- `sunxi_gpio_read` -/
def sunxiGpioRead (pin : BitVec 32) (m : Words) : BitVec 32 :=
  let val := read32 (portBaseGet pin + gpioDat) m
  if val &&& 1#32 <<< pinNum pin ≠ 0#32 then 1#32 else 0#32

/-! ## Pins -/

/-- A pin of the ports A to I. -/
structure Pin where
  port : Fin 9
  num : Fin 32
deriving Repr, DecidableEq

namespace Pin

/-- The `gpio_t` of a pin. -/
def gpio (p : Pin) : BitVec 32 := gpioPin (BitVec.ofNat 32 p.port) (BitVec.ofNat 32 p.num)

/-- The word of a pin's mux field. -/
def cfgWord (p : Pin) : Nat := 0x800000 + 12 * p.port + p.num / 8

/-- The first bit of a pin's mux field. -/
def cfgBit (p : Pin) : Nat := 4 * (p.num % 8)

/-- The word of a pin's data bit, which is bit `p.num`. -/
def datWord (p : Pin) : Nat := 0x800000 + 12 * p.port + 4

theorem toNat_gpio (p : Pin) : p.gpio.toNat = 32 * p.port + p.num := by
  obtain ⟨⟨x, hx⟩, ⟨y, hy⟩⟩ := p
  have hx' : (BitVec.ofNat 32 x <<< pioNumIoBits).toNat = x <<< 5 := by
    rw [BitVec.toNat_shiftLeft, BitVec.toNat_ofNat, Nat.shiftLeft_eq, Nat.shiftLeft_eq, pioNumIoBits]
    omega
  rw [gpio, gpioPin, BitVec.toNat_or, hx', BitVec.toNat_ofNat, Nat.mod_eq_of_lt (by omega),
    ← Nat.shiftLeft_add_eq_or_of_lt (by omega), Nat.shiftLeft_eq]
  simp only
  omega

theorem toNat_pinNum (p : Pin) : (pinNum p.gpio).toNat = p.num := by
  have hmask : (1#32 <<< pioNumIoBits - 1#32).toNat = 2 ^ 5 - 1 := rfl
  rw [pinNum, BitVec.toNat_and, toNat_gpio, hmask, Nat.and_two_pow_sub_one_eq_mod]
  omega

theorem toNat_portBaseGet (p : Pin) : (portBaseGet p.gpio).toNat = 0x02000000 + 0x30 * p.port := by
  have hport : (p.gpio >>> pioNumIoBits).toNat = p.port := by
    rw [BitVec.toNat_ushiftRight, toNat_gpio, Nat.shiftRight_eq_div_pow, pioNumIoBits]
    omega
  rw [portBaseGet, hport]
  obtain ⟨⟨x, hx⟩, y⟩ := p
  interval_cases x <;> rfl

/-- The configuration register that `sunxi_gpio_init` computes. -/
theorem toNat_cfgReg (p : Pin) :
    (portBaseGet p.gpio + gpioCfg0 + (pinNum p.gpio >>> 3) <<< 2).toNat / 4 = p.cfgWord := by
  have hshift : ((pinNum p.gpio >>> 3) <<< 2).toNat = p.num / 8 * 4 := by
    rw [BitVec.toNat_shiftLeft, BitVec.toNat_ushiftRight, toNat_pinNum, Nat.shiftRight_eq_div_pow,
      Nat.shiftLeft_eq]
    omega
  have hcfg0 : gpioCfg0.toNat = 0 := rfl
  rw [BitVec.toNat_add, BitVec.toNat_add, toNat_portBaseGet, hshift, hcfg0, cfgWord]
  omega

/-- The shift of the mux field. -/
theorem toNat_cfgShift (p : Pin) : ((pinNum p.gpio &&& 0x7#32) <<< 2).toNat = p.cfgBit := by
  have hmask : (0x7#32).toNat = 2 ^ 3 - 1 := rfl
  rw [BitVec.toNat_shiftLeft, BitVec.toNat_and, toNat_pinNum, hmask, Nat.and_two_pow_sub_one_eq_mod,
    Nat.shiftLeft_eq, cfgBit]
  omega

/-- The data register of the pin's port. -/
theorem toNat_datReg (p : Pin) : (portBaseGet p.gpio + gpioDat).toNat / 4 = p.datWord := by
  have hdat : gpioDat.toNat = 0x10 := rfl
  rw [BitVec.toNat_add, toNat_portBaseGet, hdat, datWord]
  omega

end Pin

/-! ## Calls -/

section

variable {m : Words} {p q : Pin}

/-- A call of `sunxi_gpio_init` replaces the mux field of its pin. -/
theorem sunxiGpioInit_eq (p : Pin) (cfg : BitVec 32) (m : Words) :
    sunxiGpioInit p.gpio cfg m =
      Function.update m p.cfgWord (setField (m p.cfgWord) p.cfgBit 4 cfg) := by
  simp only [sunxiGpioInit, read32, write32, Pin.toNat_cfgReg, BitVec.shiftLeft_eq', Pin.toNat_cfgShift]
  rfl

/-- A call of `sunxi_gpio_set_value` replaces the data bit of its pin. -/
theorem sunxiGpioSetValue_eq (p : Pin) (value : BitVec 32) (m : Words) :
    sunxiGpioSetValue p.gpio value m = Function.update m p.datWord
      (setField (m p.datWord) p.num 1 (if value ≠ 0#32 then 1#32 else 0#32)) := by
  simp only [sunxiGpioSetValue, read32, write32, Pin.toNat_datReg, BitVec.shiftLeft_eq', Pin.toNat_pinNum]
  split <;> rfl

theorem sunxiGpioRead_eq (p : Pin) (m : Words) :
    sunxiGpioRead p.gpio m = if (m p.datWord).getLsbD p.num then 1#32 else 0#32 := by
  simp only [sunxiGpioRead, read32, Pin.toNat_datReg, BitVec.shiftLeft_eq', Pin.toNat_pinNum,
    and_one_shiftLeft_ne_zero p.num.isLt]

end

/-! ## The pins as the driver's callers see them -/

/-- What the driver sets of a pin. -/
structure PinState where
  mux : BitVec 4
  level : Bool
deriving Repr, DecidableEq

def pinState (m : Words) (p : Pin) : PinState :=
  ⟨(m p.cfgWord).extractLsb' p.cfgBit 4, (m p.datWord).getLsbD p.num⟩

inductive GpioOp
  | init (p : Pin) (cfg : BitVec 32)
  | setValue (p : Pin) (value : BitVec 32)
deriving Repr, DecidableEq

namespace GpioOp

def exec : GpioOp → Words → Words
  | .init p cfg, m => sunxiGpioInit p.gpio cfg m
  | .setValue p value, m => sunxiGpioSetValue p.gpio value m

/-- A call changes its own pin. -/
def spec : GpioOp → (Pin → PinState) → Pin → PinState
  | .init p cfg, st => Function.update st p { st p with mux := cfg.setWidth 4 }
  | .setValue p value, st => Function.update st p { st p with level := decide (value ≠ 0#32) }

/-- The `cfg` that a call gives to a pin. -/
def cfgFor (p : Pin) : GpioOp → Option (BitVec 32)
  | .init q cfg => if q = p then some cfg else none
  | .setValue _ _ => none

/-- The `value` that a call gives to a pin. -/
def valueFor (p : Pin) : GpioOp → Option (BitVec 32)
  | .init _ _ => none
  | .setValue q value => if q = p then some value else none

def execAll (ops : List GpioOp) (m : Words) : Words := ops.foldl (fun m op => op.exec m) m

end GpioOp

/-- The `cfg` of the last `sunxi_gpio_init` of a pin. -/
def lastCfg (p : Pin) (ops : List GpioOp) : Option (BitVec 32) := ops.reverse.findSome? (·.cfgFor p)

/-- The `value` of the last `sunxi_gpio_set_value` of a pin. -/
def lastValue (p : Pin) (ops : List GpioOp) : Option (BitVec 32) := ops.reverse.findSome? (·.valueFor p)

/-- The bit is in the mux field of a pin, or the data bit of one. -/
def PinBit (word bit : Nat) : Prop :=
  ∃ p : Pin, (word = p.cfgWord ∧ p.cfgBit ≤ bit ∧ bit < p.cfgBit + 4) ∨ (word = p.datWord ∧ bit = p.num)

section

variable {m : Words} {p q : Pin}

theorem cfgWord_ne_datWord (p q : Pin) : p.cfgWord ≠ q.datWord := by
  have := p.num.isLt
  simp only [Pin.cfgWord, Pin.datWord]
  omega

theorem Pin.eq_of_val (hport : (p.port : Nat) = q.port) (hnum : (p.num : Nat) = q.num) : p = q := by
  cases p
  cases q
  simp only at hport hnum
  rw [Fin.ext hport, Fin.ext hnum]

/-- The mux fields of two pins do not overlap. -/
theorem cfg_disjoint (hne : p ≠ q) (hw : q.cfgWord = p.cfgWord) :
    p.cfgBit + 4 ≤ q.cfgBit ∨ q.cfgBit + 4 ≤ p.cfgBit := by
  have hp := p.num.isLt
  have hq := q.num.isLt
  have hdiff : ¬ ((p.port : Nat) = q.port ∧ (p.num : Nat) = q.num) := fun h => hne (Pin.eq_of_val h.1 h.2)
  simp only [Pin.cfgWord, Pin.cfgBit] at hw ⊢
  omega

/-- Two pins do not share a data bit. -/
theorem dat_disjoint (hne : p ≠ q) (hw : q.datWord = p.datWord) : (q.num : Nat) ≠ p.num := by
  intro hnum
  refine hne (Pin.eq_of_val ?_ hnum.symm)
  simp only [Pin.datWord] at hw
  omega

/-- `sunxi_gpio_init` sets the mux field of its pin, and no other mux field or data bit. -/
theorem pinState_init (p : Pin) (cfg : BitVec 32) (m : Words) :
    pinState (sunxiGpioInit p.gpio cfg m) = (GpioOp.init p cfg).spec (pinState m) := by
  rw [sunxiGpioInit_eq]
  funext q
  have hdat : Function.update m p.cfgWord (setField (m p.cfgWord) p.cfgBit 4 cfg) q.datWord = m q.datWord :=
    Function.update_of_ne (cfgWord_ne_datWord p q).symm _ _
  by_cases hq : q = p
  · subst hq
    have hfit : q.cfgBit + 4 ≤ 32 := by simp only [Pin.cfgBit]; omega
    simp only [pinState, hdat, GpioOp.spec, Function.update_self, extractLsb'_setField_self hfit]
  · simp only [pinState, hdat, GpioOp.spec, Function.update_of_ne hq]
    congr 1
    by_cases hw : q.cfgWord = p.cfgWord
    · rw [hw, Function.update_self, extractLsb'_setField_of_disjoint (cfg_disjoint (Ne.symm hq) hw)]
    · rw [Function.update_of_ne hw]

/-- `sunxi_gpio_set_value` sets the data bit of its pin, and no other data bit or mux field. -/
theorem pinState_setValue (p : Pin) (value : BitVec 32) (m : Words) :
    pinState (sunxiGpioSetValue p.gpio value m) = (GpioOp.setValue p value).spec (pinState m) := by
  rw [sunxiGpioSetValue_eq]
  funext q
  have hcfg : ∀ x, Function.update m p.datWord x q.cfgWord = m q.cfgWord :=
    fun x => Function.update_of_ne (cfgWord_ne_datWord q p) _ _
  by_cases hq : q = p
  · subst hq
    simp only [pinState, hcfg, GpioOp.spec, Function.update_self, getLsbD_setField]
    rw [if_pos (by omega)]
    by_cases hv : value = 0#32
    · simp [hv]
    · simp [hv]
  · simp only [pinState, hcfg, GpioOp.spec, Function.update_of_ne hq]
    congr 1
    by_cases hw : q.datWord = p.datWord
    · have hnum := dat_disjoint (Ne.symm hq) hw
      rw [hw, Function.update_self, getLsbD_setField, if_neg (by omega)]
    · rw [Function.update_of_ne hw]

theorem GpioOp.pinState_exec (op : GpioOp) (m : Words) : pinState (op.exec m) = op.spec (pinState m) := by
  cases op with
  | init p cfg => exact pinState_init p cfg m
  | setValue p value => exact pinState_setValue p value m

/-- A call keeps every bit that is no pin's. -/
theorem GpioOp.exec_frame (op : GpioOp) (m : Words) {word bit : Nat} (h : ¬ PinBit word bit) :
    (op.exec m word).getLsbD bit = (m word).getLsbD bit := by
  cases op with
  | init p cfg =>
    rw [GpioOp.exec, sunxiGpioInit_eq]
    by_cases hw : word = p.cfgWord
    · subst hw
      rw [Function.update_self, getLsbD_setField, if_neg fun hb => h ⟨p, .inl ⟨rfl, hb⟩⟩]
    · rw [Function.update_of_ne hw]
  | setValue p value =>
    rw [GpioOp.exec, sunxiGpioSetValue_eq]
    by_cases hw : word = p.datWord
    · subst hw
      rw [Function.update_self, getLsbD_setField, if_neg fun hb => h ⟨p, .inr ⟨rfl, by omega⟩⟩]
    · rw [Function.update_of_ne hw]

/-! ## Sequences -/

theorem GpioOp.execAll_snoc (ops : List GpioOp) (op : GpioOp) (m : Words) :
    execAll (ops ++ [op]) m = op.exec (execAll ops m) := by
  simp [execAll]

/-- A pin is what its own last calls made it. -/
theorem pinState_execAll (ops : List GpioOp) (m : Words) (p : Pin) :
    pinState (GpioOp.execAll ops m) p =
      ⟨((lastCfg p ops).map (·.setWidth 4)).getD (pinState m p).mux,
        ((lastValue p ops).map fun value => decide (value ≠ 0#32)).getD (pinState m p).level⟩ := by
  induction ops using List.reverseRecOn with
  | nil => rfl
  | append_singleton ops op ih =>
    rw [GpioOp.execAll_snoc, GpioOp.pinState_exec]
    simp only [lastCfg, lastValue, List.reverse_append, List.reverse_cons, List.reverse_nil, List.nil_append,
      List.singleton_append, List.findSome?_cons] at ih ⊢
    cases op with
    | init q cfg =>
      by_cases hq : q = p
      · subst hq
        simp [GpioOp.spec, GpioOp.cfgFor, GpioOp.valueFor, ih]
      · simp [GpioOp.spec, GpioOp.cfgFor, GpioOp.valueFor, hq, Function.update_of_ne (Ne.symm hq), ih]
    | setValue q value =>
      by_cases hq : q = p
      · subst hq
        simp [GpioOp.spec, GpioOp.cfgFor, GpioOp.valueFor, ih]
      · simp [GpioOp.spec, GpioOp.cfgFor, GpioOp.valueFor, hq, Function.update_of_ne (Ne.symm hq), ih]

theorem GpioOp.execAll_frame (ops : List GpioOp) (m : Words) {word bit : Nat} (h : ¬ PinBit word bit) :
    (execAll ops m word).getLsbD bit = (m word).getLsbD bit := by
  induction ops using List.reverseRecOn with
  | nil => rfl
  | append_singleton ops op ih => rw [execAll_snoc, op.exec_frame _ h, ih]

end

/-- After every sequence of calls on pins of the ports A to I, from any contents of the memory: the mux field
of each pin is the low bits of the last `cfg` given for it, its data bit says whether the last value given for
it was not zero, both as they were when there was none; no other bit has changed; and `sunxi_gpio_read`
returns the data bit of its pin. -/
theorem gpio_independent (ops : List GpioOp) (m : Words) :
    (∀ p, (pinState (GpioOp.execAll ops m) p).mux =
      ((lastCfg p ops).map (·.setWidth 4)).getD (pinState m p).mux) ∧
    (∀ p, (pinState (GpioOp.execAll ops m) p).level =
      ((lastValue p ops).map fun value => decide (value ≠ 0#32)).getD (pinState m p).level) ∧
    (∀ word bit, ¬ PinBit word bit →
      (GpioOp.execAll ops m word).getLsbD bit = (m word).getLsbD bit) ∧
    ∀ p : Pin, sunxiGpioRead p.gpio (GpioOp.execAll ops m) =
      if (pinState (GpioOp.execAll ops m) p).level then 1#32 else 0#32 := by
  refine ⟨fun p => ?_, fun p => ?_, fun word bit h => GpioOp.execAll_frame ops m h, fun p => ?_⟩
  · rw [pinState_execAll]
  · rw [pinState_execAll]
  · exact sunxiGpioRead_eq p _

end V85x
