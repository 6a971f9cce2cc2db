import Mathlib.Logic.Function.Basic
import V85xAmp.Lib.Bits
import V85xAmp.Rpmsg.Basic

/-!
# Endpoint addresses (`openamp/rpmsg/rpmsg.c`, `metal/utilities.h`)

A device has a bitmap of its dynamic addresses, searched round-robin from `bitnext` on.
`isBitSet_set` and `isBitSet_clear` say what the operations on the words do to the bits, and
`nextClearBit_spec` what the search finds: a clear bit if there is one, and otherwise the bit at which
it started, which `rpmsg_get_address` cannot tell from a find.
-/

namespace V85x

open Firmware

/-! ## Bitmaps -/

/-- An array of `unsigned long`. -/
abbrev Bitmap := Nat → BitVec 32

def metalBitsPerUlong : Nat := 32

/-- `metal_bit` -/
def metalBit (bit : Nat) : BitVec 32 := 1#32 <<< bit

/-- `metal_bitmap_set_bit` -/
def metalBitmapSetBit (bitmap : Bitmap) (bit : Nat) : Bitmap :=
  let i := bit / metalBitsPerUlong
  Function.update bitmap i (bitmap i ||| metalBit (bit &&& metalBitsPerUlong - 1))

/-- `metal_bitmap_is_bit_set` -/
def metalBitmapIsBitSet (bitmap : Bitmap) (bit : Nat) : Bool :=
  bitmap (bit / metalBitsPerUlong) &&& metalBit (bit &&& metalBitsPerUlong - 1) ≠ 0#32

/-- `metal_bitmap_clear_bit` -/
def metalBitmapClearBit (bitmap : Bitmap) (bit : Nat) : Bitmap :=
  let i := bit / metalBitsPerUlong
  Function.update bitmap i (bitmap i &&& ~~~ metalBit (bit &&& metalBitsPerUlong - 1))

/-- The loop of `metal_bitmap_next_clear_bit` from `bit` on, with `n` bits to go. -/
def nextClear (bitmap : Bitmap) (max : Nat) : Nat → Nat → Nat
  | 0, bit => bit
  | n + 1, bit => if metalBitmapIsBitSet bitmap (bit % max) then nextClear bitmap max n (bit + 1) else bit

/-- `metal_bitmap_next_clear_bit` -/
def metalBitmapNextClearBit (bitmap : Bitmap) (start max : Nat) : Nat :=
  nextClear bitmap max max start % max

section

variable {bitmap : Bitmap} {bit b n max start : Nat}

theorem and_ulong_mask (bit : Nat) : bit &&& metalBitsPerUlong - 1 = bit % 32 :=
  Nat.and_two_pow_sub_one_eq_mod bit 5

theorem isBitSet_eq (bitmap : Bitmap) (bit : Nat) :
    metalBitmapIsBitSet bitmap bit = (bitmap (bit / 32)).getLsbD (bit % 32) := by
  rw [metalBitmapIsBitSet, and_ulong_mask, metalBit, Bool.eq_iff_iff, decide_eq_true_iff,
    and_one_shiftLeft_ne_zero (Nat.mod_lt _ (by decide))]
  rfl

theorem getLsbD_metalBit (hb : b < 32) : (metalBit bit).getLsbD b = decide (b = bit) := by
  rw [metalBit, BitVec.getLsbD_shiftLeft, BitVec.getLsbD_one]
  by_cases he : b = bit
  · subst he
    simp [hb]
  · simp [hb, he]
    omega

theorem isBitSet_set (bitmap : Bitmap) (bit b : Nat) :
    metalBitmapIsBitSet (metalBitmapSetBit bitmap bit) b =
      (decide (b = bit) || metalBitmapIsBitSet bitmap b) := by
  have hlt : b % 32 < 32 := Nat.mod_lt _ (by decide)
  rw [isBitSet_eq, isBitSet_eq, metalBitmapSetBit, and_ulong_mask]
  by_cases hw : b / 32 = bit / 32
  · have he : b = bit ↔ b % 32 = bit % 32 := by omega
    simp only [metalBitsPerUlong, hw, Function.update_self, BitVec.getLsbD_or, getLsbD_metalBit hlt, he,
      Bool.or_comm]
  · have he : b ≠ bit := fun he => hw (by rw [he])
    simp only [metalBitsPerUlong, Function.update_of_ne hw, he, decide_false, Bool.false_or]

theorem isBitSet_clear (bitmap : Bitmap) (bit b : Nat) :
    metalBitmapIsBitSet (metalBitmapClearBit bitmap bit) b =
      (!decide (b = bit) && metalBitmapIsBitSet bitmap b) := by
  have hlt : b % 32 < 32 := Nat.mod_lt _ (by decide)
  rw [isBitSet_eq, isBitSet_eq, metalBitmapClearBit, and_ulong_mask]
  by_cases hw : b / 32 = bit / 32
  · have he : b = bit ↔ b % 32 = bit % 32 := by omega
    simp only [metalBitsPerUlong, hw, Function.update_self, BitVec.getLsbD_and, BitVec.getLsbD_not, hlt,
      decide_true, Bool.true_and, getLsbD_metalBit hlt, he, Bool.and_comm]
  · have he : b ≠ bit := fun he => hw (by rw [he])
    simp only [metalBitsPerUlong, Function.update_of_ne hw, he, decide_false, Bool.not_false, Bool.true_and]

/-- The loop passes set bits only, and stops at a clear one unless it has seen them all. -/
theorem nextClear_spec (bitmap : Bitmap) (max n bit : Nat) :
    bit ≤ nextClear bitmap max n bit ∧ nextClear bitmap max n bit ≤ bit + n ∧
      (∀ i, bit ≤ i → i < nextClear bitmap max n bit → metalBitmapIsBitSet bitmap (i % max) = true) ∧
      (nextClear bitmap max n bit < bit + n →
        metalBitmapIsBitSet bitmap (nextClear bitmap max n bit % max) = false) := by
  induction n generalizing bit with
  | zero => simp only [nextClear]; exact ⟨Nat.le_refl _, Nat.le_refl _, by omega, by omega⟩
  | succ n ih =>
    simp only [nextClear]
    cases hset : metalBitmapIsBitSet bitmap (bit % max) with
    | false => exact ⟨by simp, by simp, by simp; omega, fun _ => by simpa using hset⟩
    | true =>
      obtain ⟨h1, h2, h3, h4⟩ := ih (bit + 1)
      rw [if_pos rfl]
      refine ⟨by omega, by omega, fun i hi hlt => ?_, fun hlt => h4 (by omega)⟩
      by_cases he : i = bit
      · rw [he, hset]
      · exact h3 i (by omega) hlt

/-- The search finds a clear bit if there is one, and comes back to its start if there is none. -/
theorem nextClearBit_spec (hstart : start < max) :
    metalBitmapNextClearBit bitmap start max < max ∧
      ((∃ b < max, metalBitmapIsBitSet bitmap b = false) →
        metalBitmapIsBitSet bitmap (metalBitmapNextClearBit bitmap start max) = false) ∧
      ((∀ b < max, metalBitmapIsBitSet bitmap b = true) →
        metalBitmapNextClearBit bitmap start max = start) := by
  obtain ⟨h1, h2, h3, h4⟩ := nextClear_spec bitmap max max start
  have hlt : metalBitmapNextClearBit bitmap start max < max := Nat.mod_lt _ (by omega)
  refine ⟨hlt, ?_, fun hall => ?_⟩
  · rintro ⟨b, hb, hclear⟩
    refine h4 (Nat.lt_of_le_of_ne h2 fun hend => ?_)
    -- a full turn passes every bit
    have hturn : ∃ i, start ≤ i ∧ i < start + max ∧ i % max = b := by
      by_cases hle : start ≤ b
      · exact ⟨b, hle, by omega, Nat.mod_eq_of_lt hb⟩
      · exact ⟨b + max, by omega, by omega, by rw [Nat.add_mod_right, Nat.mod_eq_of_lt hb]⟩
    obtain ⟨i, hi, hilt, rfl⟩ := hturn
    rw [h3 i hi (by omega)] at hclear
    cases hclear
  · have hend : nextClear bitmap max max start = start + max := by
      by_contra hne
      have := h4 (by omega)
      rw [hall _ (Nat.mod_lt _ (by omega))] at this
      cases this
    rw [metalBitmapNextClearBit, hend, Nat.add_mod_right, Nat.mod_eq_of_lt hstart]

end

/-! ## Addresses -/

def rpmsgAddrBmpSize : Nat := 128
def rpmsgReservedAddresses : BitVec 32 := 1024#32
def rpmsgNsEptAddr : BitVec 32 := 0x35#32

def rpmsgErrParam : Int := -2003
def rpmsgErrAddr : Int := -2007

/-- `rpmsg_get_address` -/
def rpmsgGetAddress (bitmap : Bitmap) (start size : Nat) : BitVec 32 × Bitmap :=
  let nextbit := metalBitmapNextClearBit bitmap start size
  if nextbit < size then
    (rpmsgReservedAddresses + BitVec.ofNat 32 nextbit, metalBitmapSetBit bitmap nextbit)
  else (rpmsgAddrAny, bitmap)

/-- `addr -= RPMSG_RESERVED_ADDRESSES`, and the test for a bit of the bitmap. -/
def addrBit (size : Nat) (addr : BitVec 32) : Option Nat :=
  let i := (addr - rpmsgReservedAddresses).toInt
  if 0 ≤ i ∧ i < size then some i.toNat else none

/-- `rpmsg_release_address` -/
def rpmsgReleaseAddress (bitmap : Bitmap) (size : Nat) (addr : BitVec 32) : Bitmap :=
  match addrBit size addr with
  | some bit => metalBitmapClearBit bitmap bit
  | none => bitmap

/-- `rpmsg_is_address_set` -/
def rpmsgIsAddressSet (bitmap : Bitmap) (size : Nat) (addr : BitVec 32) : Int :=
  match addrBit size addr with
  | some bit => if metalBitmapIsBitSet bitmap bit then 1 else 0
  | none => rpmsgErrParam

/-- `rpmsg_set_address` -/
def rpmsgSetAddress (bitmap : Bitmap) (size : Nat) (addr : BitVec 32) : Int × Bitmap :=
  match addrBit size addr with
  | some bit => (0, metalBitmapSetBit bitmap bit)
  | none => (rpmsgErrParam, bitmap)

/-- The dynamic address of a bit. -/
def addrOf (bit : Nat) : BitVec 32 := rpmsgReservedAddresses + BitVec.ofNat 32 bit

theorem toNat_addrOf {bit : Nat} (h : bit < rpmsgAddrBmpSize) : (addrOf bit).toNat = 1024 + bit := by
  simp only [rpmsgAddrBmpSize] at h
  rw [addrOf, BitVec.toNat_add, BitVec.toNat_ofNat, Nat.mod_eq_of_lt (show bit < 2 ^ 32 by omega)]
  show (1024 + bit) % 2 ^ 32 = _
  omega

theorem addrOf_inj {bit b : Nat} (h : bit < rpmsgAddrBmpSize) (hb : b < rpmsgAddrBmpSize)
    (he : addrOf bit = addrOf b) : bit = b := by
  have := congrArg BitVec.toNat he
  rw [toNat_addrOf h, toNat_addrOf hb] at this
  omega

theorem addrOf_ne_any {bit : Nat} (h : bit < rpmsgAddrBmpSize) : addrOf bit ≠ rpmsgAddrAny := by
  intro he
  have := congrArg BitVec.toNat he
  rw [toNat_addrOf h, show rpmsgAddrAny.toNat = 4294967295 from rfl] at this
  simp only [rpmsgAddrBmpSize] at h
  omega

theorem addrBit_addrOf {bit : Nat} (h : bit < rpmsgAddrBmpSize) :
    addrBit rpmsgAddrBmpSize (addrOf bit) = some bit := by
  have hsub : (addrOf bit - rpmsgReservedAddresses).toInt = bit := by
    simp only [rpmsgAddrBmpSize] at h
    rw [addrOf, BitVec.add_comm, BitVec.add_sub_cancel, BitVec.toInt_eq_toNat_of_lt] <;>
      rw [BitVec.toNat_ofNat, Nat.mod_eq_of_lt (by omega)]
    omega
  simp only [addrBit, hsub]
  rw [if_pos ⟨by omega, by omega⟩]
  rfl

/-- `rpmsg_get_address` never refuses. -/
theorem rpmsgGetAddress_eq {bitmap : Bitmap} {start : Nat} (h : start < rpmsgAddrBmpSize) :
    rpmsgGetAddress bitmap start rpmsgAddrBmpSize =
      (addrOf (metalBitmapNextClearBit bitmap start rpmsgAddrBmpSize),
        metalBitmapSetBit bitmap (metalBitmapNextClearBit bitmap start rpmsgAddrBmpSize)) := by
  simp only [rpmsgGetAddress, if_pos (nextClearBit_spec h).1, addrOf]

theorem rpmsgReleaseAddress_addrOf {bitmap : Bitmap} {bit : Nat} (h : bit < rpmsgAddrBmpSize) :
    rpmsgReleaseAddress bitmap rpmsgAddrBmpSize (addrOf bit) = metalBitmapClearBit bitmap bit := by
  simp only [rpmsgReleaseAddress, addrBit_addrOf h]

/-! ## Devices -/

/-- `struct rpmsg_device`, with the endpoints behind its list. -/
structure RpmsgDevice where
  bitmap : Bitmap
  bitnext : Nat
  supportNs : Bool
  ept : Nat → RpmsgEndpoint
  endpoints : List Nat

namespace RpmsgDevice

/-- `rpmsg_register_endpoint` -/
def rpmsgRegisterEndpoint (rdev : RpmsgDevice) (e : Nat) (name : List Byte) (src dest : BitVec 32) :
    RpmsgDevice :=
  { rdev with
    ept := Function.update rdev.ept e ⟨name.take 32, src, dest, 1#32, true⟩
    endpoints := rdev.endpoints ++ [e] }

/-- `rpmsg_unregister_endpoint` -/
def rpmsgUnregisterEndpoint (rdev : RpmsgDevice) (e : Nat) : RpmsgDevice :=
  let addr := (rdev.ept e).addr
  { rdev with
    bitmap :=
      if addr ≠ rpmsgAddrAny then rpmsgReleaseAddress rdev.bitmap rpmsgAddrBmpSize addr else rdev.bitmap
    ept := rpmsgEptDecref rdev.ept (some e)
    endpoints := rdev.endpoints.erase e }

/-- The part of `rpmsg_create_ept` that finds an address: the status, the address and the device. -/
def takeAddress (rdev : RpmsgDevice) (src : BitVec 32) : Int × BitVec 32 × RpmsgDevice :=
  if src = rpmsgAddrAny then
    let (addr, bitmap) := rpmsgGetAddress rdev.bitmap rdev.bitnext rpmsgAddrBmpSize
    if addr = rpmsgAddrAny then (rpmsgErrAddr, addr, { rdev with bitmap })
    else (0, addr, { rdev with bitmap, bitnext := (addr + 1#32).toNat % rpmsgAddrBmpSize })
  else if rpmsgReservedAddresses ≤ src then
    let status := rpmsgIsAddressSet rdev.bitmap rpmsgAddrBmpSize src
    if status = 0 then (0, src, { rdev with bitmap := (rpmsgSetAddress rdev.bitmap rpmsgAddrBmpSize src).2 })
    else if 0 < status then (rpmsgErrAddr, src, rdev)
    else (status, src, rdev)
  else (0, src, rdev)

/-- `rpmsg_create_ept` of an endpoint with a callback. `ns` is the status of the name service
announcement, if there is one. -/
def rpmsgCreateEpt (rdev : RpmsgDevice) (e : Nat) (name : List Byte) (src dest : BitVec 32) (ns : Int) :
    Int × RpmsgDevice :=
  match rdev.takeAddress src with
  | (0, addr, rdev) =>
    let rdev := rdev.rpmsgRegisterEndpoint e name addr dest
    let status :=
      if (rdev.ept e).name ≠ [] ∧ rdev.supportNs ∧ (rdev.ept e).destAddr = rpmsgAddrAny then ns else 0
    (status, if status = 0 then rdev else rdev.rpmsgUnregisterEndpoint e)
  | (status, _, rdev) => (status, rdev)

/-- `rpmsg_destroy_ept`. The name service announcement does not decide anything. -/
def rpmsgDestroyEpt (rdev : RpmsgDevice) (e : Nat) : RpmsgDevice :=
  if (rdev.ept e).rdev then rdev.rpmsgUnregisterEndpoint e else rdev

end RpmsgDevice

end V85x
