import V85xAmp.Lib.Mem

/-!
# Messages and endpoints (`openamp/rpmsg`)

The header in front of every message, the hold counter in its `reserved` field, and the endpoints of a
device.

A buffer that the device owns has the index of its descriptor in the low half of `reserved` and the hold
counter in the high half; `heldDecTest_of_held_once` reads both back.
-/

namespace V85x

open Firmware

/-! ## `struct rpmsg_hdr` -/

/-- `sizeof(struct rpmsg_hdr)` -/
def rpmsgHdrSize : Nat := 16

/-- `RPMSG_LOCATE_DATA` -/
def rpmsgLocateData (p : Nat) : Nat := p + rpmsgHdrSize

/-- `src` of the header at `p`. -/
def hdrSrc (m : Mem) (p : Nat) : BitVec 32 := BitVec.ofNat 32 (load32 m p)

def hdrDst (m : Mem) (p : Nat) : BitVec 32 := BitVec.ofNat 32 (load32 m (p + 4))

def hdrReserved (m : Mem) (p : Nat) : Nat := load32 m (p + 8)

def hdrLen (m : Mem) (p : Nat) : BitVec 16 := BitVec.ofNat 16 (load16 m (p + 12))

/-- `rp_hdr->reserved = v` -/
def setHdrReserved (m : Mem) (p v : Nat) : Mem := store32 m (p + 8) v

/-! ## The hold counter -/

/-- `1 << RPMSG_BUF_HELD_SHIFT` -/
def rpmsgBufHeld : Nat := 0x10000

/-- `RPMSG_BUF_HELD_COUNTER` -/
def rpmsgBufHeldCounter (m : Mem) (p : Nat) : Nat := hdrReserved m p / rpmsgBufHeld

/-- `RPMSG_BUF_HELD_INC` -/
def rpmsgBufHeldInc (m : Mem) (p : Nat) : Mem := setHdrReserved m p (hdrReserved m p + rpmsgBufHeld)

/-- `RPMSG_BUF_HELD_DEC` -/
def rpmsgBufHeldDec (m : Mem) (p : Nat) : Mem :=
  setHdrReserved m p (hdrReserved m p + (2 ^ 32 - rpmsgBufHeld))

/-- `RPMSG_BUF_INDEX` -/
def rpmsgBufIndex (m : Mem) (p : Nat) : BitVec 16 := BitVec.ofNat 16 (hdrReserved m p)

/-- `rpmsg_virtio_buf_held_dec_test` -/
def rpmsgVirtioBufHeldDecTest (m : Mem) (p : Nat) : Bool × Mem :=
  if rpmsgBufHeldCounter m p = 0 then (false, m)
  else
    let m := rpmsgBufHeldDec m p
    (rpmsgBufHeldCounter m p = 0, m)

section Header

variable {m m' : Mem} {p v x : Nat}

theorem hdrReserved_setHdrReserved (m : Mem) (p : Nat) {v : Nat} (hv : v < 2 ^ 32) :
    hdrReserved (setHdrReserved m p v) p = v := by
  unfold hdrReserved setHdrReserved
  rw [load32_store32_self, Nat.mod_eq_of_lt hv]

theorem setHdrReserved_apply (h : x < p + 8 ∨ p + 12 ≤ x) : setHdrReserved m p v x = m x :=
  store32_apply_of_disjoint (by omega)

/-- The fields beside `reserved` depend on the bytes beside it. -/
theorem hdr_congr (h : ∀ x, p ≤ x → x < p + 16 → (x < p + 8 ∨ p + 12 ≤ x) → m' x = m x) :
    hdrSrc m' p = hdrSrc m p ∧ hdrDst m' p = hdrDst m p ∧ hdrLen m' p = hdrLen m p := by
  unfold hdrSrc hdrDst hdrLen
  refine ⟨?_, ?_, ?_⟩
  · rw [load32_congr fun x h1 h2 => h x (by omega) (by omega) (by omega)]
  · rw [load32_congr fun x h1 h2 => h x (by omega) (by omega) (by omega)]
  · rw [load16_congr fun x h1 h2 => h x (by omega) (by omega) (by omega)]

theorem hdrReserved_congr (h : ∀ x, p + 8 ≤ x → x < p + 12 → m' x = m x) :
    hdrReserved m' p = hdrReserved m p :=
  load32_congr fun x h1 h2 => h x h1 (by omega)

/-- The test of a buffer that is held once: the counter goes to 0 and the buffer can be returned. -/
theorem heldDecTest_of_held_once {idx : BitVec 16} (h : hdrReserved m p = idx.toNat + rpmsgBufHeld) :
    ∃ m', rpmsgVirtioBufHeldDecTest m p = (true, m') ∧ rpmsgBufIndex m' p = idx ∧
      ∀ x, (x < p + 8 ∨ p + 12 ≤ x) → m' x = m x := by
  have hidx := idx.isLt
  have hres : hdrReserved (rpmsgBufHeldDec m p) p = idx.toNat := by
    unfold rpmsgBufHeldDec setHdrReserved hdrReserved at *
    rw [load32_store32_self, h]
    unfold rpmsgBufHeld
    omega
  refine ⟨rpmsgBufHeldDec m p, ?_, ?_, fun x hx => setHdrReserved_apply hx⟩
  · unfold rpmsgVirtioBufHeldDecTest rpmsgBufHeldCounter
    rw [h, if_neg (by unfold rpmsgBufHeld; omega)]
    simp only [hres, Prod.mk.injEq, decide_eq_true_eq, and_true]
    unfold rpmsgBufHeld
    omega
  · unfold rpmsgBufIndex
    rw [hres, BitVec.ofNat_toNat, BitVec.setWidth_eq]

end Header

/-! ## Endpoints -/

/-- `RPMSG_ADDR_ANY` -/
def rpmsgAddrAny : BitVec 32 := 0xFFFFFFFF#32

/-- `struct rpmsg_endpoint`. `name` is the text up to its NUL, or the whole field. -/
structure RpmsgEndpoint where
  name : List Byte
  addr : BitVec 32
  destAddr : BitVec 32
  refcnt : BitVec 32
  rdev : Bool
deriving Repr, DecidableEq

/-- `rpmsg_get_endpoint` on the list of these endpoints. A name is NULL or its text up to the NUL. -/
def rpmsgGetEndpoint (ept : Nat → RpmsgEndpoint) (endpoints : List Nat) (name : Option (List Byte))
    (addr destAddr : BitVec 32) : Option Nat :=
  endpoints.find? fun e =>
    (addr ≠ rpmsgAddrAny ∧ (ept e).addr = addr) ∨
      (name = some (ept e).name ∧
        ((destAddr ≠ rpmsgAddrAny ∧ (ept e).destAddr = destAddr) ∨
          (addr = rpmsgAddrAny ∧ (ept e).destAddr = rpmsgAddrAny)))

/-- `rpmsg_get_ept_from_addr` -/
def rpmsgGetEptFromAddr (ept : Nat → RpmsgEndpoint) (endpoints : List Nat) (addr : BitVec 32) :
    Option Nat :=
  rpmsgGetEndpoint ept endpoints none addr rpmsgAddrAny

/-- `rpmsg_ept_incref` of an endpoint or NULL. -/
def rpmsgEptIncref (ept : Nat → RpmsgEndpoint) : Option Nat → Nat → RpmsgEndpoint
  | none => ept
  | some e => Function.update ept e { ept e with refcnt := (ept e).refcnt + 1#32 }

/-- `rpmsg_ept_decref`, for endpoints without a `release_cb`. -/
def rpmsgEptDecref (ept : Nat → RpmsgEndpoint) : Option Nat → Nat → RpmsgEndpoint
  | none => ept
  | some e =>
    let refcnt := (ept e).refcnt - 1#32
    let rdev := if refcnt = 0#32 then false else (ept e).rdev
    Function.update ept e { ept e with refcnt, rdev }

/-- The registered endpoints have addresses, and no two have the same one. -/
structure DistinctAddrs (ept : Nat → RpmsgEndpoint) (endpoints : List Nat) : Prop where
  ne_any : ∀ e ∈ endpoints, (ept e).addr ≠ rpmsgAddrAny
  inj : ∀ e ∈ endpoints, ∀ e' ∈ endpoints, (ept e).addr = (ept e').addr → e = e'

variable {ept ept' : Nat → RpmsgEndpoint} {endpoints : List Nat}

/-- The endpoint with an address is the only one. -/
theorem find_addr_eq_some_iff (h : DistinctAddrs ept endpoints) {addr : BitVec 32} {e : Nat} :
    endpoints.find? (fun e => (ept e).addr = addr) = some e ↔ e ∈ endpoints ∧ (ept e).addr = addr := by
  constructor
  · intro hfind
    exact ⟨List.mem_of_find?_eq_some hfind, by simpa using List.find?_some hfind⟩
  · rintro ⟨hmem, haddr⟩
    cases hfind : endpoints.find? fun e => (ept e).addr = addr with
    | none =>
      rw [List.find?_eq_none] at hfind
      exact absurd haddr (by simpa using hfind e hmem)
    | some e' =>
      have haddr' : (ept e').addr = addr := by simpa using List.find?_some hfind
      rw [h.inj e' (List.mem_of_find?_eq_some hfind) e hmem (haddr'.trans haddr.symm)]

/-- A lookup by address is the search for the endpoint with this address: `RPMSG_ADDR_ANY` is no endpoint's
address. -/
theorem getEptFromAddr_eq_find (h : DistinctAddrs ept endpoints) (addr : BitVec 32) :
    rpmsgGetEptFromAddr ept endpoints addr = endpoints.find? fun e => (ept e).addr = addr := by
  unfold rpmsgGetEptFromAddr rpmsgGetEndpoint
  by_cases hany : addr = rpmsgAddrAny
  · subst hany
    have hnone : endpoints.find? (fun e => (ept e).addr = rpmsgAddrAny) = none := by
      rw [List.find?_eq_none]
      intro e he
      simpa using h.ne_any e he
    simp [hnone]
  · simp [hany]

/-- A lookup by address depends on the addresses. -/
theorem getEptFromAddr_congr (h : ∀ e, (ept' e).addr = (ept e).addr) (addr : BitVec 32) :
    rpmsgGetEptFromAddr ept' endpoints addr = rpmsgGetEptFromAddr ept endpoints addr := by
  simp [rpmsgGetEptFromAddr, rpmsgGetEndpoint, h]

@[simp] theorem addr_rpmsgEptIncref (e : Option Nat) (i : Nat) :
    (rpmsgEptIncref ept e i).addr = (ept i).addr := by
  cases e with
  | none => rfl
  | some e => rcases eq_or_ne i e with rfl | hne <;> simp [rpmsgEptIncref, *]

@[simp] theorem addr_rpmsgEptDecref (e : Option Nat) (i : Nat) :
    (rpmsgEptDecref ept e i).addr = (ept i).addr := by
  cases e with
  | none => rfl
  | some e => rcases eq_or_ne i e with rfl | hne <;> simp [rpmsgEptDecref, *]

end V85x
