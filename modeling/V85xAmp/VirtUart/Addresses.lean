import V85xAmp.Lib.Run
import V85xAmp.Rpmsg.Address

/-!
# The addresses of virtual UARTs (`sunxi_virt_uart.c`)

`virt_uart_init` creates an endpoint with a dynamic address, `virt_uart_deinit` destroys it. The endpoint of
`vuart` number `u` is endpoint `u + 1` of the device; endpoint 0 is the one of the name service.

`distinct_iff_along` follows a sequence of calls. Live virtual UARTs have addresses of their own exactly as
long as every `virt_uart_init` finds a free address: the call that does not succeeds as well, with the
address of a live one.
-/

namespace V85x

open Firmware

/-! ## The source -/

/-- `RPMSG_SERVICE_NAME` -/
def rpmsgServiceName : List Byte := "rpmsg-tty".toList.map fun c => BitVec.ofNat 8 c.toNat

/-- `&vuart->ept` -/
def vuartEpt (u : Nat) : Nat := u + 1

/-- `sunxi_openamp_create_endpoint` -/
def sunxiOpenampCreateEndpoint (rdev : RpmsgDevice) (e : Nat) (name : List Byte) (dest : BitVec 32)
    (ns : Int) : Int × RpmsgDevice :=
  rdev.rpmsgCreateEpt e name rpmsgAddrAny dest ns

/-- `virt_uart_init`. `ns` is the status of the name service announcement, if there is one. -/
def virtUartInit (rdev : RpmsgDevice) (u : Nat) (ns : Int) : Int × RpmsgDevice :=
  let (status, rdev) := sunxiOpenampCreateEndpoint rdev (vuartEpt u) rpmsgServiceName rpmsgAddrAny ns
  (if status < 0 then -1 else 0, rdev)

/-- `virt_uart_deinit` -/
def virtUartDeinit (rdev : RpmsgDevice) (u : Nat) : RpmsgDevice := rdev.rpmsgDestroyEpt (vuartEpt u)

/-! ## Sequences of calls -/

/-- The device, the virtual UARTs that are initialised, and for each `virt_uart_init` so far whether an
address was free, and its result. -/
structure VirtUarts where
  rdev : RpmsgDevice
  live : Nat → Bool
  inits : List (Bool × Int)

inductive VirtUartCall
  | init (u : Nat)
  | deinit (u : Nat)
deriving Repr, DecidableEq

namespace VirtUarts

/-- The address of a virtual UART. -/
def addr (s : VirtUarts) (u : Nat) : BitVec 32 := (s.rdev.ept (vuartEpt u)).addr

/-- `metal_bitmap_is_bit_clear` holds of some bit. -/
def AddressFree (rdev : RpmsgDevice) : Prop :=
  ∃ b < rpmsgAddrBmpSize, metalBitmapIsBitSet rdev.bitmap b = false

instance (rdev : RpmsgDevice) : Decidable (AddressFree rdev) :=
  inferInstanceAs (Decidable (∃ b < rpmsgAddrBmpSize, _))

/-- The state after a call. The announcements succeed. -/
def exec (s : VirtUarts) : VirtUartCall → VirtUarts
  | .init u =>
    let ret := virtUartInit s.rdev u 0
    { rdev := ret.2
      live := if ret.1 = 0 then Function.update s.live u true else s.live
      inits := s.inits ++ [(decide (AddressFree s.rdev), ret.1)] }
  | .deinit u => { s with rdev := virtUartDeinit s.rdev u, live := Function.update s.live u false }

/-- A virtual UART is initialised only while it is not live. -/
def Step (s : VirtUarts) (call : VirtUartCall) (t : VirtUarts) : Prop :=
  (∀ u, call = .init u → s.live u = false) ∧ t = s.exec call

/-- The device after its initialisation, and virtual UARTs in zeroed memory. -/
structure Initial (s : VirtUarts) : Prop where
  bitmap : ∀ i, s.rdev.bitmap i = 0#32
  bitnext : s.rdev.bitnext = 0
  endpoints : s.rdev.endpoints = if s.rdev.supportNs then [0] else []
  ns : (s.rdev.ept 0).addr = rpmsgNsEptAddr
  ept : ∀ u, (s.rdev.ept (vuartEpt u)).rdev = false
  live : ∀ u, s.live u = false
  inits : s.inits = []

/-- Live virtual UARTs have different addresses, a message for one is delivered to it, and a
`virt_uart_init` without a free address returned -1. -/
structure Ok (s : VirtUarts) : Prop where
  distinct : ∀ u v, s.live u = true → s.live v = true → s.addr u = s.addr v → u = v
  delivered : ∀ u, s.live u = true →
    rpmsgGetEptFromAddr s.rdev.ept s.rdev.endpoints (s.addr u) = some (vuartEpt u)
  refused : ∀ p ∈ s.inits, p.1 = false → p.2 = -1

/-- The call finds a free address. -/
def Finds (s : VirtUarts) : VirtUartCall → Prop
  | .init _ => AddressFree s.rdev
  | .deinit _ => True

instance (s : VirtUarts) : (call : VirtUartCall) → Decidable (s.Finds call)
  | .init _ => inferInstanceAs (Decidable (AddressFree _))
  | .deinit _ => .isTrue trivial

/-- The bits of the bitmap are the addresses of the live virtual UARTs, and these are registered. -/
structure Inv (s : VirtUarts) : Prop where
  bitnext : s.rdev.bitnext < rpmsgAddrBmpSize
  nodup : s.rdev.endpoints.Nodup
  endpoints : ∀ e, e ∈ s.rdev.endpoints ↔
    (e = 0 ∧ s.rdev.supportNs = true) ∨ ∃ u, e = vuartEpt u ∧ s.live u = true
  ns : (s.rdev.ept 0).addr = rpmsgNsEptAddr
  used : ∀ u, s.live u = true → ∃ b < rpmsgAddrBmpSize, s.addr u = addrOf b ∧
    metalBitmapIsBitSet s.rdev.bitmap b = true
  owner : ∀ b < rpmsgAddrBmpSize, metalBitmapIsBitSet s.rdev.bitmap b = true →
    ∃ u, s.live u = true ∧ s.addr u = addrOf b
  registered : ∀ u, s.live u = true →
    (s.rdev.ept (vuartEpt u)).refcnt = 1#32 ∧ (s.rdev.ept (vuartEpt u)).rdev = true
  dead : ∀ u, s.live u = false → (s.rdev.ept (vuartEpt u)).rdev = false

variable {s t : VirtUarts} {call : VirtUartCall} {u : Nat}

theorem vuartEpt_inj {v : Nat} : vuartEpt u = vuartEpt v ↔ u = v := Nat.add_right_cancel_iff

theorem Initial.inv (h : Initial s) : Inv s where
  bitnext := by rw [h.bitnext]; decide
  nodup := by rw [h.endpoints]; split <;> simp
  endpoints e := by
    rw [h.endpoints]
    cases s.rdev.supportNs <;> simp [h.live]
  ns := h.ns
  used u hu := by rw [h.live u] at hu; cases hu
  owner b _ hset := by
    rw [isBitSet_eq, h.bitmap] at hset
    simp at hset
  registered u hu := by rw [h.live u] at hu; cases hu
  dead u _ := h.ept u

theorem Initial.ok (h : Initial s) : Ok s where
  distinct u _ hu := by rw [h.live u] at hu; cases hu
  delivered u hu := by rw [h.live u] at hu; cases hu
  refused p hp := by rw [h.inits] at hp; cases hp

/-- Distinct addresses of the live virtual UARTs are distinct among all endpoints. -/
theorem Inv.delivered (h : Inv s)
    (hd : ∀ u v, s.live u = true → s.live v = true → s.addr u = s.addr v → u = v) (hu : s.live u = true) :
    rpmsgGetEptFromAddr s.rdev.ept s.rdev.endpoints (s.addr u) = some (vuartEpt u) := by
  have hns : ∀ v, s.live v = true → s.addr v ≠ rpmsgNsEptAddr := by
    intro v hv he
    obtain ⟨b, hb, haddr, -⟩ := h.used v hv
    have := congrArg BitVec.toNat (haddr.symm.trans he)
    rw [toNat_addrOf hb, show rpmsgNsEptAddr.toNat = 53 from rfl] at this
    omega
  have hdist : DistinctAddrs s.rdev.ept s.rdev.endpoints := by
    constructor
    · intro e he
      rcases (h.endpoints e).mp he with ⟨rfl, -⟩ | ⟨v, rfl, hv⟩
      · rw [h.ns]
        decide
      · obtain ⟨b, hb, haddr, -⟩ := h.used v hv
        rw [show (s.rdev.ept (vuartEpt v)).addr = addrOf b from haddr]
        exact addrOf_ne_any hb
    · intro e he e' he' heq
      rcases (h.endpoints e).mp he with ⟨rfl, -⟩ | ⟨v, rfl, hv⟩ <;>
        rcases (h.endpoints e').mp he' with ⟨rfl, -⟩ | ⟨v', rfl, hv'⟩
      · rfl
      · exact absurd (heq.symm.trans h.ns) (hns v' hv')
      · exact absurd (heq.trans h.ns) (hns v hv)
      · rw [hd v v' hv hv' heq]
  rw [getEptFromAddr_eq_find hdist, find_addr_eq_some_iff hdist]
  exact ⟨(h.endpoints _).mpr (.inr ⟨u, rfl, hu⟩), rfl⟩

/-- The bit that the next `rpmsg_get_address` takes. -/
def nextBit (rdev : RpmsgDevice) : Nat := metalBitmapNextClearBit rdev.bitmap rdev.bitnext rpmsgAddrBmpSize

/-- `virt_uart_init` always succeeds. -/
theorem virtUartInit_eq {rdev : RpmsgDevice} (h : rdev.bitnext < rpmsgAddrBmpSize) (u : Nat) :
    virtUartInit rdev u 0 = (0, { rdev with
      bitmap := metalBitmapSetBit rdev.bitmap (nextBit rdev)
      bitnext := (addrOf (nextBit rdev) + 1#32).toNat % rpmsgAddrBmpSize
      ept := Function.update rdev.ept (vuartEpt u)
        ⟨rpmsgServiceName.take 32, addrOf (nextBit rdev), rpmsgAddrAny, 1#32, true⟩
      endpoints := rdev.endpoints ++ [vuartEpt u] }) := by
  have htake : rdev.takeAddress rpmsgAddrAny = (0, addrOf (nextBit rdev),
      { rdev with
        bitmap := metalBitmapSetBit rdev.bitmap (nextBit rdev)
        bitnext := (addrOf (nextBit rdev) + 1#32).toNat % rpmsgAddrBmpSize }) := by
    simp only [RpmsgDevice.takeAddress, rpmsgGetAddress_eq h, if_true]
    exact if_neg (addrOf_ne_any (nextClearBit_spec h).1)
  simp [virtUartInit, sunxiOpenampCreateEndpoint, RpmsgDevice.rpmsgCreateEpt, htake,
    RpmsgDevice.rpmsgRegisterEndpoint]

/-- `virt_uart_deinit` of a live virtual UART frees its address. -/
theorem virtUartDeinit_eq (h : Inv s) (hu : s.live u = true) {b : Nat} (hb : b < rpmsgAddrBmpSize)
    (haddr : s.addr u = addrOf b) :
    virtUartDeinit s.rdev u = { s.rdev with
      bitmap := metalBitmapClearBit s.rdev.bitmap b
      ept := Function.update s.rdev.ept (vuartEpt u)
        { s.rdev.ept (vuartEpt u) with refcnt := 0#32, rdev := false }
      endpoints := s.rdev.endpoints.erase (vuartEpt u) } := by
  obtain ⟨hrefcnt, hrdev⟩ := h.registered u hu
  have haddr : (s.rdev.ept (vuartEpt u)).addr = addrOf b := haddr
  rw [virtUartDeinit, RpmsgDevice.rpmsgDestroyEpt, if_pos hrdev]
  simp only [RpmsgDevice.rpmsgUnregisterEndpoint, haddr, ne_eq, addrOf_ne_any hb, not_false_eq_true, if_true,
    rpmsgReleaseAddress_addrOf hb, rpmsgEptDecref, hrefcnt, BitVec.sub_self]

theorem virtUartDeinit_of_dead (h : Inv s) (hu : s.live u = false) : virtUartDeinit s.rdev u = s.rdev := by
  rw [virtUartDeinit, RpmsgDevice.rpmsgDestroyEpt, if_neg (by simp [h.dead u hu])]

/-- What `virt_uart_init` leaves. -/
structure Inits (s : VirtUarts) (u : Nat) (t : VirtUarts) : Prop where
  supportNs : t.rdev.supportNs = s.rdev.supportNs
  bitnext : t.rdev.bitnext < rpmsgAddrBmpSize
  bits : ∀ b, metalBitmapIsBitSet t.rdev.bitmap b =
    (decide (b = nextBit s.rdev) || metalBitmapIsBitSet s.rdev.bitmap b)
  ept : t.rdev.ept = Function.update s.rdev.ept (vuartEpt u)
    ⟨rpmsgServiceName.take 32, addrOf (nextBit s.rdev), rpmsgAddrAny, 1#32, true⟩
  endpoints : t.rdev.endpoints = s.rdev.endpoints ++ [vuartEpt u]
  live : t.live = Function.update s.live u true
  inits : t.inits = s.inits ++ [(decide (AddressFree s.rdev), 0)]

theorem exec_init (h : Inv s) (u : Nat) : Inits s u (s.exec (.init u)) := by
  have heq := virtUartInit_eq h.bitnext u
  refine ⟨?_, ?_, fun b => ?_, ?_, ?_, ?_, ?_⟩ <;> simp only [exec, heq, if_true]
  · exact Nat.mod_lt _ (by decide)
  · exact isBitSet_set _ _ _

/-! ## What an initialisation leaves -/

theorem ne_of_live {v : Nat} (hu : s.live u = false) (hv : s.live v = true) : v ≠ u := by
  rintro rfl
  rw [hu] at hv
  cases hv

theorem Inits.addr (h : Inits s u t) (v : Nat) :
    t.addr v = if v = u then addrOf (nextBit s.rdev) else s.addr v := by
  simp only [VirtUarts.addr, h.ept]
  by_cases hv : v = u
  · subst hv
    simp
  · rw [if_neg hv, Function.update_of_ne (mt vuartEpt_inj.mp hv)]

theorem Inits.ept_of_ne (h : Inits s u t) {v : Nat} (hv : v ≠ u) :
    t.rdev.ept (vuartEpt v) = s.rdev.ept (vuartEpt v) := by
  rw [h.ept, Function.update_of_ne (mt vuartEpt_inj.mp hv)]

theorem Inits.live_iff (h : Inits s u t) (v : Nat) : t.live v = true ↔ v = u ∨ s.live v = true := by
  rw [h.live]
  by_cases hv : v = u
  · subst hv
    simp
  · simp [hv]

theorem Inits.mem_endpoints (ht : Inits s u t) (h : Inv s) (e : Nat) : e ∈ t.rdev.endpoints ↔
    (e = 0 ∧ t.rdev.supportNs = true) ∨ ∃ v, e = vuartEpt v ∧ t.live v = true := by
  rw [ht.endpoints, ht.supportNs, List.mem_append, List.mem_singleton, h.endpoints, or_assoc]
  simp only [ht.live_iff]
  refine or_congr Iff.rfl ⟨?_, ?_⟩
  · rintro (⟨v, rfl, hv⟩ | rfl)
    · exact ⟨v, rfl, .inr hv⟩
    · exact ⟨u, rfl, .inl rfl⟩
  · rintro ⟨v, rfl, rfl | hv⟩
    · exact .inr rfl
    · exact .inl ⟨v, rfl, hv⟩

/-- A `virt_uart_init` keeps the invariant, whether or not it finds a free address. -/
theorem Inits.inv (ht : Inits s u t) (h : Inv s) (hu : s.live u = false) : Inv t where
  bitnext := ht.bitnext
  nodup := by
    rw [ht.endpoints]
    refine List.nodup_append.mpr ⟨h.nodup, List.pairwise_singleton _ _, fun e he e' he' hee => ?_⟩
    obtain rfl := hee.trans (List.mem_singleton.mp he')
    rcases (h.endpoints _).mp he with ⟨hz, -⟩ | ⟨v, hv, hlv⟩
    · cases hz
    · exact ne_of_live hu hlv (vuartEpt_inj.mp hv).symm
  endpoints := ht.mem_endpoints h
  ns := by rw [ht.ept, Function.update_of_ne (show 0 ≠ vuartEpt u from (Nat.succ_ne_zero u).symm), h.ns]
  used := by
    intro v hv
    rw [ht.addr]
    by_cases hvu : v = u
    · exact ⟨nextBit s.rdev, (nextClearBit_spec h.bitnext).1, if_pos hvu, by rw [ht.bits]; simp⟩
    · obtain ⟨b, hb, haddr, hset⟩ := h.used v (((ht.live_iff v).mp hv).resolve_left hvu)
      exact ⟨b, hb, by rw [if_neg hvu, haddr], by rw [ht.bits, hset, Bool.or_true]⟩
  owner := by
    intro b hb hset
    rw [ht.bits, Bool.or_eq_true, decide_eq_true_iff] at hset
    rcases hset with rfl | hset
    · exact ⟨u, (ht.live_iff u).mpr (.inl rfl), by rw [ht.addr, if_pos rfl]⟩
    · obtain ⟨v, hv, haddr⟩ := h.owner b hb hset
      exact ⟨v, (ht.live_iff v).mpr (.inr hv), by rw [ht.addr, if_neg (ne_of_live hu hv), haddr]⟩
  registered := by
    intro v hv
    by_cases hvu : v = u
    · subst hvu
      rw [ht.ept, Function.update_self]
      exact ⟨rfl, rfl⟩
    · rw [ht.ept_of_ne hvu]
      exact h.registered v (((ht.live_iff v).mp hv).resolve_left hvu)
  dead := by
    intro v hv
    have hnot : ¬ (v = u ∨ s.live v = true) := fun hor => by
      rw [(ht.live_iff v).mpr hor] at hv
      cases hv
    rw [ht.ept_of_ne fun hvu => hnot (.inl hvu)]
    exact h.dead v (by simpa using fun hv => hnot (.inr hv))

/-- What `virt_uart_deinit` of a live virtual UART with the address of bit `b` leaves. -/
structure Deinits (s : VirtUarts) (u b : Nat) (t : VirtUarts) : Prop where
  supportNs : t.rdev.supportNs = s.rdev.supportNs
  bitnext : t.rdev.bitnext = s.rdev.bitnext
  bits : ∀ b', metalBitmapIsBitSet t.rdev.bitmap b' =
    (!decide (b' = b) && metalBitmapIsBitSet s.rdev.bitmap b')
  ept : t.rdev.ept = Function.update s.rdev.ept (vuartEpt u)
    { s.rdev.ept (vuartEpt u) with refcnt := 0#32, rdev := false }
  endpoints : t.rdev.endpoints = s.rdev.endpoints.erase (vuartEpt u)
  live : t.live = Function.update s.live u false
  inits : t.inits = s.inits

theorem exec_deinit (h : Inv s) (hu : s.live u = true) {b : Nat} (hb : b < rpmsgAddrBmpSize)
    (haddr : s.addr u = addrOf b) : Deinits s u b (s.exec (.deinit u)) := by
  have heq := virtUartDeinit_eq h hu hb haddr
  refine ⟨?_, ?_, fun b' => ?_, ?_, ?_, ?_, ?_⟩ <;> simp only [exec, heq]
  exact isBitSet_clear _ _ _

theorem exec_deinit_of_dead (h : Inv s) (hu : s.live u = false) : s.exec (.deinit u) = s := by
  obtain ⟨rdev, live, inits⟩ := s
  have hlive : Function.update live u false = live := Function.update_eq_self_iff.mpr hu.symm
  have hrdev : virtUartDeinit rdev u = rdev := virtUartDeinit_of_dead h hu
  simp only [exec, hlive, hrdev]

theorem Deinits.addr {b : Nat} (h : Deinits s u b t) (v : Nat) : t.addr v = s.addr v := by
  simp only [VirtUarts.addr, h.ept]
  by_cases hv : v = u
  · subst hv
    simp
  · rw [Function.update_of_ne (mt vuartEpt_inj.mp hv)]

theorem Deinits.ept_of_ne {b v : Nat} (h : Deinits s u b t) (hv : v ≠ u) :
    t.rdev.ept (vuartEpt v) = s.rdev.ept (vuartEpt v) := by
  rw [h.ept, Function.update_of_ne (mt vuartEpt_inj.mp hv)]

theorem Deinits.live_iff {b : Nat} (h : Deinits s u b t) (v : Nat) :
    t.live v = true ↔ v ≠ u ∧ s.live v = true := by
  rw [h.live]
  by_cases hv : v = u
  · subst hv
    simp
  · simp [hv]

theorem Deinits.mem_endpoints {b : Nat} (ht : Deinits s u b t) (h : Inv s) (e : Nat) : e ∈ t.rdev.endpoints ↔
    (e = 0 ∧ t.rdev.supportNs = true) ∨ ∃ v, e = vuartEpt v ∧ t.live v = true := by
  rw [ht.endpoints, ht.supportNs, h.nodup.mem_erase_iff, h.endpoints]
  simp only [ht.live_iff]
  constructor
  · rintro ⟨hne, hz | ⟨v, rfl, hv⟩⟩
    · exact .inl hz
    · exact .inr ⟨v, rfl, fun hvu => hne (by rw [hvu]), hv⟩
  · rintro (⟨rfl, hns⟩ | ⟨v, rfl, hvu, hv⟩)
    · exact ⟨(Nat.succ_ne_zero u).symm, .inl ⟨rfl, hns⟩⟩
    · exact ⟨mt vuartEpt_inj.mp hvu, .inr ⟨v, rfl, hv⟩⟩

/-- A `virt_uart_deinit` keeps the invariant when the address was nobody else's. -/
theorem Deinits.inv {b : Nat} (ht : Deinits s u b t) (h : Inv s) (hb : b < rpmsgAddrBmpSize)
    (haddr : s.addr u = addrOf b) (hd : ∀ v, s.live v = true → s.addr u = s.addr v → u = v) : Inv t where
  bitnext := by rw [ht.bitnext]; exact h.bitnext
  nodup := by rw [ht.endpoints]; exact h.nodup.erase _
  endpoints := ht.mem_endpoints h
  ns := by rw [ht.ept, Function.update_of_ne (show 0 ≠ vuartEpt u from (Nat.succ_ne_zero u).symm), h.ns]
  used := by
    intro v hv
    obtain ⟨hvu, hv⟩ := (ht.live_iff v).mp hv
    obtain ⟨b', hb', haddr', hset⟩ := h.used v hv
    refine ⟨b', hb', by rw [ht.addr, haddr'], ?_⟩
    have hne : b' ≠ b := by
      rintro rfl
      exact hvu (hd v hv (haddr.trans haddr'.symm)).symm
    rw [ht.bits, hset]
    simp [hne]
  owner := by
    intro b' hb' hset
    rw [ht.bits, Bool.and_eq_true] at hset
    obtain ⟨v, hv, haddr'⟩ := h.owner b' hb' hset.2
    have hvu : v ≠ u := by
      rintro rfl
      obtain rfl := addrOf_inj hb' hb (haddr'.symm.trans haddr)
      simp at hset
    exact ⟨v, (ht.live_iff v).mpr ⟨hvu, hv⟩, by rw [ht.addr, haddr']⟩
  registered := by
    intro v hv
    obtain ⟨hvu, hv⟩ := (ht.live_iff v).mp hv
    rw [ht.ept_of_ne hvu]
    exact h.registered v hv
  dead := by
    intro v hv
    by_cases hvu : v = u
    · rw [hvu, ht.ept, Function.update_self]
    · rw [ht.ept_of_ne hvu]
      apply h.dead v
      rw [Bool.eq_false_iff]
      intro hl
      rw [(ht.live_iff v).mpr ⟨hvu, hl⟩] at hv
      cases hv

/-! ## Runs -/

theorem inv_step (h : Inv s) (hok : Ok s) (hs : Step s call t) : Inv t := by
  obtain ⟨hcall, rfl⟩ := hs
  cases call with
  | init u => exact (exec_init h u).inv h (hcall u rfl)
  | deinit u =>
    cases hu : s.live u with
    | false =>
      rw [exec_deinit_of_dead h hu]
      exact h
    | true =>
      obtain ⟨b, hb, haddr, -⟩ := h.used u hu
      exact (exec_deinit h hu hb haddr).inv h hb haddr fun v hv => hok.distinct u v hu hv

/-- With a free address, the new virtual UART has one of its own; without, it has that of a live one. -/
theorem ok_init (h : Inv s) (hok : Ok s) (hu : s.live u = false) (ht : Inits s u t) :
    Ok t ↔ AddressFree s.rdev := by
  obtain ⟨hlt, hfree, hfull⟩ := @nextClearBit_spec s.rdev.bitmap _ _ h.bitnext
  have hlive : ∀ {v}, t.live v = true → v ≠ u → s.live v = true :=
    fun {v} hv hvu => ((ht.live_iff v).mp hv).resolve_left hvu
  constructor
  · intro hokt
    by_contra hnot
    have hall : ∀ b < rpmsgAddrBmpSize, metalBitmapIsBitSet s.rdev.bitmap b = true := by
      intro b hb
      by_contra hclear
      exact hnot ⟨b, hb, by simpa using hclear⟩
    obtain ⟨v, hv, haddr⟩ := h.owner _ hlt (hall _ hlt)
    have hvu := ne_of_live hu hv
    refine hvu (hokt.distinct v u ((ht.live_iff v).mpr (.inr hv)) ((ht.live_iff u).mpr (.inl rfl)) ?_)
    rw [ht.addr, ht.addr, if_neg hvu, if_pos rfl, haddr]
    rfl
  · intro hex
    have hnew : ∀ v, s.live v = true → s.addr v ≠ addrOf (nextBit s.rdev) := by
      intro v hv he
      obtain ⟨b, hb, haddr, hset⟩ := h.used v hv
      obtain rfl := addrOf_inj hb hlt (haddr.symm.trans he)
      rw [hfree hex] at hset
      cases hset
    have hdistinct : ∀ v w, t.live v = true → t.live w = true → t.addr v = t.addr w → v = w := by
      intro v w hv hw he
      rw [ht.addr, ht.addr] at he
      by_cases hvu : v = u <;> by_cases hwu : w = u
      · rw [hvu, hwu]
      · rw [if_pos hvu, if_neg hwu] at he
        exact absurd he.symm (hnew w (hlive hw hwu))
      · rw [if_neg hvu, if_pos hwu] at he
        exact absurd he (hnew v (hlive hv hvu))
      · rw [if_neg hvu, if_neg hwu] at he
        exact hok.distinct v w (hlive hv hvu) (hlive hw hwu) he
    refine ⟨hdistinct, fun v hv => (ht.inv h hu).delivered hdistinct hv, fun p hp hp1 => ?_⟩
    rw [ht.inits] at hp
    rcases List.mem_append.mp hp with hp | hp
    · exact hok.refused p hp hp1
    · obtain rfl := List.mem_singleton.mp hp
      simp [hex] at hp1

theorem ok_step (h : Inv s) (hok : Ok s) (hs : Step s call t) : Ok t ↔ Finds s call := by
  have hinv := inv_step h hok hs
  obtain ⟨hcall, rfl⟩ := hs
  cases call with
  | init u => exact ok_init h hok (hcall u rfl) (exec_init h u)
  | deinit u =>
    refine iff_of_true ?_ trivial
    cases hu : s.live u with
    | false =>
      rw [exec_deinit_of_dead h hu]
      exact hok
    | true =>
      obtain ⟨b, hb, haddr, -⟩ := h.used u hu
      have ht := exec_deinit h hu hb haddr
      have hlive : ∀ v, (s.exec (.deinit u)).live v = true → s.live v = true :=
        fun v hv => ((ht.live_iff v).mp hv).2
      have hdistinct : ∀ v w, (s.exec (.deinit u)).live v = true → (s.exec (.deinit u)).live w = true →
          (s.exec (.deinit u)).addr v = (s.exec (.deinit u)).addr w → v = w := by
        intro v w hv hw he
        rw [ht.addr, ht.addr] at he
        exact hok.distinct v w (hlive v hv) (hlive w hw) he
      exact ⟨hdistinct, fun v hv => hinv.delivered hdistinct hv, by rw [ht.inits]; exact hok.refused⟩

end VirtUarts

open VirtUarts

/-- In every sequence of calls, live virtual UARTs have different addresses, messages go to the one that they
are addressed to and a `virt_uart_init` without a free address is refused, if and only if every
`virt_uart_init` finds a free address. -/
theorem distinct_iff_along {s : VirtUarts} {tr : List (VirtUartCall × VirtUarts)} (h0 : Initial s)
    (h : Run Step s tr) : (∀ p ∈ tr, Ok p.2) ↔ Along Finds s tr :=
  Run.always_iff Inv Ok Finds (fun _ _ _ hinv hok hst _ => inv_step hinv hok hst)
    (fun _ _ _ hinv hok hst => ok_step hinv hok hst) h h0.inv h0.ok

namespace VirtUarts

/-- A device without a name service, and zeroed virtual UARTs. -/
def boot : VirtUarts where
  rdev := ⟨fun _ => 0#32, 0, false, fun _ => ⟨[], rpmsgNsEptAddr, 0#32, 0#32, false⟩, []⟩
  live _ := false
  inits := []

theorem boot_initial : Initial boot := ⟨fun _ => rfl, rfl, rfl, rfl, fun _ => rfl, fun _ => rfl, rfl⟩

/-- The virtual UARTs 0 to `n - 1` initialised. -/
def filled (n : Nat) : VirtUarts := (List.range n).foldl (fun s u => s.exec (.init u)) boot

theorem filled_succ (n : Nat) : filled (n + 1) = (filled n).exec (.init n) := by
  simp [filled, List.range_succ]

/-- They have the first addresses. -/
theorem filled_spec (n : Nat) (hn : n ≤ rpmsgAddrBmpSize) :
    Reachable Step Initial (filled n) ∧ Inv (filled n) ∧ (filled n).rdev.bitnext = n % rpmsgAddrBmpSize ∧
      (∀ b, metalBitmapIsBitSet (filled n).rdev.bitmap b = decide (b < n)) ∧
      (∀ v, (filled n).live v = decide (v < n)) ∧ ∀ v < n, (filled n).addr v = addrOf v := by
  induction n with
  | zero =>
    exact ⟨.init boot_initial, boot_initial.inv, rfl, fun b => by rw [isBitSet_eq]; simp [filled, boot],
      fun v => by simp [filled, boot], by simp⟩
  | succ n ih =>
    obtain ⟨hreach, hinv, hnext, hbits, hlive, haddr⟩ := ih (by omega)
    have hn : n < rpmsgAddrBmpSize := hn
    have hdead : (filled n).live n = false := by rw [hlive]; simp
    have ht := exec_init hinv n
    -- the search stops where it starts
    have hbit : nextBit (filled n).rdev = n := by
      have hmod : n % 128 = n := Nat.mod_eq_of_lt hn
      rw [nextBit, metalBitmapNextClearBit, hnext, Nat.mod_eq_of_lt hn]
      show nextClear _ 128 (127 + 1) n % 128 = n
      rw [nextClear, hmod, hbits, if_neg (by simp), hmod]
    rw [filled_succ]
    refine ⟨hreach.step ⟨by rintro u ⟨⟩; exact hdead, rfl⟩, ht.inv hinv hdead, ?_, fun b => ?_, fun v => ?_,
      fun v hv => ?_⟩
    · simp only [exec, virtUartInit_eq hinv.bitnext, hbit]
      rw [BitVec.toNat_add, toNat_addrOf hn]
      simp only [rpmsgAddrBmpSize] at hn ⊢
      show (1024 + n + 1) % 2 ^ 32 % 128 = (n + 1) % 128
      omega
    · rw [ht.bits, hbit, hbits, Bool.eq_iff_iff]
      simp
      omega
    · rw [ht.live]
      by_cases hv : v = n
      · subst hv
        simp
      · rw [Function.update_of_ne hv, hlive, Bool.eq_iff_iff]
        simp
        omega
    · rw [ht.addr, hbit]
      by_cases hvn : v = n
      · rw [if_pos hvn, hvn]
      · rw [if_neg hvn, haddr v (by omega)]

end VirtUarts

/-- Two virtual UARTs initialised, the first one torn down and initialised again. -/
theorem distinct_three : ∃ tr, Run Step boot tr ∧
    tr.map (·.1) = [.init 0, .init 1, .deinit 0, .init 0] ∧ ∀ p ∈ tr, Ok p.2 := by
  have hrun : ∃ tr, Run Step boot tr ∧ tr.map (·.1) = [.init 0, .init 1, .deinit 0, .init 0] ∧
      Along Finds boot tr := by
    refine ⟨_, .cons ⟨?_, rfl⟩ (.cons ⟨?_, rfl⟩ (.cons ⟨?_, rfl⟩ (.cons ⟨?_, rfl⟩ (.nil _)))), rfl, ?_⟩
    · rintro u ⟨⟩; rfl
    · rintro u ⟨⟩; rfl
    · rintro u ⟨⟩
    · rintro u ⟨⟩; rfl
    · exact ⟨⟨0, by decide, by decide⟩, ⟨1, by decide, by decide⟩, trivial, ⟨2, by decide, by decide⟩,
        trivial⟩
  obtain ⟨tr, h, hacts, hfinds⟩ := hrun
  exact ⟨tr, h, hacts, (distinct_iff_along boot_initial h).mpr hfinds⟩

/-- With 128 live virtual UARTs, the next `virt_uart_init` succeeds and gives the first one's address
again. -/
theorem shared_address :
    Reachable Step Initial (filled 128) ∧ Step (filled 128) (.init 128) (filled 129) ∧
      (filled 129).inits.getLast? = some (false, 0) ∧ (filled 129).live 0 = true ∧
      (filled 129).live 128 = true ∧ (filled 129).addr 128 = (filled 129).addr 0 := by
  obtain ⟨hreach, hinv, hnext, hbits, hlive, haddr⟩ := filled_spec 128 (Nat.le_refl _)
  have ht := exec_init hinv 128
  rw [← filled_succ] at ht
  have hall : ∀ b < rpmsgAddrBmpSize, metalBitmapIsBitSet (filled 128).rdev.bitmap b = true := by
    intro b hb
    rw [hbits]
    exact decide_eq_true hb
  have hbit : nextBit (filled 128).rdev = 0 := ((nextClearBit_spec hinv.bitnext).2.2 hall).trans hnext
  refine ⟨hreach, ⟨by rintro u ⟨⟩; rw [hlive]; rfl, filled_succ 128⟩, ?_, ?_, ?_, ?_⟩
  · rw [ht.inits, List.getLast?_concat]
    have hnot : ¬ AddressFree (filled 128).rdev := by
      rintro ⟨b, hb, hclear⟩
      rw [hall b hb] at hclear
      cases hclear
    simp [hnot]
  · rw [ht.live, Function.update_of_ne (by decide), hlive]
    rfl
  · rw [ht.live, Function.update_self]
  · rw [ht.addr, ht.addr, hbit, haddr 0 (by decide)]
    simp

end V85x
