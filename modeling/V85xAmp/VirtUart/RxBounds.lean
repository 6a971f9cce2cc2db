import V85xAmp.Rpmsg.ReceiveInv
import V85xAmp.Utils.TraceLog
import V85xAmp.VirtUart.Echo

/-!
# The receive buffer of a virtual UART (`virt_uart_read_cb`)

The host writes three things that bound a message: the address and the length of the descriptor, and the
length in the header. `rpmsg_virtio_rx_callback` takes the pointer from the first, does not use the second
and hands the third to the endpoint, whose callback stores it beside the pointer.

`Takes d` are the states of the loop's body from the fetch of the descriptor `d` to the endpoint's callback.
The host writes whatever it likes in between.
-/

namespace V85x

open Firmware

namespace VirtUart

/-- A UART with a message. -/
def received (vuart : VirtUart) (data : Nat) (len : BitVec 16) : VirtUart :=
  { vuart with rxBuf := data, rxSize := len }

/-- The UART is shown to its callback, and is what the call leaves. -/
def shown (vuart : VirtUart) (mem : Mem) (buf : Nat → Byte) (log : TraceLog) :
    Comp (Int × VirtUart × Option Echo) :=
  match vuart.cb with
  | none => pure (0, vuart, none)
  | some cb => cb.call vuart mem buf log >>= fun e => pure (0, vuart, e)

/-- `rx_buf` and `rx_size` describe bytes of the descriptor's buffer. -/
def InBuffer (vuart : VirtUart) (d : VringDesc) : Prop :=
  d.addr.toNat ≤ vuart.rxBuf ∧ vuart.rxBuf + vuart.rxSize.toNat ≤ d.addr.toNat + d.len.toNat

theorem readCb_received (vuart : VirtUart) (data : Nat) (len : BitVec 16) (mem : Mem) (buf : Nat → Byte)
    (log : TraceLog) : virtUartReadCb vuart data len.toNat mem buf log =
      (vuart.received data len).shown mem buf log := by
  rw [virtUartReadCb, BitVec.ofNat_toNat, BitVec.setWidth_eq]
  rfl

/-- What such a call leaves. -/
theorem eq_of_shown {v w : VirtUart} {mem : Mem} {buf : Nat → Byte} {log : TraceLog} {rc : Int}
    {e : Option Echo} (h : (v.shown mem buf log).Returns (rc, w, e)) : w = v := by
  unfold shown at h
  split at h
  · cases Comp.returns_pure.mp h
    rfl
  · obtain ⟨_, -, hret⟩ := Comp.returns_bind.mp h
    cases Comp.returns_pure.mp hret
    rfl

end VirtUart

namespace RxState

/-- The loop is about to take the descriptor `d`, which the host published, with its buffer in the shared
memory. -/
structure Fetches (d : VringDesc) (s : RxState) : Prop where
  pc : s.pc = .fetch
  shmIo : s.vq.shmIo = shmRegion
  available : s.vq.availableIdx ≠ s.vq.vqRing.avail.idx
  idx_lt : s.vq.nextIdx < s.vq.nentries
  desc : s.vq.vqRing.desc s.vq.nextIdx.toNat = d
  region : d.InRegion

/-- After the fetch and before the callback. -/
def BeforeCallback (s : RxState) : Prop :=
  match s.pc with
  | .tag _ _ | .lookup _ => True
  | _ => False

/-- A step of the loop's body, or of the host. -/
inductive BodyStep : RxState → RxAct → RxState → Prop
  | isr {s : RxState} : s.BeforeCallback → BodyStep s (.isr s.mem fun _ => none) s.isrAlone
  | write {s : RxState} (mem : Mem) (avail : VringAvail) (desc : Nat → VringDesc) :
      BodyStep s (.write mem avail desc) (s.write mem avail desc)

def Takes (d : VringDesc) : RxState → Prop :=
  Reachable BodyStep fun s => ∃ s₀ : RxState, s₀.Fetches d ∧ s = s₀.isrAlone

/-- The loop holds the buffer of `d`. -/
def HasBuffer (d : VringDesc) (s : RxState) : Prop :=
  match s.pc with
  | .tag hdr _ | .lookup hdr | .deliver hdr _ => hdr = d.addr.toNat
  | _ => False

theorem Fetches.pc_isrAlone {d : VringDesc} {s : RxState} (h : s.Fetches d) :
    s.isrAlone.pc = .tag d.addr.toNat s.vq.nextIdx := by
  have hget := virtqueueGetAvailableBuffer_eq h.shmIo h.available h.desc h.region
  rw [isrAlone, isrStep, h.pc]
  simp only [rpmsgVirtioGetRxBuffer, hget, h.region.toNat_setWidth]

theorem Fetches.hasBuffer {d : VringDesc} {s : RxState} (h : s.Fetches d) : s.isrAlone.HasBuffer d := by
  rw [HasBuffer, h.pc_isrAlone]

/-- The loop's body reaches the callback. -/
theorem Fetches.takes {d : VringDesc} {s : RxState} (h : s.Fetches d) :
    s.isrAlone.isrAlone.isrAlone.Takes d := by
  have htag : s.isrAlone.BeforeCallback := by rw [BeforeCallback, h.pc_isrAlone]; trivial
  have hpc : s.isrAlone.isrAlone.pc = .lookup d.addr.toNat := by
    rw [isrAlone, isrStep, h.pc_isrAlone]
  have hlookup : s.isrAlone.isrAlone.BeforeCallback := by rw [BeforeCallback, hpc]; trivial
  exact ((Reachable.init ⟨s, h, rfl⟩).step (.isr htag)).step (.isr hlookup)

theorem HasBuffer.step {d : VringDesc} {s t : RxState} {act : RxAct} (h : s.HasBuffer d)
    (hst : BodyStep s act t) : t.HasBuffer d := by
  cases hst with
  | isr hbefore =>
    unfold HasBuffer at h
    unfold BeforeCallback at hbefore
    split at hbefore
    case h_1 hdr idx hpc =>
      rw [hpc] at h
      simpa only [isrAlone, isrStep, hpc, HasBuffer] using h
    case h_2 hdr hpc =>
      rw [hpc] at h
      simpa only [isrAlone, isrStep, hpc, HasBuffer, lookup] using h
    case h_3 => exact hbefore.elim
  | write mem avail desc => exact h

theorem Takes.hasBuffer {d : VringDesc} {s : RxState} (h : s.Takes d) : s.HasBuffer d := by
  refine h.invariant ?_ fun _ _ _ hs hst => hs.step hst
  rintro _ ⟨s₀, h₀, rfl⟩
  exact h₀.hasBuffer

/-- The call of the endpoint's callback. -/
theorem Takes.call {d : VringDesc} {s : RxState} {hdr e : Nat} (h : s.Takes d)
    (hpc : s.pc = .deliver hdr (some e)) (mem : Mem) (dest : Nat → Option (BitVec 32)) :
    (s.isrStep mem dest).calls = s.calls ++
      [⟨e, d.addr.toNat + rpmsgHdrSize, hdrLen s.mem d.addr.toNat, hdrSrc s.mem d.addr.toNat⟩] := by
  have hbuf := h.hasBuffer
  rw [HasBuffer, hpc] at hbuf
  obtain rfl : hdr = d.addr.toNat := hbuf
  rw [isrStep, hpc]
  rfl

end RxState

/-- For every descriptor and every header that the host wrote, when the callback of an endpoint is called:
`virt_uart_read_cb` shows its UART a pointer and a size, and the bytes that they describe are in the buffer of
the descriptor if and only if the length in the header is at most what the descriptor leaves behind the
header. -/
theorem rxPair_inBuffer_iff {d : VringDesc} {s : RxState} {hdr e : Nat} (h : s.Takes d)
    (hpc : s.pc = .deliver hdr (some e)) (mem : Mem) (dest : Nat → Option (BitVec 32)) (vuart : VirtUart)
    (buf : Nat → Byte) (log : TraceLog) :
    ∃ (c : EptCall) (v : VirtUart), (s.isrStep mem dest).calls = s.calls ++ [c] ∧ c.ept = e ∧
      v = vuart.received c.data c.len ∧
      virtUartReadCb vuart c.data c.len.toNat s.mem buf log = v.shown s.mem buf log ∧
      (v.InBuffer d ↔ rpmsgHdrSize + (hdrLen s.mem d.addr.toNat).toNat ≤ d.len.toNat) := by
  refine ⟨_, _, h.call hpc mem dest, rfl, rfl, vuart.readCb_received .., ?_⟩
  simp only [VirtUart.InBuffer, VirtUart.received]
  omega

namespace RxState

/-- A message for 0x400 in a buffer of 512 bytes, with `len` in its header. -/
def bootMessage (len : BitVec 16) : Posted :=
  ⟨3#16, ⟨0x43d80000#64, 512#32⟩, store16 (store32 (fun _ => 0#8) 0x43d80004 0x400) 0x43d8000c len.toNat⟩

def bootFetch (len : BitVec 16) : RxState := { boot.post (bootMessage len) with pc := .fetch }

theorem bootFetch_fetches (len : BitVec 16) : (bootFetch len).Fetches (bootMessage len).desc := by
  have hnext : (bootFetch len).vq.nextIdx = 3#16 := Function.update_self ..
  exact ⟨rfl, rfl, show 0#16 ≠ 1#16 by decide, by rw [hnext]; exact show 3#16 < 16#16 by decide,
      by rw [hnext]; rfl,
      show 0x43d80000 ≤ 0x43d80000 by decide, show 0x43d80000 < 0x43dc0000 by decide,
      show 0x43d80000 + 512 ≤ 0x43dc0000 by decide⟩

/-- The callback of the endpoint is next. -/
def bootDeliver (len : BitVec 16) : RxState := (bootFetch len).isrAlone.isrAlone.isrAlone

theorem bootDeliver_takes (len : BitVec 16) : (bootDeliver len).Takes (bootMessage len).desc :=
  (bootFetch_fetches len).takes

end RxState

open RxState in
/-- A message that fills the buffer. -/
theorem rxPair_inBuffer_full :
    ∃ (c : EptCall) (v : VirtUart), (bootDeliver 496#16).Takes (bootMessage 496#16).desc ∧
      ((bootDeliver 496#16).isrStep (bootDeliver 496#16).mem fun _ => none).calls = [c] ∧
      virtUartReadCb vuart0 c.data c.len.toNat (bootDeliver 496#16).mem (fun _ => 0#8) bootLog =
        v.shown (bootDeliver 496#16).mem (fun _ => 0#8) bootLog ∧
      v.rxBuf = 0x43d80010 ∧ v.rxSize = 496#16 ∧ v.InBuffer (bootMessage 496#16).desc := by
  have hpc : (bootDeliver 496#16).pc = .deliver 0x43d80000 (some 0) := by decide
  have htakes := bootDeliver_takes 496#16
  obtain ⟨c, v, hcalls, -, rfl, hread, hiff⟩ := rxPair_inBuffer_iff htakes hpc (bootDeliver 496#16).mem
    (fun _ => none) vuart0 (fun _ => 0#8) bootLog
  have hcall := htakes.call hpc (bootDeliver 496#16).mem fun _ => none
  obtain rfl : _ = c := by simpa using hcall.symm.trans hcalls
  exact ⟨_, _, htakes, hcall, hread, rfl, by decide, hiff.mpr (by decide)⟩

open RxState in
/-- The length in the header is not compared with the descriptor. -/
theorem rxPair_outside :
    ∃ (c : EptCall) (v : VirtUart) (e : Option Echo),
      (bootDeliver 0xffff#16).Takes (bootMessage 0xffff#16).desc ∧
      ((bootDeliver 0xffff#16).isrStep (bootDeliver 0xffff#16).mem fun _ => none).calls = [c] ∧
      (virtUartReadCb vuart0 c.data c.len.toNat (bootDeliver 0xffff#16).mem (fun _ => 0#8) bootLog).Returns
        (0, v, e) ∧
      ¬ v.InBuffer (bootMessage 0xffff#16).desc := by
  have hpc : (bootDeliver 0xffff#16).pc = .deliver 0x43d80000 (some 0) := by decide
  have htakes := bootDeliver_takes 0xffff#16
  have hempty : IsCString (fun i => (bootDeliver 0xffff#16).mem (0x43d80010 + i)) [] :=
    ⟨nofun, by decide, List.not_mem_nil⟩
  obtain ⟨v, e, hret, -⟩ :=
    virtUartReadCb_returns echoes_vuart0 0xffff hempty (by decide) (fun _ => 0#8) bootLog
  have hv : v = vuart0.received 0x43d80010 0xffff#16 :=
    VirtUart.eq_of_shown ((vuart0.readCb_received 0x43d80010 0xffff#16 _ _ _).symm ▸ hret)
  refine ⟨_, v, _, htakes, htakes.call hpc (bootDeliver 0xffff#16).mem fun _ => none, hret, fun hin => ?_⟩
  rw [hv] at hin
  exact absurd hin.2 (by decide)

end V85x
