import V85xAmp.OpenAmp.InitSafety

/-!
# What `sunxi_openamp_init` returns

An `InitCall` is a call of `sunxi_openamp_init` with the two statuses that its steps set: the one that
`rpmsg_init_vdev` returns and the one that `sunxi_openamp_init` itself returns. Every other step's error
goes from the one into the other; `rpmsg_init_vdev` is called without a look at its result.

`reports_iff_along`: a call that returns reports its failures if and only if nothing fails within
`rpmsg_init_vdev`, where the wait for the host meets no request for a reset and both virtqueues are
allocated. It holds from every memory, so of a second call too.
-/

namespace V85x

open Firmware InitOp

/-! ## The call -/

/-- `ENXIO` -/
def enxio : Int := 6

/-- `RPROC_EINVAL` -/
def rprocEinval : Int := 2

/-- `VQ_ERROR_BASE` -/
def vqErrorBase : Int := -3000

/-- `ERROR_NO_MEM` -/
def errorNoMem : Int := vqErrorBase - 4

/-- `ERROR_VQUEUE_INVLD_PARAM` -/
def errorVqueueInvldParam : Int := vqErrorBase - 8

/-- What the steps of `_shmem_init` give: two statuses, and three pointers that are not NULL. -/
structure ShmemSteps where
  registerGenericDevice : Int
  deviceOpen : Int
  shmIo : Bool
  rscTable : Bool
  rscIo : Bool

namespace ShmemSteps

/-- `_shmem_init` -/
def shmemInit (shm : ShmemSteps) : Int :=
  if shm.registerGenericDevice ≠ 0 then shm.registerGenericDevice
  else if shm.deviceOpen ≠ 0 then shm.deviceOpen
  else if !shm.shmIo then -1
  else if !shm.rscTable then -1
  else if !shm.rscIo then -1
  else 0

/-- All of them succeed. -/
def Succeed (shm : ShmemSteps) : Prop :=
  shm.registerGenericDevice = 0 ∧ shm.deviceOpen = 0 ∧ shm.shmIo ∧ shm.rscTable ∧ shm.rscIo

theorem shmemInit_eq_zero_iff (shm : ShmemSteps) : shm.shmemInit = 0 ↔ shm.Succeed := by
  unfold shmemInit Succeed
  by_cases hreg : shm.registerGenericDevice = 0
  swap
  · simp [hreg]
  by_cases hopen : shm.deviceOpen = 0
  swap
  · simp [hreg, hopen]
  cases hio : shm.shmIo <;> cases htab : shm.rscTable <;> cases hrsc : shm.rscIo <;>
    simp [hreg, hopen]

end ShmemSteps

/-- The environment of a call whose `_shmem_init` has these steps. -/
def InitEnv.withShmem (env : InitEnv) (shm : ShmemSteps) : InitEnv :=
  { env with shmemStatus := shm.shmemInit }

/-- What the step with this operation returns when the operation fails. `rproc_virtio_create_vdev` returns
NULL, for which `sunxi_openamp_init` has its own status. -/
def InitOp.errorStatus (env : InitEnv) : InitOp → Int
  | shmemInit => env.shmemStatus
  | createVdev => -1
  | initVring _ => -rprocEinval
  | waitSynchro => -enxio
  | checkVringsNum => errorVqueueInvldParam
  | checkVq _ => errorVqueueInvldParam
  | allocVq _ => errorNoMem
  | _ => 0

/-- A call, with what `rpmsg_init_vdev` and the call itself return, 0 as long as nothing has failed. -/
structure InitCall where
  state : InitState
  vdevStatus : Int
  status : Int

/-- The call from the return of `hal_msgbox_alloc_channel` on. -/
def InitCall.start (m : InitMem) : InitCall := ⟨⟨[], initProgram, m⟩, 0, 0⟩

/-- One operation of the call. -/
def initCallStep (env : InitEnv) (status : BitVec 8) (c : InitCall) : InitCall :=
  let state := initStep env status c.state
  match c.state.rest with
  | [] => c
  | op :: _ =>
    match op.outcome env c.state.mem status with
    | .error _ =>
      -- the result of `rpmsg_init_vdev` is dropped
      if op ∈ rpmsgInitVdev then ⟨state, op.errorStatus env, c.status⟩
      else ⟨state, c.vdevStatus, op.errorStatus env⟩
    | _ => ⟨state, c.vdevStatus, c.status⟩

/-- The steps of a call. The action is the status byte of the host, where the operation reads it. -/
def InitCallStep (env : InitEnv) (c : InitCall) (status : BitVec 8) (t : InitCall) : Prop :=
  initCallStep env status c = t

namespace InitMem

/-- What `metal_list_add_tail(&rdev->endpoints, &ept->node)` dereferences for `virt_uart_init`: the node
that is last. -/
def addTail (m : InitMem) : Except InitFault Unit :=
  match m.endpoints.prev with
  | none => .error .nullLink
  | some _ => .ok ()

/-- The device as `rpmsg_init_vdev` leaves it. -/
structure Ready (m : InitMem) : Prop where
  rvq : m.rvq ≠ none
  svq : m.svq ≠ none
  next : m.walkEndpoints 2 .endpoints = .ok ()
  prev : m.endpoints.prev ≠ none

end InitMem

/-- A return of 0 means that `_shmem_init` and `rpmsg_init_vdev` have succeeded, and that endpoints can be
linked. -/
def InitCall.Reports (shm : ShmemSteps) (c : InitCall) : Prop :=
  c.status = 0 →
    shm.Succeed ∧ c.vdevStatus = 0 ∧ c.state.mem.Ready ∧ c.state.mem.addTail = .ok ()

/-- The operation does not fail within `rpmsg_init_vdev`: the status byte asks for no reset, and the
virtqueue is allocated. -/
def InitOp.GoesOn (env : InitEnv) (status : BitVec 8) : InitOp → Bool
  | waitSynchro => status &&& virtioConfigStatusNeedsReset = 0#8
  | allocVq i => env.allocatesVq i
  | _ => true

/-- The next operation does not. -/
def VdevGoesOn (env : InitEnv) (c : InitCall) (status : BitVec 8) : Prop :=
  ∀ op ∈ c.state.rest.head?, op.GoesOn env status

instance (env : InitEnv) (c : InitCall) (status : BitVec 8) : Decidable (VdevGoesOn env c status) :=
  inferInstanceAs (Decidable (∀ op ∈ c.state.rest.head?, _))

/-! ## Any memory before the call -/

/-- Memories that agree in what the operations `done` have stored. -/
structure Agrees (done : List InitOp) (m m' : InitMem) : Prop where
  device : createVdev ∈ done → m.vringsNum = m'.vringsNum ∧ m.vq = m'.vq
  rdev : memsetRdev ∈ done →
    m.supportNs = m'.supportNs ∧ m.endpoints = m'.endpoints ∧ m.nsEpt = m'.nsEpt
  rvq : storeRvq ∈ done → m.rvq = m'.rvq
  svq : storeSvq ∈ done → m.svq = m'.svq

variable {env : InitEnv} {done rest : List InitOp} {op : InitOp} {m m' : InitMem}

/-- The stores of `metal_list_add_tail` change the links only. -/
theorem linkNs_frame (m : InitMem) (k : Nat) :
    (m.linkNs k).vringsNum = m.vringsNum ∧ (m.linkNs k).vq = m.vq ∧
      (m.linkNs k).supportNs = m.supportNs ∧ (m.linkNs k).rvq = m.rvq ∧ (m.linkNs k).svq = m.svq := by
  have hnext : ∀ p node, (m.setNext p node).vringsNum = m.vringsNum ∧ (m.setNext p node).vq = m.vq ∧
      (m.setNext p node).supportNs = m.supportNs ∧ (m.setNext p node).rvq = m.rvq ∧
      (m.setNext p node).svq = m.svq := by
    intro p node
    cases p <;> exact ⟨rfl, rfl, rfl, rfl, rfl⟩
  have hprev : ∀ p node, (m.setPrev p node).vringsNum = m.vringsNum ∧ (m.setPrev p node).vq = m.vq ∧
      (m.setPrev p node).supportNs = m.supportNs ∧ (m.setPrev p node).rvq = m.rvq ∧
      (m.setPrev p node).svq = m.svq := by
    intro p node
    cases p <;> exact ⟨rfl, rfl, rfl, rfl, rfl⟩
  rcases k with _ | _ | _ | k
  · apply hprev
  · apply hnext
  · apply hprev
  · apply hnext

/-- They depend on the links only. -/
theorem linkNs_lists (k : Nat) (he : m.endpoints = m'.endpoints) (hns : m.nsEpt = m'.nsEpt) :
    (m.linkNs k).endpoints = (m'.linkNs k).endpoints ∧ (m.linkNs k).nsEpt = (m'.linkNs k).nsEpt := by
  have hnext : ∀ p node, (m.setNext p node).endpoints = (m'.setNext p node).endpoints ∧
      (m.setNext p node).nsEpt = (m'.setNext p node).nsEpt := by
    intro p node
    cases p <;> simp [InitMem.setNext, he, hns]
  have hprev : ∀ p node, (m.setPrev p node).endpoints = (m'.setPrev p node).endpoints ∧
      (m.setPrev p node).nsEpt = (m'.setPrev p node).nsEpt := by
    intro p node
    cases p <;> simp [InitMem.setPrev, he, hns]
  rcases k with _ | _ | _ | k
  · simp only [InitMem.linkNs, he]
    apply hprev
  · apply hnext
  · simp only [InitMem.linkNs, hns]
    apply hprev
  · simp only [InitMem.linkNs, hns]
    apply hnext

/-- An operation that none of the parts waits for. -/
theorem Agrees.snoc (h : Agrees done m m') (hop : op ∉ [createVdev, memsetRdev, storeRvq, storeSvq]) :
    Agrees (done ++ [op]) m m' := by
  have hmem : ∀ a ∈ [createVdev, memsetRdev, storeRvq, storeSvq], a ∈ done ++ [op] → a ∈ done := by
    intro a hlist ha
    rcases List.mem_append.mp ha with ha | ha
    · exact ha
    · exact absurd (List.mem_singleton.mp ha ▸ hlist) hop
  exact ⟨fun ha => h.device (hmem _ (by simp) ha), fun ha => h.rdev (hmem _ (by simp) ha),
    fun ha => h.rvq (hmem _ (by simp) ha), fun ha => h.svq (hmem _ (by simp) ha)⟩

theorem Agrees.modifyVq (h : Agrees done m m') (i : Nat) (f : InitVq → InitVq) :
    Agrees done (m.modifyVq i f) (m'.modifyVq i f) := by
  refine ⟨fun ha => ⟨(h.device ha).1, ?_⟩, h.rdev, h.rvq, h.svq⟩
  simp only [InitMem.modifyVq, InitMem.setVq, (h.device ha).2]

theorem Agrees.linkNs (h : Agrees done m m') (k : Nat) :
    Agrees done (if m.supportNs then m.linkNs k else m) (if m'.supportNs then m'.linkNs k else m') := by
  have hframe : ∀ n : InitMem, let n' := if n.supportNs then n.linkNs k else n
      n'.vringsNum = n.vringsNum ∧ n'.vq = n.vq ∧ n'.rvq = n.rvq ∧ n'.svq = n.svq := by
    intro n
    obtain ⟨h1, h2, -, h4, h5⟩ := linkNs_frame n k
    split
    · exact ⟨h1, h2, h4, h5⟩
    · exact ⟨rfl, rfl, rfl, rfl⟩
  obtain ⟨hnum, hvq, hrvq, hsvq⟩ := hframe m
  obtain ⟨hnum', hvq', hrvq', hsvq'⟩ := hframe m'
  refine ⟨fun ha => ?_, fun ha => ?_, fun ha => ?_, fun ha => ?_⟩
  · rw [hnum, hvq, hnum', hvq']
    exact h.device ha
  · -- from here on both take the same branch
    obtain ⟨hsup, he, hns⟩ := h.rdev ha
    obtain ⟨hle, hlns⟩ := linkNs_lists k he hns
    have hkeep := (linkNs_frame m k).2.2.1.trans (hsup.trans (linkNs_frame m' k).2.2.1.symm)
    rw [← hsup]
    split
    · exact ⟨hkeep, hle, hlns⟩
    · exact ⟨hsup, he, hns⟩
  · rw [hrvq, hrvq']
    exact h.rvq ha
  · rw [hsvq, hsvq']
    exact h.svq ha

theorem Agrees.exec (h : Agrees done m m') (hpath : OnPath done (op :: rest)) :
    Agrees (done ++ [op]) (op.exec env m) (op.exec env m') := by
  have hfollows := hpath.follows
  have hcreate : ∀ i, allocVq i ∈ done → i = 0 ∨ i = 1 → createVdev ∈ done := by
    rintro i hmem (rfl | rfl) <;> exact hpath.mem_of_precedes (by decide) hmem
  cases op with
  | createVdev =>
    exact ⟨fun _ => ⟨rfl, rfl⟩, fun ha => h.rdev (by simpa using ha), fun ha => h.rvq (by simpa using ha),
      fun ha => h.svq (by simpa using ha)⟩
  | memsetRdev =>
    exact ⟨fun ha => h.device (by simpa using ha), fun _ => ⟨rfl, rfl, rfl⟩,
      fun ha => h.rvq (by simpa using ha), fun ha => h.svq (by simpa using ha)⟩
  | storeRvq =>
    have hvq := (h.device (hcreate 1 (by simpa [Follows] using hfollows) (.inr rfl))).2
    exact ⟨fun ha => h.device (by simpa using ha), fun ha => h.rdev (by simpa using ha),
      fun _ => congrArg (fun vq => (vq 1).map fun _ => 1) hvq, fun ha => h.svq (by simpa using ha)⟩
  | storeSvq =>
    have hvq := (h.device (hcreate 0 (by simpa [Follows] using hfollows) (.inl rfl))).2
    exact ⟨fun ha => h.device (by simpa using ha), fun ha => h.rdev (by simpa using ha),
      fun ha => h.rvq (by simpa using ha), fun _ => congrArg (fun vq => (vq 0).map fun _ => 0) hvq⟩
  | allocVq i =>
    refine Agrees.snoc ⟨fun ha => ⟨(h.device ha).1, ?_⟩, h.rdev, h.rvq, h.svq⟩ (by simp)
    simp only [InitOp.exec, InitMem.setVq, (h.device ha).2]
  | vqDev i | vqCallback i | storeShmIo i | freeVq i =>
    exact (h.modifyVq i _).snoc (by simp)
  | getFeatures =>
    exact Agrees.snoc ⟨h.device, fun ha => ⟨rfl, (h.rdev ha).2⟩, h.rvq, h.svq⟩ (by simp)
  | endpointsPrev =>
    refine Agrees.snoc ⟨h.device, fun ha => ?_, h.rvq, h.svq⟩ (by simp)
    obtain ⟨hsup, he, hns⟩ := h.rdev ha
    exact ⟨hsup, congrArg (fun links => { links with prev := some .endpoints }) he, hns⟩
  | endpointsNext =>
    refine Agrees.snoc ⟨h.device, fun ha => ?_, h.rvq, h.svq⟩ (by simp)
    obtain ⟨hsup, he, hns⟩ := h.rdev ha
    exact ⟨hsup, congrArg (fun links => { links with next := some .endpoints }) he, hns⟩
  | linkNsEpt k => exact (h.linkNs k).snoc (by simp)
  | _ => exact Agrees.snoc ⟨h.device, h.rdev, h.rvq, h.svq⟩ (by simp)

/-! ## What a failure leaves -/

/-- The operations of `rpmsg_init_vdev` that can fail. -/
def InitOp.FailsInVdev : InitOp → Bool
  | waitSynchro | checkVringsNum | checkVq _ | allocVq _ => true
  | _ => false

theorem failsInVdev_of_error {status : BitVec 8} {path : List InitOp} (hop : op ∈ rpmsgInitVdev)
    (h : op.outcome env m status = .error path) : op.FailsInVdev := by
  cases op with
  | waitSynchro | checkVringsNum | checkVq | allocVq => rfl
  | shmemInit | createVdev | waitRemoteReady | initVring =>
    simp [rpmsgInitVdev, createVirtqueue] at hop
  | _ => cases h

/-- They come between the clearing of `rdev` and the initialisation of its endpoint list. -/
theorem between_of_failsInVdev : ∀ op ∈ initProgram, op.FailsInVdev →
    memsetRdev ∈ initProgram.takeWhile (· ≠ op) ∧ endpointsPrev ∉ initProgram.takeWhile (· ≠ op) := by
  decide

theorem errorStatus_ne_zero {status : BitVec 8} {path : List InitOp}
    (h : op.outcome env m status = .error path) : op.errorStatus env ≠ 0 := by
  cases op with
  | shmemInit =>
    intro hzero
    simp only [InitOp.outcome, InitOp.errorStatus] at h hzero
    rw [if_pos hzero] at h
    cases h
  | createVdev | initVring | waitSynchro | checkVringsNum | checkVq | allocVq =>
    simp only [InitOp.errorStatus]
    decide
  | waitRemoteReady =>
    simp only [InitOp.outcome] at h
    split at h <;> cases h
  | _ => cases h

/-- The other operations that can fail free nothing. -/
theorem path_eq_nil {status : BitVec 8} {path : List InitOp} (hmem : op ∈ initProgram)
    (hop : op ∉ rpmsgInitVdev) (h : op.outcome env m status = .error path) : path = [] := by
  have hbefore : op ∈ [shmemInit, createVdev, waitRemoteReady, initVring 0, initVring 1, initShmPool] :=
    (List.mem_append.mp hmem).resolve_right hop
  simp only [List.mem_cons, List.not_mem_nil, or_false] at hbefore
  rcases hbefore with rfl | rfl | rfl | rfl | rfl | rfl <;> simp only [InitOp.outcome] at h
  case inr.inr.inr.inr.inr => cases h
  all_goals split at h <;> cases h <;> rfl

/-- The invariant of a call. -/
structure InitCall.Inv (env : InitEnv) (c : InitCall) : Prop where
  agrees : Agrees c.state.done c.state.mem (memoryAt env c.state.done)
  path : OnPath c.state.done c.state.rest
  shmem : shmemInit ∈ c.state.done → env.shmemStatus = 0
  vrings : initVring 1 ∈ c.state.done → 1 < env.numOfVrings.toNat
  -- nothing has failed
  running : c.vdevStatus = 0 → c.status = 0 → c.state.done ++ c.state.rest = initProgram
  -- something outside `rpmsg_init_vdev` has failed
  left : c.status ≠ 0 → c.state.rest = [] ∧ c.vdevStatus = 0
  -- something in `rpmsg_init_vdev` has failed
  failed : c.vdevStatus ≠ 0 → (∀ op ∈ c.state.rest, op ∈ deleteVirtqueues) ∧
    memsetRdev ∈ c.state.done ∧ endpointsPrev ∉ c.state.done

theorem InitCall.inv_start (m : InitMem) : (start m).Inv env where
  agrees := by constructor <;> intro h <;> cases h
  path := .program rfl
  shmem h := by cases h
  vrings h := by cases h
  running _ _ := rfl
  left h := absurd rfl h
  failed h := absurd rfl h

/-- What a step of a call does. -/
theorem initCallStep_cases (env : InitEnv) (status : BitVec 8) (c : InitCall) :
    initCallStep env status c = c ∨
      ∃ op rest, c.state.rest = op :: rest ∧
        ((op.outcome env c.state.mem status = .next ∧
            initCallStep env status c =
              { c with state := ⟨c.state.done ++ [op], rest, op.exec env c.state.mem⟩ }) ∨
          ∃ path, op.outcome env c.state.mem status = .error path ∧
            ((op ∈ rpmsgInitVdev ∧
                initCallStep env status c =
                  ⟨{ c.state with rest := path }, op.errorStatus env, c.status⟩) ∨
              (op ∉ rpmsgInitVdev ∧
                initCallStep env status c =
                  ⟨{ c.state with rest := path }, c.vdevStatus, op.errorStatus env⟩))) := by
  obtain ⟨⟨done, rest, mem⟩, vdevStatus, callStatus⟩ := c
  cases rest with
  | nil => exact .inl rfl
  | cons op rest =>
    cases hout : op.outcome env mem status with
    | again => exact .inl (by simp [initCallStep, initStep, hout])
    | next => exact .inr ⟨op, rest, rfl, .inl ⟨hout, by simp [initCallStep, initStep, hout]⟩⟩
    | error path =>
      refine .inr ⟨op, rest, rfl, .inr ⟨path, hout, ?_⟩⟩
      by_cases hop : op ∈ rpmsgInitVdev
      · exact .inl ⟨hop, by simp [initCallStep, initStep, hout, hop]⟩
      · exact .inr ⟨hop, by simp [initCallStep, initStep, hout, hop]⟩

variable {c t : InitCall} {status : BitVec 8}

/-- An operation that fails is one of the program, and nothing has failed before it. -/
theorem InitCall.Inv.running_of_error (hc : c.Inv env) (hrest : c.state.rest = op :: rest)
    {path : List InitOp} (hout : op.outcome env c.state.mem status = .error path) :
    c.vdevStatus = 0 ∧ c.status = 0 ∧ c.state.done ++ op :: rest = initProgram := by
  have hvdev : c.vdevStatus = 0 := by
    by_contra hne
    exact (outcome_error hout).2 ((hc.failed hne).1 op (by simp [hrest]))
  have hstatus : c.status = 0 := by
    by_contra hne
    simp [(hc.left hne).1] at hrest
  exact ⟨hvdev, hstatus, hrest ▸ hc.running hvdev hstatus⟩

theorem InitCall.inv_step (hc : c.Inv env) (hst : InitCallStep env c status t) : t.Inv env := by
  subst hst
  obtain ⟨hagrees, hpath, hshmem, hvrings, hrunning, hleft, hfailed⟩ := id hc
  rcases initCallStep_cases env status c with
    heq | ⟨op, rest, hrest, ⟨hout, heq⟩ | ⟨path, hout, ⟨hop, heq⟩ | ⟨hop, heq⟩⟩⟩ <;> rw [heq]
  · exact hc
  · rw [hrest] at hpath
    have hexec : memoryAt env (c.state.done ++ [op]) = op.exec env (memoryAt env c.state.done) :=
      (exec_memoryAt hpath.follows).symm
    refine ⟨?_, hpath.next, fun hmem => ?_, fun hmem => ?_, fun hv hs => ?_, fun hs => ?_, fun hv => ?_⟩
    · exact hexec ▸ hagrees.exec hpath
    · rcases List.mem_append.mp hmem with hmem | hmem
      · exact hshmem hmem
      · obtain rfl := List.mem_singleton.mp hmem
        by_contra hne
        simp [InitOp.outcome, hne] at hout
    · rcases List.mem_append.mp hmem with hmem | hmem
      · exact hvrings hmem
      · obtain rfl := List.mem_singleton.mp hmem
        have hcreate : createVdev ∈ c.state.done := by
          have := hpath.next.mem_of_precedes (a := createVdev) (b := initVring 1) (by decide) (by simp)
          simpa using this
        have hlt := outcome_initVring hout
        rw [(hagrees.device hcreate).1] at hlt
        simpa [memoryAt, hcreate] using hlt
    · simpa [hrest] using hrunning hv hs
    · simp [(hleft hs).1] at hrest
    · obtain ⟨hdel, hmemset, hprev⟩ := hfailed hv
      rw [hrest] at hdel
      refine ⟨fun o ho => hdel o (List.mem_cons_of_mem _ ho), List.mem_append_left _ hmemset, ?_⟩
      have hop := hdel op List.mem_cons_self
      rw [List.mem_append, not_or]
      refine ⟨hprev, fun h => ?_⟩
      obtain rfl := List.mem_singleton.mp h
      exact absurd hop (by decide)
  · obtain ⟨hv, hs, hprog⟩ := hc.running_of_error hrest hout
    rw [hrest] at hpath
    obtain ⟨hp, hdel⟩ := outcome_error hout
    have hne := errorStatus_ne_zero hout
    have hbetween := between_of_failsInVdev op (by simp [← hprog]) (failsInVdev_of_error hop hout)
    rw [takeWhile_initProgram hprog] at hbetween
    refine ⟨hagrees, hpath.leave hdel hp, hshmem, hvrings, fun hv' => absurd hv' hne,
      fun hs' => absurd hs hs', fun _ => ⟨?_, hbetween⟩⟩
    rcases hp with rfl | rfl <;> simp
  · obtain ⟨hv, hs, hprog⟩ := hc.running_of_error hrest hout
    rw [hrest] at hpath
    obtain ⟨hp, hdel⟩ := outcome_error hout
    refine ⟨hagrees, hpath.leave hdel hp, hshmem, hvrings, fun _ hs' => absurd hs' (errorStatus_ne_zero hout),
      fun _ => ⟨path_eq_nil (by simp [← hprog]) hop hout, hv⟩, fun hv' => absurd hv hv'⟩

/-- The operation that comes next fails within `rpmsg_init_vdev` only where `VdevGoesOn` says so. -/
theorem InitCall.Inv.error_iff (hc : c.Inv env) (hrest : c.state.rest = op :: rest)
    (hprog : c.state.done ++ op :: rest = initProgram) :
    (∃ path, op.outcome env c.state.mem status = .error path ∧ op ∈ rpmsgInitVdev) ↔
      ¬ VdevGoesOn env c status := by
  have hpath := hc.path
  rw [hrest] at hpath
  have hbefore := takeWhile_initProgram hprog
  have hop : op ∈ initProgram := by simp [← hprog]
  have hon : VdevGoesOn env c status ↔ op.GoesOn env status := by simp [VdevGoesOn, hrest]
  rw [hon]
  cases op with
  | waitSynchro =>
    have hmem : waitSynchro ∈ rpmsgInitVdev := by decide
    by_cases hreset : status &&& virtioConfigStatusNeedsReset = 0#8
    · by_cases hok : status &&& virtioConfigStatusDriverOk = 0#8 <;>
        simp [InitOp.outcome, InitOp.GoesOn, hreset, hok]
    · simp [InitOp.outcome, InitOp.GoesOn, hreset, hmem]
  | allocVq i =>
    have hmem : allocVq i ∈ rpmsgInitVdev := by
      simpa [initProgram, rpmsgInitVdev, createVirtqueue] using hop
    by_cases halloc : env.allocatesVq i = true <;>
      simp [InitOp.outcome, InitOp.GoesOn, halloc, hmem]
  | checkVringsNum =>
    -- the second vring has been initialised, so there are two
    have hcreate : createVdev ∈ c.state.done := by rw [← hbefore]; decide
    have hvring : initVring 1 ∈ c.state.done := by rw [← hbefore]; decide
    have hnum := hc.vrings hvring
    have heq : c.state.mem.vringsNum = env.numOfVrings.toNat := by
      rw [(hc.agrees.device hcreate).1]
      simp [memoryAt, hcreate]
    have hge : ¬ c.state.mem.vringsNum < rpmsgNumVrings := by
      rw [heq, rpmsgNumVrings]
      omega
    simp [InitOp.outcome, InitOp.GoesOn, hge]
  | checkVq i =>
    -- the virtqueue of a new device is NULL
    have hi : i = 0 ∨ i = 1 := by simpa [initProgram, rpmsgInitVdev, createVirtqueue] using hop
    have hnone : c.state.mem.vq i = none := by
      have hmem : createVdev ∈ c.state.done ∧ allocVq i ∉ c.state.done := by
        rw [← hbefore]
        rcases hi with rfl | rfl <;> decide
      rw [(hc.agrees.device hmem.1).2]
      simp [memoryAt, hmem.2]
    simp [InitOp.outcome, InitOp.GoesOn, hnone]
  | shmemInit | createVdev | waitRemoteReady | initVring =>
    simp [rpmsgInitVdev, createVirtqueue, InitOp.GoesOn]
  | _ => simp [InitOp.outcome, InitOp.GoesOn]

/-- One step fails within `rpmsg_init_vdev` if and only if its operation does not go on. -/
theorem vdevStatus_step (hc : c.Inv env) (hgood : c.vdevStatus = 0) (hst : InitCallStep env c status t) :
    t.vdevStatus = 0 ↔ VdevGoesOn env c status := by
  subst hst
  by_cases hon : VdevGoesOn env c status
  · refine iff_of_true ?_ hon
    rcases initCallStep_cases env status c with
      heq | ⟨op, rest, hrest, ⟨hout, heq⟩ | ⟨path, hout, ⟨hop, heq⟩ | ⟨hop, heq⟩⟩⟩
    · rw [heq, hgood]
    · rw [heq, hgood]
    · obtain ⟨-, -, hprog⟩ := hc.running_of_error hrest hout
      exact absurd hon ((hc.error_iff hrest hprog).mp ⟨path, hout, hop⟩)
    · rw [heq, hgood]
  · refine iff_of_false (fun hzero => ?_) hon
    cases hrest : c.state.rest with
    | nil => exact hon (by simp [VdevGoesOn, hrest])
    | cons op rest =>
      have hstatus : c.status = 0 := by
        by_contra hne
        simp [(hc.left hne).1] at hrest
      have hprog := hrest ▸ hc.running hgood hstatus
      obtain ⟨path, hout, hop⟩ := (hc.error_iff hrest hprog).mpr hon
      have hset : (initCallStep env status c).vdevStatus = op.errorStatus env := by
        simp [initCallStep, hrest, hout, hop]
      exact errorStatus_ne_zero hout (hset ▸ hzero)

/-- A failure of `rpmsg_init_vdev` stays. -/
theorem vdevStatus_lost (hc : c.Inv env) (hbad : c.vdevStatus ≠ 0) (hst : InitCallStep env c status t) :
    t.vdevStatus ≠ 0 := by
  subst hst
  rcases initCallStep_cases env status c with
    heq | ⟨op, rest, hrest, ⟨hout, heq⟩ | ⟨path, hout, hdrop⟩⟩
  · rwa [heq]
  · rwa [heq]
  · exact absurd (hc.running_of_error hrest hout).1 hbad

/-! ## What a return says -/

/-- After the whole program the device is ready. -/
theorem InitCall.Inv.ready (hc : c.Inv env) (hdone : c.state.done = initProgram) (hrest : c.state.rest = []) :
    c.state.mem.Ready ∧ c.state.mem.addTail = .ok () := by
  have hagrees := hc.agrees
  have hpath := hc.path
  rw [hdone] at hagrees
  rw [hdone, hrest] at hpath
  obtain ⟨-, he, hns⟩ := hagrees.rdev (by decide)
  have hfull : (memoryAt env initProgram).FullyInitialised 1 :=
    fullyInitialised_memoryAt hpath (by decide) (by decide)
  have hwalk : c.state.mem.walkEndpoints 2 .endpoints =
      (memoryAt env initProgram).walkEndpoints 2 .endpoints := by
    have hnode : c.state.mem.node = (memoryAt env initProgram).node := by
      funext p
      cases p
      · exact he
      · exact hns
    simp [InitMem.walkEndpoints, hnode]
  have hprev : c.state.mem.endpoints.prev ≠ none := he ▸ hfull.prev
  refine ⟨⟨?_, ?_, ?_, hprev⟩, ?_⟩
  · rw [hagrees.rvq (by decide)]
    exact hfull.rvq
  · rw [hagrees.svq (by decide)]
    exact hfull.svq
  · rw [hwalk]
    exact hfull.next
  · unfold InitMem.addTail
    cases h : c.state.mem.endpoints.prev with
    | none => exact absurd h hprev
    | some p => rfl

/-- After a failure within `rpmsg_init_vdev` the list is still filled with zeros, and the call returns 0. -/
theorem InitCall.Inv.notReady (hc : c.Inv env) (hbad : c.vdevStatus ≠ 0) :
    c.status = 0 ∧ ¬ c.state.mem.Ready ∧ c.state.mem.addTail = .error .nullLink := by
  obtain ⟨-, hmemset, hprev⟩ := hc.failed hbad
  have hstatus : c.status = 0 := by
    by_contra hne
    exact hbad (hc.left hne).2
  have hlink : linkNsEpt 2 ∉ c.state.done := fun h => hprev (hc.path.mem_of_precedes (by decide) h)
  have hnone : c.state.mem.endpoints.prev = none := by
    rw [(hc.agrees.rdev hmemset).2.1]
    simp [memoryAt, hprev, hlink]
  exact ⟨hstatus, fun h => h.prev hnone, by simp [InitMem.addTail, hnone]⟩

theorem InitCall.Inv.reports_iff {shm : ShmemSteps} (hc : c.Inv (env.withShmem shm))
    (hret : c.state.rest = []) : c.Reports shm ↔ c.vdevStatus = 0 := by
  constructor
  · intro h
    by_contra hbad
    exact hbad (h (hc.notReady hbad).1).2.1
  · intro hvdev hstatus
    have hdone : c.state.done = initProgram := by simpa [hret] using hc.running hvdev hstatus
    have hshm : shm.Succeed := shm.shmemInit_eq_zero_iff.mp (hc.shmem (by rw [hdone]; decide))
    exact ⟨hshm, hvdev, hc.ready hdone hret⟩

/-- A call that returns, from any memory and with any status bytes of the host, reports its failures if and
only if no operation fails within `rpmsg_init_vdev`. Otherwise it returns 0, and `virt_uart_init` links its
endpoint through a NULL pointer. -/
theorem reports_iff_along {env : InitEnv} {shm : ShmemSteps} {m : InitMem}
    {tr : List (BitVec 8 × InitCall)} (h : Run (InitCallStep (env.withShmem shm)) (.start m) tr)
    (hret : (endOf (.start m) tr).state.rest = []) :
    ((endOf (.start m) tr).Reports shm ↔ Along (VdevGoesOn (env.withShmem shm)) (.start m) tr) ∧
      (¬ Along (VdevGoesOn (env.withShmem shm)) (.start m) tr →
        (endOf (.start m) tr).status = 0 ∧
          (endOf (.start m) tr).state.mem.addTail = .error .nullLink) := by
  have hstep : ∀ c status t, InitCall.Inv (env.withShmem shm) c →
      InitCallStep (env.withShmem shm) c status t → InitCall.Inv (env.withShmem shm) t :=
    fun _ _ _ hc hst => InitCall.inv_step hc hst
  have hinv := h.endOf hstep (InitCall.inv_start m)
  have hiff := h.endOf_iff (InitCall.Inv _) (·.vdevStatus = 0) (VdevGoesOn _) hstep
    (fun _ _ _ hs hg hst => vdevStatus_step hs hg hst)
    (fun _ _ _ hs hb hst => vdevStatus_lost hs hb hst) (InitCall.inv_start m) rfl
  refine ⟨(hinv.reports_iff hret).trans hiff, fun hn => ?_⟩
  obtain ⟨hstatus, -, htail⟩ := hinv.notReady (mt hiff.mp hn)
  exact ⟨hstatus, htail⟩

/-- The run of a call under these status bytes. -/
def initTrace (env : InitEnv) (c : InitCall) (statuses : List (BitVec 8)) :
    Option (List (BitVec 8 × InitCall)) :=
  trace (fun c status => some (initCallStep env status c)) c statuses

theorem run_of_initTrace {statuses : List (BitVec 8)} {tr : List (BitVec 8 × InitCall)}
    (h : initTrace env c statuses = some tr) : Run (InitCallStep env) c tr := by
  have hrun := run_of_trace h
  simp only [Option.some.injEq] at hrun
  exact hrun

/-- The steps of `_shmem_init` with the device and the resource table of the firmware. -/
def shmDevice : ShmemSteps := ⟨0, 0, true, true, true⟩

/-- The call of `main` with the resource table of the firmware. -/
theorem reports_rscTable : ∃ tr, Run (InitCallStep (rscTableEnv.withShmem shmDevice)) (.start .zero) tr ∧
    tr.map (·.1) = List.replicate 44 virtioConfigStatusDriverOk ∧
    (endOf (.start .zero) tr).state.rest = [] ∧ (endOf (.start .zero) tr).Reports shmDevice := by
  have htrace : ∃ tr, initTrace (rscTableEnv.withShmem shmDevice) (.start .zero)
      (List.replicate 44 virtioConfigStatusDriverOk) = some tr ∧
      (endOf (.start .zero) tr).state.rest = [] ∧
      Along (VdevGoesOn (rscTableEnv.withShmem shmDevice)) (.start .zero) tr :=
    ⟨_, rfl, rfl, by decide⟩
  obtain ⟨tr, htr, hret, hon⟩ := htrace
  have hrun := run_of_initTrace htr
  exact ⟨tr, hrun, map_trace htr, hret, (reports_iff_along hrun hret).1.mpr hon⟩

/-- The host has set `DRIVER_OK` and asks for a reset: `rpmsg_init_vdev` fails, the call returns 0, and the
virtqueues and the endpoint list are NULL. -/
theorem reset_request_lost : ∃ tr,
    Run (InitCallStep (rscTableEnv.withShmem shmDevice)) (.start .zero) tr ∧
    tr.map (·.1) = List.replicate 14 (virtioConfigStatusDriverOk ||| virtioConfigStatusNeedsReset) ∧
    (endOf (.start .zero) tr).state.rest = [] ∧ (endOf (.start .zero) tr).status = 0 ∧
    (endOf (.start .zero) tr).vdevStatus = -enxio ∧
    (endOf (.start .zero) tr).state.mem.rvq = none ∧ (endOf (.start .zero) tr).state.mem.svq = none ∧
    (endOf (.start .zero) tr).state.mem.addTail = .error .nullLink ∧
    ¬ (endOf (.start .zero) tr).Reports shmDevice := by
  have htrace : ∃ tr, initTrace (rscTableEnv.withShmem shmDevice) (.start .zero)
      (List.replicate 14 (virtioConfigStatusDriverOk ||| virtioConfigStatusNeedsReset)) = some tr ∧
      (endOf (.start .zero) tr).state.rest = [] ∧ (endOf (.start .zero) tr).status = 0 ∧
      (endOf (.start .zero) tr).vdevStatus = -enxio ∧
      (endOf (.start .zero) tr).state.mem.rvq = none ∧
      (endOf (.start .zero) tr).state.mem.svq = none ∧
      (endOf (.start .zero) tr).state.mem.addTail = .error .nullLink :=
    ⟨_, rfl, rfl, rfl, rfl, rfl, rfl, rfl⟩
  obtain ⟨tr, htr, hret, hstatus, hvdev, hrvq, hsvq, htail⟩ := htrace
  have hrun := run_of_initTrace htr
  refine ⟨tr, hrun, map_trace htr, hret, hstatus, hvdev, hrvq, hsvq, htail, fun h => ?_⟩
  have hok := (h hstatus).2.2.2
  rw [htail] at hok
  cases hok

end V85x
