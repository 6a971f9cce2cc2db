import V85xAmp.OpenAmp.Init

/-!
# The points where the interrupt is safe

`memoryAt env done` is the memory after the operations `done`, field by field; `exec_memoryAt` is the step
from one point to the next. With it the question at a point is about `done` alone.
-/

namespace V85x

open Firmware InitOp

/-! ## The memory at a point -/

/-- The memory after the operations `done`. -/
def memoryAt (env : InitEnv) (done : List InitOp) : InitMem where
  vringsNum := if createVdev ∈ done then env.numOfVrings.toNat else 0
  notifyid := if createVdev ∈ done then vdevId else 0#32
  vringNotifyid i := if initVring i ∈ done then (env.vring i).notifyid else 0#32
  vq i :=
    if allocVq i ∈ done then
      some
        { vqDev := vqDev i ∈ done
          callback := if vqCallback i ∈ done then some (vqCallbackOf i) else none
          shmIo := storeShmIo i ∈ done
          freed := freeVq i ∈ done }
    else none
  priv := storePriv ∈ done
  vdev := storeVdev ∈ done
  supportNs := getFeatures ∈ done ∧ env.features.getLsbD virtioRpmsgFNs
  rvq := if storeRvq ∈ done then some 1 else none
  svq := if storeSvq ∈ done then some 0 else none
  endpoints :=
    { next :=
        if env.features.getLsbD virtioRpmsgFNs ∧ linkNsEpt 3 ∈ done then some .nsEpt
        else if endpointsNext ∈ done then some .endpoints
        else none
      prev :=
        if env.features.getLsbD virtioRpmsgFNs ∧ linkNsEpt 2 ∈ done then some .nsEpt
        else if endpointsPrev ∈ done then some .endpoints
        else none }
  nsEpt :=
    { next := if env.features.getLsbD virtioRpmsgFNs ∧ linkNsEpt 1 ∈ done then some .endpoints else none
      prev := if env.features.getLsbD virtioRpmsgFNs ∧ linkNsEpt 0 ∈ done then some .endpoints else none }

/-- What an operation expects of the ones before it, so that its stores are the ones that `memoryAt` says. -/
def InitOp.Follows (done : List InitOp) : InitOp → Bool
  | createVdev => done = [shmemInit]
  | memsetRdev =>
    getFeatures ∉ done ∧ endpointsPrev ∉ done ∧ endpointsNext ∉ done ∧ linkNsEpt 0 ∉ done ∧
      linkNsEpt 1 ∉ done ∧ linkNsEpt 2 ∉ done ∧ linkNsEpt 3 ∉ done
  | allocVq i => vqDev i ∉ done ∧ vqCallback i ∉ done ∧ storeShmIo i ∉ done ∧ freeVq i ∉ done
  | storeRvq => allocVq 1 ∈ done
  | storeSvq => allocVq 0 ∈ done
  | endpointsPrev => linkNsEpt 2 ∉ done
  | endpointsNext => linkNsEpt 3 ∉ done
  | linkNsEpt 0 => getFeatures ∈ done ∧ endpointsPrev ∈ done ∧ linkNsEpt 2 ∉ done
  | linkNsEpt 1 => getFeatures ∈ done
  | linkNsEpt 2 => getFeatures ∈ done ∧ linkNsEpt 1 ∈ done
  | linkNsEpt 3 => getFeatures ∈ done ∧ linkNsEpt 0 ∈ done
  | linkNsEpt _ => false
  | _ => true

variable {env : InitEnv} {done rest : List InitOp} {op : InitOp}

/-- A store to virtqueue `i` takes the memory of a point to the one of the next, if that differs in
virtqueue `i` only. -/
theorem modifyVq_memoryAt {i : Nat} {f : InitVq → InitVq}
    (hrest : memoryAt env (done ++ [op]) =
      { memoryAt env done with vq := (memoryAt env (done ++ [op])).vq })
    (hi : ((memoryAt env done).vq i).map f = (memoryAt env (done ++ [op])).vq i)
    (hne : ∀ j, j ≠ i → (memoryAt env done).vq j = (memoryAt env (done ++ [op])).vq j) :
    (memoryAt env done).modifyVq i f = memoryAt env (done ++ [op]) := by
  rw [hrest]
  unfold InitMem.modifyVq InitMem.setVq
  congr 1
  funext j
  by_cases hj : j = i
  · subst hj
    rw [Function.update_self, hi]
  · rw [Function.update_of_ne hj, hne j hj]

/-- An operation takes the memory of its point to the memory of the next one. -/
theorem exec_memoryAt (h : op.Follows done) :
    op.exec env (memoryAt env done) = memoryAt env (done ++ [op]) := by
  cases op with
  | createVdev =>
    obtain rfl : done = [shmemInit] := by simpa [Follows] using h
    simp [exec, memoryAt]
  | initVring i =>
    simp only [exec, memoryAt, List.mem_append, List.mem_singleton, reduceCtorEq, or_false,
      initVring.injEq, InitMem.mk.injEq, true_and, and_true]
    funext j
    by_cases hj : j = i
    · simp [hj]
    · simp [hj]
  | memsetRdev =>
    simp only [Follows, decide_eq_true_eq] at h
    simp [exec, memoryAt, h]
  | allocVq i =>
    simp only [Follows, decide_eq_true_eq] at h
    simp only [exec, InitMem.setVq, memoryAt, List.mem_append, List.mem_singleton, reduceCtorEq, or_false,
      allocVq.injEq, InitMem.mk.injEq, true_and, and_true]
    funext j
    by_cases hj : j = i
    · subst hj
      simp [h, InitVq.zero]
    · simp [hj]
  | vqDev i =>
    exact modifyVq_memoryAt (by simp [memoryAt]) (by simp [memoryAt]) fun j hj => by simp [memoryAt, hj]
  | vqCallback i =>
    exact modifyVq_memoryAt (by simp [memoryAt]) (by simp [memoryAt]) fun j hj => by simp [memoryAt, hj]
  | storeShmIo i =>
    exact modifyVq_memoryAt (by simp [memoryAt]) (by simp [memoryAt]) fun j hj => by simp [memoryAt, hj]
  | freeVq i =>
    exact modifyVq_memoryAt (by simp [memoryAt]) (by simp [memoryAt]) fun j hj => by simp [memoryAt, hj]
  | storeRvq | storeSvq | endpointsPrev | endpointsNext =>
    simp only [Follows, decide_eq_true_eq] at h
    simp [exec, memoryAt, h, InitMem.setPrev, InitMem.setNext]
  | linkNsEpt k =>
    cases hns : env.features.getLsbD virtioRpmsgFNs with
    | false => simp [exec, memoryAt, hns]
    | true =>
      match k with
      | 0 | 1 | 2 | 3 =>
        simp only [Follows, decide_eq_true_eq] at h
        simp [exec, memoryAt, h, hns, InitMem.linkNs, InitMem.setPrev, InitMem.setNext]
      | _ + 4 => cases h
  | _ => simp [exec, memoryAt]

/-! ## Points of the program -/

/-- The operations done and the ones that follow, at a point of the program or of an error path. -/
inductive OnPath : List InitOp → List InitOp → Prop
  | program {done rest : List InitOp} : done ++ rest = initProgram → OnPath done rest
  | error {done rest left freed : List InitOp} : done ++ left = initProgram →
      freed ++ rest = [] ∨ freed ++ rest = deleteVirtqueues → OnPath (done ++ freed) rest

/-- An operation that the program does only after another one. -/
def Precedes (a b : InitOp) : Prop := a ∈ initProgram.takeWhile (· ≠ b) ∧ b ∉ deleteVirtqueues

instance (a b : InitOp) : Decidable (Precedes a b) := inferInstanceAs (Decidable (_ ∧ _))

theorem nodup_initProgram : initProgram.Nodup := by decide

theorem takeWhile_initProgram (h : done ++ op :: rest = initProgram) :
    initProgram.takeWhile (· ≠ op) = done := by
  have hnd := nodup_initProgram
  rw [← h] at hnd ⊢
  have hop : op ∉ done := fun hmem => (List.disjoint_of_nodup_append hnd) hmem List.mem_cons_self
  exact takeWhile_ne_append_cons hop

theorem follows_initProgram :
    ∀ op ∈ initProgram, op.Follows (initProgram.takeWhile (· ≠ op)) = true := by decide

theorem OnPath.follows (h : OnPath done (op :: rest)) : op.Follows done := by
  cases h with
  | program h =>
    have hmem : op ∈ initProgram := by simp [← h]
    rw [← takeWhile_initProgram h]
    exact follows_initProgram op hmem
  | @error done _ left freed _ hfreed =>
    have hmem : op ∈ deleteVirtqueues := by
      rcases hfreed with h | h
      · simp at h
      · simp [← h]
    rcases List.mem_pair.mp hmem with rfl | rfl <;> rfl

theorem OnPath.mem_of_precedes (h : OnPath done rest) {a b : InitOp} (hab : Precedes a b)
    (hb : b ∈ done) : a ∈ done := by
  obtain ⟨hab, hdel⟩ := hab
  have hmain : ∀ {main left : List InitOp}, main ++ left = initProgram → b ∈ main → a ∈ main := by
    intro main left heq hbm
    obtain ⟨l₁, l₂, rfl⟩ := List.append_of_mem hbm
    rw [List.append_assoc, List.cons_append] at heq
    rw [takeWhile_initProgram heq] at hab
    exact List.mem_append_left _ hab
  cases h with
  | program h => exact hmain h hb
  | @error done _ left freed h hfreed =>
    have hbd : b ∈ done := by
      refine (List.mem_append.mp hb).resolve_right fun hbf => ?_
      rcases hfreed with hf | hf
      · simp [List.append_eq_nil_iff.mp hf] at hbf
      · exact hdel (hf ▸ List.mem_append_left _ hbf)
    exact List.mem_append_left _ (hmain h hbd)

theorem OnPath.mem_or (h : OnPath done rest) (hop : op ∈ done) :
    op ∈ initProgram ∨ op ∈ deleteVirtqueues := by
  cases h with
  | program h => exact .inl (h ▸ List.mem_append_left _ hop)
  | error h hfreed =>
    rcases List.mem_append.mp hop with hop | hop
    · exact .inl (h ▸ List.mem_append_left _ hop)
    · rcases hfreed with hf | hf
      · simp [List.append_eq_nil_iff.mp hf] at hop
      · exact .inr (hf ▸ List.mem_append_left _ hop)

theorem OnPath.next (h : OnPath done (op :: rest)) : OnPath (done ++ [op]) rest := by
  cases h with
  | program h => exact .program (by simpa using h)
  | error h hfreed =>
    rw [List.append_assoc]
    exact .error h (by simpa using hfreed)

/-- The function leaves by an error path at an operation of the program. -/
theorem OnPath.leave {path : List InitOp} (h : OnPath done (op :: rest)) (hop : op ∉ deleteVirtqueues)
    (hpath : path = [] ∨ path = deleteVirtqueues) : OnPath done path := by
  cases h with
  | program h => simpa using @OnPath.error done path _ [] h hpath
  | error h hfreed =>
    rcases hfreed with hf | hf
    · simp at hf
    · exact absurd (hf ▸ by simp) hop

/-! ## Runs -/

/-- A step of `sunxi_openamp_init`, with the device's status for its loops, or the interrupt. -/
inductive InitAct
  | init (status : BitVec 8)
  | interrupt (filled : Bool) (word : BitVec 32)

/-- An interrupt changes rings and endpoints, and nothing that is modelled here. -/
inductive InitStep (env : InitEnv) : InitState → InitAct → InitState → Prop
  | init {s : InitState} (status : BitVec 8) : InitStep env s (.init status) (initStep env status s)
  | interrupt {s : InitState} (filled : Bool) (word : BitVec 32) :
      InitStep env s (.interrupt filled word) s

/-- The state after `hal_msgbox_alloc_channel`. -/
def InitState.boot : InitState := ⟨[], initProgram, .zero⟩

/-- The invariant of the runs. -/
structure InitState.Inv (env : InitEnv) (s : InitState) : Prop where
  mem : s.mem = memoryAt env s.done
  path : OnPath s.done s.rest
  vrings : initVring 1 ∈ s.done → 1 < env.numOfVrings.toNat

theorem InitState.inv_boot (env : InitEnv) : boot.Inv env where
  mem := by simp [boot, memoryAt, InitMem.zero]
  path := .program rfl
  vrings h := by simp [boot] at h

theorem outcome_error {m : InitMem} {status : BitVec 8} {path : List InitOp}
    (h : op.outcome env m status = .error path) :
    (path = [] ∨ path = deleteVirtqueues) ∧ op ∉ deleteVirtqueues := by
  cases op with
  | freeVq i => cases h
  | shmemInit | createVdev | waitRemoteReady | initVring | checkVringsNum | checkVq | allocVq =>
    simp only [InitOp.outcome] at h
    split at h <;> cases h <;> simp [deleteVirtqueues]
  | waitSynchro =>
    simp only [InitOp.outcome] at h
    split at h
    · cases h
      simp [deleteVirtqueues]
    · split at h <;> cases h
  | _ => cases h

theorem outcome_initVring {m : InitMem} {status : BitVec 8} {i : Nat}
    (h : (initVring i).outcome env m status = .next) : i < m.vringsNum := by
  simp only [InitOp.outcome] at h
  split at h
  · cases h
  · omega

theorem InitState.Inv.initStep {s : InitState} (hs : s.Inv env) (status : BitVec 8) :
    (V85x.initStep env status s).Inv env := by
  obtain ⟨done, rest, mem⟩ := s
  obtain ⟨hmem, hpath, hvrings⟩ := hs
  dsimp only at hmem hpath hvrings
  subst hmem
  unfold V85x.initStep
  cases rest with
  | nil => exact ⟨rfl, hpath, hvrings⟩
  | cons op rest =>
    dsimp only
    cases hout : op.outcome env (memoryAt env done) status with
    | again => exact ⟨rfl, hpath, hvrings⟩
    | next =>
      refine ⟨exec_memoryAt hpath.follows, ?_, fun hmem => ?_⟩
      · exact hpath.next
      · rcases List.mem_append.mp hmem with hmem | hmem
        · exact hvrings hmem
        · obtain rfl := List.mem_singleton.mp hmem
          have hlt := outcome_initVring hout
          simp only [memoryAt] at hlt
          split at hlt <;> omega
    | error path =>
      obtain ⟨hp, hop⟩ := outcome_error hout
      exact ⟨rfl, hpath.leave hop hp, hvrings⟩

/-! ## The lookup of the interrupt -/

namespace InitMem

variable {m : InitMem} {filled : Bool} {notifyid : BitVec 32} {i : Nat}

/-- The loop of `rproc_virtio_notified` has no fault if and only if no notified vring has one. -/
theorem exists_notifyVrings {P : Nat → Prop} {is : List Nat} :
    (∃ ran, m.notifyVrings filled notifyid is = .ok ran ∧ ∀ j ∈ ran, P j) ↔
      ∀ i ∈ is, (m.vringNotifyid i = notifyid ∨ notifyid = rscNotifyIdAny) →
        ∃ ran, m.virtqueueNotification filled i = .ok ran ∧ ∀ j ∈ ran, P j := by
  induction is with
  | nil => simp [notifyVrings, pure, Except.pure]
  | cons i is ih =>
    rw [List.forall_mem_cons, ← ih]
    by_cases hid : m.vringNotifyid i = notifyid ∨ notifyid = rscNotifyIdAny
    · simp only [notifyVrings, bind, Except.bind, pure, Except.pure, hid, forall_const]
      cases hvq : m.virtqueueNotification filled i with
      | error e => simp
      | ok ran =>
        cases hrest : m.notifyVrings filled notifyid is with
        | error e => simp
        | ok rest => simp [or_imp, forall_and]
    · simp only [notifyVrings, bind, Except.bind, pure, Except.pure, hid, false_imp_iff, true_and]
      cases hrest : m.notifyVrings filled notifyid is <;> simp

/-- The interrupt ignores every word until `rvdev->vdev` is set. -/
theorem safe_of_vdev (h : m.vdev = false) (word : BitVec 32) : m.Safe filled word :=
  ⟨[], by simp [sunxiOpenampReceive, rprocVirtioNotified, h], by simp⟩

/-- After that it looks at the vrings with the notifyid `VRING1_ID`. -/
theorem safe_iff_of_vdev (h : m.vdev = true) (hid : m.notifyid = vdevId) (word : BitVec 32) :
    m.Safe filled word ↔ ∀ i < m.vringsNum, m.vringNotifyid i = vring1Id →
      ∃ ran, m.virtqueueNotification filled i = .ok ran ∧ ∀ j ∈ ran, m.FullyInitialised j := by
  have hne : m.notifyid ≠ vring1Id := by rw [hid]; decide
  have hany : vring1Id ≠ rscNotifyIdAny := by decide
  unfold Safe sunxiOpenampReceive rprocVirtioNotified
  simp only [h, Bool.not_true, Bool.false_eq_true, if_false, if_neg hne, exists_notifyVrings,
    List.mem_range, hany, or_false]

end InitMem

/-- What the interrupt needs at a point: the lookup is not armed, or each vring with the notifyid
`VRING1_ID` has its virtqueue, and the rx one has no callback yet or the endpoint list is initialised. -/
def Initialised (env : InitEnv) (done : List InitOp) : Prop :=
  storeVdev ∈ done →
    ((env.vring 0).notifyid = vring1Id → allocVq 0 ∈ done ∧ freeVq 0 ∉ done) ∧
    ((env.vring 1).notifyid = vring1Id →
      allocVq 1 ∈ done ∧ freeVq 1 ∉ done ∧ (vqCallback 1 ∈ done → endpointsNext ∈ done))

section Vrings

variable {filled : Bool}

theorem derefVq_memoryAt (env : InitEnv) (done : List InitOp) (i : Nat) :
    (memoryAt env done).derefVq (some i) =
      if allocVq i ∉ done then .error .nullVirtqueue
      else if freeVq i ∈ done then .error .freedVirtqueue
      else .ok ⟨vqDev i ∈ done, if vqCallback i ∈ done then some (vqCallbackOf i) else none,
        storeShmIo i ∈ done, false⟩ := by
  by_cases ha : allocVq i ∈ done
  · by_cases hf : freeVq i ∈ done <;> simp [InitMem.derefVq, memoryAt, ha, hf]
  · simp [InitMem.derefVq, memoryAt, ha]

/-- The tx vring: its callback does nothing. -/
theorem notification_tx :
    (∃ ran, (memoryAt env done).virtqueueNotification filled 0 = .ok ran ∧
        ∀ j ∈ ran, (memoryAt env done).FullyInitialised j) ↔
      allocVq 0 ∈ done ∧ freeVq 0 ∉ done := by
  unfold InitMem.virtqueueNotification
  rw [derefVq_memoryAt]
  by_cases ha : allocVq 0 ∈ done <;> by_cases hf : freeVq 0 ∈ done <;>
    by_cases hc : vqCallback 0 ∈ done <;>
    simp [ha, hf, hc, vqCallbackOf, bind, Except.bind, pure, Except.pure]

/-- The walk through the endpoint list from the moment its head points to itself. -/
theorem walkEndpoints_memoryAt (hpath : OnPath done rest) (h : endpointsNext ∈ done) :
    (memoryAt env done).walkEndpoints 2 .endpoints = .ok () := by
  have hns : linkNsEpt 3 ∈ done → linkNsEpt 1 ∈ done := hpath.mem_of_precedes (by decide)
  by_cases hf : env.features.getLsbD virtioRpmsgFNs = true ∧ linkNsEpt 3 ∈ done
  · simp [InitMem.walkEndpoints, InitMem.node, memoryAt, hf, hns hf.2]
  · have hnext : (memoryAt env done).endpoints.next = some .endpoints := by
      simp only [memoryAt, if_neg hf, if_pos h]
    simp [InitMem.walkEndpoints, InitMem.node, hnext]

theorem fullyInitialised_memoryAt (hpath : OnPath done rest) (h : endpointsNext ∈ done)
    (hfree : freeVq 1 ∉ done) : (memoryAt env done).FullyInitialised 1 where
  vq := by
    have ha : allocVq 1 ∈ done := hpath.mem_of_precedes (by decide) h
    have hio : storeShmIo 1 ∈ done := hpath.mem_of_precedes (by decide) h
    simp [memoryAt, ha, hio, hfree]
  rvq := by
    have hrvq : storeRvq ∈ done := hpath.mem_of_precedes (by decide) h
    simp [memoryAt, hrvq]
  svq := by
    have hsvq : storeSvq ∈ done := hpath.mem_of_precedes (by decide) h
    simp [memoryAt, hsvq]
  next := walkEndpoints_memoryAt hpath h
  prev := by
    have hprev : endpointsPrev ∈ done := hpath.mem_of_precedes (by decide) h
    simp only [memoryAt, hprev, if_true]
    split <;> simp

/-- An rx callback on an initialised list has no fault. -/
theorem rxCallback_memoryAt (hpath : OnPath done rest) (h : endpointsNext ∈ done)
    (hfree : freeVq 1 ∉ done) : (memoryAt env done).rpmsgVirtioRxCallback filled 1 = .ok () := by
  have ha : allocVq 1 ∈ done := hpath.mem_of_precedes (by decide) h
  have hdev : vqDev 1 ∈ done := hpath.mem_of_precedes (by decide) h
  have hio : storeShmIo 1 ∈ done := hpath.mem_of_precedes (by decide) h
  have hpriv : (memoryAt env done).priv = true :=
    decide_eq_true (hpath.mem_of_precedes (by decide) h)
  have hrvq : (memoryAt env done).rvq = some 1 := if_pos (hpath.mem_of_precedes (by decide) h)
  unfold InitMem.rpmsgVirtioRxCallback
  rw [hrvq, derefVq_memoryAt, walkEndpoints_memoryAt hpath h]
  cases filled <;> simp [ha, hfree, hdev, hio, hpriv, bind, Except.bind, pure, Except.pure]

/-- The rx vring. -/
theorem notification_rx (hpath : OnPath done rest) :
    (∃ ran, (memoryAt env done).virtqueueNotification filled 1 = .ok ran ∧
        ∀ j ∈ ran, (memoryAt env done).FullyInitialised j) ↔
      allocVq 1 ∈ done ∧ freeVq 1 ∉ done ∧ (vqCallback 1 ∈ done → endpointsNext ∈ done) := by
  unfold InitMem.virtqueueNotification
  rw [derefVq_memoryAt]
  by_cases ha : allocVq 1 ∈ done
  swap
  · simp [ha, bind, Except.bind]
  by_cases hf : freeVq 1 ∈ done
  · simp [ha, hf, bind, Except.bind]
  by_cases hc : vqCallback 1 ∈ done
  swap
  · simp [ha, hf, hc, bind, Except.bind, pure, Except.pure]
  by_cases hnext : endpointsNext ∈ done
  · have hfull := @fullyInitialised_memoryAt env _ _ hpath hnext hf
    simp [ha, hf, hc, hnext, vqCallbackOf, bind, Except.bind, pure, Except.pure,
      rxCallback_memoryAt hpath hnext hf, hfull]
  · -- the head of the list still has a NULL link
    have hns : linkNsEpt 3 ∉ done := fun h => hnext (hpath.mem_of_precedes (by decide) h)
    have hfull : ¬ (memoryAt env done).FullyInitialised 1 := fun h => by
      have hwalk := h.next
      simp [InitMem.walkEndpoints, InitMem.node, memoryAt, hns, hnext] at hwalk
    cases (memoryAt env done).rpmsgVirtioRxCallback filled 1 <;>
      simp [ha, hf, hc, hnext, vqCallbackOf, bind, Except.bind, pure, Except.pure, hfull]

end Vrings

theorem InitState.Inv.safe_iff {s : InitState} (hs : s.Inv env) (filled : Bool) (word : BitVec 32) :
    s.mem.Safe filled word ↔ Initialised env s.done := by
  rw [hs.mem]
  by_cases harmed : storeVdev ∈ s.done
  swap
  · have hvdev : (memoryAt env s.done).vdev = false := decide_eq_false harmed
    exact iff_of_true (InitMem.safe_of_vdev hvdev word) fun h => absurd h harmed
  have hvdev : (memoryAt env s.done).vdev = true := decide_eq_true harmed
  have hcreate : createVdev ∈ s.done := hs.path.mem_of_precedes (by decide) harmed
  have h0 : initVring 0 ∈ s.done := hs.path.mem_of_precedes (by decide) harmed
  have h1 : initVring 1 ∈ s.done := hs.path.mem_of_precedes (by decide) harmed
  have hnum : (memoryAt env s.done).vringsNum = env.numOfVrings.toNat := if_pos hcreate
  have hids : ∀ i, (memoryAt env s.done).vringNotifyid i = vring1Id →
      (i = 0 ∨ i = 1) ∧ (env.vring i).notifyid = vring1Id := by
    intro i hi
    simp only [memoryAt] at hi
    split at hi
    · rename_i hmem
      refine ⟨?_, hi⟩
      rcases hs.path.mem_or hmem with h | h
      · simpa [initProgram, rpmsgInitVdev, createVirtqueue] using h
      · simp [deleteVirtqueues] at h
    · exact absurd hi (by decide)
  rw [InitMem.safe_iff_of_vdev hvdev (if_pos hcreate), hnum]
  have hlt := hs.vrings h1
  constructor
  · intro h _
    refine ⟨fun hid => ?_, fun hid => ?_⟩
    · exact notification_tx.mp (h 0 (by omega) ((if_pos h0).trans hid))
    · exact (notification_rx hs.path).mp (h 1 hlt ((if_pos h1).trans hid))
  · intro h i _ hi
    obtain ⟨rfl | rfl, hid⟩ := hids i hi
    · exact notification_tx.mpr ((h harmed).1 hid)
    · exact (notification_rx hs.path).mpr ((h harmed).2 hid)

/-- The interrupt is safe. -/
def SafeInterrupt (s : InitState) : InitAct → Prop
  | .init _ => True
  | .interrupt filled word => s.mem.Safe filled word

/-- The interrupt comes at a point where it finds what it needs. -/
def InitialisedInterrupt (env : InitEnv) (s : InitState) : InitAct → Prop
  | .init _ => True
  | .interrupt _ _ => Initialised env s.done

/-- In every run of the initialisation, all interrupts are safe if and only if each of them comes before the
store of `rvdev->vdev` or finds the virtqueues and, behind an rx callback, the endpoint list. -/
theorem safe_iff_initialised {env : InitEnv} {tr : List (InitAct × InitState)}
    (h : Run (InitStep env) .boot tr) :
    Along SafeInterrupt .boot tr ↔ Along (InitialisedInterrupt env) .boot tr := by
  have hstep : ∀ s act t, InitState.Inv env s → InitStep env s act t → InitState.Inv env t := by
    intro s act t hs hst
    cases hst with
    | init status => exact hs.initStep status
    | interrupt => exact hs
  refine h.along_iff hstep (fun s act hs => ?_) (InitState.inv_boot env)
  cases act with
  | init => exact Iff.rfl
  | interrupt filled word => exact hs.safe_iff filled word

/-! ## The resource table of the firmware -/

/-- The environment of `rsc_table.c`, with a host that accepts the name service and with enough memory. -/
def rscTableEnv : InitEnv where
  shmemStatus := 0
  numOfVrings := 2#8
  vring i := ⟨16#32, if i = 0 then vring0Id else vring1Id⟩
  features := 1#32
  allocatesVdev := true
  allocatesVringsInfo := true
  allocatesVq _ := true

/-- The run of `n` operations under the status `DRIVER_OK`, and then an interrupt. -/
def preemptAfter (env : InitEnv) (filled : Bool) (word : BitVec 32) :
    Nat → InitState → List (InitAct × InitState)
  | 0, s => [(.interrupt filled word, s)]
  | n + 1, s =>
    let t := initStep env virtioConfigStatusDriverOk s
    (.init virtioConfigStatusDriverOk, t) :: preemptAfter env filled word n t

theorem run_preemptAfter (env : InitEnv) (filled : Bool) (word : BitVec 32) (n : Nat) (s : InitState) :
    Run (InitStep env) s (preemptAfter env filled word n s) := by
  induction n generalizing s with
  | zero => exact .cons (.interrupt filled word) (.nil s)
  | succ n ih => exact .cons (.init _) (ih _)

theorem along_preemptAfter {env : InitEnv} {filled : Bool} {word : BitVec 32}
    {cond : InitState → InitAct → Prop} (hc : ∀ s status, cond s (.init status)) (n : Nat)
    (s : InitState) : Along cond s (preemptAfter env filled word n s) ↔
      cond ((initStep env virtioConfigStatusDriverOk)^[n] s) (.interrupt filled word) := by
  induction n generalizing s with
  | zero => simp [preemptAfter, Along]
  | succ n ih =>
    rw [Function.iterate_succ_apply, ← ih]
    simp [preemptAfter, Along, hc]

/-- An interrupt after the 44 operations of the whole initialisation. -/
theorem safe_after_init :
    Along SafeInterrupt .boot (preemptAfter rscTableEnv true vring1Id 44 .boot) := by
  refine (safe_iff_initialised (run_preemptAfter _ _ _ _ _)).mpr ?_
  rw [along_preemptAfter fun _ _ => trivial]
  show Initialised _ _
  unfold Initialised
  decide

/-- An interrupt right after the store of `rvdev->vdev` passes NULL to `virtqueue_notification`. -/
theorem null_virtqueue_after_vdev :
    let s := (initStep rscTableEnv virtioConfigStatusDriverOk)^[10] .boot
    s.done.getLast? = some storeVdev ∧
      s.mem.sunxiOpenampReceive true vring1Id = .error .nullVirtqueue ∧
      ∃ tr, Run (InitStep rscTableEnv) .boot tr ∧
        tr.getLast? = some (.interrupt true vring1Id, s) ∧ ¬ Along SafeInterrupt .boot tr := by
  have hfault : ((initStep rscTableEnv virtioConfigStatusDriverOk)^[10]
      .boot).mem.sunxiOpenampReceive true vring1Id = .error .nullVirtqueue := rfl
  refine ⟨rfl, hfault, _, run_preemptAfter rscTableEnv true vring1Id 10 .boot, rfl, fun h => ?_⟩
  obtain ⟨ran, hran, -⟩ := (along_preemptAfter (fun _ _ => trivial) 10 .boot).mp h
  rw [hfault] at hran
  cases hran

end V85x
