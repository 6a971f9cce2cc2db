import V85xAmp.OpenAmp.InitSafety
import V85xAmp.Utils.NutHeapRun

/-!
# Cycles of `sunxi_openamp_init` and `sunxi_openamp_deinit`

`metal_allocate_memory` is `NutHeapAlloc`. A successful `sunxi_openamp_init` asks for four blocks: the
`struct remoteproc_virtio`, the table of the vrings and two virtqueues. `sunxi_openamp_deinit` releases
through `rproc_virtio_delete_virtqueues`, which knows the virtqueues only, and leaves `rvdev->vdev` and the
table as they are. `Inv` is the account of the free list over a run, and of where the interrupt's lookup
leads.

* `free_list_shrinks`: every cycle takes 128 bytes or more out of the free list for good.
* `no_freed_iff_along`: after a deinit an interrupt does not use released memory if and only if no vring has
  the notifyid that `sunxi_openamp_receive` passes.
-/

namespace V85x

open Firmware

/-! ## The calls -/

/-- `sizeof(struct remoteproc_virtio)` -/
def sizeofRemoteprocVirtio : Nat := 72

/-- `sizeof(struct virtio_vring_info)` -/
def sizeofVirtioVringInfo : Nat := 24

/-- `sizeof(struct virtqueue)` -/
def sizeofVirtqueue : Nat := 56

/-- `sizeof(struct vq_desc_extra)` -/
def sizeofVqDescExtra : Nat := 8

/-- The request of `virtqueue_allocate`. -/
def vqSize (numDescExtra : Nat) : Nat := sizeofVirtqueue + numDescExtra * sizeofVqDescExtra

/-- A device: its block and the one of its vring table, and what is in them. `vq` are pointers, 0 is NULL. -/
structure Vdev where
  rpvdev : Nat
  vringsInfo : Nat
  vringsNum : Nat
  notifyid : BitVec 32
  vringNotifyid : Nat → BitVec 32
  vq : Nat → Nat

/-- The device of a successful initialisation with these blocks. -/
def Vdev.ofBlocks (env : InitEnv) (rpvdev vringsInfo vq0 vq1 : Nat) : Vdev where
  rpvdev := rpvdev
  vringsInfo := vringsInfo
  vringsNum := env.numOfVrings.toNat
  notifyid := vdevId
  vringNotifyid i := if i < rpmsgNumVrings then (env.vring i).notifyid else 0#32
  vq i := if i = 0 then vq0 else if i = 1 then vq1 else 0

/-- The checks of `rproc_virtio_init_vring`. -/
def InitEnv.VringsOk (env : InitEnv) : Prop :=
  ∀ i < rpmsgNumVrings, i < env.numOfVrings.toNat ∧ (env.vring i).num.toNat ≤ rprocMaxVringDesc

/-- `metal_allocate_memory(size)` returns the block `p`, which is not NULL. -/
def MetalAllocates (s : HeapRun) (size p : Nat) (t : HeapRun) : Prop :=
  HeapStep s (.alloc size) t ∧ t.live = p :: s.live

/-- Stores of the program to memory that is its own. -/
def HeapStores (s t : HeapRun) : Prop := ∃ mem, HeapStep s (.write mem) t

/-- `rproc_virtio_create_vdev` -/
def CreateVdev (env : InitEnv) (s : HeapRun) (rpvdev vringsInfo : Nat) (t : HeapRun) : Prop :=
  ∃ s₁ s₂, MetalAllocates s sizeofRemoteprocVirtio rpvdev s₁ ∧
    MetalAllocates s₁ (sizeofVirtioVringInfo * env.numOfVrings.toNat) vringsInfo s₂ ∧ HeapStores s₂ t

/-- `rproc_virtio_create_virtqueue` -/
def CreateVirtqueue (vring : FwRscVdevVring) (s : HeapRun) (vq : Nat) (t : HeapRun) : Prop :=
  ∃ u, MetalAllocates s (vqSize vring.num.toNat) vq u ∧ HeapStores u t

/-- A successful `sunxi_openamp_init`. -/
def SunxiOpenampInit (env : InitEnv) (s : HeapRun) (vdev : Vdev) (t : HeapRun) : Prop :=
  env.VringsOk ∧ ∃ rpvdev vringsInfo vq0 vq1 s₁ s₂, CreateVdev env s rpvdev vringsInfo s₁ ∧
    CreateVirtqueue (env.vring 0) s₁ vq0 s₂ ∧ CreateVirtqueue (env.vring 1) s₂ vq1 t ∧
    vdev = .ofBlocks env rpvdev vringsInfo vq0 vq1

/-- The loop of `rproc_virtio_delete_virtqueues` over these vrings. -/
def DeleteVirtqueues (vdev : Vdev) : List Nat → HeapRun → HeapRun → Prop
  | [], s, t => t = s
  | i :: is, s, t =>
    if vdev.vq i = 0 then DeleteVirtqueues vdev is s t
    else ∃ u, HeapStep s (.free (vdev.vq i)) u ∧ DeleteVirtqueues vdev is u t

/-- `sunxi_openamp_deinit`. The endpoints that it destroys send and unlink; `metal_finish` has no memory. -/
def SunxiOpenampDeinit (s : HeapRun) (vdev : Vdev) (t : HeapRun) : Prop :=
  ∃ u, HeapStores s u ∧ DeleteVirtqueues vdev (List.range vdev.vringsNum) u t

/-- The virtqueues that `rproc_virtio_notified` passes to `virtqueue_notification`. -/
def Vdev.notified (vdev : Vdev) (notifyid : BitVec 32) : List Nat :=
  if vdev.notifyid = notifyid then []
  else ((List.range vdev.vringsNum).filter fun i =>
    vdev.vringNotifyid i = notifyid ∨ notifyid = rscNotifyIdAny).map vdev.vq

/-! ## Runs -/

/-- The heap, `soa->rvdev.vdev`, whether an initialisation has no deinit yet, and the number of deinits. -/
structure Amp where
  run : HeapRun
  vdev : Option Vdev
  up : Bool
  deinits : Nat

/-- `use`: what the program stores in sends, receives, and the creation and destruction of endpoints. -/
inductive AmpAct
  | init (env : InitEnv)
  | use
  | deinit
  | interrupt (word : BitVec 32)

namespace Amp

/-- `sunxi_openamp_receive`: the virtqueues that are used. It does not look at the word. -/
def sunxiOpenampReceive (s : Amp) (_word : BitVec 32) : List Nat :=
  match s.vdev with
  | none => []
  | some vdev => vdev.notified vring1Id

/-- A heap of the program before the first initialisation. -/
structure Initial (s : Amp) : Prop where
  heap : Reachable HeapStep HeapRun.Empty s.run
  vdev : s.vdev = none
  up : s.up = false
  deinits : s.deinits = 0

end Amp

/-- The stores of an interrupt's callbacks are `use` steps. -/
inductive AmpStep : Amp → AmpAct → Amp → Prop
  | init {s : Amp} {env : InitEnv} {vdev : Vdev} {t : HeapRun} : s.up = false →
      SunxiOpenampInit env s.run vdev t → AmpStep s (.init env) ⟨t, some vdev, true, s.deinits⟩
  | use {s : Amp} {t : HeapRun} : HeapStores s.run t → AmpStep s .use { s with run := t }
  | deinit {s : Amp} {vdev : Vdev} {t : HeapRun} : s.up = true → s.vdev = some vdev →
      SunxiOpenampDeinit s.run vdev t → AmpStep s .deinit ⟨t, some vdev, false, s.deinits + 1⟩
  | interrupt {s : Amp} (word : BitVec 32) : AmpStep s (.interrupt word) s

/-- The address is in a free node. -/
def Heap.Free (h : Heap) (p : Nat) : Prop := ∃ l, Chain h .root l ∧ ∃ n ∈ l, n.Has p

/-- The interrupt uses no memory that is back in the heap. -/
def UsesNoFreed (s : Amp) : AmpAct → Prop
  | .interrupt word => ∀ p ∈ s.sunxiOpenampReceive word, ¬ s.run.heap.Free p
  | _ => True

/-- After a deinit: no vring of the device has the notifyid of the lookup. -/
def FindsNothing (s : Amp) : AmpAct → Prop
  | .interrupt _ => s.up = false → ∀ vdev ∈ s.vdev, ∀ i < rpmsgNumVrings, vdev.vringNotifyid i ≠ vring1Id
  | _ => True

/-! ## What the calls do to the heap -/

section Calls

variable {env : InitEnv} {vring : FwRscVdevVring} {vdev : Vdev} {s t : HeapRun} {l : List Seg} {p : Nat}

/-- The blocks of a device, with room for two vrings or more. -/
theorem createVdev_spec {rpvdev vringsInfo : Nat} (hi : Tiled s l) (henv : env.VringsOk)
    (h : CreateVdev env s rpvdev vringsInfo t) :
    ∃ l', ∃ b₁ b₂ : Seg, Tiled t l' ∧ 128 ≤ b₁.size + b₂.size ∧
      ∀ x, cover l x = b₁.count x + b₂.count x + cover l' x := by
  obtain ⟨s₁, s₂, ⟨h₁, hlive₁⟩, ⟨h₂, hlive₂⟩, mem, h₃⟩ := h
  obtain ⟨l₁, hi₁, hsize₁, htiles₁, -⟩ := hi.allocated h₁ hlive₁
  obtain ⟨l₂, hi₂, hsize₂, htiles₂, -⟩ := hi₁.allocated h₂ hlive₂
  obtain ⟨hi₃, -, -⟩ := hi₂.written h₃
  refine ⟨l₂, blockNode s₁.heap rpvdev, blockNode s₂.heap vringsInfo, hi₃, ?_, fun x => ?_⟩
  · have hnum := (henv 1 (by decide)).1
    unfold sizeofRemoteprocVirtio at hsize₁
    unfold sizeofVirtioVringInfo at hsize₂
    omega
  · rw [htiles₁, htiles₂, Nat.add_assoc]

/-- The block of a virtqueue goes into use. -/
theorem createVirtqueue_spec (hi : Tiled s l) (h : CreateVirtqueue vring s p t) :
    ∃ l', Tiled t l' ∧ t.live = p :: s.live ∧
      (∀ x, cover l x = (blockNode t.heap p).count x + cover l' x) ∧
      ∀ q ∈ s.live, blockNode t.heap q = blockNode s.heap q := by
  obtain ⟨u, ⟨h₁, hlive⟩, mem, h₂⟩ := h
  obtain ⟨l', hi₁, -, htiles, hkeep₁⟩ := hi.allocated h₁ hlive
  obtain ⟨hi₂, hlive₂, hkeep₂⟩ := hi₁.written h₂
  have hmem : ∀ q ∈ s.live, q ∈ u.live := fun q hq => hlive ▸ List.mem_cons_of_mem _ hq
  refine ⟨l', hi₂, hlive₂.trans hlive, fun x => ?_, fun q hq => ?_⟩
  · rw [hkeep₂ p (hlive ▸ List.mem_cons_self)]
    exact htiles x
  · rw [hkeep₂ q (hmem q hq), hkeep₁ q hq]

/-- Vrings without a virtqueue. -/
theorem deleteVirtqueues_of_null {is : List Nat} (hnull : ∀ i ∈ is, vdev.vq i = 0) :
    DeleteVirtqueues vdev is s t ↔ t = s := by
  induction is with
  | nil => exact Iff.rfl
  | cons i is ih =>
    obtain ⟨h0, hrest⟩ := List.forall_mem_cons.mp hnull
    rw [DeleteVirtqueues, if_pos h0, ih hrest]

end Calls

/-! ## The account -/

/-- What `sunxi_openamp_init` makes sure of: two vrings, and nothing in the entries behind them. -/
structure Vdev.Shape (vdev : Vdev) : Prop where
  two : 1 < vdev.vringsNum
  notifyid : vdev.notifyid = vdevId
  others : ∀ i, 2 ≤ i → vdev.vq i = 0 ∧ vdev.vringNotifyid i = 0#32

theorem Vdev.shape_ofBlocks {env : InitEnv} (henv : env.VringsOk) (rpvdev vringsInfo vq0 vq1 : Nat) :
    (ofBlocks env rpvdev vringsInfo vq0 vq1).Shape where
  two := (henv 1 (by decide)).1
  notifyid := rfl
  others i hi := by
    have h0 : i ≠ 0 := by omega
    have h1 : i ≠ 1 := by omega
    have hnum : ¬ i < rpmsgNumVrings := by
      unfold rpmsgNumVrings
      omega
    simp [ofBlocks, h0, h1, hnum]

/-- The loop releases the first two and finds NULL in the others. -/
theorem deleteVirtqueues_iff {vdev : Vdev} {s t : HeapRun} (hshape : vdev.Shape)
    (hne : ∀ i < 2, vdev.vq i ≠ 0) :
    DeleteVirtqueues vdev (List.range vdev.vringsNum) s t ↔
      ∃ u, HeapStep s (.free (vdev.vq 0)) u ∧ HeapStep u (.free (vdev.vq 1)) t := by
  obtain ⟨n, hn⟩ := Nat.exists_eq_add_of_lt hshape.two
  have hnull : ∀ i ∈ ((List.range n).map Nat.succ).map Nat.succ, vdev.vq i = 0 := fun i hi => by
    obtain ⟨j, hj, rfl⟩ := List.mem_map.mp hi
    obtain ⟨j, -, rfl⟩ := List.mem_map.mp hj
    exact (hshape.others _ (by omega)).1
  rw [hn, Nat.add_comm 1 n, List.range_succ_eq_map, List.range_succ_eq_map, List.map_cons,
    DeleteVirtqueues, if_neg (hne 0 (by omega))]
  refine exists_congr fun u => and_congr_right fun _ => ?_
  rw [DeleteVirtqueues, if_neg (hne 1 (by omega))]
  constructor
  · rintro ⟨v, hfree, hdel⟩
    rwa [(deleteVirtqueues_of_null hnull).mp hdel]
  · exact fun hfree => ⟨t, hfree, (deleteVirtqueues_of_null hnull).mpr rfl⟩

namespace Amp

/-- The nodes of the virtqueues, as long as these are in use. -/
def vqNodes (s : Amp) : List Seg :=
  match s.vdev with
  | none => []
  | some vdev =>
    if s.up then [blockNode s.run.heap (vdev.vq 0), blockNode s.run.heap (vdev.vq 1)] else []

/-- The free list was `l₀` before the first initialisation and is `l` now; `lost` are the nodes that no
deinit gives back. -/
structure Inv (l₀ l lost : List Seg) (s : Amp) : Prop where
  tiled : Tiled s.run l
  account : ∀ x, cover l₀ x = cover s.vqNodes x + cover l x + cover lost x
  size : 128 * (s.deinits + s.up.toNat) ≤ totalSize lost
  none : s.up = false → s.deinits = 0 → lost = []
  up : s.up = true → ∃ vdev, s.vdev = some vdev ∧ vdev.Shape ∧ ∀ i < 2, vdev.vq i ∈ s.run.live
  down : s.up = false → ∀ vdev ∈ s.vdev, vdev.Shape ∧ ∀ i < 2, 0 < cover l (vdev.vq i)

variable {s t : Amp} {act : AmpAct} {l₀ l lost : List Seg}

theorem Initial.inv (hs : s.Initial) : ∃ l, Inv l l [] s := by
  obtain ⟨l, hi⟩ := tiled_of_reachable hs.heap
  refine ⟨l, hi, fun x => ?_, ?_, fun _ _ => rfl, fun h => ?_, fun _ vdev h => ?_⟩
  · simp [vqNodes, hs.vdev]
  · simp [hs.deinits, hs.up]
  · simp [hs.up] at h
  · simp [hs.vdev] at h

theorem Inv.init {env : InitEnv} {vdev : Vdev} {u : HeapRun} (hs : Inv l₀ l lost s) (hup : s.up = false)
    (h : SunxiOpenampInit env s.run vdev u) :
    ∃ l' lost', Inv l₀ l' lost' ⟨u, some vdev, true, s.deinits⟩ := by
  obtain ⟨henv, rpvdev, vringsInfo, vq0, vq1, s₁, s₂, h₁, h₂, h₃, rfl⟩ := h
  obtain ⟨l₁, b₁, b₂, hi₁, hsize, htiles₁⟩ := createVdev_spec hs.tiled henv h₁
  obtain ⟨l₂, hi₂, hlive₂, htiles₂, -⟩ := createVirtqueue_spec hi₁ h₂
  obtain ⟨l₃, hi₃, hlive₃, htiles₃, hkeep⟩ := createVirtqueue_spec hi₂ h₃
  have hvq0 : vq0 ∈ s₂.live := hlive₂ ▸ List.mem_cons_self
  have hnodes : s.vqNodes = [] := by
    unfold vqNodes
    cases s.vdev <;> simp [hup]
  refine ⟨l₃, b₁ :: b₂ :: lost, hi₃, fun x => ?_, ?_, fun h => (nomatch h), fun _ => ?_, fun h => (nomatch h)⟩
  · have h0 := hs.account x
    have h1 := htiles₁ x
    have h2 := htiles₂ x
    have h3 := htiles₃ x
    rw [hnodes, cover_nil] at h0
    rw [← hkeep vq0 hvq0] at h2
    simp only [vqNodes, Vdev.ofBlocks, if_true, cover_cons, cover_nil, one_ne_zero, if_false]
    omega
  · have h0 := hs.size
    rw [hup] at h0
    simp only [totalSize_cons, Bool.toNat_true, Bool.toNat_false] at h0 ⊢
    omega
  · refine ⟨_, rfl, Vdev.shape_ofBlocks henv .., fun i hi => ?_⟩
    rw [hlive₃]
    obtain rfl | rfl : i = 0 ∨ i = 1 := by omega
    · exact List.mem_cons_of_mem _ hvq0
    · exact List.mem_cons_self

theorem Inv.use {u : HeapRun} (hs : Inv l₀ l lost s) (h : HeapStores s.run u) :
    Inv l₀ l lost { s with run := u } := by
  obtain ⟨mem, h⟩ := h
  obtain ⟨hi, hlive, hkeep⟩ := hs.tiled.written h
  have hnodes : vqNodes { s with run := u } = s.vqNodes := by
    unfold vqNodes
    cases hup : s.up with
    | false => rfl
    | true =>
      obtain ⟨vdev, hvdev, -, hmem⟩ := hs.up hup
      simp [hvdev, hkeep _ (hmem 0 (by omega)), hkeep _ (hmem 1 (by omega))]
  refine ⟨hi, fun x => ?_, hs.size, hs.none, fun hup => ?_, hs.down⟩
  · rw [hnodes]
    exact hs.account x
  · obtain ⟨vdev, hvdev, hshape, hmem⟩ := hs.up hup
    exact ⟨vdev, hvdev, hshape, fun i hi => hlive ▸ hmem i hi⟩

theorem Inv.deinit {vdev : Vdev} {u : HeapRun} (hs : Inv l₀ l lost s) (hup : s.up = true)
    (hvdev : s.vdev = some vdev) (h : SunxiOpenampDeinit s.run vdev u) :
    ∃ l', Inv l₀ l' lost ⟨u, some vdev, false, s.deinits + 1⟩ := by
  obtain ⟨s₁, hstores, hdel⟩ := h
  have hs₁ := hs.use hstores
  have hi₁ : Tiled s₁ l := hs₁.tiled
  obtain ⟨vdev', hvdev', hshape, hmem⟩ := hs₁.up hup
  obtain rfl : vdev' = vdev := Option.some.inj (hvdev'.symm.trans hvdev)
  replace hmem : ∀ i < 2, vdev'.vq i ∈ s₁.live := hmem
  have hne : ∀ i < 2, vdev'.vq i ≠ 0 := fun i hi h0 => by
    have := (hi₁.nodes _ (hmem i hi)).2
    omega
  obtain ⟨s₂, hfree₂, hfree₃⟩ := (deleteVirtqueues_iff hshape hne).mp hdel
  obtain ⟨l₂, hi₂, htiles₂, hkeep⟩ := hi₁.released hfree₂
  obtain ⟨l₃, hi₃, htiles₃, -⟩ := hi₂.released hfree₃
  have hmem₂ : vdev'.vq 1 ∈ s₂.live := by
    cases hfree₃ with
    | free hl _ => exact hl
  rw [hkeep _ hmem₂] at htiles₃
  refine ⟨l₃, hi₃, fun x => ?_, ?_, fun _ h => (nomatch h), fun h => (nomatch h), ?_⟩
  · have h0 := hs₁.account x
    have h2 := htiles₂ x
    have h3 := htiles₃ x
    simp only [vqNodes, hup, hvdev, if_true, cover_cons, cover_nil, Bool.false_eq_true, if_false] at h0 ⊢
    omega
  · have h0 := hs.size
    rw [hup] at h0
    simpa using h0
  · rintro - v hv
    obtain rfl := Option.some.inj hv
    refine ⟨hshape, fun i hi => ?_⟩
    have hhas : (blockNode s₁.heap (vdev'.vq i)).Has (vdev'.vq i) := by
      obtain ⟨hnode, hblock⟩ := hi₁.nodes _ (hmem i hi)
      refine hnode.has ?_ ?_ <;> simp only [blockNode] <;> omega
    have hone := Seg.count_eq_one.mpr hhas
    have h2 := htiles₂ (vdev'.vq i)
    have h3 := htiles₃ (vdev'.vq i)
    obtain rfl | rfl : i = 0 ∨ i = 1 := by omega
    · omega
    · omega

theorem inv_step (hs : ∃ l lost, Inv l₀ l lost s) (hst : AmpStep s act t) : ∃ l lost, Inv l₀ l lost t := by
  obtain ⟨l, lost, hs⟩ := hs
  cases hst with
  | init hup h => exact hs.init hup h
  | use h => exact ⟨l, lost, hs.use h⟩
  | deinit hup hvdev h =>
    obtain ⟨l', h'⟩ := hs.deinit hup hvdev h
    exact ⟨l', lost, h'⟩
  | interrupt => exact ⟨l, lost, hs⟩

/-! ## The lookup of the interrupt -/

theorem mem_notified {vdev : Vdev} (hshape : vdev.Shape) {p : Nat} :
    p ∈ vdev.notified vring1Id ↔ ∃ i < 2, vdev.vringNotifyid i = vring1Id ∧ vdev.vq i = p := by
  have hid : vdevId ≠ vring1Id := by decide
  have hany : vring1Id ≠ rscNotifyIdAny := by decide
  have hzero : (0#32 : BitVec 32) ≠ vring1Id := by decide
  simp only [Vdev.notified, hshape.notifyid, hid, if_false, hany, or_false, List.mem_map, List.mem_filter,
    List.mem_range, decide_eq_true_eq]
  constructor
  · rintro ⟨i, ⟨-, hi⟩, hp⟩
    refine ⟨i, ?_, hi, hp⟩
    by_contra hge
    rw [(hshape.others i (by omega)).2] at hi
    exact hzero hi
  · rintro ⟨i, hlt, hi, hp⟩
    have htwo := hshape.two
    exact ⟨i, ⟨by omega, hi⟩, hp⟩

theorem Inv.free_iff (hs : Inv l₀ l lost s) (p : Nat) : s.run.heap.Free p ↔ 0 < cover l p := by
  rw [cover_pos]
  constructor
  · rintro ⟨l', hl', h⟩
    rwa [hl'.unique hs.tiled.free.chain] at h
  · exact fun h => ⟨l, hs.tiled.free.chain, h⟩

theorem Inv.usesNoFreed_iff (hs : Inv l₀ l lost s) : UsesNoFreed s act ↔ FindsNothing s act := by
  cases act with
  | init | use | deinit => exact Iff.rfl
  | interrupt word =>
    unfold UsesNoFreed FindsNothing sunxiOpenampReceive
    cases hup : s.up with
    | true =>
      -- the virtqueues are in use
      obtain ⟨vdev, hvdev, hshape, hmem⟩ := hs.up hup
      refine iff_of_true (fun p hp => ?_) (fun h => (nomatch h))
      simp only [hvdev] at hp
      obtain ⟨i, hi, -, rfl⟩ := (mem_notified hshape).mp hp
      rw [hs.free_iff, hs.tiled.cover_block (hmem i hi)]
      · exact Nat.lt_irrefl 0
      · obtain ⟨hnode, hblock⟩ := hs.tiled.nodes _ (hmem i hi)
        refine hnode.has ?_ ?_ <;> simp only [blockNode] <;> omega
    | false =>
      cases hvdev : s.vdev with
      | none => simp
      | some vdev =>
        obtain ⟨hshape, hfree⟩ := hs.down hup vdev hvdev
        constructor
        · rintro h - v hv i hi hid
          obtain rfl := Option.some.inj hv
          refine h _ ((mem_notified hshape).mpr ⟨i, hi, hid, rfl⟩) ((hs.free_iff _).mpr (hfree i hi))
        · intro h p hp
          obtain ⟨i, hi, hid, -⟩ := (mem_notified hshape).mp hp
          exact absurd hid (h rfl vdev rfl i hi)

end Amp

/-- In every run, the interrupts use no memory that a deinit gave back to the heap if and only if each of
those after a deinit finds no vring with its notifyid. -/
theorem no_freed_iff_along {s : Amp} {tr : List (AmpAct × Amp)} (hs : s.Initial) (h : Run AmpStep s tr) :
    Along UsesNoFreed s tr ↔ Along FindsNothing s tr := by
  obtain ⟨l₀, h0⟩ := hs.inv
  have hstep : ∀ s act t, (∃ l lost, Amp.Inv l₀ l lost s) → AmpStep s act t →
      ∃ l lost, Amp.Inv l₀ l lost t := fun _ _ _ hs hst => Amp.inv_step hs hst
  exact h.along_iff hstep (fun _ _ ⟨_, _, hs⟩ => hs.usesNoFreed_iff) ⟨l₀, [], h0⟩

/-- After `k` cycles the free list is the one before the first of them if and only if `k` is 0, and it has
lost at least `128 * k` bytes, so that the number of cycles has a bound. -/
theorem free_list_shrinks {s : Amp} {tr : List (AmpAct × Amp)} {l l' : List Seg} (hs : s.Initial)
    (h : Run AmpStep s tr) (hup : (endOf s tr).up = false) (hl : Chain s.run.heap .root l)
    (hl' : Chain (endOf s tr).run.heap .root l') :
    (l' = l ↔ (endOf s tr).deinits = 0) ∧ 128 * (endOf s tr).deinits + totalSize l' ≤ totalSize l := by
  obtain ⟨l₀, h0⟩ := hs.inv
  obtain rfl := hl.unique h0.tiled.free.chain
  have hstep : ∀ s act t, (∃ l₁ lost, Amp.Inv l l₁ lost s) → AmpStep s act t →
      ∃ l₁ lost, Amp.Inv l l₁ lost t := fun _ _ _ hs hst => Amp.inv_step hs hst
  obtain ⟨l₁, lost, h1⟩ := h.endOf hstep ⟨l, [], h0⟩
  obtain rfl := hl'.unique h1.tiled.free.chain
  have haccount : ∀ x, cover l x = cover (l' ++ lost) x := fun x => by
    have hnodes : (endOf s tr).vqNodes = [] := by
      unfold Amp.vqNodes
      cases (endOf s tr).vdev <;> simp [hup]
    rw [h1.account, hnodes, cover_nil, Nat.zero_add, cover_append]
  have htotal := totalSize_congr haccount
  have hsize := h1.size
  rw [totalSize_append] at htotal
  rw [hup, Bool.toNat_false, Nat.add_zero] at hsize
  refine ⟨⟨fun heq => ?_, fun hzero => ?_⟩, by omega⟩
  · rw [heq] at htotal
    omega
  · have hlost := h1.none hup hzero
    refine h1.tiled.free.separated.ext h0.tiled.free.separated
      (fun n hn => (h1.tiled.free.nodes n hn).size_pos) (fun n hn => (h0.tiled.free.nodes n hn).size_pos)
      fun x => ?_
    rw [haccount, hlost, List.append_nil]

/-! ## The cycle of the firmware -/

theorem heapStores_refl (s : HeapRun) : HeapStores s s := ⟨s.heap.mem, .write fun _ _ => rfl⟩

/-- The resource table of the firmware with other notifyids of the vrings. -/
def rscTableWith (notifyid : Nat → BitVec 32) : InitEnv :=
  { rscTableEnv with vring := fun i => ⟨16#32, notifyid i⟩ }

theorem vringsOk_rscTableWith (notifyid : Nat → BitVec 32) : (rscTableWith notifyid).VringsOk :=
  fun _ hi => ⟨hi, show 16 ≤ rprocMaxVringDesc by decide⟩

theorem metalAllocates_of_run {s : HeapRun} (hs : Reachable HeapStep HeapRun.Empty s) {size p : Nat}
    {h' : Heap}
    (hl : size + 16 < addrMod) (hp : p ≠ 0) (h : (nutHeapRootAlloc s.heap size).run 3 = some (p, h')) :
    MetalAllocates s size p { s with heap := h', live := p :: s.live } ∧
      Reachable HeapStep HeapRun.Empty { s with heap := h', live := p :: s.live } := by
  have hst := @HeapStep.alloc s size p h' hl (Comp.returns_of_run 3 h)
  rw [if_neg hp] at hst
  exact ⟨⟨hst, rfl⟩, hs.step hst⟩

theorem frees_of_run {s : HeapRun} (hs : Reachable HeapStep HeapRun.Empty s) {p : Nat} {h' : Heap}
    (hp : p ∈ s.live) (h : (nutHeapRootFree s.heap p).run 3 = some (0, h')) :
    HeapStep s (.free p) { s with heap := h', live := s.live.erase p } ∧
      Reachable HeapStep HeapRun.Empty { s with heap := h', live := s.live.erase p } := by
  have hst := @HeapStep.free s p 0 h' hp (Comp.returns_of_run 3 h)
  exact ⟨hst, hs.step hst⟩

set_option maxRecDepth 2000 in
/-- A cycle on a heap of one region of 16 KB: the free list, and the pointers that the table keeps. -/
theorem exists_cycle (notifyid : Nat → BitVec 32) : ∃ s t u : Amp, s.Initial ∧
    AmpStep s (.init (rscTableWith notifyid)) t ∧ AmpStep t .deinit u ∧ u.up = false ∧ u.deinits = 1 ∧
    u.vdev = some (.ofBlocks (rscTableWith notifyid) 4100 4176 4228 4416) ∧
    Chain s.run.heap .root [⟨4096, 16384⟩] ∧ Chain u.run.heap .root [⟨4224, 16256⟩] := by
  have henv := vringsOk_rscTableWith notifyid
  have h0 : Reachable HeapStep HeapRun.Empty freshHeap := .init ⟨rfl, rfl, rfl⟩
  have h1 := h0.step (@HeapStep.add _ ⟨4096, 16384⟩ _
    ⟨⟨rfl, rfl, by decide, by decide, by decide⟩, by simp [freshHeap]⟩ (Comp.returns_of_run 3 rfl))
  have h2 := @metalAllocates_of_run _ h1 sizeofRemoteprocVirtio 4100 _ (by decide) (by decide) rfl
  have h3 := @metalAllocates_of_run _ h2.2 (sizeofVirtioVringInfo * 2) 4176 _ (by decide) (by decide) rfl
  have h4 := @metalAllocates_of_run _ h3.2 (vqSize 16) 4228 _ (by decide) (by decide) rfl
  have h5 := @metalAllocates_of_run _ h4.2 (vqSize 16) 4416 _ (by decide) (by decide) rfl
  have h6 := @frees_of_run _ h5.2 4228 _ (by decide) rfl
  have h7 := @frees_of_run _ h6.2 4416 _ (by decide) rfl
  have hne : ∀ i < 2, (Vdev.ofBlocks (rscTableWith notifyid) 4100 4176 4228 4416).vq i ≠ 0 := by
    intro i hi
    obtain rfl | rfl : i = 0 ∨ i = 1 := by omega
    · exact (by decide : 4228 ≠ 0)
    · exact (by decide : 4416 ≠ 0)
  have hdel := (deleteVirtqueues_iff (Vdev.shape_ofBlocks henv 4100 4176 4228 4416) hne).mpr
    ⟨_, h6.1, h7.1⟩
  refine ⟨⟨_, none, false, 0⟩, ⟨_, _, true, 0⟩, ⟨_, _, false, 1⟩, ⟨h1, rfl, rfl, rfl⟩,
    .init rfl ⟨henv, 4100, 4176, 4228, 4416, _, _, ⟨_, _, h2.1, h3.1, heapStores_refl _⟩,
      ⟨_, h4.1, heapStores_refl _⟩, ⟨_, h5.1, heapStores_refl _⟩, rfl⟩,
    .deinit rfl rfl ⟨_, heapStores_refl _, hdel⟩, rfl, rfl, rfl, ?_, ?_⟩
  · exact ⟨rfl, by decide, rfl, rfl⟩
  · exact ⟨rfl, by decide, rfl, rfl⟩

/-- A host that gives the vrings the notifyids 2 and 3: the interrupt after the deinit finds nothing. -/
theorem no_freed_other_ids : ∃ s tr, s.Initial ∧ Run AmpStep s tr ∧
    tr.map (·.1) = [.init (rscTableWith fun i => if i = 0 then 2#32 else 3#32), .deinit, .interrupt 0#32] ∧
    Along UsesNoFreed s tr := by
  obtain ⟨s, t, u, hs, hinit, hdeinit, -, -, hvdev, -, -⟩ :=
    exists_cycle fun i => if i = 0 then 2#32 else 3#32
  have hrun : Run AmpStep s [(.init _, t), (.deinit, u), (.interrupt 0#32, u)] :=
    .cons hinit (.cons hdeinit (.cons (.interrupt _) (.nil _)))
  refine ⟨s, _, hs, hrun, rfl, (no_freed_iff_along hs hrun).mpr ?_⟩
  refine ⟨trivial, trivial, fun _ v hv i hi => ?_, trivial⟩
  rw [hvdev] at hv
  obtain rfl := Option.some.inj hv
  revert i
  decide

/-- With the resource table of the firmware, an interrupt after the deinit passes the released rx virtqueue
to `virtqueue_notification`. -/
theorem freed_after_deinit : ∃ s u tr, s.Initial ∧ Run AmpStep s tr ∧
    tr.map (·.1) = [.init rscTableEnv, .deinit, .interrupt 0#32] ∧ endOf s tr = u ∧
    4416 ∈ u.sunxiOpenampReceive 0#32 ∧ u.run.heap.Free 4416 ∧ ¬ Along UsesNoFreed s tr := by
  obtain ⟨s, t, u, hs, hinit, hdeinit, -, -, hvdev, -, hchain⟩ :=
    exists_cycle fun i => if i = 0 then vring0Id else vring1Id
  have hrun : Run AmpStep s [(.init rscTableEnv, t), (.deinit, u), (.interrupt 0#32, u)] :=
    .cons hinit (.cons hdeinit (.cons (.interrupt _) (.nil _)))
  have hused : 4416 ∈ u.sunxiOpenampReceive 0#32 := by
    unfold Amp.sunxiOpenampReceive
    rw [hvdev]
    decide
  have hfree : u.run.heap.Free 4416 := ⟨_, hchain, _, List.mem_singleton.mpr rfl, by decide⟩
  exact ⟨s, u, _, hs, hrun, rfl, rfl, hused, hfree, fun h => h.2.2.1 4416 hused hfree⟩

/-- One cycle of the firmware on a heap of 16 KB. -/
theorem free_list_16k : ∃ s tr, s.Initial ∧ Run AmpStep s tr ∧ tr.map (·.1) = [.init rscTableEnv, .deinit] ∧
    128 * (endOf s tr).deinits + 16256 ≤ 16384 := by
  obtain ⟨s, t, u, hs, hinit, hdeinit, hup, -, -, hchain, hchain'⟩ :=
    exists_cycle fun i => if i = 0 then vring0Id else vring1Id
  have hrun : Run AmpStep s [(.init rscTableEnv, t), (.deinit, u)] :=
    .cons hinit (.cons hdeinit (.nil _))
  exact ⟨s, _, hs, hrun, rfl, (free_list_shrinks hs hrun hup hchain hchain').2⟩

/-- It leaves another free list. -/
theorem cycle_leaks : ∃ s tr l l', s.Initial ∧ Run AmpStep s tr ∧
    tr.map (·.1) = [.init rscTableEnv, .deinit] ∧ (endOf s tr).up = false ∧ (endOf s tr).deinits = 1 ∧
    Chain s.run.heap .root l ∧ Chain (endOf s tr).run.heap .root l' ∧ l' ≠ l := by
  obtain ⟨s, t, u, hs, hinit, hdeinit, hup, hdeinits, -, hchain, hchain'⟩ :=
    exists_cycle fun i => if i = 0 then vring0Id else vring1Id
  exact ⟨s, [(.init rscTableEnv, t), (.deinit, u)], _, _, hs, .cons hinit (.cons hdeinit (.nil _)), rfl, hup,
    hdeinits, hchain, hchain', by decide⟩

end V85x
