import Mathlib.Algebra.Group.Int.Defs
import Mathlib.Algebra.Group.Nat.Defs
import Mathlib.Data.List.Basic
import Mathlib.Data.List.Induction
import Mathlib.Logic.Function.Basic

/-!
# Interrupt registration (`arch/riscv/sun8i-v85x/sunxi_irq.c`)

`g_irqvector` has an entry for each cause, and the entries of the peripherals lead to
`clic_common_handler`, which looks its handler up in `arch_irqs_desc`. `H` is the type of the handlers
of the callers and `D` the type of their data, `none` being NULL. An access outside a table is `none`,
and so is the overflow of a signed sum, which C leaves undefined.

`Registry` says what the tables are for: at most one handler for each interrupt. The first request
takes the interrupt; further ones return its number as well, but leave the handler until it is freed.
`dispatch_outstanding` follows a history of requests, frees and interrupts.

The numbers are not the same everywhere: `arch_request_irq` adds the offset of the peripherals to a number
that has it already (`irqTables_inRange_iff`), and `irq_vectors_init` disables the lines without it
(`irqVectorsInit_quiet_iff`).
-/

namespace V85x

def clicPeriphIrqOffset : Nat := 16
def e907SunxiIrqMax : Nat := 192
def clicIrqNum : Nat := e907SunxiIrqMax + clicPeriphIrqOffset
def coretIrqn : Nat := 7
def nmiExpn : Int := -2

/-- A `hal_irq_handler_t`. -/
inductive IrqHandler (H : Type)
  | null
  | clicNullHandler
  | fn (h : H)
deriving Repr, DecidableEq

/-- An entry of `g_irqvector`. -/
inductive IrqVector (H : Type)
  | handler (h : IrqHandler H)
  | defaultHandler
  | clicCommonHandler
  | sysTickHandler
deriving Repr, DecidableEq

structure ArchIrqDesc (H D : Type) where
  handleIrq : IrqHandler H
  data : Option D
deriving Repr, DecidableEq

/-- The tables, and the enable bits of the interrupt controller. -/
structure Irqs (H D : Type) where
  gIrqvector : Nat → IrqVector H
  archIrqsDesc : Nat → ArchIrqDesc H D
  enabled : Nat → Bool

variable {H D : Type} [DecidableEq H]

/-! ## The source -/

/-- `disable_irq` -/
def disableIrq (irqNum : Nat) (s : Irqs H D) : Irqs H D :=
  if nmiExpn ≠ irqNum then { s with enabled := Function.update s.enabled irqNum false } else s

/-- `arch_request_irq`: the return value and the tables. -/
def archRequestIrq (irq : Int) (handler : IrqHandler H) (data : Option D) (s : Irqs H D) :
    Option (Int × Irqs H D) :=
  if irq < clicPeriphIrqOffset then
    if irq < 0 then none
    else some (irq, { s with gIrqvector := Function.update s.gIrqvector irq.toNat (.handler handler) })
  else if 2 ^ 31 ≤ irq + clicPeriphIrqOffset then none
  else if irq + clicPeriphIrqOffset < clicIrqNum then
    let i := (irq - clicPeriphIrqOffset).toNat
    if handler ≠ .null ∧ (s.archIrqsDesc i).handleIrq = .clicNullHandler then
      some (irq, { s with archIrqsDesc := Function.update s.archIrqsDesc i ⟨handler, data⟩ })
    else some (irq, s)
  else some (-1, s)

/-- `arch_free_irq`. The data of the descriptor stays. -/
def archFreeIrq (irq : BitVec 32) (s : Irqs H D) : Option (Irqs H D) :=
  if irq.toNat < clicPeriphIrqOffset then
    some { s with gIrqvector := Function.update s.gIrqvector irq.toNat .defaultHandler }
  else if (irq + BitVec.ofNat 32 clicPeriphIrqOffset).toNat < clicIrqNum then
    let i := irq.toNat - clicPeriphIrqOffset
    if i < e907SunxiIrqMax then
      some { s with archIrqsDesc :=
        Function.update s.archIrqsDesc i { s.archIrqsDesc i with handleIrq := .clicNullHandler } }
    else none
  else some s

/-- `clic_common_handler`: the handlers that it calls, with their data. -/
def clicCommonHandler (mcause : BitVec 32) (s : Irqs H D) : Option (List (H × Option D)) :=
  let cause := (mcause &&& 0xfff#32).toNat
  if clicPeriphIrqOffset ≤ cause ∧ cause - clicPeriphIrqOffset < e907SunxiIrqMax then
    let desc := s.archIrqsDesc (cause - clicPeriphIrqOffset)
    match desc.handleIrq with
    | .fn h => some [(h, desc.data)]
    | .null | .clicNullHandler => some []
  else none

/-- `Default_IRQHandler` of `vectors.S`: the handlers that the vector of the cause calls through
`clic_common_handler`, or `none` when the vector is another function. -/
def defaultIrqHandler (mcause : BitVec 32) (s : Irqs H D) : Option (List (H × Option D)) :=
  match s.gIrqvector (mcause &&& 0x3ff#32).toNat with
  | .clicCommonHandler => clicCommonHandler mcause s
  | _ => none

/-- The body of the loop of `irq_vectors_init` for vector `i`. -/
def initVector (s : Irqs H D) (i : Nat) : Irqs H D :=
  let s := disableIrq (i - clicPeriphIrqOffset) s
  { s with
    gIrqvector := Function.update s.gIrqvector i .clicCommonHandler
    archIrqsDesc := Function.update s.archIrqsDesc (i - clicPeriphIrqOffset) ⟨.clicNullHandler, none⟩ }

/-- `irq_vectors_init` -/
def irqVectorsInit (s : Irqs H D) : Irqs H D :=
  let s := (List.range e907SunxiIrqMax).foldl (fun s k => initVector s (clicPeriphIrqOffset + k)) s
  { s with gIrqvector := Function.update s.gIrqvector coretIrqn .sysTickHandler }

/-! ## Histories -/

/-- What happens to the tables. `clic_null_handler` is local to the source file, so that a request has
NULL or a handler of the caller. -/
inductive IrqOp (H D : Type)
  | request (irq : Nat) (handler : Option H) (data : Option D)
  | free (irq : Nat)
  | interrupt (mcause : BitVec 32)
deriving Repr, DecidableEq

/-- The interrupt that an operation is about. -/
def IrqOp.irq : IrqOp H D → Nat
  | .request irq _ _ => irq
  | .free irq => irq
  | .interrupt mcause => (mcause &&& 0xfff#32).toNat

/-- The interrupt numbers of the peripherals. -/
def PeriphIrq (irq : Nat) : Prop := 16 ≤ irq ∧ irq ≤ 191

instance (irq : Nat) : Decidable (PeriphIrq irq) := inferInstanceAs (Decidable (_ ∧ _))

/-- The tables after an operation. A request has to return its number. -/
def IrqOp.exec : IrqOp H D → Irqs H D → Option (Irqs H D)
  | .request irq handler data, s => do
    let (ret, s) ← archRequestIrq irq (handler.elim .null .fn) data s
    if ret = irq then some s else none
  | .free irq, s => archFreeIrq (BitVec.ofNat 32 irq) s
  | .interrupt mcause, s => (defaultIrqHandler mcause s).map fun _ => s

def Irqs.execAll (ops : List (IrqOp H D)) (s : Irqs H D) : Option (Irqs H D) :=
  ops.foldlM (fun s op => op.exec s) s

/-! ## The registry -/

/-- The handler of each interrupt, with its data. -/
abbrev Registry (H D : Type) := Nat → Option (H × Option D)

/-- A request takes an interrupt that has no handler; a free gives it back. -/
def IrqOp.spec : IrqOp H D → Registry H D → Registry H D
  | .request irq (some h) data, reg => Function.update reg irq (some ((reg irq).getD (h, data)))
  | .request _ none _, reg => reg
  | .free irq, reg => Function.update reg irq none
  | .interrupt _, reg => reg

def registryOf (ops : List (IrqOp H D)) : Registry H D := ops.foldl (fun reg op => op.spec reg) fun _ => none

/-- After the last free of `irq` in `ops`, if any, no request named a handler for it. -/
def Unclaimed (irq : Nat) (ops : List (IrqOp H D)) : Prop :=
  ∃ old quiet, ops = old ++ quiet ∧ (old = [] ∨ ∃ l, old = l ++ [.free irq]) ∧
    ∀ h data, .request irq (some h) data ∉ quiet

/-- A request for `irq` with the handler `h` came when no handler was installed, and no free of `irq` came
after it. -/
def Outstanding (irq : Nat) (h : H) (data : Option D) (ops : List (IrqOp H D)) : Prop :=
  ∃ pre post, ops = pre ++ .request irq (some h) data :: post ∧ Unclaimed irq pre ∧ .free irq ∉ post

section

variable {irq : Nat} {ops : List (IrqOp H D)} {h : H} {data : Option D} {op : IrqOp H D}

omit [DecidableEq H]

@[simp] theorem registryOf_snoc : registryOf (ops ++ [op]) = op.spec (registryOf ops) := by
  simp [registryOf]

theorem unclaimed_snoc : Unclaimed irq (ops ++ [op]) ↔
    op = .free irq ∨ Unclaimed irq ops ∧ ∀ h data, op ≠ .request irq (some h) data := by
  constructor
  · rintro ⟨old, quiet, he, hold, hq⟩
    rcases List.eq_nil_or_concat' quiet with rfl | ⟨quiet, x, rfl⟩
    · rw [List.append_nil] at he
      rcases hold with rfl | ⟨l, rfl⟩
      · simp at he
      · exact .inl (List.singleton_inj.mp (List.append_inj' he rfl).2)
    · rw [← List.append_assoc] at he
      obtain ⟨rfl, hx⟩ := List.append_inj' he rfl
      obtain rfl : op = x := by simpa using hx
      exact .inr ⟨⟨old, quiet, rfl, hold, fun h data hm => hq h data (by simp [hm])⟩,
        fun h data hop => hq h data (by simp [hop])⟩
  · rintro (rfl | ⟨⟨old, quiet, rfl, hold, hq⟩, hop⟩)
    · exact ⟨ops ++ [.free irq], [], by simp, .inr ⟨ops, rfl⟩, by simp⟩
    · refine ⟨old, quiet ++ [op], by simp, hold, fun h data hm => ?_⟩
      rcases List.mem_append.mp hm with hm | hm
      · exact hq h data hm
      · exact hop h data (List.mem_singleton.mp hm).symm

theorem outstanding_snoc : Outstanding irq h data (ops ++ [op]) ↔
    op = .request irq (some h) data ∧ Unclaimed irq ops ∨ Outstanding irq h data ops ∧ op ≠ .free irq := by
  constructor
  · rintro ⟨pre, post, he, hpre, hpost⟩
    rcases List.eq_nil_or_concat' post with rfl | ⟨post, x, rfl⟩
    · obtain ⟨rfl, hop⟩ := List.append_inj' he rfl
      exact .inl ⟨by simpa using hop, hpre⟩
    · rw [← List.cons_append, ← List.append_assoc] at he
      obtain ⟨rfl, hx⟩ := List.append_inj' he rfl
      obtain rfl : op = x := by simpa using hx
      exact .inr ⟨⟨pre, post, rfl, hpre, fun hm => hpost (by simp [hm])⟩,
        fun hop => hpost (by simp [hop])⟩
  · rintro (⟨rfl, hpre⟩ | ⟨⟨pre, post, rfl, hpre, hpost⟩, hop⟩)
    · exact ⟨ops, [], rfl, hpre, by simp⟩
    · refine ⟨pre, post ++ [op], by simp, hpre, fun hm => ?_⟩
      rcases List.mem_append.mp hm with hm | hm
      · exact hpost hm
      · exact hop (List.mem_singleton.mp hm).symm

/-- The registry after a history: an interrupt has no handler if and only if nobody claimed it, and the
handler of the outstanding request otherwise. -/
theorem registryOf_iff : (registryOf ops irq = none ↔ Unclaimed irq ops) ∧
    ∀ h data, registryOf ops irq = some (h, data) ↔ Outstanding irq h data ops := by
  induction ops using List.reverseRecOn with
  | nil => exact ⟨iff_of_true rfl ⟨[], [], rfl, .inl rfl, by simp⟩,
      fun h data => iff_of_false (by simp [registryOf]) (by rintro ⟨pre, post, he, -⟩; simp at he)⟩
  | append_singleton ops op ih =>
    obtain ⟨ihn, ihs⟩ := ih
    simp only [registryOf_snoc, unclaimed_snoc, outstanding_snoc, ← ihn, ← ihs]
    cases op with
    | request i handler d =>
      cases handler with
      | none => simp [IrqOp.spec]
      | some f =>
        by_cases hi : i = irq
        · subst hi
          cases hreg : registryOf ops i with
          | none => simp [IrqOp.spec, hreg]
          | some p => simp [IrqOp.spec, hreg]
        · simp [IrqOp.spec, Function.update_of_ne (Ne.symm hi), hi]
    | free i =>
      by_cases hi : i = irq
      · subst hi
        simp [IrqOp.spec]
      · simp [IrqOp.spec, Function.update_of_ne (Ne.symm hi), hi]
    | interrupt mcause => simp [IrqOp.spec]

end

/-! ## The tables follow the registry -/

/-- The vector of each peripheral interrupt leads to its descriptor, which has the handler of the
registry. -/
def Irqs.Tracks (s : Irqs H D) (reg : Registry H D) : Prop :=
  ∀ irq, PeriphIrq irq → s.gIrqvector irq = .clicCommonHandler ∧
    match reg irq with
    | none => (s.archIrqsDesc (irq - 16)).handleIrq = .clicNullHandler
    | some (h, data) => s.archIrqsDesc (irq - 16) = ⟨.fn h, data⟩

section

variable {s t : Irqs H D} {reg : Registry H D} {irq : Nat} {mcause : BitVec 32}

omit [DecidableEq H] in
theorem initVector_eq (s : Irqs H D) (k : Nat) : initVector s (clicPeriphIrqOffset + k) =
    { gIrqvector := Function.update s.gIrqvector (clicPeriphIrqOffset + k) .clicCommonHandler
      archIrqsDesc := Function.update s.archIrqsDesc k ⟨.clicNullHandler, none⟩
      enabled := Function.update s.enabled k false } := by
  rw [initVector, disableIrq, if_pos (by simp only [nmiExpn]; omega), Nat.add_sub_cancel_left]

/-- A loop that has filled the places of `p` fills one more. -/
theorem update_filled {α : Type} {p q : Nat → Prop} [DecidablePred p] [DecidablePred q] {i : Nat}
    (hq : ∀ m, q m ↔ p m ∨ m = i) (f : Nat → α) (v : α) :
    Function.update (fun m => if p m then v else f m) i v = fun m => if q m then v else f m := by
  funext m
  by_cases hm : m = i
  · subst hm
    rw [Function.update_self, if_pos ((hq m).mpr (.inr rfl))]
  · rw [Function.update_of_ne hm]
    exact if_congr (by rw [hq, or_iff_left hm]) rfl rfl

omit [DecidableEq H] in
/-- The tables after the loop of `irq_vectors_init` has run for `n` vectors. -/
theorem initVectors (s : Irqs H D) (n : Nat) :
    (List.range n).foldl (fun s k => initVector s (clicPeriphIrqOffset + k)) s =
      { gIrqvector := fun m =>
          if clicPeriphIrqOffset ≤ m ∧ m < clicPeriphIrqOffset + n then .clicCommonHandler
          else s.gIrqvector m
        archIrqsDesc := fun m => if m < n then ⟨.clicNullHandler, none⟩ else s.archIrqsDesc m
        enabled := fun m => if m < n then false else s.enabled m } := by
  induction n with
  | zero => simp [show ∀ m, ¬ (clicPeriphIrqOffset ≤ m ∧ m < clicPeriphIrqOffset) by omega]
  | succ n ih =>
    have hvec : ∀ m, clicPeriphIrqOffset ≤ m ∧ m < clicPeriphIrqOffset + (n + 1) ↔
        (clicPeriphIrqOffset ≤ m ∧ m < clicPeriphIrqOffset + n) ∨ m = clicPeriphIrqOffset + n := by omega
    have hlt : ∀ m, m < n + 1 ↔ m < n ∨ m = n := by omega
    rw [List.range_succ, List.foldl_append, ih, List.foldl_cons, List.foldl_nil, initVector_eq]
    simp only [update_filled hvec, update_filled hlt]

omit [DecidableEq H] in
theorem irqVectorsInit_eq (s : Irqs H D) : irqVectorsInit s =
    { gIrqvector := fun m =>
        if m = 7 then .sysTickHandler else if 16 ≤ m ∧ m < 208 then .clicCommonHandler else s.gIrqvector m
      archIrqsDesc := fun m => if m < 192 then ⟨.clicNullHandler, none⟩ else s.archIrqsDesc m
      enabled := fun m => if m < 192 then false else s.enabled m } := by
  rw [irqVectorsInit, initVectors]
  congr 1
  funext m
  rw [Function.update_apply]
  rfl

omit [DecidableEq H] in
theorem tracks_init (s : Irqs H D) : (irqVectorsInit s).Tracks fun _ => none := by
  rintro irq ⟨h16, h191⟩
  rw [irqVectorsInit_eq]
  simp only
  rw [if_neg (by omega), if_pos (by omega), if_pos (by omega)]
  exact ⟨rfl, rfl⟩

/-- `vectors.S` and `clic_common_handler` mask the cause differently, but agree on the peripherals. -/
theorem cause_masks (h : PeriphIrq (mcause &&& 0xfff#32).toNat) :
    (mcause &&& 0x3ff#32).toNat = (mcause &&& 0xfff#32).toNat := by
  obtain ⟨-, h⟩ := h
  have h12 : (mcause &&& 0xfff#32).toNat = mcause.toNat % 2 ^ 12 := by
    rw [BitVec.toNat_and]
    exact Nat.and_two_pow_sub_one_eq_mod _ 12
  have h10 : (mcause &&& 0x3ff#32).toNat = mcause.toNat % 2 ^ 10 := by
    rw [BitVec.toNat_and]
    exact Nat.and_two_pow_sub_one_eq_mod _ 10
  omega

omit [DecidableEq H] in
/-- An interrupt calls the handler of the registry, once, and nothing without one. -/
theorem defaultIrqHandler_tracks (hs : s.Tracks reg) (h : PeriphIrq (mcause &&& 0xfff#32).toNat) :
    defaultIrqHandler mcause s = some (reg (mcause &&& 0xfff#32).toNat).toList := by
  obtain ⟨hv, hd⟩ := hs _ h
  have hmask := cause_masks h
  obtain ⟨h16, h191⟩ := h
  simp only [defaultIrqHandler, hmask, hv, clicCommonHandler]
  rw [if_pos ⟨h16, show _ - 16 < 192 by omega⟩]
  cases hreg : reg (mcause &&& 0xfff#32).toNat with
  | none =>
    simp only [hreg] at hd
    simp only [clicPeriphIrqOffset, hd, Option.toList_none]
  | some p =>
    simp only [hreg] at hd
    simp only [clicPeriphIrqOffset, hd, Option.toList_some]

theorem archRequestIrq_tracks (hs : s.Tracks reg) (hirq : PeriphIrq irq) (handler : Option H)
    (data : Option D) :
    ∃ t : Irqs H D, archRequestIrq irq (handler.elim .null .fn) data s = some ((irq : Int), t) ∧
      t.Tracks ((IrqOp.request irq handler data).spec reg) := by
  obtain ⟨hv, hd⟩ := hs irq hirq
  have hi : ((irq : Int) - (clicPeriphIrqOffset : Nat)).toNat = irq - 16 := by
    simp only [clicPeriphIrqOffset]
    omega
  obtain ⟨h16, h191⟩ := hirq
  rw [archRequestIrq, if_neg (by simp only [clicPeriphIrqOffset]; omega),
    if_neg (by simp only [clicPeriphIrqOffset]; omega),
    if_pos (by simp only [clicPeriphIrqOffset, clicIrqNum, e907SunxiIrqMax]; omega)]
  simp only [hi]
  cases handler with
  | none => exact ⟨s, by simp, hs⟩
  | some f =>
    cases hreg : reg irq with
    | some p =>
      simp only [hreg] at hd
      refine ⟨s, by simp [hd], ?_⟩
      rw [show (IrqOp.request irq (some f) data).spec reg = reg by
        simp [IrqOp.spec, hreg, Function.update_eq_self_iff]]
      exact hs
    | none =>
      simp only [hreg] at hd
      refine ⟨_, by simp [hd]; rfl, fun j hj => ?_⟩
      obtain ⟨hvj, hdj⟩ := hs j hj
      refine ⟨hvj, ?_⟩
      by_cases he : j = irq
      · subst he
        simp [IrqOp.spec, hreg]
      · have hne : j - 16 ≠ irq - 16 := by have := hj.1; omega
        simpa [IrqOp.spec, Function.update_of_ne he, Function.update_of_ne hne] using hdj

omit [DecidableEq H] in
theorem archFreeIrq_tracks (hs : s.Tracks reg) (hirq : PeriphIrq irq) :
    ∃ t, archFreeIrq (BitVec.ofNat 32 irq) s = some t ∧
      t.Tracks ((IrqOp.free irq : IrqOp H D).spec reg) := by
  obtain ⟨h16, h191⟩ := hirq
  have hn : (BitVec.ofNat 32 irq).toNat = irq := by rw [BitVec.toNat_ofNat, Nat.mod_eq_of_lt (by omega)]
  have hadd : (BitVec.ofNat 32 irq + BitVec.ofNat 32 clicPeriphIrqOffset).toNat = irq + 16 := by
    rw [← BitVec.ofNat_add, BitVec.toNat_ofNat, Nat.mod_eq_of_lt (by simp only [clicPeriphIrqOffset]; omega)]
    rfl
  rw [archFreeIrq, hn, hadd, if_neg (by rw [clicPeriphIrqOffset]; omega),
    if_pos (by rw [clicIrqNum, e907SunxiIrqMax, clicPeriphIrqOffset]; omega)]
  simp only
  rw [if_pos (by rw [e907SunxiIrqMax, clicPeriphIrqOffset]; omega)]
  refine ⟨_, rfl, fun j hj => ?_⟩
  obtain ⟨hvj, hdj⟩ := hs j hj
  refine ⟨hvj, ?_⟩
  by_cases he : j = irq
  · subst he
    simp [IrqOp.spec, clicPeriphIrqOffset]
  · have hne : j - 16 ≠ irq - 16 := by have := hj.1; omega
    simpa [IrqOp.spec, clicPeriphIrqOffset, Function.update_of_ne he, Function.update_of_ne hne] using hdj

theorem IrqOp.exec_tracks (hs : s.Tracks reg) (op : IrqOp H D) (hop : PeriphIrq op.irq) :
    ∃ t, op.exec s = some t ∧ t.Tracks (op.spec reg) := by
  cases op with
  | request irq handler data =>
    obtain ⟨t, hreq, ht⟩ := archRequestIrq_tracks hs (show PeriphIrq irq from hop) handler data
    exact ⟨t, by simp [exec, hreq], ht⟩
  | free irq => exact archFreeIrq_tracks hs hop
  | interrupt mcause => exact ⟨s, by simp [exec, defaultIrqHandler_tracks hs hop], hs⟩

/-- A history. -/
theorem execAll_tracks (ops : List (IrqOp H D)) (hops : ∀ op ∈ ops, PeriphIrq op.irq) (s : Irqs H D) :
    ∃ t, Irqs.execAll ops (irqVectorsInit s) = some t ∧ t.Tracks (registryOf ops) := by
  induction ops using List.reverseRecOn with
  | nil => exact ⟨_, rfl, tracks_init s⟩
  | append_singleton ops op ih =>
    obtain ⟨t, ht, htr⟩ := ih fun op hop => hops op (by simp [hop])
    obtain ⟨u, hu, hur⟩ := op.exec_tracks htr (hops op (by simp))
    refine ⟨u, ?_, by rw [registryOf_snoc]; exact hur⟩
    simp only [Irqs.execAll, List.foldlM_append] at ht ⊢
    simp [ht, hu]

end

/-- After every history of requests, frees and interrupts of the peripherals from `irq_vectors_init` on,
in which every request returns its number, an interrupt calls the handler of the outstanding request
for it, with its data and once, and no handler when there is none. -/
theorem dispatch_outstanding (s : Irqs H D) (ops : List (IrqOp H D)) (hops : ∀ op ∈ ops, PeriphIrq op.irq) :
    ∃ t, Irqs.execAll ops (irqVectorsInit s) = some t ∧
      ∀ (irq : Nat) (mcause : BitVec 32), PeriphIrq irq → (mcause &&& 0xfff#32).toNat = irq →
        (∀ h data, Outstanding irq h data ops → defaultIrqHandler mcause t = some [(h, data)]) ∧
        ((∀ h data, ¬ Outstanding irq h data ops) → defaultIrqHandler mcause t = some []) := by
  obtain ⟨t, ht, htr⟩ := execAll_tracks ops hops s
  refine ⟨t, ht, ?_⟩
  rintro irq mcause hirq rfl
  rw [defaultIrqHandler_tracks htr hirq]
  constructor
  · intro h data hout
    rw [(registryOf_iff.2 h data).mpr hout]
    rfl
  · intro hout
    cases hreg : registryOf ops (mcause &&& 0xfff#32).toNat with
    | none => rfl
    | some p => exact absurd ((registryOf_iff.2 p.1 p.2).mp hreg) (hout p.1 p.2)

/-- UART0 requested, freed and requested again with another handler. -/
theorem dispatch_uart0 :
    ∃ t, Irqs.execAll [.request 18 (some false) (some 1), .free 18, .request 18 (some true) (some 2)]
        (irqVectorsInit (⟨fun _ => .defaultHandler, fun _ => ⟨.null, none⟩, fun _ => true⟩ : Irqs Bool Nat)) =
        some t ∧ defaultIrqHandler 0x80000012#32 t = some [(true, some 2)] := by
  obtain ⟨t, ht, hirq⟩ := dispatch_outstanding
    (⟨fun _ => .defaultHandler, fun _ => ⟨.null, none⟩, fun _ => true⟩ : Irqs Bool Nat)
    [.request 18 (some false) (some 1), .free 18, .request 18 (some true) (some 2)] (by decide)
  refine ⟨t, ht, (hirq 18 0x80000012#32 (by decide) (by decide)).1 _ _ ?_⟩
  exact ⟨[.request 18 (some false) (some 1), .free 18], [], rfl,
    ⟨[.request 18 (some false) (some 1), .free 18], [], rfl, .inr ⟨[_], rfl⟩, by simp⟩, by simp⟩

/-- Both requests return their number, and the interrupt calls the handler of the first. -/
theorem second_request_ignored :
    ∃ t, Irqs.execAll [.request 18 (some false) (some 1), .request 18 (some true) (some 2)]
        (irqVectorsInit (⟨fun _ => .defaultHandler, fun _ => ⟨.null, none⟩, fun _ => true⟩ : Irqs Bool Nat)) =
        some t ∧ defaultIrqHandler 0x80000012#32 t = some [(false, some 1)] := by
  obtain ⟨t, ht, htr⟩ := execAll_tracks
    [IrqOp.request 18 (some false) (some 1), .request 18 (some true) (some 2)] (by decide)
    (⟨fun _ => .defaultHandler, fun _ => ⟨.null, none⟩, fun _ => true⟩ : Irqs Bool Nat)
  exact ⟨t, ht, defaultIrqHandler_tracks htr (by decide)⟩

/-! ## The range of the interrupt numbers -/

/-- A request stays inside the tables. It returns its number, not negative, for every interrupt with an
entry in `g_irqvector`, and -1 for every other one. -/
def RequestInRange (irq : Int) (handler : IrqHandler H) (data : Option D) (s : Irqs H D) : Prop :=
  ∃ ret t, archRequestIrq irq handler data s = some (ret, t) ∧
    (0 ≤ ret ↔ 0 ≤ irq ∧ irq < clicIrqNum) ∧ (¬ (0 ≤ irq ∧ irq < clicIrqNum) → ret = -1)

/-- A free stays inside the tables. -/
def FreeInRange (irq : BitVec 32) (s : Irqs H D) : Prop := ∃ t, archFreeIrq irq s = some t

section

variable {irq : Int} {handler : IrqHandler H} {data : Option D} {s : Irqs H D}

theorem archRequestIrq_of_neg (h : irq < 0) : archRequestIrq irq handler data s = none := by
  rw [archRequestIrq, if_pos (by simp only [clicPeriphIrqOffset]; omega), if_pos h]

theorem archRequestIrq_of_accepted (handler : IrqHandler H) (data : Option D) (s : Irqs H D)
    (h0 : 0 ≤ irq) (h : irq < 192) :
    ∃ t, archRequestIrq irq handler data s = some (irq, t) := by
  by_cases hcore : irq < clicPeriphIrqOffset
  · rw [archRequestIrq, if_pos hcore, if_neg (by omega)]
    exact ⟨_, rfl⟩
  · rw [archRequestIrq, if_neg hcore, if_neg (by simp only [clicPeriphIrqOffset]; omega),
      if_pos (by simp only [clicPeriphIrqOffset, clicIrqNum, e907SunxiIrqMax]; omega)]
    simp only
    split <;> exact ⟨_, rfl⟩

theorem archRequestIrq_of_refused (h : 192 ≤ irq) (hmax : irq < 2 ^ 31 - 16) :
    archRequestIrq irq handler data s = some (-1, s) := by
  rw [archRequestIrq, if_neg (by simp only [clicPeriphIrqOffset]; omega),
    if_neg (by simp only [clicPeriphIrqOffset]; omega),
    if_neg (by simp only [clicPeriphIrqOffset, clicIrqNum, e907SunxiIrqMax]; omega)]

theorem archRequestIrq_of_overflow (h : 2 ^ 31 - 16 ≤ irq) :
    archRequestIrq irq handler data s = none := by
  rw [archRequestIrq, if_neg (by simp only [clicPeriphIrqOffset]; omega),
    if_pos (by simp only [clicPeriphIrqOffset]; omega)]

/-- The offset is counted twice: the last 16 interrupts have a vector and a descriptor, but no request
gets them. -/
theorem requestInRange_iff (handler : IrqHandler H) (data : Option D) (s : Irqs H D) :
    RequestInRange irq handler data s ↔ 0 ≤ irq ∧ irq < 192 ∨ 208 ≤ irq ∧ irq < 2 ^ 31 - 16 := by
  have hnum : (clicIrqNum : Int) = 208 := rfl
  constructor
  · rintro ⟨ret, t, hreq, hret, -⟩
    have hneg : ¬ irq < 0 := fun h => by simp [archRequestIrq_of_neg h] at hreq
    have hmax : ¬ 2 ^ 31 - 16 ≤ irq := fun h => by simp [archRequestIrq_of_overflow h] at hreq
    by_cases h : 192 ≤ irq
    · rw [archRequestIrq_of_refused h (by omega)] at hreq
      obtain rfl : -1 = ret := (Prod.ext_iff.mp (Option.some.inj hreq)).1
      omega
    · omega
  · rintro (⟨h0, h⟩ | ⟨h, hmax⟩)
    · obtain ⟨t, ht⟩ := archRequestIrq_of_accepted handler data s h0 h
      exact ⟨irq, t, ht, by omega, by omega⟩
    · exact ⟨-1, s, archRequestIrq_of_refused (by omega) hmax, by omega, fun _ => rfl⟩

omit [DecidableEq H] in
/-- The sum of a free wraps for the last 16 numbers, and these pass the test. -/
theorem freeInRange_iff (irq : BitVec 32) (s : Irqs H D) :
    FreeInRange irq s ↔ irq.toNat < 2 ^ 32 - 16 := by
  have hoff : clicPeriphIrqOffset = 16 := rfl
  have hmax : e907SunxiIrqMax = 192 := rfl
  have hnum : clicIrqNum = 208 := rfl
  have hsum : (irq + BitVec.ofNat 32 clicPeriphIrqOffset).toNat = (irq.toNat + 16) % 2 ^ 32 :=
    BitVec.toNat_add irq _
  have hlt := irq.isLt
  rw [FreeInRange, archFreeIrq, hsum]
  by_cases hcore : irq.toNat < clicPeriphIrqOffset
  · rw [if_pos hcore]
    exact iff_of_true ⟨_, rfl⟩ (by omega)
  · rw [if_neg hcore]
    by_cases hwrap : irq.toNat < 2 ^ 32 - 16
    · rw [Nat.mod_eq_of_lt (by omega)]
      refine iff_of_true ?_ hwrap
      by_cases hin : irq.toNat + 16 < clicIrqNum
      · rw [if_pos hin]
        simp only
        rw [if_pos (by omega)]
        exact ⟨_, rfl⟩
      · rw [if_neg hin]
        exact ⟨_, rfl⟩
    · rw [if_pos (by omega)]
      simp only
      rw [if_neg (by omega)]
      exact iff_of_false (by simp) hwrap

end

/-- For which 32-bit numbers a request, which reads them with a sign, and a free, which reads them without
one, are in range. -/
theorem irqTables_inRange_iff (irq : BitVec 32) (handler : IrqHandler H) (data : Option D) (s : Irqs H D) :
    (RequestInRange irq.toInt handler data s ↔
      irq.toNat < 192 ∨ 208 ≤ irq.toNat ∧ irq.toNat < 2 ^ 31 - 16) ∧
    (FreeInRange irq s ↔ irq.toNat < 2 ^ 32 - 16) := by
  refine ⟨?_, freeInRange_iff irq s⟩
  rw [requestInRange_iff, BitVec.toInt_eq_toNat_cond]
  have hlt := irq.isLt
  split <;> omega

/-- A request for the NMI writes in front of the vectors, one for an interrupt that has a vector is refused,
and a free of the NMI writes outside the descriptors. -/
theorem irqTables_outOfRange :
    ∃ s : Irqs Bool Nat, (s.gIrqvector 200 = .clicCommonHandler ∧
      archRequestIrq 200 (.fn true) none s = some (-1, s)) ∧
      archRequestIrq nmiExpn (.fn true) none s = none ∧ archFreeIrq (BitVec.ofInt 32 nmiExpn) s = none := by
  refine ⟨irqVectorsInit ⟨fun _ => .defaultHandler, fun _ => ⟨.null, none⟩, fun _ => true⟩,
    ⟨?_, ?_⟩, ?_, ?_⟩
  · rw [irqVectorsInit_eq]
    rfl
  · exact archRequestIrq_of_refused (by decide) (by decide)
  · exact archRequestIrq_of_neg (by decide)
  · rfl

/-! ## What `irq_vectors_init` leaves -/

/-- Every peripheral interrupt is disabled and leads to the null handler, and the vectors of the core are
those before but for the timer. -/
structure QuietTable (s t : Irqs H D) : Prop where
  disabled : ∀ n, clicPeriphIrqOffset ≤ n → n < clicIrqNum → t.enabled n = false
  vector : ∀ n, clicPeriphIrqOffset ≤ n → n < clicIrqNum → t.gIrqvector n = .clicCommonHandler
  desc : ∀ n, clicPeriphIrqOffset ≤ n → n < clicIrqNum →
    t.archIrqsDesc (n - clicPeriphIrqOffset) = ⟨.clicNullHandler, none⟩
  coret : t.gIrqvector coretIrqn = .sysTickHandler
  core : ∀ n < clicPeriphIrqOffset, n ≠ coretIrqn → t.gIrqvector n = s.gIrqvector n

omit [DecidableEq H] in
/-- The table is quiet if and only if the last 16 interrupts were disabled before: the loop disables the
lines of the first ones and of the core instead. -/
theorem irqVectorsInit_quiet_iff (s : Irqs H D) :
    QuietTable s (irqVectorsInit s) ↔ ∀ n, 192 ≤ n → n < 208 → s.enabled n = false := by
  rw [irqVectorsInit_eq]
  constructor
  · intro h n h192 h208
    have hn := h.disabled n (Nat.le_trans (by decide) h192) h208
    simp only at hn
    rwa [if_neg (by omega)] at hn
  · intro h
    constructor
    case disabled =>
      intro n _ h208
      simp only
      split
      · rfl
      · exact h n (by omega) h208
    case vector =>
      intro n h16 h208
      have hne : n ≠ 7 := by
        rintro rfl
        exact absurd h16 (by decide)
      simp only
      rw [if_neg hne, if_pos ⟨h16, h208⟩]
    case desc =>
      intro n h16 h208
      have hlt : n - clicPeriphIrqOffset < 192 := Nat.sub_lt_left_of_lt_add h16 h208
      simp only
      rw [if_pos hlt]
    case coret => rfl
    case core =>
      intro n h16 hn
      simp only
      rw [if_neg (show n ≠ 7 from hn), if_neg fun h => absurd h.1 (Nat.not_le.mpr h16)]

/-- A line that the boot loader left enabled stays enabled. -/
theorem irqVectorsInit_not_quiet :
    ∃ s : Irqs Bool Nat, (irqVectorsInit s).enabled 200 = true ∧ ¬ QuietTable s (irqVectorsInit s) := by
  have h200 : (irqVectorsInit (⟨fun _ => .defaultHandler, fun _ => ⟨.null, none⟩, fun n => n == 200⟩ :
      Irqs Bool Nat)).enabled 200 = true := by
    rw [irqVectorsInit_eq]
    rfl
  refine ⟨_, h200, fun h => ?_⟩
  have hquiet := h.disabled 200 (by decide) (by decide)
  rw [h200] at hquiet
  cases hquiet

end V85x
