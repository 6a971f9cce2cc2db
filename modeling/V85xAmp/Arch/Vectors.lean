import V85xAmp.Lib.Rv32

/-!
# The trap entries (`vectors.S`)

The code of `Default_IRQHandler`, `trap` and `Default_Handler`, with double floating-point registers
(`FREGBYTES` is 8). `ipush` and `ipop` are the two instructions of the core that save and restore the
registers of an interrupt; `ipop` ends with an `mret`.
-/

namespace V85x.Vectors

open Firmware.Rv32

inductive Label
  | defaultIrqHandler
  | fRegNotSave1
  | fRegNotLoad
  | trap
  | lirq
  | defaultHandler
  | nmiHandler
deriving Repr, DecidableEq

inductive Symbol
  | gIrqvector
  | gNmivector
  | gTrapSp
  | trapC
deriving Repr, DecidableEq

inductive Custom
  | ipush
  | ipop
deriving Repr, DecidableEq

abbrev Code := List (Instr Label Symbol Custom)

abbrev sp : Reg := 2

abbrev t0 : Reg := 5

abbrev t1 : Reg := 6

abbrev t2 : Reg := 7

abbrev a0 : Reg := 10

/-! ## The source -/

/-- `ft0`–`ft7`, `fa0`–`fa7` and `ft8`–`ft11`, at multiples of `FREGBYTES`. -/
def fRegs : List (Reg × Nat) :=
  [(0, 0 * 8), (1, 1 * 8), (2, 2 * 8), (3, 3 * 8), (4, 4 * 8), (5, 5 * 8), (6, 6 * 8), (7, 7 * 8),
    (10, 8 * 8), (11, 9 * 8), (12, 10 * 8), (13, 11 * 8), (14, 12 * 8), (15, 13 * 8), (16, 14 * 8),
    (17, 15 * 8), (28, 16 * 8), (29, 17 * 8), (30, 18 * 8), (31, 19 * 8)]

/-- From `Default_IRQHandler` to its branch. -/
def irqEnter : Code :=
  [.custom .ipush,
    .li a0 0x8#32,
    .csrc .mstatus a0,
    .csrr t1 .mstatus,
    .srli t1 t1 13,
    .andi t1 t1 0x3#32,
    .li t0 0x3#32]

/-- What the branch to `.F_RegNotSave1` leaves out. -/
def irqSave : Code :=
  [.li t0 0x6000#32, .csrs .mstatus t0, .addi sp sp (-160#32)] ++ fsaves sp fRegs ++
    [.li t0 0x6000#32, .csrc .mstatus t0, .li t0 0x4000#32, .csrs .mstatus t0]

/-- From `.F_RegNotSave1` to the call. -/
def irqVector : Code :=
  [.addi sp sp (-8#32),
    .sw t1 0#32 sp,
    .csrr t1 .mcause,
    .andi t1 t1 0x3ff#32,
    .slli t1 t1 2,
    .la t0 .gIrqvector,
    .add t0 t0 t1,
    .lw t2 0#32 t0]

/-- From the call to the second branch. -/
def irqResume : Code :=
  [.li t0 0x1880#32, .csrs .mstatus t0, .lw t1 0#32 sp, .addi sp sp 8#32, .li t0 0x3#32]

/-- What the branch to `.F_RegNotLoad` leaves out. -/
def irqLoad : Code :=
  [.li t0 0x6000#32, .csrs .mstatus t0] ++ frestores sp fRegs ++
    [.addi sp sp 160#32, .li t0 0x6000#32, .csrc .mstatus t0, .li t0 0x4000#32, .csrs .mstatus t0]

/-- From `.F_RegNotLoad` to the end. -/
def fRegNotLoad : Code := [.li a0 0x8#32, .csrs .mstatus a0, .custom .ipop, .mret]

def fRegNotSave1 : Code :=
  irqVector ++ .jalr t2 :: (irqResume ++ .branch .ne t1 t0 .fRegNotLoad :: (irqLoad ++ fRegNotLoad))

def defaultIRQHandler : Code :=
  irqEnter ++ .branch .ne t1 t0 .fRegNotSave1 :: (irqSave ++ fRegNotSave1)

/-- `x1` to `x31` without `t0`, at four times their numbers less one. -/
def trapRegs : List (Reg × Nat) :=
  [(1, 0), (2, 4), (3, 8), (4, 12), (6, 20), (7, 24), (8, 28), (9, 32), (10, 36), (11, 40), (12, 44),
    (13, 48), (14, 52), (15, 56), (16, 60), (17, 64), (18, 68), (19, 72), (20, 76), (21, 80), (22, 84),
    (23, 88), (24, 92), (25, 96), (26, 100), (27, 104), (28, 108), (29, 112), (30, 116), (31, 120)]

/-- `.Lirq` -/
def lirq : Code := [.lw t0 0#32 sp, .addi sp sp 4#32, .j .defaultIrqHandler]

/-- From `trap` to its branch. -/
def trapCheck : Code := [.addi sp sp (-4#32), .sw t0 0#32 sp, .csrr t0 .mcause]

/-- From the branch to the call of `trap_c`. -/
def trapSave : Code :=
  [.addi sp sp 4#32, .la t0 .gTrapSp, .addi t0 t0 (-132#32)] ++ saves t0 trapRegs ++
    [.csrr a0 .mepc, .sw a0 124#32 t0, .csrr a0 .mstatus, .sw a0 128#32 t0, .addi a0 t0 0#32,
      .lw t0 (-4#32) sp, .addi sp a0 0#32, .sw t0 16#32 sp]

def trap : Code := trapCheck ++ .branch .lt t0 0 .lirq :: (trapSave ++ .jal .trapC :: lirq)

/-- `ra`, `t0`–`t2`, `a0`–`a7` and `t3`–`t6`. -/
def nmiRegs : List (Reg × Nat) :=
  [(1, 0), (5, 4), (6, 8), (7, 12), (10, 16), (11, 20), (12, 24), (13, 28), (14, 32), (15, 36), (16, 40),
    (17, 44), (28, 48), (29, 52), (30, 56), (31, 60)]

/-- From `Default_Handler` to its branch. -/
def handlerCheck : Code :=
  [.addi sp sp (-8#32), .sw t0 0#32 sp, .sw t1 4#32 sp, .csrr t0 .mcause, .andi t0 t0 0x3ff#32,
    .li t1 24#32]

/-- `t0` and `t1` as before the check. -/
def handlerUndo : Code := [.lw t0 0#32 sp, .lw t1 4#32 sp, .addi sp sp 8#32]

/-- From `.NMI_Handler` to the call. -/
def nmiEnter : Code :=
  [.addi sp sp (-64#32)] ++ saves sp nmiRegs ++ [.addi sp sp (-160#32)] ++ fsaves sp fRegs ++
    [.la t0 .gNmivector, .lw t0 0#32 t0]

/-- From the call to the end. -/
def nmiLeave : Code :=
  frestores sp fRegs ++ [.addi sp sp 160#32] ++ restores sp nmiRegs ++ [.addi sp sp 64#32, .mret]

/-- `.NMI_Handler` -/
def nmiHandler : Code := handlerUndo ++ (nmiEnter ++ .jalr t0 :: nmiLeave)

def defaultHandler : Code :=
  handlerCheck ++ .branch .eq t0 t1 .nmiHandler :: (handlerUndo ++ .j .trap :: nmiHandler)

def text : Label → Code
  | .defaultIrqHandler => defaultIRQHandler
  | .fRegNotSave1 => fRegNotSave1
  | .fRegNotLoad => fRegNotLoad
  | .trap => trap
  | .lirq => lirq
  | .defaultHandler => defaultHandler
  | .nmiHandler => nmiHandler

/-! ## The instructions of the core -/

/-- The registers that `ipush` saves, besides `mepc` and `mcause`: `ra`, `t0`–`t2`, `a0`–`a7` and `t3`–`t6`. -/
def pushed : List Reg := nmiRegs.map Prod.fst

variable (m : Machine Label Symbol Custom)

/-- `ipush` saves in the 72 bytes below the stack pointer what `ipop` restores from there. -/
structure Fast : Prop where
  push_sp : ∀ s, (m.custom .ipush s).get sp = s.get sp - 72#32
  push_get : ∀ s, ∀ r ≠ sp, (m.custom .ipush s).get r = s.get r
  push_f : ∀ s, (m.custom .ipush s).f = s.f
  push_fs : ∀ s, (m.custom .ipush s).fs = s.fs
  push_cause : ∀ s, (m.custom .ipush s).csr .mcause = s.csr .mcause
  push_mem : ∀ s a, (∀ k < 72, a ≠ s.get sp - 72#32 + BitVec.ofNat 32 k) →
    (m.custom .ipush s).mem a = s.mem a
  pop_sp : ∀ s, (m.custom .ipop s).get sp = s.get sp + 72#32
  pop_get : ∀ s, ∀ r ∉ sp :: pushed, (m.custom .ipop s).get r = s.get r
  pop_f : ∀ s, (m.custom .ipop s).f = s.f
  pop_fs : ∀ s, (m.custom .ipop s).fs = s.fs
  pop_mem : ∀ s, (m.custom .ipop s).mem = s.mem
  pop_push : ∀ s t, t.get sp = s.get sp - 72#32 →
    (∀ k < 72, t.mem (t.get sp + BitVec.ofNat 32 k) =
      (m.custom .ipush s).mem (t.get sp + BitVec.ofNat 32 k)) →
    (∀ r ∈ pushed, (m.custom .ipop t).get r = s.get r) ∧
      (m.custom .ipop t).csr .mepc = s.csr .mepc ∧ (m.custom .ipop t).csr .mcause = s.csr .mcause

/-- Where `ipush` saves the registers. -/
def pushSlots : List (Reg × Nat) :=
  [(1, 60), (5, 56), (6, 52), (7, 48), (10, 44), (11, 40), (12, 36), (13, 32), (14, 28), (15, 24), (16, 20),
    (17, 16), (28, 12), (29, 8), (30, 4), (31, 0)]

/-- `ipush`: `mcause` and `mepc` at the top of the frame. -/
def ipush (s : State) : State :=
  let b := s.get sp - 72#32
  let mem := writeAll s.mem (words s b pushSlots)
  (s.setMem (Function.update (Function.update mem (b + 64#32) (s.csr .mepc))
    (b + 68#32) (s.csr .mcause))).set sp b

/-- `ipop`, up to its `mret`. -/
def ipop (s : State) : State :=
  let b := s.get sp
  let t := (s.setCsr .mepc (s.mem (b + 64#32))).setCsr .mcause (s.mem (b + 68#32))
  let x r := (pushSlots.lookup r).elim (s.x r) fun o => s.mem (b + BitVec.ofNat 32 o)
  { t with x := x }.set sp (b + 72#32)

/-- The core, with its two instructions. -/
def core (addr : Symbol → BitVec 32) (callee : BitVec 32 → State → State) (link : Code → BitVec 32) :
    Machine Label Symbol Custom where
  addr := addr
  callee := callee
  custom
    | .ipush => ipush
    | .ipop => ipop
  link := link

theorem pushSlots_fits : Fits 64 (pushSlots.map Prod.snd) := by decide

theorem lookup_pushed : ∀ r ∈ pushed, r ≠ 0 ∧ r ≠ sp ∧ ∃ o ∈ List.range 64,
    pushSlots.lookup r = some o ∧ (r, o) ∈ pushSlots := by decide

theorem lookup_not_pushed : ∀ r ∉ sp :: pushed, r ≠ sp ∧ pushSlots.lookup r = none := by decide

theorem get_ipop (s : State) {r : Reg} (hr : r ≠ sp) (h0 : r ≠ 0) : (ipop s).get r =
    (pushSlots.lookup r).elim (s.get r) fun o => s.mem (s.get sp + BitVec.ofNat 32 o) := by
  simp only [ipop, State.get_set_of_ne _ _ _ _ hr]
  simp only [State.get, if_neg h0]

theorem csr_ipop (s : State) (c : Csr) : (ipop s).csr c =
    if c = .mcause then s.mem (s.get sp + 68#32)
    else if c = .mepc then s.mem (s.get sp + 64#32)
    else s.csr c := by
  simp only [ipop, State.csr_set, State.csr_setCsr]

theorem fast_core (addr : Symbol → BitVec 32) (callee : BitVec 32 → State → State) (link : Code → BitVec 32) :
    Fast (core addr callee link) where
  push_sp s := State.get_set_self _ _ _ (by decide)
  push_get s r hr := State.get_set_of_ne _ _ _ _ hr
  push_f s := rfl
  push_fs s := rfl
  push_cause s := rfl
  push_mem s a ha := by
    have hframe := (writeAll_words (s := s) pushSlots_fits (by decide) s.mem).2 a fun k hk => ha k (by omega)
    change Function.update (Function.update _ _ _) _ _ a = _
    rw [Function.update_of_ne (ha 68 (by decide)), Function.update_of_ne (ha 64 (by decide)), hframe]
  pop_sp s := State.get_set_self _ _ _ (by decide)
  pop_get s r hr := by
    by_cases h0 : r = 0
    · subst h0
      rfl
    · obtain ⟨hne, hnone⟩ := lookup_not_pushed r hr
      rw [core, get_ipop s hne h0, hnone]
      rfl
  pop_f s := rfl
  pop_fs s := by
    change ((ipop s).csr .mstatus).extractLsb' 13 2 = _
    rw [csr_ipop, if_neg (by decide), if_neg (by decide), ← State.fs]
  pop_mem s := rfl
  pop_push s t hsp hmem := by
    have hword : ∀ k < 72, t.mem (t.get sp + BitVec.ofNat 32 k) =
        (ipush s).mem (s.get sp - 72#32 + BitVec.ofNat 32 k) := by
      intro k hk
      rw [hmem k hk, hsp]
      rfl
    have hne : ∀ j k, j < 72 → k < 72 → j ≠ k →
        s.get sp - 72#32 + BitVec.ofNat 32 j ≠ s.get sp - 72#32 + BitVec.ofNat 32 k :=
      fun j k hj hk hne heq => hne (add_ofNat_inj (by omega) (by omega) heq)
    refine ⟨?_, ?_, ?_⟩
    · intro r hr
      obtain ⟨h0, hrsp, o, ho, hlookup, hmem⟩ := lookup_pushed r hr
      have hlt := List.mem_range.mp ho
      have hslot :=
        (writeAll_words (s := s) (b := s.get sp - 72#32) pushSlots_fits (by decide) s.mem).1 _ hmem
      rw [core, get_ipop t hrsp h0, hlookup, Option.elim_some, hword o (by omega)]
      change Function.update (Function.update _ _ _) _ _ _ = _
      rw [Function.update_of_ne (hne o 68 (by omega) (by decide) (by omega)),
        Function.update_of_ne (hne o 64 (by omega) (by decide) (by omega)), hslot]
    · rw [core, csr_ipop, if_neg (by decide), if_pos rfl]
      refine (hword 64 (by decide)).trans ?_
      change Function.update (Function.update _ _ _) _ _ _ = _
      rw [Function.update_of_ne (hne 64 68 (by decide) (by decide) (by decide)), Function.update_self]
    · rw [core, csr_ipop, if_pos rfl]
      exact (hword 68 (by decide)).trans (Function.update_self _ _ _)

variable {m}

/-! ## The blocks of `Default_IRQHandler` -/

theorem ne_of_calleeSaved :
    ∀ r ∈ calleeSaved, r ≠ 0 ∧ r ≠ ra ∧ r ≠ sp ∧ r ≠ t0 ∧ r ≠ t1 ∧ r ≠ t2 ∧ r ≠ a0 := by
  decide

theorem fs_and_allOnes : ∀ w : BitVec 2, w &&& 3#2 = w := by decide

theorem exec_irqEnter (hm : Fast m) (s : State) : ∃ t, execs m irqEnter s = some t ∧
    t.get sp = s.get sp - 72#32 ∧ (∀ r ∈ calleeSaved, t.get r = s.get r) ∧
    t.get t1 = s.fs.setWidth 32 ∧ t.get t0 = 3#32 ∧ t.f = s.f ∧ t.fs = s.fs ∧
    t.csr .mcause = s.csr .mcause ∧ t.mem = (m.custom .ipush s).mem := by
  let u := (m.custom .ipush s).set a0 8#32
  have hfs : (u.setCsr .mstatus (u.csr .mstatus &&& ~~~8#32)).fs = s.fs := by
    rw [State.fs_csrc]
    exact (fs_and_allOnes _).trans (hm.push_fs s)
  refine ⟨_, rfl, ?_, ?_, ?_, ?_, ?_, ?_, ?_, rfl⟩
  · simp [State.get_set, hm.push_sp, sp, t0, t1, a0]
  · intro r hr
    obtain ⟨-, -, hsp, ht0, ht1, -, ha0⟩ := ne_of_calleeSaved r hr
    simp only [State.get_set_of_ne _ _ _ _ ht0, State.get_set_of_ne _ _ _ _ ht1,
      State.get_set_of_ne _ _ _ _ ha0, State.get_setCsr, hm.push_get s r hsp]
  · rw [← hfs, ← State.srli_andi_mstatus]
    simp [State.get_set, t0, t1, a0, u]
  · simp [State.get_set, t0]
  · simp [hm.push_f]
  · exact hfs
  · simp [State.csr_setCsr, hm.push_cause]

theorem fRegs_aligned : ∀ p ∈ fRegs, p.2 % 8 = 0 := by decide

theorem fRegs_fits : Fits 160 (foffsets fRegs) := by decide

/-- `csrc` of 0x6000 and `csrs` of 0x4000. -/
theorem exec_clean (s : State) : ∃ t, execs m [.li t0 0x6000#32, .csrc .mstatus t0, .li t0 0x4000#32,
      .csrs .mstatus t0] s = some t ∧
    (∀ r ≠ t0, t.get r = s.get r) ∧ t.f = s.f ∧ t.fs = 2#2 ∧ t.csr .mcause = s.csr .mcause ∧
      t.mem = s.mem := by
  let off := (s.set t0 0x6000#32).setCsr .mstatus (s.csr .mstatus &&& ~~~0x6000#32)
  let u := off.set t0 0x4000#32
  have hoff : u.fs = 0#2 := (s.set t0 0x6000#32).fs_csrc_off
  refine ⟨u.setCsr .mstatus (u.csr .mstatus ||| 0x4000#32), ?_, ?_, rfl, ?_, ?_, rfl⟩
  · simp [execs, Instr.exec, State.get_set, t0, off, u]
  · intro r hr
    exact (State.get_set_of_ne off _ _ _ hr).trans (State.get_set_of_ne s _ _ _ hr)
  · rw [State.fs_csrs, hoff, BitVec.zero_or]
    decide
  · simp [State.csr_setCsr, off, u]

theorem exec_irqSave (s : State) (ha : Aligned 8 (s.get sp - 160#32)) :
    ∃ t, execs m irqSave s = some t ∧ t.get sp = s.get sp - 160#32 ∧
      (∀ r, r ≠ sp → r ≠ t0 → t.get r = s.get r) ∧ t.f = s.f ∧ t.fs = 2#2 ∧
      t.csr .mcause = s.csr .mcause ∧
      (∀ p ∈ fRegs, t.mem (s.get sp - 160#32 + BitVec.ofNat 32 p.2 + 4#32) ++
        t.mem (s.get sp - 160#32 + BitVec.ofNat 32 p.2) = s.f p.1) ∧
      ∀ a, Outside (s.get sp - 160#32) 160 a → t.mem a = s.mem a := by
  let w := (s.set t0 0x6000#32).setCsr .mstatus (s.csr .mstatus ||| 0x6000#32)
  let u := w.set sp (s.get sp - 160#32)
  have hsp : u.get sp = s.get sp - 160#32 := State.get_set_self _ _ _ (by decide)
  have hfs : u.fs = 3#2 := (s.set t0 0x6000#32).fs_csrs_dirty
  have hbegin : execs m [.li t0 0x6000#32, .csrs .mstatus t0, .addi sp sp (-160#32)] s = some u := by
    simp [execs, Instr.exec, State.get_set, t0, sp, u, w, BitVec.sub_eq_add_neg]
  have hsave := execs_fsaves (m := m) (s := u) sp fRegs (by rw [hfs]; decide) fun p hp => by
    rw [hsp]
    exact ha.add_ofNat (by decide) (fRegs_aligned p hp)
  obtain ⟨t, hend, hget, hf, hclean, hcause, hmem⟩ :=
    exec_clean (m := m) (u.setMem (writeAll u.mem (fwords u (u.get sp) fRegs)))
  have hframe := writeAll_fwords (s := u) (b := u.get sp) fRegs_fits (by decide) s.mem
  rw [hsp] at hframe
  have hmem : t.mem = writeAll s.mem (fwords u (s.get sp - 160#32) fRegs) := by rw [hmem, ← hsp]; rfl
  refine ⟨t, execs_trans (execs_trans hbegin hsave) hend, ?_, ?_, hf, hclean, ?_, ?_, ?_⟩
  · exact (hget sp (by decide)).trans hsp
  · intro r hr ht0
    rw [hget r ht0]
    exact (State.get_set_of_ne _ _ _ _ hr).trans (State.get_set_of_ne s _ _ _ ht0)
  · simp [hcause, State.csr_setCsr, u, w]
  · rw [hmem]
    exact hframe.1
  · rw [hmem]
    exact hframe.2

/-- The slot of an interrupt in `g_irqvector`. -/
def irqSlot (m : Machine Label Symbol Custom) (s : State) : BitVec 32 :=
  m.addr .gIrqvector + (s.csr .mcause &&& 0x3ff#32) <<< 2

theorem irqSlot_aligned (hv : Aligned 4 (m.addr .gIrqvector)) (s : State) : Aligned 4 (irqSlot m s) := by
  unfold Aligned at hv ⊢
  rw [irqSlot, BitVec.toNat_add, BitVec.toNat_shiftLeft, Nat.shiftLeft_eq]
  omega

theorem exec_irqVector (s : State) (ha : Aligned 4 (s.get sp - 8#32)) (hv : Aligned 4 (m.addr .gIrqvector)) :
    ∃ t, execs m irqVector s = some t ∧
      t.get sp = s.get sp - 8#32 ∧ (∀ r ∈ calleeSaved, t.get r = s.get r) ∧ t.f = s.f ∧ t.csr = s.csr ∧
      t.mem = Function.update s.mem (s.get sp - 8#32) (s.get t1) ∧ t.get t2 = t.mem (irqSlot m s) := by
  let u := s.set sp (s.get sp - 8#32)
  let w := u.setMem (Function.update s.mem (s.get sp - 8#32) (s.get t1))
  let v := (w.set t1 ((s.csr .mcause &&& 0x3ff#32) <<< 2)).set t0 (irqSlot m s)
  refine ⟨v.set t2 (v.mem (irqSlot m s)), ?_, ?_, ?_, rfl, rfl, rfl, ?_⟩
  · have hslot : Aligned 4 (m.addr .gIrqvector + (s.csr .mcause &&& 0x3ff#32) <<< 2) := irqSlot_aligned hv s
    have hneg : s.get sp + 4294967288#32 = s.get sp - 8#32 := (BitVec.sub_eq_add_neg _ 8#32).symm
    simp [irqVector, irqSlot, execs, Instr.exec, State.get_set, t0, t1, t2, sp, u, w, v,
      hneg, ha, hslot]
  · simp [State.get_set, t0, t1, t2, sp, u, w, v]
  · intro r hr
    obtain ⟨-, -, hsp, ht0, ht1, ht2, -⟩ := ne_of_calleeSaved r hr
    simp only [State.get_set_of_ne _ _ _ _ ht0, State.get_set_of_ne _ _ _ _ ht1,
      State.get_set_of_ne _ _ _ _ ht2, v]
    exact State.get_set_of_ne s _ _ _ hsp
  · exact State.get_set_self _ _ _ (by decide)

theorem exec_irqResume (s : State) (ha : Aligned 4 (s.get sp)) : ∃ t, execs m irqResume s = some t ∧
    t.get sp = s.get sp + 8#32 ∧ (∀ r ∈ calleeSaved, t.get r = s.get r) ∧ t.get t1 = s.mem (s.get sp) ∧
      t.get t0 = 3#32 ∧ t.f = s.f ∧ t.fs = s.fs ∧ t.mem = s.mem := by
  let w := (s.set t0 0x1880#32).setCsr .mstatus (s.csr .mstatus ||| 0x1880#32)
  let v := (w.set t1 (s.mem (s.get sp))).set sp (s.get sp + 8#32)
  have hfs : w.fs = s.fs := ((s.set t0 0x1880#32).fs_csrs 0x1880#32).trans (by
    rw [show (0x1880#32).extractLsb' 13 2 = 0#2 by decide, BitVec.or_zero, State.fs_set])
  refine ⟨v.set t0 3#32, ?_, ?_, ?_, ?_, ?_, rfl, hfs, rfl⟩
  · simp [irqResume, execs, Instr.exec, State.get_set, t0, t1, sp, w, v, ha]
  · simp [State.get_set, t0, sp, v]
  · intro r hr
    obtain ⟨-, -, hsp, ht0, ht1, -, -⟩ := ne_of_calleeSaved r hr
    simp only [State.get_set_of_ne _ _ _ _ ht0, State.get_set_of_ne _ _ _ _ ht1,
      State.get_set_of_ne _ _ _ _ hsp, v, w, State.get_setCsr]
  · simp [State.get_set, t0, t1, sp, v]
  · exact State.get_set_self _ _ _ (by decide)

theorem fRegs_nodup : (fRegs.map Prod.fst).Nodup := by decide

theorem exec_irqLoad (s : State) (ha : Aligned 8 (s.get sp)) : ∃ t, execs m irqLoad s = some t ∧
    t.get sp = s.get sp + 160#32 ∧ (∀ r ∈ calleeSaved, t.get r = s.get r) ∧
      (∀ p ∈ fRegs, t.f p.1 = s.mem (s.get sp + BitVec.ofNat 32 p.2 + 4#32) ++
        s.mem (s.get sp + BitVec.ofNat 32 p.2)) ∧
      (∀ r ∉ fRegs.map Prod.fst, t.f r = s.f r) ∧ t.fs = 2#2 ∧ t.mem = s.mem := by
  let u := (s.set t0 0x6000#32).setCsr .mstatus (s.csr .mstatus ||| 0x6000#32)
  have hfs : u.fs = 3#2 := (s.set t0 0x6000#32).fs_csrs_dirty
  have hsp : u.get sp = s.get sp := State.get_set_of_ne s t0 sp 0x6000#32 (by decide)
  obtain ⟨v, hload, hf, hother, hget, hmem, -, -⟩ :=
    execs_frestores (m := m) (s := u) sp fRegs (by rw [hfs]; decide)
      (fun p hp => by rw [hsp]; exact ha.add_ofNat (by decide) (fRegs_aligned p hp)) fRegs_nodup
  obtain ⟨t, hend, hgett, hft, hclean, -, hmemt⟩ := exec_clean (m := m) (v.set sp (v.get sp + 160#32))
  refine ⟨t, ?_, ?_, ?_, ?_, ?_, hclean, ?_⟩
  · have hbegin : execs m [.li t0 0x6000#32, .csrs .mstatus t0] s = some u := by
      simp [execs, Instr.exec, State.get_set, t0, u]
    exact execs_trans (execs_trans hbegin hload) hend
  · rw [hgett sp (by decide), State.get_set_self _ _ _ (by decide), hget, hsp]
  · intro r hr
    obtain ⟨-, -, hne, ht0, -⟩ := ne_of_calleeSaved r hr
    rw [hgett r ht0, State.get_set_of_ne _ _ _ _ hne, hget]
    exact State.get_set_of_ne s _ _ _ ht0
  · intro p hp
    rw [hft, State.f_set, hf p hp, hsp]
    rfl
  · intro r hr
    rw [hft, State.f_set, hother r hr]
    rfl
  · rw [hmemt, State.mem_set, hmem]
    rfl

theorem runs_fRegNotLoad (s : State) : ∃ t, Runs m text fRegNotLoad s (.returned (m.custom .ipop t)) ∧
    t.get sp = s.get sp ∧ (∀ r ∈ calleeSaved, t.get r = s.get r) ∧ t.f = s.f ∧ t.fs = s.fs ∧
      t.mem = s.mem := by
  let u := s.set a0 8#32
  refine ⟨u.setCsr .mstatus (u.csr .mstatus ||| u.get a0), .step rfl (.step rfl (.step rfl .mret)),
    ?_, ?_, rfl, ?_, rfl⟩
  · exact State.get_set_of_ne s a0 sp 8#32 (by decide)
  · intro r hr
    exact State.get_set_of_ne s _ _ _ (ne_of_calleeSaved r hr).2.2.2.2.2.2
  · rw [State.fs_csrs, show u.get a0 = 8#32 from State.get_set_self _ _ _ (by decide),
      show (8#32).extractLsb' 13 2 = 0#2 by decide, BitVec.or_zero, State.fs_set]

end V85x.Vectors
