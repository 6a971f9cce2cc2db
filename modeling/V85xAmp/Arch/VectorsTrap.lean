import V85xAmp.Arch.VectorsIrq

/-!
# Traps (`Default_Handler`, `trap`)

`Default_Handler` is the entry of the NMI, of exceptions and of the interrupts of the core itself. The NMI
returns with all registers as they were; an interrupt is passed on to `Default_IRQHandler`; an exception ends
in `trap_c`, with the registers in a frame at the top of the stack for traps.
-/

namespace V85x.Vectors

open Firmware.Rv32

variable {m : Machine Label Symbol Custom} {s : State}

/-! ## `Default_Handler` -/

/-- `s'` is `s` but for the 8 bytes below its stack pointer. -/
structure Same (s s' : State) : Prop where
  get : ∀ r, s'.get r = s.get r
  f : s'.f = s.f
  csr : s'.csr = s.csr
  mem : ∀ a, Outside (s.get sp - 8#32) 8 a → s'.mem a = s.mem a

theorem Same.trans {s s' s'' : State} (h : Same s s') (h' : Same s' s'') : Same s s'' where
  get r := (h'.get r).trans (h.get r)
  f := h'.f.trans h.f
  csr := h'.csr.trans h.csr
  mem a ha := (h'.mem a (by rwa [h.get])).trans (h.mem a ha)

/-- The check of `Default_Handler`, which saves `t0` and `t1` below the stack pointer. -/
theorem exec_handlerCheck (s : State) (ha : Aligned 4 (s.get sp - 8#32)) :
    ∃ t, execs m handlerCheck s = some t ∧ t.get sp = s.get sp - 8#32 ∧
      t.get t0 = s.csr .mcause &&& 0x3ff#32 ∧ t.get t1 = 24#32 ∧
      (∀ r, r ≠ sp → r ≠ t0 → r ≠ t1 → t.get r = s.get r) ∧ t.f = s.f ∧ t.csr = s.csr ∧
      t.mem = Function.update (Function.update s.mem (s.get sp - 8#32) (s.get t0)) (s.get sp - 8#32 + 4#32)
        (s.get t1) := by
  let u := s.set sp (s.get sp - 8#32)
  let w := u.setMem (Function.update (Function.update s.mem (s.get sp - 8#32) (s.get t0))
    (s.get sp - 8#32 + 4#32) (s.get t1))
  refine ⟨(w.set t0 (s.csr .mcause &&& 0x3ff#32)).set t1 24#32, ?_, ?_, ?_, ?_, ?_, rfl, rfl, rfl⟩
  · have ha4 : Aligned 4 (s.get sp - 8#32 + BitVec.ofNat 32 4) := ha.add_ofNat (by decide) (by decide)
    have hneg : s.get sp + 4294967288#32 = s.get sp - 8#32 := (BitVec.sub_eq_add_neg _ 8#32).symm
    simp [handlerCheck, execs, Instr.exec, State.get_set, t0, t1, sp, u, w, hneg, ha, ha4]
  · simp [State.get_set, t0, t1, sp, u, w]
  · simp [State.get_set, t0, t1, u, w]
  · exact State.get_set_self _ _ _ (by decide)
  · intro r hsp ht0 ht1
    simp only [State.get_set_of_ne _ _ _ _ ht0, State.get_set_of_ne _ _ _ _ ht1, w, State.get_setMem]
    exact State.get_set_of_ne s _ _ _ hsp

/-- `t0` and `t1` again. -/
theorem exec_handlerUndo (s : State) (ha : Aligned 4 (s.get sp)) : ∃ t, execs m handlerUndo s = some t ∧
    t.get sp = s.get sp + 8#32 ∧ t.get t0 = s.mem (s.get sp) ∧ t.get t1 = s.mem (s.get sp + 4#32) ∧
      (∀ r, r ≠ sp → r ≠ t0 → r ≠ t1 → t.get r = s.get r) ∧ t.f = s.f ∧ t.csr = s.csr ∧ t.mem = s.mem := by
  let u := (s.set t0 (s.mem (s.get sp))).set t1 (s.mem (s.get sp + 4#32))
  refine ⟨u.set sp (s.get sp + 8#32), ?_, ?_, ?_, ?_, ?_, rfl, rfl, rfl⟩
  · have ha4 : Aligned 4 (s.get sp + BitVec.ofNat 32 4) := ha.add_ofNat (by decide) (by decide)
    simp [handlerUndo, execs, Instr.exec, State.get_set, t0, t1, sp, u, ha, ha4]
  · exact State.get_set_self _ _ _ (by decide)
  · simp [State.get_set, t0, t1, sp, u]
  · simp [State.get_set, t1, sp, u]
  · intro r hsp ht0 ht1
    simp only [State.get_set_of_ne _ _ _ _ hsp, State.get_set_of_ne _ _ _ _ ht1, u]
    exact State.get_set_of_ne s _ _ _ ht0

/-- The check, the branch that it decides, and `t0` and `t1` as they were. -/
theorem exec_checked (ha : Aligned 4 (s.get sp - 8#32)) : ∃ t s', execs m handlerCheck s = some t ∧
    t.get t0 = s.csr .mcause &&& 0x3ff#32 ∧ t.get t1 = 24#32 ∧ execs m handlerUndo t = some s' ∧
      Same s s' := by
  obtain ⟨t, ht, htsp, ht0, ht1, htget, htf, htcsr, htmem⟩ := exec_handlerCheck (m := m) s ha
  obtain ⟨s', hs', hsp, h0, h1, hget, hf, hcsr, hmem⟩ := exec_handlerUndo (m := m) t (htsp ▸ ha)
  have hne : s.get sp - 8#32 ≠ s.get sp - 8#32 + 4#32 := by bv_omega
  refine ⟨t, s', ht, ht0, ht1, hs', ⟨?_, hf.trans htf, hcsr.trans htcsr, ?_⟩⟩
  · intro r
    by_cases hrsp : r = sp
    · rw [hrsp, hsp, htsp, BitVec.sub_add_cancel]
    · by_cases hr0 : r = t0
      · rw [hr0, h0, htsp, htmem, Function.update_of_ne hne, Function.update_self]
      · by_cases hr1 : r = t1
        · rw [hr1, h1, htsp, htmem, Function.update_self]
        · rw [hget r hrsp hr0 hr1, htget r hrsp hr0 hr1]
  · intro a ho
    have h0 : a ≠ s.get sp - 8#32 := ho.ne_sub (n := 8) (i := 8) (by decide) (by decide)
    rw [hmem, htmem, Function.update_of_ne (ho 4 (by decide)), Function.update_of_ne h0]

theorem exec_trapCheck (s : State) (ha : Aligned 4 (s.get sp - 4#32)) : ∃ t, execs m trapCheck s = some t ∧
    t.get sp = s.get sp - 4#32 ∧ t.get t0 = s.csr .mcause ∧ (∀ r, r ≠ sp → r ≠ t0 → t.get r = s.get r) ∧
      t.f = s.f ∧ t.csr = s.csr ∧ t.mem = Function.update s.mem (s.get sp - 4#32) (s.get t0) := by
  let u := (s.set sp (s.get sp - 4#32)).setMem (Function.update s.mem (s.get sp - 4#32) (s.get t0))
  refine ⟨u.set t0 (s.csr .mcause), ?_, ?_, ?_, ?_, rfl, rfl, rfl⟩
  · have hneg : s.get sp + 4294967292#32 = s.get sp - 4#32 := (BitVec.sub_eq_add_neg _ 4#32).symm
    simp [trapCheck, execs, Instr.exec, State.get_set, t0, sp, u, hneg, ha]
  · simp [State.get_set, t0, sp, u]
  · exact State.get_set_self _ _ _ (by decide)
  · intro r hsp ht0
    rw [State.get_set_of_ne _ _ _ _ ht0]
    exact State.get_set_of_ne s _ _ _ hsp

/-- `trap` of an interrupt: `t0` is back before `Default_IRQHandler`. -/
theorem runs_trap_irq (ha : Aligned 4 (s.get sp - 4#32)) (hirq : (s.csr .mcause).slt 0#32 = true) :
    ∃ s', Same s s' ∧ ∀ o, Runs m text defaultIRQHandler s' o → Runs m text trap s o := by
  obtain ⟨t, ht, htsp, ht0, htget, htf, htcsr, htmem⟩ := exec_trapCheck (m := m) s ha
  let u := t.set t0 (t.mem (t.get sp))
  let s' := u.set sp (t.get sp + 4#32)
  have hlirq : execs m [.lw t0 0#32 sp, .addi sp sp 4#32] t = some s' := by
    simp [execs, Instr.exec, State.get_set, t0, sp, u, s', htsp, ha]
  refine ⟨s', ⟨?_, htf, htcsr, ?_⟩, ?_⟩
  · intro r
    by_cases hsp : r = sp
    · rw [hsp, State.get_set_self _ _ _ (by decide), htsp, BitVec.sub_add_cancel]
    · rw [State.get_set_of_ne _ _ _ _ hsp]
      by_cases h0 : r = t0
      · rw [h0, State.get_set_self _ _ _ (by decide), htsp, htmem, Function.update_self]
      · rw [State.get_set_of_ne _ _ _ _ h0, htget r hsp h0]
  · intro a ho
    change t.mem a = s.mem a
    rw [htmem, Function.update_of_ne (ho.ne_sub (n := 8) (i := 4) (by decide) (by decide))]
  · intro o ho
    apply Runs.execs ht
    apply Runs.taken
    · rw [ht0]
      exact hirq
    · exact Runs.execs hlirq (.j ho)

theorem Same.fs {s s' : State} (h : Same s s') : s'.fs = s.fs := by rw [State.fs, h.csr, ← State.fs]

theorem Same.irqFrame {s s' : State} (h : Same s s') : irqFrame s' = irqFrame s := by
  rw [Vectors.irqFrame, h.fs, ← Vectors.irqFrame]

theorem eight_le_irqFrame (s : State) : 8 ≤ irqFrame s := by
  unfold irqFrame
  split <;> decide

theorem Same.mem_of_outside {s s' : State} (h : Same s s') {a : BitVec 32}
    (ha : Outside (s.get sp - BitVec.ofNat 32 (Vectors.irqFrame s)) (Vectors.irqFrame s) a) :
    s'.mem a = s.mem a :=
  h.mem a (ha.mono (Nat.le_refl 8) (eight_le_irqFrame s))

/-- A handler begins as after an interrupt in `s`. -/
theorem Same.entered {s s' u : State} (h : Same s s') (hu : Entered s' u) : Entered s u where
  sp := by rw [hu.sp, h.get, h.irqFrame]
  get r hr := by rw [hu.get r hr, h.get]
  cause := by rw [hu.cause, h.csr]
  f := by rw [hu.f, h.f]
  fs := by rw [hu.fs, h.fs]
  mem a ha := by rw [hu.mem a (by rwa [h.get, h.irqFrame]), h.mem_of_outside ha]

theorem Same.ready {s s' : State} (h : Same s s') (hs : Ready m s) : Ready m s' where
  vector := hs.vector
  sp := by rw [h.get]; exact hs.sp
  slot := by
    rw [h.get, h.irqFrame, irqSlot_congr (congrFun h.csr _)]
    exact hs.slot
  abi u hu := by
    rw [h.irqFrame, irqSlot_congr (congrFun h.csr _), h.mem_of_outside hs.slot]
    exact hs.abi u (h.entered hu)

/-- An interrupt that comes by way of `Default_Handler` is one of `Default_IRQHandler`. -/
theorem runs_defaultHandler_irq (hm : Fast m) (hs : Ready m s) (hirq : (s.csr .mcause).slt 0#32 = true)
    (hnmi : s.csr .mcause &&& 0x3ff#32 ≠ 24#32) :
    ∃ u t, Runs m text (text .defaultHandler) s (.returned t) ∧ Entered s u ∧
      Resumed s (m.callee (s.mem (irqSlot m s)) u) t := by
  have ha8 : Aligned 4 (s.get sp - BitVec.ofNat 32 8) :=
    (hs.sp.of_dvd (by decide)).sub_ofNat (by decide) (by decide) (by decide)
  have ha4 : Aligned 4 (s.get sp - BitVec.ofNat 32 4) :=
    (hs.sp.of_dvd (by decide)).sub_ofNat (by decide) (by decide) (by decide)
  obtain ⟨c, s₁, hcheck, ht0, ht1, hundo, hsame₁⟩ := exec_checked (m := m) ha8
  obtain ⟨s₂, hsame₂, htrap⟩ := runs_trap_irq (m := m) (s := s₁) (by rw [hsame₁.get]; exact ha4)
    (by rw [hsame₁.csr]; exact hirq)
  have hsame := hsame₁.trans hsame₂
  obtain ⟨u, t, hrun, hent, hres⟩ := runs_defaultIRQHandler hm (hsame.ready hs)
  rw [irqSlot_congr (congrFun hsame.csr _), hsame.mem_of_outside hs.slot] at hres
  refine ⟨u, t, ?_, hsame.entered hent, ⟨?_, ?_, ?_, hres.mem, ?_, ?_⟩⟩
  · apply Runs.execs hcheck
    apply Runs.passed
    · rw [ht0, ht1]
      exact decide_eq_false hnmi
    · exact Runs.execs hundo (.j (htrap _ hrun))
  · intro r
    rw [hres.get, hsame.get]
  · rw [hres.mepc, hsame.csr]
  · rw [hres.mcause, hsame.csr]
  · rw [hres.f, hsame.fs, hsame.f]
  · rw [hres.fs, hsame.fs]

/-- An interrupt, by either entry: the handler of its number is called, and the code goes on with its integer
registers, and with its floating-point registers if they were dirty. -/
theorem interrupt_resumes (hm : Fast m) (hs : Ready m s) {entry : Label}
    (hentry : entry = .defaultIrqHandler ∨
      entry = .defaultHandler ∧ (s.csr .mcause).slt 0#32 = true ∧ s.csr .mcause &&& 0x3ff#32 ≠ 24#32) :
    ∃ u t, Runs m text (text entry) s (.returned t) ∧ Entered s u ∧
      Resumed s (m.callee (s.mem (irqSlot m s)) u) t := by
  rcases hentry with rfl | ⟨rfl, hirq, hnmi⟩
  · exact runs_defaultIRQHandler hm hs
  · exact runs_defaultHandler_irq hm hs hirq hnmi

/-- The software interrupt, whose vector is `Default_Handler`. -/
theorem interrupt_resumes_software : ∃ u t,
    Runs writing text (text .defaultHandler) (stopped 0x80000003#32 0x6000#32) (.returned t) ∧
      Entered (stopped 0x80000003#32 0x6000#32) u ∧
      Resumed (stopped 0x80000003#32 0x6000#32) (writing.callee
        ((stopped 0x80000003#32 0x6000#32).mem (irqSlot writing (stopped 0x80000003#32 0x6000#32))) u) t :=
  interrupt_resumes (fast_core _ _ _) (ready_writing rfl rfl rfl) (.inr ⟨rfl, by decide, by decide⟩)

/-! ## The NMI -/

theorem nmiRegs_fits : Fits 64 (nmiRegs.map Prod.snd) := by decide

theorem nmiRegs_aligned : ∀ p ∈ nmiRegs, p.2 % 4 = 0 := by decide

theorem not_nmiRegs : ∀ r ∈ sp :: calleeSaved, r ∉ nmiRegs.map Prod.fst := by decide

/-- From `.NMI_Handler`, with `t0` and `t1` as they were, to the call. -/
theorem exec_nmiEnter (s : State) (hsp : Aligned 8 (s.get sp)) (hfs : s.fs ≠ 0#2)
    (hv : Aligned 4 (m.addr .gNmivector)) : ∃ t, execs m nmiEnter s = some t ∧
      t.get sp = s.get sp - 224#32 ∧ (∀ r ∈ calleeSaved, t.get r = s.get r) ∧ t.f = s.f ∧ t.csr = s.csr ∧
      t.get t0 = t.mem (m.addr .gNmivector) ∧
      (∀ p ∈ nmiRegs, t.mem (s.get sp - 64#32 + BitVec.ofNat 32 p.2) = s.get p.1) ∧
      (∀ p ∈ fRegs, t.mem (s.get sp - 224#32 + BitVec.ofNat 32 p.2 + 4#32) ++
        t.mem (s.get sp - 224#32 + BitVec.ofNat 32 p.2) = s.f p.1) ∧
      ∀ a, Outside (s.get sp - 224#32) 224 a → t.mem a = s.mem a := by
  have ha64 : Aligned 8 (s.get sp - BitVec.ofNat 32 64) := hsp.sub_ofNat (by decide) (by decide) (by decide)
  have ha224 : Aligned 8 (s.get sp - BitVec.ofNat 32 224) := hsp.sub_ofNat (by decide) (by decide) (by decide)
  have hdown : s.get sp - 64#32 - 160#32 = s.get sp - 224#32 := by bv_omega
  let b := s.set sp (s.get sp - 64#32)
  have hbsp : b.get sp = s.get sp - 64#32 := State.get_set_self _ _ _ (by decide)
  have hb : execs m [.addi sp sp (-64#32)] s = some b := by
    simp [execs, Instr.exec, b, BitVec.sub_eq_add_neg]
  let mem₁ := writeAll b.mem (words b (b.get sp) nmiRegs)
  have hbs : execs m (saves sp nmiRegs) b = some (b.setMem mem₁) := execs_saves sp nmiRegs fun p hp => by
    rw [hbsp]
    exact (ha64.of_dvd (by decide)).add_ofNat (by decide) (nmiRegs_aligned p hp)
  let c := (b.setMem mem₁).set sp (s.get sp - 224#32)
  have hcsp : c.get sp = s.get sp - 224#32 := State.get_set_self _ _ _ (by decide)
  have hc : execs m [.addi sp sp (-160#32)] (b.setMem mem₁) = some c := by
    simp [execs, Instr.exec, c, hbsp, ← hdown, BitVec.sub_eq_add_neg]
  let mem₂ := writeAll c.mem (fwords c (c.get sp) fRegs)
  let d := c.setMem mem₂
  have hcs : execs m (fsaves sp fRegs) c = some d := execs_fsaves sp fRegs hfs fun p hp => by
    rw [hcsp]
    exact ha224.add_ofNat (by decide) (fRegs_aligned p hp)
  have hlow : execs m [.la t0 .gNmivector, .lw t0 0#32 t0] d =
      some (d.set t0 (d.mem (m.addr .gNmivector))) := by
    simp [execs, Instr.exec, State.get_set, t0, hv]
  have hget : ∀ r, r ≠ sp → d.get r = s.get r := by
    intro r hr
    simp only [d, c, b, State.get_setMem, State.get_set_of_ne _ _ _ _ hr]
  have hints := writeAll_words (s := b) (b := b.get sp) nmiRegs_fits (by decide) s.mem
  have hfps := writeAll_fwords (s := c) (b := c.get sp) fRegs_fits (by decide) mem₁
  rw [hbsp] at hints
  rw [hcsp] at hfps
  have hmem : d.mem = writeAll mem₁ (fwords c (s.get sp - 224#32) fRegs) := by
    rw [← hcsp]
    rfl
  have hmem₁ : mem₁ = writeAll s.mem (words b (s.get sp - 64#32) nmiRegs) := by
    rw [← hbsp]
    rfl
  refine ⟨d.set t0 (d.mem (m.addr .gNmivector)), ?_, ?_, ?_, rfl, rfl, ?_, ?_, ?_, ?_⟩
  · exact execs_trans (execs_trans (execs_trans (execs_trans hb hbs) hc) hcs) hlow
  · rw [State.get_set_of_ne _ _ _ _ (by decide), State.get_setMem, hcsp]
  · intro r hr
    obtain ⟨-, -, hne, ht0, -⟩ := ne_of_calleeSaved r hr
    rw [State.get_set_of_ne _ _ _ _ ht0, hget r hne]
  · exact State.get_set_self _ _ _ (by decide)
  · intro p hp
    have hlt := nmiRegs_fits.2 p.2 (List.mem_map.mpr ⟨p, hp, rfl⟩)
    have hne : p.1 ≠ sp := fun heq => not_nmiRegs sp List.mem_cons_self (heq ▸ List.mem_map.mpr ⟨p, hp, rfl⟩)
    rw [State.mem_set, hmem, hfps.2, hmem₁, hints.1 p hp]
    · exact State.get_set_of_ne s _ _ _ hne
    · intro j hj
      bv_omega
  · rw [State.mem_set, hmem]
    exact hfps.1
  · intro a ha
    have h160 : Outside (s.get sp - 224#32) 160 a := fun k hk => ha k (by omega)
    rw [State.mem_set, hmem, hfps.2 a h160, hmem₁]
    exact hints.2 a (ha.mono (n := 224) (i := 64) (by decide) (by decide))

/-- From the return of the handler on. -/
theorem runs_nmiLeave (s : State) (hsp : Aligned 8 (s.get sp)) (hfs : s.fs ≠ 0#2) :
    ∃ t, Runs m text nmiLeave s (.returned t) ∧ t.get sp = s.get sp + 224#32 ∧
      (∀ r ∈ calleeSaved, t.get r = s.get r) ∧
      (∀ p ∈ nmiRegs, t.get p.1 = s.mem (s.get sp + 160#32 + BitVec.ofNat 32 p.2)) ∧
      (∀ p ∈ fRegs, t.f p.1 = s.mem (s.get sp + BitVec.ofNat 32 p.2 + 4#32) ++
        s.mem (s.get sp + BitVec.ofNat 32 p.2)) ∧
      (∀ r ∉ fRegs.map Prod.fst, t.f r = s.f r) ∧ (∀ c ≠ .mstatus, t.csr c = s.csr c) ∧ t.mem = s.mem := by
  obtain ⟨a, ha, haf, haother, haget, hamem, hacsr, -⟩ := execs_frestores (m := m) (s := s) sp fRegs hfs
    (fun p hp => hsp.add_ofNat (by decide) (fRegs_aligned p hp)) fRegs_nodup
  let b := a.set sp (a.get sp + 160#32)
  have hbsp : b.get sp = s.get sp + 160#32 := by
    rw [State.get_set_self _ _ _ (by decide), haget]
  obtain ⟨c, hc, hcget, hcother, hcmem, hcf, hccsr⟩ := execs_restores (m := m) (s := b) sp nmiRegs
    (fun p hp => by
      rw [hbsp, BitVec.add_assoc, ← BitVec.ofNat_add]
      exact (hsp.of_dvd (by decide)).add_ofNat (by decide) (by have := nmiRegs_aligned p hp; omega))
    (not_nmiRegs sp List.mem_cons_self) (by decide) (by decide)
  refine ⟨c.set sp (c.get sp + 64#32), ?_, ?_, ?_, ?_, ?_, ?_, ?_, ?_⟩
  · rw [nmiLeave, List.append_assoc, List.append_assoc]
    apply Runs.execs ha
    apply Runs.step rfl
    apply Runs.execs hc
    exact .step rfl .mret
  · rw [State.get_set_self _ _ _ (by decide), hcother sp (by decide), hbsp, BitVec.add_assoc]
    rfl
  · intro r hr
    obtain ⟨-, -, hne, -⟩ := ne_of_calleeSaved r hr
    rw [State.get_set_of_ne _ _ _ _ hne, hcother r (not_nmiRegs r (List.mem_cons_of_mem _ hr)),
      State.get_set_of_ne _ _ _ _ hne, haget]
  · intro p hp
    have hne : p.1 ≠ sp := fun heq => not_nmiRegs sp List.mem_cons_self (heq ▸ List.mem_map.mpr ⟨p, hp, rfl⟩)
    rw [State.get_set_of_ne _ _ _ _ hne, hcget p hp, hbsp]
    exact congrFun hamem _
  · intro p hp
    rw [State.f_set, hcf]
    exact haf p hp
  · intro r hr
    rw [State.f_set, hcf]
    exact haother r hr
  · intro k hk
    rw [State.csr_set, hccsr]
    exact hacsr k hk
  · rw [State.mem_set, hcmem]
    exact hamem

/-- `u`, in which the handler of the NMI begins, after an NMI in `s`. -/
structure NmiEntered (s u : State) : Prop where
  sp : u.get sp = s.get sp - 224#32
  get : ∀ r ∈ calleeSaved, u.get r = s.get r
  f : u.f = s.f
  csr : u.csr = s.csr
  mem : ∀ a, Outside (s.get Vectors.sp - 224#32) 224 a → u.mem a = s.mem a

/-- The NMI: its handler is called, and the code goes on with all its registers, the floating-point ones
too. They are saved whatever `mstatus.FS` is, which must not be off. -/
theorem runs_defaultHandler_nmi (hsp : Aligned 8 (s.get sp)) (hfs : s.fs ≠ 0#2)
    (hnmi : s.csr .mcause &&& 0x3ff#32 = 24#32) (hv : Aligned 4 (m.addr .gNmivector))
    (hslot : Outside (s.get sp - 224#32) 224 (m.addr .gNmivector))
    (habi : ∀ u, NmiEntered s u → Abi 224 u (m.callee (s.mem (m.addr .gNmivector)) u)) :
    ∃ u v t, Runs m text (text .defaultHandler) s (.returned t) ∧
      v = m.callee (s.mem (m.addr .gNmivector)) u ∧ NmiEntered s u ∧
      (∀ r, t.get r = s.get r) ∧ t.f = s.f ∧ t.mem = v.mem ∧ ∀ c ≠ .mstatus, t.csr c = v.csr c := by
  have ha8 : Aligned 4 (s.get sp - BitVec.ofNat 32 8) :=
    (hsp.of_dvd (by decide)).sub_ofNat (by decide) (by decide) (by decide)
  obtain ⟨b, s', hcheck, ht0, ht1, hundo, hsame⟩ := exec_checked (m := m) ha8
  obtain ⟨c, hc, hcsp, hcsaved, hcf, hccsr, hct0, hcwords, hcfwords, hcmem⟩ :=
    exec_nmiEnter (m := m) s' (by rw [hsame.get]; exact hsp) (by rw [hsame.fs]; exact hfs) hv
  rw [hsame.get] at hcsp hcwords hcfwords hcmem
  let u := c.set ra (m.link nmiLeave)
  have husp : u.get sp = s.get sp - 224#32 := (State.get_set_of_ne _ _ _ _ (by decide)).trans hcsp
  have hout : ∀ a, Outside (s.get sp - 224#32) 224 a → u.mem a = s.mem a := by
    intro a ha
    exact (hcmem a ha).trans (hsame.mem a (ha.mono (n := 224) (i := 8) (by decide) (by decide)))
  have hcall : c.get t0 = s.mem (m.addr .gNmivector) := hct0.trans (hout _ hslot)
  have hent : NmiEntered s u :=
    { sp := husp
      get := fun r hr => by
        rw [State.get_set_of_ne _ _ _ _ (ne_of_calleeSaved r hr).2.1, hcsaved r hr, hsame.get]
      f := hcf.trans hsame.f
      csr := hccsr.trans hsame.csr
      mem := hout }
  have hu := habi u hent
  generalize hv' : m.callee (s.mem (m.addr .gNmivector)) u = v at hu
  have hvsp : v.get sp = s.get sp - 224#32 := hu.sp.trans husp
  have hword : ∀ k < 224, v.mem (s.get sp - 224#32 + BitVec.ofNat 32 k) =
      c.mem (s.get sp - 224#32 + BitVec.ofNat 32 k) := by
    intro k hk
    rw [← husp]
    exact hu.frame k hk
  obtain ⟨t, hrun, htsp, htsaved, htget, htf, htother, htcsr, htmem⟩ := runs_nmiLeave (m := m) v
    (by rw [hvsp]; exact hsp.sub_ofNat (k := 224) (by decide) (by decide) (by decide))
    (hu.on (by rw [State.fs, State.csr_set, hccsr, ← State.fs, hsame.fs]; exact hfs))
  refine ⟨u, v, t, ?_, hv'.symm, hent, ?_, ?_, htmem, htcsr⟩
  · apply Runs.execs hcheck
    apply Runs.taken
    · rw [ht0, ht1]
      exact decide_eq_true hnmi
    · apply Runs.execs hundo
      apply Runs.execs hc
      apply Runs.call
      rw [hcall, hv']
      exact hrun
  · intro r
    rcases reg_cases r with rfl | rfl | hr | hr
    · rfl
    · rw [htsp, hvsp, BitVec.sub_add_cancel]
    · rw [htsaved r hr, hu.get r hr, hent.get r hr]
    · obtain ⟨p, hp, rfl⟩ := List.mem_map.mp hr
      have hlt := nmiRegs_fits.2 p.2 (List.mem_map.mpr ⟨p, hp, rfl⟩)
      have hup : s.get sp - 64#32 = s.get sp - 224#32 + 160#32 :=
        (sub_ofNat_add (n := 224) (k := 64) (j := 160) rfl).symm
      rw [htget p hp, hvsp, BitVec.add_assoc, ← BitVec.ofNat_add, hword _ (by omega), BitVec.ofNat_add,
        ← BitVec.add_assoc, ← hup, hcwords p hp, hsame.get]
  · funext r
    rcases freg_cases r with hr | hr
    · rw [htother r (not_fRegs r hr), hu.f r hr, State.f_set, hcf, hsame.f]
    · obtain ⟨p, hp, rfl⟩ := List.mem_map.mp hr
      rw [htf p hp, hvsp, frame_fRegs (by decide) hword p hp, hcfwords p hp, hsame.f]

theorem runs_defaultHandler_nmi_ft0 : ∃ u v t,
    Runs writing text (text .defaultHandler) (stopped 24#32 0x2000#32) (.returned t) ∧
      v = writing.callee 0#32 u ∧ u.f 0 = 0#64 ∧ v.f 0 = 7#64 ∧ t.f 0 = 0#64 := by
  obtain ⟨u, v, t, hrun, hv, hu, -, hf, -⟩ := runs_defaultHandler_nmi (m := writing)
    (s := stopped 24#32 0x2000#32) (by decide) (by decide) (by decide) (by decide) (by
      intro k hk
      change 0x8800#32 ≠ 0x1000#32 - 224#32 + BitVec.ofNat 32 k
      bv_omega) fun u hu => abi_writing _ (by decide) hu.sp (hu.mem _ fun k hk => by
        change 0x8900#32 ≠ 0x1000#32 - 224#32 + BitVec.ofNat 32 k
        bv_omega)
  refine ⟨u, v, t, hrun, hv, congrFun hu.f 0, ?_, congrFun hf 0⟩
  rw [hv]
  rfl

/-! ## Exceptions -/

/-- What `trap_c` reports of `regs`: `regs[31]` as `mepc` and `regs[32]` as `mstatus`. -/
def trapC (s : State) : BitVec 32 × BitVec 32 := (s.mem (s.get a0 + 124#32), s.mem (s.get a0 + 128#32))

theorem trapRegs_fits : Fits 124 (trapRegs.map Prod.snd) := by decide

theorem trapRegs_aligned : ∀ p ∈ trapRegs, p.2 % 4 = 0 := by decide

theorem mem_trapRegs : ∀ r : Reg, r ≠ 0 → r ≠ t0 → (r, 4 * (r.val - 1)) ∈ trapRegs := by decide

theorem offset_ne : ∀ r : Reg, r ≠ 0 → r ≠ t0 → 4 * (r.val - 1) < 124 ∧ 4 * (r.val - 1) ≠ 16 := by decide

theorem trapRegs_ne : ∀ p ∈ trapRegs, p.1 ≠ t0 := by decide

/-- The end of the frame, with `t0` from below the stack pointer. -/
theorem exec_trapSave_end {c : State} {base : BitVec 32} (hc0 : c.get t0 = base) (hg : Aligned 4 base)
    (hsp : Aligned 4 (c.get sp - 4#32)) (h124 : c.get sp - 4#32 ≠ base + 124#32)
    (h128 : c.get sp - 4#32 ≠ base + 128#32) : ∃ t,
    execs m [.csrr a0 .mepc, .sw a0 124#32 t0, .csrr a0 .mstatus, .sw a0 128#32 t0, .addi a0 t0 0#32,
      .lw t0 (-4#32) sp, .addi sp a0 0#32, .sw t0 16#32 sp] c = some t ∧ t.get a0 = base ∧ t.get sp = base ∧
      t.mem = Function.update (Function.update (Function.update c.mem (base + 124#32) (c.csr .mepc))
        (base + 128#32) (c.csr .mstatus)) (base + 16#32) (c.mem (c.get sp - 4#32)) := by
  let M := Function.update (Function.update c.mem (base + 124#32) (c.csr .mepc))
    (base + 128#32) (c.csr .mstatus)
  have hback : M (c.get sp - 4#32) = c.mem (c.get sp - 4#32) := by
    simp only [M, Function.update_of_ne h124, Function.update_of_ne h128]
  let d := (c.set a0 base).setMem M
  let e := d.set t0 (c.mem (c.get sp - 4#32))
  let t := (e.set sp base).setMem (Function.update M (base + 16#32) (c.mem (c.get sp - 4#32)))
  have ha16 : Aligned 4 (base + BitVec.ofNat 32 16) := hg.add_ofNat (by decide) (by decide)
  have ha124 : Aligned 4 (base + BitVec.ofNat 32 124) := hg.add_ofNat (by decide) (by decide)
  have ha128 : Aligned 4 (base + BitVec.ofNat 32 128) := hg.add_ofNat (by decide) (by decide)
  have hstores : execs m [.csrr a0 .mepc, .sw a0 124#32 t0, .csrr a0 .mstatus, .sw a0 128#32 t0,
      .addi a0 t0 0#32] c = some d := by
    simp [execs, Instr.exec, State.get_set, a0, t0, d, M, hc0, ha124, ha128]
  have hload : execs m [.lw t0 (-4#32) sp] d = some e := by
    have hdsp : d.get sp + -4#32 = c.get sp - 4#32 := by
      rw [← BitVec.sub_eq_add_neg]
      exact congrArg (· - 4#32) (State.get_set_of_ne c a0 sp base (by decide))
    simp only [execs, Instr.exec, hdsp, if_pos hsp, Option.bind_some]
    exact congrArg (fun v => some (d.set t0 v)) hback
  have hstore : execs m [.addi sp a0 0#32, .sw t0 16#32 sp] e = some t := by
    simp [execs, Instr.exec, State.get_set, a0, t0, sp, d, e, t, ha16]
  refine ⟨t, execs_trans (execs_trans hstores hload) hstore, ?_, ?_, rfl⟩
  · simp [State.get_set, a0, t0, sp, d, e, t]
  · simp [State.get_set, sp, t]

/-- From the branch to the call of `trap_c`, after `trapCheck`. -/
theorem exec_trapSave {b : State} {base : BitVec 32} (hbase : m.addr .gTrapSp - 132#32 = base)
    (hg : Aligned 4 base) (hsp : Aligned 4 (b.get sp)) (hout : Outside base 132 (b.get sp)) :
    ∃ t, execs m trapSave b = some t ∧ t.get a0 = base ∧ t.get sp = base ∧
      t.mem = Function.update (Function.update (Function.update
        (writeAll b.mem (words (b.set sp (b.get sp + 4#32)) base trapRegs))
          (base + 124#32) (b.csr .mepc)) (base + 128#32) (b.csr .mstatus))
        (base + 16#32) (b.mem (b.get sp)) := by
  let c := (b.set sp (b.get sp + 4#32)).set t0 base
  have hc0 : c.get t0 = base := State.get_set_self _ _ _ (by decide)
  have hcsp : c.get sp - 4#32 = b.get sp := by
    rw [State.get_set_of_ne _ _ _ _ (by decide), State.get_set_self _ _ _ (by decide), BitVec.add_sub_cancel]
  have hc : execs m [.addi sp sp 4#32, .la t0 .gTrapSp, .addi t0 t0 (-132#32)] b = some c := by
    simp [execs, Instr.exec, State.get_set, t0, c, ← hbase, BitVec.sub_eq_add_neg]
  have hcs := execs_saves (m := m) (s := c) t0 trapRegs fun p hp => by
    rw [hc0]
    exact hg.add_ofNat (by decide) (trapRegs_aligned p hp)
  have hwords : words c (c.get t0) trapRegs = words (b.set sp (b.get sp + 4#32)) base trapRegs := by
    rw [hc0]
    apply List.map_congr_left
    intro p hp
    rw [State.get_set_of_ne _ _ _ _ (trapRegs_ne p hp)]
  rw [hwords] at hcs
  have hback :=
    (writeAll_words (s := b.set sp (b.get sp + 4#32)) trapRegs_fits (by decide) b.mem).2 (b.get sp)
      fun k hk => hout k (by omega)
  obtain ⟨t, ht, hta0, htsp, htmem⟩ := exec_trapSave_end (m := m)
    (c := c.setMem (writeAll c.mem (words (b.set sp (b.get sp + 4#32)) base trapRegs))) hc0 hg
    (by rw [State.get_setMem, hcsp]; exact hsp) (by rw [State.get_setMem, hcsp]; exact hout 124 (by decide))
    (by rw [State.get_setMem, hcsp]; exact hout 128 (by decide))
  rw [State.get_setMem, hcsp, State.mem_setMem] at htmem
  refine ⟨t, execs_trans (execs_trans hc hcs) ht, hta0, htsp, ?_⟩
  rw [htmem]
  exact congrArg _ hback

/-- The frame at `base`: the registers of `s` with `v` for `t0`, then `epc` and `status`. -/
theorem trapFrame {s : State} {base epc status v : BitVec 32} {mem mem' : BitVec 32 → BitVec 32}
    (h : mem' = Function.update (Function.update (Function.update
      (writeAll mem (words s base trapRegs)) (base + 124#32) epc) (base + 128#32) status) (base + 16#32) v) :
    (∀ r : Reg, r ≠ 0 → r ≠ t0 → mem' (base + BitVec.ofNat 32 (4 * (r.val - 1))) = s.get r) ∧
      mem' (base + 16#32) = v ∧ mem' (base + 124#32) = epc ∧ mem' (base + 128#32) = status ∧
      ∀ a, Outside base 132 a → mem' a = mem a := by
  obtain ⟨hregs, hout⟩ := writeAll_words (s := s) (b := base) trapRegs_fits (by decide) mem
  have hadd : ∀ j k, j < 132 → k < 132 → j ≠ k → base + BitVec.ofNat 32 j ≠ base + BitVec.ofNat 32 k :=
    fun j k hj hk hne heq => hne (add_ofNat_inj (by omega) (by omega) heq)
  subst h
  refine ⟨?_, Function.update_self _ _ _, ?_, ?_, ?_⟩
  · intro r hr h0
    obtain ⟨hlt, h16⟩ := offset_ne r hr h0
    rw [Function.update_of_ne (hadd _ 16 (by omega) (by decide) h16),
      Function.update_of_ne (hadd _ 128 (by omega) (by decide) (by omega)),
      Function.update_of_ne (hadd _ 124 (by omega) (by decide) (by omega)), hregs _ (mem_trapRegs r hr h0)]
  · rw [Function.update_of_ne (hadd 124 16 (by decide) (by decide) (by decide)),
      Function.update_of_ne (hadd 124 128 (by decide) (by decide) (by decide)), Function.update_self]
  · rw [Function.update_of_ne (hadd 128 16 (by decide) (by decide) (by decide)), Function.update_self]
  · intro a ha
    rw [Function.update_of_ne (ha 16 (by decide)), Function.update_of_ne (ha 128 (by decide)),
      Function.update_of_ne (ha 124 (by decide)), hout a fun k hk => ha k (by omega)]

/-- An exception: `trap_c` gets the registers of the code that raised it, and its `mepc` and `mstatus`, at
the top of the stack for traps, which is its own stack. -/
theorem runs_defaultHandler_exception (hsp : Aligned 4 (s.get sp)) (hexc : (s.csr .mcause).slt 0#32 = false)
    (hnmi : s.csr .mcause &&& 0x3ff#32 ≠ 24#32) (hg : Aligned 4 (m.addr .gTrapSp))
    (hout : Outside (m.addr .gTrapSp - 132#32) 132 (s.get sp - 4#32)) :
    ∃ t, Runs m text (text .defaultHandler) s (.entered .trapC t) ∧
      t.get a0 = m.addr .gTrapSp - 132#32 ∧ t.get sp = t.get a0 ∧
      (∀ r : Reg, r ≠ 0 → t.mem (t.get a0 + BitVec.ofNat 32 (4 * (r.val - 1))) = s.get r) ∧
      trapC t = (s.csr .mepc, s.csr .mstatus) ∧
      ∀ a, Outside (s.get sp - 8#32) 8 a → Outside (m.addr .gTrapSp - 132#32) 132 a → t.mem a = s.mem a := by
  have ha8 : Aligned 4 (s.get sp - BitVec.ofNat 32 8) := hsp.sub_ofNat (by decide) (by decide) (by decide)
  have ha4 : Aligned 4 (s.get sp - BitVec.ofNat 32 4) := hsp.sub_ofNat (by decide) (by decide) (by decide)
  have hg : Aligned 4 (m.addr .gTrapSp - BitVec.ofNat 32 132) :=
    hg.sub_ofNat (by decide) (by decide) (by decide)
  generalize hbase : m.addr .gTrapSp - 132#32 = base at hg hout
  obtain ⟨c, s', hcheck, ht0, ht1, hundo, hsame⟩ := exec_checked (m := m) ha8
  obtain ⟨b, hb, hbsp, hb0, hbget, -, hbcsr, hbmem⟩ :=
    exec_trapCheck (m := m) s' (by rw [hsame.get]; exact ha4)
  rw [hsame.get] at hbsp
  rw [hsame.get, hsame.get] at hbmem
  obtain ⟨t, ht, hta0, htsp, htmem⟩ := exec_trapSave (b := b) hbase hg (by rw [hbsp]; exact ha4)
    (by rw [hbsp]; exact hout)
  have hbelow : b.mem (b.get sp) = s.get Vectors.t0 := by rw [hbsp, hbmem, Function.update_self]
  rw [hbcsr, hsame.csr, hbelow] at htmem
  obtain ⟨hregs, h16, h124, h128, hrest⟩ := trapFrame htmem
  refine ⟨t.set ra (m.link lirq), ?_, ?_, ?_, ?_, ?_, ?_⟩
  · apply Runs.execs hcheck
    apply Runs.passed
    · rw [ht0, ht1]
      exact decide_eq_false hnmi
    · apply Runs.execs hundo
      apply Runs.j
      apply Runs.execs hb
      apply Runs.passed
      · rw [hb0, hsame.csr]
        exact hexc
      · exact Runs.execs ht .jal
  · rw [State.get_set_of_ne _ _ _ _ (by decide), hta0]
  · rw [State.get_set_of_ne _ _ _ _ (by decide), State.get_set_of_ne _ _ _ _ (by decide), hta0, htsp]
  · intro r hr
    rw [State.get_set_of_ne _ _ _ _ (by decide), hta0, State.mem_set]
    by_cases h0 : r = Vectors.t0
    · rw [h0]
      exact h16
    · rw [hregs r hr h0]
      by_cases hrsp : r = sp
      · rw [hrsp, State.get_set_self _ _ _ (by decide), hbsp, BitVec.sub_add_cancel]
      · rw [State.get_set_of_ne _ _ _ _ hrsp, hbget r hrsp h0, hsame.get]
  · rw [trapC, State.get_set_of_ne _ _ _ _ (by decide), hta0, State.mem_set, h124, h128]
  · intro a ho hoa
    have hne := ho.ne_sub (n := 8) (i := 4) (by decide) (by decide)
    rw [State.mem_set, hrest a hoa, hbmem, Function.update_of_ne hne, hsame.mem a ho]

theorem runs_defaultHandler_exception_a0 : ∃ t,
    Runs writing text (text .defaultHandler) (stopped 2#32 0x2000#32) (.entered .trapC t) ∧
      t.get a0 = 0x8f7c#32 ∧ t.mem (0x8f7c#32 + 16#32) = 5#32 ∧ trapC t = (0#32, 0x2000#32) := by
  obtain ⟨t, hrun, ha0, -, hget, hreport, -⟩ := runs_defaultHandler_exception (m := writing)
    (s := stopped 2#32 0x2000#32) (by decide) (by decide) (by decide) (by decide) (by
      intro k hk
      change 0x1000#32 - 4#32 ≠ 0x9000#32 - 132#32 + BitVec.ofNat 32 k
      bv_omega)
  refine ⟨t, hrun, ha0, ?_, hreport⟩
  have h5 := hget t0 (by decide)
  rwa [ha0] at h5

end V85x.Vectors
