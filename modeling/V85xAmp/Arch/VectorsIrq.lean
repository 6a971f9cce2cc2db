import V85xAmp.Arch.Vectors

/-!
# Interrupts (`Default_IRQHandler`)

An interrupt calls `g_irqvector[mcause & 0x3ff]` and returns with all the integer registers as they were
(`runs_defaultIRQHandler`). The floating-point registers are as they were if `mstatus.FS` was dirty, and `FS`
is clean then; otherwise they are as the handler leaves them. So a second interrupt, before the interrupted
code writes a floating-point register, does not keep them (`second_interrupt`).
-/

namespace V85x.Vectors

open Firmware.Rv32

variable {m : Machine Label Symbol Custom} {s : State}

/-! ## `Default_IRQHandler` -/

/-- How much of the stack an interrupt takes before the call. -/
def irqFrame (s : State) : Nat := if s.fs = 3#2 then 240 else 80

/-- `u`, in which a handler begins, after an interrupt in `s`. -/
structure Entered (s u : State) : Prop where
  sp : u.get sp = s.get sp - BitVec.ofNat 32 (irqFrame s)
  get : ∀ r ∈ calleeSaved, u.get r = s.get r
  cause : u.csr .mcause = s.csr .mcause
  f : u.f = s.f
  fs : u.fs = if s.fs = 3#2 then 2#2 else s.fs
  mem : ∀ a, Outside (s.get Vectors.sp - BitVec.ofNat 32 (irqFrame s)) (irqFrame s) a → u.mem a = s.mem a

/-- `t`, in which the code that an interrupt in `s` stopped goes on, after a handler that ended in `v`. -/
structure Resumed (s v t : State) : Prop where
  get : ∀ r, t.get r = s.get r
  mepc : t.csr .mepc = s.csr .mepc
  mcause : t.csr .mcause = s.csr .mcause
  mem : t.mem = v.mem
  f : t.f = if s.fs = 3#2 then s.f else v.f
  fs : t.fs = if s.fs = 3#2 then 2#2 else v.fs

theorem reg_cases : ∀ r : Reg, r = 0 ∨ r = sp ∨ r ∈ calleeSaved ∨ r ∈ pushed := by decide

theorem not_pushed : ∀ r ∈ calleeSaved, r ∉ sp :: pushed := by decide

theorem freg_cases : ∀ r : Reg, r ∈ fCalleeSaved ∨ r ∈ fRegs.map Prod.fst := by decide

theorem not_fRegs : ∀ r ∈ fCalleeSaved, r ∉ fRegs.map Prod.fst := by decide

/-- From `.F_RegNotLoad` on, with the registers of `ipush` in their frame. -/
theorem runs_leave (hm : Fast m) {d : State} (hsp : d.get sp = s.get sp - 72#32)
    (hget : ∀ r ∈ calleeSaved, d.get r = s.get r)
    (hmem : ∀ k < 72, d.mem (d.get sp + BitVec.ofNat 32 k) =
      (m.custom .ipush s).mem (d.get sp + BitVec.ofNat 32 k)) :
    ∃ t, Runs m text fRegNotLoad d (.returned t) ∧ (∀ r, t.get r = s.get r) ∧
      t.csr .mepc = s.csr .mepc ∧ t.csr .mcause = s.csr .mcause ∧ t.mem = d.mem ∧ t.f = d.f ∧
      t.fs = d.fs := by
  obtain ⟨u, hrun, husp, hu, huf, hufs, humem⟩ := runs_fRegNotLoad (m := m) d
  obtain ⟨hpop, hepc, hcause⟩ := hm.pop_push s u (husp.trans hsp) (by rw [husp, humem]; exact hmem)
  refine ⟨m.custom .ipop u, hrun, ?_, hepc, hcause, ?_, ?_, ?_⟩
  · intro r
    rcases reg_cases r with rfl | rfl | hr | hr
    · rfl
    · rw [hm.pop_sp, husp, hsp, BitVec.sub_add_cancel]
    · rw [hm.pop_get u r (not_pushed r hr), hu r hr, hget r hr]
    · exact hpop r hr
  · rw [hm.pop_mem, humem]
  · rw [hm.pop_f, huf]
  · rw [hm.pop_fs, hufs]

theorem irqSlot_congr {s' : State} (h : s'.csr .mcause = s.csr .mcause) : irqSlot m s' = irqSlot m s := by
  rw [irqSlot, h, ← irqSlot]

/-- `u`, in which a handler begins that is called from `c`, with `n` bytes of the stack of `s`. -/
structure Called (n : Nat) (s c u : State) : Prop where
  sp : u.get sp = s.get sp - BitVec.ofNat 32 n
  get : ∀ r ∈ calleeSaved, u.get r = c.get r
  cause : u.csr .mcause = s.csr .mcause
  f : u.f = c.f
  fs : u.fs = c.fs
  mem : ∀ a, Outside (s.get Vectors.sp - BitVec.ofNat 32 n) n a → u.mem a = s.mem a

/-- From `.F_RegNotSave1` through the call to the second branch: `u` is where the handler begins, `v` where it
ends and `d` where the branch is. `c` has `n` bytes of the stack, with those of `t1`. -/
theorem runs_call {c : State} {n : Nat} (hv : Aligned 4 (m.addr .gIrqvector)) (hn : 8 ≤ n)
    (hlt : n < 4294967296) (ha : Aligned 4 (s.get sp - BitVec.ofNat 32 n))
    (hsp : c.get sp = s.get sp - BitVec.ofNat 32 (n - 8)) (hcause : c.csr .mcause = s.csr .mcause)
    (hmem : ∀ a, Outside (s.get sp - BitVec.ofNat 32 n) n a → c.mem a = s.mem a)
    (hslot : Outside (s.get sp - BitVec.ofNat 32 n) n (irqSlot m s))
    (habi : ∀ u, Called n s c u → Abi n u (m.callee (s.mem (irqSlot m s)) u)) :
    ∃ u v d, m.callee (s.mem (irqSlot m s)) u = v ∧ Called n s c u ∧ Abi n u v ∧
      d.get sp = c.get sp ∧ (∀ r ∈ calleeSaved, d.get r = c.get r) ∧ d.get t1 = c.get t1 ∧
      d.get t0 = 3#32 ∧ d.f = v.f ∧ d.fs = v.fs ∧ d.mem = v.mem ∧
      (∀ k, 8 ≤ k → k < n → d.mem (s.get sp - BitVec.ofNat 32 n + BitVec.ofNat 32 k) =
        c.mem (s.get sp - BitVec.ofNat 32 n + BitVec.ofNat 32 k)) ∧
      ∀ o, Runs m text (.branch .ne t1 t0 .fRegNotLoad :: (irqLoad ++ fRegNotLoad)) d o →
        Runs m text fRegNotSave1 c o := by
  have hdown : c.get sp - 8#32 = s.get sp - BitVec.ofNat 32 n := by
    rw [hsp, ← sub_ofNat_add (n := n) (k := n - 8) (j := 8) (by omega), BitVec.add_sub_cancel]
  obtain ⟨e, he, hesp, hesaved, hef, hecsr, hemem, het2⟩ := exec_irqVector c (hdown ▸ ha) hv
  let code := irqResume ++ .branch .ne t1 t0 .fRegNotLoad :: (irqLoad ++ fRegNotLoad)
  let u := e.set ra (m.link code)
  have hget : ∀ r ≠ ra, u.get r = e.get r := fun r hr => State.get_set_of_ne _ _ _ _ hr
  have husp : u.get sp = s.get sp - BitVec.ofNat 32 n := ((hget sp (by decide)).trans hesp).trans hdown
  have hufs : u.fs = c.fs := by
    change e.fs = c.fs
    rw [State.fs, hecsr, ← State.fs]
  have humem : u.mem = Function.update c.mem (s.get sp - BitVec.ofNat 32 n) (c.get t1) := by
    rw [← hdown]
    exact hemem
  have hout : ∀ a, Outside (s.get sp - BitVec.ofNat 32 n) n a → u.mem a = s.mem a := by
    intro a ho
    have hne : a ≠ s.get sp - BitVec.ofNat 32 n := ho.ne_sub (Nat.le_refl n) (by omega)
    rw [humem, Function.update_of_ne hne, hmem a ho]
  have hcall : u.get t2 = s.mem (irqSlot m s) := by
    rw [hget t2 (by decide), het2, irqSlot_congr hcause]
    exact hout _ hslot
  have hcalled : Called n s c u :=
    { sp := husp
      get := fun r hr => (hget r (ne_of_calleeSaved r hr).2.1).trans (hesaved r hr)
      cause := (congrFun hecsr _).trans hcause
      f := hef
      fs := hufs
      mem := hout }
  have hu := habi u hcalled
  generalize hv' : m.callee (s.mem (irqSlot m s)) u = v at hu
  obtain ⟨d, hd, hdsp, hdsaved, hdt1, hdt0, hdf, hdfs, hdmem⟩ :=
    exec_irqResume (m := m) v (by rw [hu.sp, husp]; exact ha)
  have hword : ∀ k < n, d.mem (s.get sp - BitVec.ofNat 32 n + BitVec.ofNat 32 k) =
      u.mem (s.get sp - BitVec.ofNat 32 n + BitVec.ofNat 32 k) := by
    intro k hk
    rw [hdmem, ← husp]
    exact hu.frame k hk
  refine ⟨u, v, d, hv', hcalled, hu, ?_, ?_, ?_, hdt0, hdf, hdfs, hdmem, ?_, ?_⟩
  · rw [hdsp, hu.sp, husp, ← hdown, BitVec.sub_add_cancel]
  · intro r hr
    rw [hdsaved r hr, hu.get r hr, hcalled.get r hr]
  · have h0 := hword 0 (by omega)
    rw [BitVec.add_zero, hdmem] at h0
    rw [hdt1, hu.sp, husp, h0, humem, Function.update_self]
  · intro k h8 hk
    have hne : s.get sp - BitVec.ofNat 32 n + BitVec.ofNat 32 k ≠ s.get sp - BitVec.ofNat 32 n := by
      intro heq
      have := add_ofNat_inj (k := 0) (by omega) (by decide) (heq.trans (BitVec.add_zero _).symm)
      omega
    rw [hword k hk, humem, Function.update_of_ne hne]
  · intro o ho
    apply Runs.execs he
    apply Runs.call
    change Runs m text code (m.callee (e.get t2) u) o
    rw [← hget t2 (by decide), hcall, hv']
    exact Runs.execs hd ho

theorem bne_fs : ∀ fs : BitVec 2, Cond.ne.holds (fs.setWidth 32) 3#32 = decide (fs ≠ 3#2) := by decide

theorem fRegs_lt : ∀ p ∈ fRegs, p.2 < 156 := by decide

/-- The saved floating-point registers, in a frame that has the same words. -/
theorem frame_fRegs {n : Nat} {b : BitVec 32} {mem mem' : BitVec 32 → BitVec 32} (hn : 160 ≤ n)
    (h : ∀ k < n, mem (b + BitVec.ofNat 32 k) = mem' (b + BitVec.ofNat 32 k)) :
    ∀ p ∈ fRegs, mem (b + BitVec.ofNat 32 p.2 + 4#32) ++ mem (b + BitVec.ofNat 32 p.2) =
      mem' (b + BitVec.ofNat 32 p.2 + 4#32) ++ mem' (b + BitVec.ofNat 32 p.2) := by
  intro p hp
  have hlt := fRegs_lt p hp
  rw [h p.2 (by omega), BitVec.add_assoc, ← BitVec.ofNat_add, h (p.2 + 4) (by omega)]

/-- The frame of `ipush` in the `n` bytes that the handler keeps. -/
theorem frame_ipush {x d : State} {n : Nat} (h80 : 80 ≤ n) (hsp : d.get sp = s.get sp - 72#32)
    (hmem : ∀ k, n - 72 ≤ k → k < n → d.mem (s.get sp - BitVec.ofNat 32 n + BitVec.ofNat 32 k) =
      x.mem (s.get sp - BitVec.ofNat 32 n + BitVec.ofNat 32 k)) :
    ∀ k < 72, d.mem (d.get sp + BitVec.ofNat 32 k) = x.mem (d.get sp + BitVec.ofNat 32 k) := by
  intro k hk
  have hup : d.get sp = s.get sp - BitVec.ofNat 32 n + BitVec.ofNat 32 (n - 72) := by
    rw [sub_ofNat_add (k := 72) (by omega), hsp]
  rw [hup, BitVec.add_assoc, ← BitVec.ofNat_add]
  exact hmem _ (by omega) (by omega)

/-- An interrupt of code with clean floating-point registers, or without any. -/
theorem runs_of_fs_ne (hm : Fast m) (hv : Aligned 4 (m.addr .gIrqvector)) (hsp : Aligned 8 (s.get sp))
    (hfs : s.fs ≠ 3#2) (hslot : Outside (s.get sp - 80#32) 80 (irqSlot m s))
    (habi : ∀ u, Entered s u → Abi 80 u (m.callee (s.mem (irqSlot m s)) u)) :
    ∃ u t, Runs m text defaultIRQHandler s (.returned t) ∧ Entered s u ∧
      Resumed s (m.callee (s.mem (irqSlot m s)) u) t := by
  have hframe : irqFrame s = 80 := if_neg hfs
  obtain ⟨c, hc, hcsp, hcsaved, hct1, hct0, hcf, hcfs, hccause, hcmem⟩ := exec_irqEnter hm s
  have hout : ∀ a, Outside (s.get sp - 80#32) 80 a → c.mem a = s.mem a := by
    intro a ho
    rw [hcmem]
    exact hm.push_mem s a (ho.mono (n := 80) (i := 72) (by decide) (by decide))
  have hentered : ∀ u, Called 80 s c u → Entered s u := by
    intro u hu
    refine ⟨?_, fun r hr => (hu.get r hr).trans (hcsaved r hr), hu.cause, hu.f.trans hcf, ?_, ?_⟩
    · rw [hu.sp, hframe]
    · rw [hu.fs, hcfs, if_neg hfs]
    · rw [hframe]
      exact hu.mem
  obtain ⟨u, v, d, hv', hu, -, hdsp, hdsaved, hdt1, hdt0, hdf, hdfs, hdmem, hdword, hrest⟩ :=
    runs_call (n := 80) hv (by decide) (by decide)
      ((hsp.of_dvd (by decide)).sub_ofNat (by decide) (by decide) (by decide)) hcsp hccause hout hslot
      fun u hu => habi u (hentered u hu)
  have hdown := hdsp.trans hcsp
  obtain ⟨t, hrun, hget, hepc, hcause, hmem, hf, hfst⟩ := runs_leave hm hdown
    (fun r hr => (hdsaved r hr).trans (hcsaved r hr)) (by
      rw [← hcmem]
      exact frame_ipush (n := 80) (by decide) hdown fun k h8 hk => hdword k h8 hk)
  refine ⟨u, t, ?_, hentered u hu, ⟨hget, hepc, hcause, ?_, ?_, ?_⟩⟩
  · apply Runs.execs hc
    apply Runs.taken
    · rw [hct1, hct0, bne_fs, decide_eq_true hfs]
    · apply hrest
      apply Runs.taken
      · rw [hdt1, hdt0, hct1, bne_fs, decide_eq_true hfs]
      · exact hrun
  · rw [hmem, hdmem, hv']
  · rw [hf, hdf, if_neg hfs, hv']
  · rw [hfst, hdfs, if_neg hfs, hv']

/-- An interrupt of code with dirty floating-point registers. -/
theorem runs_of_fs_eq (hm : Fast m) (hv : Aligned 4 (m.addr .gIrqvector)) (hsp : Aligned 8 (s.get sp))
    (hfs : s.fs = 3#2) (hslot : Outside (s.get sp - 240#32) 240 (irqSlot m s))
    (habi : ∀ u, Entered s u → Abi 240 u (m.callee (s.mem (irqSlot m s)) u)) :
    ∃ u t, Runs m text defaultIRQHandler s (.returned t) ∧ Entered s u ∧
      Resumed s (m.callee (s.mem (irqSlot m s)) u) t := by
  have hframe : irqFrame s = 240 := if_pos hfs
  obtain ⟨b, hb, hbsp, hbsaved, hbt1, hbt0, hbf, hbfs, hbcause, hbmem⟩ := exec_irqEnter hm s
  have hdown : b.get sp - 160#32 = s.get sp - 232#32 := by rw [hbsp]; bv_omega
  have ha : Aligned 8 (s.get sp - BitVec.ofNat 32 232) := hsp.sub_ofNat (by decide) (by decide) (by decide)
  obtain ⟨c, hc, hcsp, hcget, hcf, hcfs, hccause, hcword, hcmem⟩ := exec_irqSave (m := m) b (hdown ▸ ha)
  rw [hdown] at hcsp hcword hcmem
  have hout : ∀ a, Outside (s.get sp - 240#32) 240 a → c.mem a = s.mem a := by
    intro a ho
    rw [hcmem a (ho.mono (n := 240) (i := 232) (by decide) (by decide)), hbmem]
    exact hm.push_mem s a (ho.mono (n := 240) (i := 72) (by decide) (by decide))
  have hsaved : ∀ r ∈ calleeSaved, c.get r = s.get r := by
    intro r hr
    obtain ⟨-, -, hne, ht0, -⟩ := ne_of_calleeSaved r hr
    rw [hcget r hne ht0, hbsaved r hr]
  have hentered : ∀ u, Called 240 s c u → Entered s u := by
    intro u hu
    refine ⟨?_, fun r hr => (hu.get r hr).trans (hsaved r hr), hu.cause, hu.f.trans (hcf.trans hbf), ?_, ?_⟩
    · rw [hu.sp, hframe]
    · rw [hu.fs, hcfs, if_pos hfs]
    · rw [hframe]
      exact hu.mem
  obtain ⟨u, v, d, hv', hcalled, hu, hdsp, hdsaved, hdt1, hdt0, hdf, hdfs, hdmem, hdword, hrest⟩ :=
    runs_call (n := 240) hv (by decide) (by decide)
      ((hsp.of_dvd (by decide)).sub_ofNat (by decide) (by decide) (by decide)) hcsp
      (hccause.trans hbcause) hout hslot fun u hu => habi u (hentered u hu)
  have hdsp := hdsp.trans hcsp
  obtain ⟨e, he, hesp, hesaved, hef, heother, hefs, hemem⟩ := exec_irqLoad (m := m) d (hdsp ▸ ha)
  have hup : e.get sp = s.get sp - 72#32 := by rw [hesp, hdsp]; bv_omega
  have hf : e.f = s.f := by
    funext r
    rcases freg_cases r with hr | hr
    · rw [heother r (not_fRegs r hr), hdf, hu.f r hr, hcalled.f, hcf, hbf]
    · obtain ⟨p, hp, rfl⟩ := List.mem_map.mp hr
      have hword : ∀ k < 160, d.mem (s.get sp - 232#32 + BitVec.ofNat 32 k) =
          c.mem (s.get sp - 232#32 + BitVec.ofNat 32 k) := by
        intro k hk
        have h8 : s.get sp - 232#32 = s.get sp - 240#32 + 8#32 := (sub_ofNat_add (n := 240) (j := 8) rfl).symm
        rw [h8, BitVec.add_assoc, ← BitVec.ofNat_add]
        exact hdword (8 + k) (by omega) (by omega)
      rw [hef p hp, hdsp, frame_fRegs (Nat.le_refl 160) hword p hp, hcword p hp, hbf]
  obtain ⟨t, hrun, hget, hepc, hcause, hmem, htf, htfs⟩ := runs_leave hm hup
    (fun r hr => by rw [hesaved r hr, hdsaved r hr, hsaved r hr]) (by
      rw [← hbmem]
      apply frame_ipush (n := 240) (by decide) hup
      intro k h168 hk
      rw [hemem, hdword k (by omega) hk, hcmem]
      intro j hj
      bv_omega)
  refine ⟨u, t, ?_, hentered u hcalled, ⟨hget, hepc, hcause, ?_, ?_, ?_⟩⟩
  · have ht1 : b.get t1 = 3#32 := by rw [hbt1, hfs]; rfl
    apply Runs.execs hb
    apply Runs.passed
    · rw [ht1, hbt0]
      rfl
    · apply Runs.execs hc
      apply hrest
      apply Runs.passed
      · rw [hdt1, hdt0, hcget t1 (by decide) (by decide), ht1]
        rfl
      · exact Runs.execs he hrun
  · rw [hmem, hemem, hdmem, hv']
  · rw [htf, hf, if_pos hfs]
  · rw [htfs, hefs, if_pos hfs]

/-- What an interrupt in `s` relies on: the stack pointer, the vectors that are not on its stack, and a
handler that keeps to the calling convention when it begins in a state that the interrupt can leave to it. -/
structure Ready (m : Machine Label Symbol Custom) (s : State) : Prop where
  vector : Aligned 4 (m.addr .gIrqvector)
  sp : Aligned 8 (s.get sp)
  slot : Outside (s.get Vectors.sp - BitVec.ofNat 32 (irqFrame s)) (irqFrame s) (irqSlot m s)
  abi : ∀ u, Entered s u → Abi (irqFrame s) u (m.callee (s.mem (irqSlot m s)) u)

/-- The handler of the interrupt is called, and the code goes on as it was. -/
theorem runs_defaultIRQHandler (hm : Fast m) (hs : Ready m s) :
    ∃ u t, Runs m text (text .defaultIrqHandler) s (.returned t) ∧ Entered s u ∧
      Resumed s (m.callee (s.mem (irqSlot m s)) u) t := by
  obtain ⟨hv, hsp, hslot, habi⟩ := hs
  by_cases hfs : s.fs = 3#2
  · rw [show irqFrame s = 240 from if_pos hfs] at hslot habi
    exact runs_of_fs_eq hm hv hsp hfs hslot habi
  · rw [show irqFrame s = 80 from if_neg hfs] at hslot habi
    exact runs_of_fs_ne hm hv hsp hfs hslot habi

/-- A core whose handlers write `ft0`, and a word through the pointer that they find at `0x8900`. -/
def writing : Machine Label Symbol Custom :=
  let addr : Symbol → BitVec 32
    | .gIrqvector => 0x8000#32
    | .gNmivector => 0x8800#32
    | .gTrapSp => 0x9000#32
    | .trapC => 0x200#32
  let callee (_ : BitVec 32) (s : State) : State :=
    (s.setF 0 7#64).setMem (Function.update s.mem (s.mem 0x8900#32) 1#32)
  core addr callee fun _ => 0x100#32

/-- Code that a trap stops, with its `mcause` and `mstatus`. -/
def stopped (cause status : BitVec 32) : State where
  x r := if r = sp then 0x1000#32 else BitVec.ofNat 32 r.val
  f r := BitVec.ofNat 64 r.val
  csr
    | .mcause => cause
    | .mstatus => status
    | _ => 0#32
  mem _ := 0#32

/-- They keep to the calling convention as long as the pointer is not into the stack. -/
theorem abi_writing {n : Nat} {u : State} (h : BitVec 32) (hn : n ≤ 240)
    (hsp : u.get sp = 0x1000#32 - BitVec.ofNat 32 n) (hptr : u.mem 0x8900#32 = 0#32) :
    Abi n u (writing.callee h u) where
  sp := rfl
  get _ _ := rfl
  f r hr := Function.update_of_ne (fun h0 => absurd (h0 ▸ hr) (by decide)) _ _
  frame k hk := by
    have hne : u.get 2 + BitVec.ofNat 32 k ≠ u.mem 0x8900#32 := by
      rw [hptr, show u.get 2 = _ from hsp]
      bv_omega
    exact Function.update_of_ne hne _ _
  on _ := by
    change (u.setF 0 7#64).fs ≠ 0#2
    rw [State.fs_setF]
    decide

theorem irqFrame_le (s : State) : irqFrame s ≤ 240 := by
  unfold irqFrame
  split <;> decide

theorem ready_writing {s : State} (hsp : s.get sp = 0x1000#32) (hcause : s.csr .mcause = 0x80000003#32)
    (hptr : s.mem 0x8900#32 = 0#32) : Ready writing s where
  vector := by decide
  sp := by
    rw [hsp]
    decide
  slot := by
    have hle := irqFrame_le s
    have hslot : irqSlot writing s = 0x800c#32 := by
      rw [irqSlot, hcause]
      decide
    rw [hsp, hslot]
    intro k hk
    bv_omega
  abi u hu := by
    have hle := irqFrame_le s
    have hout : Outside (s.get sp - BitVec.ofNat 32 (irqFrame s)) (irqFrame s) 0x8900#32 := by
      rw [hsp]
      intro k hk
      bv_omega
    exact abi_writing _ hle (hsp ▸ hu.sp) ((hu.mem _ hout).trans hptr)

/-- An interrupt of code with dirty floating-point registers, and another one before the code has written one
of them: the second handler begins with the registers of the code, and the code goes on with those that the
handler leaves. -/
theorem second_interrupt (hm : Fast m) {s s' t : State} (hs : Ready m s) (hfs : s.fs = 3#2)
    (hrun : Runs m text (text .defaultIrqHandler) s (.returned t)) (hf' : s'.f = t.f) (hfs' : s'.fs = t.fs)
    (hs' : Ready m s') :
    ∃ u t', Runs m text (text .defaultIrqHandler) s' (.returned t') ∧ u.f = s.f ∧
      t'.f = (m.callee (s'.mem (irqSlot m s')) u).f ∧ ∀ r, t'.get r = s'.get r := by
  obtain ⟨u₁, t₁, hrun₁, -, hres₁⟩ := runs_defaultIRQHandler hm hs
  obtain rfl : t₁ = t := by
    cases hrun₁.unique hrun
    rfl
  have hclean : s'.fs = 2#2 := by rw [hfs', hres₁.fs, if_pos hfs]
  obtain ⟨u, t', hrun', hent, hres⟩ := runs_defaultIRQHandler hm hs'
  refine ⟨u, t', hrun', ?_, ?_, hres.get⟩
  · rw [hent.f, hf', hres₁.f, if_pos hfs]
  · rw [hres.f, hclean, if_neg (by decide)]

/-- The code has 0 in `ft0` through the first interrupt, and the handler's 7 after the second one. -/
theorem second_interrupt_ft0 : ∃ t t',
    Runs writing text (text .defaultIrqHandler) (stopped 0x80000003#32 0x6000#32) (.returned t) ∧
      t.f 0 = 0#64 ∧
      Runs writing text (text .defaultIrqHandler) t (.returned t') ∧ t'.f 0 = 7#64 := by
  have hready : Ready writing (stopped 0x80000003#32 0x6000#32) := ready_writing rfl rfl rfl
  obtain ⟨u₁, t, hrun, hent, hres⟩ := runs_defaultIRQHandler (fast_core _ _ _) hready
  have hptr₁ : u₁.mem 0x8900#32 = 0#32 := hent.mem _ fun k hk => by
    have hk : k < 240 := hk
    change 0x8900#32 ≠ 0x1000#32 - 240#32 + BitVec.ofNat 32 k
    bv_omega
  have hptr : t.mem 0x8900#32 = 0#32 := by
    rw [hres.mem]
    change Function.update u₁.mem (u₁.mem 0x8900#32) 1#32 0x8900#32 = 0#32
    rw [hptr₁, Function.update_of_ne (by decide), hptr₁]
  have hready' : Ready writing t := ready_writing (hres.get sp) hres.mcause hptr
  obtain ⟨u, t', hrun', -, hf, -⟩ := second_interrupt (fast_core _ _ _) hready rfl hrun rfl rfl hready'
  refine ⟨t, t', hrun, ?_, hrun', ?_⟩
  · rw [hres.f]
    rfl
  · rw [hf]
    rfl

end V85x.Vectors
