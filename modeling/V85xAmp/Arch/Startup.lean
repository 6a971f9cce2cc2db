import V85xAmp.Lib.Rv32

/-!
# The start of the firmware (`startup_gcc.S`)

`Reset_Handler` sets up the trap entries, the stack and the floating-point unit, clears `.bss` and goes to
`main`. `runs_resetHandler`: it ends, the words of `.bss` are 0 and the other ones are as before.
-/

namespace V85x.Startup

open Firmware.Rv32

/-- `2` is where the loop of `1` ends. -/
inductive Label
  | resetHandler
  | clear
  | cleared
deriving Repr, DecidableEq

inductive Symbol
  | globalPointer
  | defaultHandler
  | vectors
  | initProcessStackEnd
  | bssStart
  | bssEnd
  | main
deriving Repr, DecidableEq

abbrev Code := List (Instr Label Symbol Empty)

abbrev sp : Reg := 2

abbrev gp : Reg := 3

abbrev t0 : Reg := 5

abbrev a0 : Reg := 10

abbrev a1 : Reg := 11

/-! ## The source -/

/-- `2:` -/
def cleared : Code := [.tail .main]

/-- The loop's body. -/
def clearWord : Code := [.sw 0 0#32 a0, .addi a0 a0 4#32]

/-- `1:` -/
def clear : Code := clearWord ++ .branch .ltu a0 a1 .clear :: cleared

/-- The trap entries, the stack, and interrupts off. -/
def setTraps : Code :=
  [.la gp .globalPointer,
    .la a0 .defaultHandler,
    .ori a0 a0 3#32,
    .csrw .mtvec a0,
    .la a0 .vectors,
    .csrw .mtvt a0,
    .la sp .initProcessStackEnd,
    .csrw .mscratch sp,
    .li t0 0x8#32,
    .csrc .mstatus t0]

/-- `FS` off, then initial: before the floating-point registers are cleared and again after that. -/
def initialFs : Code := [.li t0 0x6000#32, .csrc .mstatus t0, .li t0 0x2000#32, .csrs .mstatus t0]

/-- `fscsr x0, x0` is a write of `fcsr`. -/
def initFpu : Code := initialFs ++ [.csrw .fcsr 0]

/-- `fmv.w.x` of `x0` to each register. -/
def clearFpu : Code := (List.finRange 32).map fun f => .fmvWX f 0

/-- From the floating-point registers to the branch. -/
def prepare : Code := .csrw .mscratch 0 :: (initialFs ++ [.la a0 .bssStart, .la a1 .bssEnd])

def resetHandler : Code :=
  setTraps ++ (initFpu ++ (clearFpu ++ (prepare ++ .branch .geu a0 a1 .cleared :: clear)))

def text : Label → Code
  | .resetHandler => resetHandler
  | .clear => clear
  | .cleared => cleared

/-! ## Clearing `.bss` -/

variable {m : Machine Label Symbol Empty}

/-- The memory with the words from `first` up to `last` cleared. -/
def zeroed (mem : BitVec 32 → BitVec 32) (first last : BitVec 32) : BitVec 32 → BitVec 32 := fun a =>
  if Aligned 4 a ∧ first ≤ a ∧ a < last then 0#32 else mem a

theorem exec_clearWord {s : State} (ha : Aligned 4 (s.get a0)) : ∃ t, execs m clearWord s = some t ∧
    t.get a0 = s.get a0 + 4#32 ∧ (∀ r ≠ a0, t.get r = s.get r) ∧ t.f = s.f ∧ t.csr = s.csr ∧
      t.mem = Function.update s.mem (s.get a0) 0#32 := by
  let u := s.setMem (Function.update s.mem (s.get a0) 0#32)
  refine ⟨u.set a0 (s.get a0 + 4#32), ?_, ?_, ?_, rfl, rfl, rfl⟩
  · simp [clearWord, execs, Instr.exec, u, ha]
  · exact State.get_set_self _ _ _ (by decide)
  · intro r hr
    exact State.get_set_of_ne _ _ _ _ hr

/-- The word at `a` and those after it. -/
theorem zeroed_update (mem : BitVec 32 → BitVec 32) {a last : BitVec 32} (ha : Aligned 4 a)
    (hl : Aligned 4 last) (hlt : a < last) :
    zeroed (Function.update mem a 0#32) (a + 4#32) last = zeroed mem a last := by
  funext b
  unfold zeroed
  by_cases hb : b = a
  · subst hb
    rw [Function.update_self, ite_self, if_pos ⟨ha, BitVec.le_refl b, hlt⟩]
  · rw [Function.update_of_ne hb]
    have hiff : Aligned 4 b ∧ a + 4#32 ≤ b ∧ b < last ↔ Aligned 4 b ∧ a ≤ b ∧ b < last := by
      unfold Aligned at *
      bv_omega
    exact if_congr hiff rfl rfl

theorem zeroed_of_le {mem : BitVec 32 → BitVec 32} {a last : BitVec 32} (h : last ≤ a) :
    zeroed mem a last = mem := by
  funext b
  apply if_neg
  bv_omega

/-- The loop, by the number of bytes that are left. -/
theorem runs_clear {s : State} (ha : Aligned 4 (s.get a0)) (hl : Aligned 4 (s.get a1))
    (hlt : s.get a0 < s.get a1) :
    ∃ t, Runs m text clear s (.entered .main t) ∧ t.mem = zeroed s.mem (s.get a0) (s.get a1) ∧
      (∀ r ≠ a0, t.get r = s.get r) ∧ t.f = s.f ∧ t.csr = s.csr := by
  induction hn : (s.get a1).toNat - (s.get a0).toNat using Nat.strongRecOn generalizing s with
  | _ n ih =>
    obtain ⟨u, hu, hua0, huget, huf, hucsr, humem⟩ := exec_clearWord (m := m) ha
    have hua1 := huget a1 (by decide)
    have hsum := zeroed_update s.mem ha hl hlt
    by_cases hmore : u.get a0 < u.get a1
    · have hlast : (s.get a0).toNat + 4 < 4294967296 := by
        unfold Aligned at ha hl
        bv_omega
      obtain ⟨t, hrun, hmem, hget, hf, hcsr⟩ := ih ((u.get a1).toNat - (u.get a0).toNat)
        (by rw [hua0, hua1]; bv_omega) (hua0 ▸ ha.add_ofNat (by decide) (by decide)) (hua1 ▸ hl) hmore rfl
      refine ⟨t, ?_, ?_, ?_, hf.trans huf, hcsr.trans hucsr⟩
      · exact Runs.execs hu (.taken (decide_eq_true hmore) hrun)
      · rw [hmem, humem, hua0, hua1, hsum]
      · intro r hr
        rw [hget r hr, huget r hr]
    · refine ⟨u, Runs.execs hu (.passed (decide_eq_false hmore) .tail), ?_, huget, huf, hucsr⟩
      have hle : s.get a1 ≤ s.get a0 + 4#32 := by
        rw [hua0, hua1] at hmore
        exact BitVec.not_lt.mp hmore
      rw [humem, ← hsum, zeroed_of_le hle]

/-! ## Up to `main` -/

/-- `MIE` of `mstatus`. -/
def mie (s : State) : BitVec 32 := s.csr .mstatus &&& 8#32

theorem mie_csrs {s : State} {v : BitVec 32} (hv : v &&& 8#32 = 0#32) :
    mie (s.setCsr .mstatus (s.csr .mstatus ||| v)) = mie s := by
  rw [mie, State.csr_setCsr, if_pos rfl, BitVec.and_or_distrib_right, hv, BitVec.or_zero, ← mie]

theorem mie_csrc {s : State} {v : BitVec 32} (hv : ~~~v &&& 8#32 = 8#32) :
    mie (s.setCsr .mstatus (s.csr .mstatus &&& ~~~v)) = mie s := by
  rw [mie, State.csr_setCsr, if_pos rfl, BitVec.and_assoc, hv, ← mie]

theorem mie_setCsr_of_ne {s : State} {c : Csr} {v : BitVec 32} (hc : c ≠ .mstatus) :
    mie (s.setCsr c v) = mie s := by
  rw [mie, State.csr_setCsr, if_neg (Ne.symm hc), ← mie]

/-- `csrc` of `MIE`. -/
theorem mie_off (s : State) : mie ((s.set t0 0x8#32).setCsr .mstatus
    (s.csr .mstatus &&& ~~~(s.set t0 0x8#32).get t0)) = 0#32 := by
  rw [State.get_set_self _ _ _ (by decide), mie, State.csr_setCsr, if_pos rfl, BitVec.and_assoc,
    show ~~~8#32 &&& 8#32 = 0#32 by decide, BitVec.and_zero]

/-- `fmv.w.x` to the registers `rs`. -/
theorem execs_fmvs {s : State} (hfs : s.fs ≠ 0#2) (rs : List Reg) : ∃ t,
    execs m (rs.map fun f => .fmvWX f 0) s = some t ∧ (∀ r ∈ rs, t.f r = BitVec.allOnes 32 ++ 0#32) ∧
      (∀ r ∉ rs, t.f r = s.f r) ∧
      t.get = s.get ∧ t.mem = s.mem ∧ (∀ c ≠ .mstatus, t.csr c = s.csr c) ∧ mie t = mie s := by
  induction rs generalizing s with
  | nil => exact ⟨s, rfl, by simp, fun _ _ => rfl, rfl, rfl, fun _ _ => rfl, rfl⟩
  | cons q rs ih =>
    obtain ⟨t, he, hf, hother, hget, hmem, hcsr, hmie⟩ := ih (s := s.setF q (BitVec.allOnes 32 ++ s.get 0))
      (by rw [State.fs_setF]; decide)
    refine ⟨t, ?_, ?_, ?_, hget, hmem, ?_, hmie.trans (mie_csrs (by decide))⟩
    · simp only [List.map_cons, execs, Instr.exec, if_pos hfs, Option.bind_some]
      exact he
    · intro r hr
      by_cases hrs : r ∈ rs
      · exact hf r hrs
      · obtain rfl : r = q := (List.mem_cons.mp hr).resolve_right hrs
        rw [hother r hrs, State.f_setF, State.get_zero, Function.update_self]
    · intro r hr
      rw [List.mem_cons, not_or] at hr
      rw [hother r hr.2, State.f_setF, Function.update_of_ne hr.1]
    · intro c hc
      rw [hcsr c hc, State.setF]
      exact (State.csr_setCsr _ _ _ _).trans (if_neg hc)

theorem exec_setTraps (s : State) : ∃ t, execs m setTraps s = some t ∧ t.get gp = m.addr .globalPointer ∧
    t.get sp = m.addr .initProcessStackEnd ∧ t.csr .mtvec = m.addr .defaultHandler ||| 3#32 ∧
      t.csr .mtvt = m.addr .vectors ∧ mie t = 0#32 ∧ t.mem = s.mem := by
  refine ⟨_, rfl, ?_, ?_, ?_, ?_, ?_, rfl⟩
  · simp [State.get_set, gp, sp, t0, a0]
  · simp [State.get_set, sp, t0]
  · simp [State.csr_setCsr, State.get_set, a0]
  · simp [State.csr_setCsr, State.get_set, a0]
  · exact mie_off _

theorem exec_initialFs (s : State) : ∃ t, execs m initialFs s = some t ∧
    (∀ r ≠ t0, t.get r = s.get r) ∧ t.f = s.f ∧ t.fs = 1#2 ∧ (∀ c ≠ .mstatus, t.csr c = s.csr c) ∧
      mie t = mie s ∧ t.mem = s.mem := by
  let off := (s.set t0 0x6000#32).setCsr .mstatus (s.csr .mstatus &&& ~~~0x6000#32)
  let u := off.set t0 0x2000#32
  have hoff : u.fs = 0#2 := (s.set t0 0x6000#32).fs_csrc_off
  refine ⟨u.setCsr .mstatus (u.csr .mstatus ||| 0x2000#32), ?_, ?_, rfl, ?_, ?_, ?_, rfl⟩
  · simp [initialFs, execs, Instr.exec, State.get_set, t0, off, u]
  · intro r hr
    exact (State.get_set_of_ne off _ _ _ hr).trans (State.get_set_of_ne s _ _ _ hr)
  · rw [State.fs_csrs, hoff, BitVec.zero_or]
    decide
  · intro c hc
    rw [State.csr_setCsr, if_neg hc]
    exact (State.csr_setCsr _ _ _ _).trans (if_neg hc)
  · rw [mie_csrs (by decide)]
    exact mie_csrc (s := s.set t0 0x6000#32) (by decide)

/-- As `initialFs`, and `fcsr` is zero. -/
theorem exec_initFpu (s : State) : ∃ t, execs m initFpu s = some t ∧ (∀ r ≠ t0, t.get r = s.get r) ∧
    t.fs = 1#2 ∧ t.csr .fcsr = 0#32 ∧ (∀ c, c ≠ .mstatus → c ≠ .fcsr → t.csr c = s.csr c) ∧
      mie t = mie s ∧ t.mem = s.mem := by
  obtain ⟨t, ht, hget, -, hfs, hcsr, hmie, hmem⟩ := exec_initialFs (m := m) s
  refine ⟨t.setCsr .fcsr (t.get 0), execs_trans ht rfl, hget, ?_, ?_, ?_, ?_, hmem⟩
  · exact (State.fs_setCsr_of_ne _ _ _ (by decide)).trans hfs
  · rw [State.csr_setCsr, if_pos rfl, State.get_zero]
  · intro c hc hf
    rw [State.csr_setCsr, if_neg hf, hcsr c hc]
  · exact (mie_setCsr_of_ne (by decide)).trans hmie

/-- The floating-point registers stay, and the bounds of `.bss` are in `a0` and `a1`. -/
theorem exec_prepare (s : State) : ∃ t, execs m prepare s = some t ∧ t.get a0 = m.addr .bssStart ∧
    t.get a1 = m.addr .bssEnd ∧ (∀ r, r ≠ t0 → r ≠ a0 → r ≠ a1 → t.get r = s.get r) ∧ t.f = s.f ∧
      t.fs = 1#2 ∧ t.csr .mscratch = 0#32 ∧
      (∀ c, c ≠ .mstatus → c ≠ .mscratch → t.csr c = s.csr c) ∧ mie t = mie s ∧ t.mem = s.mem := by
  let u := s.setCsr .mscratch (s.get 0)
  obtain ⟨e, he, hget, hf, hfs, hcsr, hmie, hmem⟩ := exec_initialFs (m := m) u
  let t := (e.set a0 (m.addr .bssStart)).set a1 (m.addr .bssEnd)
  have hscratch : execs m [.csrw .mscratch 0] s = some u := rfl
  have hprepare : execs m ([.csrw .mscratch 0] ++ (initialFs ++ [.la a0 .bssStart, .la a1 .bssEnd])) s =
      some t :=
    execs_trans hscratch (execs_trans he rfl)
  refine ⟨t, hprepare, ?_, State.get_set_self _ _ _ (by decide), ?_, hf, hfs, ?_, ?_, ?_, hmem⟩
  · simp [State.get_set, a0, a1, t]
  · intro r ht0 ha0 ha1
    rw [State.get_set_of_ne _ _ _ _ ha1, State.get_set_of_ne _ _ _ _ ha0, hget r ht0, State.get_setCsr]
  · rw [State.csr_set, State.csr_set, hcsr _ (by decide), State.csr_setCsr, if_pos rfl, State.get_zero]
  · intro c hc hs
    rw [State.csr_set, State.csr_set, hcsr c hc, State.csr_setCsr, if_neg hs]
  · exact hmie.trans (mie_setCsr_of_ne (by decide))

/-- What `main` begins with, after a start from the memory `mem`. -/
structure Started (m : Machine Label Symbol Empty) (mem : BitVec 32 → BitVec 32) (t : State) : Prop where
  mem : t.mem = zeroed mem (m.addr .bssStart) (m.addr .bssEnd)
  sp : t.get sp = m.addr .initProcessStackEnd
  gp : t.get gp = m.addr .globalPointer
  mtvec : t.csr .mtvec = m.addr .defaultHandler ||| 3#32
  mtvt : t.csr .mtvt = m.addr .vectors
  mscratch : t.csr .mscratch = 0#32
  fcsr : t.csr .fcsr = 0#32
  fs : t.fs = 1#2
  mie : mie t = 0#32
  f : ∀ r, t.f r = BitVec.allOnes 32 ++ 0#32

theorem runs_resetHandler (hs : Aligned 4 (m.addr .bssStart)) (he : Aligned 4 (m.addr .bssEnd)) (s : State) :
    ∃ t, Runs m text (text .resetHandler) s (.entered .main t) ∧ Started m s.mem t := by
  obtain ⟨a, ha, hagp, hasp, hatvec, hatvt, hamie, hamem⟩ := exec_setTraps (m := m) s
  obtain ⟨b, hb, hbget, hbfs, hbfcsr, hbcsr, hbmie, hbmem⟩ := exec_initFpu (m := m) a
  obtain ⟨c, hc, hcf, -, hcget, hcmem, hccsr, hcmie⟩ :=
    execs_fmvs (m := m) (s := b) (by rw [hbfs]; decide) (List.finRange 32)
  obtain ⟨d, hd, hd0, hd1, hdget, hdf, hdfs, hdscratch, hdcsr, hdmie, hdmem⟩ := exec_prepare (m := m) c
  have hbegin : ∀ o, Runs m text (.branch .geu a0 a1 .cleared :: clear) d o →
      Runs m text resetHandler s o := by
    intro o ho
    exact Runs.execs ha (Runs.execs hb (Runs.execs hc (Runs.execs hd ho)))
  have hget : ∀ r, r ≠ t0 → r ≠ a0 → r ≠ a1 → d.get r = a.get r := by
    intro r ht0 ha0 ha1
    rw [hdget r ht0 ha0 ha1, hcget, hbget r ht0]
  have hcsr : ∀ k, k ≠ .mstatus → k ≠ .mscratch → k ≠ .fcsr → d.csr k = a.csr k := by
    intro k h1 h2 h3
    rw [hdcsr k h1 h2, hccsr k h1, hbcsr k h1 h3]
  have hmem : d.mem = s.mem := by rw [hdmem, hcmem, hbmem, hamem]
  have hstarted : ∀ t : State, t.mem = zeroed d.mem (d.get a0) (d.get a1) →
      (∀ r ≠ a0, t.get r = d.get r) → t.f = d.f → t.csr = d.csr → Started m s.mem t := by
    intro t htmem htget htf htcsr
    refine ⟨?_, ?_, ?_, ?_, ?_, ?_, ?_, ?_, ?_, ?_⟩
    · rw [htmem, hmem, hd0, hd1]
    · rw [htget sp (by decide), hget sp (by decide) (by decide) (by decide), hasp]
    · rw [htget gp (by decide), hget gp (by decide) (by decide) (by decide), hagp]
    · rw [htcsr, hcsr _ (by decide) (by decide) (by decide), hatvec]
    · rw [htcsr, hcsr _ (by decide) (by decide) (by decide), hatvt]
    · rw [htcsr, hdscratch]
    · rw [htcsr, hdcsr _ (by decide) (by decide), hccsr _ (by decide), hbfcsr]
    · rw [State.fs, htcsr]
      exact hdfs
    · rw [Startup.mie, htcsr]
      exact hdmie.trans (hcmie.trans (hbmie.trans hamie))
    · intro r
      rw [htf, hdf, hcf r (List.mem_finRange r)]
  by_cases hlt : d.get a0 < d.get a1
  · obtain ⟨t, hrun, htmem, htget, htf, htcsr⟩ := runs_clear (m := m) (hd0 ▸ hs) (hd1 ▸ he) hlt
    refine ⟨t, hbegin _ (.passed ?_ hrun), hstarted t htmem htget htf htcsr⟩
    exact decide_eq_false (BitVec.not_le.mpr hlt)
  · have hle := BitVec.not_lt.mp hlt
    refine ⟨d, hbegin _ (.taken (decide_eq_true hle) .tail), hstarted d ?_ (fun _ _ => rfl) rfl rfl⟩
    rw [zeroed_of_le hle]

/-- An image with 16 words of `.bss`. -/
def image : Machine Label Symbol Empty where
  addr
    | .globalPointer => 0x43c08400#32
    | .defaultHandler => 0x43c00400#32
    | .vectors => 0x43c00100#32
    | .initProcessStackEnd => 0x43c0a000#32
    | .bssStart => 0x43c08000#32
    | .bssEnd => 0x43c08040#32
    | .main => 0x43c01000#32
  callee _ s := s
  custom k _ := k.elim
  link _ := 0#32

/-- A start from a memory full of ones. -/
theorem runs_resetHandler_image : ∃ t, Runs image text (text .resetHandler)
      ⟨fun _ => 0#32, fun _ => 0#64, fun _ => 0#32, fun _ => 0xffffffff#32⟩ (.entered .main t) ∧
    Started image (fun _ => 0xffffffff#32) t :=
  runs_resetHandler (by decide) (by decide) _

end V85x.Startup
