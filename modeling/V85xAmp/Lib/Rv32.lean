import Mathlib.Data.List.Nodup
import Mathlib.Logic.Function.Basic

/-!
# RV32 assembly

A machine for the instructions that trap handlers and start-up code are written in: `State` has the integer
and floating-point registers, the control registers and a memory of words. A word access to an address that
is not a multiple of 4, a double-word access to one that is not a multiple of 8, and a floating-point access
with `mstatus.FS` off, have no result.

A program is its text, from a label to the code that begins there. `Runs` runs code until it returns from the
trap or enters a function that does not return; a function that does return is `Machine.callee`, a function
on states, and an instruction that is not a standard one is `Machine.custom`. A state has one outcome at
most (`Runs.unique`).

`saves` and `restores` are the sequences of `sw` and `lw` that save registers in a frame and bring them back;
`fsaves` and `frestores` those for double floating-point registers.
-/

namespace Firmware.Rv32

abbrev Reg := Fin 32

/-- The register numbers are literals by this one. -/
scoped instance neZero : @NeZero Nat Zero.ofOfNat0 32 := Nat.instNeZeroSucc

/-- The control registers. -/
inductive Csr
  | mstatus
  | mepc
  | mcause
  | mtvec
  | mtvt
  | mscratch
  | fcsr
deriving Repr, DecidableEq

structure State where
  x : Reg → BitVec 32
  f : Reg → BitVec 64
  csr : Csr → BitVec 32
  mem : BitVec 32 → BitVec 32

namespace State

/-- Register 0 reads as 0. -/
def get (s : State) (r : Reg) : BitVec 32 := if r = 0 then 0#32 else s.x r

def set (s : State) (r : Reg) (v : BitVec 32) : State := { s with x := Function.update s.x r v }

def setMem (s : State) (mem : BitVec 32 → BitVec 32) : State := { s with mem := mem }

def setCsr (s : State) (c : Csr) (v : BitVec 32) : State := { s with csr := Function.update s.csr c v }

/-- `mstatus.FS`: 0 is off, 1 initial, 2 clean and 3 dirty. -/
def fs (s : State) : BitVec 2 := (s.csr .mstatus).extractLsb' 13 2

/-- A floating-point register was written. -/
def setF (s : State) (r : Reg) (v : BitVec 64) : State :=
  { s.setCsr .mstatus (s.csr .mstatus ||| 0x6000#32) with f := Function.update s.f r v }

section Lemmas

variable (s : State) (r q : Reg) (v v' : BitVec 32) (w : BitVec 64) (c d : Csr)
variable (mem mem' : BitVec 32 → BitVec 32)

@[simp] theorem get_zero : s.get 0 = 0#32 := rfl

theorem get_set (hr : r ≠ 0) : (s.set r v).get q = if q = r then v else s.get q := by
  by_cases hq : q = r
  · subst hq
    simp [get, set, hr]
  · simp [get, set, hq]

theorem get_set_self (hr : r ≠ 0) : (s.set r v).get r = v := by
  rw [get_set s r r v hr, if_pos rfl]

theorem get_set_of_ne (hq : q ≠ r) : (s.set r v).get q = s.get q := by
  simp [get, set, Function.update_of_ne hq]

@[simp] theorem mem_set : (s.set r v).mem = s.mem := rfl

@[simp] theorem f_set : (s.set r v).f = s.f := rfl

@[simp] theorem csr_set : (s.set r v).csr = s.csr := rfl

@[simp] theorem fs_set : (s.set r v).fs = s.fs := rfl

@[simp] theorem set_set : (s.set r v).set r v' = s.set r v' := by
  simp [set, Function.update_idem]

@[simp] theorem get_setMem : (s.setMem mem).get r = s.get r := rfl

@[simp] theorem mem_setMem : (s.setMem mem).mem = mem := rfl

@[simp] theorem f_setMem : (s.setMem mem).f = s.f := rfl

@[simp] theorem csr_setMem : (s.setMem mem).csr = s.csr := rfl

@[simp] theorem fs_setMem : (s.setMem mem).fs = s.fs := rfl

@[simp] theorem set_setMem : (s.setMem mem).set r v = (s.set r v).setMem mem := rfl

@[simp] theorem setMem_setMem : (s.setMem mem).setMem mem' = s.setMem mem' := rfl

@[simp] theorem get_setCsr : (s.setCsr c v).get r = s.get r := rfl

@[simp] theorem mem_setCsr : (s.setCsr c v).mem = s.mem := rfl

@[simp] theorem f_setCsr : (s.setCsr c v).f = s.f := rfl

theorem csr_setCsr : (s.setCsr c v).csr d = if d = c then v else s.csr d := by
  simp [setCsr, Function.update_apply]

@[simp] theorem get_setF : (s.setF q w).get r = s.get r := rfl

@[simp] theorem mem_setF : (s.setF q w).mem = s.mem := rfl

@[simp] theorem f_setF : (s.setF q w).f = Function.update s.f q w := rfl

/-- `csrs` of `mstatus`. -/
theorem fs_csrs : (s.setCsr .mstatus (s.csr .mstatus ||| v)).fs = s.fs ||| v.extractLsb' 13 2 := by
  simp only [fs, csr_setCsr, if_true, BitVec.extractLsb'_or]

/-- `csrc` of `mstatus`. -/
theorem fs_csrc : (s.setCsr .mstatus (s.csr .mstatus &&& ~~~v)).fs =
    s.fs &&& (~~~v).extractLsb' 13 2 := by
  simp only [fs, csr_setCsr, if_true, BitVec.extractLsb'_and]

theorem fs_setCsr_of_ne (hc : c ≠ .mstatus) : (s.setCsr c v).fs = s.fs := by
  simp only [fs, csr_setCsr, if_neg (Ne.symm hc)]

theorem fs_csrs_dirty : (s.setCsr .mstatus (s.csr .mstatus ||| 0x6000#32)).fs = 3#2 := by
  rw [fs_csrs, show (0x6000#32).extractLsb' 13 2 = BitVec.allOnes 2 by decide, BitVec.or_allOnes]
  rfl

theorem fs_csrc_off : (s.setCsr .mstatus (s.csr .mstatus &&& ~~~0x6000#32)).fs = 0#2 := by
  rw [fs_csrc, show (~~~0x6000#32).extractLsb' 13 2 = 0#2 by decide, BitVec.and_zero]

theorem fs_setF : (s.setF r w).fs = 3#2 := s.fs_csrs_dirty

/-- `srli` by 13 and `andi` with 3 of `mstatus`. -/
theorem srli_andi_mstatus : s.csr .mstatus >>> 13 &&& 3#32 = s.fs.setWidth 32 := by
  apply BitVec.eq_of_toNat_eq
  have h3 : (s.csr .mstatus).toNat >>> 13 &&& 3 = (s.csr .mstatus).toNat >>> 13 % 4 :=
    Nat.and_two_pow_sub_one_eq_mod _ 2
  rw [BitVec.toNat_and, BitVec.toNat_ushiftRight, fs, BitVec.toNat_setWidth, BitVec.extractLsb'_toNat]
  change _ &&& 3 = _
  rw [h3, Nat.mod_eq_of_lt (b := 2 ^ 32)]
  omega

end Lemmas

end State

/-! ## Instructions -/

/-- The comparisons of branches. -/
inductive Cond
  | eq
  | ne
  | lt
  | ltu
  | geu
deriving Repr, DecidableEq

def Cond.holds (a b : BitVec 32) : Cond → Bool
  | .eq => a = b
  | .ne => a ≠ b
  | .lt => a.slt b
  | .ltu => a < b
  | .geu => b ≤ a

/-- Instructions with labels `L`, symbols `S` and non-standard instructions `K`. `jal` enters a function that
does not return, and `tail` is a `j` to one. -/
inductive Instr (L S K : Type)
  | li (rd : Reg) (imm : BitVec 32)
  | la (rd : Reg) (sym : S)
  | addi (rd rs : Reg) (imm : BitVec 32)
  | andi (rd rs : Reg) (imm : BitVec 32)
  | ori (rd rs : Reg) (imm : BitVec 32)
  | slli (rd rs : Reg) (n : Nat)
  | srli (rd rs : Reg) (n : Nat)
  | add (rd rs₁ rs₂ : Reg)
  | lw (rd : Reg) (off : BitVec 32) (rs : Reg)
  | sw (r : Reg) (off : BitVec 32) (rs : Reg)
  | fld (fd : Reg) (off : BitVec 32) (rs : Reg)
  | fsd (f : Reg) (off : BitVec 32) (rs : Reg)
  | fmvWX (fd rs : Reg)
  | csrr (rd : Reg) (c : Csr)
  | csrw (c : Csr) (rs : Reg)
  | csrs (c : Csr) (rs : Reg)
  | csrc (c : Csr) (rs : Reg)
  | custom (k : K)
  | branch (c : Cond) (rs₁ rs₂ : Reg) (label : L)
  | j (label : L)
  | jalr (rs : Reg)
  | jal (sym : S)
  | tail (sym : S)
  | mret
deriving Repr, DecidableEq

variable {L S K : Type}

/-- Where the symbols are, what calls and non-standard instructions do, and the return addresses. -/
structure Machine (L S K : Type) where
  addr : S → BitVec 32
  callee : BitVec 32 → State → State
  custom : K → State → State
  link : List (Instr L S K) → BitVec 32

/-- A multiple of `d`. -/
def Aligned (d : Nat) (a : BitVec 32) : Prop := a.toNat % d = 0

instance (d : Nat) (a : BitVec 32) : Decidable (Aligned d a) := inferInstanceAs (Decidable (_ = _))

/-- An instruction that goes on to the next one. `fmv.w.x` boxes its word in ones. -/
def Instr.exec (m : Machine L S K) (s : State) : Instr L S K → Option State
  | .li rd imm => some (s.set rd imm)
  | .la rd sym => some (s.set rd (m.addr sym))
  | .addi rd rs imm => some (s.set rd (s.get rs + imm))
  | .andi rd rs imm => some (s.set rd (s.get rs &&& imm))
  | .ori rd rs imm => some (s.set rd (s.get rs ||| imm))
  | .slli rd rs n => some (s.set rd (s.get rs <<< n))
  | .srli rd rs n => some (s.set rd (s.get rs >>> n))
  | .add rd rs₁ rs₂ => some (s.set rd (s.get rs₁ + s.get rs₂))
  | .lw rd off rs =>
    let a := s.get rs + off
    if Aligned 4 a then some (s.set rd (s.mem a)) else none
  | .sw r off rs =>
    let a := s.get rs + off
    if Aligned 4 a then some (s.setMem (Function.update s.mem a (s.get r))) else none
  | .fld fd off rs =>
    let a := s.get rs + off
    if Aligned 8 a ∧ s.fs ≠ 0#2 then some (s.setF fd (s.mem (a + 4#32) ++ s.mem a)) else none
  | .fsd f off rs =>
    let a := s.get rs + off
    if Aligned 8 a ∧ s.fs ≠ 0#2 then
      let mem := Function.update s.mem a ((s.f f).extractLsb' 0 32)
      some (s.setMem (Function.update mem (a + 4#32) ((s.f f).extractLsb' 32 32)))
    else none
  | .fmvWX fd rs => if s.fs ≠ 0#2 then some (s.setF fd (BitVec.allOnes 32 ++ s.get rs)) else none
  | .csrr rd c => some (s.set rd (s.csr c))
  | .csrw c rs => some (s.setCsr c (s.get rs))
  | .csrs c rs => some (s.setCsr c (s.csr c ||| s.get rs))
  | .csrc c rs => some (s.setCsr c (s.csr c &&& ~~~s.get rs))
  | .custom k => some (m.custom k s)
  | .branch _ _ _ _ | .j _ | .jalr _ | .jal _ | .tail _ | .mret => none

/-- Instructions in a row. -/
def execs (m : Machine L S K) : List (Instr L S K) → State → Option State
  | [], s => some s
  | i :: code, s => (i.exec m s).bind (execs m code)

/-- How code ends. -/
inductive Outcome (S : Type)
  | returned (s : State)
  | entered (sym : S) (s : State)

/-- `ra`, where `jalr` and `jal` leave the return address. -/
def ra : Reg := 1

/-- Running code to its end. -/
inductive Runs (m : Machine L S K) (text : L → List (Instr L S K)) :
    List (Instr L S K) → State → Outcome S → Prop
  | step {i : Instr L S K} {code : List (Instr L S K)} {s t : State} {o : Outcome S} :
      i.exec m s = some t → Runs m text code t o → Runs m text (i :: code) s o
  | taken {c : Cond} {a b : Reg} {l : L} {code : List (Instr L S K)} {s : State} {o : Outcome S} :
      c.holds (s.get a) (s.get b) = true → Runs m text (text l) s o →
      Runs m text (.branch c a b l :: code) s o
  | passed {c : Cond} {a b : Reg} {l : L} {code : List (Instr L S K)} {s : State} {o : Outcome S} :
      c.holds (s.get a) (s.get b) = false → Runs m text code s o →
      Runs m text (.branch c a b l :: code) s o
  | j {l : L} {code : List (Instr L S K)} {s : State} {o : Outcome S} :
      Runs m text (text l) s o → Runs m text (.j l :: code) s o
  | call {rs : Reg} {code : List (Instr L S K)} {s : State} {o : Outcome S} :
      Runs m text code (m.callee (s.get rs) (s.set ra (m.link code))) o →
      Runs m text (.jalr rs :: code) s o
  | jal {sym : S} {code : List (Instr L S K)} {s : State} :
      Runs m text (.jal sym :: code) s (.entered sym (s.set ra (m.link code)))
  | tail {sym : S} {code : List (Instr L S K)} {s : State} :
      Runs m text (.tail sym :: code) s (.entered sym s)
  | mret {code : List (Instr L S K)} {s : State} : Runs m text (.mret :: code) s (.returned s)

section Runs

variable {m : Machine L S K} {text : L → List (Instr L S K)} {code code' : List (Instr L S K)}
  {s t : State} {o o' : Outcome S}

theorem Runs.unique (h : Runs m text code s o) (h' : Runs m text code s o') : o = o' := by
  induction h with
  | step he _ ih =>
    cases h' with
    | step he' hr =>
      rw [he] at he'
      cases he'
      exact ih hr
    | taken | passed | j | call | jal | tail | mret => cases he
  | taken hc _ ih =>
    cases h' with
    | step he => cases he
    | taken _ hr => exact ih hr
    | passed hc' => rw [hc] at hc'; cases hc'
  | passed hc _ ih =>
    cases h' with
    | step he => cases he
    | taken hc' => rw [hc] at hc'; cases hc'
    | passed _ hr => exact ih hr
  | j _ ih =>
    cases h' with
    | step he => cases he
    | j hr => exact ih hr
  | call _ ih =>
    cases h' with
    | step he => cases he
    | call hr => exact ih hr
  | jal =>
    cases h' with
    | step he => cases he
    | jal => rfl
  | tail =>
    cases h' with
    | step he => cases he
    | tail => rfl
  | mret =>
    cases h' with
    | step he => cases he
    | mret => rfl

theorem execs_append : execs m (code ++ code') s = (execs m code s).bind (execs m code') := by
  induction code generalizing s with
  | nil => rfl
  | cons i code ih =>
    simp only [List.cons_append, execs, Option.bind_assoc]
    congr 1
    funext t
    exact ih

theorem execs_trans {u : Option State} (he : execs m code s = some t) (he' : execs m code' t = u) :
    execs m (code ++ code') s = u := by
  rw [execs_append, he]
  exact he'

/-- Run a block, then the rest. -/
theorem Runs.execs (he : execs m code s = some t) (h : Runs m text code' t o) :
    Runs m text (code ++ code') s o := by
  induction code generalizing s with
  | nil =>
    obtain rfl := Option.some.inj he
    exact h
  | cons i code ih =>
    obtain ⟨u, hu, ht⟩ := Option.bind_eq_some_iff.mp he
    exact .step hu (ih ht)

end Runs

/-! ## Saving registers -/

/-- The words written in a row. -/
def writeAll (mem : BitVec 32 → BitVec 32) (ws : List (BitVec 32 × BitVec 32)) : BitVec 32 → BitVec 32 :=
  ws.foldl (fun mem w => Function.update mem w.1 w.2) mem

theorem writeAll_cons (mem : BitVec 32 → BitVec 32) (w : BitVec 32 × BitVec 32)
    (ws : List (BitVec 32 × BitVec 32)) :
    writeAll mem (w :: ws) = writeAll (Function.update mem w.1 w.2) ws := rfl

theorem writeAll_of_not_mem (mem : BitVec 32 → BitVec 32) {ws : List (BitVec 32 × BitVec 32)} {a : BitVec 32}
    (ha : a ∉ ws.map Prod.fst) : writeAll mem ws a = mem a := by
  induction ws generalizing mem with
  | nil => rfl
  | cons w ws ih =>
    rw [List.map_cons, List.mem_cons, not_or] at ha
    rw [writeAll_cons, ih _ ha.2, Function.update_of_ne ha.1]

/-- Each address is written once: it has its word. -/
theorem writeAll_of_mem (mem : BitVec 32 → BitVec 32) {ws : List (BitVec 32 × BitVec 32)}
    {a v : BitVec 32} (hws : (ws.map Prod.fst).Nodup) (ha : (a, v) ∈ ws) : writeAll mem ws a = v := by
  induction ws generalizing mem with
  | nil => cases ha
  | cons w ws ih =>
    rw [List.map_cons, List.nodup_cons] at hws
    rw [writeAll_cons]
    cases ha with
    | head => rw [writeAll_of_not_mem _ hws.1, Function.update_self]
    | tail _ ha => exact ih _ hws.2 ha

/-- `sw` of each register at its offset. -/
def saves (base : Reg) (rs : List (Reg × Nat)) : List (Instr L S K) :=
  rs.map fun p => .sw p.1 (BitVec.ofNat 32 p.2) base

/-- `lw` of each register from its offset. -/
def restores (base : Reg) (rs : List (Reg × Nat)) : List (Instr L S K) :=
  rs.map fun p => .lw p.1 (BitVec.ofNat 32 p.2) base

/-- `fsd` of each register at its offset. -/
def fsaves (base : Reg) (rs : List (Reg × Nat)) : List (Instr L S K) :=
  rs.map fun p => .fsd p.1 (BitVec.ofNat 32 p.2) base

/-- `fld` of each register from its offset. -/
def frestores (base : Reg) (rs : List (Reg × Nat)) : List (Instr L S K) :=
  rs.map fun p => .fld p.1 (BitVec.ofNat 32 p.2) base

/-- The word of a register at its offset. -/
def words (s : State) (b : BitVec 32) (rs : List (Reg × Nat)) : List (BitVec 32 × BitVec 32) :=
  rs.map fun p => (b + BitVec.ofNat 32 p.2, s.get p.1)

/-- The two words of a floating-point register at its offset. -/
def fwords (s : State) (b : BitVec 32) (rs : List (Reg × Nat)) : List (BitVec 32 × BitVec 32) :=
  rs.flatMap fun p => [(b + BitVec.ofNat 32 p.2, (s.f p.1).extractLsb' 0 32),
    (b + BitVec.ofNat 32 p.2 + 4#32, (s.f p.1).extractLsb' 32 32)]

section Frames

variable {m : Machine L S K} {s : State} (base : Reg) (rs : List (Reg × Nat))

theorem execs_saves (ha : ∀ p ∈ rs, Aligned 4 (s.get base + BitVec.ofNat 32 p.2)) :
    execs m (saves base rs) s = some (s.setMem (writeAll s.mem (words s (s.get base) rs))) := by
  induction rs generalizing s with
  | nil => rfl
  | cons p rs ih =>
    have hp := ha p List.mem_cons_self
    have hrs := fun q hq => ha q (List.mem_cons_of_mem p hq)
    simp only [saves, List.map_cons, execs, Instr.exec, if_pos hp, Option.bind_some]
    exact ih hrs

/-- Each register gets its word; the other registers stay. -/
theorem execs_restores (ha : ∀ p ∈ rs, Aligned 4 (s.get base + BitVec.ofNat 32 p.2))
    (hb : base ∉ rs.map Prod.fst) (h0 : 0 ∉ rs.map Prod.fst) (hrs : (rs.map Prod.fst).Nodup) :
    ∃ t, execs m (restores base rs) s = some t ∧
      (∀ p ∈ rs, t.get p.1 = s.mem (s.get base + BitVec.ofNat 32 p.2)) ∧
      (∀ r ∉ rs.map Prod.fst, t.get r = s.get r) ∧ t.mem = s.mem ∧ t.f = s.f ∧ t.csr = s.csr := by
  induction rs generalizing s with
  | nil => exact ⟨s, rfl, by simp, fun _ _ => rfl, rfl, rfl, rfl⟩
  | cons p rs ih =>
    simp only [List.map_cons, List.mem_cons, not_or, List.nodup_cons] at hb h0 hrs
    have hbase := s.get_set_of_ne p.1 base (s.mem (s.get base + BitVec.ofNat 32 p.2)) hb.1
    obtain ⟨t, he, hget, hother, hmem, hf, hcsr⟩ :=
      ih (s := s.set p.1 (s.mem (s.get base + BitVec.ofNat 32 p.2)))
        (fun q hq => by rw [hbase]; exact ha q (List.mem_cons_of_mem p hq)) hb.2 h0.2 hrs.2
    refine ⟨t, ?_, ?_, ?_, hmem, hf, hcsr⟩
    · simp only [restores, List.map_cons, execs, Instr.exec, if_pos (ha p List.mem_cons_self),
        Option.bind_some]
      exact he
    · intro q hq
      cases hq with
      | head => rw [hother _ hrs.1, State.get_set_self _ _ _ (Ne.symm h0.1)]
      | tail _ hq => rw [hget q hq, hbase, State.mem_set]
    · intro r hr
      rw [List.map_cons, List.mem_cons, not_or] at hr
      rw [hother r hr.2, State.get_set_of_ne _ _ _ _ hr.1]

theorem execs_fsaves (hfs : s.fs ≠ 0#2)
    (ha : ∀ p ∈ rs, Aligned 8 (s.get base + BitVec.ofNat 32 p.2)) :
    execs m (fsaves base rs) s = some (s.setMem (writeAll s.mem (fwords s (s.get base) rs))) := by
  induction rs generalizing s with
  | nil => rfl
  | cons p rs ih =>
    have hp := ha p List.mem_cons_self
    have hrs := fun q hq => ha q (List.mem_cons_of_mem p hq)
    simp only [fsaves, List.map_cons, execs, Instr.exec, if_pos (And.intro hp hfs), Option.bind_some]
    exact ih hfs hrs

/-- Each register gets its two words, and `FS` is dirty; the other registers stay. -/
theorem execs_frestores (hfs : s.fs ≠ 0#2)
    (ha : ∀ p ∈ rs, Aligned 8 (s.get base + BitVec.ofNat 32 p.2)) (hrs : (rs.map Prod.fst).Nodup) :
    ∃ t, execs m (frestores base rs) s = some t ∧
      (∀ p ∈ rs, t.f p.1 = s.mem (s.get base + BitVec.ofNat 32 p.2 + 4#32) ++
        s.mem (s.get base + BitVec.ofNat 32 p.2)) ∧
      (∀ r ∉ rs.map Prod.fst, t.f r = s.f r) ∧ t.get = s.get ∧ t.mem = s.mem ∧
      (∀ c ≠ .mstatus, t.csr c = s.csr c) ∧ t.fs ≠ 0#2 := by
  induction rs generalizing s with
  | nil => exact ⟨s, rfl, by simp, fun _ _ => rfl, rfl, rfl, fun _ _ => rfl, hfs⟩
  | cons p rs ih =>
    rw [List.map_cons, List.nodup_cons] at hrs
    obtain ⟨t, he, hf, hother, hget, hmem, hcsr, hon⟩ :=
      ih (s := s.setF p.1 (s.mem (s.get base + BitVec.ofNat 32 p.2 + 4#32) ++
        s.mem (s.get base + BitVec.ofNat 32 p.2))) (by rw [State.fs_setF]; decide)
        (fun q hq => ha q (List.mem_cons_of_mem p hq)) hrs.2
    refine ⟨t, ?_, ?_, ?_, hget, hmem, ?_, hon⟩
    · simp only [frestores, List.map_cons, execs, Instr.exec,
        if_pos (And.intro (ha p List.mem_cons_self) hfs), Option.bind_some]
      exact he
    · intro q hq
      cases hq with
      | head => rw [hother _ hrs.1, State.f_setF, Function.update_self]
      | tail _ hq => exact hf q hq
    · intro r hr
      rw [List.map_cons, List.mem_cons, not_or] at hr
      rw [hother r hr.2, State.f_setF, Function.update_of_ne hr.1]
    · intro c hc
      rw [hcsr c hc, State.setF]
      exact (State.csr_setCsr _ _ _ _).trans (if_neg hc)

end Frames

/-! ## Frames -/

theorem Aligned.of_dvd {a : BitVec 32} {d e : Nat} (ha : Aligned d a) (he : e ∣ d) : Aligned e a :=
  Nat.mod_eq_zero_of_dvd (Nat.dvd_trans he (Nat.dvd_of_mod_eq_zero ha))

theorem Aligned.add_ofNat {a : BitVec 32} {d k : Nat} (ha : Aligned d a) (hd : d ∣ 4294967296)
    (hk : k % d = 0) : Aligned d (a + BitVec.ofNat 32 k) := by
  unfold Aligned at ha ⊢
  rw [BitVec.toNat_add, BitVec.toNat_ofNat, Nat.add_mod_mod, Nat.mod_mod_of_dvd _ hd, Nat.add_mod, ha, hk,
    Nat.zero_mod]

theorem Aligned.sub_ofNat {a : BitVec 32} {d k : Nat} (ha : Aligned d a) (hd : d ∣ 4294967296)
    (hk : k % d = 0) (hlt : k < 4294967296) : Aligned d (a - BitVec.ofNat 32 k) := by
  have hmod : (a - BitVec.ofNat 32 k).toNat % d = (4294967296 - k + a.toNat) % d := by
    rw [BitVec.toNat_sub, BitVec.toNat_ofNat, Nat.mod_eq_of_lt hlt]
    exact Nat.mod_mod_of_dvd _ hd
  unfold Aligned at ha ⊢
  rw [hmod]
  exact Nat.mod_eq_zero_of_dvd (Nat.dvd_add (Nat.dvd_sub hd (Nat.dvd_of_mod_eq_zero hk))
    (Nat.dvd_of_mod_eq_zero ha))

theorem add_ofNat_inj {b : BitVec 32} {j k : Nat} (hj : j < 4294967296) (hk : k < 4294967296)
    (h : b + BitVec.ofNat 32 j = b + BitVec.ofNat 32 k) : j = k := by
  have h := congrArg BitVec.toNat (BitVec.add_right_inj b |>.mp h)
  rwa [BitVec.toNat_ofNat, BitVec.toNat_ofNat, Nat.mod_eq_of_lt hj, Nat.mod_eq_of_lt hk] at h

/-- `a` is none of the `n` bytes from `b` on. -/
def Outside (b : BitVec 32) (n : Nat) (a : BitVec 32) : Prop := ∀ k < n, a ≠ b + BitVec.ofNat 32 k

theorem sub_ofNat_add {a : BitVec 32} {n k j : Nat} (hk : k + j = n) :
    a - BitVec.ofNat 32 n + BitVec.ofNat 32 j = a - BitVec.ofNat 32 k := by
  subst hk
  rw [BitVec.ofNat_add]
  generalize BitVec.ofNat 32 k = x
  generalize BitVec.ofNat 32 j = y
  bv_omega

/-- A word outside the `n` bytes below `a` is outside any part of them. -/
theorem Outside.mono {a b : BitVec 32} {n i k : Nat} (h : Outside (b - BitVec.ofNat 32 n) n a) (hk : k ≤ i)
    (hi : i ≤ n) : Outside (b - BitVec.ofNat 32 i) k a := by
  intro j hj heq
  apply h (n - i + j) (by omega)
  rw [heq, BitVec.ofNat_add, ← BitVec.add_assoc, sub_ofNat_add (Nat.add_sub_cancel' hi)]

theorem Outside.ne_sub {a b : BitVec 32} {n i : Nat} (h : Outside (b - BitVec.ofNat 32 n) n a) (hi : i ≤ n)
    (h0 : 0 < i) : a ≠ b - BitVec.ofNat 32 i := by
  have hk := h (n - i) (by omega)
  rwa [sub_ofNat_add (Nat.add_sub_cancel' hi)] at hk

/-- Offsets within `n` bytes, each of them once. -/
def Fits (n : Nat) (os : List Nat) : Prop := os.Nodup ∧ ∀ o ∈ os, o < n

instance (n : Nat) (os : List Nat) : Decidable (Fits n os) := inferInstanceAs (Decidable (_ ∧ _))

section Frames

variable {s : State} {b : BitVec 32} {n : Nat} {os : List Nat} {rs : List (Reg × Nat)}

theorem Fits.nodup (h : Fits n os) (hn : n ≤ 4294967296) :
    (os.map fun o => b + BitVec.ofNat 32 o).Nodup :=
  h.1.map_on fun _ hj _ hk => add_ofNat_inj (Nat.lt_of_lt_of_le (h.2 _ hj) hn)
    (Nat.lt_of_lt_of_le (h.2 _ hk) hn)

theorem Fits.not_mem {a : BitVec 32} (h : Fits n os) (ha : Outside b n a) :
    a ∉ os.map fun o => b + BitVec.ofNat 32 o := by
  intro hm
  obtain ⟨o, ho, rfl⟩ := List.mem_map.mp hm
  exact ha o (h.2 o ho) rfl

theorem map_fst_words :
    (words s b rs).map Prod.fst = (rs.map Prod.snd).map fun o => b + BitVec.ofNat 32 o := by
  simp only [words, List.map_map]
  rfl

/-- The offsets of the two words of each floating-point register. -/
def foffsets (rs : List (Reg × Nat)) : List Nat := rs.flatMap fun p => [p.2, p.2 + 4]

theorem map_fst_fwords :
    (fwords s b rs).map Prod.fst = (foffsets rs).map fun o => b + BitVec.ofNat 32 o := by
  simp only [fwords, foffsets, List.map_flatMap]
  congr 1
  funext p
  simp only [List.map_cons, List.map_nil, BitVec.ofNat_add, BitVec.add_assoc]

/-- What a frame of words has after `saves`, and what stays. -/
theorem writeAll_words (h : Fits n (rs.map Prod.snd)) (hn : n ≤ 4294967296) (mem : BitVec 32 → BitVec 32) :
    (∀ p ∈ rs, writeAll mem (words s b rs) (b + BitVec.ofNat 32 p.2) = s.get p.1) ∧
      ∀ a, Outside b n a → writeAll mem (words s b rs) a = mem a := by
  constructor
  · intro p hp
    apply writeAll_of_mem
    · rw [map_fst_words]
      exact h.nodup hn
    · exact List.mem_map.mpr ⟨p, hp, rfl⟩
  · intro a ha
    apply writeAll_of_not_mem
    rw [map_fst_words]
    exact h.not_mem ha

/-- The same after `fsaves`. -/
theorem writeAll_fwords (h : Fits n (foffsets rs)) (hn : n ≤ 4294967296) (mem : BitVec 32 → BitVec 32) :
    (∀ p ∈ rs, writeAll mem (fwords s b rs) (b + BitVec.ofNat 32 p.2 + 4#32) ++
        writeAll mem (fwords s b rs) (b + BitVec.ofNat 32 p.2) = s.f p.1) ∧
      ∀ a, Outside b n a → writeAll mem (fwords s b rs) a = mem a := by
  have hws : ((fwords s b rs).map Prod.fst).Nodup := by
    rw [map_fst_fwords]
    exact h.nodup hn
  constructor
  · intro p hp
    have hlo : (b + BitVec.ofNat 32 p.2, (s.f p.1).extractLsb' 0 32) ∈ fwords s b rs :=
      List.mem_flatMap.mpr ⟨p, hp, List.mem_cons_self⟩
    have hhi : (b + BitVec.ofNat 32 p.2 + 4#32, (s.f p.1).extractLsb' 32 32) ∈ fwords s b rs :=
      List.mem_flatMap.mpr ⟨p, hp, List.mem_cons_of_mem _ List.mem_cons_self⟩
    rw [writeAll_of_mem mem hws hlo, writeAll_of_mem mem hws hhi]
    exact BitVec.extractLsb'_append_extractLsb'_eq_extractLsb' (by rfl) |>.trans (BitVec.extractLsb'_eq_self)
  · intro a ha
    apply writeAll_of_not_mem
    rw [map_fst_fwords]
    exact h.not_mem ha

end Frames

/-! ## The calling convention -/

/-- The registers that a function keeps, with `gp` and `tp`. -/
def calleeSaved : List Reg := [3, 4, 8, 9, 18, 19, 20, 21, 22, 23, 24, 25, 26, 27]

/-- The floating-point registers that a function keeps. -/
def fCalleeSaved : List Reg := [8, 9, 18, 19, 20, 21, 22, 23, 24, 25, 26, 27]

/-- What a function keeps, from `s` at its entry to `t` at its return: the stack pointer, the registers
above, the `n` bytes of its caller's frame, and a floating-point unit that is on. -/
structure Abi (n : Nat) (s t : State) : Prop where
  sp : t.get 2 = s.get 2
  get : ∀ r ∈ calleeSaved, t.get r = s.get r
  f : ∀ r ∈ fCalleeSaved, t.f r = s.f r
  frame : ∀ k < n, t.mem (s.get 2 + BitVec.ofNat 32 k) = s.mem (s.get 2 + BitVec.ofNat 32 k)
  on : s.fs ≠ 0#2 → t.fs ≠ 0#2

end Firmware.Rv32
