import V85xAmp.Lib.Links
import V85xAmp.Lib.Run
import V85xAmp.Mailbox.Basic

/-!
# The endpoint list

`s.Linked l`: the walk from `it_edp` sees the endpoints `l`. `Allocates` and `Frees` say all that a
call does to a state with such a list.

* `hal_msgbox_alloc_channel` links the endpoint behind the last one (`alloc_spec`). The list up to the
  endpoint survives; when the endpoint was linked already, what stood behind it is lost.
* `hal_msgbox_free_channel` takes the endpoint out (`free_spec`); one that is not linked stays out. The
  call returns if and only if the first endpoint left, if any, has a read channel (`free_returns_iff`).

`exact_iff_along_atEnd` follows a run: the list stays exactly the list of the allocated endpoints if and
only if no call allocates an endpoint that is linked with another one behind it.
-/

namespace V85x

open Firmware

namespace Mailbox

variable {Ep : Type}

/-- The list from `it_edp` is NULL-terminated and holds the endpoints `l` in this order. -/
def Linked (s : Mailbox Ep) (l : List Ep) : Prop := Chain s.next s.itEdp l

/-- An endpoint without its link. -/
def cfg (s : Mailbox Ep) (e : Ep) : MsgEndpoint Ep := { s.ep e with next := none }

variable {s t : Mailbox Ep} {l : List Ep} {e z : Ep}

theorem Linked.unique {l' : List Ep} (h : s.Linked l) (h' : s.Linked l') : l = l' := Chain.unique h h'

theorem Linked.nodup (h : s.Linked l) : l.Nodup := Chain.nodup h

@[simp] theorem readCh_cfg : (s.cfg e).readCh = (s.ep e).readCh := rfl

@[simp] theorem cfg_msgboxDisableRecInt : (msgboxDisableRecInt e s).cfg = s.cfg := rfl

variable [DecidableEq Ep]

@[simp] theorem next_setNext (v : Option Ep) :
    (s.setNext z v).next = Function.update s.next z v := by
  funext e
  by_cases he : e = z
  · subst he
    simp [next, setNext, setEp]
  · simp [next, setNext, setEp, Function.update_of_ne he]

@[simp] theorem itEdp_setNext (v : Option Ep) : (s.setNext z v).itEdp = s.itEdp := rfl

@[simp] theorem reg_setNext (v : Option Ep) : (s.setNext z v).reg = s.reg := rfl

@[simp] theorem cfg_setNext (v : Option Ep) : (s.setNext z v).cfg = s.cfg := by
  funext e
  by_cases he : e = z
  · subst he
    simp [cfg, setNext, setEp]
  · simp [cfg, setNext, setEp, Function.update_of_ne he]

end Mailbox

open Mailbox

variable {Ep : Type} [DecidableEq Ep] {s t : Mailbox Ep} {l : List Ep} {edp z : Ep} {p : Option Ep}

/-! ## Allocating -/

/-- The walk of `hal_msgbox_alloc_channel` stops at the last endpoint. -/
theorem linkLast_returns (h : Chain s.next p (l ++ [z])) :
    (linkLast edp s p).Returns (s.setNext z (some edp)) := by
  induction l generalizing p with
  | nil =>
    obtain ⟨rfl, hz⟩ := h
    refine Comp.returns_loop.mpr ⟨.inr (s.setNext z (some edp)), ?_, rfl⟩
    simp [show (s.ep z).next = none from hz]
  | cons a l ih =>
    obtain ⟨rfl, ha⟩ := h
    obtain ⟨b, hb⟩ : ∃ b, s.next a = some b := by
      cases l with
      | nil => exact ⟨z, ha.1⟩
      | cons b l => exact ⟨b, ha.1⟩
    refine Comp.returns_loop.mpr ⟨.inl (s.next a), ?_, ih ha⟩
    simp [show (s.ep a).next = some b from hb, hb]

/-- All that `hal_msgbox_alloc_channel(edp, remote, read, write)` does to a state with the list `l`. -/
structure Allocates (s : Mailbox Ep) (l : List Ep) (edp : Ep) (remote read write : Int)
    (t : Mailbox Ep) : Prop where
  linked : t.Linked (l.takeWhile (· ≠ edp) ++ [edp])
  self : t.ep edp = ⟨thisMsgboxUse, remote, write, read, none⟩
  other : ∀ e, e ≠ edp → t.cfg e = s.cfg e
  reg : t.reg = if 0 ≤ read then
      Function.update s.reg (recIntReg (t.ep edp)) (s.reg (recIntReg (t.ep edp)) ||| recIntBit (t.ep edp))
    else s.reg

theorem addToList_spec (h : s.Linked l) (edp : Ep) :
    ∃ t, (addToList edp s).Returns t ∧
      (t.setNext edp none).Linked (l.takeWhile (· ≠ edp) ++ [edp]) ∧ t.cfg = s.cfg ∧ t.reg = s.reg := by
  unfold addToList
  rcases List.eq_nil_or_concat' l with rfl | ⟨l, z, rfl⟩
  · have hnil : s.itEdp = none := h
    refine ⟨{ s with itEdp := some edp }, by simp [hnil], ?_, rfl, rfl⟩
    simp [Linked, Chain]
  · obtain ⟨a, ha⟩ : ∃ a, s.itEdp = some a := by
      cases l with
      | nil => exact ⟨z, h.1⟩
      | cons a l => exact ⟨a, h.1⟩
    refine ⟨s.setNext z (some edp), ?_, ?_, cfg_setNext _, rfl⟩
    · simp only [ha]
      rw [← ha]
      exact linkLast_returns h
    · simp only [Linked, next_setNext, itEdp_setNext]
      exact Chain.link h edp

theorem alloc_spec (h : s.Linked l) (edp : Ep) (remote read write : Int) :
    ∃ t, (halMsgboxAllocChannel edp remote read write s).Returns (0#32, t) ∧
      Allocates s l edp remote read write t := by
  let s₁ := s.setEp edp
    { s.ep edp with localAmp := thisMsgboxUse, remoteAmp := remote, readCh := read, writeCh := write }
  have hnext : s₁.next = s.next := by
    funext e
    by_cases he : e = edp
    · subst he
      simp [s₁, next, setEp]
    · simp [s₁, next, setEp, Function.update_of_ne he]
  have h₁ : s₁.Linked l := by
    rw [Linked, hnext]
    exact h
  obtain ⟨s₂, hlink, hl, hcfg, hreg⟩ := addToList_spec h₁ edp
  have hreg : s₂.reg = s.reg := hreg
  have hself : (s₂.setNext edp none).ep edp = ⟨thisMsgboxUse, remote, write, read, none⟩ := by
    have := congrFun hcfg edp
    simp only [cfg, s₁, setEp, Function.update_self, MsgEndpoint.mk.injEq, and_true] at this
    simp [setNext, setEp, this]
  have hother : ∀ e, e ≠ edp → (s₂.setNext edp none).cfg e = s.cfg e := by
    intro e he
    rw [cfg_setNext, hcfg]
    simp [cfg, s₁, setEp, Function.update_of_ne he]
  refine ⟨if 0 ≤ read then msgboxEnableRecInt edp (s₂.setNext edp none) else s₂.setNext edp none,
    Comp.returns_bind.mpr ⟨s₂, hlink, Comp.returns_pure.mpr rfl⟩, ?_⟩
  split
  · next hread => exact ⟨hl, hself, hother, by
      rw [if_pos hread]
      simp only [msgboxEnableRecInt, reg_setNext, hreg]⟩
  · next hread => exact ⟨hl, hself, hother, by rw [if_neg hread, reg_setNext, hreg]⟩

/-! ## Freeing -/

/-- The walk of `hal_msgbox_free_channel` finds no predecessor. -/
theorem unlinkAfter_of_notMem (h : Chain s.next p l) (he : edp ∉ l.tail) :
    (unlinkAfter edp s p).Returns s := by
  induction l generalizing p with
  | nil =>
    obtain rfl : p = none := h
    exact Comp.returns_loop.mpr ⟨.inr s, by simp, rfl⟩
  | cons a l ih =>
    obtain ⟨rfl, ha⟩ := h
    have hne : (s.ep a).next ≠ some edp := by
      rintro hn
      cases l with
      | nil => exact absurd (ha.symm.trans hn) (by simp)
      | cons b l => exact he (by simp [Option.some.inj (ha.1.symm.trans hn)])
    exact Comp.returns_loop.mpr ⟨.inl (s.next a), by simp [hne, next],
      ih ha fun hm => he (List.mem_of_mem_tail hm)⟩

/-- The walk of `hal_msgbox_free_channel` takes the endpoint out behind its predecessor. -/
theorem unlinkAfter_of_mem {l₁ l₂ : List Ep} (h : Chain s.next p (l₁ ++ [z] ++ edp :: l₂)) :
    (unlinkAfter edp s p).Returns (s.setNext z (s.next edp)) := by
  induction l₁ generalizing p with
  | nil =>
    obtain ⟨rfl, hz, -⟩ := h
    exact Comp.returns_loop.mpr ⟨.inr (s.setNext z (s.next edp)),
      by simp [show (s.ep z).next = some edp from hz, next], rfl⟩
  | cons a l₁ ih =>
    have hnodup := Chain.nodup h
    obtain ⟨rfl, ha⟩ := h
    have hne : (s.ep a).next ≠ some edp := by
      rintro hn
      cases l₁ with
      | nil =>
        obtain rfl := Option.some.inj (ha.1.symm.trans hn)
        simp at hnodup
      | cons b l =>
        obtain rfl := Option.some.inj (ha.1.symm.trans hn)
        simp at hnodup
    exact Comp.returns_loop.mpr ⟨.inl (s.next a), by simp [hne, next], ih ha⟩

/-- The list part of `hal_msgbox_free_channel`. -/
theorem takeFromList_spec (h : s.Linked l) (edp : Ep) :
    ∃ t, (takeFromList edp s).Returns t ∧ (t.setNext edp none).Linked (l.erase edp) ∧
      t.cfg = s.cfg ∧ t.reg = s.reg := by
  unfold takeFromList
  have hnodup := h.nodup
  by_cases hmem : edp ∈ l
  · obtain ⟨l₁, l₂, he₁, rfl, herase⟩ := List.exists_erase_eq hmem
    rw [herase]
    rcases List.eq_nil_or_concat' l₁ with rfl | ⟨l₁, z, rfl⟩
    · obtain ⟨hhead, htail⟩ := h
      refine ⟨{ s with itEdp := (s.ep edp).next }, by simp [hhead], ?_, rfl, rfl⟩
      simp only [Linked, next_setNext, itEdp_setNext, List.nil_append]
      exact htail.update (by simpa using (List.nodup_cons.mp hnodup).1) none
    · have hhead : s.itEdp ≠ some edp := by
        intro hhead
        cases l₁ with
        | nil => exact he₁ (by simp [Option.some.inj (h.1.symm.trans hhead)])
        | cons a l₁ => exact he₁ (by simp [Option.some.inj (h.1.symm.trans hhead)])
      rw [if_neg hhead]
      refine ⟨s.setNext z (s.next edp), unlinkAfter_of_mem h, ?_, cfg_setNext _, rfl⟩
      simp only [Linked, next_setNext, itEdp_setNext]
      exact Chain.unlink h
  · have hhead : s.itEdp ≠ some edp := by
      intro hhead
      cases l with
      | nil => exact absurd ((show s.itEdp = none from h).symm.trans hhead) (by simp)
      | cons a l => exact hmem (by simp [Option.some.inj (h.1.symm.trans hhead)])
    rw [if_neg hhead, List.erase_of_not_mem hmem]
    refine ⟨s, unlinkAfter_of_notMem h fun hm => hmem (List.mem_of_mem_tail hm), ?_, rfl, rfl⟩
    simp only [Linked, next_setNext, itEdp_setNext]
    exact h.update hmem none

/-! `rev_int` only looks at the first endpoint, and a send-only one keeps it there forever. -/

omit [DecidableEq Ep] in
theorem revInt_nil (h : s.Linked []) : (revInt s s.itEdp).Returns false := by
  rw [show s.itEdp = none from h]
  exact Comp.returns_loop.mpr ⟨.inr false, by simp, rfl⟩

omit [DecidableEq Ep] in
theorem revInt_cons (h : s.Linked (edp :: l)) (hread : 0 ≤ (s.ep edp).readCh) :
    (revInt s s.itEdp).Returns true := by
  rw [h.1]
  exact Comp.returns_loop.mpr ⟨.inr true, by simp [hread], rfl⟩

omit [DecidableEq Ep] in
theorem revInt_diverges (h : s.Linked (edp :: l)) (hread : (s.ep edp).readCh < 0) :
    (revInt s s.itEdp).Diverges := by
  rw [h.1]
  refine Comp.loop_diverges (· = some edp) ?_ (some edp) rfl
  rintro _ rfl
  exact ⟨some edp, by simp [show ¬ 0 ≤ (s.ep edp).readCh by omega], rfl⟩

/-- All that a call of `hal_msgbox_free_channel(edp)` that returns does to a state with the list `l`.
The enable bit is cleared only when the list becomes empty. -/
structure Frees (s : Mailbox Ep) (l : List Ep) (edp : Ep) (t : Mailbox Ep) : Prop where
  linked : t.Linked (l.erase edp)
  cfg : t.cfg = s.cfg
  reg : t.reg = if l.erase edp = [] then
      Function.update s.reg (recIntReg (s.cfg edp))
        (s.reg (recIntReg (s.cfg edp)) &&& ~~~ recIntBit (s.cfg edp))
    else s.reg

/-- The list part of `hal_msgbox_free_channel` always ends; what follows is up to `rev_int`. -/
theorem free_cases (h : s.Linked l) (edp : Ep) :
    ∃ s₁, s₁.Linked (l.erase edp) ∧ s₁.cfg = s.cfg ∧ s₁.reg = s.reg ∧ s₁.ep edp = s.cfg edp ∧
      ∀ t, (halMsgboxFreeChannel edp s).Returns t ↔
        ∃ rev, (revInt s₁ s₁.itEdp).Returns rev ∧ (if rev then s₁ else msgboxDisableRecInt edp s₁) = t := by
  obtain ⟨s₁, htake, hl, hcfg, hreg⟩ := takeFromList_spec h edp
  have hself : (s₁.setNext edp none).ep edp = s.cfg edp := by
    have := congrFun hcfg edp
    simpa [Mailbox.cfg, setNext, setEp] using this
  refine ⟨s₁.setNext edp none, hl, by rw [cfg_setNext, hcfg], hreg, hself, fun t => ?_⟩
  rw [halMsgboxFreeChannel, Comp.returns_bind]
  constructor
  · rintro ⟨s₂, htake', ht⟩
    obtain rfl := htake.unique htake'
    obtain ⟨rev, hrev, ht⟩ := Comp.returns_bind.mp ht
    exact ⟨rev, hrev, Comp.returns_pure.mp ht⟩
  · rintro ⟨rev, hrev, ht⟩
    exact ⟨s₁, htake, Comp.returns_bind.mpr ⟨rev, hrev, Comp.returns_pure.mpr ht⟩⟩

theorem free_spec (h : s.Linked l) (ht : (halMsgboxFreeChannel edp s).Returns t) : Frees s l edp t := by
  obtain ⟨s₁, hl, hcfg, hreg, hself, hcall⟩ := free_cases h edp
  obtain ⟨rev, hrev, rfl⟩ := (hcall t).mp ht
  cases hrest : l.erase edp with
  | nil =>
    rw [hrest] at hl
    obtain rfl := (revInt_nil hl).unique hrev
    simp only [Bool.false_eq_true, if_false]
    refine ⟨by rw [hrest]; exact hl, by rw [cfg_msgboxDisableRecInt, hcfg], ?_⟩
    simp only [hrest, if_true, msgboxDisableRecInt, hself, hreg]
  | cons e rest =>
    rw [hrest] at hl
    have hread : 0 ≤ (s₁.ep e).readCh := by
      by_contra hread
      exact (revInt_diverges hl (by omega)).not_returns _ hrev
    obtain rfl := (revInt_cons hl hread).unique hrev
    exact ⟨by rw [hrest]; exact hl, by rw [if_pos rfl, hcfg], by simp [hrest, hreg]⟩

/-- No endpoint is left in `l` once `edp` is out, or the first one left has a read channel. -/
def FirstLeftReads (s : Mailbox Ep) (l : List Ep) (edp : Ep) : Prop :=
  ∀ e ∈ (l.erase edp).head?, 0 ≤ (s.ep e).readCh

/-- The call ends if and only if `rev_int` does not meet a send-only endpoint first. -/
theorem free_returns_iff (h : s.Linked l) (edp : Ep) :
    (∃ t, (halMsgboxFreeChannel edp s).Returns t) ↔ FirstLeftReads s l edp := by
  obtain ⟨s₁, hl, hcfg, -, -, hcall⟩ := free_cases h edp
  have hread : ∀ e, (s₁.ep e).readCh = (s.ep e).readCh := fun e => by
    rw [← readCh_cfg, hcfg, readCh_cfg]
  unfold FirstLeftReads
  cases hrest : l.erase edp with
  | nil =>
    rw [hrest] at hl
    exact iff_of_true ⟨_, (hcall _).mpr ⟨false, revInt_nil hl, rfl⟩⟩ (by simp)
  | cons e rest =>
    rw [hrest] at hl
    simp only [List.head?_cons, Option.mem_some_iff, forall_eq']
    constructor
    · rintro ⟨t, ht⟩
      obtain ⟨rev, hrev, -⟩ := (hcall t).mp ht
      by_contra hneg
      exact (revInt_diverges hl (by rw [hread]; omega)).not_returns _ hrev
    · intro hpos
      exact ⟨_, (hcall _).mpr ⟨true, revInt_cons hl (by rw [hread]; exact hpos), rfl⟩⟩

/-- Two endpoints, `false` before `true`, the first one send-only. -/
def sendOnlyFirst : Mailbox Bool where
  itEdp := some false
  ep
    | false => ⟨1, 0, 3, -1, some true⟩
    | true => ⟨1, 0, 3, 2, none⟩
  reg _ := 0#32

theorem sendOnlyFirst_linked : sendOnlyFirst.Linked [false, true] := ⟨rfl, rfl, rfl⟩

/-- Freeing the send-only endpoint leaves the one that reads. -/
theorem free_returns_sendOnly : ∃ t, (halMsgboxFreeChannel false sendOnlyFirst).Returns t :=
  (free_returns_iff sendOnlyFirst_linked false).mpr (by unfold FirstLeftReads; decide)

/-- Freeing the endpoint that reads leaves the send-only one in front, and the call never returns. -/
theorem free_never_returns :
    sendOnlyFirst.Linked [false, true] ∧ ∀ t, ¬ (halMsgboxFreeChannel true sendOnlyFirst).Returns t := by
  refine ⟨sendOnlyFirst_linked, fun t ht => ?_⟩
  obtain ⟨s₁, hl, hcfg, -, -, hcall⟩ := free_cases sendOnlyFirst_linked true
  obtain ⟨rev, hrev, -⟩ := (hcall t).mp ht
  have hread : (s₁.ep false).readCh = -1 := by
    rw [← readCh_cfg, hcfg]
    rfl
  exact (revInt_diverges hl (by omega)).not_returns rev hrev

/-! ## Runs -/

inductive ChannelCall (Ep : Type)
  | alloc (edp : Ep) (remote read write : Int)
  | free (edp : Ep)
deriving Repr, DecidableEq

/-- The mailbox and the endpoints that are allocated: the last call for them, if any, was an
`alloc`. -/
structure Tracked (Ep : Type) where
  mbox : Mailbox Ep
  allocated : Ep → Bool

/-- The state after a call, if the call returns. -/
def ChannelCall.exec : ChannelCall Ep → Tracked Ep → Comp (Tracked Ep)
  | .alloc edp remote read write, s => do
    let (_, mbox) ← halMsgboxAllocChannel edp remote read write s.mbox
    pure ⟨mbox, Function.update s.allocated edp true⟩
  | .free edp, s => do
    let mbox ← halMsgboxFreeChannel edp s.mbox
    pure ⟨mbox, Function.update s.allocated edp false⟩

namespace Tracked

/-- A call that returns. -/
def CallStep (s : Tracked Ep) (c : ChannelCall Ep) (t : Tracked Ep) : Prop := (c.exec s).Returns t

/-- An empty list, whatever the memory of the endpoints holds. -/
def Initial (s : Tracked Ep) : Prop := s.mbox.itEdp = none ∧ ∀ e, s.allocated e = false

/-- The list from `it_edp` is NULL-terminated and holds each allocated endpoint exactly once, and no
other endpoint. -/
def Exact (s : Tracked Ep) : Prop :=
  ∃ l, s.mbox.Linked l ∧ l.Nodup ∧ ∀ e, e ∈ l ↔ s.allocated e = true

/-- The call does not allocate an endpoint that is linked with another one behind it. -/
def AtEnd (s : Tracked Ep) : ChannelCall Ep → Prop
  | .alloc edp _ _ _ => s.allocated edp = true → s.mbox.next edp = none
  | .free _ => True

instance (s : Tracked Ep) (c : ChannelCall Ep) : Decidable (s.AtEnd c) :=
  match c with
  | .alloc edp _ _ _ => inferInstanceAs (Decidable (s.allocated edp = true → s.mbox.next edp = none))
  | .free _ => .isTrue trivial

variable {s t : Tracked Ep} {c : ChannelCall Ep}

omit [DecidableEq Ep] in
theorem Initial.exact (h : s.Initial) : s.Exact := ⟨[], h.1, List.nodup_nil, by simp [h.2]⟩

/-- Cutting a list after `e` keeps all its members only if `e` is the last one. -/
theorem exact_step (h : s.Exact) (hc : s.CallStep c t) : t.Exact ↔ s.AtEnd c := by
  obtain ⟨l, hl, hnodup, hmem⟩ := h
  cases c with
  | alloc edp remote read write =>
    obtain ⟨r, hr, ht⟩ := Comp.returns_bind.mp hc
    obtain rfl := Comp.returns_pure.mp ht
    obtain ⟨m, hm, hspec⟩ := alloc_spec hl edp remote read write
    obtain rfl := hm.unique hr
    have hlink := hspec.linked
    by_cases he : edp ∈ l
    · obtain ⟨l₁, l₂, he₁, rfl, -⟩ := List.exists_erase_eq he
      obtain ⟨-, -, -, hnext⟩ := path_append.mp hl
      rw [takeWhile_ne_append_cons he₁] at hlink
      cases l₂ with
      | nil =>
        refine iff_of_true ⟨_, hlink, hnodup, fun e => ?_⟩ fun _ => hnext
        rw [hmem]
        by_cases hee : e = edp
        · subst hee
          simpa using (hmem e).mp he
        · simp [Function.update_of_ne hee]
      | cons b l₂ =>
        refine iff_of_false ?_ fun hend => ?_
        · rintro ⟨l', hl', -, hmem'⟩
          obtain rfl := hlink.unique hl'
          have hb : b ∈ l₁ ++ edp :: b :: l₂ := by simp
          have hne : b ≠ edp := by
            rintro rfl
            simp [List.nodup_append] at hnodup
          have := (hmem' b).mpr (by simpa [Function.update_of_ne hne] using (hmem b).mp hb)
          simp only [List.mem_append, List.mem_singleton, hne, or_false] at this
          exact (List.nodup_append.mp hnodup).2.2 b this b (by simp) rfl
        · have hall : s.allocated edp = true := (hmem edp).mp he
          exact absurd (hnext.1.symm.trans (hend hall)) (by simp)
    · rw [takeWhile_ne_of_notMem he] at hlink
      refine iff_of_true ⟨_, hlink, ?_, fun e => ?_⟩ fun hall => absurd ((hmem edp).mpr hall) he
      · exact hlink.nodup
      · by_cases hee : e = edp
        · subst hee
          simp
        · simp [hee, hmem]
  | free edp =>
    obtain ⟨m, hm, ht⟩ := Comp.returns_bind.mp hc
    obtain rfl := Comp.returns_pure.mp ht
    have hspec := free_spec hl hm
    refine iff_of_true ⟨l.erase edp, hspec.linked, hnodup.erase edp, fun e => ?_⟩ trivial
    by_cases he : e = edp
    · subst he
      simp [hnodup.not_mem_erase]
    · simp [List.mem_erase_of_ne he, hmem, Function.update_of_ne he]

/-- A run of calls that return keeps the list exactly the list of the allocated endpoints if and only
if every `alloc` of the run is for an endpoint that is not linked, or linked last. -/
theorem exact_iff_along_atEnd {s : Tracked Ep} {tr : List (ChannelCall Ep × Tracked Ep)}
    (h0 : s.Initial) (h : Run CallStep s tr) : (∀ p ∈ tr, p.2.Exact) ↔ Along AtEnd s tr :=
  Run.always_iff (fun _ => True) Exact AtEnd (fun _ _ _ _ _ _ _ => trivial)
    (fun _ _ _ _ hexact hstep => exact_step hexact hstep) h trivial h0.exact

/-- The calls of a list, each with `n` units of fuel. -/
def callRun (n : Nat) : List (ChannelCall Ep) → Tracked Ep → Option (List (ChannelCall Ep × Tracked Ep))
  | [], _ => some []
  | c :: cs, s => do
    let t ← (c.exec s).run n
    let tr ← callRun n cs t
    some ((c, t) :: tr)

theorem run_of_callRun (n : Nat) (cs : List (ChannelCall Ep)) {s : Tracked Ep}
    {tr : List (ChannelCall Ep × Tracked Ep)} (h : callRun n cs s = some tr) :
    Run CallStep s tr := by
  induction cs generalizing s tr with
  | nil =>
    cases h
    exact .nil s
  | cons c cs ih =>
    obtain ⟨t, ht, h⟩ := Option.bind_eq_some_iff.mp h
    obtain ⟨tr', htr, h⟩ := Option.bind_eq_some_iff.mp h
    cases h
    exact .cons (Comp.returns_of_run n ht) (ih htr)

/-- Zeroed memory. -/
def boot : Tracked (Fin 2) := ⟨⟨none, fun _ => ⟨0, 0, 0, 0, none⟩, fun _ => 0#32⟩, fun _ => false⟩

theorem boot_initial : boot.Initial := ⟨rfl, fun _ => rfl⟩

/-- Two endpoints, of which the last one is allocated again and the first one is freed. -/
theorem exact_of_atEnd_example :
    ∃ tr, callRun 9 [.alloc 0 0 1 0, .alloc 1 0 2 0, .alloc 1 0 2 0, .free 0] boot = some tr ∧
      ∀ p ∈ tr, p.2.Exact := by
  refine ⟨_, rfl, (exact_iff_along_atEnd boot_initial (run_of_callRun 9
    [.alloc 0 0 1 0, .alloc 1 0 2 0, .alloc 1 0 2 0, .free 0] rfl)).mpr ?_⟩
  exact ⟨by decide, by decide, by decide, trivial, trivial⟩

/-- Allocating the first of two endpoints again cuts off the second one. -/
theorem relink_loses_endpoint :
    ∃ tr, Run CallStep boot tr ∧ tr.map (·.1) = [.alloc 0 0 1 0, .alloc 1 0 2 0, .alloc 0 0 1 0] ∧
      ∃ p ∈ tr, ¬ p.2.Exact := by
  refine ⟨_, run_of_callRun 9 [.alloc 0 0 1 0, .alloc 1 0 2 0, .alloc 0 0 1 0] rfl, rfl,
    _, List.mem_cons_of_mem _ (List.mem_cons_of_mem _ List.mem_cons_self), ?_⟩
  rintro ⟨l, hl, -, hmem⟩
  obtain rfl := hl.unique (show Linked _ [0] from ⟨rfl, rfl⟩)
  exact absurd ((hmem 1).mpr rfl) (by decide)

end Tracked

end V85x
