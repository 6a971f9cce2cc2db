import V85xAmp.Mailbox.EndpointList

/-!
# The read-interrupt enables

Endpoints with one remote share one enable register, with bit `2 * c` for read channel `c`.
`hal_msgbox_alloc_channel` sets the bit of its channel, but `hal_msgbox_free_channel` clears a bit only
when the list becomes empty. `irqTracks_iff_along` says what that means for a run: the bits track the
linked endpoints if and only if each `free` is for a send-only endpoint, for an endpoint whose channel
another one listens on too, or for the only endpoint of the list.
-/

namespace V85x

open Firmware Mailbox

variable {Ep : Type}

/-! ## Linked endpoints -/

/-- The endpoint is linked in a NULL-terminated list from `it_edp`. -/
def Mailbox.IsLinked (s : Mailbox Ep) (e : Ep) : Prop := ∃ l, s.Linked l ∧ e ∈ l

theorem Mailbox.Linked.isLinked_iff {s : Mailbox Ep} {l : List Ep} (h : s.Linked l) {e : Ep} :
    s.IsLinked e ↔ e ∈ l :=
  ⟨fun ⟨_, h', he⟩ => h.unique h' ▸ he, fun he => ⟨l, h, he⟩⟩

theorem Mailbox.Linked.not_isLinked {s : Mailbox Ep} {l : List Ep} {e : Ep} (h : s.Linked l)
    (he : e ∉ l) : ¬ s.IsLinked e :=
  mt h.isLinked_iff.mp he

/-! ## Bits -/

/-- The mask of read channel `c` is bit `2 * c`. -/
theorem getLsbD_recIntBit {medp : MsgEndpoint Ep} {c i : Nat} (hc : medp.readCh = c) (hc4 : c < 4)
    (hi : i < 32) : (recIntBit medp).getLsbD i = true ↔ i = 2 * c := by
  have hsh : (medp.readCh * 2 % 32).toNat = 2 * c := by omega
  rw [recIntBit, hsh]
  simp only [BitVec.getLsbD_shiftLeft, BitVec.getLsbD_one, Bool.and_eq_true, Bool.not_eq_true',
    decide_eq_true_eq, decide_eq_false_iff_not]
  omega

/-! ## Tracking -/

/-- The enable register that the endpoints with this remote share. -/
def rdIrqEn (remote : Int) (s : Mailbox Ep) : BitVec 32 :=
  s.reg (msgboxRdIrqEnReg thisMsgboxUse (calculteN thisMsgboxUse remote))

/-- The enable bit of a read channel is set if and only if a linked endpoint reads that channel. -/
def IrqTracks (remote : Int) (s : Mailbox Ep) : Prop :=
  ∀ c : Nat, c < 4 →
    ((rdIrqEn remote s).getLsbD (2 * c) = true ↔ ∃ e, s.IsLinked e ∧ (s.ep e).readCh = c)

/-- All endpoints of the list were allocated with this remote and a read channel up to 3. -/
def Uses (remote : Int) (s : Mailbox Ep) (l : List Ep) : Prop :=
  ∀ e ∈ l, (s.cfg e).localAmp = thisMsgboxUse ∧ (s.cfg e).remoteAmp = remote ∧ (s.cfg e).readCh ≤ 3

theorem IrqTracks.iff_mem {remote : Int} {s : Mailbox Ep} {l : List Ep} (hl : s.Linked l) :
    IrqTracks remote s ↔ ∀ c : Nat, c < 4 →
      ((rdIrqEn remote s).getLsbD (2 * c) = true ↔ ∃ e ∈ l, (s.cfg e).readCh = c) := by
  simp only [IrqTracks, hl.isLinked_iff, readCh_cfg]

variable [DecidableEq Ep] {remote : Int} {s t : Mailbox Ep} {l : List Ep} {edp : Ep}

/-- Allocating an endpoint that is not linked sets its bit. -/
theorem Allocates.irqTracks {read write : Int} (h : Allocates s l edp remote read write t)
    (hl : s.Linked l) (he : edp ∉ l) (hread : read ≤ 3) (hs : IrqTracks remote s) :
    IrqTracks remote t := by
  have hl' : t.Linked (l ++ [edp]) := takeWhile_ne_of_notMem he ▸ h.linked
  rw [IrqTracks.iff_mem hl] at hs
  rw [IrqTracks.iff_mem hl']
  intro c hc
  have hmem : (∃ e ∈ l ++ [edp], (t.cfg e).readCh = c) ↔
      (∃ e ∈ l, (s.cfg e).readCh = c) ∨ read = c := by
    simp only [List.mem_append, List.mem_singleton, or_and_right, exists_or, exists_eq_left]
    refine or_congr (exists_congr fun e => and_congr_right fun hel => ?_) ?_
    · rw [h.other e (ne_of_mem_of_not_mem hel he)]
    · simp [h.self]
  rw [hmem, ← hs c hc]
  have hreg : rdIrqEn remote t = if 0 ≤ read then rdIrqEn remote s ||| recIntBit (t.ep edp)
      else rdIrqEn remote s := by
    have := congrFun h.reg (recIntReg (t.ep edp))
    have haddr : recIntReg (t.ep edp) =
        msgboxRdIrqEnReg thisMsgboxUse (calculteN thisMsgboxUse remote) := by
      rw [recIntReg, h.self]
    rw [haddr] at this
    unfold rdIrqEn
    rw [this]
    split <;> simp
  rw [hreg]
  split
  · next hpos =>
    obtain ⟨n, rfl⟩ := Int.eq_ofNat_of_zero_le hpos
    have hch : (t.ep edp).readCh = n := by rw [h.self]
    have hbit := getLsbD_recIntBit hch (by omega) (show 2 * c < 32 by omega)
    rw [BitVec.getLsbD_or, Bool.or_eq_true, hbit]
    apply or_congr_right
    omega
  · next hneg => exact (or_iff_left (by omega)).symm

/-- The enable register after a `free` that returns. -/
theorem Frees.rdIrqEn (h : Frees s l edp t) (he : edp ∈ l) (hu : Uses remote s l) :
    rdIrqEn remote t = if l.erase edp = [] then rdIrqEn remote s &&& ~~~ recIntBit (s.cfg edp)
      else rdIrqEn remote s := by
  obtain ⟨hloc, hrem, -⟩ := hu edp he
  have haddr : recIntReg (s.cfg edp) =
      msgboxRdIrqEnReg thisMsgboxUse (calculteN thisMsgboxUse remote) := by
    rw [recIntReg, hloc, hrem]
  unfold V85x.rdIrqEn
  rw [h.reg, haddr]
  split <;> simp

/-- The bits track the list after a `free` that returns if and only if the bit of the endpoint was to
stay set, or was cleared. -/
theorem Frees.irqTracks_iff (h : Frees s l edp t) (hl : s.Linked l) (he : edp ∈ l)
    (hu : Uses remote s l) (hs : IrqTracks remote s) :
    IrqTracks remote t ↔ (s.cfg edp).readCh < 0 ∨
      (∃ e ∈ l, e ≠ edp ∧ (s.cfg e).readCh = (s.cfg edp).readCh) ∨ ∀ e ∈ l, e = edp := by
  have hnodup := hl.nodup
  have hreg := h.rdIrqEn he hu
  rw [IrqTracks.iff_mem hl] at hs
  rw [IrqTracks.iff_mem h.linked, h.cfg, hreg]
  have herase : ∀ e, e ∈ l.erase edp ↔ e ≠ edp ∧ e ∈ l := fun e => hnodup.mem_erase_iff
  by_cases hrest : l.erase edp = []
  · have honly : ∀ e ∈ l, e = edp := by
      intro e hel
      by_contra hne
      have := (herase e).mpr ⟨hne, hel⟩
      simp [hrest] at this
    refine iff_of_true (fun c hc => iff_of_false ?_ (by simp [hrest])) (.inr (.inr honly))
    rw [if_pos hrest, BitVec.getLsbD_and, Bool.and_eq_true, hs c hc]
    rintro ⟨⟨e, hel, hec⟩, hbit⟩
    obtain rfl := honly e hel
    have := (getLsbD_recIntBit hec hc (show 2 * c < 32 by omega)).mpr rfl
    simp [BitVec.getLsbD_not, this] at hbit
  · obtain ⟨x, hx⟩ := List.exists_mem_of_ne_nil _ hrest
    obtain ⟨hxne, hxl⟩ := (herase x).mp hx
    rw [if_neg hrest]
    constructor
    · intro ht
      by_cases hneg : (s.cfg edp).readCh < 0
      · exact .inl hneg
      · obtain ⟨n, hn⟩ := Int.eq_ofNat_of_zero_le (Int.not_lt.mp hneg)
        have hn4 : n < 4 := by
          have := (hu edp he).2.2
          omega
        obtain ⟨e, hel, hec⟩ := (ht n hn4).mp ((hs n hn4).mpr ⟨edp, he, hn⟩)
        obtain ⟨hne, hel⟩ := (herase e).mp hel
        exact .inr (.inl ⟨e, hel, hne, hec.trans hn.symm⟩)
    · intro hcond c hc
      rw [hs c hc]
      constructor
      · rintro ⟨e, hel, hec⟩
        by_cases hne : e = edp
        · subst hne
          rcases hcond with hneg | ⟨e', hel', hne', he'⟩ | honly
          · omega
          · exact ⟨e', (herase e').mpr ⟨hne', hel'⟩, he'.trans hec⟩
          · exact absurd (honly x hxl) hxne
        · exact ⟨e, (herase e).mpr ⟨hne, hel⟩, hec⟩
      · rintro ⟨e, hel, hec⟩
        exact ⟨e, ((herase e).mp hel).2, hec⟩

/-! ## Runs -/

/-- A call that returns: `alloc` for an endpoint that is not linked, with the common remote and a read
channel in `0..3` or negative, or `free` of a linked endpoint. -/
inductive ListenStep (remote : Int) : Mailbox Ep → ChannelCall Ep → Mailbox Ep → Prop
  | alloc {s t : Mailbox Ep} {r : BitVec 32} (edp : Ep) (read write : Int) :
      read ≤ 3 → ¬ s.IsLinked edp →
      (halMsgboxAllocChannel edp remote read write s).Returns (r, t) →
      ListenStep remote s (.alloc edp remote read write) t
  | free {s t : Mailbox Ep} (edp : Ep) :
      s.IsLinked edp → (halMsgboxFreeChannel edp s).Returns t → ListenStep remote s (.free edp) t

/-- An empty list, and all the read-interrupt enable bits clear. -/
def Quiet (remote : Int) (s : Mailbox Ep) : Prop :=
  s.itEdp = none ∧ ∀ c : Nat, c < 4 → (rdIrqEn remote s).getLsbD (2 * c) = false

/-- The call does not free the last listener of a channel while other endpoints stay linked. -/
def KeepsListener (s : Mailbox Ep) : ChannelCall Ep → Prop
  | .alloc _ _ _ _ => True
  | .free edp => (s.ep edp).readCh < 0 ∨
      (∃ e, s.IsLinked e ∧ e ≠ edp ∧ (s.ep e).readCh = (s.ep edp).readCh) ∨
      ∀ e, s.IsLinked e → e = edp

/-- The invariant of the runs: a list of endpoints with the common remote. -/
def Listening (remote : Int) (s : Mailbox Ep) : Prop := ∃ l, s.Linked l ∧ Uses remote s l

omit [DecidableEq Ep] in
theorem Quiet.listening (h : Quiet remote s) : Listening remote s := ⟨[], h.1, by simp [Uses]⟩

omit [DecidableEq Ep] in
theorem Quiet.irqTracks (h : Quiet remote s) : IrqTracks remote s := by
  rw [IrqTracks.iff_mem (show s.Linked [] from h.1)]
  intro c hc
  simp [h.2 c hc]

theorem listening_step {c : ChannelCall Ep} (hs : Listening remote s) (hc : ListenStep remote s c t) :
    Listening remote t := by
  obtain ⟨l, hl, hu⟩ := hs
  cases hc with
  | alloc edp read write hread he hr =>
    rw [hl.isLinked_iff] at he
    obtain ⟨m, hm, hspec⟩ := alloc_spec hl edp remote read write
    obtain ⟨-, rfl⟩ := Prod.mk.inj (hm.unique hr)
    refine ⟨l ++ [edp], takeWhile_ne_of_notMem he ▸ hspec.linked, fun e hel => ?_⟩
    rcases List.mem_append.mp hel with hel | hel
    · rw [hspec.other e (ne_of_mem_of_not_mem hel he)]
      exact hu e hel
    · obtain rfl := List.mem_singleton.mp hel
      simp [cfg, hspec.self, hread]
  | free edp he hr =>
    have hspec := free_spec hl hr
    refine ⟨_, hspec.linked, fun e hel => ?_⟩
    rw [hspec.cfg]
    exact hu e (List.mem_of_mem_erase hel)

theorem irqTracks_step {c : ChannelCall Ep} (hs : Listening remote s) (htr : IrqTracks remote s)
    (hc : ListenStep remote s c t) : IrqTracks remote t ↔ KeepsListener s c := by
  obtain ⟨l, hl, hu⟩ := hs
  cases hc with
  | alloc edp read write hread he hr =>
    rw [hl.isLinked_iff] at he
    obtain ⟨m, hm, hspec⟩ := alloc_spec hl edp remote read write
    obtain ⟨-, rfl⟩ := Prod.mk.inj (hm.unique hr)
    exact iff_of_true (hspec.irqTracks hl he hread htr) trivial
  | free edp he hr =>
    have hspec := free_spec hl hr
    have := hspec.irqTracks_iff hl (hl.isLinked_iff.mp he) hu htr
    simpa only [KeepsListener, hl.isLinked_iff, readCh_cfg] using this

/-- In a run of calls that return, on endpoints with one remote, the enable bits track the linked
endpoints after every call if and only if no call frees the last listener of a channel while other
endpoints stay linked. -/
theorem irqTracks_iff_along {remote : Int} {s : Mailbox Ep} {tr : List (ChannelCall Ep × Mailbox Ep)}
    (h0 : Quiet remote s) (h : Run (ListenStep remote) s tr) :
    (∀ p ∈ tr, IrqTracks remote p.2) ↔ Along KeepsListener s tr :=
  Run.always_iff (Listening remote) (IrqTracks remote) KeepsListener
    (fun _ _ _ hs _ hstep _ => listening_step hs hstep)
    (fun _ _ _ hs htr hstep => irqTracks_step hs htr hstep) h h0.listening h0.irqTracks

theorem quiet_boot : Quiet 0 Tracked.boot.mbox := ⟨rfl, fun _ _ => by simp [rdIrqEn, Tracked.boot]⟩

/-- A reader and a send-only endpoint, freed in this order. -/
theorem irqTracks_of_keepsListener_example :
    ∃ tr, Run (ListenStep 0) Tracked.boot.mbox tr ∧
      tr.map (·.1) = [.alloc 0 0 1 0, .alloc 1 0 (-1) 0, .free 1, .free 0] ∧
      ∀ p ∈ tr, IrqTracks 0 p.2 := by
  have hrun : ∃ tr, Run (ListenStep 0) Tracked.boot.mbox tr ∧
      tr.map (·.1) = [.alloc 0 0 1 0, .alloc 1 0 (-1) 0, .free 1, .free 0] ∧
      Along KeepsListener Tracked.boot.mbox tr := by
    refine ⟨_,
      .cons (.alloc 0 1 0 (by decide) ?_ (Comp.returns_of_run 9 rfl))
      (.cons (.alloc 1 (-1) 0 (by decide) ?_ (Comp.returns_of_run 9 rfl))
      (.cons (.free 1 ?_ (Comp.returns_of_run 9 rfl))
      (.cons (.free 0 ?_ (Comp.returns_of_run 9 rfl)) (.nil _)))), rfl,
      trivial, trivial, .inl (by decide), .inr (.inr ?_), trivial⟩
    · exact Linked.not_isLinked (l := []) rfl (by decide)
    · exact Linked.not_isLinked (l := [0]) ⟨rfl, rfl⟩ (by decide)
    · exact ⟨[0, 1], ⟨rfl, rfl, rfl⟩, by decide⟩
    · exact ⟨[0], ⟨rfl, rfl⟩, by decide⟩
    · rintro e ⟨l, hl, he⟩
      obtain rfl := hl.unique (show Linked _ [0] from ⟨rfl, rfl⟩)
      exact List.mem_singleton.mp he
  obtain ⟨tr, h, hcalls, hkeeps⟩ := hrun
  exact ⟨tr, h, hcalls, (irqTracks_iff_along quiet_boot h).mpr hkeeps⟩

/-- Freeing the second of two readers leaves its enable bit set. -/
theorem stale_enable_bit :
    ∃ tr, Run (ListenStep 0) Tracked.boot.mbox tr ∧
      tr.map (·.1) = [.alloc 0 0 0 0, .alloc 1 0 1 0, .free 1] ∧ ∃ p ∈ tr, ¬ IrqTracks 0 p.2 := by
  refine ⟨_,
    .cons (.alloc 0 0 0 (by decide) ?_ (Comp.returns_of_run 9 rfl))
    (.cons (.alloc 1 1 0 (by decide) ?_ (Comp.returns_of_run 9 rfl))
    (.cons (.free 1 ?_ (Comp.returns_of_run 9 rfl)) (.nil _))), rfl,
    _, List.mem_cons_of_mem _ (List.mem_cons_of_mem _ List.mem_cons_self), ?_⟩
  · exact Linked.not_isLinked (l := []) rfl (by decide)
  · exact Linked.not_isLinked (l := [0]) ⟨rfl, rfl⟩ (by decide)
  · exact ⟨[0, 1], ⟨rfl, rfl, rfl⟩, by decide⟩
  · intro htr
    obtain ⟨e, ⟨l, hl, he⟩, hread⟩ := (htr 1 (by decide)).mp (by rfl)
    obtain rfl := hl.unique (show Linked _ [0] from ⟨rfl, rfl⟩)
    obtain rfl := List.mem_singleton.mp he
    exact absurd hread (by decide)

end V85x
