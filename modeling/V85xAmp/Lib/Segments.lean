import Mathlib.Algebra.BigOperators.Group.Finset.Piecewise
import Mathlib.Data.List.Pairwise
import Mathlib.Order.Interval.Finset.Nat

/-!
# Segments of the number line

A `Seg` is a range `addr ≤ x < addr + size`. `cover l x` counts the segments of `l` that have `x`: lists of
segments tile the same set exactly if their covers are equal, and a cover of at most 1 means that they do
not overlap. All changes to a tiling are then equations between sums (`count_join`).

`Separated l`: the segments are in ascending order with gaps between them. Nonempty separated segments with
the same cover are the same (`Separated.ext`). `insertSeg b l` adds a segment to a separated list and joins
what touches; it keeps the list separated (`Separated.insertSeg`) and adds the segment to the cover
(`cover_insertSeg`).

`totalSize` adds up the sizes; lists with the same cover have the same (`totalSize_congr`).
-/

namespace Firmware

/-- The numbers from `addr` to `addr + size`. -/
structure Seg where
  addr : Nat
  size : Nat
deriving Repr, DecidableEq

namespace Seg

/-- The first number behind the segment. -/
def fin (s : Seg) : Nat := s.addr + s.size

def Has (s : Seg) (x : Nat) : Prop := s.addr ≤ x ∧ x < s.fin

instance (s : Seg) (x : Nat) : Decidable (s.Has x) := inferInstanceAs (Decidable (_ ∧ _))

/-- 1 in the segment and 0 outside. -/
def count (s : Seg) (x : Nat) : Nat := if s.Has x then 1 else 0

/-- Two segments have no number in common. -/
def Disjoint (s t : Seg) : Prop := ∀ x, s.Has x → ¬ t.Has x

variable {s t : Seg} {x : Nat}

theorem count_eq_one : s.count x = 1 ↔ s.Has x := by
  unfold count
  split <;> simp [*]

theorem count_eq_zero : s.count x = 0 ↔ ¬ s.Has x := by
  unfold count
  split <;> simp [*]

/-- Two nonempty segments with no number in common lie apart. -/
theorem apart_of_disjoint (hs : 0 < s.size) (ht : 0 < t.size) (h : ∀ x, s.Has x → ¬ t.Has x) :
    s.fin ≤ t.addr ∨ t.fin ≤ s.addr := by
  have h1 := h s.addr
  have h2 := h t.addr
  unfold Has fin at *
  omega

/-- Two segments that touch make one. -/
theorem count_join {a n m : Nat} (x : Nat) :
    count ⟨a, n + m⟩ x = count ⟨a, n⟩ x + count ⟨a + n, m⟩ x := by
  grind [count, Has, fin]

theorem count_split {n : Nat} (h : n ≤ s.size) (x : Nat) :
    s.count x = count ⟨s.addr, n⟩ x + count ⟨s.addr + n, s.size - n⟩ x := by
  rw [← count_join, Nat.add_sub_cancel' h]

end Seg

/-! ## Covers -/

/-- How many segments have `x`. -/
def cover : List Seg → Nat → Nat
  | [], _ => 0
  | s :: l, x => s.count x + cover l x

section Cover

variable {l l₁ l₂ : List Seg} {s t : Seg} {x : Nat}

@[simp] theorem cover_nil (x : Nat) : cover [] x = 0 := rfl

@[simp] theorem cover_cons (s : Seg) (l : List Seg) (x : Nat) :
    cover (s :: l) x = s.count x + cover l x :=
  rfl

@[simp] theorem cover_append (l₁ l₂ : List Seg) (x : Nat) :
    cover (l₁ ++ l₂) x = cover l₁ x + cover l₂ x := by
  induction l₁ with
  | nil => simp
  | cons s l ih => rw [List.cons_append, cover_cons, cover_cons, ih, Nat.add_assoc]

theorem cover_eq_zero : cover l x = 0 ↔ ∀ s ∈ l, ¬ s.Has x := by
  induction l with
  | nil => simp
  | cons s l ih => simp [ih, Seg.count_eq_zero]

theorem cover_pos : 0 < cover l x ↔ ∃ s ∈ l, s.Has x := by
  rw [Nat.pos_iff_ne_zero, Ne, cover_eq_zero]
  simp

theorem count_le_cover (h : s ∈ l) (x : Nat) : s.count x ≤ cover l x := by
  obtain ⟨l₁, l₂, rfl⟩ := List.append_of_mem h
  simp only [cover_append, cover_cons]
  omega

theorem cover_perm (h : l₁.Perm l₂) (x : Nat) : cover l₁ x = cover l₂ x := by
  induction h with
  | nil => rfl
  | cons s _ ih => rw [cover_cons, cover_cons, ih]
  | swap s t l =>
    simp only [cover_cons]
    omega
  | trans _ _ ih₁ ih₂ => exact ih₁.trans ih₂

/-- Segments that cover no number twice are pairwise disjoint. -/
theorem pairwise_disjoint_of_cover (h : ∀ x, cover l x ≤ 1) : l.Pairwise Seg.Disjoint := by
  induction l with
  | nil => exact .nil
  | cons s l ih =>
    refine .cons (fun t ht x hs hx => ?_) (ih fun x => ?_)
    · have h1 := h x
      have h2 := count_le_cover ht x
      rw [cover_cons, Seg.count_eq_one.mpr hs] at h1
      rw [Seg.count_eq_one.mpr hx] at h2
      omega
    · have h1 := h x
      rw [cover_cons] at h1
      omega

theorem cover_le_one_of_pairwise (h : l.Pairwise Seg.Disjoint) (x : Nat) : cover l x ≤ 1 := by
  induction h with
  | nil => simp
  | @cons s l hs _ ih =>
    rw [cover_cons]
    by_cases hx : s.Has x
    · have hzero : cover l x = 0 := cover_eq_zero.mpr fun t ht => hs t ht x hx
      have hone := Seg.count_eq_one.mpr hx
      omega
    · rw [Seg.count_eq_zero.mpr hx]
      omega

end Cover

/-! ## Separated lists -/

/-- Ascending segments with gaps between them. -/
def Separated (l : List Seg) : Prop := l.Pairwise fun s t => s.fin < t.addr

section Separated

variable {l l₁ l₂ l' : List Seg} {s t b : Seg} {x : Nat}

theorem separated_cons : Separated (s :: l) ↔ (∀ t ∈ l, s.fin < t.addr) ∧ Separated l :=
  List.pairwise_cons

theorem separated_append : Separated (l₁ ++ l₂) ↔
    Separated l₁ ∧ Separated l₂ ∧ ∀ s ∈ l₁, ∀ t ∈ l₂, s.fin < t.addr :=
  List.pairwise_append

/-- The end of the first segment is in none. -/
theorem Separated.cover_fin (h : Separated (s :: l)) : cover (s :: l) s.fin = 0 := by
  rw [cover_eq_zero, List.forall_mem_cons]
  refine ⟨fun hs => Nat.lt_irrefl _ hs.2, fun t ht hx => ?_⟩
  have hlt := (separated_cons.mp h).1 t ht
  exact Nat.lt_irrefl _ (Nat.lt_of_lt_of_le hlt hx.1)

/-- Nothing is covered in front of the first segment. -/
theorem Separated.le_of_cover (h : Separated (s :: l)) (hx : 0 < cover (s :: l) x) : s.addr ≤ x := by
  obtain ⟨t, ht, hxt⟩ := cover_pos.mp hx
  rcases List.mem_cons.mp ht with rfl | ht
  · exact hxt.1
  · have hlt := (separated_cons.mp h).1 t ht
    have hle : s.addr ≤ s.fin := Nat.le_add_right _ _
    have hle' := hxt.1
    omega

/-- Separated lists of nonempty segments are determined by what they cover. -/
theorem Separated.ext (h : Separated l) (h' : Separated l') (hpos : ∀ s ∈ l, 0 < s.size)
    (hpos' : ∀ s ∈ l', 0 < s.size) (hc : ∀ x, cover l x = cover l' x) : l = l' := by
  have hstart : ∀ {s : Seg} {l : List Seg}, 0 < s.size → 0 < cover (s :: l) s.addr := by
    intro s l hs
    rw [cover_cons, Seg.count_eq_one.mpr ⟨Nat.le_refl _, Nat.lt_add_of_pos_right hs⟩]
    omega
  induction l generalizing l' with
  | nil =>
    cases l' with
    | nil => rfl
    | cons t l' =>
      have := hstart (l := l') (hpos' t List.mem_cons_self)
      rw [← hc] at this
      cases this
  | cons s l ih =>
    cases l' with
    | nil =>
      have := hstart (l := l) (hpos s List.mem_cons_self)
      rw [hc] at this
      cases this
    | cons t l' =>
      have hs := hpos s List.mem_cons_self
      have ht := hpos' t List.mem_cons_self
      have haddr : s.addr = t.addr := by
        have h1 := h.le_of_cover (x := t.addr) (by rw [hc]; exact hstart ht)
        have h2 := h'.le_of_cover (x := s.addr) (by rw [← hc]; exact hstart hs)
        omega
      have hfin : s.fin = t.fin := by
        have h1 := h.cover_fin
        have h2 := h'.cover_fin
        rw [hc, cover_cons] at h1
        rw [← hc, cover_cons] at h2
        have h3 := Seg.count_eq_zero.mp (Nat.eq_zero_of_add_eq_zero_right h1)
        have h4 := Seg.count_eq_zero.mp (Nat.eq_zero_of_add_eq_zero_right h2)
        unfold Seg.Has Seg.fin at *
        omega
      obtain rfl : s = t := by
        unfold Seg.fin at hfin
        cases s
        cases t
        simp only [Seg.mk.injEq] at *
        omega
      rw [ih (separated_cons.mp h).2 (separated_cons.mp h').2
        (fun u hu => hpos u (List.mem_cons_of_mem _ hu))
        (fun u hu => hpos' u (List.mem_cons_of_mem _ hu)) fun x => ?_]
      have := hc x
      rw [cover_cons, cover_cons] at this
      omega

/-- No separated segment ends where another begins. -/
theorem Separated.fin_ne (h : Separated l) (hpos : ∀ s ∈ l, 0 < s.size) (hs : s ∈ l) (ht : t ∈ l) :
    s.fin ≠ t.addr := by
  induction l with
  | nil => cases hs
  | cons a l ih =>
    obtain ⟨ha, hl⟩ := separated_cons.mp h
    rw [List.forall_mem_cons] at hpos
    have hle : ∀ u : Seg, u.addr ≤ u.fin := fun u => Nat.le_add_right _ _
    rcases List.mem_cons.mp hs with rfl | hs'
    · rcases List.mem_cons.mp ht with rfl | ht'
      · exact Nat.ne_of_gt (Nat.lt_add_of_pos_right hpos.1)
      · exact Nat.ne_of_lt (ha t ht')
    · rcases List.mem_cons.mp ht with rfl | ht'
      · have h1 := ha s hs'
        have h2 := hle s
        have h3 := hle t
        omega
      · exact ih hl hpos.2 hs' ht'

/-! ## Insertion -/

/-- The list `c :: l`, with `c` and the head of `l` joined if they touch. -/
def joinHead (c : Seg) : List Seg → List Seg
  | [] => [c]
  | d :: l => if c.fin = d.addr then ⟨c.addr, c.size + d.size⟩ :: l else c :: d :: l

/-- Add `b` in its place, joined with the segments that it touches. -/
def insertSeg (b : Seg) : List Seg → List Seg
  | [] => [b]
  | a :: l =>
    if a.fin = b.addr then joinHead ⟨a.addr, a.size + b.size⟩ l
    else if b.addr < a.addr then joinHead b (a :: l)
    else a :: insertSeg b l

/-- The place of a segment is behind those that end in front of it. -/
theorem insertSeg_append (h : ∀ s ∈ l₁, s.fin < b.addr) : insertSeg b (l₁ ++ l₂) = l₁ ++ insertSeg b l₂ := by
  induction l₁ with
  | nil => rfl
  | cons a l ih =>
    obtain ⟨ha, hl⟩ := List.forall_mem_cons.mp h
    have hle : a.addr ≤ a.fin := Nat.le_add_right _ _
    rw [List.cons_append, insertSeg, if_neg (by omega), if_neg (by omega), ih hl, List.cons_append]

theorem cover_joinHead (c : Seg) (l : List Seg) (x : Nat) :
    cover (joinHead c l) x = c.count x + cover l x := by
  cases l with
  | nil => simp [joinHead]
  | cons d l =>
    rw [joinHead]
    split
    · next h =>
      rw [cover_cons, cover_cons, Seg.count_join]
      have hd : (⟨c.addr + c.size, d.size⟩ : Seg) = d := by rw [← Seg.fin, h]
      rw [hd, Nat.add_assoc]
    · simp

theorem cover_insertSeg (b : Seg) (l : List Seg) (x : Nat) :
    cover (insertSeg b l) x = b.count x + cover l x := by
  induction l with
  | nil => simp [insertSeg]
  | cons a l ih =>
    rw [insertSeg]
    split
    · next h =>
      rw [cover_joinHead, cover_cons, Seg.count_join]
      have hb : (⟨a.addr + a.size, b.size⟩ : Seg) = b := by rw [← Seg.fin, h]
      rw [hb]
      show a.count x + b.count x + cover l x = _
      omega
    · split
      · rw [cover_joinHead]
      · rw [cover_cons, cover_cons, ih]
        omega

/-- A segment that starts behind `n` and does not meet the list, when that starts behind `n` too. -/
theorem forall_lt_joinHead {n : Nat} {c : Seg} (hc : n < c.addr) (hl : ∀ t ∈ l, n < t.addr) :
    ∀ t ∈ joinHead c l, n < t.addr := by
  cases l with
  | nil => simpa [joinHead] using hc
  | cons d l =>
    rw [List.forall_mem_cons] at hl
    rw [joinHead]
    split
    · exact List.forall_mem_cons.mpr ⟨hc, hl.2⟩
    · exact List.forall_mem_cons.mpr ⟨hc, List.forall_mem_cons.mpr hl⟩

theorem forall_lt_insertSeg {n : Nat} (hb : n < b.addr) (hl : ∀ t ∈ l, n < t.addr) :
    ∀ t ∈ insertSeg b l, n < t.addr := by
  induction l with
  | nil => simpa [insertSeg] using hb
  | cons a l ih =>
    have hl' := List.forall_mem_cons.mp hl
    rw [insertSeg]
    split
    · exact forall_lt_joinHead hl'.1 hl'.2
    · split
      · exact forall_lt_joinHead hb hl
      · exact List.forall_mem_cons.mpr ⟨hl'.1, ih hl'.2⟩

/-- `c` and a list behind it. -/
theorem Separated.joinHead {c : Seg} (h : Separated l) (hc : ∀ t ∈ l, c.fin ≤ t.addr) :
    Separated (joinHead c l) := by
  cases l with
  | nil => exact List.pairwise_singleton _ _
  | cons d l =>
    obtain ⟨hd, hl⟩ := separated_cons.mp h
    rw [Firmware.joinHead]
    split
    · next hjoin =>
      refine separated_cons.mpr ⟨fun t ht => ?_, hl⟩
      have hlt := hd t ht
      unfold Seg.fin at *
      dsimp only
      omega
    · next hne =>
      refine separated_cons.mpr ⟨List.forall_mem_cons.mpr ⟨?_, fun t ht => ?_⟩, h⟩
      · have hle := hc d List.mem_cons_self
        omega
      · have hle := hc d List.mem_cons_self
        have hlt := hd t ht
        unfold Seg.fin at *
        omega

/-- Insertion keeps the list separated if the new segment does not meet it. -/
theorem Separated.insertSeg (h : Separated l) (hpos : ∀ s ∈ l, 0 < s.size) (hb : 0 < b.size)
    (hdisj : ∀ s ∈ l, b.fin ≤ s.addr ∨ s.fin ≤ b.addr) : Separated (insertSeg b l) := by
  induction l with
  | nil => exact List.pairwise_singleton _ _
  | cons a l ih =>
    obtain ⟨ha, hl⟩ := separated_cons.mp h
    rw [List.forall_mem_cons] at hpos hdisj
    rw [Firmware.insertSeg]
    split
    · next hjoin =>
      refine hl.joinHead fun t ht => ?_
      have hlt := ha t ht
      have hd := hdisj.2 t ht
      unfold Seg.fin at *
      dsimp only
      omega
    · next hne =>
      split
      · next hlt =>
        refine h.joinHead (List.forall_mem_cons.mpr ⟨?_, fun t ht => ?_⟩)
        · have hd := hdisj.1
          unfold Seg.fin at *
          omega
        · have hd := hdisj.1
          have hat := ha t ht
          unfold Seg.fin at *
          omega
      · next hge =>
        have hd := hdisj.1
        refine separated_cons.mpr ⟨forall_lt_insertSeg ?_ ha, ih hl hpos.2 hdisj.2⟩
        unfold Seg.fin at *
        omega

/-- A property of segments that joining keeps. -/
theorem forall_mem_joinHead {P : Seg → Prop}
    (hjoin : ∀ a n m, P ⟨a, n⟩ → P ⟨a + n, m⟩ → P ⟨a, n + m⟩) {c : Seg} (hc : P c)
    (hl : ∀ s ∈ l, P s) : ∀ s ∈ joinHead c l, P s := by
  cases l with
  | nil => simpa [joinHead] using hc
  | cons d l =>
    rw [List.forall_mem_cons] at hl
    rw [joinHead]
    split
    · next h =>
      have hd : (⟨c.addr + c.size, d.size⟩ : Seg) = d := by rw [← Seg.fin, h]
      exact List.forall_mem_cons.mpr ⟨hjoin _ _ _ hc (hd ▸ hl.1), hl.2⟩
    · exact List.forall_mem_cons.mpr ⟨hc, List.forall_mem_cons.mpr hl⟩

theorem forall_mem_insertSeg {P : Seg → Prop}
    (hjoin : ∀ a n m, P ⟨a, n⟩ → P ⟨a + n, m⟩ → P ⟨a, n + m⟩) (hb : P b) (hl : ∀ s ∈ l, P s) :
    ∀ s ∈ insertSeg b l, P s := by
  induction l with
  | nil => simpa [insertSeg] using hb
  | cons a l ih =>
    have hl' := List.forall_mem_cons.mp hl
    rw [insertSeg]
    split
    · next h =>
      have hb' : (⟨a.addr + a.size, b.size⟩ : Seg) = b := by rw [← Seg.fin, h]
      exact forall_mem_joinHead hjoin (hjoin _ _ _ hl'.1 (hb' ▸ hb)) hl'.2
    · split
      · exact forall_mem_joinHead hjoin hb hl
      · exact List.forall_mem_cons.mpr ⟨hl'.1, ih hl'.2⟩

end Separated

/-! ## Sizes -/

/-- The sum of the sizes. -/
def totalSize : List Seg → Nat
  | [] => 0
  | s :: l => s.size + totalSize l

section TotalSize

variable {l l₁ l₂ : List Seg} {s : Seg} {n : Nat}

@[simp] theorem totalSize_nil : totalSize [] = 0 := rfl

@[simp] theorem totalSize_cons (s : Seg) (l : List Seg) : totalSize (s :: l) = s.size + totalSize l := rfl

@[simp] theorem totalSize_append (l₁ l₂ : List Seg) :
    totalSize (l₁ ++ l₂) = totalSize l₁ + totalSize l₂ := by
  induction l₁ with
  | nil => simp
  | cons s l ih => rw [List.cons_append, totalSize_cons, totalSize_cons, ih, Nat.add_assoc]

theorem Seg.sum_count (h : s.fin ≤ n) : ∑ x ∈ Finset.range n, s.count x = s.size := by
  have hfilter : (Finset.range n).filter s.Has = Finset.Ico s.addr s.fin := by
    ext x
    simp only [Finset.mem_filter, Finset.mem_range, Finset.mem_Ico, Seg.Has]
    omega
  unfold Seg.count
  rw [← Finset.card_filter, hfilter, Nat.card_Ico, Seg.fin, Nat.add_sub_cancel_left]

/-- The sum of the sizes is the one of the cover. -/
theorem sum_cover (h : ∀ s ∈ l, s.fin ≤ n) : ∑ x ∈ Finset.range n, cover l x = totalSize l := by
  induction l with
  | nil => simp
  | cons s l ih =>
    obtain ⟨hs, hl⟩ := List.forall_mem_cons.mp h
    simp only [cover_cons, totalSize_cons, Finset.sum_add_distrib, Seg.sum_count hs, ih hl]

theorem exists_fin_le (l : List Seg) : ∃ n, ∀ s ∈ l, s.fin ≤ n := by
  induction l with
  | nil => exact ⟨0, by simp⟩
  | cons s l ih =>
    obtain ⟨n, hn⟩ := ih
    refine ⟨s.fin + n, List.forall_mem_cons.mpr ⟨Nat.le_add_right _ _, fun t ht => ?_⟩⟩
    exact (hn t ht).trans (Nat.le_add_left _ _)

/-- The size depends on the cover only. -/
theorem totalSize_congr (h : ∀ x, cover l₁ x = cover l₂ x) : totalSize l₁ = totalSize l₂ := by
  obtain ⟨n, hn⟩ := exists_fin_le (l₁ ++ l₂)
  rw [← sum_cover fun s hs => hn s (List.mem_append_left _ hs),
    ← sum_cover fun s hs => hn s (List.mem_append_right _ hs)]
  exact Finset.sum_congr rfl fun x _ => h x

end TotalSize

end Firmware
