import Mathlib.Data.List.Perm.Basic
import V85xAmp.Lib.Refine

/-!
# Lending

One party lends items to another, which gives them back: `posted` are the items on their way to the
borrower, `held` those that it has, and `done` those on their way back, each with a result. The two parties
know an item by a key. Both ways are queues, and the borrower may give back its items in any order.

What the parties see of this is a list of events: the lender offers an item and collects a token of it with
the result; the borrower gets a key with a view of the item. The views come in the order of the items
(`borrowed_eq`), the results in the order in which they were given back (`collected_eq`), and the
tokens collected, with those of the items still out, are the tokens of the items lent, each as often
(`perm_tokens`).
-/

namespace Firmware

variable {κ β γ ν τ : Type}

/-- The items that are out, with their keys. -/
structure Exchange (κ β γ : Type) where
  posted : List (κ × β)
  held : List (κ × β)
  done : List ((κ × β) × γ)

/-- What the two parties see. -/
inductive Exchange.Event (κ β γ ν τ : Type)
  | lend (item : β)
  | borrow (key : κ) (view : ν)
  | giveBack (key : κ) (result : γ)
  | collect (token : τ) (result : γ)

namespace Exchange

/-- Nothing is lent. -/
def empty : Exchange κ β γ := ⟨[], [], []⟩

def outstanding (x : Exchange κ β γ) : List (κ × β) := x.posted ++ (x.held ++ x.done.map (·.1))

/-- A step. The key of a new item is none of those that are out. -/
inductive Step (view : β → ν) (token : β → τ) :
    Exchange κ β γ → Event κ β γ ν τ → Exchange κ β γ → Prop
  | lend {x : Exchange κ β γ} {key : κ} {item : β} : (∀ l ∈ x.outstanding, l.1 ≠ key) →
      Step view token x (.lend item) { x with posted := x.posted ++ [(key, item)] }
  | borrow {key : κ} {item : β} {posted held : List (κ × β)} {done : List ((κ × β) × γ)} :
      Step view token ⟨(key, item) :: posted, held, done⟩ (.borrow key (view item))
        ⟨posted, held ++ [(key, item)], done⟩
  | giveBack {key : κ} {item : β} {result : γ} {posted held₁ held₂ : List (κ × β)}
      {done : List ((κ × β) × γ)} :
      Step view token ⟨posted, held₁ ++ (key, item) :: held₂, done⟩ (.giveBack key result)
        ⟨posted, held₁ ++ held₂, done ++ [((key, item), result)]⟩
  | collect {key : κ} {item : β} {result : γ} {posted held : List (κ × β)} {done : List ((κ × β) × γ)} :
      Step view token ⟨posted, held, ((key, item), result) :: done⟩ (.collect (token item) result)
        ⟨posted, held, done⟩

/-! ## What was seen -/

def Event.lent? : Event κ β γ ν τ → Option β
  | .lend item => some item
  | _ => none

def Event.borrowed? : Event κ β γ ν τ → Option ν
  | .borrow _ view => some view
  | _ => none

def Event.given? : Event κ β γ ν τ → Option γ
  | .giveBack _ result => some result
  | _ => none

def Event.collected? : Event κ β γ ν τ → Option (τ × γ)
  | .collect token result => some (token, result)
  | _ => none

/-- The items lent. -/
def lent (tr : List (Event κ β γ ν τ)) : List β := tr.filterMap Event.lent?

/-- The views that the borrower got. -/
def borrowed (tr : List (Event κ β γ ν τ)) : List ν := tr.filterMap Event.borrowed?

/-- The results that the borrower gave. -/
def given (tr : List (Event κ β γ ν τ)) : List γ := tr.filterMap Event.given?

/-- The tokens that the lender collected, with the results. -/
def collected (tr : List (Event κ β γ ν τ)) : List (τ × γ) := tr.filterMap Event.collected?

theorem filterMap_snoc (f : β → Option ν) (l : List β) (a : β) :
    (l ++ [a]).filterMap f = l.filterMap f ++ (f a).toList := by
  rw [List.filterMap_append]
  cases h : f a <;> simp [h]

section Snoc

variable (tr : List (Event κ β γ ν τ)) (ev : Event κ β γ ν τ)

@[simp] theorem lent_snoc : lent (tr ++ [ev]) = lent tr ++ ev.lent?.toList := filterMap_snoc _ _ _

@[simp] theorem borrowed_snoc : borrowed (tr ++ [ev]) = borrowed tr ++ ev.borrowed?.toList :=
  filterMap_snoc _ _ _

@[simp] theorem given_snoc : given (tr ++ [ev]) = given tr ++ ev.given?.toList := filterMap_snoc _ _ _

@[simp] theorem collected_snoc : collected (tr ++ [ev]) = collected tr ++ ev.collected?.toList :=
  filterMap_snoc _ _ _

end Snoc

section

variable {view : β → ν} {token : β → τ} {tr : List (Event κ β γ ν τ)} {x : Exchange κ β γ}

/-- The borrower sees the items in the order in which they were lent. -/
theorem borrowed_eq (h : Traces (Step view token) (· = empty) tr x) :
    borrowed tr ++ x.posted.map (fun l => view l.2) = (lent tr).map view := by
  refine Shows.invariant (fun tr x => borrowed tr ++ x.posted.map (fun l => view l.2) =
    (lent tr).map view) ?_ ?_ h
  · rintro _ rfl
    rfl
  · rintro tr x ev y ih hst
    cases hst with
    | lend hkey => simp [Event.borrowed?, Event.lent?, ← ih]
    | borrow => simpa [Event.borrowed?, Event.lent?] using ih
    | giveBack => simpa [Event.borrowed?, Event.lent?] using ih
    | collect => simpa [Event.borrowed?, Event.lent?] using ih

/-- The lender collects the results in the order in which they were given. -/
theorem collected_eq (h : Traces (Step view token) (· = empty) tr x) :
    (collected tr).map (·.2) ++ x.done.map (·.2) = given tr := by
  refine Shows.invariant (fun tr x => (collected tr).map (·.2) ++ x.done.map (·.2) =
    given tr) ?_ ?_ h
  · rintro _ rfl
    rfl
  · rintro tr x ev y ih hst
    cases hst with
    | lend hkey => simpa [Event.collected?, Event.given?] using ih
    | borrow => simpa [Event.collected?, Event.given?] using ih
    | giveBack => simp [Event.collected?, Event.given?, ← ih]
    | collect => simpa [Event.collected?, Event.given?] using ih

/-! ## The items that are out -/

theorem perm_outstanding_lend (x : Exchange κ β γ) (l : κ × β) :
    (outstanding { x with posted := x.posted ++ [l] }).Perm (l :: x.outstanding) := by
  simp only [outstanding, List.append_assoc, List.singleton_append]
  exact List.perm_middle

theorem perm_outstanding_borrow (l : κ × β) (posted held : List (κ × β)) (done : List ((κ × β) × γ)) :
    (outstanding ⟨posted, held ++ [l], done⟩).Perm (outstanding ⟨l :: posted, held, done⟩) := by
  simp only [outstanding, List.append_assoc, List.cons_append, List.nil_append]
  rw [← List.append_assoc, ← List.append_assoc]
  exact List.perm_middle

theorem perm_outstanding_giveBack (l : κ × β) (result : γ) (posted held₁ held₂ : List (κ × β))
    (done : List ((κ × β) × γ)) :
    (outstanding ⟨posted, held₁ ++ held₂, done ++ [(l, result)]⟩).Perm
      (outstanding ⟨posted, held₁ ++ l :: held₂, done⟩) := by
  simp only [outstanding, List.append_assoc, List.map_append, List.map_cons, List.map_nil, List.cons_append]
  refine .append_left _ (.append_left _ ?_)
  rw [← List.append_assoc]
  exact (List.perm_append_singleton l _)

theorem perm_outstanding_collect (l : κ × β) (result : γ) (posted held : List (κ × β))
    (done : List ((κ × β) × γ)) :
    (outstanding ⟨posted, held, (l, result) :: done⟩).Perm (l :: outstanding ⟨posted, held, done⟩) := by
  simp only [outstanding, List.map_cons]
  rw [← List.append_assoc, ← List.append_assoc]
  exact List.perm_middle

/-- No token is lost, and none is collected twice. -/
theorem perm_tokens (h : Traces (Step view token) (· = empty) tr x) :
    ((collected tr).map (·.1) ++ x.outstanding.map (fun l => token l.2)).Perm
      ((lent tr).map token) := by
  refine Shows.invariant (fun tr x => ((collected tr).map (·.1) ++
    x.outstanding.map (fun l => token l.2)).Perm ((lent tr).map token)) ?_ ?_ h
  · rintro _ rfl
    exact .refl _
  · rintro tr x ev y ih hst
    cases hst with
    | @lend _ key item hkey =>
      have hout := (perm_outstanding_lend x (key, item)).map (fun l => token l.2)
      simp only [Option.toList_some, collected_snoc, Event.collected?, Option.toList_none, List.append_nil,
        lent_snoc, Event.lent?, List.map_append, List.map_cons, List.map_nil]
      refine (List.Perm.append_left _ hout).trans (List.perm_middle.trans ?_)
      exact (ih.cons _).trans (List.perm_append_singleton _ _).symm
    | @borrow key item posted held done =>
      have hout := (perm_outstanding_borrow (key, item) posted held done).map (fun l => token l.2)
      simp only [Option.toList_some, collected_snoc, Event.collected?, Option.toList_none, List.append_nil,
        lent_snoc, Event.lent?]
      exact (List.Perm.append_left _ hout).trans ih
    | @giveBack key item result posted held₁ held₂ done =>
      have hout := (perm_outstanding_giveBack (key, item) result posted held₁ held₂ done).map
        (fun l => token l.2)
      simp only [Option.toList_some, collected_snoc, Event.collected?, Option.toList_none, List.append_nil,
        lent_snoc, Event.lent?]
      exact (List.Perm.append_left _ hout).trans ih
    | @collect key item result posted held done =>
      have hout := (perm_outstanding_collect (key, item) result posted held done).map (fun l => token l.2)
      simp only [Option.toList_some, collected_snoc, Event.collected?, Option.toList_none, List.append_nil,
        lent_snoc, Event.lent?, List.map_append, List.map_cons, List.map_nil, List.append_assoc,
        List.singleton_append]
      exact (List.Perm.append_left _ hout).symm.trans ih

end

end Exchange

end Firmware
