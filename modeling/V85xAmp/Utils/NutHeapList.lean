import V85xAmp.Lib.Segments
import V85xAmp.Utils.NutHeap

/-!
# The free list

`FreeList h l`: a walk from the root sees the nodes `l`, which are separated, aligned and at least a
`HEAPNODE` long. `Cursor h l₁ l₂ q` is such a walk halfway. `FreeList.chain_splice` replaces what lies at a
cursor, the one edit that the operations are made of; `FreeList.takePart` and `FreeList.takeAll` are the two
ways in which a node loses its first bytes.
-/

namespace V85x

open Firmware

/-! ## Words -/

/-- The bytes of a link. -/
def Npp.Word : Npp → Nat → Prop
  | .root, _ => False
  | .next node, x => node + 4 ≤ x ∧ x < node + 8

namespace Heap

variable {h h' : Heap} {p q : Npp} {n m v x : Nat}

@[simp] theorem root_setHnSize (h : Heap) (n v : Nat) : (h.setHnSize n v).root = h.root := rfl

@[simp] theorem root_setHnNext (h : Heap) (n v : Nat) : (h.setHnNext n v).root = h.root := rfl

theorem mem_setHnSize (hx : x < n ∨ n + 4 ≤ x) : (h.setHnSize n v).mem x = h.mem x :=
  store32_apply_of_disjoint hx

theorem mem_setHnNext (hx : x < n + 4 ∨ n + 8 ≤ x) : (h.setHnNext n v).mem x = h.mem x :=
  store32_apply_of_disjoint (by omega)

theorem mem_store (hx : ¬ q.Word x) : (h.store q v).mem x = h.mem x := by
  cases q with
  | root => rfl
  | next n => exact mem_setHnNext (by unfold Npp.Word at hx; omega)

/-- The value of a link whose bytes are the same. -/
theorem load_congr (hroot : h'.root = h.root) (hm : ∀ x, q.Word x → h'.mem x = h.mem x) :
    h'.load q = h.load q := by
  cases q with
  | root => exact hroot
  | next n => exact load32_congr fun x h1 h2 => hm x ⟨h1, by omega⟩

theorem root_store (hq : q ≠ .root) : (h.store q v).root = h.root := by
  cases q with
  | root => exact absurd rfl hq
  | next n => rfl

theorem load_store_self (hv : v < addrMod) : (h.store q v).load q = v := by
  cases q with
  | root => rfl
  | next n => exact (load32_store32_self _ _ _).trans (Nat.mod_eq_of_lt hv)

theorem hnSize_setHnSize_self (hv : v < addrMod) : (h.setHnSize n v).hnSize n = v :=
  (load32_store32_self _ _ _).trans (Nat.mod_eq_of_lt hv)

theorem hnNext_setHnNext_self (hv : v < addrMod) : (h.setHnNext n v).hnNext n = v :=
  (load32_store32_self _ _ _).trans (Nat.mod_eq_of_lt hv)

theorem hnNext_lt (h : Heap) (n : Nat) : h.hnNext n < addrMod := load32_lt _ _

/-- The size of a node whose bytes are the same. -/
theorem hnSize_congr (hm : ∀ x, n ≤ x → x < n + 4 → h'.mem x = h.mem x) : h'.hnSize n = h.hnSize n :=
  load32_congr hm

theorem hnNext_congr (hm : ∀ x, n + 4 ≤ x → x < n + 8 → h'.mem x = h.mem x) :
    h'.hnNext n = h.hnNext n :=
  load32_congr fun x h1 h2 => hm x h1 (by omega)

theorem hnSize_setHnSize (hd : n + 4 ≤ m ∨ m + 4 ≤ n) : (h.setHnSize n v).hnSize m = h.hnSize m :=
  load32_store32_of_disjoint hd

theorem hnNext_setHnSize (hd : n + 4 ≤ m + 4 ∨ m + 8 ≤ n) : (h.setHnSize n v).hnNext m = h.hnNext m :=
  load32_store32_of_disjoint (by omega)

theorem hnSize_setHnNext (hd : n + 8 ≤ m ∨ m + 4 ≤ n + 4) : (h.setHnNext n v).hnSize m = h.hnSize m :=
  load32_store32_of_disjoint (by omega)

end Heap

/-! ## Walks -/

/-- A walk from the link `p` sees the nodes and stands at the link `q`. -/
def Path (h : Heap) : Npp → List Seg → Npp → Prop
  | p, [], q => p = q
  | p, s :: l, q => h.load p = s.addr ∧ s.addr ≠ 0 ∧ h.hnSize s.addr = s.size ∧ Path h (.next s.addr) l q

/-- A walk from the link `p` sees the nodes and ends. -/
def Chain (h : Heap) : Npp → List Seg → Prop
  | p, [] => h.load p = 0
  | p, s :: l => h.load p = s.addr ∧ s.addr ≠ 0 ∧ h.hnSize s.addr = s.size ∧ Chain h (.next s.addr) l

/-- There is one list from a link. -/
theorem Chain.unique {h : Heap} {p : Npp} {l₁ l₂ : List Seg} (h₁ : Chain h p l₁) (h₂ : Chain h p l₂) :
    l₁ = l₂ := by
  induction l₁ generalizing p l₂ with
  | nil =>
    cases l₂ with
    | nil => rfl
    | cons b l₂ => exact absurd (h₂.1.symm.trans h₁) h₂.2.1
  | cons a l₁ ih =>
    obtain ⟨hload, hne, hsize, hrest⟩ := h₁
    cases l₂ with
    | nil => exact absurd (hload.symm.trans h₂) hne
    | cons b l₂ =>
      obtain ⟨hload', -, hsize', hrest'⟩ := h₂
      have haddr : a.addr = b.addr := hload.symm.trans hload'
      obtain rfl : a = b := by
        rw [← haddr] at hsize'
        cases a
        cases b
        exact Seg.mk.injEq .. ▸ ⟨haddr, hsize.symm.trans hsize'⟩
      rw [ih hrest hrest']

/-- The link is the root, or the node that it is in lies before the nodes of the list. -/
def Npp.Before (l : List Seg) : Npp → Prop
  | .root => True
  | .next n => ∀ s ∈ l, n + 8 ≤ s.addr

/-- Ascending nodes with room for a `HEAPNODE` each. -/
def Roomy (l : List Seg) : Prop := l.Pairwise fun s t => s.addr + 8 ≤ t.addr

section Walks

variable {h h' : Heap} {p q r : Npp} {l l₁ l₂ : List Seg} {s : Seg}

theorem chain_append : Chain h p (l₁ ++ l₂) ↔ ∃ q, Path h p l₁ q ∧ Chain h q l₂ := by
  induction l₁ generalizing p with
  | nil => simp [Path]
  | cons s l ih => simp [Path, Chain, ih, and_assoc]

theorem path_append : Path h p (l₁ ++ l₂) r ↔ ∃ q, Path h p l₁ q ∧ Path h q l₂ r := by
  induction l₁ generalizing p with
  | nil => simp [Path]
  | cons s l ih => simp [Path, ih, and_assoc]

/-- A walk ends where it began or in its last node. -/
theorem Path.end_eq (h₁ : Path h p l q) : (l = [] ∧ q = p) ∨ ∃ s ∈ l, q = .next s.addr := by
  induction l generalizing p with
  | nil => exact .inl ⟨rfl, h₁.symm⟩
  | cons s l ih =>
    rcases ih h₁.2.2.2 with ⟨rfl, rfl⟩ | ⟨t, ht, rfl⟩
    · exact .inr ⟨s, List.mem_cons_self, rfl⟩
    · exact .inr ⟨t, List.mem_cons_of_mem _ ht, rfl⟩

/-- A walk reads the links before its end, and the sizes. -/
theorem Path.frame (h₁ : Path h p l q) (hl : Roomy l) (hp : p.Before l)
    (hroot : p = .root → q ≠ .root → h'.root = h.root)
    (hlink : ∀ n x, p = .next n → p ≠ q → p.Word x → h'.mem x = h.mem x)
    (hmem : ∀ s ∈ l, ∀ x, s.addr ≤ x → x < s.addr + 8 → ¬ q.Word x → h'.mem x = h.mem x) :
    Path h' p l q := by
  induction l generalizing p with
  | nil => exact h₁
  | cons s l ih =>
    obtain ⟨hload, hne, hsize, hrest⟩ := h₁
    obtain ⟨hs, hl⟩ := List.pairwise_cons.mp hl
    -- the end is in a node of the list, and so it is not `p`
    have hend : ∃ t ∈ s :: l, q = .next t.addr := by
      rcases hrest.end_eq with ⟨-, rfl⟩ | ⟨t, ht, rfl⟩
      · exact ⟨s, List.mem_cons_self, rfl⟩
      · exact ⟨t, List.mem_cons_of_mem _ ht, rfl⟩
    obtain ⟨t, ht, rfl⟩ := hend
    have hpq : p ≠ .next t.addr := by
      rintro rfl
      have := hp t ht
      omega
    refine ⟨?_, hne, ?_, ih hrest hl hs (fun he => nomatch he) ?_ fun u hu => ?_⟩
    · rw [← hload]
      cases p with
      | root => exact hroot rfl (by simp)
      | next n => exact Heap.hnNext_congr fun x h1 h2 => hlink n x rfl hpq ⟨h1, h2⟩
    · rw [← hsize]
      refine Heap.hnSize_congr fun x h1 h2 => hmem s List.mem_cons_self x h1 (by omega) ?_
      rcases List.mem_cons.mp ht with rfl | ht
      · unfold Npp.Word
        omega
      · have := hs t ht
        unfold Npp.Word
        omega
    · intro n x he hne' hx
      cases he
      refine hmem s List.mem_cons_self x (by have := hx.1; omega) hx.2 ?_
      rcases List.mem_cons.mp ht with rfl | ht
      · exact absurd rfl hne'
      · have h1 := hs t ht
        have h2 := hx.2
        unfold Npp.Word
        omega
    · exact hmem u (List.mem_cons_of_mem _ hu)

/-- A walk to the end reads the first link and its nodes. -/
theorem Chain.frame (h₁ : Chain h p l) (hload : h'.load q = h.load p)
    (hmem : ∀ s ∈ l, ∀ x, s.addr ≤ x → x < s.addr + 8 → h'.mem x = h.mem x) : Chain h' q l := by
  induction l generalizing p q with
  | nil => exact hload.trans h₁
  | cons s l ih =>
    obtain ⟨hp, hne, hsize, hrest⟩ := h₁
    rw [List.forall_mem_cons] at hmem
    refine ⟨hload.trans hp, hne, ?_, ih hrest ?_ hmem.2⟩
    · rw [← hsize]
      exact Heap.hnSize_congr fun x h1 h2 => hmem.1 x h1 (by omega)
    · exact Heap.hnNext_congr fun x h1 h2 => hmem.1 x (by omega) h2

/-- Replace a part of a list by `mid`: the nodes before it keep their bytes, apart from the link to it, the
nodes behind it keep theirs, and the last link of `mid` leads to them. -/
theorem Chain.splice {l₁ mid l₂ : List Seg} {r r' : Npp} (hl : Roomy l₁) (h₁ : Path h .root l₁ q)
    (h₂ : Chain h r l₂) (hroot : q ≠ .root → h'.root = h.root)
    (hm₁ : ∀ s ∈ l₁, ∀ x, s.addr ≤ x → x < s.addr + 8 → ¬ q.Word x → h'.mem x = h.mem x)
    (hmid : Path h' q mid r') (hload : h'.load r' = h.load r)
    (hm₂ : ∀ s ∈ l₂, ∀ x, s.addr ≤ x → x < s.addr + 8 → h'.mem x = h.mem x) :
    Chain h' .root (l₁ ++ mid ++ l₂) := by
  have h₁' : Path h' .root l₁ q :=
    h₁.frame hl trivial (fun _ => hroot) (fun n x he => nomatch he) hm₁
  exact chain_append.mpr ⟨r', path_append.mpr ⟨q, h₁', hmid⟩, h₂.frame hload hm₂⟩

end Walks

/-! ## The free list -/

/-- A block of memory that can be a node. -/
structure IsNode (s : Seg) : Prop where
  addr_mod : s.addr % 4 = 0
  size_mod : s.size % 4 = 0
  size_ge : 8 ≤ s.size
  addr_ne : s.addr ≠ 0
  fin_lt : s.fin < addrMod

/-- The header of a node. -/
theorem IsNode.has {b : Seg} {x : Nat} (hb : IsNode b) (hlo : b.addr ≤ x) (hhi : x < b.addr + 8) : b.Has x :=
  ⟨hlo, by have := hb.size_ge; unfold Seg.fin; omega⟩

theorem IsNode.out {b : Seg} {x : Nat} (hb : IsNode b) (hx : ¬ b.Has x) : x < b.addr ∨ b.addr + 8 ≤ x := by
  have := hb.size_ge
  unfold Seg.Has Seg.fin at hx
  omega

theorem prepareUserArea_eq {b : Seg} (hb : IsNode b) : prepareUserArea b.addr = b.addr + 4 := by
  have hfin : b.addr + b.size < addrMod := hb.fin_lt
  have hb8 := hb.size_ge
  exact Nat.mod_eq_of_lt (by unfold nutHeapOverhead; omega)

theorem nodeOfBlock_eq {b : Seg} (hb : IsNode b) : nodeOfBlock (b.addr + 4) = b.addr := by
  have hfin : b.addr + b.size < addrMod := hb.fin_lt
  unfold nodeOfBlock nutHeapOverhead
  unfold addrMod at *
  omega

structure FreeList (h : Heap) (l : List Seg) : Prop where
  chain : Chain h .root l
  nodes : ∀ s ∈ l, IsNode s
  separated : Separated l

/-- A walk along the free list that has seen `l₁` and stands at the link `q` in front of `l₂`. -/
structure Cursor (h : Heap) (l₁ l₂ : List Seg) (q : Npp) : Prop where
  path : Path h .root l₁ q
  chain : Chain h q l₂

section FreeList

variable {h h' : Heap} {q : Npp} {l l₁ l₂ : List Seg} {a : Seg}

theorem Separated.roomy (h : Separated l) (hn : ∀ s ∈ l, IsNode s) : Roomy l := by
  refine List.Pairwise.imp_of_mem (fun {s t} hs _ hlt => ?_) h
  have hge := (hn s hs).size_ge
  unfold Seg.fin at hlt
  omega

theorem FreeList.cursor (h₁ : FreeList h l) : Cursor h [] l .root := ⟨rfl, h₁.chain⟩

theorem Cursor.next (hc : Cursor h l₁ (a :: l₂) q) : Cursor h (l₁ ++ [a]) l₂ (.next a.addr) :=
  ⟨path_append.mpr ⟨q, hc.path, hc.chain.1, hc.chain.2.1, hc.chain.2.2.1, rfl⟩, hc.chain.2.2.2⟩

/-- The nodes are in the order of their addresses. -/
theorem FreeList.fin_le_of_lt {s t : Seg} (h₁ : FreeList h l) (hs : s ∈ l) (ht : t ∈ l)
    (hlt : s.addr < t.addr) : s.fin ≤ t.addr := by
  have hs8 := (h₁.nodes s hs).size_ge
  have ht8 := (h₁.nodes t ht).size_ge
  obtain ⟨m₁, m₂, rfl⟩ := List.append_of_mem hs
  obtain ⟨hs₁, hs₂, hbefore⟩ := separated_append.mp h₁.separated
  rcases List.mem_append.mp ht with ht | ht
  · have := hbefore t ht s List.mem_cons_self
    unfold Seg.fin at *
    omega
  · rcases List.mem_cons.mp ht with rfl | ht
    · omega
    · exact Nat.le_of_lt ((separated_cons.mp hs₂).1 t ht)

/-- What is not covered is in no header. -/
theorem FreeList.frame (h₁ : FreeList h l) (hroot : h'.root = h.root)
    (hmem : ∀ x, 0 < cover l x → h'.mem x = h.mem x) : FreeList h' l where
  chain := h₁.chain.frame hroot fun s hs x hlo hhi =>
    hmem x (cover_pos.mpr ⟨s, hs, (h₁.nodes s hs).has hlo hhi⟩)
  nodes := h₁.nodes
  separated := h₁.separated

/-- The link of a cursor is the root or in the node before it. -/
theorem Cursor.link (hc : Cursor h l₁ l₂ q) : (l₁ = [] ∧ q = .root) ∨ ∃ s ∈ l₁, q = .next s.addr :=
  hc.path.end_eq

/-- Nodes of a free list do not overlap. -/
theorem FreeList.cover_le_one (h₁ : FreeList h l) (x : Nat) : cover l x ≤ 1 := by
  refine cover_le_one_of_pairwise (h₁.separated.imp fun {s t} hlt y hs ht => ?_) x
  have h1 := hs.2
  have h2 := ht.1
  omega

/-- The bytes of a link are in a node before the cursor, and in none behind it. -/
theorem FreeList.cover_word (h₁ : FreeList h (l₁ ++ l₂)) (hc : Cursor h l₁ l₂ q) {x : Nat} (hx : q.Word x) :
    0 < cover l₁ x ∧ cover l₂ x = 0 := by
  have hpos : 0 < cover l₁ x := by
    rcases hc.link with ⟨-, rfl⟩ | ⟨s, hs, rfl⟩
    · exact hx.elim
    · obtain ⟨hlo, hhi⟩ := hx
      exact cover_pos.mpr ⟨s, hs, (h₁.nodes s (by simp [hs])).has (by omega) hhi⟩
  have hle := h₁.cover_le_one x
  rw [cover_append] at hle
  omega

/-- Replace the nodes `o` behind a cursor by `m`: the other nodes keep their bytes, apart from the link to
`m`, and the last link of `m` leads where that of `o` did. -/
theorem FreeList.chain_splice {o m : List Seg} {r r' : Npp} (h₁ : FreeList h (l₁ ++ o ++ l₂))
    (hc : Cursor h l₁ (o ++ l₂) q) (h₂ : Chain h r l₂) (hroot : q ≠ .root → h'.root = h.root)
    (hmem : ∀ x, 0 < cover l₁ x + cover l₂ x → ¬ q.Word x → h'.mem x = h.mem x)
    (hmid : Path h' q m r') (hload : h'.load r' = h.load r) : Chain h' .root (l₁ ++ m ++ l₂) := by
  obtain ⟨h₁₂, -, hlt⟩ := separated_append.mp h₁.separated
  have hn : ∀ s ∈ l₁, IsNode s := fun s hs => h₁.nodes s (by simp [hs])
  have hn₂ : ∀ s ∈ l₂, IsNode s := fun s hs => h₁.nodes s (by simp [hs])
  refine Chain.splice (Separated.roomy (separated_append.mp h₁₂).1 hn) hc.path h₂ hroot ?_ hmid hload ?_
  · intro s hs x hlo hhi hx
    have hpos : 0 < cover l₁ x := cover_pos.mpr ⟨s, hs, (hn s hs).has hlo hhi⟩
    exact hmem x (by omega) hx
  · intro s hs x hlo hhi
    have hpos : 0 < cover l₂ x := cover_pos.mpr ⟨s, hs, (hn₂ s hs).has hlo hhi⟩
    refine hmem x (by omega) fun hx => ?_
    have hzero := (FreeList.cover_word (by simpa using h₁) hc hx).2
    simp only [cover_append] at hzero
    omega

/-- One node `c` in the place of the nodes `o`. -/
theorem FreeList.chain_relink {o : List Seg} {c : Seg} {r : Npp} (h₁ : FreeList h (l₁ ++ (o ++ l₂)))
    (hc : Cursor h l₁ (o ++ l₂) q) (h₂ : Chain h r l₂) (hroot : q ≠ .root → h'.root = h.root)
    (hmem : ∀ x, 0 < cover l₁ x + cover l₂ x → ¬ q.Word x → h'.mem x = h.mem x) (hne : c.addr ≠ 0)
    (hload : h'.load q = c.addr) (hsize : h'.hnSize c.addr = c.size)
    (hnext : h'.hnNext c.addr = h.load r) : Chain h' .root (l₁ ++ c :: l₂) := by
  rw [← List.append_assoc] at h₁
  simpa using h₁.chain_splice (m := [c]) hc h₂ hroot hmem ⟨hload, hne, hsize, rfl⟩ hnext

/-- The node at the cursor loses its first `n` bytes. -/
theorem FreeList.takePart {n : Nat} (h₁ : FreeList h (l₁ ++ a :: l₂)) (hc : Cursor h l₁ (a :: l₂) q)
    (hn : n % 4 = 0) (hsize : n + 8 ≤ a.size) (hroot : q ≠ .root → h'.root = h.root)
    (hmem : ∀ x, 0 < cover l₁ x + cover l₂ x → ¬ q.Word x → h'.mem x = h.mem x)
    (hload : h'.load q = a.addr + n) (hsz : h'.hnSize (a.addr + n) = a.size - n)
    (hnext : h'.hnNext (a.addr + n) = h.hnNext a.addr) :
    FreeList h' (l₁ ++ ⟨a.addr + n, a.size - n⟩ :: l₂) := by
  have ha := h₁.nodes a (by simp)
  have hfin : (⟨a.addr + n, a.size - n⟩ : Seg).fin = a.fin := by
    unfold Seg.fin
    dsimp only
    omega
  refine ⟨?_, ?_, ?_⟩
  · refine h₁.chain_relink (o := [a]) hc hc.chain.2.2.2 hroot hmem ?_ hload hsz hnext
    have := ha.addr_ne
    show a.addr + n ≠ 0
    omega
  · intro s hs
    rcases List.mem_append.mp hs with hs | hs
    · exact h₁.nodes s (by simp [hs])
    · rcases List.mem_cons.mp hs with rfl | hs
      · have h1 := ha.addr_mod
        have h2 := ha.size_mod
        have h3 := ha.addr_ne
        exact ⟨by dsimp only; omega, by dsimp only; omega, by dsimp only; omega, by dsimp only; omega,
          hfin ▸ ha.fin_lt⟩
      · exact h₁.nodes s (by simp [hs])
  · obtain ⟨hs₁, hs₂, hlt⟩ := separated_append.mp h₁.separated
    obtain ⟨ha₂, hs₂⟩ := separated_cons.mp hs₂
    refine separated_append.mpr ⟨hs₁, separated_cons.mpr ⟨hfin ▸ ha₂, hs₂⟩, fun s hs t ht => ?_⟩
    rcases List.mem_cons.mp ht with rfl | ht
    · have := hlt s hs a List.mem_cons_self
      dsimp only
      omega
    · exact hlt s hs t (List.mem_cons_of_mem _ ht)

/-- The node at the cursor leaves the list. -/
theorem FreeList.takeAll (h₁ : FreeList h (l₁ ++ a :: l₂)) (hc : Cursor h l₁ (a :: l₂) q)
    (hroot : q ≠ .root → h'.root = h.root)
    (hmem : ∀ x, 0 < cover l₁ x + cover l₂ x → ¬ q.Word x → h'.mem x = h.mem x)
    (hload : h'.load q = h.hnNext a.addr) : FreeList h' (l₁ ++ l₂) := by
  have h₁' : FreeList h (l₁ ++ [a] ++ l₂) := by simpa using h₁
  refine ⟨?_, fun s hs => h₁.nodes s ?_, ?_⟩
  · simpa using h₁'.chain_splice (m := []) hc hc.chain.2.2.2 hroot hmem rfl hload
  · rcases List.mem_append.mp hs with hs | hs <;> simp [hs]
  · exact h₁.separated.sublist ((List.sublist_cons_self a l₂).append_left l₁)

end FreeList

/-- One free node of 64 bytes. -/
def oneNodeHeap : Heap := (⟨64, fun _ => 0#8⟩ : Heap).setHnSize 64 64

theorem oneNodeHeap_freeList : FreeList oneNodeHeap [⟨64, 64⟩] where
  chain := ⟨rfl, by decide, rfl, rfl⟩
  nodes := by
    rw [List.forall_mem_singleton]
    exact ⟨rfl, rfl, by decide, by decide, by decide⟩
  separated := List.pairwise_singleton _ _

end V85x
