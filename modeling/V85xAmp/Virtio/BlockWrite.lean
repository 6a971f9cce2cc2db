import V85xAmp.VirtUart.Echo
import V85xAmp.Virtio.Virtqueue

/-!
# Writes to an I/O region (`metal_io_block_write` of `libmetal/io.c`)

The function copies bytes until both pointers are aligned, then words, then bytes again. The number that is
left is an `int`: here it is the word that the `int` is made of. `metalIoBlockWrite_returns` says what is
stored: the first bytes of the source in their order, as many as the number says, but not beyond the end of
the region.

The function does not check for a negative number. The two loops that only stop at 0 take it down through
the least `int`, and store to all of the address space on the way, the program and its stack included. Such
a call has no result here (`metalIoBlockWrite_diverges`).

The regions have no operations of their own (`_shmem_init` passes NULL), so the loops do the copy.
-/

namespace V85x

open Firmware

/-! ## The source -/

/-- The memory behind a pointer of the caller: its address, and the bytes from there on. The block does not
overlap it (`restrict`). -/
structure Source where
  addr : BitVec 32
  bytes : Nat → Byte

/-- The variables of the loops, and the stores so far. `source` has advanced by `pos`. -/
structure BlockCopy where
  ptr : BitVec 32
  pos : Nat
  len : BitVec 32
  stores : Stores

/-- The first `n` bytes of the source at `ptr`. -/
def blockStores (src : Source) (ptr : BitVec 32) (n : Nat) : Stores :=
  (List.range n).map fun i => (src.bytes i, (ptr + BitVec.ofNat 32 i).toNat)

namespace BlockCopy

/-- One of the pointers is no multiple of `sizeof(int)`. -/
def Unaligned (src : Source) (c : BlockCopy) : Prop :=
  c.ptr.toNat % 4 ≠ 0 ∨ (src.addr.toNat + c.pos) % 4 ≠ 0

/-- An iteration that copies `k` bytes. -/
def advance (src : Source) (k : Nat) (c : BlockCopy) : BlockCopy where
  ptr := c.ptr + BitVec.ofNat 32 k
  pos := c.pos + k
  len := c.len - BitVec.ofNat 32 k
  stores := c.stores ++
    (List.range k).map fun i => (src.bytes (c.pos + i), (c.ptr + BitVec.ofNat 32 i).toNat)

/-- A loop that copies `k` bytes at a time while `cond` holds. -/
def copyLoop (src : Source) (k : Nat) (cond : BlockCopy → Prop) [DecidablePred cond] (c : BlockCopy) :
    Comp BlockCopy :=
  Comp.loop (fun c => pure (if cond c then .inl (c.advance src k) else .inr c)) c

/-- `len && (ptr % sizeof(int) || source % sizeof(int))` -/
def HeadCond (src : Source) (c : BlockCopy) : Prop := c.len ≠ 0#32 ∧ c.Unaligned src

/-- `len >= (int)sizeof(int)` -/
def WordCond (c : BlockCopy) : Prop := 4 ≤ c.len.toInt

/-- `len != 0` -/
def TailCond (c : BlockCopy) : Prop := c.len ≠ 0#32

instance (src : Source) (c : BlockCopy) : Decidable (c.HeadCond src) :=
  inferInstanceAs (Decidable (_ ∧ (_ ∨ _)))
instance (c : BlockCopy) : Decidable c.WordCond := inferInstanceAs (Decidable (_ ≤ _))
instance (c : BlockCopy) : Decidable c.TailCond := inferInstanceAs (Decidable (_ ≠ _))

end BlockCopy

/-- `-ERANGE` -/
def negErange : Int := -34

/-- The number of bytes that `metal_io_block_write` copies: not beyond the end of the region. -/
def blockLen (io : IoRegion) (offset len : BitVec 32) : BitVec 32 :=
  if io.size < offset + len then io.size - offset else len

/-- `metal_io_block_write`: the return value and the stores. -/
def metalIoBlockWrite (io : IoRegion) (offset : BitVec 32) (src : Source) (len : BitVec 32) :
    Comp (Int × Stores) :=
  match metalIoVirt io offset with
  | none => pure (negErange, [])
  | some ptr =>
    let len := blockLen io offset len
    -- the loops store over the program itself
    if len.toInt < 0 then Comp.stuck
    else do
      let c ← BlockCopy.copyLoop src 1 (BlockCopy.HeadCond src) ⟨ptr, 0, len, []⟩
      let c ← BlockCopy.copyLoop src 4 BlockCopy.WordCond c
      let c ← BlockCopy.copyLoop src 1 BlockCopy.TailCond c
      pure (len.toInt, c.stores)

/-- There is nothing to write to, or the number of bytes is not negative. -/
def WriteEnds (io : IoRegion) (offset len : BitVec 32) : Prop :=
  metalIoVirt io offset = none ∨ 0 ≤ (blockLen io offset len).toInt

/-! ## What is stored -/

namespace BlockCopy

/-- The loops have copied the first `pos` of `n` bytes. -/
structure Copied (src : Source) (ptr : BitVec 32) (n : Nat) (c : BlockCopy) : Prop where
  total : c.pos + c.len.toNat = n
  ptr_eq : c.ptr = ptr + BitVec.ofNat 32 c.pos
  stores : c.stores = blockStores src ptr c.pos

variable {src : Source} {ptr : BitVec 32} {n k : Nat} {c : BlockCopy}

theorem toNat_len_advance (hk : k ≤ c.len.toNat) : (c.advance src k).len.toNat = c.len.toNat - k := by
  have hlt := c.len.isLt
  have hk32 : (BitVec.ofNat 32 k).toNat = k := by rw [BitVec.toNat_ofNat, Nat.mod_eq_of_lt (by omega)]
  rw [advance, BitVec.toNat_sub_of_le (by rw [BitVec.le_def, hk32]; exact hk), hk32]

theorem Copied.advance (h : c.Copied src ptr n) (hk : k ≤ c.len.toNat) :
    (c.advance src k).Copied src ptr n := by
  have hptr : ∀ i, c.ptr + BitVec.ofNat 32 i = ptr + BitVec.ofNat 32 (c.pos + i) := fun i => by
    rw [h.ptr_eq, BitVec.add_assoc, BitVec.ofNat_add]
  refine ⟨?_, hptr k, ?_⟩
  · have htotal := h.total
    rw [toNat_len_advance hk, BlockCopy.advance]
    simp only
    omega
  · simp only [BlockCopy.advance, h.stores, blockStores, hptr, List.range_add, List.map_append,
      List.map_map, Function.comp_def]

theorem Copied.copyLoop_ends (h : c.Copied src ptr n) (cond : BlockCopy → Prop) [DecidablePred cond]
    (hk : 0 < k) (hcond : ∀ c : BlockCopy, cond c → k ≤ c.len.toNat) :
    (copyLoop src k cond c).Ends fun c' => c'.Copied src ptr n ∧ ¬ cond c' := by
  refine Comp.loop_ends (fun g c => c.len.toNat = g ∧ c.Copied src ptr n) id ?_ c.len.toNat c ⟨rfl, h⟩
  rintro g c ⟨rfl, hc⟩
  rw [Comp.ends_pure]
  by_cases hcc : cond c
  · have hle := hcond c hcc
    rw [if_pos hcc]
    refine ⟨(c.advance src k).len.toNat, ?_, rfl, hc.advance hle⟩
    rw [toNat_len_advance hle]
    simp only [id]
    omega
  · rw [if_neg hcc]
    exact ⟨hc, hcc⟩

theorem one_le_of_ne_zero (h : c.len ≠ 0#32) : 1 ≤ c.len.toNat :=
  Nat.one_le_iff_ne_zero.mpr fun h0 => h (BitVec.eq_of_toNat_eq h0)

theorem four_le_of_wordCond (h : c.WordCond) : 4 ≤ c.len.toNat := by
  rw [WordCond, BitVec.toInt_eq_toNat_cond] at h
  split at h <;> omega

end BlockCopy

/-- The stores of a write. -/
def blockWriteStores (io : IoRegion) (offset : BitVec 32) (src : Source) (len : BitVec 32) : Stores :=
  match metalIoVirt io offset with
  | none => []
  | some ptr => blockStores src ptr (blockLen io offset len).toNat

theorem metalIoBlockWrite_returns {io : IoRegion} {offset len : BitVec 32} (h : WriteEnds io offset len)
    (src : Source) :
    ∃ ret, (metalIoBlockWrite io offset src len).Returns (ret, blockWriteStores io offset src len) := by
  rw [metalIoBlockWrite, blockWriteStores]
  rw [WriteEnds] at h
  cases hvirt : metalIoVirt io offset with
  | none => exact ⟨_, Comp.returns_pure.mpr rfl⟩
  | some ptr =>
    have hlen : ¬ (blockLen io offset len).toInt < 0 :=
      Int.not_lt.mpr (h.resolve_left (by rw [hvirt]; exact Option.some_ne_none ptr))
    simp only [hlen, ↓reduceIte]
    have h₀ : BlockCopy.Copied src ptr (blockLen io offset len).toNat ⟨ptr, 0, blockLen io offset len, []⟩ :=
      ⟨Nat.zero_add _, (BitVec.add_zero ptr).symm, rfl⟩
    obtain ⟨c₁, hr₁, h₁, -⟩ := h₀.copyLoop_ends (BlockCopy.HeadCond src) Nat.one_pos
      fun c hc => BlockCopy.one_le_of_ne_zero hc.1
    obtain ⟨c₂, hr₂, h₂, -⟩ := h₁.copyLoop_ends BlockCopy.WordCond (show 0 < 4 by decide)
      fun c => BlockCopy.four_le_of_wordCond
    obtain ⟨c₃, hr₃, h₃, hend⟩ := h₂.copyLoop_ends BlockCopy.TailCond Nat.one_pos
      fun c => BlockCopy.one_le_of_ne_zero
    have hlen : c₃.len = 0#32 := not_not.mp hend
    have hpos : c₃.pos = (blockLen io offset len).toNat := by
      have htotal := h₃.total
      rwa [hlen] at htotal
    refine ⟨_, Comp.returns_bind.mpr ⟨c₁, hr₁, Comp.returns_bind.mpr ⟨c₂, hr₂, Comp.returns_bind.mpr
      ⟨c₃, hr₃, Comp.returns_pure.mpr (Prod.ext rfl ?_)⟩⟩⟩⟩
    rw [h₃.stores, hpos]

/-- A negative number of bytes. -/
theorem metalIoBlockWrite_diverges {io : IoRegion} {offset len : BitVec 32} (h : ¬ WriteEnds io offset len)
    (src : Source) : (metalIoBlockWrite io offset src len).Diverges := by
  obtain ⟨hvirt, hlen⟩ := not_or.mp h
  obtain ⟨ptr, hptr⟩ := Option.ne_none_iff_exists'.mp hvirt
  rw [metalIoBlockWrite, hptr]
  simp only [Int.not_le.mp hlen, ↓reduceIte]
  exact Comp.stuck_diverges

/-! ## The memory after it -/

theorem map_snd_blockStores (src : Source) (ptr : BitVec 32) (n : Nat) :
    (blockStores src ptr n).map (·.2) = (List.range n).map fun i => (ptr + BitVec.ofNat 32 i).toNat := by
  rw [blockStores, List.map_map]
  rfl

/-- Stores that do not wrap. -/
theorem blockStores_eq_zipIdx {src : Source} {ptr : BitVec 32} {n : Nat} (h : ptr.toNat + n ≤ 2 ^ 32) :
    blockStores src ptr n = ((List.range n).map src.bytes).zipIdx ptr.toNat := by
  apply List.ext_getElem (by simp [blockStores])
  intro i hi hi'
  have hin : i < n := by simpa [blockStores] using hi
  simp only [blockStores, List.getElem_map, List.getElem_range, List.getElem_zipIdx, BitVec.toNat_add,
    BitVec.toNat_ofNat, Nat.add_mod_mod]
  rw [Nat.mod_eq_of_lt (by omega)]

theorem storeAll_blockStores {src : Source} {ptr : BitVec 32} {n : Nat} (h : ptr.toNat + n ≤ 2 ^ 32)
    (m : Mem) (x : Nat) : storeAll m (blockStores src ptr n) x =
      if ptr.toNat ≤ x ∧ x < ptr.toNat + n then src.bytes (x - ptr.toNat) else m x := by
  rw [blockStores_eq_zipIdx h, storeAll_zipIdx]
  by_cases hle : ptr.toNat ≤ x
  · rw [if_pos hle]
    by_cases hlt : x < ptr.toNat + n
    · have hin : x - ptr.toNat < n := by omega
      rw [if_pos ⟨hle, hlt⟩]
      simp [List.getD, hin]
    · have hout : n ≤ x - ptr.toNat := by omega
      rw [if_neg fun hx => hlt hx.2]
      simp [List.getD, hout]
  · rw [if_neg hle, if_neg fun hx => hle hx.1]

/-- A place that no store goes to. -/
theorem storeAll_of_notMem {stores : Stores} {x : Nat} (h : x ∉ stores.map (·.2)) (m : Mem) :
    storeAll m stores x = m x := by
  induction stores generalizing m with
  | nil => rfl
  | cons s stores ih =>
    rw [List.map_cons, List.mem_cons, not_or] at h
    rw [show storeAll m (s :: stores) = storeAll (Function.update m s.2 s.1) stores from rfl, ih h.2,
      Function.update_of_ne h.1]

/-- Stores at `p` that do not come round to the 16 bytes in front of it. -/
theorem notMem_blockStores {src : Source} {p : BitVec 32} {n x : Nat} (hp : 16 ≤ p.toNat)
    (hn : n ≤ 2 ^ 32 - 16) (hlo : p.toNat - 16 ≤ x) (hhi : x < p.toNat) :
    x ∉ (blockStores src p n).map (·.2) := by
  rw [map_snd_blockStores]
  intro hmem
  obtain ⟨i, hi, rfl⟩ := List.mem_map.mp hmem
  have hin := List.mem_range.mp hi
  have hlt := p.isLt
  rw [BitVec.toNat_add, BitVec.toNat_ofNat] at hlo hhi
  omega

/-! ## The shared memory -/

section

variable {p : BitVec 32}

theorem toNat_sub_shmBase (h : 0x43d80000 ≤ p.toNat) : (p - 0x43d80000#32).toNat = p.toNat - 0x43d80000 :=
  BitVec.toNat_sub_of_le (by rw [BitVec.le_def]; exact h)

theorem metalIoVirtToOffset_of_lt (hlo : 0x43d80000 ≤ p.toNat) (hhi : p.toNat < 0x43dc0000) :
    metalIoVirtToOffset shmRegion p = p - 0x43d80000#32 ∧
      metalIoVirt shmRegion (p - 0x43d80000#32) = some p := by
  have hoff : p - shmRegion.virt < shmRegion.size := by
    rw [BitVec.lt_def]
    change (p - 0x43d80000#32).toNat < 0x40000
    rw [toNat_sub_shmBase hlo]
    omega
  have hback : shmRegion.virt + (p - shmRegion.virt) = p := by rw [BitVec.add_comm, BitVec.sub_add_cancel]
  refine ⟨if_pos hoff, ?_⟩
  rw [metalIoVirt, show p - 0x43d80000#32 = p - shmRegion.virt from rfl, if_pos hoff, hback]

/-- A write to a pointer into the shared memory. -/
theorem blockWriteStores_of_lt (hlo : 0x43d80000 ≤ p.toNat) (hhi : p.toNat < 0x43dc0000) (src : Source)
    (len : BitVec 32) : blockWriteStores shmRegion (metalIoVirtToOffset shmRegion p) src len =
      blockStores src p (blockLen shmRegion (p - 0x43d80000#32) len).toNat := by
  obtain ⟨hoff, hvirt⟩ := metalIoVirtToOffset_of_lt hlo hhi
  rw [blockWriteStores, hoff, hvirt]

/-- There is no pointer behind the shared memory. -/
theorem metalIoVirt_of_le (h : 0x43dc0000 ≤ p.toNat) :
    metalIoVirt shmRegion (metalIoVirtToOffset shmRegion p) = none := by
  have hoff : ¬ p - shmRegion.virt < shmRegion.size := by
    rw [BitVec.lt_def]
    change ¬ (p - 0x43d80000#32).toNat < 0x40000
    rw [toNat_sub_shmBase (by omega)]
    omega
  have hbad : ¬ metalBadOffset < shmRegion.size := by decide
  rw [metalIoVirtToOffset, if_neg hoff, metalIoVirt, if_neg hbad]

/-- A write to a pointer behind the shared memory. -/
theorem blockWriteStores_of_le (h : 0x43dc0000 ≤ p.toNat) (src : Source) (len : BitVec 32) :
    blockWriteStores shmRegion (metalIoVirtToOffset shmRegion p) src len = [] := by
  rw [blockWriteStores, metalIoVirt_of_le h]

/-- The number of bytes of such a write. The sum wraps for a negative number. -/
theorem toNat_blockLen (hlo : 0x43d80000 ≤ p.toNat) (hhi : p.toNat < 0x43dc0000) (len : BitVec 32) :
    (blockLen shmRegion (p - 0x43d80000#32) len).toNat =
      if 0x40000 < (p.toNat - 0x43d80000 + len.toNat) % 2 ^ 32 then 0x43dc0000 - p.toNat
      else len.toNat := by
  have hoff := toNat_sub_shmBase hlo
  have hsum : shmRegion.size < p - 0x43d80000#32 + len ↔
      0x40000 < (p.toNat - 0x43d80000 + len.toNat) % 2 ^ 32 := by
    rw [BitVec.lt_def, BitVec.toNat_add, hoff]
    rfl
  rw [blockLen]
  by_cases hlt : 0x40000 < (p.toNat - 0x43d80000 + len.toNat) % 2 ^ 32
  · rw [if_pos (hsum.mpr hlt), if_pos hlt]
    change (0x40000#32 - (p - 0x43d80000#32)).toNat = _
    rw [BitVec.toNat_sub_of_le (by rw [BitVec.le_def, hoff]; change _ ≤ 0x40000; omega), hoff]
    change 0x40000 - _ = _
    omega
  · rw [if_neg (mt hsum.mp hlt), if_neg hlt]

theorem writeEnds_iff (hlo : 0x43d80000 ≤ p.toNat) (hhi : p.toNat < 0x43dc0000) (len : BitVec 32) :
    WriteEnds shmRegion (metalIoVirtToOffset shmRegion p) len ↔
      (blockLen shmRegion (p - 0x43d80000#32) len).toNat < 2 ^ 31 := by
  obtain ⟨hoff, hvirt⟩ := metalIoVirtToOffset_of_lt hlo hhi
  rw [WriteEnds, hoff, hvirt, or_iff_right (Option.some_ne_none p), BitVec.toInt_eq_toNat_cond]
  split <;> omega

/-- A write of a number of bytes that is not negative. -/
theorem writeEnds_of_lt (hlo : 0x43d80000 ≤ p.toNat) {len : BitVec 32} (hlen : len.toNat < 2 ^ 31) :
    WriteEnds shmRegion (metalIoVirtToOffset shmRegion p) len := by
  by_cases hhi : p.toNat < 0x43dc0000
  · rw [writeEnds_iff hlo hhi, toNat_blockLen hlo hhi]
    split <;> omega
  · exact .inl (metalIoVirt_of_le (Nat.le_of_not_lt hhi))

end

end V85x
