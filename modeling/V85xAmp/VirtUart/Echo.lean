import V85xAmp.Utils.Debug

/-!
# The echo (`main.c`, `sunxi_virt_uart.c`)

A message for a virtual UART is a pointer into the shared memory and a length. Its callback formats the
pointer as a C string into a local array of `RPMSG_BUFFER_SIZE` bytes and hands the array and the
length of the text to `virt_uart_transmit`. `virtUartReadCb_returns` says what comes out when a NUL ends
the string at `s`: the stores into the array are the text `echoText name s` and a NUL, from its first
byte on.

* `echo_fits_iff`: all stores are inside the array exactly when the string has at most 469 characters.
* `echo_depends_only_iff`: the reply depends on the message alone exactly when the message has a NUL, after
  at most 469 characters.
-/

namespace V85x

open Firmware

/-! ## The source -/

/-- `RPMSG_BUFFER_SIZE` -/
def rpmsgBufferSize : Nat := 512

/-- The callbacks that `main` registers. -/
inductive RxCb
  | vuart0RxCb
  | vuart1RxCb
deriving Repr, DecidableEq

/-- `virt_uart_t`, less its endpoint. -/
structure VirtUart where
  name : List Byte
  rxBuf : Nat
  rxSize : BitVec 16
  cb : Option RxCb
deriving Repr, DecidableEq

/-- `vuart0`, with its callback registered. -/
def vuart0 : VirtUart := ⟨"virtual uart#0".toList.map ch, 0, 0#16, some .vuart0RxCb⟩

/-- `vuart1`, with its callback registered. -/
def vuart1 : VirtUart := ⟨"virtual uart#1".toList.map ch, 0, 0#16, some .vuart1RxCb⟩

/-- The array after the stores. -/
def storeAll (buf : Nat → Byte) (stores : Stores) : Nat → Byte :=
  stores.foldl (fun buf (c, i) => Function.update buf i c) buf

/-- The arguments `data` and `size` of the `virt_uart_transmit` of a callback. -/
structure Reply where
  data : Nat → Byte
  size : BitVec 16

/-- The bytes that `virt_uart_transmit` is given. -/
def Reply.text (r : Reply) : List Byte := (List.range r.size.toNat).map r.data

/-- What a callback leaves: the stores of `sprintf_` into its array `buf`, its reply, and the trace log. With
a store past the end of the array nothing can be said of what follows, and there is no reply. -/
structure Echo where
  stores : Stores
  reply : Option Reply
  log : TraceLog

/-- The body that the two callbacks have in common, up to `virt_uart_transmit`. `mem` is the shared
memory and `buf` what the stack holds where the local array is. -/
def echoReply (vuart : VirtUart) (mem : Mem) (buf : Nat → Byte) (log : TraceLog) : Comp (Option Echo) := do
  let rx := VaArg.str fun i => mem (vuart.rxBuf + i)
  let name := VaArg.str (cstr vuart.name)
  let r ← debugRiscv "%s receive: [%s]\r\n".toList [name, rx] log
  match r with
  | none => pure none
  | some log => do
    let r ← sprintf "v85x-riscv: reply to [%s] on %s\n".toList [rx, name]
    match r with
    | none => pure none
    | some (_, stores) =>
      if stores.all fun st => st.2 < rpmsgBufferSize then do
        let data := storeAll buf stores
        let n ← strlen data
        pure (some { stores, reply := some ⟨data, BitVec.ofNat 16 n⟩, log })
      else pure (some { stores, reply := none, log })

/-- `vuart0_rx_cb` -/
def vuart0RxCb (vuart : VirtUart) (mem : Mem) (buf : Nat → Byte) (log : TraceLog) : Comp (Option Echo) :=
  echoReply vuart mem buf log

/-- `vuart1_rx_cb` -/
def vuart1RxCb (vuart : VirtUart) (mem : Mem) (buf : Nat → Byte) (log : TraceLog) : Comp (Option Echo) :=
  echoReply vuart mem buf log

def RxCb.call : RxCb → VirtUart → Mem → (Nat → Byte) → TraceLog → Comp (Option Echo)
  | .vuart0RxCb => V85x.vuart0RxCb
  | .vuart1RxCb => V85x.vuart1RxCb

/-- `virt_uart_read_cb`: the return code, the UART, and what its callback leaves, if it has one. -/
def virtUartReadCb (vuart : VirtUart) (data len : Nat) (mem : Mem) (buf : Nat → Byte) (log : TraceLog) :
    Comp (Int × VirtUart × Option Echo) :=
  let vuart := { vuart with rxBuf := data, rxSize := BitVec.ofNat 16 len }
  match vuart.cb with
  | none => pure (0, vuart, none)
  | some cb => do
    let e ← cb.call vuart mem buf log
    pure (0, vuart, e)

/-! ## What comes out -/

/-- The UART is one of the two that `main` sets up. -/
def VirtUart.Echoes (vuart : VirtUart) : Prop :=
  (vuart.name = vuart0.name ∧ vuart.cb = vuart0.cb) ∨ (vuart.name = vuart1.name ∧ vuart.cb = vuart1.cb)

/-! The plain parts of the reply's format. -/

def replyHead : List Byte := "v85x-riscv: reply to [".toList.map ch
def replyOn : List Byte := "] on ".toList.map ch
def replyEnd : List Byte := "\n".toList.map ch

/-- The reply to the string `s`. -/
def echoText (name s : List Byte) : List Byte := replyHead ++ (s ++ (replyOn ++ (name ++ replyEnd)))

/-- The bytes `payload` lie at `data`. -/
def Delivers (mem : Mem) (data : Nat) (payload : List Byte) : Prop :=
  ∀ i (h : i < payload.length), mem (data + i) = payload[i]

theorem echoes_vuart0 : vuart0.Echoes := .inl ⟨rfl, rfl⟩

theorem VirtUart.Echoes.name {vuart : VirtUart} (h : vuart.Echoes) :
    vuart.name.length = 14 ∧ 0#8 ∉ vuart.name := by
  obtain ⟨h, -⟩ | ⟨h, -⟩ := h <;> rw [h] <;> exact ⟨rfl, by decide⟩

theorem length_echoText {vuart : VirtUart} (h : vuart.Echoes) (s : List Byte) :
    (echoText vuart.name s).length = s.length + 42 := by
  have h₁ : replyHead.length = 22 := rfl
  have h₂ : replyOn.length = 5 := rfl
  have h₃ : replyEnd.length = 1 := rfl
  simp only [echoText, List.length_append, h.name.1, h₁, h₂, h₃]
  omega

theorem notMem_echoText {vuart : VirtUart} (h : vuart.Echoes) {s : List Byte} (hs : 0#8 ∉ s) :
    0#8 ∉ echoText vuart.name s := by
  have h₁ : 0#8 ∉ replyHead := by decide
  have h₂ : 0#8 ∉ replyOn := by decide
  have h₃ : 0#8 ∉ replyEnd := by decide
  simp only [echoText, List.mem_append, not_or]
  exact ⟨h₁, hs, h₂, h.name.2, h₃⟩

/-- The array after the stores of a text from index `k` on. -/
theorem storeAll_zipIdx (l : List Byte) (buf : Nat → Byte) (k i : Nat) :
    storeAll buf (l.zipIdx k) i = if k ≤ i then l.getD (i - k) (buf i) else buf i := by
  induction l generalizing buf k with
  | nil => simp [storeAll]
  | cons c l ih =>
    have hstep : storeAll buf ((c :: l).zipIdx k) =
        storeAll (Function.update buf k c) (l.zipIdx (k + 1)) := by
      simp [storeAll, List.zipIdx_cons]
    rw [hstep, ih]
    rcases Nat.lt_trichotomy i k with hlt | heq | hgt
    · rw [if_neg (by omega), if_neg (by omega), Function.update_of_ne (by omega)]
    · subst heq
      simp
    · obtain ⟨d, rfl⟩ : ∃ d, i = k + 1 + d := ⟨i - (k + 1), by omega⟩
      rw [if_pos (by omega), if_pos (by omega), Function.update_of_ne (by omega)]
      have hd : k + 1 + d - k = d + 1 := by omega
      simp [hd]

/-- A text stored with its NUL is a C string. -/
theorem isCString_storeAll {l : List Byte} (h : 0#8 ∉ l) (buf : Nat → Byte) :
    IsCString (storeAll buf (l ++ [0#8]).zipIdx) l := by
  refine ⟨fun i hi => ?_, ?_, h⟩
  · rw [storeAll_zipIdx]
    simp [List.getElem?_append_left hi, hi]
  · rw [storeAll_zipIdx]
    simp

theorem formats_reply {vuart : VirtUart} (h : vuart.Echoes) {p : Nat → Byte} {s : List Byte}
    (hs : IsCString p s) :
    Formats "v85x-riscv: reply to [%s] on %s\n".toList [.str p, .str (cstr vuart.name)]
      (echoText vuart.name s) := by
  have hend : Formats "\n".toList [] (replyEnd ++ []) := (Formats.nil []).chars "\n".toList (by decide)
  rw [List.append_nil] at hend
  exact Formats.chars (.str hs (Formats.chars (.str (isCString_cstr h.name.2) hend) "] on ".toList
    (by decide))) "v85x-riscv: reply to [".toList (by decide)

theorem formats_receive {vuart : VirtUart} (h : vuart.Echoes) {p : Nat → Byte} {s : List Byte}
    (hs : IsCString p s) :
    ∃ l, Formats "%s receive: [%s]\r\n".toList [.str (cstr vuart.name), .str p] l ∧
      l.length = s.length + 28 := by
  have hend : Formats "]\r\n".toList [] ("]\r\n".toList.map ch ++ []) :=
    (Formats.nil []).chars "]\r\n".toList (by decide)
  refine ⟨_, .str (isCString_cstr h.name.2) (Formats.chars (.str hs hend) " receive: [".toList
    (by decide)), ?_⟩
  have h₁ : (" receive: [".toList.map ch).length = 11 := rfl
  have h₂ : ("]\r\n".toList.map ch).length = 3 := rfl
  rw [List.length_append, List.length_append, List.length_append, List.length_append, h₁, h₂, h.name.1]
  simp
  omega

/-- What the callbacks leave when the string is `s`: the reply's text and a NUL, stored from the first
byte of the array on, and if they fit in it, the text handed to `virt_uart_transmit`. -/
structure Echo.Replies (e : Echo) (vuart : VirtUart) (s : List Byte) : Prop where
  stores : e.stores = (echoText vuart.name s ++ [0#8]).zipIdx
  fits : s.length ≤ 469 → ∃ r, e.reply = some r ∧ r.size = BitVec.ofNat 16 (s.length + 42) ∧
    r.text = echoText vuart.name s
  overruns : 469 < s.length → e.reply = none

/-- Stores one after the other are inside an array of `n` bytes if there are at most `n`. -/
theorem all_zipIdx_lt (l : List Byte) (n : Nat) :
    (l.zipIdx.all fun st => st.2 < n) = decide (l.length ≤ n) := by
  rw [Bool.eq_iff_iff, decide_eq_true_iff, List.all_eq_true]
  constructor
  · intro h
    by_contra hlt
    have hn : n < l.length := Nat.lt_of_not_le hlt
    have := h (l[n], n) (List.mem_zipIdx_iff_getElem?.mpr (List.getElem?_eq_getElem hn))
    simp at this
  · rintro hle ⟨c, i⟩ hmem
    have hlt := List.snd_lt_of_mem_zipIdx hmem
    exact decide_eq_true (by simp only; omega)

/-- The text of a reply whose length is that of its string. -/
theorem Reply.text_eq {r : Reply} {l : List Byte} (hr : IsCString r.data l)
    (hsize : r.size.toNat = l.length) : r.text = l := by
  apply List.ext_getElem
  · rw [Reply.text, List.length_map, List.length_range, hsize]
  · intro i _ hi
    simp only [Reply.text, List.getElem_map, List.getElem_range]
    exact hr.get i hi

theorem echoReply_returns {vuart : VirtUart} (h : vuart.Echoes) {mem : Mem} {s : List Byte}
    (hs : IsCString (fun i => mem (vuart.rxBuf + i)) s) (hlen : s.length < 2 ^ 31) (buf : Nat → Byte)
    (log : TraceLog) :
    ∃ e, (echoReply vuart mem buf log).Returns (some e) ∧ e.Replies vuart s := by
  have hmax : sizeMax = 2 ^ 32 - 1 := rfl
  have h512 : rpmsgBufferSize = 512 := rfl
  have htext := length_echoText h s
  obtain ⟨l, hl, hllen⟩ := formats_receive h hs
  obtain ⟨log', hlog⟩ := debugRiscv_ends hl (by omega) log
  have hsprintf := sprintf_returns_of_formats (formats_reply h hs) (by omega)
  have hall := all_zipIdx_lt (echoText vuart.name s ++ [0#8]) rpmsgBufferSize
  rw [List.length_append, List.length_singleton, htext] at hall
  by_cases hfits : s.length ≤ 469
  · have hstr := isCString_storeAll (notMem_echoText h hs.notMem) buf
    rw [decide_eq_true (by omega)] at hall
    let data := storeAll buf (echoText vuart.name s ++ [0#8]).zipIdx
    refine ⟨⟨_, some ⟨data, BitVec.ofNat 16 (echoText vuart.name s).length⟩, log'⟩,
      Comp.returns_bind.mpr ⟨_, hlog, Comp.returns_bind.mpr ⟨_, hsprintf, ?_⟩⟩, rfl,
      fun _ => ⟨_, rfl, ?_, ?_⟩, fun hlt => by omega⟩
    · simp only [hall, ↓reduceIte]
      exact Comp.returns_bind.mpr ⟨_, strlen_returns hstr, Comp.returns_pure.mpr rfl⟩
    · simp only [htext]
    · refine Reply.text_eq hstr ?_
      simp only [htext, BitVec.toNat_ofNat]
      omega
  · rw [decide_eq_false (by omega)] at hall
    refine ⟨⟨_, none, log'⟩, Comp.returns_bind.mpr ⟨_, hlog, Comp.returns_bind.mpr ⟨_, hsprintf, ?_⟩⟩, rfl,
      fun hle => absurd hle hfits, fun _ => rfl⟩
    simp only [hall, Bool.false_eq_true, ↓reduceIte]
    exact Comp.returns_pure.mpr rfl

/-- A message whose string is `s`. -/
theorem virtUartReadCb_returns {vuart : VirtUart} (h : vuart.Echoes) {data : Nat} (len : Nat) {mem : Mem}
    {s : List Byte} (hs : IsCString (fun i => mem (data + i)) s) (hlen : s.length < 2 ^ 31)
    (buf : Nat → Byte) (log : TraceLog) :
    ∃ v e, (virtUartReadCb vuart data len mem buf log).Returns (0, v, some e) ∧ e.Replies vuart s := by
  have hv : VirtUart.Echoes { vuart with rxBuf := data, rxSize := BitVec.ofNat 16 len } := h
  obtain ⟨e, he, hr⟩ := echoReply_returns hv hs hlen buf log
  refine ⟨{ vuart with rxBuf := data, rxSize := BitVec.ofNat 16 len }, e, ?_, hr.stores, hr.fits, hr.overruns⟩
  obtain ⟨-, hcb⟩ | ⟨-, hcb⟩ := h <;>
  · simp only [virtUartReadCb, hcb]
    exact Comp.returns_bind.mpr ⟨_, he, Comp.returns_pure.mpr rfl⟩

/-- A reply says that its text fitted, and how long it is. -/
theorem Echo.Replies.size_of_reply {e : Echo} {vuart : VirtUart} {s : List Byte} {r : Reply}
    (hrep : e.Replies vuart s) (hr : e.reply = some r) :
    s.length ≤ 469 ∧ r.size = BitVec.ofNat 16 (s.length + 42) := by
  by_cases hle : s.length ≤ 469
  · obtain ⟨r', hr', hsize, -⟩ := hrep.fits hle
    rw [hr] at hr'
    obtain rfl := Option.some.inj hr'
    exact ⟨hle, hsize⟩
  · rw [hrep.overruns (Nat.lt_of_not_le hle)] at hr
    cases hr

theorem Echo.Replies.length_stores {e : Echo} {vuart : VirtUart} {s : List Byte} (hr : e.Replies vuart s)
    (h : vuart.Echoes) : e.stores.length = s.length + 43 := by
  rw [hr.stores, List.length_zipIdx, List.length_append, length_echoText h, List.length_singleton]

/-! ## The array -/

/-- For a message of up to `RPMSG_BUFFER_SIZE - 16` bytes with a NUL behind it, the callback writes at most
`RPMSG_BUFFER_SIZE` bytes into its array if and only if the string has at most 469 characters. -/
theorem echo_fits_iff {vuart : VirtUart} (hv : vuart.Echoes) (mem : Mem) (data : Nat)
    (payload : List Byte) (hn : payload.length ≤ rpmsgBufferSize - 16)
    (hp : Delivers mem data payload) (hnul : mem (data + payload.length) = 0#8) (buf : Nat → Byte)
    (log : TraceLog) :
    ∃ v e, (virtUartReadCb vuart data payload.length mem buf log).Returns (0, v, some e) ∧
      (e.stores.length ≤ rpmsgBufferSize ↔ (beforeNul payload).length ≤ 469) := by
  have hs : IsCString (fun i => mem (data + i)) (beforeNul payload) := isCString_beforeNul hp (.inl hnul)
  have hle := length_beforeNul_le payload
  have h512 : rpmsgBufferSize = 512 := rfl
  obtain ⟨v, e, hret, hr⟩ := virtUartReadCb_returns hv payload.length hs (by omega) buf log
  refine ⟨v, e, hret, ?_⟩
  rw [hr.length_stores hv]
  omega

/-- A short message. -/
theorem echo_fits_hi :
    ∃ v e, (virtUartReadCb vuart0 0 2 (cstr [ch 'h', ch 'i']) (fun _ => 0#8) ⟨0, fun _ => 0#8⟩).Returns
        (0, v, some e) ∧
      e.stores.length ≤ rpmsgBufferSize := by
  have hp : Delivers (cstr [ch 'h', ch 'i']) 0 [ch 'h', ch 'i'] := by
    intro i hi
    rw [Nat.zero_add]
    exact (isCString_cstr (by decide)).get i hi
  obtain ⟨v, e, hret, hfits⟩ := echo_fits_iff echoes_vuart0 (cstr [ch 'h', ch 'i']) 0 [ch 'h', ch 'i']
    (by decide) hp rfl (fun _ => 0#8) ⟨0, fun _ => 0#8⟩
  exact ⟨v, e, hret, hfits.mpr (by decide)⟩

/-- A message of 470 characters and no NUL makes `sprintf_` write past the end of the array. -/
theorem echo_overruns :
    ∃ v e, (virtUartReadCb vuart0 0 470 (cstr (List.replicate 470 (ch 'a'))) (fun _ => 0#8)
        ⟨0, fun _ => 0#8⟩).Returns (0, v, some e) ∧
      ¬ e.stores.length ≤ rpmsgBufferSize := by
  have hlen : (List.replicate 470 (ch 'a')).length = 470 := List.length_replicate
  have h0 : 0#8 ∉ List.replicate 470 (ch 'a') := fun h => absurd (List.eq_of_mem_replicate h) (by decide)
  generalize List.replicate 470 (ch 'a') = payload at hlen h0
  have hs : IsCString (fun i => cstr payload (0 + i)) payload := by
    simpa only [Nat.zero_add] using isCString_cstr h0
  obtain ⟨v, e, hret, hr⟩ := virtUartReadCb_returns echoes_vuart0 470 hs (by omega) (fun _ => 0#8)
    ⟨0, fun _ => 0#8⟩
  refine ⟨v, e, hret, ?_⟩
  rw [hr.length_stores echoes_vuart0, hlen]
  decide

/-! ## Two runs -/

/-- In every memory that holds the message, whatever lies behind it, the callback hands the same text and
the same length to `virt_uart_transmit`, and a message without a NUL stands in full between the
brackets. -/
def DependsOnMessageOnly (vuart : VirtUart) (data : Nat) (payload : List Byte) : Prop :=
  ∀ (mem₁ mem₂ : Mem) (buf₁ buf₂ : Nat → Byte) (log₁ log₂ : TraceLog),
    Delivers mem₁ data payload → Delivers mem₂ data payload →
    ∃ v₁ e₁ r₁ v₂ e₂ r₂,
      (virtUartReadCb vuart data payload.length mem₁ buf₁ log₁).Returns (0, v₁, some e₁) ∧
      (virtUartReadCb vuart data payload.length mem₂ buf₂ log₂).Returns (0, v₂, some e₂) ∧
      e₁.reply = some r₁ ∧ e₂.reply = some r₂ ∧ r₁.text = r₂.text ∧ r₁.size = r₂.size ∧
      (0#8 ∉ payload → r₁.text = echoText vuart.name payload)

/-- A memory that holds the string `l` at `data`. -/
def memWith (data : Nat) (l : List Byte) : Mem := fun x => cstr l (x - data)

theorem isCString_memWith {l : List Byte} (h : 0#8 ∉ l) (data : Nat) :
    IsCString (fun i => memWith data l (data + i)) l := by
  simpa [memWith] using isCString_cstr h

theorem delivers_memWith {payload : List Byte} (rest : List Byte) (h : 0#8 ∉ payload ++ rest) (data : Nat) :
    Delivers (memWith data (payload ++ rest)) data payload := by
  intro i hi
  rw [(isCString_memWith h data).get i (by simp; omega), List.getElem_append_left hi]

/-- A message without a NUL: the reply tells a memory with a NUL behind the message from one with another
character there, if there is a reply. -/
theorem not_dependsOnMessageOnly {vuart : VirtUart} (hv : vuart.Echoes) (data : Nat) {payload : List Byte}
    (hn : payload.length < 2 ^ 16) (h0 : 0#8 ∉ payload) : ¬ DependsOnMessageOnly vuart data payload := by
  intro h
  have hnul : 0#8 ∉ payload ++ [] := by simpa using h0
  have hx : 0#8 ∉ payload ++ [ch 'X'] := by
    simp only [List.mem_append, List.mem_singleton, not_or]
    exact ⟨h0, by decide⟩
  let buf : Nat → Byte := fun _ => 0#8
  let log : TraceLog := ⟨0, fun _ => 0#8⟩
  obtain ⟨v₁, e₁, r₁, v₂, e₂, r₂, hret₁, hret₂, hr₁, hr₂, -, hsize, -⟩ := h (memWith data (payload ++ []))
    (memWith data (payload ++ [ch 'X'])) buf buf log log (delivers_memWith _ hnul data)
    (delivers_memWith _ hx data)
  obtain ⟨v₁', e₁', hret₁', hrep₁⟩ := virtUartReadCb_returns hv payload.length
    (isCString_memWith hnul data) (by simp; omega) buf log
  obtain ⟨v₂', e₂', hret₂', hrep₂⟩ := virtUartReadCb_returns hv payload.length
    (isCString_memWith hx data) (by simp; omega) buf log
  cases hret₁.unique hret₁'
  cases hret₂.unique hret₂'
  obtain ⟨hle₁, hsize₁⟩ := hrep₁.size_of_reply hr₁
  obtain ⟨hle₂, hsize₂⟩ := hrep₂.size_of_reply hr₂
  rw [hsize₁, hsize₂] at hsize
  have := congrArg BitVec.toNat hsize
  simp only [List.append_nil, List.length_append, List.length_singleton, BitVec.toNat_ofNat] at this hle₁ hle₂
  omega

/-- A message with a NUL: the string is in the message, whatever lies behind it. -/
theorem dependsOnMessageOnly_iff_of_mem {vuart : VirtUart} (hv : vuart.Echoes) (data : Nat)
    {payload : List Byte} (hn : payload.length < 2 ^ 16) (h0 : 0#8 ∈ payload) :
    DependsOnMessageOnly vuart data payload ↔ (beforeNul payload).length ≤ 469 := by
  have hle := length_beforeNul_le payload
  have hret : ∀ (mem : Mem) (buf : Nat → Byte) (log : TraceLog), Delivers mem data payload →
      ∃ v e, (virtUartReadCb vuart data payload.length mem buf log).Returns (0, v, some e) ∧
        e.Replies vuart (beforeNul payload) := fun mem buf log hp =>
    virtUartReadCb_returns hv payload.length (isCString_beforeNul hp (.inr h0)) (by omega) buf log
  constructor
  · intro h
    have hp : Delivers (fun x => payload.getD (x - data) 0#8) data payload := fun i hi => by simp [hi]
    let buf : Nat → Byte := fun _ => 0#8
    let log : TraceLog := ⟨0, fun _ => 0#8⟩
    obtain ⟨v, e, r, -, -, -, hret₁, -, hr, -⟩ := h _ _ buf buf log log hp hp
    obtain ⟨v', e', hret₁', hrep⟩ := hret _ buf log hp
    cases hret₁.unique hret₁'
    exact (hrep.size_of_reply hr).1
  · intro h469 mem₁ mem₂ buf₁ buf₂ log₁ log₂ h₁ h₂
    obtain ⟨v₁, e₁, hret₁, hrep₁⟩ := hret mem₁ buf₁ log₁ h₁
    obtain ⟨v₂, e₂, hret₂, hrep₂⟩ := hret mem₂ buf₂ log₂ h₂
    obtain ⟨r₁, hr₁, hsize₁, htext₁⟩ := hrep₁.fits h469
    obtain ⟨r₂, hr₂, hsize₂, htext₂⟩ := hrep₂.fits h469
    exact ⟨v₁, e₁, r₁, v₂, e₂, r₂, hret₁, hret₂, hr₁, hr₂, htext₁.trans htext₂.symm,
      hsize₁.trans hsize₂.symm, fun h => absurd h0 h⟩

/-- The reply depends on the message alone if and only if the message itself has a NUL, and before it no more
characters than a reply has room for. -/
theorem echo_depends_only_iff {vuart : VirtUart} (hv : vuart.Echoes) (data : Nat) (payload : List Byte)
    (hn : payload.length < 2 ^ 16) :
    DependsOnMessageOnly vuart data payload ↔ 0#8 ∈ payload ∧ (beforeNul payload).length ≤ 469 := by
  by_cases h0 : 0#8 ∈ payload
  · rw [dependsOnMessageOnly_iff_of_mem hv data hn h0]
    exact (and_iff_right h0).symm
  · exact iff_of_false (not_dependsOnMessageOnly hv data hn h0) fun h => h0 h.1

theorem echo_depends_only_hi : DependsOnMessageOnly vuart0 0 [ch 'h', ch 'i', 0#8] :=
  (echo_depends_only_iff echoes_vuart0 0 [ch 'h', ch 'i', 0#8] (by decide)).mpr (by decide)

/-- The message `a`: what an earlier message left behind it shows in the reply. -/
theorem echo_leaks : ¬ DependsOnMessageOnly vuart0 0 [ch 'a'] :=
  not_dependsOnMessageOnly echoes_vuart0 0 (by decide) (by decide)

end V85x
