import V85xAmp.Lib.CString

/-!
# Formatted output (`utils/printf.c`)

`vsnprintf` is `_vsnprintf`: it walks the format and passes each character, with its index, to an output
function `out` that works on some state (`outBuffer` stores it, `_out_null` drops it). Integers are
natural numbers with the width of their C type, and `long` has 32 bits. The result is `none` where C
leaves the behaviour open (an argument that is missing or of another kind, a format that ends inside
a conversion), and for the floating-point conversions, which are not modelled.

`vsnprintf_returns_of_formats` is what the callers need: a format of plain characters and bare `%s`
writes the characters and the strings in order, at consecutive indices, and then a NUL.
-/

namespace V85x

open Firmware

/-! ## The source -/

/-- The character code. -/
def ch (c : Char) : Byte := BitVec.ofNat 8 c.toNat

/-- A variable argument: `int`, `long` and pointers have 32 bits, `long long` has 64, and a `char *` is
what it points to. -/
inductive VaArg
  | int (v : BitVec 32)
  | longLong (v : BitVec 64)
  | str (p : Nat → Byte)

/-- The `FLAGS_` bits. -/
structure Flags where
  zeropad : Bool := false
  left : Bool := false
  plus : Bool := false
  space : Bool := false
  hash : Bool := false
  uppercase : Bool := false
  char : Bool := false
  short : Bool := false
  long : Bool := false
  longLong : Bool := false
  precision : Bool := false
deriving Repr, DecidableEq

/-- `PRINTF_NTOA_BUFFER_SIZE` -/
def ntoaBufferSize : Nat := 32

/-- `(size_t)-1` -/
def sizeMax : Nat := 2 ^ 32 - 1

section Out

variable {σ : Type} (out : Byte → Nat → Nat → σ → σ)

/-- `out` for each character, at the indices from `idx` on: the index after them and the state. -/
def outAll (maxlen : Nat) : List Byte → Nat × σ → Nat × σ
  | [], s => s
  | c :: l, (idx, b) => outAll maxlen l (idx + 1, out c idx maxlen b)

/-- The padding loops: blanks from `l` up to `width`. -/
def outPad (maxlen l width : Nat) : Nat × σ → Nat × σ :=
  outAll out maxlen (List.replicate (width - l) (ch ' '))

/-- `_out_rev`: `buf` in reverse. -/
def outRev (maxlen : Nat) (buf : List Byte) (width : Nat) (fl : Flags) (s : Nat × σ) : Nat × σ :=
  let s₁ := if !fl.left && !fl.zeropad then outPad out maxlen buf.length width s else s
  let s₂ := outAll out maxlen buf.reverse s₁
  if fl.left then outPad out maxlen (s₂.1 - s.1) width s₂ else s₂

/-- `_ntoa_format`. A character is added only while the buffer has room. -/
def ntoaFormat (maxlen : Nat) (buf : List Byte) (negative : Bool) (base prec width : Nat) (fl : Flags)
    (s : Nat × σ) : Nat × σ :=
  let add (c : Char) (buf : List Byte) := if buf.length < ntoaBufferSize then buf ++ [ch c] else buf
  let zeros (n : Nat) (buf : List Byte) :=
    buf ++ List.replicate (min n ntoaBufferSize - buf.length) (ch '0')
  let (buf, width) :=
    if fl.left then (buf, width)
    else
      let width :=
        if width ≠ 0 ∧ fl.zeropad ∧ (negative ∨ fl.plus ∨ fl.space) then width - 1 else width
      let buf := zeros prec buf
      (if fl.zeropad then zeros width buf else buf, width)
  let buf :=
    if fl.hash then
      let buf :=
        if !fl.precision && buf.length ≠ 0 && (buf.length = prec ∨ buf.length = width) then
          let buf := buf.dropLast
          if buf.length ≠ 0 ∧ base = 16 then buf.dropLast else buf
        else buf
      let buf :=
        if base = 16 then add (if fl.uppercase then 'X' else 'x') buf
        else if base = 2 then add 'b' buf
        else buf
      add '0' buf
    else buf
  let buf :=
    if negative then add '-' buf
    else if fl.plus then add '+' buf
    else if fl.space then add ' ' buf
    else buf
  outRev out maxlen buf width fl s

/-- The digits of `_ntoa_long`, lowest first, at most `n` of them. -/
def ntoaDigits (base : Nat) (upper : Bool) : Nat → Nat → List Byte
  | 0, _ => []
  | n + 1, value =>
    let digit := value % base
    let c := if digit < 10 then ch '0' + BitVec.ofNat 8 digit
      else (if upper then ch 'A' else ch 'a') + BitVec.ofNat 8 digit - 10#8
    c :: if value / base = 0 then [] else ntoaDigits base upper n (value / base)

/-- `_ntoa_long` and `_ntoa_long_long`, which differ in the width of `value` only. -/
def ntoa (maxlen value : Nat) (negative : Bool) (base prec width : Nat) (fl : Flags) (s : Nat × σ) :
    Nat × σ :=
  let fl := if value = 0 then { fl with hash := false } else fl
  let buf := if !fl.precision ∨ value ≠ 0 then ntoaDigits base fl.uppercase ntoaBufferSize value else []
  ntoaFormat out maxlen buf negative base prec width fl s

end Out

/-! ## Conversions -/

/-- `_is_digit` -/
def isDigit (c : Char) : Bool := '0' ≤ c && c ≤ '9'

/-- `_atoi` -/
def atoi (i : Nat) : List Char → Nat × List Char
  | [] => (i, [])
  | c :: fmt => if isDigit c then atoi ((i * 10 + (c.toNat - '0'.toNat)) % 2 ^ 32) fmt else (i, c :: fmt)

/-- "Evaluate flags" -/
def evalFlags (fl : Flags) : List Char → Flags × List Char
  | '0' :: fmt => evalFlags { fl with zeropad := true } fmt
  | '-' :: fmt => evalFlags { fl with left := true } fmt
  | '+' :: fmt => evalFlags { fl with plus := true } fmt
  | ' ' :: fmt => evalFlags { fl with space := true } fmt
  | '#' :: fmt => evalFlags { fl with hash := true } fmt
  | fmt => (fl, fmt)

/-- A conversion between its `%` and its specifier, with what is left of the format and of the
arguments. -/
structure Conv where
  flags : Flags
  width : Nat
  precision : Nat
  fmt : List Char
  va : List VaArg

/-- "Evaluate width field" -/
def evalWidth (fl : Flags) (fmt : List Char) (va : List VaArg) : Option Conv :=
  match fmt, va with
  | '*' :: fmt, .int w :: va =>
    if w.toInt < 0 then some ⟨{ fl with left := true }, (-w).toNat, 0, fmt, va⟩
    else some ⟨fl, w.toNat, 0, fmt, va⟩
  | '*' :: _, _ => none
  | c :: fmt, va =>
    if isDigit c then
      let (width, fmt) := atoi 0 (c :: fmt)
      some ⟨fl, width, 0, fmt, va⟩
    else some ⟨fl, 0, 0, c :: fmt, va⟩
  | [], va => some ⟨fl, 0, 0, [], va⟩

/-- "Evaluate precision field" -/
def evalPrecision (c : Conv) : Option Conv :=
  match c.fmt with
  | '.' :: fmt =>
    let c := { c with flags.precision := true, fmt }
    match fmt, c.va with
    | '*' :: fmt, .int p :: va =>
      some { c with precision := if 0 < p.toInt then p.toNat else 0, fmt, va }
    | '*' :: _, _ => none
    | d :: fmt', _ =>
      if isDigit d then
        let (precision, fmt) := atoi 0 (d :: fmt')
        some { c with precision, fmt }
      else some c
    | [], _ => some c
  | _ => some c

/-- "Evaluate length field" -/
def evalLength (c : Conv) : Conv :=
  match c.fmt with
  | 'l' :: 'l' :: fmt => { c with flags.long := true, flags.longLong := true, fmt }
  | 'l' :: fmt => { c with flags.long := true, fmt }
  | 'h' :: 'h' :: fmt => { c with flags.short := true, flags.char := true, fmt }
  | 'h' :: fmt => { c with flags.short := true, fmt }
  | 't' :: fmt => { c with flags.long := true, fmt }
  | 'j' :: fmt => { c with flags.longLong := true, fmt }
  | 'z' :: fmt => { c with flags.long := true, fmt }
  | _ => c

/-- `_strnlen_s`: the test reads the character first. -/
def strnlenS (p : Nat → Byte) (maxsize : Nat) : Comp Nat :=
  Comp.loop (fun s => pure (if p s ≠ 0#8 ∧ s < maxsize then .inl (s + 1) else .inr s)) 0

section Printf

variable {σ : Type} (out : Byte → Nat → Nat → σ → σ) (maxlen : Nat)

/-- The output loop of `%s`: `i` characters are out. -/
def outStr (fl : Flags) (precision : Nat) (p : Nat → Byte) (s : Nat × σ) : Comp (Nat × σ) :=
  Comp.loop (fun (i, s) => pure (
    if p i ≠ 0#8 ∧ (!fl.precision ∨ i < precision) then .inl (i + 1, outAll out maxlen [p i] s)
    else .inr s)) (0, s)

/-- `case 's'` -/
def convStr (fl : Flags) (width precision : Nat) (p : Nat → Byte) (s : Nat × σ) : Comp (Nat × σ) := do
  let l ← strnlenS p (if precision ≠ 0 then precision else sizeMax)
  let l := if fl.precision then min l precision else l
  let s := if fl.left then s else outPad out maxlen l width s
  let s ← outStr out maxlen fl precision p s
  pure (if fl.left then outPad out maxlen l width s else s)

/-- The integer conversions: the value and its sign. -/
def intValue (spec : Char) (fl : Flags) : VaArg → Option (Nat × Bool)
  | .int v =>
    if fl.longLong then none
    else
      let v :=
        if fl.long then v
        else if fl.char then
          -- `char` is unsigned on this target
          BitVec.setWidth 32 (BitVec.setWidth 8 v)
        else if fl.short then
          if spec = 'd' ∨ spec = 'i' then BitVec.signExtend 32 (BitVec.setWidth 16 v)
          else BitVec.setWidth 32 (BitVec.setWidth 16 v)
        else v
      if spec = 'd' ∨ spec = 'i' then
        some (if 0 < v.toInt then v.toNat else (0#32 - v).toNat, v.toInt < 0)
      else some (v.toNat, false)
  | .longLong v =>
    if !fl.longLong then none
    else if spec = 'd' ∨ spec = 'i' then
      some (if 0 < v.toInt then v.toNat else (0#64 - v).toNat, v.toInt < 0)
    else some (v.toNat, false)
  | .str _ => none

/-- The cases `'d'`, `'i'`, `'u'`, `'x'`, `'X'`, `'o'` and `'b'` -/
def convInt (spec : Char) (c : Conv) (arg : VaArg) (s : Nat × σ) : Option (Nat × σ) := do
  let base := if spec = 'x' ∨ spec = 'X' then 16 else if spec = 'o' then 8 else if spec = 'b' then 2 else 10
  let fl := c.flags
  let fl := if base = 10 then { fl with hash := false } else fl
  let fl := if spec = 'X' then { fl with uppercase := true } else fl
  let fl := if spec ≠ 'i' ∧ spec ≠ 'd' then { fl with plus := false, space := false } else fl
  let fl := if fl.precision then { fl with zeropad := false } else fl
  let (value, negative) ← intValue spec fl arg
  some (ntoa out maxlen value negative base c.precision c.width fl s)

/-- A conversion, from its specifier on: what is left of the format and of the arguments. -/
def convert (c : Conv) (s : Nat × σ) : Comp (Option (List Char × List VaArg × Nat × σ)) :=
  match c.fmt, c.va with
  | [], _ => pure none
  | spec :: fmt, va =>
    if spec ∈ ['d', 'i', 'u', 'x', 'X', 'o', 'b'] then
      match va with
      | arg :: va => pure ((convInt out maxlen spec c arg s).map fun s => (fmt, va, s))
      | [] => pure none
    else if spec ∈ ['f', 'F', 'e', 'E', 'g', 'G'] then pure none
    else if spec = 'c' then
      match va with
      | .int v :: va =>
        let s := if c.flags.left then s else outPad out maxlen 1 c.width s
        let s := outAll out maxlen [BitVec.setWidth 8 v] s
        let s := if c.flags.left then outPad out maxlen 1 c.width s else s
        pure (some (fmt, va, s))
      | _ => pure none
    else if spec = 's' then
      match va with
      | .str p :: va => do
        let s ← convStr out maxlen c.flags c.width c.precision p s
        pure (some (fmt, va, s))
      | _ => pure none
    else if spec = 'p' then
      match va with
      | .int v :: va =>
        let fl := { c.flags with zeropad := true, uppercase := true }
        pure (some (fmt, va, ntoa out maxlen v.toNat false 16 c.precision 8 fl s))
      | _ => pure none
    else pure (some (fmt, va, outAll out maxlen [ch spec] s))

/-- The body of the `while (*format)` loop of `_vsnprintf`. -/
def formatStep : List Char × List VaArg × Nat × σ →
    Comp ((List Char × List VaArg × Nat × σ) ⊕ Option (Nat × σ))
  | ([], _, s) => pure (.inr (some s))
  | (c :: fmt, va, s) =>
    if c ≠ '%' then pure (.inl (fmt, va, outAll out maxlen [ch c] s))
    else
      let (fl, fmt) := evalFlags {} fmt
      match evalWidth fl fmt va >>= evalPrecision with
      | none => pure (.inr none)
      | some c => do
        let r ← convert out maxlen (evalLength c) s
        pure (match r with
          | none => .inr none
          | some st => .inl st)

/-- `_vsnprintf`: the returned length and the state behind `buffer`. -/
def vsnprintf (fmt : List Char) (va : List VaArg) (b : σ) : Comp (Option (Nat × σ)) := do
  let r ← Comp.loop (formatStep out maxlen) (fmt, va, 0, b)
  pure (r.map fun (idx, b) =>
    (idx, out 0#8 (if idx < maxlen then idx else (maxlen + sizeMax) % 2 ^ 32) maxlen b))

end Printf

/-- The stores into a buffer, first one first: the character and its index. -/
abbrev Stores := List (Byte × Nat)

/-- `_out_buffer` -/
def outBuffer (c : Byte) (idx maxlen : Nat) (b : Stores) : Stores :=
  if idx < maxlen then b ++ [(c, idx)] else b

/-- `sprintf_`: the returned length and the stores into `buffer`. -/
def sprintf (fmt : List Char) (va : List VaArg) : Comp (Option (Nat × Stores)) :=
  vsnprintf outBuffer sizeMax fmt va []

/-! ## Formats of plain characters and strings -/

/-- The format, with these arguments, stands for the text: it has plain characters and bare `%s` only. -/
inductive Formats : List Char → List VaArg → List Byte → Prop
  | nil (va : List VaArg) : Formats [] va []
  | char {c : Char} {fmt : List Char} {va : List VaArg} {l : List Byte} :
      c ≠ '%' → Formats fmt va l → Formats (c :: fmt) va (ch c :: l)
  | str {p : Nat → Byte} {s : List Byte} {fmt : List Char} {va : List VaArg} {l : List Byte} :
      IsCString p s → Formats fmt va l → Formats ('%' :: 's' :: fmt) (.str p :: va) (s ++ l)

theorem Formats.chars {fmt : List Char} {va : List VaArg} {l : List Byte} (h : Formats fmt va l)
    (cs : List Char) (hcs : '%' ∉ cs) : Formats (cs ++ fmt) va (cs.map ch ++ l) := by
  induction cs with
  | nil => exact h
  | cons c cs ih =>
    simp only [List.mem_cons, not_or] at hcs
    exact .char (Ne.symm hcs.1) (ih hcs.2)

section Lemmas

variable {σ : Type} {out : Byte → Nat → Nat → σ → σ} {maxlen : Nat}

theorem outAll_append (l₁ l₂ : List Byte) (s : Nat × σ) :
    outAll out maxlen (l₁ ++ l₂) s = outAll out maxlen l₂ (outAll out maxlen l₁ s) := by
  induction l₁ generalizing s with
  | nil => rfl
  | cons c l₁ ih => exact ih _

theorem outAll_fst (l : List Byte) (s : Nat × σ) : (outAll out maxlen l s).1 = s.1 + l.length := by
  induction l generalizing s with
  | nil => rfl
  | cons c l ih =>
    rw [outAll, ih, List.length_cons]
    omega

/-- The characters of a string go out in order. -/
theorem outStr_returns {p : Nat → Byte} {l : List Byte} (h : IsCString p l) (fl : Flags)
    (hfl : fl.precision = false) (precision : Nat) (s : Nat × σ) :
    (outStr out maxlen fl precision p s).Returns (outAll out maxlen l s) := by
  have hend : (outStr out maxlen fl precision p s).Ends (· = outAll out maxlen l s) := by
    refine Comp.loop_ends
      (fun i st => st = (i, outAll out maxlen (l.take i) s) ∧ i ≤ l.length) (l.length - ·) ?_
      0 (0, s) ⟨rfl, Nat.zero_le _⟩
    rintro i _ ⟨rfl, hi⟩
    rw [Comp.ends_pure]
    by_cases hlt : i < l.length
    · rw [if_pos ⟨h.ne_nul hlt, .inl (by simp [hfl])⟩]
      refine ⟨i + 1, by omega, ?_, hlt⟩
      rw [h.get i hlt, ← outAll_append, List.take_append_getElem hlt]
    · obtain rfl : i = l.length := by omega
      rw [if_neg (by simp [h.nul]), List.take_length]
  obtain ⟨r, hr, rfl⟩ := hend
  exact hr

theorem strnlenS_ends {p : Nat → Byte} {l : List Byte} (h : IsCString p l) (maxsize : Nat) :
    (strnlenS p maxsize).Ends fun _ => True := by
  refine Comp.loop_ends (fun g s => s = g ∧ g ≤ l.length) (l.length - ·) ?_ 0 0 ⟨rfl, Nat.zero_le _⟩
  rintro g s ⟨rfl, hs⟩
  rw [Comp.ends_pure]
  by_cases hlt : s < l.length
  · split
    · next hmore =>
      split at hmore
      · cases hmore
        exact ⟨s + 1, by omega, rfl, hlt⟩
      · cases hmore
    · trivial
  · obtain rfl : s = l.length := by omega
    rw [if_neg (by simp [h.nul])]
    trivial

/-- A bare `%s`. -/
theorem convStr_returns {p : Nat → Byte} {l : List Byte} (h : IsCString p l) (s : Nat × σ) :
    (convStr out maxlen {} 0 0 p s).Returns (outAll out maxlen l s) := by
  obtain ⟨n, hn, -⟩ := strnlenS_ends h sizeMax
  refine Comp.returns_bind.mpr ⟨n, hn, Comp.returns_bind.mpr ⟨outAll out maxlen l s, ?_, ?_⟩⟩
  · have hpad : outPad out maxlen n 0 s = s := by simp [outPad, outAll]
    simpa [hpad] using outStr_returns h {} rfl 0 s
  · simp

/-- The loop of `_vsnprintf` puts out the text of the format. -/
theorem formatLoop_returns {fmt : List Char} {va : List VaArg} {l : List Byte} (h : Formats fmt va l)
    (s : Nat × σ) :
    (Comp.loop (formatStep out maxlen) (fmt, va, s)).Returns (some (outAll out maxlen l s)) := by
  induction h generalizing s with
  | nil va => exact Comp.returns_loop.mpr ⟨.inr (some s), by simp [formatStep], rfl⟩
  | @char c fmt va l hc _ ih =>
    exact Comp.returns_loop.mpr ⟨.inl (fmt, va, outAll out maxlen [ch c] s), by simp [formatStep, hc], ih _⟩
  | @str p str fmt va l hp _ ih =>
    refine Comp.returns_loop.mpr ⟨.inl (fmt, va, outAll out maxlen str s), ?_, ?_⟩
    · have hconv : (convert out maxlen ⟨{}, 0, 0, 's' :: fmt, .str p :: va⟩ s).Returns
          (some (fmt, va, outAll out maxlen str s)) :=
        Comp.returns_bind.mpr ⟨_, convStr_returns hp s, Comp.returns_pure.mpr rfl⟩
      exact Comp.returns_bind.mpr ⟨_, hconv, Comp.returns_pure.mpr rfl⟩
    · rw [outAll_append]
      exact ih _

/-- `_vsnprintf` on such a format: its text, then a NUL. -/
theorem vsnprintf_returns_of_formats (out : Byte → Nat → Nat → σ → σ) {fmt : List Char} {va : List VaArg}
    {l : List Byte}
    (h : Formats fmt va l) (b : σ) (hlen : l.length < maxlen) :
    (vsnprintf out maxlen fmt va b).Returns
      (some (l.length, (outAll out maxlen (l ++ [0#8]) (0, b)).2)) := by
  refine Comp.returns_bind.mpr ⟨_, formatLoop_returns h (0, b), Comp.returns_pure.mpr ?_⟩
  have hidx : (outAll out maxlen l (0, b)).1 = l.length := by rw [outAll_fst, Nat.zero_add]
  rw [outAll_append]
  simp only [Option.map_some, hidx, if_pos hlen, outAll]

/-- Characters that go out below the limit are all stored. -/
theorem outAll_outBuffer (maxlen : Nat) (l : List Byte) (idx : Nat) (b : Stores)
    (hlen : idx + l.length ≤ maxlen) :
    outAll outBuffer maxlen l (idx, b) = (idx + l.length, b ++ l.zipIdx idx) := by
  induction l generalizing idx b with
  | nil => simp [outAll]
  | cons c l ih =>
    simp only [List.length_cons] at hlen
    rw [outAll, ih (idx + 1) _ (by omega), outBuffer, if_pos (by omega)]
    simp [List.zipIdx_cons]
    omega

end Lemmas

/-- `sprintf_` on such a format stores its text and a NUL, one byte behind the other. -/
theorem sprintf_returns_of_formats {fmt : List Char} {va : List VaArg} {l : List Byte}
    (h : Formats fmt va l) (hlen : l.length < sizeMax) :
    (sprintf fmt va).Returns (some (l.length, (l ++ [0#8]).zipIdx)) := by
  have hstores := outAll_outBuffer sizeMax (l ++ [0#8]) 0 [] (by simp; omega)
  have hret := vsnprintf_returns_of_formats outBuffer h [] hlen
  rw [hstores] at hret
  simpa [sprintf] using hret

end V85x
