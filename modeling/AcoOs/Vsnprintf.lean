/-
`vsnprintf.c`.

A conversion puts its characters out one by one with `out(c, buffer, idx++, maxlen)`; `out` and the
type of `buffer` are parameters, as in the source.  A format is the list of its characters up to the
NUL, and a pointer into it the list of those that are left: where the code would read behind the NUL
the result is `none`, as it is where `va_arg` asks for an argument of another type.  The text of a
`double` is a parameter.

The results about it are in `VsnprintfText` and `VsnprintfNumbers`.
-/
import AcoOs.Printf

namespace AcoOs.Vsnprintf

/-- A character of the source. -/
def ch (c : Char) : BitVec 8 := BitVec.ofNat 8 c.toNat

/-- The flags of a conversion; `ADAPT_EXP` is for `double` only. -/
structure Flags where
  zeropad : Bool := false
  left : Bool := false
  plus : Bool := false
  space : Bool := false
  hash : Bool := false
  uppercase : Bool := false
  char : Bool := false
  short : Bool := false
  long : Bool := false
  longLong : Bool := false
  precision : Bool := false
  deriving DecidableEq, Repr

/-- `PRINTF_NTOA_BUFFER_SIZE`. -/
def ntoaBufferSize : ℕ := 32

/-- What a caller passes behind the format. -/
inductive VaArg
  | int (v : BitVec 32)
  | long (v : BitVec 64)
  | pointer (v : BitVec 64)
  | string (s : List (BitVec 8))
  | double (v : BitVec 64)
  deriving DecidableEq, Repr

/-- `va_arg(va, int)` and `va_arg(va, unsigned int)`. -/
def vaInt : List VaArg → Option (BitVec 32 × List VaArg)
  | .int v :: va => some (v, va)
  | _ => none

/-- `va_arg(va, long)` and the other types of 64 bits. -/
def vaLong : List VaArg → Option (BitVec 64 × List VaArg)
  | .long v :: va => some (v, va)
  | _ => none

/-! ### Output -/

/-- `_out_buffer`. -/
def outBuffer (character : BitVec 8) (buffer : ℕ → BitVec 8) (idx maxlen : ℕ) : ℕ → BitVec 8 :=
  if idx < maxlen then Function.update buffer idx character else buffer

/-- `_out_null`. -/
def outNull {σ : Type} (_character : BitVec 8) (buffer : σ) (_idx _maxlen : ℕ) : σ := buffer

section Output

variable {σ : Type} (out : BitVec 8 → σ → ℕ → ℕ → σ) (maxlen : ℕ)

/-- `out(c, buffer, idx++, maxlen)`. -/
def put (p : σ × ℕ) (c : BitVec 8) : σ × ℕ := (out c p.1 p.2 maxlen, p.2 + 1)

/-- Several characters. -/
def puts (s : List (BitVec 8)) (p : σ × ℕ) : σ × ℕ := s.foldl (put out maxlen) p

/-- A loop of `n` rounds that puts out a space. -/
def putSpaces : ℕ → σ × ℕ → σ × ℕ
  | 0, p => p
  | n + 1, p => putSpaces n (put out maxlen p (ch ' '))

/-- `_strnlen_s`. -/
def strnlenS : List (BitVec 8) → ℕ → ℕ
  | [], _ => 0
  | _ :: _, 0 => 0
  | _ :: s, n + 1 => strnlenS s n + 1

/-- `_out_rev`; `buf` has `len` characters. -/
def outRev (buf : List (BitVec 8)) (width : ℕ) (flags : Flags) (p : σ × ℕ) : σ × ℕ :=
  let startIdx := p.2
  let p := if !flags.left && !flags.zeropad then putSpaces out maxlen (width - buf.length) p else p
  let p := puts out maxlen buf.reverse p
  if flags.left then putSpaces out maxlen (width - (p.2 - startIdx)) p else p

/-- `while ((len < n) && (len < PRINTF_NTOA_BUFFER_SIZE)) buf[len++] = '0';` -/
def padZeros (n : ℕ) (buf : List (BitVec 8)) : List (BitVec 8) :=
  buf ++ List.replicate (min n ntoaBufferSize - buf.length) (ch '0')

/-- `if (len < PRINTF_NTOA_BUFFER_SIZE) buf[len++] = c;` -/
def append (c : BitVec 8) (buf : List (BitVec 8)) : List (BitVec 8) :=
  if buf.length < ntoaBufferSize then buf ++ [c] else buf

/-- The zeros of `_ntoa_format`, and the width that is left to the spaces. -/
def leadingZeros (buf : List (BitVec 8)) (negative : Bool) (prec width : ℕ) (flags : Flags) :
    List (BitVec 8) × ℕ :=
  if !flags.left then
    let width := if width ≠ 0 ∧ flags.zeropad ∧ (negative || flags.plus || flags.space)
      then width - 1 else width
    let buf := padZeros prec buf
    (if flags.zeropad then padZeros width buf else buf, width)
  else (buf, width)

/-- What is taken back from a number that is as long as its field, to make room for the prefix. -/
def dropForHash (buf : List (BitVec 8)) (base prec width : ℕ) (flags : Flags) : List (BitVec 8) :=
  if !flags.precision ∧ buf.length ≠ 0 ∧ (buf.length = prec ∨ buf.length = width) then
    let buf := buf.dropLast
    if buf.length ≠ 0 ∧ base = 16 then buf.dropLast else buf
  else buf

/-- The letter of the prefix. -/
def hashLetter (buf : List (BitVec 8)) (base : ℕ) (flags : Flags) : List (BitVec 8) :=
  if base = 16 ∧ !flags.uppercase ∧ buf.length < ntoaBufferSize then buf ++ [ch 'x']
  else if base = 16 ∧ flags.uppercase ∧ buf.length < ntoaBufferSize then buf ++ [ch 'X']
  else if base = 2 ∧ buf.length < ntoaBufferSize then buf ++ [ch 'b']
  else buf

/-- The prefix for `#`. -/
def handleHash (buf : List (BitVec 8)) (base prec width : ℕ) (flags : Flags) : List (BitVec 8) :=
  if flags.hash then
    let buf := dropForHash buf base prec width flags
    let buf := hashLetter buf base flags
    append (ch '0') buf
  else buf

/-- The sign. -/
def handleSign (buf : List (BitVec 8)) (negative : Bool) (flags : Flags) : List (BitVec 8) :=
  if negative then append (ch '-') buf
  else if flags.plus then append (ch '+') buf
  else if flags.space then append (ch ' ') buf
  else buf

/-- `_ntoa_format`. -/
def ntoaFormat (buf : List (BitVec 8)) (negative : Bool) (base prec width : ℕ) (flags : Flags)
    (p : σ × ℕ) : σ × ℕ :=
  let (buf, width) := leadingZeros buf negative prec width flags
  let buf := handleHash buf base prec width flags
  let buf := handleSign buf negative flags
  outRev out maxlen buf width flags p

/-- A digit. -/
def digit (d : ℕ) (flags : Flags) : BitVec 8 :=
  if d < 10 then ch '0' + BitVec.ofNat 8 d
  else (if flags.uppercase then ch 'A' else ch 'a') + BitVec.ofNat 8 d - 10

/-- The digits of a value, the last one first; `n` is the room in the buffer. -/
def ntoaDigits (base : ℕ) (flags : Flags) : ℕ → ℕ → List (BitVec 8)
  | 0, _ => []
  | n + 1, value =>
    digit (value % base) flags ::
      if value / base ≠ 0 then ntoaDigits base flags n (value / base) else []

/-- `_ntoa_long`. -/
def ntoaLong (value : ℕ) (negative : Bool) (base prec width : ℕ) (flags : Flags) (p : σ × ℕ) :
    σ × ℕ :=
  let flags := if value = 0 then { flags with hash := false } else flags
  let buf := if !flags.precision ∨ value ≠ 0 then ntoaDigits base flags ntoaBufferSize value else []
  ntoaFormat out maxlen buf negative base prec width flags p

/-- `_ntoa_long_long`; a `long long` is as long as a `long`. -/
def ntoaLongLong (value : ℕ) (negative : Bool) (base prec width : ℕ) (flags : Flags) (p : σ × ℕ) :
    σ × ℕ := ntoaLong out maxlen value negative base prec width flags p

/-! ### The fields of a conversion -/

/-- `_is_digit`. -/
def isDigit (c : BitVec 8) : Bool := ch '0' ≤ c && c ≤ ch '9'

/-- `_atoi`, and what is left of the format. -/
def atoi : ℕ → List (BitVec 8) → ℕ × List (BitVec 8)
  | i, [] => (i, [])
  | i, c :: s =>
    if isDigit c then atoi ((i * 10 + (c - ch '0').toNat) % 2 ^ 32) s else (i, c :: s)

/-- The flags. -/
def scanFlags : Flags → List (BitVec 8) → Flags × List (BitVec 8)
  | flags, [] => (flags, [])
  | flags, c :: s =>
    if c = ch '0' then scanFlags { flags with zeropad := true } s
    else if c = ch '-' then scanFlags { flags with left := true } s
    else if c = ch '+' then scanFlags { flags with plus := true } s
    else if c = ch ' ' then scanFlags { flags with space := true } s
    else if c = ch '#' then scanFlags { flags with hash := true } s
    else (flags, c :: s)

/-- The width field. -/
def scanWidth (flags : Flags) (va : List VaArg) :
    List (BitVec 8) → Option (Flags × ℕ × List VaArg × List (BitVec 8))
  | [] => some (flags, 0, va, [])
  | c :: s =>
    if isDigit c then some (flags, (atoi 0 (c :: s)).1, va, (atoi 0 (c :: s)).2)
    else if c = ch '*' then do
      let (w, va) ← vaInt va
      if w.toInt < 0 then return ({ flags with left := true }, (-w).toNat, va, s)
      else return (flags, w.toNat, va, s)
    else some (flags, 0, va, c :: s)

/-- What stands behind the point of the precision field. -/
def scanPrecisionValue (va : List VaArg) :
    List (BitVec 8) → Option (ℕ × List VaArg × List (BitVec 8))
  | [] => some (0, va, [])
  | c :: s =>
    if isDigit c then some ((atoi 0 (c :: s)).1, va, (atoi 0 (c :: s)).2)
    else if c = ch '*' then do
      let (prec, va) ← vaInt va
      return (if 0 < prec.toInt then prec.toNat else 0, va, s)
    else some (0, va, c :: s)

/-- The precision field. -/
def scanPrecision (flags : Flags) (va : List VaArg) :
    List (BitVec 8) → Option (Flags × ℕ × List VaArg × List (BitVec 8))
  | [] => some (flags, 0, va, [])
  | c :: s =>
    if c = ch '.' then do
      let (precision, va, s) ← scanPrecisionValue va s
      return ({ flags with precision := true }, precision, va, s)
    else some (flags, 0, va, c :: s)

/-- The length field; `ptrdiff_t`, `intmax_t` and `size_t` are as long as a `long`. -/
def scanLength (flags : Flags) : List (BitVec 8) → Flags × List (BitVec 8)
  | [] => (flags, [])
  | c :: s =>
    if c = ch 'l' then
      if s.head? = some (ch 'l') then ({ flags with long := true, longLong := true }, s.tail)
      else ({ flags with long := true }, s)
    else if c = ch 'h' then
      if s.head? = some (ch 'h') then ({ flags with short := true, char := true }, s.tail)
      else ({ flags with short := true }, s)
    else if c = ch 't' ∨ c = ch 'j' ∨ c = ch 'z' then ({ flags with long := true }, s)
    else (flags, c :: s)

/-! ### The conversions -/

/-- The labels of the `switch`. -/
inductive Conversion
  | integer
  | double
  | char
  | string
  | pointer
  | percent
  | other
  deriving DecidableEq, Repr

/-- Where the `switch` goes. -/
def conversion (c : BitVec 8) : Conversion :=
  if c = ch 'd' ∨ c = ch 'i' ∨ c = ch 'u' ∨ c = ch 'x' ∨ c = ch 'X' ∨ c = ch 'o' ∨ c = ch 'b' then
    .integer
  else if c = ch 'f' ∨ c = ch 'F' ∨ c = ch 'e' ∨ c = ch 'E' ∨ c = ch 'g' ∨ c = ch 'G' then .double
  else if c = ch 'c' then .char
  else if c = ch 's' then .string
  else if c = ch 'p' then .pointer
  else if c = ch '%' then .percent
  else .other

/-- The base of an integer conversion. -/
def intBase (c : BitVec 8) : ℕ :=
  if c = ch 'x' ∨ c = ch 'X' then 16 else if c = ch 'o' then 8 else if c = ch 'b' then 2 else 10

/-- The flags of an integer conversion. -/
def intFlags (c : BitVec 8) (flags : Flags) : Flags :=
  let flags := if intBase c = 10 then { flags with hash := false } else flags
  let flags := if c = ch 'X' then { flags with uppercase := true } else flags
  let flags := if c ≠ ch 'i' ∧ c ≠ ch 'd' then { flags with plus := false, space := false }
    else flags
  if flags.precision then { flags with zeropad := false } else flags

/-- `value > 0 ? value : 0 - value`, as an unsigned number.  At the smallest number `0 - value` is
no number of the type, and what happens is undefined. -/
def magnitude {w : ℕ} (value : BitVec w) : Option ℕ :=
  if 0 < value.toInt then some value.toNat
  else if value = BitVec.intMin w then none
  else some (-value).toNat

/-- An `int` argument, as the length field has it; a `char` is unsigned. -/
def shorten (flags : Flags) (v : BitVec 32) : BitVec 32 :=
  if flags.char then (v.setWidth 8).setWidth 32
  else if flags.short then (v.setWidth 16).signExtend 32
  else v

/-- The same for an `unsigned int`. -/
def shortenUnsigned (flags : Flags) (v : BitVec 32) : BitVec 32 :=
  if flags.char then (v.setWidth 8).setWidth 32
  else if flags.short then (v.setWidth 16).setWidth 32
  else v

/-- The argument of an integer conversion: its magnitude, and whether it is negative. -/
def intArg (c : BitVec 8) (flags : Flags) (va : List VaArg) : Option ((ℕ × Bool) × List VaArg) :=
  if c = ch 'i' ∨ c = ch 'd' then
    if flags.longLong ∨ flags.long then do
      let (value, va) ← vaLong va
      return ((← magnitude value, decide (value.toInt < 0)), va)
    else do
      let (value, va) ← vaInt va
      let value := shorten flags value
      return ((← magnitude value, decide (value.toInt < 0)), va)
  else if flags.longLong ∨ flags.long then do
    let (value, va) ← vaLong va
    return ((value.toNat, false), va)
  else do
    let (value, va) ← vaInt va
    return (((shortenUnsigned flags value).toNat, false), va)

/-- `_ftoa` and `_etoa`: what they put out. -/
abbrev DoubleText := BitVec 8 → Flags → ℕ → ℕ → BitVec 64 → List (BitVec 8)

variable (doubleText : DoubleText)

/-- The `switch` over the specifier `c`. -/
def specifier (c : BitVec 8) (flags : Flags) (width precision : ℕ) (va : List VaArg)
    (p : σ × ℕ) : Option (List VaArg × (σ × ℕ)) :=
  match conversion c with
  | .integer => do
    let flags := intFlags c flags
    let ((value, negative), va) ← intArg c flags va
    if flags.longLong then
      return (va, ntoaLongLong out maxlen value negative (intBase c) precision width flags p)
    else
      return (va, ntoaLong out maxlen value negative (intBase c) precision width flags p)
  | .double =>
    match va with
    | .double v :: va => some (va, puts out maxlen (doubleText c flags width precision v) p)
    | _ => none
  | .char => do
    let p := if !flags.left then putSpaces out maxlen (width - 1) p else p
    let (v, va) ← vaInt va
    let p := put out maxlen p (v.setWidth 8)
    return (va, if flags.left then putSpaces out maxlen (width - 1) p else p)
  | .string =>
    match va with
    | .string s :: va =>
      let l := strnlenS s (if precision ≠ 0 then precision else 2 ^ 64 - 1) % 2 ^ 32
      let l := if flags.precision then min l precision else l
      let p := if !flags.left then putSpaces out maxlen (width - l) p else p
      let p := puts out maxlen (if flags.precision then s.take precision else s) p
      some (va, if flags.left then putSpaces out maxlen (width - l) p else p)
    | _ => none
  | .pointer =>
    match va with
    | .pointer v :: va =>
      let flags := { flags with zeropad := true, uppercase := true }
      some (va, ntoaLongLong out maxlen v.toNat false 16 precision 16 flags p)
    | _ => none
  | .percent => some (va, put out maxlen p (ch '%'))
  | .other => some (va, put out maxlen p c)

/-- What is done behind a `%`: the fields and the specifier. -/
def directive (fmt : List (BitVec 8)) (va : List VaArg) (p : σ × ℕ) :
    Option (List (BitVec 8) × List VaArg × (σ × ℕ)) := do
  let (flags, fmt) := scanFlags {} fmt
  let (flags, width, va, fmt) ← scanWidth flags va fmt
  let (flags, precision, va, fmt) ← scanPrecision flags va fmt
  match scanLength flags fmt with
  | (_, []) => none
  | (flags, c :: fmt) =>
    let (va, p) ← specifier out maxlen doubleText c flags width precision va p
    return (fmt, va, p)

/-- The loop of `_vsnprintf`, in at most `n` rounds. -/
def vsnprintfLoop : ℕ → List (BitVec 8) → List VaArg → σ × ℕ → Option (σ × ℕ)
  | _, [], _, p => some p
  | 0, _ :: _, _, _ => none
  | n + 1, c :: fmt, va, p =>
    if c ≠ ch '%' then vsnprintfLoop n fmt va (put out maxlen p c)
    else do
      let (fmt, va, p) ← directive out maxlen doubleText fmt va p
      vsnprintfLoop n fmt va p

/-- `_vsnprintf`, for a buffer that is not `NULL`. -/
def vsnprintfInternal (buffer : σ) (format : List (BitVec 8)) (va : List VaArg) :
    Option (σ × ℤ) := do
  let (buffer, idx) ← vsnprintfLoop out maxlen doubleText format.length format va (buffer, 0)
  let buffer := out 0 buffer (if idx < maxlen then idx else (maxlen + (2 ^ 64 - 1)) % 2 ^ 64) maxlen
  return (buffer, (idx : ℤ).bmod (2 ^ 32))

end Output

/-- `vsnprintf_`. -/
def vsnprintf_ (doubleText : DoubleText) (buffer : Option (ℕ → BitVec 8)) (count : BitVec 64)
    (format : List (BitVec 8)) (va : List VaArg) : Option (Option (ℕ → BitVec 8) × ℤ) :=
  match buffer with
  | none => (vsnprintfInternal outNull count.toNat doubleText () format va).map fun r => (none, r.2)
  | some buffer => (vsnprintfInternal outBuffer count.toNat doubleText buffer format va).map
      fun r => (some r.1, r.2)

/-- `snprintf_`. -/
def snprintf_ (doubleText : DoubleText) (buffer : Option (ℕ → BitVec 8)) (count : BitVec 64)
    (format : List (BitVec 8)) (va : List VaArg) : Option (Option (ℕ → BitVec 8) × ℤ) :=
  vsnprintf_ doubleText buffer count format va

/-- `sprintf_`. -/
def sprintf_ (doubleText : DoubleText) (buffer : Option (ℕ → BitVec 8))
    (format : List (BitVec 8)) (va : List VaArg) : Option (Option (ℕ → BitVec 8) × ℤ) :=
  vsnprintf_ doubleText buffer (-1) format va

end AcoOs.Vsnprintf
