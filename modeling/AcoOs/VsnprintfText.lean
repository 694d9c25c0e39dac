/-
What `vsnprintf.c` puts out.

Each function of `Vsnprintf` puts out a text that depends neither on where it is put nor on what
was put out before.  Here are these texts, under the names of the functions.

* **`vsnprintfLoop_eq`** — a format and its arguments have one text;
* **`vsnprintf_stores`** — the functions for buffers store as much of it as fits, and a NUL, and
  return its length; without a buffer they return the same length;
* **`one_text`** — so all of them are about one text.
-/
import AcoOs.Vsnprintf

namespace AcoOs.Vsnprintf

/-- The text of `_out_rev`. -/
def revText (buf : List (BitVec 8)) (width : ℕ) (flags : Flags) : List (BitVec 8) :=
  if flags.left then buf.reverse ++ List.replicate (width - buf.length) (ch ' ')
  else if flags.zeropad then buf.reverse
  else List.replicate (width - buf.length) (ch ' ') ++ buf.reverse

/-- The buffer that `_ntoa_format` gives to `_out_rev`. -/
def formatBuf (buf : List (BitVec 8)) (negative : Bool) (base prec width : ℕ) (flags : Flags) :
    List (BitVec 8) :=
  handleSign (handleHash (leadingZeros buf negative prec width flags).1 base prec
    (leadingZeros buf negative prec width flags).2 flags) negative flags

/-- The text of `_ntoa_format`. -/
def formatText (buf : List (BitVec 8)) (negative : Bool) (base prec width : ℕ) (flags : Flags) :
    List (BitVec 8) :=
  revText (formatBuf buf negative base prec width flags)
    (leadingZeros buf negative prec width flags).2 flags

/-- The text of `_ntoa_long`. -/
def ntoaText (value : ℕ) (negative : Bool) (base prec width : ℕ) (flags : Flags) :
    List (BitVec 8) :=
  let flags := if value = 0 then { flags with hash := false } else flags
  formatText (if !flags.precision ∨ value ≠ 0 then ntoaDigits base flags ntoaBufferSize value
    else []) negative base prec width flags

/-- A text with spaces before or behind it. -/
def padText (s : List (BitVec 8)) (spaces : ℕ) (left : Bool) : List (BitVec 8) :=
  if left then s ++ List.replicate spaces (ch ' ') else List.replicate spaces (ch ' ') ++ s

/-- The text of a conversion to the specifier `c`. -/
def specifierText (doubleText : DoubleText) (c : BitVec 8) (flags : Flags) (width precision : ℕ)
    (va : List VaArg) : Option (List VaArg × List (BitVec 8)) :=
  match conversion c with
  | .integer => do
    let flags := intFlags c flags
    let ((value, negative), va) ← intArg c flags va
    return (va, ntoaText value negative (intBase c) precision width flags)
  | .double =>
    match va with
    | .double v :: va => some (va, doubleText c flags width precision v)
    | _ => none
  | .char => do
    let (v, va) ← vaInt va
    return (va, padText [v.setWidth 8] (width - 1) flags.left)
  | .string =>
    match va with
    | .string s :: va =>
      let l := strnlenS s (if precision ≠ 0 then precision else 2 ^ 64 - 1) % 2 ^ 32
      let l := if flags.precision then min l precision else l
      some (va, padText (if flags.precision then s.take precision else s) (width - l) flags.left)
    | _ => none
  | .pointer =>
    match va with
    | .pointer v :: va =>
      some (va, ntoaText v.toNat false 16 precision 16
        { flags with zeropad := true, uppercase := true })
    | _ => none
  | .percent => some (va, [ch '%'])
  | .other => some (va, [c])

/-- The text of what stands behind a `%`. -/
def directiveText (doubleText : DoubleText) (fmt : List (BitVec 8)) (va : List VaArg) :
    Option (List (BitVec 8) × List VaArg × List (BitVec 8)) := do
  let (flags, fmt) := scanFlags {} fmt
  let (flags, width, va, fmt) ← scanWidth flags va fmt
  let (flags, precision, va, fmt) ← scanPrecision flags va fmt
  match scanLength flags fmt with
  | (_, []) => none
  | (flags, c :: fmt) =>
    let (va, s) ← specifierText doubleText c flags width precision va
    return (fmt, va, s)

/-- The text of a format, of which at most `n` parts are looked at. -/
def loopText (doubleText : DoubleText) : ℕ → List (BitVec 8) → List VaArg →
    Option (List (BitVec 8))
  | _, [], _ => some []
  | 0, _ :: _, _ => none
  | n + 1, c :: fmt, va =>
    if c ≠ ch '%' then (loopText doubleText n fmt va).map (c :: ·)
    else do
      let (fmt, va, s) ← directiveText doubleText fmt va
      (loopText doubleText n fmt va).map (s ++ ·)

/-- The text of a format and its arguments. -/
def text (doubleText : DoubleText) (format : List (BitVec 8)) (va : List VaArg) :
    Option (List (BitVec 8)) := loopText doubleText format.length format va

/-! ### Each function puts out its text -/

section Output

variable {σ : Type} {out : BitVec 8 → σ → ℕ → ℕ → σ} {maxlen : ℕ} {doubleText : DoubleText}
  {buf : List (BitVec 8)} {flags : Flags} {c : BitVec 8} {p : σ × ℕ} {va : List VaArg}
  {width precision n : ℕ}

theorem puts_append (s t : List (BitVec 8)) :
    puts out maxlen (s ++ t) p = puts out maxlen t (puts out maxlen s p) := List.foldl_append ..

theorem putSpaces_eq :
    putSpaces out maxlen n p = puts out maxlen (List.replicate n (ch ' ')) p := by
  induction n generalizing p with
  | zero => rfl
  | succ n ih => exact ih

theorem puts_idx (s : List (BitVec 8)) : (puts out maxlen s p).2 = p.2 + s.length := by
  induction s generalizing p with
  | nil => rfl
  | cons c s ih =>
    have hput : (put out maxlen p c).2 = p.2 + 1 := rfl
    rw [puts, List.foldl_cons, ← puts, ih, hput, List.length_cons]
    omega

theorem outRev_eq : outRev out maxlen buf width flags p =
    puts out maxlen (revText buf width flags) p := by
  unfold outRev revText
  cases flags.left with
  | true =>
    have hlen : p.2 + buf.reverse.length - p.2 = buf.length := by
      rw [List.length_reverse]
      omega
    simp [putSpaces_eq, puts_append, puts_idx]
  | false =>
    cases flags.zeropad with
    | true => simp
    | false => simp [putSpaces_eq, puts_append]

theorem ntoaLong_eq {value base prec : ℕ} {negative : Bool} :
    ntoaLong out maxlen value negative base prec width flags p =
      puts out maxlen (ntoaText value negative base prec width flags) p := by
  rw [ntoaText, formatText, ← outRev_eq]
  rfl

theorem pad_eq (s : List (BitVec 8)) (spaces : ℕ) (left : Bool) :
    (if left then putSpaces out maxlen spaces (puts out maxlen s
        (if !left then putSpaces out maxlen spaces p else p))
      else puts out maxlen s (if !left then putSpaces out maxlen spaces p else p)) =
      puts out maxlen (padText s spaces left) p := by
  cases left <;> simp [padText, putSpaces_eq, puts_append]

/-- The result of a conversion is put out behind what was put out before. -/
theorem specifier_eq : specifier out maxlen doubleText c flags width precision va p =
    (specifierText doubleText c flags width precision va).map fun r =>
      (r.1, puts out maxlen r.2 p) := by
  unfold specifier specifierText
  cases conversion c with
  | integer =>
    dsimp only
    cases intArg c (intFlags c flags) va with
    | none => rfl
    | some r =>
      simp only [Option.bind_eq_bind, Option.bind_some, ntoaLongLong, ntoaLong_eq, ite_self,
        Option.pure_def, Option.map_some]
  | double =>
    rcases va with - | ⟨v | v | v | v | v, va⟩ <;> rfl
  | char =>
    dsimp only
    cases vaInt va with
    | none => rfl
    | some r =>
      exact congrArg (fun q => some (r.2, q)) (pad_eq [r.1.setWidth 8] (width - 1) flags.left)
  | string =>
    rcases va with - | ⟨v | v | v | v | v, va⟩ <;> try rfl
    exact congrArg (fun q => some (va, q)) (pad_eq _ _ flags.left)
  | pointer =>
    rcases va with - | ⟨v | v | v | v | v, va⟩ <;> try rfl
    exact congrArg (fun q => some (va, q)) ntoaLong_eq
  | percent => rfl
  | other => rfl

theorem directive_eq {fmt : List (BitVec 8)} : directive out maxlen doubleText fmt va p =
    (directiveText doubleText fmt va).map fun r => (r.1, r.2.1, puts out maxlen r.2.2 p) := by
  unfold directive directiveText
  dsimp only
  cases scanWidth (scanFlags {} fmt).1 va (scanFlags {} fmt).2 with
  | none => rfl
  | some w =>
    simp only [Option.bind_eq_bind, Option.bind_some]
    cases scanPrecision w.1 w.2.2.1 w.2.2.2 with
    | none => rfl
    | some r =>
      simp only [Option.bind_some]
      rcases scanLength r.1 r.2.2.2 with ⟨flags, - | ⟨c, fmt⟩⟩
      · rfl
      · simp only [specifier_eq]
        cases specifierText doubleText c flags w.2.1 r.2.1 r.2.2.1 <;> rfl

/-- The loop puts out the text of the format. -/
theorem vsnprintfLoop_eq {fmt : List (BitVec 8)} : vsnprintfLoop out maxlen doubleText n fmt va p =
    (loopText doubleText n fmt va).map fun s => puts out maxlen s p := by
  induction n generalizing fmt va p with
  | zero => cases fmt <;> rfl
  | succ n ih =>
    cases fmt with
    | nil => rfl
    | cons c fmt =>
      rw [vsnprintfLoop, loopText]
      split_ifs with hc
      · rw [ih, Option.map_map]
        rfl
      · rw [directive_eq]
        cases directiveText doubleText fmt va with
        | none => rfl
        | some r =>
          simp only [Option.bind_eq_bind, Option.bind_some, Option.map_some]
          rw [ih, Option.map_map]
          refine congrArg (fun f => Option.map f _) (funext fun s => ?_)
          exact (puts_append r.2.2 s).symm

end Output

/-! ### Buffers -/

variable {doubleText : DoubleText} {buf : ℕ → BitVec 8} {maxlen : ℕ}

/-- What is in a buffer after a text was put there. -/
theorem puts_outBuffer (s : List (BitVec 8)) (idx : ℕ) :
    puts outBuffer maxlen s (buf, idx) = (fun i =>
      if idx ≤ i ∧ i < idx + s.length ∧ i < maxlen then s.getD (i - idx) 0 else buf i,
      idx + s.length) := by
  induction s generalizing buf idx with
  | nil =>
    refine Prod.ext (funext fun i => ?_) rfl
    show buf i = if idx ≤ i ∧ i < idx + 0 ∧ i < maxlen then _ else buf i
    rw [if_neg (by omega)]
  | cons c s ih =>
    rw [puts, List.foldl_cons, ← puts, put, ih]
    refine Prod.ext (funext fun i => ?_) (by rw [List.length_cons]; dsimp only; omega)
    dsimp only
    rw [outBuffer, List.length_cons]
    rcases lt_trichotomy i idx with hi | rfl | hi
    · have hne : i ≠ idx := Nat.ne_of_lt hi
      rw [if_neg (show ¬ (idx + 1 ≤ i ∧ _ ∧ _) by omega),
        if_neg (show ¬ (idx ≤ i ∧ _ ∧ _) by omega)]
      split_ifs
      · exact Function.update_of_ne hne ..
      · rfl
    · rw [if_neg (show ¬ (i + 1 ≤ i ∧ _ ∧ _) by omega), Nat.sub_self]
      split_ifs with h1 h2 h2
      · rw [Function.update_self]
        rfl
      · omega
      · omega
      · rfl
    · have hne : i ≠ idx := (Nat.ne_of_lt hi).symm
      obtain ⟨k, rfl⟩ : ∃ k, i = idx + 1 + k := ⟨i - (idx + 1), by omega⟩
      have hk : idx + 1 + k - idx = k + 1 := by omega
      rw [hk, Nat.add_sub_cancel_left, List.getD_cons_succ]
      refine if_congr (by omega) rfl ?_
      split_ifs
      · exact Function.update_of_ne hne ..
      · rfl

theorem puts_outNull (s : List (BitVec 8)) (idx : ℕ) :
    puts outNull maxlen s ((), idx) = ((), idx + s.length) :=
  Prod.ext rfl (puts_idx s)

/-- `vsnprintf_` stores as much of the text as fits, and a NUL, and returns its length. -/
theorem vsnprintf_stores (format : List (BitVec 8)) (va : List VaArg) (count : BitVec 64) :
    vsnprintf_ doubleText (some buf) count format va = (text doubleText format va).map fun s =>
      (some (vsnprintf buf count.toNat s).bytes, (s.length : ℤ).bmod (2 ^ 32)) := by
  have hcount := count.isLt
  rw [vsnprintf_, vsnprintfInternal, vsnprintfLoop_eq, text]
  cases loopText doubleText format.length format va with
  | none => rfl
  | some s =>
    simp only [Option.map_some, Option.bind_eq_bind, Option.bind_some, Option.pure_def,
      puts_outBuffer, Nat.zero_add, Nat.zero_le, true_and, Nat.sub_zero]
    refine congrArg (fun b => some (some b, _)) (funext fun i => ?_)
    rw [outBuffer, vsnprintf]
    by_cases h0 : count.toNat = 0
    · rw [h0, if_pos rfl, if_neg (by omega)]
      exact if_neg (by omega)
    · rw [if_neg h0]
      dsimp only
      have hidx : (if s.length < count.toNat then s.length
          else (count.toNat + (2 ^ 64 - 1)) % 2 ^ 64) = min s.length (count.toNat - 1) := by
        split_ifs <;> omega
      rw [hidx, if_pos (by omega), Function.update_apply]
      by_cases hi : i = min s.length (count.toNat - 1)
      · rw [if_pos hi, if_neg (by omega), if_pos hi]
      · rw [if_neg hi, if_neg hi]
        exact if_congr (by omega) rfl rfl

theorem vsnprintf_counts (format : List (BitVec 8)) (va : List VaArg) (count : BitVec 64) :
    vsnprintf_ doubleText none count format va = (text doubleText format va).map fun s =>
      (none, (s.length : ℤ).bmod (2 ^ 32)) := by
  rw [vsnprintf_, vsnprintfInternal, vsnprintfLoop_eq, text]
  cases loopText doubleText format.length format va with
  | none => rfl
  | some s =>
    simp only [Option.map_some, Option.bind_eq_bind, Option.bind_some, Option.pure_def,
      puts_outNull, Nat.zero_add]

/-- A format and its arguments have one text, or none.  The functions for buffers store what fits
of it, and return its length. -/
theorem one_text (doubleText : DoubleText) (format : List (BitVec 8)) (va : List VaArg) :
    ∃ t : Option (List (BitVec 8)), ∀ buf count,
      vsnprintf_ doubleText (some buf) count format va = t.map (fun s =>
        (some (vsnprintf buf count.toNat s).bytes, (s.length : ℤ).bmod (2 ^ 32))) ∧
      vsnprintf_ doubleText none count format va = t.map (fun s =>
        (none, (s.length : ℤ).bmod (2 ^ 32))) ∧
      snprintf_ doubleText (some buf) count format va = t.map (fun s =>
        (some (vsnprintf buf count.toNat s).bytes, (s.length : ℤ).bmod (2 ^ 32))) ∧
      snprintf_ doubleText none count format va = t.map (fun s =>
        (none, (s.length : ℤ).bmod (2 ^ 32))) ∧
      sprintf_ doubleText (some buf) format va = t.map (fun s =>
        (some (vsnprintf buf (2 ^ 64 - 1) s).bytes, (s.length : ℤ).bmod (2 ^ 32))) ∧
      sprintf_ doubleText none format va = t.map fun s =>
        (none, (s.length : ℤ).bmod (2 ^ 32)) :=
  ⟨text doubleText format va, fun _ _ => ⟨vsnprintf_stores .., vsnprintf_counts ..,
    vsnprintf_stores .., vsnprintf_counts .., vsnprintf_stores .., vsnprintf_counts ..⟩⟩

end AcoOs.Vsnprintf
