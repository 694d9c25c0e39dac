/-
The numbers that `vsnprintf.c` puts out.

A number is built in a buffer of 32 bytes, the last digit first.  What does not fit into it is left
out: digits, zeros, and the sign.

* **`readBack_ntoaText`** — which number a reader takes a text for;
* **`signed_reads_back_iff`** — `%d` puts out a number that is read back, unless the sign of a
  negative one is lost behind 32 zeros;
* **`unsigned_reads_back_iff`** — so do `%u`, `%x` and `%o`, and `%b` below `2 ^ 32`;
* **`width_le_length_iff`** — a conversion is as wide as it should be, unless more than 32 zeros are
  asked for;
* **`hash_reads_back_iff`** — the prefix of `#` may take the place of digits; here is when it does
  not.
-/
import AcoOs.VsnprintfText
import Mathlib.Data.Nat.Digits.Defs

namespace AcoOs.Vsnprintf

/-! ### Reading numbers -/

/-- The value of a digit. -/
def digitVal (c : BitVec 8) : Option ℕ :=
  if isDigit c then some (c - ch '0').toNat
  else if ch 'a' ≤ c ∧ c ≤ ch 'f' then some ((c - ch 'a').toNat + 10)
  else if ch 'A' ≤ c ∧ c ≤ ch 'F' then some ((c - ch 'A').toNat + 10)
  else none

/-- Read digits as long as there are any. -/
def numeral (base : ℕ) : ℕ → List (BitVec 8) → ℕ
  | acc, [] => acc
  | acc, c :: s =>
    match digitVal c with
    | some d => if d < base then numeral base (acc * base + d) s else acc
    | none => acc

/-- Read a number behind spaces, and its sign. -/
def readBack (base : ℕ) (s : List (BitVec 8)) : ℤ :=
  match s.dropWhile (· = ch ' ') with
  | [] => 0
  | c :: s =>
    if c = ch '-' then -(numeral base 0 s : ℤ)
    else if c = ch '+' then (numeral base 0 s : ℤ)
    else (numeral base 0 (c :: s) : ℤ)

variable {base value prec width n acc : ℕ} {flags : Flags} {negative : Bool} {c : BitVec 8}
  {buf s t : List (BitVec 8)}

theorem digitVal_digit {d : ℕ} (hd : d < 16) : digitVal (digit d flags) = some d := by
  unfold digit
  cases flags.uppercase <;> interval_cases d <;> decide

theorem digitVal_space : digitVal (ch ' ') = none := by decide

theorem numeral_spaces (k : ℕ) : numeral base acc (List.replicate k (ch ' ')) = acc := by
  cases k with
  | zero => rfl
  | succ k => rw [List.replicate_succ, numeral, digitVal_space]

/-- Digits, and what stands behind them. -/
theorem numeral_digits (acc : ℕ) (flags : Flags) (t : List (BitVec 8)) {l : List ℕ}
    (hb : base ≤ 16) (hl : ∀ d ∈ l, d < base) :
    numeral base acc ((l.map fun d => digit d flags) ++ t) =
      numeral base (l.foldl (fun a d => a * base + d) acc) t := by
  induction l generalizing acc with
  | nil => rfl
  | cons d l ih =>
    have hd : d < base := hl d List.mem_cons_self
    rw [List.map_cons, List.cons_append, numeral, digitVal_digit (hd.trans_le hb)]
    dsimp only
    rw [if_pos hd, ih _ fun e he => hl e (List.mem_cons_of_mem d he), List.foldl_cons]

theorem foldl_reverse_eq_ofDigits (l : List ℕ) :
    l.reverse.foldl (fun a d => a * base + d) 0 = Nat.ofDigits base l := by
  induction l with
  | nil => rfl
  | cons d l ih =>
    rw [List.reverse_cons, List.foldl_append, ih, List.foldl_cons, List.foldl_nil,
      Nat.ofDigits_cons]
    ring

/-! ### The buffer -/

/-- The digits of a value other than zero. -/
theorem ntoaDigits_eq (hb : 2 ≤ base) (hv : value ≠ 0) : ntoaDigits base flags n value =
    ((Nat.digits base value).take n).map fun d => digit d flags := by
  induction n generalizing value with
  | zero => rfl
  | succ n ih =>
    rw [ntoaDigits, Nat.digits_def' hb (Nat.pos_of_ne_zero hv), List.take_succ_cons, List.map_cons]
    by_cases hq : value / base = 0
    · rw [if_neg (not_not.2 hq), hq, Nat.digits_zero, List.take_nil, List.map_nil]
    · rw [if_pos hq, ih hq]

/-- The digits of a value that fit into the buffer, as numbers, the last one first. -/
def kept (base : ℕ) (flags : Flags) (value : ℕ) : List ℕ :=
  if value = 0 then if flags.precision then [] else [0]
  else (Nat.digits base value).take ntoaBufferSize

theorem ntoaBuf_eq (hb : 2 ≤ base) :
    (if !flags.precision ∨ value ≠ 0 then ntoaDigits base flags ntoaBufferSize value else []) =
      (kept base flags value).map fun d => digit d flags := by
  rw [kept]
  by_cases hv : value = 0
  · subst hv
    rw [if_pos rfl]
    cases flags.precision
    · simp [ntoaDigits, ntoaBufferSize]
    · simp
  · rw [if_neg hv, if_pos (.inr hv), ntoaDigits_eq hb hv]

theorem kept_lt (hb : 2 ≤ base) : ∀ d ∈ kept base flags value, d < base := by
  rw [kept]
  split_ifs
  · exact fun d hd => absurd hd List.not_mem_nil
  · intro d hd
    rw [List.mem_singleton.1 hd]
    omega
  · exact fun d hd => Nat.digits_lt_base hb (List.mem_of_mem_take hd)

theorem kept_length (base : ℕ) (flags : Flags) (value : ℕ) :
    (kept base flags value).length ≤ ntoaBufferSize := by
  rw [kept]
  split_ifs
  · exact Nat.zero_le _
  · exact Nat.le_of_ble_eq_true rfl
  · exact List.length_take_le _ _

/-- What is kept of a value is its rest. -/
theorem ofDigits_kept (hb : 2 ≤ base) :
    Nat.ofDigits base (kept base flags value) = value % base ^ ntoaBufferSize := by
  rw [kept]
  split_ifs with hv hp
  · rw [hv, Nat.zero_mod]
    rfl
  · rw [hv, Nat.zero_mod, Nat.ofDigits_singleton]
  · exact (Nat.self_mod_pow_eq_ofDigits_take _ _ hb).symm

/-- The width that is left to the spaces. -/
def innerWidth (negative : Bool) (width : ℕ) (flags : Flags) : ℕ :=
  if !flags.left ∧ width ≠ 0 ∧ flags.zeropad ∧ (negative || flags.plus || flags.space) then
    width - 1
  else width

/-- How long the number is with its zeros. -/
def paddedLength (len : ℕ) (negative : Bool) (prec width : ℕ) (flags : Flags) : ℕ :=
  if flags.left then len
  else max len (min ntoaBufferSize
    (max prec (if flags.zeropad then innerWidth negative width flags else 0)))

theorem padZeros_padZeros (m : ℕ) : padZeros n (padZeros m buf) = padZeros (max m n) buf := by
  unfold padZeros
  rw [List.append_assoc, List.replicate_append_replicate, List.length_append, List.length_replicate]
  congr 2
  omega

theorem leadingZeros_eq : leadingZeros buf negative prec width flags =
    (if flags.left then buf
      else padZeros (max prec (if flags.zeropad then innerWidth negative width flags else 0)) buf,
      innerWidth negative width flags) := by
  unfold leadingZeros innerWidth
  cases flags.left with
  | true => simp
  | false =>
    cases flags.zeropad with
    | true => simp [padZeros_padZeros]
    | false => simp

theorem leadingZeros_fst : (leadingZeros buf negative prec width flags).1 =
    buf ++ List.replicate (paddedLength buf.length negative prec width flags - buf.length)
      (ch '0') := by
  rw [leadingZeros_eq, paddedLength]
  cases flags.left with
  | true => simp
  | false =>
    simp only [Bool.false_eq_true, if_false, padZeros]
    congr 2
    omega

/-- The character for the sign. -/
def signOf (negative : Bool) (flags : Flags) : List (BitVec 8) :=
  if negative then [ch '-'] else if flags.plus then [ch '+'] else if flags.space then [ch ' ']
  else []

theorem handleSign_eq : handleSign buf negative flags =
    buf ++ if buf.length < ntoaBufferSize then signOf negative flags else [] := by
  unfold handleSign signOf append
  split_ifs <;> simp

theorem handleHash_of_not (h : flags.hash = false) :
    handleHash buf base prec width flags = buf := by
  rw [handleHash, if_neg (by rw [h]; exact Bool.false_ne_true)]

theorem readBack_space : readBack base (ch ' ' :: s) = readBack base s := by
  rw [readBack, readBack, List.dropWhile_cons_of_pos (by decide)]

theorem readBack_spaces (k : ℕ) :
    readBack base (List.replicate k (ch ' ') ++ s) = readBack base s := by
  induction k with
  | zero => rfl
  | succ k ih => rw [List.replicate_succ, List.cons_append, readBack_space, ih]

theorem readBack_cons (hc : c ≠ ch ' ') : readBack base (c :: s) =
    if c = ch '-' then -(numeral base 0 s : ℤ)
    else if c = ch '+' then (numeral base 0 s : ℤ)
    else (numeral base 0 (c :: s) : ℤ) := by
  rw [readBack, List.dropWhile_cons_of_neg (by rwa [decide_eq_true_eq])]

/-- The number that some digits stand for. -/
def ofDigits (base : ℕ) (l : List ℕ) : ℕ := l.foldl (fun a d => a * base + d) 0

theorem readBack_digits (flags : Flags) {l : List ℕ} (hb : base ≤ 16)
    (hl : ∀ d ∈ l, d < base) (k : ℕ) :
    readBack base ((l.map fun d => digit d flags) ++ List.replicate k (ch ' ')) =
      ofDigits base l := by
  have hnum := numeral_digits 0 flags (List.replicate k (ch ' ')) hb hl
  rw [numeral_spaces] at hnum
  cases l with
  | nil =>
    have hspaces : readBack base (List.replicate k (ch ' ') ++ []) = 0 := readBack_spaces k
    rw [List.append_nil] at hspaces
    exact hspaces
  | cons d l =>
    have hd : digitVal (digit d flags) = some d :=
      digitVal_digit ((hl d List.mem_cons_self).trans_le hb)
    have hne : ∀ e, digitVal e = none → digit d flags ≠ e := fun e he h => by
      rw [h, he] at hd
      cases hd
    rw [List.map_cons, List.cons_append, readBack_cons (hne _ digitVal_space),
      if_neg (hne _ (by decide)), if_neg (hne _ (by decide)), ofDigits, ← hnum]
    rfl

/-- A sign, digits, and spaces around them. -/
theorem readBack_signed {l : List ℕ} (hb : base ≤ 16) (hl : ∀ d ∈ l, d < base) (i j : ℕ) :
    readBack base (List.replicate i (ch ' ') ++ (signOf negative flags ++
      ((l.map fun d => digit d flags) ++ List.replicate j (ch ' ')))) =
      if negative then -(ofDigits base l : ℤ) else (ofDigits base l : ℤ) := by
  have hdigits := readBack_digits flags hb hl j
  have hnum := numeral_digits 0 flags (List.replicate j (ch ' ')) hb hl
  rw [numeral_spaces] at hnum
  rw [readBack_spaces, signOf]
  split_ifs
  · rw [List.singleton_append, readBack_cons (by decide), if_pos rfl, hnum, ofDigits]
  · rw [List.singleton_append, readBack_cons (by decide), if_neg (by decide), if_pos rfl, hnum,
      ofDigits]
  · rw [List.singleton_append, readBack_space, hdigits]
  · rw [List.nil_append, hdigits]

theorem ofDigits_zeros (base k : ℕ) (l : List ℕ) :
    ofDigits base (List.replicate k 0 ++ l.reverse) = Nat.ofDigits base l := by
  rw [ofDigits, List.foldl_append]
  have hzero : (List.replicate k 0).foldl (fun a d => a * base + d) 0 = 0 := by
    induction k with
    | zero => rfl
    | succ k ih => rw [List.replicate_succ, List.foldl_cons, Nat.zero_mul, Nat.zero_add, ih]
  rw [hzero, foldl_reverse_eq_ofDigits]

/-! ### The text of a number -/

theorem reverse_signOf : (signOf negative flags).reverse = signOf negative flags := by
  unfold signOf
  split_ifs <;> rfl

theorem length_le_paddedLength (len : ℕ) (negative : Bool) (prec width : ℕ) (flags : Flags) :
    len ≤ paddedLength len negative prec width flags := by
  rw [paddedLength]
  split_ifs
  · exact le_rfl
  · exact Nat.le_max_left _ _
  · exact Nat.le_max_left _ _

/-- The text of a number is its sign, if there is a place for it, and its digits, with zeros before
them and spaces around it. -/
theorem formatText_eq (l : List ℕ) (negative : Bool) (base prec width : ℕ)
    (hh : flags.hash = false) : ∃ i j k : ℕ,
    formatText (l.map fun d => digit d flags) negative base prec width flags =
      List.replicate i (ch ' ') ++
        ((if paddedLength l.length negative prec width flags < ntoaBufferSize
          then signOf negative flags else []) ++
        (((List.replicate k 0 ++ l.reverse).map fun d => digit d flags) ++
          List.replicate j (ch ' '))) := by
  have hlen : (l.map fun d => digit d flags).length + (paddedLength
      (l.map fun d => digit d flags).length negative prec width flags -
        (l.map fun d => digit d flags).length) =
      paddedLength l.length negative prec width flags := by
    have := length_le_paddedLength l.length negative prec width flags
    rw [List.length_map]
    omega
  rw [formatText, formatBuf, handleHash_of_not hh, leadingZeros_fst, handleSign_eq,
    List.length_append, List.length_replicate, hlen]
  generalize hS : (if paddedLength l.length negative prec width flags < ntoaBufferSize
    then signOf negative flags else []) = S
  have hsign : S.reverse = S := by
    rw [← hS]
    split_ifs
    · exact reverse_signOf
    · rfl
  generalize paddedLength (l.map fun d => digit d flags).length negative prec width flags -
    (l.map fun d => digit d flags).length = k
  generalize (leadingZeros _ negative prec width flags).2 = w
  have hrev : ((l.map fun d => digit d flags) ++ List.replicate k (ch '0') ++ S).reverse =
      S ++ ((List.replicate k 0 ++ l.reverse).map fun d => digit d flags) := by
    rw [List.reverse_append, hsign, List.reverse_append, List.reverse_replicate, List.map_append,
      List.map_replicate, List.map_reverse]
    rfl
  rw [revText, hrev]
  split_ifs
  · exact ⟨0, _, k, List.append_assoc ..⟩
  · exact ⟨0, 0, k, by simp⟩
  · exact ⟨_, 0, k, congrArg (_ ++ ·) (congrArg (S ++ ·) (List.append_nil _).symm)⟩

/-- What is read back of a text without a prefix; the sign needs a place of its own. -/
theorem readBack_ntoaText (hb : 2 ≤ base) (hb' : base ≤ 16) (hh : flags.hash = false) :
    readBack base (ntoaText value negative base prec width flags) =
      if negative ∧ paddedLength (kept base flags value).length negative prec width flags <
        ntoaBufferSize then -((value % base ^ ntoaBufferSize : ℕ) : ℤ)
      else ((value % base ^ ntoaBufferSize : ℕ) : ℤ) := by
  have hflags : (if value = 0 then { flags with hash := false } else flags) = flags := by
    split_ifs
    · rw [← hh]
    · rfl
  obtain ⟨i, j, k, htext⟩ := formatText_eq (kept base flags value) negative base prec width hh
  have hlt : ∀ d ∈ List.replicate k 0 ++ (kept base flags value).reverse, d < base := by
    intro d hd
    rw [List.mem_append, List.mem_reverse] at hd
    rcases hd with hd | hd
    · rw [List.eq_of_mem_replicate hd]
      omega
    · exact kept_lt hb d hd
  rw [ntoaText, hflags, ntoaBuf_eq hb, htext]
  by_cases hfits : paddedLength (kept base flags value).length negative prec width flags <
      ntoaBufferSize
  · rw [if_pos hfits, readBack_signed hb' hlt, ofDigits_zeros, ofDigits_kept hb]
    simp only [hfits, and_true]
  · rw [if_neg hfits, if_neg fun h => hfits h.2, List.nil_append, readBack_spaces,
      readBack_digits _ hb' hlt, ofDigits_zeros, ofDigits_kept hb]

/-! ### The integer conversions -/

/-- The number that a signed conversion is about. -/
def signedArg (flags : Flags) (va : List VaArg) : Option (ℤ × List VaArg) :=
  if flags.longLong ∨ flags.long then (vaLong va).map fun r => (r.1.toInt, r.2)
  else (vaInt va).map fun r => ((shorten flags r.1).toInt, r.2)

/-- The number that an unsigned conversion is about. -/
def unsignedArg (flags : Flags) (va : List VaArg) : Option (ℕ × List VaArg) :=
  if flags.longLong ∨ flags.long then (vaLong va).map fun r => (r.1.toNat, r.2)
  else (vaInt va).map fun r => ((shortenUnsigned flags r.1).toNat, r.2)

/-- The smallest number of the type that a signed conversion takes. -/
def smallest (flags : Flags) : ℤ := if flags.longLong ∨ flags.long then -2 ^ 63 else -2 ^ 31

theorem magnitude_eq {w : ℕ} (hw : 0 < w) (v : BitVec w) :
    magnitude v = if v.toInt = -2 ^ (w - 1) then none else some v.toInt.natAbs := by
  have hlt := v.isLt
  have hneg := BitVec.toNat_neg (x := v)
  have hint := BitVec.toInt_eq_toNat_cond v
  have hmin : v = BitVec.intMin w ↔ v.toInt = -2 ^ (w - 1) := by
    rw [← BitVec.toInt_inj, BitVec.toInt_intMin_of_pos hw]
  rw [magnitude]
  by_cases h : 0 < v.toInt
  · have hne : ¬ v.toInt = -2 ^ (w - 1) := by
      have : (0 : ℤ) < 2 ^ (w - 1) := by positivity
      omega
    rw [if_pos h, if_neg hne]
    split_ifs at hint <;> exact congrArg some (by omega)
  · rw [if_neg h]
    refine if_congr hmin rfl (congrArg some ?_)
    by_cases h0 : v.toNat = 0
    · have hv : v = 0 := BitVec.eq_of_toNat_eq (by simpa using h0)
      subst hv
      simp
    · rw [hneg, Nat.mod_eq_of_lt (by omega)]
      split_ifs at hint <;> omega

/-- What the specifier does to the flags. -/
theorem intFlags_eq : intFlags c flags = { flags with
    zeropad := flags.zeropad && !flags.precision
    plus := flags.plus && decide (c = ch 'i' ∨ c = ch 'd')
    space := flags.space && decide (c = ch 'i' ∨ c = ch 'd')
    hash := flags.hash && decide (intBase c ≠ 10)
    uppercase := flags.uppercase || decide (c = ch 'X') } := by
  unfold intFlags
  have key : ∀ (P Q R S : Prop) [Decidable P] [Decidable Q] [Decidable R] [Decidable S],
      (R ↔ ¬ S) → ∀ f : Flags,
      (let f := if P then { f with hash := false } else f
       let f := if Q then { f with uppercase := true } else f
       let f := if R then { f with plus := false, space := false } else f
       if f.precision then { f with zeropad := false } else f) = { f with
        zeropad := f.zeropad && !f.precision
        plus := f.plus && decide S
        space := f.space && decide S
        hash := f.hash && decide (¬ P)
        uppercase := f.uppercase || decide Q } := by
    rintro P Q R S _ _ _ _ hRS ⟨z, l, p, s, h, u, k, o, g, q, e⟩
    by_cases hP : P <;> by_cases hQ : Q <;> by_cases hS : S <;> cases e <;>
      simp [hP, hQ, hRS, hS]
  exact key _ _ _ _ not_or.symm _

/-- A signed conversion takes every number but the smallest one. -/
theorem intArg_signed {va : List VaArg} (hc : c = ch 'i' ∨ c = ch 'd') :
    intArg c (intFlags c flags) va = (signedArg flags va).bind fun r =>
      if r.1 = smallest flags then none else some ((r.1.natAbs, decide (r.1 < 0)), r.2) := by
  have hs : shorten (intFlags c flags) = shorten flags := by
    rw [intFlags_eq]
    rfl
  rw [intArg, if_pos hc, signedArg, smallest, hs,
    show (intFlags c flags).longLong = flags.longLong by rw [intFlags_eq],
    show (intFlags c flags).long = flags.long by rw [intFlags_eq]]
  split_ifs
  · cases vaLong va with
    | none => rfl
    | some r =>
      show ((magnitude r.1).bind fun m => some ((m, decide (r.1.toInt < 0)), r.2)) =
        if r.1.toInt = -2 ^ 63 then none else _
      rw [magnitude_eq (by decide)]
      split_ifs <;> rfl
  · cases vaInt va with
    | none => rfl
    | some r =>
      show ((magnitude (shorten flags r.1)).bind fun m =>
        some ((m, decide ((shorten flags r.1).toInt < 0)), r.2)) =
        if (shorten flags r.1).toInt = -2 ^ 31 then none else _
      rw [magnitude_eq (by decide)]
      split_ifs <;> rfl

theorem intArg_unsigned {va : List VaArg} (hc : ¬ (c = ch 'i' ∨ c = ch 'd')) :
    intArg c (intFlags c flags) va =
      (unsignedArg flags va).map fun r => ((r.1, false), r.2) := by
  have hs : shortenUnsigned (intFlags c flags) = shortenUnsigned flags := by
    rw [intFlags_eq]
    rfl
  rw [intArg, if_neg hc, unsignedArg, hs, show (intFlags c flags).longLong = flags.longLong by
    rw [intFlags_eq], show (intFlags c flags).long = flags.long by rw [intFlags_eq]]
  split_ifs
  · cases vaLong va <;> simp
  · cases vaInt va <;> simp

/-- A conversion puts out a text, wherever it is put. -/
def PutsOut (doubleText : DoubleText) (c : BitVec 8) (flags : Flags) (width precision : ℕ)
    (va va' : List VaArg) (s : List (BitVec 8)) : Prop :=
  ∀ (σ : Type) (out : BitVec 8 → σ → ℕ → ℕ → σ) (maxlen : ℕ) (p : σ × ℕ),
    specifier out maxlen doubleText c flags width precision va p = some (va', puts out maxlen s p)

variable {doubleText : DoubleText} {va va' : List VaArg} {precision : ℕ}

theorem putsOut_integer (hc : conversion c = .integer)
    (ha : intArg c (intFlags c flags) va = some ((value, negative), va')) :
    PutsOut doubleText c flags width precision va va'
      (ntoaText value negative (intBase c) precision width (intFlags c flags)) := by
  intro σ out maxlen p
  rw [specifier_eq]
  unfold specifierText
  rw [hc]
  dsimp only
  rw [ha]
  rfl

/-- Nothing is put out for a number that the conversion does not take. -/
theorem not_putsOut_integer {s : List (BitVec 8)} (hc : conversion c = .integer)
    (ha : intArg c (intFlags c flags) va = none) :
    ¬ PutsOut doubleText c flags width precision va va' s := by
  intro h
  have hone := h Unit (fun _ _ _ _ => ()) 0 ((), 0)
  rw [specifier_eq] at hone
  unfold specifierText at hone
  rw [hc] at hone
  dsimp only at hone
  rw [ha] at hone
  cases hone

/-- A place that keeps all characters. -/
theorem puts_collect (s l : List (BitVec 8)) (n : ℕ) :
    (puts (fun c l _ _ => l ++ [c]) 0 s (l, n)).1 = l ++ s := by
  induction s generalizing l n with
  | nil => exact (List.append_nil l).symm
  | cons a s ih =>
    refine (ih (l ++ [a]) (n + 1)).trans ?_
    rw [List.append_assoc, List.singleton_append]

/-- There is only one text that a conversion puts out. -/
theorem PutsOut.exists_iff {s : List (BitVec 8)}
    (h : PutsOut doubleText c flags width precision va va' s) {P : List (BitVec 8) → Prop} :
    (∃ s, PutsOut doubleText c flags width precision va va' s ∧ P s) ↔ P s := by
  refine ⟨?_, fun hP => ⟨s, h, hP⟩⟩
  rintro ⟨s', h', hP⟩
  have hsame := (h' _ (fun c l _ _ => l ++ [c]) 0 ([], 0)).symm.trans
    (h _ (fun c l _ _ => l ++ [c]) 0 ([], 0))
  have htext := congrArg Prod.fst (Prod.mk.inj (Option.some.inj hsame)).2
  rw [puts_collect, puts_collect, List.nil_append, List.nil_append] at htext
  exact htext ▸ hP

theorem intBase_le : 2 ≤ intBase c ∧ intBase c ≤ 16 := by
  unfold intBase
  split_ifs <;> omega

theorem signedArg_natAbs {v : ℤ} (ha : signedArg flags va = some (v, va')) :
    v.natAbs ≤ 2 ^ 63 := by
  rw [signedArg] at ha
  split_ifs at ha
  · obtain ⟨r, -, hr⟩ := Option.map_eq_some_iff.1 ha
    have h1 := BitVec.toInt_lt (x := r.1)
    have h2 := BitVec.le_toInt (x := r.1)
    cases hr
    omega
  · obtain ⟨r, -, hr⟩ := Option.map_eq_some_iff.1 ha
    have h1 := BitVec.toInt_lt (x := shorten flags r.1)
    have h2 := BitVec.le_toInt (x := shorten flags r.1)
    cases hr
    omega

theorem kept_length_lt (hb : 2 ≤ base) (hv : value < base ^ 31) :
    (kept base flags value).length < ntoaBufferSize := by
  have hdigits := (Nat.digits_length_le_iff (by omega) value).2 hv
  rw [kept, ntoaBufferSize]
  split_ifs
  · exact Nat.zero_lt_succ 31
  · exact Nat.one_lt_succ_succ 30
  · rw [List.length_take]
    omega

/-- There is a place for the sign of a negative number. -/
theorem paddedLength_lt_iff (prec width : ℕ) (flags : Flags) {len : ℕ}
    (hlen : len < ntoaBufferSize) :
    paddedLength len true prec width flags < ntoaBufferSize ↔
      (flags.left ∨ prec < 32 ∧ (flags.zeropad → width ≤ 32)) := by
  rw [ntoaBufferSize] at hlen
  rw [paddedLength, innerWidth, ntoaBufferSize]
  cases flags.left with
  | true => simpa using hlen
  | false =>
    cases flags.zeropad with
    | true =>
      by_cases hw : width = 0
      · simp [hw, hlen]
      · simp [hw, hlen]
        omega
    | false => simp [hlen]

/-- `%d` and `%i` put out a number that is read back, unless it is the smallest one of its type, or
it is negative and 32 zeros take the place of its sign. -/
theorem signed_reads_back_iff (hc : c = ch 'i' ∨ c = ch 'd') {v : ℤ}
    (ha : signedArg flags va = some (v, va')) :
    (∃ s, PutsOut doubleText c flags width precision va va' s ∧ readBack 10 s = v) ↔
      v ≠ smallest flags ∧ (v < 0 → flags.left ∨
        precision < 32 ∧ (flags.zeropad ∧ ¬ flags.precision → width ≤ 32)) := by
  have hconv : conversion c = .integer := by rcases hc with rfl | rfl <;> decide
  have hbase : intBase c = 10 := by rcases hc with rfl | rfl <;> decide
  have harg : intArg c (intFlags c flags) va =
      if v = smallest flags then none else some ((v.natAbs, decide (v < 0)), va') := by
    rw [intArg_signed hc, ha, Option.bind_some]
  by_cases hmin : v = smallest flags
  · -- nothing is put out
    rw [if_pos hmin] at harg
    refine iff_of_false ?_ fun h => h.1 hmin
    rintro ⟨s, hs, -⟩
    exact absurd hs (not_putsOut_integer hconv harg)
  rw [if_neg hmin] at harg
  have hputs : PutsOut doubleText c flags width precision va va' _ := putsOut_integer hconv harg
  rw [hputs.exists_iff, hbase]
  refine Iff.trans ?_ (and_iff_right hmin).symm
  have habs := signedArg_natAbs ha
  have hhash : (intFlags c flags).hash = false := by rw [intFlags_eq, hbase]; simp
  have hlen : (kept 10 (intFlags c flags) v.natAbs).length < ntoaBufferSize :=
    kept_length_lt (by norm_num) (lt_of_le_of_lt habs (by norm_num))
  have hmod : v.natAbs % 10 ^ ntoaBufferSize = v.natAbs :=
    Nat.mod_eq_of_lt (lt_of_le_of_lt habs (by norm_num [ntoaBufferSize]))
  rw [readBack_ntoaText (by norm_num) (by norm_num) hhash, hmod]
  by_cases hv : v < 0
  · have hplace := paddedLength_lt_iff precision width (intFlags c flags) hlen
    have hfields : (intFlags c flags).left = flags.left ∧
        ((intFlags c flags).zeropad ↔ flags.zeropad ∧ ¬ flags.precision) := by
      rw [intFlags_eq]
      simp
    rw [hfields.1, hfields.2] at hplace
    rw [decide_eq_true hv]
    simp only [true_and, hplace, hv, forall_true_left]
    split_ifs with hp
    · exact iff_of_true (by omega) hp
    · exact iff_of_false (by omega) hp
  · rw [decide_eq_false hv, if_neg (by simp)]
    exact iff_of_true (by omega) fun h => absurd h hv

/-- `%8d` puts out `-42`, and `%.40d` loses its sign. -/
theorem signed_reads_back_iff_minus :
    (∃ s, PutsOut (fun _ _ _ _ _ => []) (ch 'd') {} 8 0 [.int (-42)] [] s ∧
      readBack 10 s = -42) ∧
    ¬ ∃ s, PutsOut (fun _ _ _ _ _ => []) (ch 'd') { precision := true } 0 40 [.int (-42)] [] s ∧
      readBack 10 s = -42 := by
  have ha : signedArg {} [.int (-42)] = some (-42, []) := rfl
  have ha' : signedArg { precision := true } [.int (-42)] = some (-42, []) := rfl
  refine ⟨(signed_reads_back_iff (.inr rfl) ha).2 (by decide), fun h => ?_⟩
  exact absurd ((signed_reads_back_iff (.inr rfl) ha').1 h).2 (by decide)

/-- `%u`, `%x`, `%X` and `%o` put out a number that is read back, and `%b` does with numbers below
`2 ^ 32`. -/
theorem unsigned_reads_back_iff (hc : conversion c = .integer) (hd : ¬ (c = ch 'i' ∨ c = ch 'd'))
    (hh : flags.hash = false ∨ c = ch 'u') (ha : unsignedArg flags va = some (value, va')) : ∃ s,
    PutsOut doubleText c flags width precision va va' s ∧
      (readBack (intBase c) s = value ↔ (c = ch 'b' → value < 2 ^ 32)) := by
  have harg : intArg c (intFlags c flags) va = some ((value, false), va') := by
    rw [intArg_unsigned hd, ha]
    rfl
  have hlt : value < 2 ^ 64 := by
    rw [unsignedArg] at ha
    split_ifs at ha
    · obtain ⟨r, -, hr⟩ := Option.map_eq_some_iff.1 ha
      have := r.1.isLt
      cases hr
      exact this
    · obtain ⟨r, -, hr⟩ := Option.map_eq_some_iff.1 ha
      have := (shortenUnsigned flags r.1).isLt
      cases hr
      omega
  have hhash : (intFlags c flags).hash = false := by
    rw [intFlags_eq]
    rcases hh with hh | rfl
    · simp [hh]
    · simp [show intBase (ch 'u') = 10 from by decide]
  refine ⟨_, putsOut_integer hc harg, ?_⟩
  have hpos : intBase c ^ ntoaBufferSize ≠ 0 :=
    (Nat.pow_pos (lt_of_lt_of_le Nat.zero_lt_two intBase_le.1)).ne'
  rw [readBack_ntoaText intBase_le.1 intBase_le.2 hhash, if_neg (by simp), Nat.cast_inj,
    Nat.mod_eq_iff_lt hpos]
  by_cases hb : c = ch 'b'
  · subst hb
    exact ⟨fun h _ => h, fun h => h rfl⟩
  · have hbase : 8 ≤ intBase c := by
      unfold intBase
      split_ifs <;> omega
    have hpow : 2 ^ 64 ≤ intBase c ^ ntoaBufferSize :=
      le_trans (by norm_num [ntoaBufferSize]) (Nat.pow_le_pow_left hbase _)
    exact iff_of_true (hlt.trans_le hpow) fun h => absurd h hb

/-- `%lx` of `0xdeadbeef`. -/
theorem unsigned_reads_back_iff_long : ∃ s,
    PutsOut (fun _ _ _ _ _ => []) (ch 'x') { long := true } 8 0 [.long 0xdeadbeef] [] s ∧
      readBack 16 s = 0xdeadbeef := by
  have ha : unsignedArg { long := true } [.long 0xdeadbeef] = some (0xdeadbeef, []) := rfl
  obtain ⟨s, hs, h⟩ : ∃ s,
      PutsOut (fun _ _ _ _ _ => []) (ch 'x') { long := true } 8 0 [.long 0xdeadbeef] [] s ∧
        (readBack (intBase (ch 'x')) s = (0xdeadbeef : ℕ) ↔ _) :=
    unsigned_reads_back_iff (by decide) (by decide) (Or.inl rfl) ha
  exact ⟨s, hs, h.2 fun hb => absurd hb (by decide)⟩

/-! ### Widths -/

theorem length_append : (append c buf).length =
    if buf.length < ntoaBufferSize then buf.length + 1 else buf.length := by
  rw [append]
  split_ifs <;> simp

/-- How many digits are taken back. -/
def takenBack (len base prec width : ℕ) (flags : Flags) : ℕ :=
  if !flags.precision ∧ len ≠ 0 ∧ (len = prec ∨ len = width) then
    if base = 16 ∧ 2 ≤ len then 2 else 1
  else 0

theorem dropForHash_eq : dropForHash buf base prec width flags =
    buf.take (buf.length - takenBack buf.length base prec width flags) := by
  rw [dropForHash, takenBack]
  by_cases h1 : !flags.precision ∧ buf.length ≠ 0 ∧ (buf.length = prec ∨ buf.length = width)
  · rw [if_pos h1, if_pos h1]
    dsimp only
    rw [List.length_dropLast]
    by_cases h2 : base = 16 ∧ 2 ≤ buf.length
    · rw [if_pos h2, if_pos ⟨by omega, h2.1⟩, List.dropLast_eq_take, List.dropLast_eq_take,
        List.take_take, List.length_take]
      congr 1
      omega
    · rw [if_neg h2, if_neg fun h => h2 ⟨h.2, by omega⟩, List.dropLast_eq_take]
  · rw [if_neg h1, if_neg h1, Nat.sub_zero, List.take_length]

theorem length_hashLetter : (hashLetter buf base flags).length =
    if (base = 16 ∨ base = 2) ∧ buf.length < ntoaBufferSize then buf.length + 1
    else buf.length := by
  rw [hashLetter]
  cases flags.uppercase <;> split_ifs <;> simp_all

/-- The prefix never makes a number shorter. -/
theorem length_handleHash (base prec width : ℕ) (flags : Flags)
    (hlen : buf.length ≤ ntoaBufferSize) :
    buf.length ≤ (handleHash buf base prec width flags).length ∧
      (handleHash buf base prec width flags).length ≤ ntoaBufferSize := by
  rw [handleHash]
  split_ifs
  · dsimp only
    rw [length_append, length_hashLetter, dropForHash_eq, List.length_take, takenBack]
    rw [ntoaBufferSize] at *
    split_ifs <;> omega
  · exact ⟨le_rfl, hlen⟩

theorem length_handleSign (hlen : buf.length ≤ ntoaBufferSize) :
    (handleSign buf negative flags).length =
      min ntoaBufferSize (buf.length + (signOf negative flags).length) := by
  rw [handleSign_eq, List.length_append]
  have hsign : (signOf negative flags).length ≤ 1 := by
    rw [signOf]
    split_ifs <;> exact Nat.le_of_ble_eq_true rfl
  split_ifs with h
  · omega
  · rw [List.length_nil]
    omega

theorem paddedLength_le (negative : Bool) (prec width : ℕ) (flags : Flags) {len : ℕ}
    (hlen : len ≤ ntoaBufferSize) :
    paddedLength len negative prec width flags ≤ ntoaBufferSize := by
  rw [paddedLength]
  split_ifs <;> omega

/-- The buffer of a number has room for what is written into it. -/
theorem length_formatBuf (negative : Bool) (base prec width : ℕ) {l : List ℕ}
    (hl : l.length ≤ ntoaBufferSize) :
    min ntoaBufferSize (paddedLength l.length negative prec width flags +
        (signOf negative flags).length) ≤
      (formatBuf (l.map fun d => digit d flags) negative base prec width flags).length ∧
    (formatBuf (l.map fun d => digit d flags) negative base prec width flags).length ≤
      ntoaBufferSize := by
  have hzeros : (leadingZeros (l.map fun d => digit d flags) negative prec width flags).1.length =
      paddedLength l.length negative prec width flags := by
    have := length_le_paddedLength l.length negative prec width flags
    rw [leadingZeros_fst, List.length_append, List.length_replicate, List.length_map]
    omega
  have hle := paddedLength_le negative prec width flags hl
  obtain ⟨h1, h2⟩ := length_handleHash base prec
    (leadingZeros (l.map fun d => digit d flags) negative prec width flags).2 flags
    (hzeros.trans_le hle)
  rw [hzeros] at h1
  rw [formatBuf, length_handleSign h2]
  omega

theorem innerWidth_of_not (h : flags.left = true ∨ ¬ flags.zeropad = true) :
    innerWidth negative width flags = width := by
  rw [innerWidth, if_neg]
  rintro ⟨h1, -, h2, -⟩
  rcases h with h | h
  · rw [h] at h1
    cases h1
  · exact h h2

/-- The place that is kept for a sign is taken by one. -/
theorem le_innerWidth (negative : Bool) (width : ℕ) (flags : Flags) :
    width ≤ innerWidth negative width flags + (signOf negative flags).length := by
  rw [innerWidth]
  split_ifs with h
  · have hone : 1 ≤ (signOf negative flags).length := by
      have hor := h.2.2.2
      rw [signOf]
      cases negative <;> cases hp : flags.plus <;> cases hs : flags.space <;> simp_all
    omega
  · exact Nat.le_add_right _ _

theorem min_le_paddedLength (len : ℕ) (negative : Bool) (prec width : ℕ)
    (hl : ¬ flags.left = true) (hz : flags.zeropad = true) :
    min ntoaBufferSize (innerWidth negative width flags) ≤
      paddedLength len negative prec width flags := by
  rw [paddedLength, if_neg hl, if_pos hz]
  omega

/-- A conversion of an integer is as wide as it should be, unless more than 32 zeros are asked
for, and its buffer is large enough for what is written into it. -/
theorem width_le_length_iff (hc : conversion c = .integer)
    (ha : intArg c (intFlags c flags) va = some ((value, negative), va')) : ∃ s,
    PutsOut doubleText c flags width precision va va' s ∧
      (width ≤ s.length ↔ (flags.zeropad → flags.left ∨ flags.precision ∨ width ≤ 32)) := by
  refine ⟨_, putsOut_integer hc ha, ?_⟩
  rw [ntoaText]
  set f := if value = 0 then { intFlags c flags with hash := false } else intFlags c flags with hf
  have hfields : f.left = flags.left ∧ (f.zeropad ↔ flags.zeropad ∧ ¬ flags.precision) := by
    rw [hf, intFlags_eq]
    split_ifs <;> simp
  rw [ntoaBuf_eq intBase_le.1, formatText]
  obtain ⟨h1, h2⟩ := length_formatBuf negative (intBase c) precision width
    (kept_length (intBase c) f value)
  rw [leadingZeros_eq]
  dsimp only
  rw [← hfields.1]
  generalize formatBuf _ negative (intBase c) precision width f = buf at *
  rw [ntoaBufferSize] at h1 h2
  rw [revText]
  by_cases hsp : f.left = true ∨ ¬ f.zeropad = true
  · have hright : flags.zeropad = true → f.left = true ∨ flags.precision = true ∨ width ≤ 32 := by
      intro h
      rcases hsp with hl | hz
      · exact .inl hl
      · rw [hfields.2] at hz
        exact .inr (.inl (by_contra fun hp => hz ⟨h, hp⟩))
    refine iff_of_true ?_ hright
    rw [innerWidth_of_not hsp]
    split_ifs with hl hz
    · rw [List.length_append, List.length_reverse, List.length_replicate]
      omega
    · exact absurd hz (hsp.resolve_left hl)
    · rw [List.length_append, List.length_reverse, List.length_replicate]
      omega
  · rw [not_or, not_not] at hsp
    obtain ⟨hl, hz⟩ := hsp
    obtain ⟨hz1, hz2⟩ := hfields.2.1 hz
    have hinner := le_innerWidth negative width f
    have hpad := min_le_paddedLength (kept (intBase c) f value).length negative precision width
      hl hz
    rw [ntoaBufferSize] at hpad
    rw [if_neg hl, if_pos hz, List.length_reverse]
    constructor
    · exact fun h _ => .inr (.inr (by omega))
    · intro h
      rcases h hz1 with h | h | h
      · exact absurd h hl
      · exact absurd h hz2
      · omega

/-- `%040d` is not as wide as it should be. -/
theorem width_le_length_iff_zeros : ∃ s,
    PutsOut (fun _ _ _ _ _ => []) (ch 'd') { zeropad := true } 40 0 [.int 7] [] s ∧
      ¬ 40 ≤ s.length := by
  have ha : intArg (ch 'd') (intFlags (ch 'd') { zeropad := true }) [.int 7] =
    some ((7, false), []) := by decide
  obtain ⟨s, hs, h⟩ : ∃ s,
      PutsOut (fun _ _ _ _ _ => []) (ch 'd') { zeropad := true } 40 0 [.int 7] [] s ∧
        (40 ≤ s.length ↔ _) := width_le_length_iff (by decide) ha
  exact ⟨s, hs, fun h' => by simpa using h.1 h' rfl⟩

/-! ### Prefixes -/

/-- Read a number behind spaces, and behind the prefix of its base. -/
def readPrefixed (base : ℕ) (s : List (BitVec 8)) : ℕ :=
  match s.dropWhile (· = ch ' ') with
  | [] => 0
  | z :: s =>
    if z = ch '0' ∧ (base = 16 ∧ (s.head? = some (ch 'x') ∨ s.head? = some (ch 'X')) ∨
      base = 2 ∧ s.head? = some (ch 'b')) then numeral base 0 s.tail
    else numeral base 0 (z :: s)

theorem readPrefixed_spaces (k : ℕ) :
    readPrefixed base (List.replicate k (ch ' ') ++ s) = readPrefixed base s := by
  induction k with
  | zero => rfl
  | succ k ih =>
    rw [List.replicate_succ, List.cons_append, readPrefixed,
      List.dropWhile_cons_of_pos (by decide), ← readPrefixed, ih]

theorem readPrefixed_cons (hc : c ≠ ch ' ') : readPrefixed base (c :: s) =
    if c = ch '0' ∧ (base = 16 ∧ (s.head? = some (ch 'x') ∨ s.head? = some (ch 'X')) ∨
      base = 2 ∧ s.head? = some (ch 'b')) then numeral base 0 s.tail
    else numeral base 0 (c :: s) := by
  rw [readPrefixed, List.dropWhile_cons_of_neg (by rwa [decide_eq_true_eq])]

/-- A digit is no letter of a prefix. -/
theorem digit_ne {d : ℕ} (hb : base ≤ 16) (hd : d < base)
    (hc : ∀ e, digitVal c = some e → base ≤ e) : digit d flags ≠ c := by
  intro h
  have := hc d (h ▸ digitVal_digit (hd.trans_le hb))
  omega

theorem readPrefixed_digits {l : List ℕ} (hb : base ≤ 16) (hl : ∀ d ∈ l, d < base) (k : ℕ) :
    readPrefixed base ((l.map fun d => digit d flags) ++ List.replicate k (ch ' ')) =
      ofDigits base l := by
  have hnum := numeral_digits 0 flags (List.replicate k (ch ' ')) hb hl
  rw [numeral_spaces] at hnum
  have hspace : ∀ e, digitVal (ch ' ') = some e → base ≤ e := fun e he => by
    rw [digitVal_space] at he
    cases he
  cases l with
  | nil =>
    have hspaces : readPrefixed base (List.replicate k (ch ' ') ++ []) = 0 :=
      readPrefixed_spaces k
    rw [List.append_nil] at hspaces
    exact hspaces
  | cons d l =>
    -- what comes behind the first digit is a digit or a space
    have hhead : ∀ a, ((l.map fun d => digit d flags) ++ List.replicate k (ch ' ')).head? = some a →
        a = ch ' ' ∨ ∃ e < base, a = digit e flags := by
      intro a ha
      cases l with
      | nil =>
        cases k with
        | zero => cases ha
        | succ k => exact .inl (Option.some.inj ha).symm
      | cons e l =>
        exact .inr ⟨e, hl e (by simp), (Option.some.inj ha).symm⟩
    have hno : ∀ a, (∀ e, digitVal a = some e → base ≤ e) → a ≠ ch ' ' →
        ((l.map fun d => digit d flags) ++ List.replicate k (ch ' ')).head? ≠ some a := by
      intro a ha hsp h
      rcases hhead a h with h | ⟨e, he, h⟩
      · exact hsp h
      · exact digit_ne hb he ha h.symm
    rw [List.map_cons, List.cons_append,
      readPrefixed_cons (digit_ne hb (hl d List.mem_cons_self) hspace), if_neg, ofDigits, ← hnum]
    · rfl
    · rintro ⟨-, ⟨-, h | h⟩ | ⟨h2, h⟩⟩
      · exact hno _ (fun e he => by cases he) (by decide) h
      · exact hno _ (fun e he => by cases he) (by decide) h
      · refine hno _ (fun e he => ?_) (by decide) h
        have he' : (11 : ℕ) = e := Option.some.inj he
        omega

/-- The letter in the prefix of a base. -/
def letterOf (base : ℕ) (flags : Flags) : BitVec 8 :=
  if base = 16 then if flags.uppercase then ch 'X' else ch 'x' else ch 'b'

theorem hashLetter_eq (hb : base = 16 ∨ base = 2) :
    hashLetter buf base flags = append (letterOf base flags) buf := by
  rw [hashLetter, letterOf, append]
  rcases hb with rfl | rfl
  · cases flags.uppercase <;> simp
  · simp

theorem hashLetter_of_not (hb : ¬ (base = 16 ∨ base = 2)) : hashLetter buf base flags = buf := by
  rw [not_or] at hb
  rw [hashLetter, if_neg fun h => hb.1 h.1, if_neg fun h => hb.1 h.1, if_neg fun h => hb.2 h.1]

theorem digitVal_letterOf (flags : Flags) (hb : base = 16 ∨ base = 2) :
    ∀ e, digitVal (letterOf base flags) = some e → base ≤ e := by
  rcases hb with rfl | rfl
  · cases h : flags.uppercase
    · simp [letterOf, h, show digitVal (ch 'x') = none from by decide]
    · simp [letterOf, h, show digitVal (ch 'X') = none from by decide]
  · intro e he
    have hlet : letterOf 2 flags = ch 'b' := if_neg (by decide)
    rw [hlet] at he
    have he' : (11 : ℕ) = e := Option.some.inj he
    omega

/-- There are spaces before or behind a number. -/
theorem revText_eq (buf : List (BitVec 8)) (width : ℕ) (flags : Flags) : ∃ i j : ℕ,
    revText buf width flags =
    List.replicate i (ch ' ') ++ (buf.reverse ++ List.replicate j (ch ' ')) := by
  rw [revText]
  split_ifs
  · exact ⟨0, _, rfl⟩
  · exact ⟨0, 0, (List.append_nil _).symm⟩
  · exact ⟨_, 0, congrArg (_ ++ ·) (List.append_nil _).symm⟩

/-- Digits behind a prefix; of a prefix without room for its zero the letter is left. -/
theorem readPrefixed_letter {l : List ℕ} (hb : base = 16 ∨ base = 2) (hl : ∀ d ∈ l, d < base)
    (hlen : l.length ≤ ntoaBufferSize) :
    readPrefixed base (revText (append (ch '0') (append (letterOf base flags)
      (l.map fun d => digit d flags))) width flags) =
      if l.length = 31 then 0 else Nat.ofDigits base l := by
  have hb' : base ≤ 16 := by omega
  have hrev : ∀ d ∈ l.reverse, d < base := fun d hd => hl d (List.mem_reverse.1 hd)
  have hletter := digitVal_letterOf flags hb
  obtain ⟨i, j, hrt⟩ := revText_eq (append (ch '0') (append (letterOf base flags)
    (l.map fun d => digit d flags))) width flags
  have hmap : (l.map fun d => digit d flags).reverse = l.reverse.map fun d => digit d flags :=
    List.map_reverse.symm
  have hof : ofDigits base l.reverse = Nat.ofDigits base l := by
    have := ofDigits_zeros base 0 l
    rwa [List.replicate_zero, List.nil_append] at this
  have hnsp : letterOf base flags ≠ ch ' ' := by
    rw [letterOf]
    split_ifs <;> decide
  rw [hrt, readPrefixed_spaces, append, append, List.length_map]
  rw [ntoaBufferSize] at *
  by_cases h32 : l.length < 32
  · rw [if_pos h32, List.length_append, List.length_map, List.length_singleton]
    by_cases h31 : l.length + 1 < 32
    · -- the whole prefix
      rw [if_pos h31, if_neg (by omega), List.reverse_append, List.reverse_append, hmap]
      show readPrefixed base (ch '0' :: (letterOf base flags :: _)) = _
      have hpre : base = 16 ∧ (some (letterOf base flags) = some (ch 'x') ∨
          some (letterOf base flags) = some (ch 'X')) ∨
          base = 2 ∧ some (letterOf base flags) = some (ch 'b') := by
        rcases hb with rfl | rfl
        · cases h : flags.uppercase <;> simp [letterOf, h]
        · simp [letterOf]
      rw [readPrefixed_cons (by decide), if_pos ⟨rfl, hpre⟩, ← hof, ofDigits]
      have hnum := numeral_digits 0 flags (List.replicate j (ch ' ')) hb' hrev
      rwa [numeral_spaces] at hnum
    · -- the letter without its zero
      rw [if_neg h31, if_pos (by omega), List.reverse_append, hmap]
      show readPrefixed base (letterOf base flags :: _) = _
      have hnz : letterOf base flags ≠ ch '0' := by
        rw [letterOf]
        split_ifs <;> decide
      rw [readPrefixed_cons hnsp, if_neg fun h => hnz h.1, numeral]
      cases he : digitVal (letterOf base flags) with
      | none => rfl
      | some e =>
        dsimp only
        rw [if_neg (Nat.not_lt.2 (hletter e he))]
  · rw [if_neg h32, List.length_map, if_neg h32, if_neg (by omega), hmap,
      readPrefixed_digits hb' hrev, hof]

/-- In base 8 the prefix is one more digit. -/
theorem readPrefixed_octal {l : List ℕ} (hl : ∀ d ∈ l, d < 8) :
    readPrefixed 8 (revText (append (ch '0') (l.map fun d => digit d flags)) width flags) =
      Nat.ofDigits 8 l := by
  obtain ⟨i, j, hrt⟩ := revText_eq (append (ch '0') (l.map fun d => digit d flags)) width flags
  have hrev : ∀ k, ∀ d ∈ List.replicate k 0 ++ l.reverse, d < 8 := by
    intro k d hd
    rw [List.mem_append, List.mem_reverse] at hd
    rcases hd with hd | hd
    · rw [List.eq_of_mem_replicate hd]
      omega
    · exact hl d hd
  have hbuf : ∃ k, (append (ch '0') (l.map fun d => digit d flags)).reverse =
      (List.replicate k 0 ++ l.reverse).map fun d => digit d flags := by
    rw [append]
    split_ifs
    · exact ⟨1, by rw [List.reverse_append, List.map_append, List.map_reverse]; rfl⟩
    · exact ⟨0, by rw [List.map_append, List.map_reverse]; rfl⟩
  obtain ⟨k, hk⟩ := hbuf
  rw [hrt, readPrefixed_spaces, hk, readPrefixed_digits (by norm_num) (hrev k), ofDigits_zeros]

/-- The digits that are not taken back. -/
theorem ofDigits_take (value : ℕ) (flags : Flags) (hb : 2 ≤ base) {q : ℕ}
    (hq : q ≤ ntoaBufferSize) (k : ℕ) :
    Nat.ofDigits base ((kept base flags value ++ List.replicate k 0).take q) =
      value % base ^ q := by
  have hlt : ∀ d ∈ kept base flags value ++ List.replicate k 0, d < base := by
    intro d hd
    rcases List.mem_append.1 hd with hd | hd
    · exact kept_lt hb d hd
    · rw [List.eq_of_mem_replicate hd]
      omega
  have hzeros : Nat.ofDigits base (List.replicate k 0) = 0 := by
    induction k with
    | zero => rfl
    | succ k ih =>
      have ih' := ih fun d hd => hlt d (by
        rw [List.replicate_succ']
        simp only [List.mem_append] at hd ⊢
        tauto)
      rw [List.replicate_succ, Nat.ofDigits_cons, ih']
      rfl
  rw [← Nat.ofDigits_mod_pow_eq_ofDigits_take q (by omega) _ hlt, Nat.ofDigits_append, hzeros,
    Nat.mul_zero, Nat.add_zero, ofDigits_kept hb, Nat.mod_mod_of_dvd _ (Nat.pow_dvd_pow base hq)]

/-- How many digits are put out behind the prefix. -/
def hashedLength (value base prec width : ℕ) (flags : Flags) : ℕ :=
  paddedLength (kept base flags value).length false prec width flags -
    takenBack (paddedLength (kept base flags value).length false prec width flags) base prec width
      flags

theorem hashedLength_le (value base prec width : ℕ) (flags : Flags) :
    hashedLength value base prec width flags ≤ ntoaBufferSize :=
  (Nat.sub_le _ _).trans (paddedLength_le false prec width flags (kept_length base flags value))

/-- What is read back of a text with a prefix. -/
theorem readPrefixed_ntoaText (hb : base = 16 ∨ base = 8 ∨ base = 2) (hh : flags.hash = true)
    (hp : flags.plus = false) (hs : flags.space = false) (hv : value ≠ 0) :
    readPrefixed base (ntoaText value false base prec width flags) =
      if hashedLength value base prec width flags = 31 ∧ base ≠ 8 then 0
      else value % base ^ hashedLength value base prec width flags := by
  have hb2 : 2 ≤ base := by omega
  have hsign : signOf false flags = [] := by simp [signOf, hp, hs]
  have hinner : innerWidth false width flags = width := by simp [innerWidth, hp, hs]
  have hsnd : ∀ buf, (leadingZeros buf false prec width flags).2 = width := fun buf => by
    rw [leadingZeros_eq, hinner]
  have hzeros : (leadingZeros ((kept base flags value).map fun d => digit d flags) false prec width
      flags).1 = (kept base flags value ++ List.replicate (paddedLength
        (kept base flags value).length false prec width flags -
          (kept base flags value).length) 0).map fun d => digit d flags := by
    rw [leadingZeros_fst, List.length_map, List.map_append, List.map_replicate]
    rfl
  rw [ntoaText, if_neg hv, ntoaBuf_eq hb2, formatText, formatBuf, handleSign_eq, hsign, ite_self,
    List.append_nil, hsnd, hzeros, handleHash, if_pos hh]
  dsimp only
  set K := kept base flags value ++ List.replicate
    (paddedLength (kept base flags value).length false prec width flags -
      (kept base flags value).length) 0 with hK
  have hlen : K.length = paddedLength (kept base flags value).length false prec width flags := by
    have := length_le_paddedLength (kept base flags value).length false prec width flags
    rw [hK, List.length_append, List.length_replicate]
    omega
  have hlt : ∀ d ∈ K.take (hashedLength value base prec width flags), d < base := by
    intro d hd
    rcases List.mem_append.1 (hK ▸ List.mem_of_mem_take hd) with hd | hd
    · exact kept_lt hb2 d hd
    · rw [List.eq_of_mem_replicate hd]
      omega
  have htake : (K.take (hashedLength value base prec width flags)).length =
      hashedLength value base prec width flags := by
    rw [List.length_take, hlen]
    exact Nat.min_eq_left (Nat.sub_le _ _)
  have hof := ofDigits_take value flags hb2 (hashedLength_le value base prec width flags)
    (paddedLength (kept base flags value).length false prec width flags -
      (kept base flags value).length)
  rw [dropForHash_eq, List.length_map, hlen, ← List.map_take, ← hashedLength]
  by_cases h8 : base = 8
  · subst h8
    rw [hashLetter_of_not (by omega), readPrefixed_octal hlt, if_neg fun h => h.2 rfl, hK, hof]
  · rw [hashLetter_eq (by omega),
      readPrefixed_letter (by omega) hlt (htake.trans_le (hashedLength_le ..)), htake, hK, hof]
    exact if_congr (by simp [h8]) rfl rfl

/-- With `#` a number other than zero is read back just when none of its digits is taken back for
the prefix, and the prefix is whole. -/
theorem hash_reads_back_iff (hc : conversion c = .integer) (hd : ¬ (c = ch 'i' ∨ c = ch 'd'))
    (hu : c ≠ ch 'u') (hh : flags.hash = true) (ha : unsignedArg flags va = some (value, va'))
    (hv : value ≠ 0) : ∃ s,
    PutsOut doubleText c flags width precision va va' s ∧
      (readPrefixed (intBase c) s = value ↔
        value < intBase c ^ hashedLength value (intBase c) precision width (intFlags c flags) ∧
        (hashedLength value (intBase c) precision width (intFlags c flags) = 31 → c = ch 'o')) := by
  have harg : intArg c (intFlags c flags) va = some ((value, false), va') := by
    rw [intArg_unsigned hd, ha]
    rfl
  have hbase : (intBase c = 16 ∨ intBase c = 8 ∨ intBase c = 2) ∧
      (intBase c = 8 ↔ c = ch 'o') := by
    have hcase : c = ch 'x' ∨ c = ch 'X' ∨ c = ch 'o' ∨ c = ch 'b' := by
      unfold conversion at hc
      split_ifs at hc with h
      tauto
    rcases hcase with rfl | rfl | rfl | rfl <;> decide
  have hflags : (intFlags c flags).hash = true ∧ (intFlags c flags).plus = false ∧
      (intFlags c flags).space = false := by
    rw [intFlags_eq]
    have hne : intBase c ≠ 10 := by omega
    simp [hh, hne, hd]
  refine ⟨_, putsOut_integer hc harg, ?_⟩
  rw [readPrefixed_ntoaText hbase.1 hflags.1 hflags.2.1 hflags.2.2 hv, ← hbase.2]
  have hpos : intBase c ^ hashedLength value (intBase c) precision width (intFlags c flags) ≠ 0 :=
    (Nat.pow_pos (lt_of_lt_of_le Nat.zero_lt_two intBase_le.1)).ne'
  split_ifs with h
  · exact iff_of_false (Ne.symm hv) fun h' => h.2 (h'.2 h.1)
  · rw [Nat.mod_eq_iff_lt hpos]
    exact ⟨fun hlt => ⟨hlt, fun h31 => by_contra fun h8 => h ⟨h31, h8⟩⟩, fun h' => h'.1⟩

/-- `%#4x` loses two digits of `0x1234`. -/
theorem hash_reads_back_iff_width : ∃ s,
    PutsOut (fun _ _ _ _ _ => []) (ch 'x') { hash := true } 4 0 [.int 0x1234] [] s ∧
      ¬ readPrefixed 16 s = (0x1234 : ℕ) := by
  have ha : unsignedArg { hash := true } [.int 0x1234] = some (0x1234, []) := rfl
  obtain ⟨s, hs, h⟩ : ∃ s,
      PutsOut (fun _ _ _ _ _ => []) (ch 'x') { hash := true } 4 0 [.int 0x1234] [] s ∧
        (readPrefixed (intBase (ch 'x')) s = (0x1234 : ℕ) ↔ _) :=
    hash_reads_back_iff (by decide) (by decide) (by decide) rfl ha (by decide)
  exact ⟨s, hs, fun h' => absurd (h.1 h').1 (by decide)⟩

end AcoOs.Vsnprintf
