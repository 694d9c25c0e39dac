/-
The copies of `string.c`.

`memmove` copies from the first byte to the last, whatever the regions are, and counts in an `int`.
The bounded copies stop at the end of the string, at the limit of the caller or at the end of the
buffer, and put the terminator behind the last byte or over it.

* **`memmove_moves_iff`** — `memmove` is right where the destination does not begin inside the
  source, and else only where the source repeats itself; the `int` allows less than `2 ^ 31` bytes;
* **`not_memmove_moves`** — two bytes that are moved up by one;
* **`string_copies_truncate`** — `strcpy_safe` and `strncpy_safe` leave the longest prefix that the
  limits allow, and write in the buffer only.
-/
import AcoOs.SlabBytes

namespace AcoOs

/-- A store of one byte. -/
def Bytes.set (m : Bytes) (a : ℕ) (c : BitVec 8) : Bytes := fun b => if b = a then c else m b

theorem Bytes.set_self (m : Bytes) (a : ℕ) (c : BitVec 8) : m.set a c a = c := if_pos rfl

theorem Bytes.set_of_ne (m : Bytes) {a b : ℕ} (c : BitVec 8) (h : b ≠ a) : m.set a c b = m b :=
  if_neg h

/-- The first `int` that there is not. -/
def intEnd : ℕ := 2 ^ 31

variable {m m' : Bytes} {dst src n i len dest maxSize : ℕ}

/-! ### `memmove` -/

/-- The bytes after `i` iterations of the loop of `memmove`. -/
def moveBytes (m : Bytes) (str1 str2 : ℕ) : ℕ → Bytes
  | 0 => m
  | i + 1 => (moveBytes m str1 str2 i).set (str1 + i) (moveBytes m str1 str2 i (str2 + i))

/-- `memmove`; `none` when the `int` of the loop overflows. -/
def memmove (m : Bytes) (str1 str2 n : ℕ) : Option Bytes :=
  if str1 = 0 ∨ str2 = 0 ∨ n = 0 then some m
  else if n < intEnd then some (moveBytes m str1 str2 n)
  else none

/-- The destination has the bytes that the source had, and the rest is as it was. -/
structure BytesMoved (m m' : Bytes) (dst src n : ℕ) : Prop where
  bytes : ∀ i < n, m' (dst + i) = m (src + i)
  rest : ∀ a, a < dst ∨ dst + n ≤ a → m' a = m a

/-- The offset of the byte that arrives at an offset: behind the begin of the destination the loop
reads what it has written. -/
def movedOffset (dst src i : ℕ) : ℕ := if src < dst then i % (dst - src) else i

theorem moveBytes_rest (m : Bytes) (dst src n : ℕ) {a : ℕ} (h : a < dst ∨ dst + n ≤ a) :
    moveBytes m dst src n a = m a := by
  induction n with
  | zero => rfl
  | succ n ih =>
    rw [moveBytes, Bytes.set_of_ne _ _ (by omega)]
    exact ih (by omega)

theorem moveBytes_bytes (m : Bytes) (dst src n : ℕ) (h : i < n) :
    moveBytes m dst src n (dst + i) = m (src + movedOffset dst src i) := by
  induction n generalizing i with
  | zero => exact absurd h (Nat.not_lt_zero i)
  | succ n ih =>
    rw [moveBytes]
    by_cases hi : i = n
    swap
    · rw [Bytes.set_of_ne _ _ (by omega)]
      exact ih (by omega)
    rw [hi, Bytes.set_self]
    unfold movedOffset
    by_cases hlt : src < dst
    swap
    · rw [if_neg hlt]
      exact moveBytes_rest m dst src n (by omega)
    rw [if_pos hlt]
    by_cases hn : n < dst - src
    · -- the byte is below the destination
      rw [Nat.mod_eq_of_lt hn]
      exact moveBytes_rest m dst src n (by omega)
    · have hback := ih (i := n - (dst - src)) (by omega)
      rw [movedOffset, if_pos hlt, show dst + (n - (dst - src)) = src + n by omega] at hback
      rw [hback, Nat.mod_eq_sub_mod (Nat.le_of_not_lt hn)]

/-- `memmove` moves the bytes if and only if there are less than `2 ^ 31`, and the source has the
period of the distance where the destination begins inside it. -/
theorem memmove_moves_iff (m : Bytes) (dst src n : ℕ) (hdst : dst ≠ 0) (hsrc : src ≠ 0) :
    (∃ m', memmove m dst src n = some m' ∧ BytesMoved m m' dst src n) ↔
      n < 2 ^ 31 ∧ (src < dst → dst < src + n →
        ∀ i < n, m (src + i % (dst - src)) = m (src + i)) := by
  have hrun : n < 2 ^ 31 → memmove m dst src n = some (moveBytes m dst src n) := by
    intro hn
    unfold memmove
    by_cases h0 : n = 0
    · rw [if_pos (.inr (.inr h0)), h0]
      rfl
    · rw [if_neg (by tauto), if_pos (show n < intEnd from hn)]
  constructor
  · -- the loop reads what it has written when the regions overlap upwards
    rintro ⟨m', heq, hm⟩
    have hn : n < 2 ^ 31 := by
      by_contra hn
      rw [memmove, if_neg (by omega), if_neg (show ¬ n < intEnd from hn)] at heq
      cases heq
    refine ⟨hn, fun hlt _ i hi => ?_⟩
    rw [hrun hn] at heq
    cases heq
    rw [← hm.bytes i hi, moveBytes_bytes m dst src n hi, movedOffset, if_pos hlt]
  · rintro ⟨hn, hper⟩
    refine ⟨_, hrun hn, fun i hi => ?_, fun a ha => moveBytes_rest m dst src n ha⟩
    rw [moveBytes_bytes m dst src n hi, movedOffset]
    by_cases hlt : src < dst
    swap
    · rw [if_neg hlt]
    rw [if_pos hlt]
    by_cases hin : dst < src + n
    · exact hper hlt hin i hi
    · rw [Nat.mod_eq_of_lt (by omega)]

/-- Bytes that overlap with no harm: they are moved down. -/
theorem memmove_moves_down : ∃ m', memmove (fun a => BitVec.ofNat 8 a) 1 2 3 = some m' ∧
    BytesMoved (fun a => BitVec.ofNat 8 a) m' 1 2 3 :=
  (memmove_moves_iff (fun a => BitVec.ofNat 8 a) 1 2 3 (by decide) (by decide)).2
    ⟨by norm_num, fun h => absurd h (by decide)⟩

/-- The second byte is lost when two bytes are moved up by one. -/
theorem not_memmove_moves : ¬ ∃ m', memmove (fun a => BitVec.ofNat 8 a) 2 1 2 = some m' ∧
    BytesMoved (fun a => BitVec.ofNat 8 a) m' 2 1 2 := by
  rintro ⟨m', heq, hm⟩
  cases heq
  exact absurd (hm.bytes 1 (by decide)) (by decide)

/-! ### `strcpy_safe` and `strncpy_safe` -/

/-- The loop of the bounded copies from `i` on, when the limits allow `left` more iterations: `i`
behind it, and the bytes. -/
def copyString (m : Bytes) (dest src : ℕ) : ℕ → ℕ → Option (ℕ × Bytes)
  | 0, i => some (i, m)
  | left + 1, i =>
    if m (src + i) ≠ 0 then
      if i + 1 < intEnd then
        copyString (m.set (dest + i) (m (src + i))) dest src left (i + 1)
      else none
    else some (i, m)

/-- What follows the loop. -/
def terminate (m : Bytes) (dest i maxSize : ℕ) : Bytes :=
  if maxSize ≤ i then m.set (dest + (i - 1)) 0 else m.set (dest + i) 0

/-- `strcpy_safe`; `none` when `i` overflows. -/
def strcpySafe (m : Bytes) (dest src maxSize : ℕ) : Option Bytes :=
  if maxSize = 0 then some m
  else if src = 0 ∨ dest = 0 then some m
  else (copyString m dest src maxSize 0).map fun r => terminate r.2 dest r.1 maxSize

/-- `strncpy_safe`; `none` when `i` overflows. -/
def strncpySafe (m : Bytes) (dest src n maxSize : ℕ) : Option Bytes :=
  if maxSize = 0 ∨ n = 0 then some m
  else if src = 0 ∨ dest = 0 then some m
  else (copyString m dest src (min n maxSize) 0).map fun r => terminate r.2 dest r.1 maxSize

/-- A string of `len` bytes. -/
structure IsString (m : Bytes) (src len : ℕ) : Prop where
  bytes : ∀ i < len, m (src + i) ≠ 0
  nul : m (src + len) = 0

/-- The buffer holds the first `k` bytes of the string, and nothing else has changed. -/
structure Truncated (m m' : Bytes) (dest src k maxSize : ℕ) : Prop where
  fits : k < maxSize
  string : IsString m' dest k
  bytes : ∀ i < k, m' (dest + i) = m (src + i)
  rest : ∀ a, a < dest ∨ dest + maxSize ≤ a → m' a = m a

/-- The first `i` bytes are copied. -/
structure Copied (m m' : Bytes) (dest src i : ℕ) : Prop where
  bytes : ∀ j < i, m' (dest + j) = m (src + j)
  rest : ∀ a, a < dest ∨ dest + i ≤ a → m' a = m a

/-- One more byte. -/
theorem Copied.succ (h : Copied m m' dest src i)
    (hread : m' (src + i) = m (src + i)) :
    Copied m (m'.set (dest + i) (m' (src + i))) dest src (i + 1) where
  bytes j hj := by
    by_cases hji : j = i
    · rw [hji, Bytes.set_self, hread]
    · rw [Bytes.set_of_ne _ _ (by omega)]
      exact h.bytes j (by omega)
  rest a ha := by
    rw [Bytes.set_of_ne _ _ (by omega)]
    exact h.rest a (by omega)

/-- The loop copies to the end of the string, or as far as the limits allow. -/
theorem copyString_spec (hsrc : IsString m src len) (hlen : len < 2 ^ 31)
    (hapart : dest + maxSize ≤ src ∨ src + len < dest) (left : ℕ) (hi : i ≤ len)
    (hmax : i + left ≤ maxSize) (h : Copied m m' dest src i) :
    ∃ m'', copyString m' dest src left i = some (min len (i + left), m'') ∧
      Copied m m'' dest src (min len (i + left)) := by
  have hread : ∀ i ≤ len, i ≤ maxSize → ∀ m₁, Copied m m₁ dest src i →
      m₁ (src + i) = m (src + i) := fun i h1 h2 m₁ hc => hc.rest _ (by omega)
  induction left generalizing i m' with
  | zero =>
    rw [Nat.add_zero, Nat.min_eq_right hi]
    exact ⟨m', rfl, h⟩
  | succ left ih =>
    have hchar := hread i hi (by omega) m' h
    rcases Nat.lt_or_eq_of_le hi with hlt | rfl
    · have hne : m' (src + i) ≠ 0 := by
        rw [hchar]
        exact hsrc.bytes i hlt
      obtain ⟨m'', heq, hc⟩ := ih (i := i + 1) hlt (by omega) (h.succ hchar)
      rw [show i + 1 + left = i + (left + 1) by omega] at heq hc
      refine ⟨m'', ?_, hc⟩
      rw [copyString, if_pos hne, if_pos (show i + 1 < intEnd from lt_of_le_of_lt hlt hlen)]
      exact heq
    · have hnul : m' (src + i) = 0 := by
        rw [hchar]
        exact hsrc.nul
      rw [Nat.min_eq_left (Nat.le_add_right i _)]
      refine ⟨m', ?_, h⟩
      rw [copyString, if_neg (not_not.2 hnul)]

/-- The terminator makes a string of what is copied. -/
theorem Copied.terminate (hsrc : IsString m src len) (hi : i ≤ len) (hmax : i ≤ maxSize)
    (hpos : 0 < maxSize) (h : Copied m m' dest src i) :
    Truncated m (terminate m' dest i maxSize) dest src (min i (maxSize - 1)) maxSize := by
  have hterm : AcoOs.terminate m' dest i maxSize = m'.set (dest + min i (maxSize - 1)) 0 := by
    unfold AcoOs.terminate
    by_cases hle : maxSize ≤ i
    · rw [if_pos hle, show min i (maxSize - 1) = i - 1 by omega]
    · rw [if_neg hle, show min i (maxSize - 1) = i by omega]
  have hbytes : ∀ j < min i (maxSize - 1),
      m'.set (dest + min i (maxSize - 1)) 0 (dest + j) = m (src + j) := by
    intro j hj
    rw [Bytes.set_of_ne _ _ (by omega)]
    exact h.bytes j (by omega)
  rw [hterm]
  refine ⟨by omega, ⟨fun j hj => ?_, Bytes.set_self _ _ _⟩, hbytes, fun a ha => ?_⟩
  · rw [hbytes j hj]
    exact hsrc.bytes j (by omega)
  · rw [Bytes.set_of_ne _ _ (by omega)]
    exact h.rest a (by omega)

/-- For every string of less than `2 ^ 31` bytes and every buffer apart from it, the bounded copies
leave the prefix that the limits allow in the buffer, and write nowhere else. -/
theorem string_copies_truncate (m : Bytes) (dest src len maxSize : ℕ) (hsrc : IsString m src len)
    (hlen : len < 2 ^ 31) (hmax : 1 ≤ maxSize)
    (hapart : dest + maxSize ≤ src ∨ src + len < dest) (hdest : dest ≠ 0) (hnull : src ≠ 0) :
    (∃ m', strcpySafe m dest src maxSize = some m' ∧
      Truncated m m' dest src (min len (maxSize - 1)) maxSize) ∧
    ∀ n, 1 ≤ n → ∃ m', strncpySafe m dest src n maxSize = some m' ∧
      Truncated m m' dest src (min len (min n (maxSize - 1))) maxSize := by
  have hzero : Copied m m dest src 0 := ⟨fun j hj => absurd hj (Nat.not_lt_zero j), fun _ _ => rfl⟩
  have hnonnull : ¬ (src = 0 ∨ dest = 0) := not_or.2 ⟨hnull, hdest⟩
  -- both functions run the same loop, with different limits
  have hloop : ∀ limit ≤ maxSize, ∃ m', copyString m dest src limit 0 = some (min len limit, m') ∧
      Truncated m (terminate m' dest (min len limit) maxSize) dest src
        (min (min len limit) (maxSize - 1)) maxSize := by
    intro limit hle
    obtain ⟨m', heq, hc⟩ := copyString_spec hsrc hlen hapart limit (Nat.zero_le len)
      (by rwa [Nat.zero_add]) hzero
    rw [Nat.zero_add] at heq hc
    exact ⟨m', heq, hc.terminate hsrc (Nat.min_le_left _ _) (by omega) hmax⟩
  constructor
  · obtain ⟨m', heq, ht⟩ := hloop maxSize le_rfl
    rw [show min (min len maxSize) (maxSize - 1) = min len (maxSize - 1) by omega] at ht
    refine ⟨_, ?_, ht⟩
    rw [strcpySafe, if_neg (by omega), if_neg hnonnull, heq]
    rfl
  · intro n hn
    obtain ⟨m', heq, ht⟩ := hloop (min n maxSize) (Nat.min_le_right _ _)
    rw [show min (min len (min n maxSize)) (maxSize - 1) = min len (min n (maxSize - 1)) by
      omega] at ht
    refine ⟨_, ?_, ht⟩
    rw [strncpySafe, if_neg (by omega), if_neg hnonnull, heq]
    rfl

/-- A string of three bytes in a buffer of three. -/
theorem string_copies_truncate_three :
    ∃ m', strcpySafe (fun a => if a = 103 then 0 else BitVec.ofNat 8 a) 200 100 3 = some m' ∧
      m' 200 = 100 ∧ m' 201 = 101 ∧ m' 202 = 0 ∧ m' 203 = 203 := by
  have hstring : IsString (fun a => if a = 103 then 0 else BitVec.ofNat 8 a) 100 3 :=
    ⟨by decide, rfl⟩
  obtain ⟨⟨m', heq, ht⟩, -⟩ := string_copies_truncate _ 200 100 3 3 hstring (by norm_num)
    (by decide) (.inr (by decide)) (by decide) (by decide)
  exact ⟨m', heq, ht.bytes 0 (by decide), ht.bytes 1 (by decide), ht.string.nul,
    ht.rest 203 (.inr (by decide))⟩

end AcoOs
