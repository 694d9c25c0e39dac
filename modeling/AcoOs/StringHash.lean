/-
The two hash functions of `math.c`.

Their loop tests `str[i]` and takes `*str++`, so the byte that is tested is twice as far from the
begin as the byte that is taken.

* **`string_hash_iff`** — the loop takes exactly the bytes before the first NUL, and reads only
  bytes below the size, just when the size is at most 1, or the first NUL at an even index is below
  the size and twice as far from the begin as the first NUL; then both hashes are those of the
  text;
* **`not_string_hash`** — of two bytes `SDBMHash` tests the first and the third.
-/
import Mathlib.Data.BitVec
import Mathlib.Tactic.Ring
import AcoOs.SlabAllocator

namespace AcoOs

variable {step : BitVec 32 → BitVec 8 → BitVec 32} {str : ℕ → BitVec 8} {i k n : ℕ}

/-! ### `JSHash` and `SDBMHash` -/

/-- The statement in the loop of `JSHash`; a `char` has no sign on this machine. -/
def jsStep (hash : BitVec 32) (c : BitVec 8) : BitVec 32 :=
  hash ^^^ (hash <<< 5 + c.setWidth 32 + hash >>> 2)

/-- The statement in the loop of `SDBMHash`. -/
def sdbmStep (hash : BitVec 32) (c : BitVec 8) : BitVec 32 :=
  c.setWidth 32 + hash <<< 6 + hash <<< 16 - hash

/-- The loop of both, with `n` iterations left: `str` has moved `i` bytes, so `str[i]` is byte
`2 * i`. -/
def hashLoop (step : BitVec 32 → BitVec 8 → BitVec 32) (str : ℕ → BitVec 8) :
    ℕ → ℕ → BitVec 32 → BitVec 32
  | 0, _, hash => hash
  | n + 1, i, hash =>
    if str (2 * i) ≠ 0 then hashLoop step str n (i + 1) (step hash (str i)) else hash

/-- The bytes that the loop reads. -/
def hashReads (str : ℕ → BitVec 8) : ℕ → ℕ → List ℕ
  | 0, _ => []
  | n + 1, i => if str (2 * i) ≠ 0 then 2 * i :: i :: hashReads str n (i + 1) else [2 * i]

/-- The bytes that the loop takes. -/
def hashTaken (str : ℕ → BitVec 8) : ℕ → ℕ → List (BitVec 8)
  | 0, _ => []
  | n + 1, i => if str (2 * i) ≠ 0 then str i :: hashTaken str n (i + 1) else []

/-- `JSHash`. -/
def jsHash (str : ℕ → BitVec 8) (size : ℕ) : BitVec 32 :=
  hashLoop jsStep str size 0 1315423911#32 &&& 0x7FFFFFFF#32

theorem sdbmLoop_eq (str : ℕ → BitVec 8) (n i : ℕ) (hash : BitVec 32) :
    sdbmLoop str n i hash = hashLoop sdbmStep str n i hash := by
  induction n generalizing i hash with
  | zero => rfl
  | succ n ih =>
    rw [sdbmLoop, hashLoop]
    by_cases h : str (2 * i) ≠ 0
    · rw [if_pos h, if_pos h]
      exact ih (i + 1) _
    · rw [if_neg h, if_neg h]

/-- `hash = 65599*hash + (*str++)`, as the comment in `SDBMHash` says. -/
def sdbmFold (hash : BitVec 32) (c : BitVec 8) : BitVec 32 := 65599#32 * hash + c.setWidth 32

theorem sdbmStep_eq : sdbmStep = sdbmFold := by
  funext hash c
  unfold sdbmStep sdbmFold
  rw [BitVec.shiftLeft_eq_mul_twoPow, BitVec.shiftLeft_eq_mul_twoPow,
    show BitVec.twoPow 32 6 = 64#32 from rfl, show BitVec.twoPow 32 16 = 65536#32 from rfl,
    show 65599#32 = 64#32 + 65536#32 - 1#32 from rfl, show 1#32 = (1 : BitVec 32) from rfl]
  ring

/-! ### What is hashed -/

/-- The first `n` bytes. -/
def firstBytes (str : ℕ → BitVec 8) (n : ℕ) : List (BitVec 8) := (List.range n).map str

/-- The bytes before the first NUL and below the size. -/
def textBytes (str : ℕ → BitVec 8) (size : ℕ) : List (BitVec 8) :=
  (firstBytes str size).takeWhile (· ≠ 0)

/-- The fold of a hash function. -/
def hashOf (step : BitVec 32 → BitVec 8 → BitVec 32) (seed : BitVec 32)
    (bytes : List (BitVec 8)) : BitVec 32 :=
  bytes.foldl step seed &&& 0x7FFFFFFF#32

/-- The result is the fold over the text, and no byte at or behind the size is read. -/
structure HashesText (step : BitVec 32 → BitVec 8 → BitVec 32) (seed result : BitVec 32)
    (str : ℕ → BitVec 8) (size : ℕ) : Prop where
  value : result = hashOf step seed (textBytes str size)
  reads : ∀ j ∈ hashReads str size 0, j < size

/-- The loop takes the text, byte for byte, and reads nothing at or behind the size. -/
structure TakesText (str : ℕ → BitVec 8) (size : ℕ) : Prop where
  taken : hashTaken str size 0 = textBytes str size
  reads : ∀ j ∈ hashReads str size 0, j < size

/-- The first NUL is at index `k`, and the first one at an even index at `2 * k`, below the size. -/
def NulInTime (str : ℕ → BitVec 8) (size : ℕ) : Prop :=
  ∃ k, 2 * k < size ∧ (∀ j < k, str j ≠ 0) ∧ str k = 0 ∧ (∀ j < k, str (2 * j) ≠ 0) ∧
    str (2 * k) = 0

theorem firstBytes_succ (str : ℕ → BitVec 8) (n : ℕ) :
    firstBytes str (n + 1) = firstBytes str n ++ [str n] := by
  unfold firstBytes
  rw [List.range_succ, List.map_append]
  rfl

/-- Where the loop ends: at the first NUL with an even index, or at the size. -/
structure LoopEnd (str : ℕ → BitVec 8) (n i k : ℕ) : Prop where
  lo : i ≤ k
  hi : k ≤ i + n
  tested : ∀ j, i ≤ j → j < k → str (2 * j) ≠ 0
  nul : k < i + n → str (2 * k) = 0

/-- The loop is the fold over the bytes that it takes. -/
theorem hashLoop_eq (step : BitVec 32 → BitVec 8 → BitVec 32) (str : ℕ → BitVec 8) (n i : ℕ)
    (hash : BitVec 32) : hashLoop step str n i hash = (hashTaken str n i).foldl step hash := by
  induction n generalizing i hash with
  | zero => rfl
  | succ n ih =>
    rw [hashLoop, hashTaken]
    by_cases h : str (2 * i) = 0
    · rw [if_neg (not_not.2 h), if_neg (not_not.2 h), List.foldl_nil]
    · rw [if_pos h, if_pos h, List.foldl_cons]
      exact ih (i + 1) _

/-- The loop takes the bytes up to its end. -/
theorem hashTaken_spec (str : ℕ → BitVec 8) (n i : ℕ) : ∃ k, LoopEnd str n i k ∧
    firstBytes str i ++ hashTaken str n i = firstBytes str k := by
  induction n generalizing i with
  | zero =>
    exact ⟨i, ⟨le_rfl, le_rfl, fun j h1 h2 => by omega, fun h => by omega⟩, List.append_nil _⟩
  | succ n ih =>
    rw [hashTaken]
    by_cases h : str (2 * i) = 0
    · rw [if_neg (not_not.2 h)]
      exact ⟨i, ⟨le_rfl, by omega, fun j h1 h2 => by omega, fun _ => h⟩, List.append_nil _⟩
    obtain ⟨k, hk, heq⟩ := ih (i + 1)
    rw [firstBytes_succ, List.append_assoc] at heq
    rw [if_pos h]
    refine ⟨k, ⟨by have := hk.lo; omega, by have := hk.hi; omega, fun j h1 h2 => ?_, fun hlt =>
      hk.nul (by omega)⟩, heq⟩
    rcases Nat.lt_or_eq_of_le h1 with hlt | rfl
    · exact hk.tested j hlt h2
    · exact h

theorem LoopEnd.unique {k' : ℕ} (h : LoopEnd str n i k) (h' : LoopEnd str n i k') : k = k' := by
  rcases Nat.lt_trichotomy k k' with hlt | heq | hlt
  · exact absurd (h.nul (hlt.trans_le h'.hi)) (h'.tested k h.lo hlt)
  · exact heq
  · exact absurd (h'.nul (hlt.trans_le h.hi)) (h.tested k' h'.lo hlt)

/-- The loop reads every second byte up to its end, and none behind. -/
theorem hashReads_spec (h : LoopEnd str n i k) :
    (∀ j, i ≤ j → j ≤ k → j < i + n → 2 * j ∈ hashReads str n i) ∧
    ∀ j ∈ hashReads str n i, ∃ l, i ≤ l ∧ l ≤ k ∧ l < i + n ∧ j ≤ 2 * l := by
  induction n generalizing i with
  | zero =>
    refine ⟨fun j h1 _ h3 => absurd h3 (by omega), fun j hj => (nomatch hj)⟩
  | succ n ih =>
    rw [hashReads]
    by_cases hnul : str (2 * i) = 0
    · rw [if_neg (not_not.2 hnul)]
      have hki : k = i := by
        by_contra hne
        have := h.lo
        exact h.tested i le_rfl (by omega) hnul
      refine ⟨fun j h1 h2 _ => ?_, fun j hj => ⟨i, le_rfl, h.lo, by omega, ?_⟩⟩
      · rw [show j = i by omega]
        exact List.mem_singleton_self _
      · rw [List.mem_singleton.1 hj]
    rw [if_pos hnul]
    have hik : i ≠ k := by
      rintro rfl
      exact hnul (h.nul (by omega))
    have hlo := h.lo
    have hhi := h.hi
    obtain ⟨htested, hread⟩ := ih (i := i + 1) ⟨by omega, by omega,
      fun j h1 h2 => h.tested j (by omega) h2, fun hlt => h.nul (by omega)⟩
    refine ⟨fun j h1 h2 h3 => ?_, fun j hj => ?_⟩
    · rcases Nat.lt_or_eq_of_le h1 with hlt | rfl
      · exact .tail _ (.tail _ (htested j hlt h2 (by omega)))
      · exact List.mem_cons_self
    · rcases List.mem_cons.1 hj with rfl | hj
      · exact ⟨i, le_rfl, hlo, by omega, le_rfl⟩
      rcases List.mem_cons.1 hj with rfl | hj
      · exact ⟨j, le_rfl, hlo, by omega, by omega⟩
      obtain ⟨l, h1, h2, h3, h4⟩ := hread j hj
      exact ⟨l, by omega, h2, by omega, h4⟩

/-- Of at most one byte the loop tests what it takes. -/
theorem textBytes_of_le_one (hn : n ≤ 1) (h : LoopEnd str n 0 k) :
    firstBytes str k = textBytes str n := by
  have hhi := h.hi
  rcases Nat.lt_or_eq_of_le hn with hlt | rfl
  · obtain rfl : n = 0 := by omega
    obtain rfl : k = 0 := by omega
    rfl
  by_cases h0 : str 0 = 0
  · have hk : k = 0 := by
      by_contra hne
      exact h.tested 0 le_rfl (by omega) h0
    rw [hk]
    show [] = [str 0].takeWhile (· ≠ 0)
    rw [List.takeWhile_cons, if_neg (by rw [h0]; decide)]
  · have hk : k = 1 := by
      by_contra hne
      refine h0 ?_
      have := h.nul (by omega)
      rwa [show k = 0 by omega] at this
    rw [hk]
    show [str 0] = [str 0].takeWhile (· ≠ 0)
    rw [List.takeWhile_cons, if_pos (by rw [decide_eq_true_eq]; exact h0), List.takeWhile_nil]

/-- The text ends at its first NUL. -/
theorem textBytes_eq (hk : k < n) (hbefore : ∀ j < k, str j ≠ 0) (hnul : str k = 0) :
    textBytes str n = firstBytes str k := by
  obtain ⟨m, rfl⟩ := Nat.exists_eq_add_of_lt hk
  have hsplit : firstBytes str (k + m + 1) =
      firstBytes str k ++ str k :: (List.range m).map fun j => str (k + (j + 1)) := by
    unfold firstBytes
    rw [Nat.add_assoc, List.range_add, List.map_append, List.range_succ_eq_map, List.map_cons,
      List.map_cons, List.map_map, List.map_map]
    rfl
  have hpos : ∀ c ∈ firstBytes str k, decide (c ≠ 0) = true := by
    intro c hc
    obtain ⟨j, hj, rfl⟩ := List.mem_map.1 hc
    exact decide_eq_true (hbefore j (List.mem_range.1 hj))
  rw [textBytes, hsplit, List.takeWhile_append_of_pos hpos,
    List.takeWhile_cons_of_neg (by rw [hnul]; decide), List.append_nil]

theorem firstBytes_inj {l : ℕ} (h : firstBytes str k = firstBytes str l) : k = l := by
  have := congrArg List.length h
  simpa [firstBytes] using this

theorem takesText_iff (str : ℕ → BitVec 8) (size : ℕ) :
    TakesText str size ↔ size ≤ 1 ∨ NulInTime str size := by
  obtain ⟨k, hk, heq⟩ := hashTaken_spec str size 0
  obtain ⟨htested, hreads⟩ := hashReads_spec hk
  have hhi := hk.hi
  replace heq : hashTaken str size 0 = firstBytes str k := heq
  constructor
  · rintro ⟨hsame, hin⟩
    by_cases hsize : size ≤ 1
    · exact .inl hsize
    right
    have hlt : k < size := by
      by_contra hge
      -- the last iteration tests a byte behind the size
      have := hin _ (htested (size - 1) (Nat.zero_le _) (by omega) (by omega))
      omega
    have hk2 := hin _ (htested k (Nat.zero_le _) le_rfl (by omega))
    have hnul := hk.nul (by omega)
    -- the text is as long as what was taken, so its first NUL is at `k`
    have hex : ∃ j, str j = 0 := ⟨2 * k, hnul⟩
    have hbytes : firstBytes str (Nat.find hex) = firstBytes str k := by
      rw [← heq, hsame]
      exact (textBytes_eq ((Nat.find_min' hex hnul).trans_lt hk2)
        (fun j hj => Nat.find_min hex hj) (Nat.find_spec hex)).symm
    have hfind : Nat.find hex = k := firstBytes_inj hbytes
    exact ⟨k, hk2, fun j hj => Nat.find_min hex (hfind ▸ hj), hfind ▸ Nat.find_spec hex,
      fun j hj => hk.tested j (Nat.zero_le _) hj, hnul⟩
  · rintro (hsize | ⟨k', hk2, hbefore, hnul, htest, hnul2⟩)
    · refine ⟨by rw [heq, textBytes_of_le_one hsize hk], fun j hj => ?_⟩
      obtain ⟨l, -, -, h3, h4⟩ := hreads j hj
      omega
    · obtain rfl : k' = k := LoopEnd.unique (n := size) (i := 0) ⟨Nat.zero_le _, by omega,
        fun j _ hj => htest j hj, fun _ => hnul2⟩ hk
      refine ⟨by rw [heq, textBytes_eq (by omega) hbefore hnul], fun j hj => ?_⟩
      obtain ⟨l, -, h2, -, h4⟩ := hreads j hj
      omega

theorem TakesText.hashes (h : TakesText str n) (step : BitVec 32 → BitVec 8 → BitVec 32)
    (seed : BitVec 32) :
    HashesText step seed (hashLoop step str n 0 seed &&& 0x7FFFFFFF#32) str n := by
  refine ⟨?_, h.reads⟩
  rw [hashLoop_eq, h.taken]
  rfl

/-- For all bytes and every `int` for the size: the loop of both functions takes exactly the text
and reads nothing else just when the size is at most 1 or a NUL comes in time.  Then both hashes are
those of the text.  A negative size is one of 0. -/
theorem string_hash_iff (str : ℕ → BitVec 8) (size : ℤ) :
    (TakesText str size.toNat ↔ size ≤ 1 ∨ NulInTime str size.toNat) ∧
    (size ≤ 1 ∨ NulInTime str size.toNat →
      HashesText sdbmFold 0#32 (sdbmHash str size.toNat) str size.toNat ∧
      HashesText jsStep 1315423911#32 (jsHash str size.toNat) str size.toNat) := by
  have hiff : TakesText str size.toNat ↔ size ≤ 1 ∨ NulInTime str size.toNat := by
    rw [takesText_iff, show size ≤ 1 ↔ size.toNat ≤ 1 by omega]
  refine ⟨hiff, fun h => ⟨?_, (hiff.2 h).hashes jsStep _⟩⟩
  rw [sdbmHash, sdbmLoop_eq, sdbmStep_eq]
  exact (hiff.2 h).hashes sdbmFold _

/-- `"ab"`, with any byte behind that is not NUL. -/
theorem not_string_hash :
    ¬ HashesText sdbmFold 0#32 (sdbmHash (fun i => if i = 0 then 97#8 else 98#8) 2)
      (fun i => if i = 0 then 97#8 else 98#8) 2 := by
  rintro ⟨-, hreads⟩
  exact absurd (hreads 2 (by decide)) (by decide)

end AcoOs
