/-
`printf` and its buffer.

`printf` has a buffer of 256 bytes and tells `vsnprintf` that there are 512.  `vsnprintf` is taken
by its contract: it stores the text, as far as it fits, and a NUL.

* **`printf_in_buffer_iff`** — `printf` keeps to its buffer, and puts out the text, just when the
  text has less than 256 bytes;
* **`not_printf_in_buffer`** — a text of 256 bytes.
-/
import AcoOs.SlabAllocator

namespace AcoOs

/-- What `vsnprintf` leaves: the bytes from the buffer on, how many of them it has stored, and what
it returns. -/
structure Formatted where
  bytes : ℕ → BitVec 8
  stored : ℕ
  ret : ℕ

/-- `vsnprintf(buf, count, ...)`, with `text` the formatted text. -/
def vsnprintf (buf : ℕ → BitVec 8) (count : ℕ) (text : List (BitVec 8)) : Formatted :=
  if count = 0 then ⟨buf, 0, text.length⟩
  else
    let n := min text.length (count - 1)
    { bytes := fun i => if i < n then text.getD i 0 else if i = n then 0 else buf i
      stored := n + 1
      ret := text.length }

theorem vsnprintf_nul (buf : ℕ → BitVec 8) (text : List (BitVec 8)) :
    ∃ i, (vsnprintf buf 512 text).bytes i = 0 := by
  refine ⟨min text.length (512 - 1), ?_⟩
  show (if _ then _ else if _ then _ else _) = _
  rw [if_neg (lt_irrefl _), if_pos rfl]

/-- `strlen`, of a string that has an end. -/
def strlen (src : ℕ → BitVec 8) (h : ∃ i, src i = 0) : ℕ := Nat.find h

/-- What a call of `printf` does: how many bytes it stores from `buffer[0]` on, what it puts out and
what it returns. -/
structure Printed where
  stored : ℕ
  out : List (BitVec 8)
  done : ℕ

/-- `printf`; `buf` is what the stack holds from `buffer[0]` on. -/
def printf (buf : ℕ → BitVec 8) (text : List (BitVec 8)) : Printed :=
  let r := vsnprintf buf 512 text
  let len := strlen r.bytes (vsnprintf_nul buf text)
  { stored := r.stored
    out := (List.range len).map r.bytes
    done := r.ret }

/-- `sizeof(buffer)`. -/
def sizeofBuffer : ℕ := 256

/-- Only the buffer is stored in, and what is put out is the text up to its first NUL, as far as the
buffer can hold it. -/
structure PrintsInBuffer (r : Printed) (text : List (BitVec 8)) : Prop where
  stored : r.stored ≤ sizeofBuffer
  out : r.out = (text.takeWhile (· ≠ 0)).take (sizeofBuffer - 1)

/-- The bytes before the first NUL. -/
theorem map_strlen {src : ℕ → BitVec 8} {text : List (BitVec 8)} (h : ∃ i, src i = 0)
    (htext : ∀ i < text.length, src i = text.getD i 0) (hnul : src text.length = 0) :
    (List.range (strlen src h)).map src = text.takeWhile (· ≠ 0) := by
  induction text generalizing src with
  | nil =>
    have hlen : strlen src h = 0 := (Nat.find_eq_zero h).2 hnul
    rw [hlen]
    rfl
  | cons c text ih =>
    have hc : src 0 = c := htext 0 (Nat.succ_pos _)
    by_cases h0 : c = 0
    · have hlen : strlen src h = 0 := (Nat.find_eq_zero h).2 (hc.trans h0)
      rw [hlen, List.takeWhile_cons, if_neg (by rw [h0]; decide)]
      rfl
    · -- the rest of the string
      have htail : ∃ i, src (i + 1) = 0 := ⟨text.length, hnul⟩
      have hlen : strlen src h = strlen (fun i => src (i + 1)) htail + 1 :=
        Nat.find_comp_succ h htail (by rwa [hc])
      rw [hlen, List.range_succ_eq_map, List.map_cons, List.map_map, hc, List.takeWhile_cons,
        if_pos (by rwa [decide_eq_true_eq])]
      congr 1
      exact ih htail (fun i hi => htext (i + 1) (Nat.succ_lt_succ hi)) hnul

/-- For every text, whatever it was formatted from. -/
theorem printf_in_buffer_iff (buf : ℕ → BitVec 8) (text : List (BitVec 8)) :
    PrintsInBuffer (printf buf text) text ↔ text.length < 256 := by
  have hstored : (printf buf text).stored = min text.length 511 + 1 := rfl
  constructor
  · -- the NUL is stored behind the text
    intro h
    have := h.stored
    rw [hstored, sizeofBuffer] at this
    omega
  · intro h
    have hn : min text.length (512 - 1) = text.length := by omega
    refine ⟨by rw [hstored, sizeofBuffer]; omega, ?_⟩
    -- `printf` stops at the first NUL of the text
    have hout : (printf buf text).out = text.takeWhile (· ≠ 0) := by
      refine map_strlen (vsnprintf_nul buf text) (fun i hi => ?_) ?_
      · exact if_pos (by rwa [hn])
      · show (if _ then _ else if _ then _ else _) = _
        rw [hn, if_neg (lt_irrefl _), if_pos rfl]
    have hle : (text.takeWhile (· ≠ 0)).length ≤ text.length :=
      (List.takeWhile_prefix _).length_le
    rw [hout, List.take_of_length_le]
    rw [sizeofBuffer]
    omega

/-- The NUL behind 256 bytes is stored behind the buffer. -/
theorem not_printf_in_buffer :
    ¬ PrintsInBuffer (printf (fun _ => 0) (List.replicate 256 65)) (List.replicate 256 65) := by
  intro h
  have hstored := h.stored
  rw [show (printf (fun _ => 0) (List.replicate 256 65)).stored =
    min (List.replicate 256 (65 : BitVec 8)).length 511 + 1 from rfl,
    List.length_replicate] at hstored
  exact absurd hstored (by decide)

end AcoOs
