/-
A queue of indices threaded through an array of numbers.

The entry of an index in the queue is the index behind it, the entry of the last one
is itself, and the entry of an index outside the queue is `-1`.  `Queue` relates the
array, the first and the last index to the list of the indices in the queue.

* `Queue.init`: an array whose entries count up holds all indices;
* `Queue.pop`, `Queue.pop_last`: take out the first index;
* `Queue.push`, `Queue.push_first`: put an index behind the last one.
-/
import Mathlib

namespace IndexQueue

/-- Each entry points to the next index of the list, the last one to itself. -/
def Threaded (next : ℕ → ℤ) : List ℕ → Prop
  | [] => True
  | [i] => next i = i
  | i :: j :: l => next i = j ∧ Threaded next (j :: l)

variable {n : ℕ} {next next' : ℕ → ℤ} {l : List ℕ} {i j : ℕ}

theorem Threaded.congr (h : Threaded next l) (he : ∀ i ∈ l, next' i = next i) :
    Threaded next' l := by
  induction l with
  | nil => trivial
  | cons i l ih =>
    cases l with
    | nil =>
      change next' i = i
      rw [he i (by simp)]
      exact h
    | cons j l =>
      refine ⟨?_, ih h.2 fun k hk => he k (List.mem_cons_of_mem i hk)⟩
      rw [he i (by simp)]
      exact h.1

theorem Threaded.tail (h : Threaded next (i :: l)) : Threaded next l := by
  cases l with
  | nil => trivial
  | cons j l => exact h.2

/-- The entry of the first index is the second one. -/
theorem Threaded.next_eq (h : Threaded next (i :: l)) (hj : l.head? = some j) : next i = j := by
  cases l with
  | nil => cases hj
  | cons k l =>
    cases hj
    exact h.1

theorem Threaded.append (h : Threaded next l) (hl : l.Nodup) (hj : j ∉ l)
    (hlast : l.getLast? = some i) :
    Threaded (Function.update (Function.update next i j) j j) (l ++ [j]) := by
  induction l with
  | nil => cases hlast
  | cons k l ih =>
    have hkj : k ≠ j := fun e => hj (by simp [e])
    cases l with
    | nil =>
      obtain rfl : k = i := by simpa using hlast
      refine ⟨?_, ?_⟩
      · rw [Function.update_of_ne hkj, Function.update_self]
      · change Function.update _ j _ j = _
        rw [Function.update_self]
    | cons m l =>
      rw [List.getLast?_cons_cons] at hlast
      have hki : k ≠ i := by
        rintro rfl
        exact (List.nodup_cons.1 hl).1 (List.mem_of_getLast? hlast)
      refine ⟨?_, ih h.2 (List.nodup_cons.1 hl).2 (fun e => hj (by simp_all)) hlast⟩
      rw [Function.update_of_ne hkj, Function.update_of_ne hki]
      exact h.1

/-- The array, the first and the last index represent the queue `l` of indices below `n`. -/
structure Queue (n : ℕ) (next : ℕ → ℤ) (head tail : ℤ) (l : List ℕ) : Prop where
  nodup : l.Nodup
  lt : ∀ i ∈ l, i < n
  threaded : Threaded next l
  head_eq : ∀ i, l.head? = some i → head = i
  tail_eq : ∀ i, l.getLast? = some i → tail = i
  empty : l = [] → head = -1 ∧ tail = -1
  mark : ∀ i < n, i ∉ l → next i = -1

theorem threaded_range' (hnext : ∀ i, i + 1 < n → next i = i + 1)
    (hlast : ∀ i, i + 1 = n → next i = i) :
    ∀ m k, k + m = n → Threaded next (List.range' k m) := by
  intro m
  induction m with
  | zero => exact fun _ _ => trivial
  | succ m ih =>
    intro k hk
    have htail := ih (k + 1) (by omega)
    rw [List.range'_succ]
    cases m with
    | zero => exact hlast k hk
    | succ m =>
      rw [List.range'_succ] at htail ⊢
      exact ⟨by rw [hnext k (by omega)]; push_cast; ring, htail⟩

/-- The array counts up: every index is in the queue. -/
theorem Queue.init (hn : 0 < n) (hnext : ∀ i, i + 1 < n → next i = i + 1)
    (hlast : ∀ i, i + 1 = n → next i = i) :
    Queue n next 0 ((n : ℤ) - 1) (List.range n) where
  nodup := List.nodup_range
  lt i hi := List.mem_range.1 hi
  threaded := by
    rw [List.range_eq_range']
    exact threaded_range' hnext hlast n 0 (Nat.zero_add n)
  head_eq i hi := by
    rw [List.head?_range, if_neg (by omega)] at hi
    cases hi
    rfl
  tail_eq i hi := by
    rw [List.getLast?_range, if_neg (by omega)] at hi
    cases hi
    push_cast [Nat.cast_sub hn]
    ring
  empty h := by
    rw [List.range_eq_nil] at h
    omega
  mark i hi hn := absurd (List.mem_range.2 hi) hn

namespace Queue

variable {head tail : ℤ}

theorem entry_ne (h : Queue n next head tail l) (hi : i ∈ l) : next i ≠ -1 := by
  have key : ∀ l : List ℕ, Threaded next l → i ∈ l → ∃ j : ℕ, next i = j := by
    intro l
    induction l with
    | nil => exact fun _ hi => absurd hi (by simp)
    | cons k l ih =>
      intro ht hi
      rcases List.mem_cons.1 hi with rfl | hi
      · cases l with
        | nil => exact ⟨i, ht⟩
        | cons m l => exact ⟨m, ht.1⟩
      · exact ih ht.tail hi
  obtain ⟨j, hj⟩ := key l h.threaded hi
  rw [hj]
  omega

theorem length_le (h : Queue n next head tail l) : l.length ≤ n := by
  have hsub := (List.subperm_of_subset h.nodup fun i hi => List.mem_range.2 (h.lt i hi)).length_le
  rwa [List.length_range] at hsub

/-- An index outside the queue leaves room for one more. -/
theorem length_lt (h : Queue n next head tail l) (hi : i < n) (hil : i ∉ l) : l.length < n := by
  have hsub : i :: l ⊆ List.range n := by
    intro j hj
    rcases List.mem_cons.1 hj with rfl | hj
    · exact List.mem_range.2 hi
    · exact List.mem_range.2 (h.lt j hj)
  have hle := (List.subperm_of_subset (List.nodup_cons.2 ⟨hil, h.nodup⟩) hsub).length_le
  rwa [List.length_range, List.length_cons] at hle

/-- Take out the first index, and mark it. -/
theorem pop (h : Queue n next head tail (i :: l)) (hl : l ≠ []) :
    Queue n (Function.update next i (-1)) (next i) tail l where
  nodup := (List.nodup_cons.1 h.nodup).2
  lt j hj := h.lt j (List.mem_cons_of_mem i hj)
  threaded := h.threaded.tail.congr fun j hj => Function.update_of_ne (by
    rintro rfl
    exact (List.nodup_cons.1 h.nodup).1 hj) ..
  head_eq j hj := h.threaded.next_eq hj
  tail_eq j hj := by
    refine h.tail_eq j ?_
    obtain ⟨k, l', rfl⟩ := List.exists_cons_of_ne_nil hl
    rw [List.getLast?_cons_cons]
    exact hj
  empty he := absurd he hl
  mark j hj hn := by
    by_cases hji : j = i
    · rw [hji, Function.update_self]
    · rw [Function.update_of_ne hji]
      exact h.mark j hj (by simp [hji, hn])

/-- Take out the only index. -/
theorem pop_last (h : Queue n next head tail [i]) :
    Queue n (Function.update next i (-1)) (-1) (-1) [] where
  nodup := List.nodup_nil
  lt j hj := absurd hj (by simp)
  threaded := trivial
  head_eq j hj := by cases hj
  tail_eq j hj := by cases hj
  empty _ := ⟨rfl, rfl⟩
  mark j hj _ := by
    by_cases hji : j = i
    · rw [hji, Function.update_self]
    · rw [Function.update_of_ne hji]
      exact h.mark j hj (by simpa using hji)

/-- Put an index behind the last one. -/
theorem push (h : Queue n next head tail l) (hj : j ∉ l) (hjn : j < n)
    (hlast : l.getLast? = some i) :
    Queue n (Function.update (Function.update next i j) j j) head j (l ++ [j]) where
  nodup := by
    rw [List.nodup_append]
    refine ⟨h.nodup, List.nodup_singleton j, fun a ha b hb => ?_⟩
    rintro rfl
    rw [List.mem_singleton] at hb
    exact hj (hb ▸ ha)
  lt k hk := by
    rcases List.mem_append.1 hk with hk | hk
    · exact h.lt k hk
    · rw [List.mem_singleton.1 hk]
      exact hjn
  threaded := h.threaded.append h.nodup hj hlast
  head_eq k hk := by
    refine h.head_eq k ?_
    cases l with
    | nil => cases hlast
    | cons m l => exact hk
  tail_eq k hk := by
    rw [List.getLast?_append_of_ne_nil _ (by simp)] at hk
    cases hk
    rfl
  empty he := absurd he (by simp)
  mark k hk hn := by
    rw [List.mem_append, List.mem_singleton, not_or] at hn
    have hki : k ≠ i := fun e => hn.1 (e ▸ List.mem_of_getLast? hlast)
    rw [Function.update_of_ne hn.2, Function.update_of_ne hki]
    exact h.mark k hk hn.1

/-- Put an index into the empty queue. -/
theorem push_first (h : Queue n next head tail []) (hjn : j < n) :
    Queue n (Function.update next j j) j j [j] where
  nodup := List.nodup_singleton j
  lt k hk := by
    rw [List.mem_singleton.1 hk]
    exact hjn
  threaded := by
    change Function.update next j j j = j
    rw [Function.update_self]
  head_eq k hk := by
    cases hk
    rfl
  tail_eq k hk := by
    cases hk
    rfl
  empty he := absurd he (by simp)
  mark k hk hn := by
    rw [Function.update_of_ne (by simpa using hn)]
    exact h.mark k hk (by simp)

end Queue

end IndexQueue
