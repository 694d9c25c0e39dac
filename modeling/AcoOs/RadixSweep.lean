/-
A sweep over the positions of a radix table that keeps its offset over missing tables.

The sweep goes through the words of a table in order.  At a word without a table below it passes by
a whole span, whatever its offset in the span is, so it enters the next word at the same offset.
At a word with a table it sweeps that table from the offset on, and enters the next word as late as
it left the table (`late`).  What it sweeps are the positions it `Visits`.

The definitions and lemmas are about any format of words.
-/
import AcoOs.RadixTable

namespace Radix

variable {ι ω : Type*} (F : Format ι ω)

/-- The offset after `k` words from word `i` on, when `f` says what each does to it. -/
def offset (f : ℕ → ℕ → ℕ) : ℕ → ℕ → ℕ → ℕ
  | _, 0, o => o
  | i, k + 1, o => offset f (i + 1) k (f i o)

/-- How far behind the end of a table a sweep is that enters it at position `v`. -/
def late (m : ι → ℕ → ω) : ℕ → ι → ℕ → ℕ
  | 0, _, _ => 0
  | d + 1, t, v =>
    offset
      (fun i o =>
        match F.next (m t i) with
        | none => o
        | some t' => late m d t' o)
      (v / F.fanout ^ (d + 1)) (F.fanout - v / F.fanout ^ (d + 1)) (v % F.fanout ^ (d + 1))

/-- How late the word behind word `i` is entered, when word `i` is entered at offset `o`. -/
def lateEntry (m : ι → ℕ → ω) (d : ℕ) (t : ι) (i o : ℕ) : ℕ :=
  match F.next (m t i) with
  | none => o
  | some t' => late F m d t' o

/-- Position `w` is swept when the table is entered at position `v`. -/
def Visits (m : ι → ℕ → ω) : ℕ → ι → ℕ → ℕ → Prop
  | 0, _, v, w => v ≤ w
  | d + 1, t, v, w =>
    v / F.fanout ^ (d + 1) ≤ w / F.fanout ^ (d + 1) ∧
      ∃ t', F.next (m t (w / F.fanout ^ (d + 1))) = some t' ∧
        Visits m d t'
          (offset (lateEntry F m d t) (v / F.fanout ^ (d + 1))
            (w / F.fanout ^ (d + 1) - v / F.fanout ^ (d + 1)) (v % F.fanout ^ (d + 1)))
          (w % F.fanout ^ (d + 1))

/-- The same, for a table that is entered at offset `o` of word `i`. -/
def VisitsFrom (m : ι → ℕ → ω) (d : ℕ) (t : ι) (i o w : ℕ) : Prop :=
  i ≤ w / F.fanout ^ (d + 1) ∧ ∃ t', F.next (m t (w / F.fanout ^ (d + 1))) = some t' ∧
    Visits F m d t' (offset (lateEntry F m d t) i (w / F.fanout ^ (d + 1) - i) o)
      (w % F.fanout ^ (d + 1))

variable {F} {m m' : ι → ℕ → ω} {d i k o v w : ℕ} {t t' : ι} {f g : ℕ → ℕ → ℕ}

theorem offset_zero : offset f i 0 o = o := rfl

theorem offset_succ : offset f i (k + 1) o = offset f (i + 1) k (f i o) := rfl

theorem offset_congr (h : ∀ j o, i ≤ j → j < i + k → f j o = g j o) :
    offset f i k o = offset g i k o := by
  induction k generalizing i o with
  | zero => rfl
  | succ k ih =>
    rw [offset_succ, offset_succ, h i o le_rfl (by omega)]
    exact ih fun j o hj hj' => h j o (by omega) (by omega)

theorem offset_lt {s : ℕ} (h : ∀ j o, o < s → f j o < s) (ho : o < s) : offset f i k o < s := by
  induction k generalizing i o with
  | zero => exact ho
  | succ k ih => exact ih (h i o ho)

theorem lateEntry_none (h : F.next (m t i) = none) : lateEntry F m d t i o = o := by
  rw [lateEntry, h]

theorem lateEntry_some (h : F.next (m t i) = some t') :
    lateEntry F m d t i o = late F m d t' o := by
  rw [lateEntry, h]

theorem late_succ : late F m (d + 1) t v = offset (lateEntry F m d t) (v / F.fanout ^ (d + 1))
    (F.fanout - v / F.fanout ^ (d + 1)) (v % F.fanout ^ (d + 1)) := by
  rw [late]
  rfl

theorem visits_succ : Visits F m (d + 1) t v w ↔
    VisitsFrom F m d t (v / F.fanout ^ (d + 1)) (v % F.fanout ^ (d + 1)) w := Iff.rfl

/-- A sweep is late by less than the span of a word of the last table it was in. -/
theorem late_lt (hv : v < F.fanout ^ (d + 1)) : late F m d t v < F.fanout ^ d := by
  induction d generalizing t v with
  | zero => exact Nat.one_pos
  | succ d ih =>
    have hS : 0 < F.fanout ^ (d + 1) := pow_pos F.fanout_pos _
    rw [late_succ]
    refine offset_lt (fun j o ho => ?_) (Nat.mod_lt v hS)
    unfold lateEntry
    cases F.next (m t j) with
    | none => exact ho
    | some t' => exact (ih ho).trans_le (Nat.pow_le_pow_right F.fanout_pos (Nat.le_succ d))

theorem lateEntry_lt (ho : o < F.fanout ^ (d + 1)) :
    lateEntry F m d t i o < F.fanout ^ (d + 1) := by
  unfold lateEntry
  cases F.next (m t i) with
  | none => exact ho
  | some t' => exact (late_lt ho).trans_le (Nat.pow_le_pow_right F.fanout_pos (Nat.le_succ d))

/-- A sweep visits no position before the one it begins with. -/
theorem Visits.le (h : Visits F m d t v w) : v ≤ w := by
  induction d generalizing t v w with
  | zero => exact h
  | succ d ih =>
    obtain ⟨hle, t', -, hv⟩ := h
    rcases hle.lt_or_eq with hlt | heq
    · refine (Nat.lt_of_div_lt_div hlt).le
    · rw [← heq, Nat.sub_self, offset_zero] at hv
      have hmod := ih hv
      rw [← Nat.div_add_mod v (F.fanout ^ (d + 1)), ← Nat.div_add_mod w (F.fanout ^ (d + 1)), heq]
      omega

/-- What is visited below the word that the sweep begins with. -/
theorem visitsFrom_self (hw : w / F.fanout ^ (d + 1) = i) : VisitsFrom F m d t i o w ↔
    ∃ t', F.next (m t i) = some t' ∧ Visits F m d t' o (w % F.fanout ^ (d + 1)) := by
  rw [VisitsFrom, hw, Nat.sub_self, offset_zero]
  exact and_iff_right le_rfl

/-- What is visited below a later word is behind the place where the sweep left the first one. -/
theorem VisitsFrom.le (h : VisitsFrom F m d t i o w) (hi : i < w / F.fanout ^ (d + 1))
    (ho : o < F.fanout ^ (d + 1)) : (i + 1) * F.fanout ^ (d + 1) + lateEntry F m d t i o ≤ w := by
  obtain ⟨-, t', -, hv⟩ := h
  have hlt : lateEntry F m d t i o < F.fanout ^ (d + 1) := lateEntry_lt ho
  obtain ⟨c, hc⟩ := Nat.exists_eq_add_of_lt hi
  rw [show w / F.fanout ^ (d + 1) - i = c + 1 by omega, offset_succ] at hv
  have hw := Nat.div_add_mod' w (F.fanout ^ (d + 1))
  rcases Nat.eq_zero_or_pos c with rfl | hpos
  · have hle := hv.le
    rw [offset_zero] at hle
    rw [hc, Nat.add_zero] at hw
    omega
  · have hmul : (i + 2) * F.fanout ^ (d + 1) ≤ w / F.fanout ^ (d + 1) * F.fanout ^ (d + 1) :=
      Nat.mul_le_mul_right _ (by omega)
    rw [Nat.add_mul] at hmul ⊢
    generalize w % F.fanout ^ (d + 1) = u at *
    omega

/-! ### Sweeps that are not late -/

theorem offset_self (h : ∀ j, f j o = o) : offset f i k o = o := by
  induction k generalizing i with
  | zero => rfl
  | succ k ih => rw [offset_succ, h i, ih]

theorem late_zero : late F m d t 0 = 0 := by
  induction d generalizing t with
  | zero => rfl
  | succ d ih =>
    rw [late_succ, Nat.zero_mod]
    refine offset_self fun j => ?_
    unfold lateEntry
    cases F.next (m t j) with
    | none => rfl
    | some t' => exact ih

theorem lateEntry_zero : lateEntry F m d t i 0 = 0 := by
  unfold lateEntry
  cases F.next (m t i) with
  | none => rfl
  | some t' => exact late_zero

/-- A sweep of a whole table visits every position that has a word. -/
theorem visits_zero : Visits F m d t 0 w ↔ leaf F m d t w ≠ none := by
  induction d generalizing t w with
  | zero => exact iff_of_true (Nat.zero_le w) (Option.some_ne_none _)
  | succ d ih =>
    rw [visits_succ, VisitsFrom, Nat.zero_div, Nat.zero_mod, offset_self fun _ => lateEntry_zero,
      and_iff_right (Nat.zero_le _), leaf]
    cases F.next (m t (w / F.fanout ^ (d + 1))) with
    | none =>
      refine iff_of_false ?_ fun h => h rfl
      rintro ⟨u, h, -⟩
      cases h
    | some t' =>
      rw [Option.bind_some, ← ih]
      constructor
      · rintro ⟨u, h, hv⟩
        cases h
        exact hv
      · intro hv
        exact ⟨t', rfl, hv⟩

/-- A sweep that begins with the first position below a word visits all that have a word. -/
theorem visits_of_aligned (hv : v % F.fanout ^ (d + 1) = 0) : Visits F m (d + 1) t v w ↔
    v / F.fanout ^ (d + 1) ≤ w / F.fanout ^ (d + 1) ∧ leaf F m (d + 1) t w ≠ none := by
  rw [← visits_zero, visits_succ, visits_succ, VisitsFrom, VisitsFrom, hv, Nat.zero_div,
    Nat.zero_mod, offset_self fun _ => lateEntry_zero, offset_self fun _ => lateEntry_zero,
    and_iff_right (Nat.zero_le _)]

/-- The positions below one word that are behind `v`. -/
theorem leaf_below (h : ∀ u, v ≤ u → u ≤ w → leaf F m (d + 1) t u ≠ none) (hvw : v ≤ w) :
    ∃ t', F.next (m t (v / F.fanout ^ (d + 1))) = some t' ∧
      ∀ u, v % F.fanout ^ (d + 1) ≤ u → u < F.fanout ^ (d + 1) →
        v / F.fanout ^ (d + 1) * F.fanout ^ (d + 1) + u ≤ w → leaf F m d t' u ≠ none := by
  have hS : 0 < F.fanout ^ (d + 1) := pow_pos F.fanout_pos _
  have hv := h v le_rfl hvw
  cases hn : F.next (m t (v / F.fanout ^ (d + 1))) with
  | none => exact absurd (leaf_succ_none hn) hv
  | some t' =>
    refine ⟨t', rfl, fun u h1 h2 h3 => ?_⟩
    have hdiv : (v / F.fanout ^ (d + 1) * F.fanout ^ (d + 1) + u) / F.fanout ^ (d + 1) =
        v / F.fanout ^ (d + 1) := by
      rw [Nat.mul_comm, Nat.mul_add_div hS, Nat.div_eq_of_lt h2, Nat.add_zero]
    have hmod : (v / F.fanout ^ (d + 1) * F.fanout ^ (d + 1) + u) % F.fanout ^ (d + 1) = u := by
      rw [Nat.mul_comm, Nat.mul_add_mod, Nat.mod_eq_of_lt h2]
    have hu := h (v / F.fanout ^ (d + 1) * F.fanout ^ (d + 1) + u) (by
      have := Nat.div_add_mod' v (F.fanout ^ (d + 1))
      omega) h3
    rwa [leaf_succ_some (by rw [hdiv]; exact hn), hmod] at hu

/-- A sweep of a table in which nothing is missing from its beginning on is not late. -/
theorem late_of_full (hv : v < F.fanout ^ (d + 1))
    (h : ∀ u, v ≤ u → u < F.fanout ^ (d + 1) → leaf F m d t u ≠ none) : late F m d t v = 0 := by
  induction d generalizing t v with
  | zero => rfl
  | succ d ih =>
    have hS : 0 < F.fanout ^ (d + 1) := pow_pos F.fanout_pos _
    have hi : v / F.fanout ^ (d + 1) < F.fanout := by
      rw [Nat.div_lt_iff_lt_mul hS, ← pow_succ']
      exact hv
    obtain ⟨t', hn, hall⟩ := leaf_below (w := F.fanout ^ (d + 1 + 1) - 1)
      (fun u h1 h2 => h u h1 (by omega)) (by omega)
    have hzero := ih (Nat.mod_lt v hS) fun u h1 h2 => hall u h1 h2 (by
      have hle : (v / F.fanout ^ (d + 1) + 1) * F.fanout ^ (d + 1) ≤ F.fanout ^ (d + 1 + 1) := by
        rw [pow_succ' F.fanout (d + 1)]
        exact Nat.mul_le_mul_right _ hi
      rw [Nat.succ_mul] at hle
      omega)
    rw [late_succ, show F.fanout - v / F.fanout ^ (d + 1) =
      F.fanout - v / F.fanout ^ (d + 1) - 1 + 1 by omega, offset_succ, lateEntry_some hn, hzero]
    exact offset_self fun _ => lateEntry_zero

/-- Where no table is missing on the way every position is visited. -/
theorem visits_of_full (hvw : v ≤ w) (h : ∀ u, v ≤ u → u ≤ w → leaf F m d t u ≠ none) :
    Visits F m d t v w := by
  induction d generalizing t v w with
  | zero => exact hvw
  | succ d ih =>
    have hS : 0 < F.fanout ^ (d + 1) := pow_pos F.fanout_pos _
    have hdw := Nat.div_add_mod' w (F.fanout ^ (d + 1))
    obtain ⟨t', hn, hall⟩ := leaf_below h hvw
    rcases (Nat.div_le_div_right hvw : v / F.fanout ^ (d + 1) ≤ _).eq_or_lt with heq | hlt
    · rw [visits_succ, visitsFrom_self heq.symm]
      have hdv := Nat.div_add_mod' v (F.fanout ^ (d + 1))
      refine ⟨t', hn, ih (by rw [heq] at hdv; omega) fun u h1 h2 => hall u h1
        (h2.trans_lt (Nat.mod_lt w hS)) (by rw [heq]; omega)⟩
    · -- the sweep is not late behind the first table
      have hle : (v / F.fanout ^ (d + 1) + 1) * F.fanout ^ (d + 1) ≤
          w / F.fanout ^ (d + 1) * F.fanout ^ (d + 1) := Nat.mul_le_mul_right _ hlt
      rw [Nat.succ_mul] at hle
      have hlow := Nat.div_mul_le_self w (F.fanout ^ (d + 1))
      have hlate : lateEntry F m d t (v / F.fanout ^ (d + 1)) (v % F.fanout ^ (d + 1)) = 0 := by
        rw [lateEntry_some hn]
        exact late_of_full (Nat.mod_lt v hS) fun u h1 h2 => hall u h1 h2 (by omega)
      have hw := h w hvw le_rfl
      rw [visits_succ, VisitsFrom]
      refine ⟨hlt.le, ?_⟩
      rw [show w / F.fanout ^ (d + 1) - v / F.fanout ^ (d + 1) =
        w / F.fanout ^ (d + 1) - v / F.fanout ^ (d + 1) - 1 + 1 by omega, offset_succ, hlate,
        offset_self fun _ => lateEntry_zero]
      cases hn' : F.next (m t (w / F.fanout ^ (d + 1))) with
      | none => exact absurd (leaf_succ_none hn') hw
      | some u =>
        rw [leaf_succ_some hn'] at hw
        exact ⟨u, rfl, visits_zero.2 hw⟩

/-! ### Frames -/

variable [DecidableEq ι]

theorem late_congr (h : ∀ p ∈ tables F m d t, m' p = m p) : late F m' d t v = late F m d t v := by
  induction d generalizing t v with
  | zero => rfl
  | succ d ih =>
    rw [late_succ, late_succ]
    refine offset_congr fun j o _ hj => ?_
    unfold lateEntry
    rw [h t self_mem_tables]
    cases hn : F.next (m t j) with
    | none => rfl
    | some t' => exact ih fun p hp => h p (tables_child (by omega) hn hp)

theorem visits_congr (h : ∀ p ∈ tables F m d t, m' p = m p) (hw : w < F.fanout ^ (d + 1)) :
    Visits F m' d t v w ↔ Visits F m d t v w := by
  induction d generalizing t v w with
  | zero => exact Iff.rfl
  | succ d ih =>
    have hS : 0 < F.fanout ^ (d + 1) := pow_pos F.fanout_pos _
    have hi : w / F.fanout ^ (d + 1) < F.fanout := by
      rw [Nat.div_lt_iff_lt_mul hS, ← pow_succ']
      exact hw
    have hoff : ∀ i k o, i + k ≤ F.fanout →
        offset (lateEntry F m' d t) i k o = offset (lateEntry F m d t) i k o := by
      intro i k o hik
      refine offset_congr fun j o _ hj => ?_
      unfold lateEntry
      rw [h t self_mem_tables]
      cases hn : F.next (m t j) with
      | none => rfl
      | some t' => exact late_congr fun p hp => h p (tables_child (by omega) hn hp)
    rw [visits_succ, visits_succ, VisitsFrom, VisitsFrom, h t self_mem_tables]
    refine and_congr_right fun hle => exists_congr fun t' => and_congr_right fun hn => ?_
    rw [hoff _ _ _ (by omega)]
    exact ih (fun p hp => h p (tables_child hi hn hp)) (Nat.mod_lt w hS)

/-! ### One word at a time -/

namespace Replaced

theorem trans {m'' : ι → ℕ → ω} (h : Replaced F m m' d t i) (h' : Replaced F m' m'' d t i) :
    Replaced F m m'' d t i where
  lt := h.lt
  words j hj hij := (h'.words j hj hij).trans (h.words j hj hij)
  frame j hj hij p hp := by
    rw [← h.under_eq hj hij] at hp
    rw [h'.frame j hj hij p hp]
    rw [h.under_eq hj hij] at hp
    exact h.frame j hj hij p hp

variable (h : Replaced F m m' d t i)

include h

theorem lateEntry {j : ℕ} (hj : j < F.fanout) (hij : j ≠ i) :
    lateEntry F m' d t j o = Radix.lateEntry F m d t j o := by
  unfold Radix.lateEntry
  rw [h.words j hj hij]
  cases hn : F.next (m t j) with
  | none => rfl
  | some t' =>
    refine late_congr fun p hp => h.frame j hj hij p ?_
    rwa [under_some hn]

theorem offset {k : ℕ} (hk : i + 1 + k ≤ F.fanout) :
    offset (Radix.lateEntry F m' d t) (i + 1) k o =
      Radix.offset (Radix.lateEntry F m d t) (i + 1) k o :=
  offset_congr fun _ _ _ _ => h.lateEntry (by omega) (by omega)

/-- Behind a word that was replaced the sweep goes on as before. -/
theorem visitsFrom (hw : w < F.fanout ^ (d + 1 + 1)) (hi : i < w / F.fanout ^ (d + 1)) :
    VisitsFrom F m' d t (i + 1) (Radix.lateEntry F m d t i o) w ↔ VisitsFrom F m d t i o w := by
  have hS : 0 < F.fanout ^ (d + 1) := pow_pos F.fanout_pos _
  have hj : w / F.fanout ^ (d + 1) < F.fanout := by
    rw [Nat.div_lt_iff_lt_mul hS, ← pow_succ']
    exact hw
  have hcnt : w / F.fanout ^ (d + 1) - i = w / F.fanout ^ (d + 1) - (i + 1) + 1 := by omega
  rw [VisitsFrom, VisitsFrom, h.words _ hj hi.ne', h.offset (by omega), hcnt, offset_succ]
  refine and_congr (iff_of_true hi hi.le) (exists_congr fun t' => and_congr_right fun hn => ?_)
  refine visits_congr (fun p hp => h.frame _ hj hi.ne' p ?_) (Nat.mod_lt w hS)
  rwa [under_some hn]

end Replaced

end Radix
