/-
Spinlocks that exclude each other, and wait-for cycles that would have to add up to zero.

`Exclusive`: of the parties that hold lists of locks no two hold the same one.  Whoever takes a
free lock and whoever gives one back keeps it so.

When everyone waits for at most one other and each link of a chain of waits moves
a position by plus or minus `2 ^ k`, with a `k` of its own for each link, then no
chain closes: the smallest power of two in the sum of the moves has nothing to
cancel against.

* `sum_pow_ne_zero`: signed powers of two with distinct exponents do not add up to
  zero;
* `no_cycle`: the chains of waits have no cycle.
-/
import Mathlib

namespace WaitCycle

section Exclusion

variable {ι L : Type*} [DecidableEq L] {value : L → Bool} {held held' : ι → List L}

/-- The locks that somebody holds are taken (`value` is `true` for a free one), each by one
party and once. -/
structure Exclusive (value : L → Bool) (held : ι → List L) : Prop where
  taken : ∀ i, ∀ l ∈ held i, value l = false
  unique : ∀ i j, ∀ l ∈ held i, l ∈ held j → i = j
  nodup : ∀ i, (held i).Nodup

namespace Exclusive

/-- Taking a free lock. -/
theorem acquire (h : Exclusive value held) {i : ι} {l : L} (hfree : value l = true)
    (hi : held' i = l :: held i) (hj : ∀ j, j ≠ i → held' j = held j) :
    Exclusive (Function.update value l false) held' := by
  -- the lock was free, so nobody held it
  have hnone : ∀ j, l ∉ held j := by
    intro j hin
    rw [h.taken j l hin] at hfree
    cases hfree
  have hcases : ∀ j, ∀ m ∈ held' j, (j = i ∧ m = l) ∨ m ∈ held j := by
    intro j m hm
    by_cases hji : j = i
    · rw [hji, hi] at hm
      rcases List.mem_cons.1 hm with e | e
      · exact .inl ⟨hji, e⟩
      · exact .inr (hji ▸ e)
    · exact .inr (hj j hji ▸ hm)
  refine ⟨fun j m hm => ?_, fun j k m hm hk => ?_, fun j => ?_⟩
  · by_cases hml : m = l
    · rw [hml, Function.update_self]
    · rw [Function.update_of_ne hml]
      exact h.taken j m ((hcases j m hm).resolve_left fun e => hml e.2)
  · rcases hcases j m hm with ⟨e, rfl⟩ | e <;> rcases hcases k m hk with ⟨e', e''⟩ | e'
    · rw [e, e']
    · exact absurd e' (hnone k)
    · exact absurd (e'' ▸ e) (hnone j)
    · exact h.unique j k m e e'
  · by_cases hji : j = i
    · rw [hji, hi]
      exact List.nodup_cons.2 ⟨hnone i, h.nodup i⟩
    · rw [hj j hji]
      exact h.nodup j

/-- Giving the newest lock back. -/
theorem release (h : Exclusive value held) {i : ι} {l : L} (hi : held i = l :: held' i)
    (hj : ∀ j, j ≠ i → held' j = held j) :
    Exclusive (Function.update value l true) held' := by
  have hold : ∀ j, ∀ m ∈ held' j, m ∈ held j := by
    intro j m hm
    by_cases hji : j = i
    · rw [hji] at hm ⊢
      rw [hi]
      exact List.mem_cons_of_mem l hm
    · rwa [hj j hji] at hm
  have hnodup := h.nodup i
  rw [hi] at hnodup
  obtain ⟨hnin, hnd⟩ := List.nodup_cons.1 hnodup
  refine ⟨fun j m hm => ?_, fun j k m hm hk => ?_, fun j => ?_⟩
  · have hml : m ≠ l := by
      rintro rfl
      have hji := h.unique j i m (hold j m hm) (hi ▸ List.mem_cons_self)
      exact hnin (hji ▸ hm)
    rw [Function.update_of_ne hml]
    exact h.taken j m (hold j m hm)
  · exact h.unique j k m (hold j m hm) (hold k m hk)
  · by_cases hji : j = i
    · rw [hji]
      exact hnd
    · rw [hj j hji]
      exact h.nodup j

end Exclusive

end Exclusion

/-- Signed powers of two with distinct exponents do not add up to zero. -/
theorem sum_pow_ne_zero {ι : Type*} {S : Finset ι} (hS : S.Nonempty) {k : ι → ℕ} {d : ι → ℤ}
    (hk : Set.InjOn k S) (hd : ∀ i ∈ S, d i = 2 ^ k i ∨ d i = -2 ^ k i) :
    ∑ i ∈ S, d i ≠ 0 := by
  classical
  obtain ⟨i, hi, hmin⟩ := S.exists_min_image k hS
  intro h0
  -- modulo the next power of two only the smallest summand is left
  have hrest : (2 : ℤ) ^ (k i + 1) ∣ ∑ j ∈ S.erase i, d j := by
    refine Finset.dvd_sum fun j hj => ?_
    obtain ⟨hji, hj⟩ := Finset.mem_erase.1 hj
    have hlt : k i < k j := by
      refine lt_of_le_of_ne (hmin j hj) fun e => hji ?_
      exact (hk hi hj e).symm
    have hdvd : (2 : ℤ) ^ (k i + 1) ∣ 2 ^ k j := pow_dvd_pow 2 hlt
    rcases hd j hj with e | e <;> rw [e]
    · exact hdvd
    · exact hdvd.neg_right
  rw [← Finset.add_sum_erase S d hi] at h0
  have hself : (2 : ℤ) ^ (k i + 1) ∣ 2 ^ k i := by
    have hneg : d i = -∑ j ∈ S.erase i, d j := by omega
    rcases hd i hi with e | e
    · rw [← e, hneg]
      exact hrest.neg_right
    · rw [← neg_neg ((2 : ℤ) ^ k i), ← e, hneg, neg_neg]
      exact hrest
  have hpos : (0 : ℤ) < 2 ^ k i := by positivity
  have := Int.le_of_dvd hpos hself
  rw [pow_succ] at this
  omega

section Cycle

variable {ι : Type*} {waits : ι → ι → Prop}

open Classical in
/-- Whom a waiting party waits for. -/
noncomputable def next (waits : ι → ι → Prop) (i : ι) : ι :=
  if h : ∃ j, waits i j then h.choose else i

theorem next_eq (hfun : ∀ i j l, waits i j → waits i l → j = l) {i j : ι} (h : waits i j) :
    next waits i = j := by
  have hex : ∃ j, waits i j := ⟨j, h⟩
  unfold next
  rw [dif_pos hex]
  exact hfun i _ _ hex.choose_spec h

/-- A chain of waits follows `next`. -/
theorem iterate_of_transGen (hfun : ∀ i j l, waits i j → waits i l → j = l) {i j : ι}
    (h : Relation.TransGen waits i j) :
    ∃ n, 0 < n ∧ (next waits)^[n] i = j ∧
      ∀ t < n, waits ((next waits)^[t] i) ((next waits)^[t + 1] i) := by
  induction h with
  | single h =>
    refine ⟨1, one_pos, next_eq hfun h, fun t ht => ?_⟩
    obtain rfl : t = 0 := by omega
    rw [Function.iterate_one, Function.iterate_zero, id, next_eq hfun h]
    exact h
  | @tail j l _ hjl ih =>
    obtain ⟨n, hn, hj, hall⟩ := ih
    have hl : (next waits)^[n + 1] i = l := by
      rw [Function.iterate_succ_apply', hj, next_eq hfun hjl]
    refine ⟨n + 1, Nat.succ_pos n, hl, fun t ht => ?_⟩
    rcases Nat.lt_succ_iff_lt_or_eq.1 ht with ht | rfl
    · exact hall t ht
    · rwa [hl, hj]

/-- Someone in the middle of a chain of waits. -/
def Amid (waits : ι → ι → Prop) (i : ι) : Prop :=
  ∃ g h j l, waits g h ∧ waits h i ∧ waits i j ∧ waits j l

/-- No cycle of waits: its moves are signed powers of two with distinct exponents, and
they would add up to zero. -/
theorem no_cycle (hfun : ∀ i j l, waits i j → waits i l → j = l) (pos : ι → ℤ) (k : ι → ℕ)
    (hmove : ∀ i j, Amid waits i → waits i j →
      pos j - pos i = 2 ^ k i ∨ pos j - pos i = -2 ^ k i)
    (hk : ∀ i j, Amid waits i → Amid waits j → k i = k j → i = j) (i : ι) :
    ¬ Relation.TransGen waits i i := by
  intro h
  obtain ⟨n, hn, hcyc, hall⟩ := iterate_of_transGen hfun h
  set f := next waits with hf
  have hper : Function.IsPeriodicPt f n i := hcyc
  have hpos := hper.minimalPeriod_pos hn
  -- around a cycle everyone waits, and is waited for
  have hwait : ∀ t, waits (f^[t] i) (f^[t + 1] i) := by
    intro t
    have := hall (t % n) (Nat.mod_lt t hn)
    rw [Function.iterate_succ_apply'] at this ⊢
    rwa [hper.iterate_mod_apply] at this
  have hturn : ∀ t, f^[t + 2 * n] i = f^[t] i := by
    intro t
    rw [Function.iterate_add_apply, (hper.const_mul 2).eq]
  have hamid : ∀ t, Amid waits (f^[t] i) := by
    intro t
    have h1 := hwait (t + 2 * n - 2)
    have h2 := hwait (t + 2 * n - 1)
    rw [show t + 2 * n - 2 + 1 = t + 2 * n - 1 by omega] at h1
    rw [show t + 2 * n - 1 + 1 = t + 2 * n by omega, hturn] at h2
    exact ⟨_, _, _, _, h1, h2, hwait t, hwait (t + 1)⟩
  refine sum_pow_ne_zero (S := Finset.range (Function.minimalPeriod f i))
    (d := fun t => pos (f^[t + 1] i) - pos (f^[t] i)) (k := fun t => k (f^[t] i))
    ⟨0, Finset.mem_range.2 hpos⟩ ?_ (fun t _ => hmove _ _ (hamid t) (hwait t)) ?_
  · intro t ht t' ht' he
    rw [Finset.coe_range] at ht ht'
    exact Function.iterate_injOn_Iio_minimalPeriod ht ht' (hk _ _ (hamid t) (hamid t') he)
  · rw [Finset.sum_range_sub (fun t => pos (f^[t] i)), Function.iterate_minimalPeriod,
      Function.iterate_zero, id, sub_self]

end Cycle

end WaitCycle
