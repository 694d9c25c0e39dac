/-
Which numbers of pages `PGNUM2ORDER` takes for the size of a block.

`ORDER2PGNUM` is the number of pages of a block, and `PGNUM2ORDER` gives the order back, or -1.  Its
loop looks at the lower `MAX_ORDER` bits of the number only.

* **`pgnum2order_inverts_iff`** — it does that for a number below `2 ^ MAX_ORDER`, and above only
  where two of the lower bits are set;
* **`not_pgnum2order_inverts`** — with `MAX_ORDER` 6 it takes 64 pages for a block of order 0.
-/
import AcoOs.VmDup

namespace AcoOs

/-- `PGNUM2ORDER` returns the order of a block of that size, and -1 where there is none. -/
structure InvertsOrder (maxOrder : ℕ) (pgnum : ℤ) : Prop where
  order : ∀ k < maxOrder, pgnum2order maxOrder pgnum = k ↔ pgnum = 2 ^ k
  invalid : (∀ k < maxOrder, pgnum ≠ 2 ^ k) → pgnum2order maxOrder pgnum = -1

/-- Two of the lower bits are set. -/
def TwoBits (maxOrder p : ℕ) : Prop :=
  ∃ i j, i < j ∧ j < maxOrder ∧ p.testBit i = true ∧ p.testBit j = true

/-- Bit `i` is the only one that is set below `n`. -/
def OnlyBit (n p i : ℕ) : Prop := i < n ∧ ∀ j < n, p.testBit j = true ↔ j = i

theorem and_shiftLeft_ne_zero (p n : ℕ) : p &&& 1 <<< n ≠ 0 ↔ p.testBit n = true := by
  rw [and_two_pow_ne_zero, Nat.mod_two_eq_one_iff_testBit_zero, Nat.testBit_div_two_pow, zero_add]

/-- What the loop has found after `n` bits. -/
theorem pgnum2orderLoop_spec (p n : ℕ) :
    pgnum2orderLoop p n = none ∧ TwoBits n p ∨
    pgnum2orderLoop p n = some (false, 0) ∧ (∀ j < n, p.testBit j = false) ∨
    ∃ i : ℕ, pgnum2orderLoop p n = some (true, (i : ℤ)) ∧ OnlyBit n p i := by
  induction n with
  | zero => exact .inr (.inl ⟨rfl, fun j hj => absurd hj (Nat.not_lt_zero j)⟩)
  | succ n ih =>
    have hstep : ∀ flag ret, pgnum2orderLoop p n = some (flag, ret) →
        pgnum2orderLoop p (n + 1) = if p.testBit n = true then
          if flag then none else some (true, (n : ℤ)) else some (flag, ret) := by
      intro flag ret h
      rw [pgnum2orderLoop, h]
      dsimp only
      rw [Int.toNat_natCast]
      by_cases hb : p.testBit n = true
      · rw [if_pos ((and_shiftLeft_ne_zero p n).2 hb), if_pos hb]
      · rw [if_neg (mt (and_shiftLeft_ne_zero p n).1 hb), if_neg hb]
    rcases ih with ⟨h, i, j, hij, hj, hi', hj'⟩ | ⟨h, hzero⟩ | ⟨i, h, hi, honly⟩
    · refine .inl ⟨?_, i, j, hij, Nat.lt_succ_of_lt hj, hi', hj'⟩
      rw [pgnum2orderLoop, h]
    · right
      rw [hstep _ _ h]
      by_cases hb : p.testBit n = true
      · rw [if_pos hb, if_neg Bool.false_ne_true]
        refine .inr ⟨n, rfl, Nat.lt_succ_self n, fun j hj => ⟨fun hj' => ?_, fun hj' => hj' ▸ hb⟩⟩
        by_contra hne
        rw [hzero j (by omega)] at hj'
        cases hj'
      · rw [if_neg hb]
        refine .inl ⟨rfl, fun j hj => ?_⟩
        rcases Nat.lt_succ_iff_lt_or_eq.1 hj with hlt | rfl
        · exact hzero j hlt
        · exact Bool.eq_false_iff.2 hb
    · rw [hstep _ _ h]
      by_cases hb : p.testBit n = true
      · -- the second bit
        rw [if_pos hb, if_pos rfl]
        exact .inl ⟨rfl, i, n, hi, Nat.lt_succ_self n, (honly i hi).2 rfl, hb⟩
      · rw [if_neg hb]
        refine .inr (.inr ⟨i, rfl, Nat.lt_succ_of_lt hi, fun j hj => ?_⟩)
        rcases Nat.lt_succ_iff_lt_or_eq.1 hj with hlt | rfl
        · exact honly j hlt
        · exact iff_of_false hb (fun h => hi.ne h.symm)

/-- A number below `2 ^ n` with a single bit is a power of 2. -/
theorem OnlyBit.eq_two_pow {n p i : ℕ} (h : OnlyBit n p i) (hp : p < 2 ^ n) : p = 2 ^ i := by
  refine Nat.eq_of_testBit_eq fun j => ?_
  rw [Nat.testBit_two_pow]
  by_cases hj : j < n
  · rw [Bool.eq_iff_iff, h.2 j hj, decide_eq_true_eq]
    exact eq_comm
  · have hlt : p < 2 ^ j := hp.trans_le (Nat.pow_le_pow_right (by norm_num) (Nat.le_of_not_lt hj))
    rw [Nat.testBit_lt_two_pow hlt, eq_comm, decide_eq_false_iff_not]
    have := h.1
    omega

/-- For every `int`, `PGNUM2ORDER` is right just when the number is below `2 ^ MAX_ORDER` or has two
bits there. -/
theorem pgnum2order_inverts_iff (maxOrder : ℕ) (pgnum : ℤ) :
    InvertsOrder maxOrder pgnum ↔ pgnum < 2 ^ maxOrder ∨ TwoBits maxOrder pgnum.toNat := by
  by_cases hpos : pgnum ≤ 0
  · have hneg : pgnum2order maxOrder pgnum = -1 := if_pos hpos
    have hne : ∀ k : ℕ, pgnum ≠ 2 ^ k := by
      intro k h
      have := pow_pos (show (0 : ℤ) < 2 by norm_num) k
      omega
    refine iff_of_true ⟨fun k _ => ?_, fun _ => hneg⟩
      (.inl (hpos.trans_lt (pow_pos (by norm_num) _)))
    rw [hneg]
    exact iff_of_false (by omega) (hne k)
  obtain ⟨p, rfl⟩ := Int.eq_ofNat_of_zero_le (le_of_not_ge hpos)
  have hcast : ∀ k : ℕ, (p : ℤ) = 2 ^ k ↔ p = 2 ^ k := fun k => by
    rw [← Nat.cast_ofNat, ← Nat.cast_pow, Nat.cast_inj]
  have hlt : (p : ℤ) < 2 ^ maxOrder ↔ p < 2 ^ maxOrder := by
    rw [← Nat.cast_ofNat, ← Nat.cast_pow, Nat.cast_lt]
  rw [Int.toNat_natCast, hlt]
  have hnone : pgnum2orderLoop p maxOrder = none → pgnum2order maxOrder p = -1 := by
    intro h
    rw [pgnum2order, if_neg hpos, h]
  have hsome : ∀ flag ret, pgnum2orderLoop p maxOrder = some (flag, ret) →
      pgnum2order maxOrder p = ret := by
    intro flag ret h
    rw [pgnum2order, if_neg hpos, h]
  rcases pgnum2orderLoop_spec p maxOrder with ⟨h, htwo⟩ | ⟨h, hzero⟩ | ⟨i, h, honly⟩
  · refine iff_of_true ⟨fun k hk => ?_, fun _ => hnone h⟩ (.inr htwo)
    rw [hnone h]
    refine iff_of_false (by omega) fun hp => ?_
    obtain ⟨i, j, hij, hj, hi', hj'⟩ := htwo
    rw [(hcast k).1 hp, Nat.testBit_two_pow, decide_eq_true_eq] at hi' hj'
    omega
  · -- no bit is set below, and the result is 0
    have hne : ∀ k < maxOrder, (p : ℤ) ≠ 2 ^ k := by
      intro k hk hp
      have hb := hzero k hk
      rw [(hcast k).1 hp, Nat.testBit_two_pow, decide_eq_false_iff_not] at hb
      exact hb rfl
    refine iff_of_false (fun hi => ?_) ?_
    · have := hi.invalid hne
      rw [hsome _ _ h] at this
      cases this
    · rintro (hp | ⟨i, j, -, hj, -, hj'⟩)
      · have hzero' : p = 0 := by
          refine Nat.eq_of_testBit_eq fun j => ?_
          rw [Nat.zero_testBit]
          by_cases hj : j < maxOrder
          · exact hzero j hj
          · exact Nat.testBit_lt_two_pow (hp.trans_le
              (Nat.pow_le_pow_right (by norm_num) (Nat.le_of_not_lt hj)))
        omega
      · rw [hzero j hj] at hj'
        cases hj'
  · have hnot : ¬ TwoBits maxOrder p := by
      rintro ⟨j, k, hjk, hk, hj', hk'⟩
      have h1 := (honly.2 j (hjk.trans hk)).1 hj'
      have h2 := (honly.2 k hk).1 hk'
      omega
    constructor
    · intro hi
      refine .inl ?_
      have hp : p = 2 ^ i := (hcast i).1 ((hi.order i honly.1).1 (hsome _ _ h))
      rw [hp]
      exact Nat.pow_lt_pow_right (by norm_num) honly.1
    · rintro (hp | htwo)
      · have heq := honly.eq_two_pow hp
        refine ⟨fun k hk => ?_, fun hne => absurd ((hcast i).2 heq) (hne i honly.1)⟩
        rw [hsome _ _ h, hcast, heq, Nat.cast_inj]
        exact ⟨congrArg (2 ^ ·), fun hik => Nat.pow_right_injective le_rfl hik⟩
      · exact absurd htwo hnot

/-- A block of 64 pages would have the order 6, which `MAX_ORDER` excludes. -/
theorem not_pgnum2order_inverts : ¬ InvertsOrder 6 64 := by
  intro h
  have := h.invalid (by decide)
  revert this
  decide

end AcoOs
