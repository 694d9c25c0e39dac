/-
What `vm_walkthrough` does.

A walk from position `v` of a page table enters `m` consecutive pages from there on, and
changes no other entry, except that new tables of empty entries may stay linked
(`Walked`).  It stops when its budget is used up, at the end of the table, at a position
that has a valid entry already, or when no page is left for a table (`WalkRet`).

`walk_spec` is by induction on the levels, and on the entries of a table.
-/
import AcoOs.PageTableStep

namespace AcoOs

open Radix

variable {L : VmLayout} {A : PageAllocator L.toLayout}

/-! ### Positions -/

/-- The number of the page an address lies in, as far as `d + 1` indices tell pages apart. -/
def position (d va : ℕ) : ℕ := va / pageSize % 512 ^ (d + 1)

theorem position_lt (d va : ℕ) : position d va < 512 ^ (d + 1) :=
  Nat.mod_lt _ (pow_pos (by norm_num) _)

theorem advance_eq (va k : ℕ) : advance va k = (va + k * pageSize) % 2 ^ 64 := by
  unfold advance
  omega

theorem advance_zero {va : ℕ} (h : va < 2 ^ 64) : advance va 0 = va := by
  unfold advance
  omega

theorem advance_advance (va : ℕ) (j k : ℕ) : advance (advance va j) k = advance va (j + k : ℕ) := by
  simp only [advance_eq, pageSize, pageOffset]
  omega

theorem advance_lt (va : ℕ) (k : ℤ) : advance va k < 2 ^ 64 := by
  unfold advance
  omega

theorem position_advance {d : ℕ} (hd : d ≤ 2) (va k : ℕ) :
    position d (advance va k) = (position d va + k) % 512 ^ (d + 1) := by
  have hdvd : 512 ^ (d + 1) ∣ 2 ^ 52 := by
    rw [show 512 = 2 ^ 9 from rfl, ← pow_mul]
    exact pow_dvd_pow 2 (by omega)
  have hpage : advance va k / pageSize = (va / pageSize + k) % 2 ^ 52 := by
    rw [advance_eq, show (2 : ℕ) ^ 64 = pageSize * 2 ^ 52 from rfl, Nat.mod_mul_right_div_self,
      Nat.add_mul_div_right _ _ (by decide)]
  rw [position, hpage, Nat.mod_mod_of_dvd _ hdvd, position, Nat.mod_add_mod]

/-- The index on a level is the leading digit of the position. -/
theorem index_eq {d : ℕ} (hd : d ≤ 2) (va : ℕ) :
    sv39Index2Id va (2 - d) = position d va / 512 ^ d := by
  have hshift : sv39Index2Shift (2 - d) = 12 + 9 * d := by
    unfold sv39Index2Shift
    omega
  rw [sv39Index2Id_eq, hshift, position, pow_succ, Nat.mod_mul_right_div_self, pow_add, pow_mul,
    ← Nat.div_div_eq_div_mul]
  rfl

/-- The position in the table below is the rest of the digits. -/
theorem position_child (d va : ℕ) : position d va = position (d + 1) va % 512 ^ (d + 1) :=
  (Nat.mod_mod_of_dvd _ (pow_dvd_pow 512 (Nat.le_succ (d + 1)))).symm

/-- The entry that maps the page `v` of the tree, and the page of the table below. -/
theorem position_entry {d va i v : ℕ} (hlo : i * 512 ^ (d + 1) ≤ v)
    (hhi : v < (i + 1) * 512 ^ (d + 1)) (hva : position (d + 1) va = v) :
    i * 512 ^ (d + 1) + position d va = v := by
  have hS : 0 < 512 ^ (d + 1) := pow_pos (by norm_num) _
  rw [position_child, hva]
  have hdiv : v / 512 ^ (d + 1) = i := by
    rw [Nat.add_mul, Nat.one_mul] at hhi
    rw [Nat.div_eq_iff hS]
    omega
  rw [← hdiv, Nat.mul_comm, Nat.div_add_mod]

namespace Memory

variable {K : ℕ → Prop} {flags : ℕ} {x x' x'' : Memory A} {d t t' b i v pa m : ℕ}

/-- The walk entered `m` pages from position `v` on. -/
structure Walked (K : ℕ → Prop) (flags : ℕ) (x x' : Memory A) (d t b v pa m : ℕ) : Prop where
  step : TableStep K x x' d t b
  le : v + m ≤ 512 ^ (d + 1)
  wrote : ∀ w, v ≤ w → w < v + m →
    ¬ x.ValidAt d t w ∧ x'.leaf d t w = some (sv39Pa2PTE (advance pa (w - v : ℕ)) flags)
  rest : ∀ w < 512 ^ (d + 1), w < v ∨ v + m ≤ w →
    x'.leaf d t w = x.leaf d t w ∨ x.leaf d t w = none ∧ x'.leaf d t w = some 0

/-- The buddy allocator has just refused a page. -/
def OutOfPages (x : Memory A) : Prop := ∃ s, A.alloc s 0 = (none, x.buddy)

/-- Why the walk stopped. -/
structure WalkRet (x' : Memory A) (d t v : ℕ) (pages ret pages' : ℤ) (m : ℕ) : Prop where
  left : pages' = pages - m
  budget : 0 < pages → m ≤ pages ∧ (ret ≠ 0 → m < pages)
  done : ret = 0 → (pages' = 0 ∨ v + m = 512 ^ (d + 1)) ∧ (v < 512 ^ (d + 1) → 1 ≤ m)
  failed : ret ≠ 0 → v + m < 512 ^ (d + 1) ∧
    (ret = -eexist ∧ x'.ValidAt d t (v + m) ∨
      ret = -enomem ∧ x'.leaf d t (v + m) = none ∧ x'.OutOfPages)

/-- What is proved of a walk on one level, for use one level up. -/
def WalkSpec (K : ℕ → Prop) (flags d : ℕ)
    (next : ℕ → Memory A → ℕ → ℕ → ℤ → Option (ℤ × ℤ × Memory A)) : Prop :=
  ∀ t x va pa pages b, pa < 2 ^ 64 → TableInv K x d t b → ∃ ret pages' x' m,
    next t x va pa pages = some (ret, pages', x') ∧
    Walked K flags x x' d t b (position d va) pa m ∧
    WalkRet x' d t (position d va) pages ret pages' m

namespace Walked

theorem refl (h : TableInv K x d t b) (hv : v ≤ 512 ^ (d + 1)) :
    Walked K flags x x d t b v pa 0 :=
  ⟨.refl h, hv, fun _ h1 h2 => by omega, fun _ _ _ => .inl rfl⟩

theorem trans {m' : ℕ} (h : Walked K flags x x' d t b v pa m)
    (h' : Walked K flags x' x'' d t b (v + m) (advance pa m) m') :
    Walked K flags x x'' d t b v pa (m + m') where
  step := h.step.trans h'.step
  le := by
    have := h'.le
    omega
  wrote w h1 h2 := by
    have hle := h'.le
    by_cases hw : w < v + m
    · obtain ⟨hn, hl⟩ := h.wrote w h1 hw
      refine ⟨hn, ?_⟩
      rcases h'.rest w (by omega) (.inl hw) with hr | ⟨hr, -⟩
      · rw [hr, hl]
      · rw [hl] at hr
        cases hr
    · obtain ⟨hn, hl⟩ := h'.wrote w (by omega) (by omega)
      constructor
      · rintro ⟨e, he, hve⟩
        rcases h.rest w (by omega) (.inr (by omega)) with hr | ⟨hr, -⟩
        · exact hn ⟨e, hr.trans he, hve⟩
        · rw [hr] at he
          cases he
      · rw [hl, advance_advance, show m + (w - (v + m)) = w - v by omega]
  rest w hw hor := by
    rcases h.rest w hw (by omega) with hr | ⟨hr, hr0⟩
    · rw [← hr]
      exact h'.rest w hw (by omega)
    · rcases h'.rest w hw (by omega) with hr' | ⟨hr', -⟩
      · exact .inr ⟨hr, hr'.trans hr0⟩
      · rw [hr0] at hr'
        cases hr'

/-- A walk in the table below entry `i` is one of the table itself. -/
theorem child (h : Walked K flags x x' d t' (b + i * 512 ^ (d + 1)) v pa m)
    (hinv : TableInv K x (d + 1) t b) (hi : i < 512)
    (hn : (sv39Format L).next (x.words t i) = some t') :
    Walked K flags x x' (d + 1) t b (i * 512 ^ (d + 1) + v) pa m := by
  have hentry := h.step.entry hinv hi hn
  have hn' : (sv39Format L).next (x'.words t i) = some t' := by
    rw [(h.step.frame t (hinv.apart t (root_mem_tables x _ t)) (hinv.tree.child hi hn).2).1, hn]
  have hS : 0 < 512 ^ (d + 1) := pow_pos (by norm_num) _
  have hle := h.le
  have hin : ∀ w, i * 512 ^ (d + 1) ≤ w → w < (i + 1) * 512 ^ (d + 1) →
      x.leaf (d + 1) t w = x.leaf d t' (w - i * 512 ^ (d + 1)) ∧
      x'.leaf (d + 1) t w = x'.leaf d t' (w - i * 512 ^ (d + 1)) := by
    intro w h1 h2
    have hdiv : w / 512 ^ (d + 1) = i := by
      rw [Nat.div_eq_iff hS]
      rw [Nat.add_mul, Nat.one_mul] at h2
      omega
    have hmod : w % 512 ^ (d + 1) = w - i * 512 ^ (d + 1) := by
      have := Nat.div_add_mod w (512 ^ (d + 1))
      rw [hdiv, Nat.mul_comm] at this
      omega
    rw [← hmod]
    exact ⟨leaf_child (by rw [hdiv, hn]), leaf_child (by rw [hdiv, hn'])⟩
  have hend : (i + 1) * 512 ^ (d + 1) ≤ 512 ^ (d + 1 + 1) := by
    rw [pow_succ' 512 (d + 1)]
    exact Nat.mul_le_mul_right _ hi
  have hadd : (i + 1) * 512 ^ (d + 1) = i * 512 ^ (d + 1) + 512 ^ (d + 1) := by
    rw [Nat.add_mul, Nat.one_mul]
  refine ⟨hentry.tableStep hinv hi, by omega, ?_, ?_⟩
  · intro w h1 h2
    obtain ⟨hl, hl'⟩ := hin w (by omega) (by omega)
    obtain ⟨hno, hw⟩ := h.wrote (w - i * 512 ^ (d + 1)) (by omega) (by omega)
    constructor
    · rintro ⟨e, he, hve⟩
      exact hno ⟨e, hl.symm.trans he, hve⟩
    · rw [hl', hw, show w - i * 512 ^ (d + 1) - v = w - (i * 512 ^ (d + 1) + v) by omega]
  · intro w hw hor
    by_cases hdiv : w / 512 ^ (d + 1) = i
    · have h1 := Nat.div_add_mod w (512 ^ (d + 1))
      have h2 := Nat.mod_lt w hS
      rw [hdiv, Nat.mul_comm] at h1
      obtain ⟨hl, hl'⟩ := hin w (by omega) (by omega)
      rw [hl, hl']
      exact h.rest _ (by omega) (by omega)
    · exact .inl (hentry.leaf_other hinv hi hw hdiv)

end Walked

/-! ### The last level -/

theorem walkLeaves_spec (flags n : ℕ) (x : Memory A) (va pa : ℕ) (pages : ℤ) (hn : n ≤ 512)
    (hpa : pa < 2 ^ 64) (hinv : TableInv K x 0 t b) : ∃ ret pages' x' m,
    walkLeaves flags t n x va pa pages = (ret, pages', x') ∧
    Walked K flags x x' 0 t b (512 - n) pa m ∧ WalkRet x' 0 t (512 - n) pages ret pages' m := by
  induction n generalizing x va pa pages with
  | zero =>
    refine ⟨0, pages, x, 0, rfl, .refl hinv le_rfl, by simp, fun h => ⟨by omega, nofun⟩, ?_, nofun⟩
    exact fun _ => ⟨.inr rfl, fun h => absurd h (lt_irrefl _)⟩
  | succ n ih =>
    rw [walkLeaves, pteNums_eq]
    have hleaf : x.leaf 0 t (512 - (n + 1)) = some (x.words t (512 - (n + 1))) := rfl
    by_cases hv : PteValid (x.words t (512 - (n + 1)))
    · rw [if_neg (not_not.2 hv)]
      refine ⟨-eexist, pages, x, 0, rfl, .refl hinv (by omega), by simp,
        fun h => ⟨by omega, fun _ => by omega⟩, nofun, fun _ => ⟨by omega, ?_⟩⟩
      exact .inl ⟨rfl, _, hleaf, hv⟩
    · rw [if_pos hv]
      have hstep : TableStep K x (x.setWord t (512 - (n + 1)) (sv39Pa2PTE pa flags)) 0 t b :=
        .setLeaf hinv fun _ => hv
      have hone : Walked K flags x (x.setWord t (512 - (n + 1)) (sv39Pa2PTE pa flags)) 0 t b
          (512 - (n + 1)) pa 1 := by
        refine ⟨hstep, by omega, ?_, ?_⟩
        · intro w h1 h2
          have hw : w = 512 - (n + 1) := by omega
          rw [hw, Nat.sub_self, Nat.cast_zero, advance_zero hpa, leaf_setWord, if_pos rfl]
          refine ⟨?_, rfl⟩
          rintro ⟨e, he, hve⟩
          cases he
          exact hv hve
        · intro w _ hor
          rw [leaf_setWord, if_neg (by omega)]
          exact .inl rfl
      dsimp only
      by_cases h0 : pages - 1 = 0
      · rw [if_pos h0]
        refine ⟨0, pages - 1, _, 1, rfl, hone, by simp, fun h => ⟨by omega, nofun⟩,
          fun _ => ⟨.inl h0, fun _ => le_rfl⟩, nofun⟩
      · rw [if_neg h0]
        obtain ⟨ret, pages', x', m, heq, hw, hr⟩ := ih _ (advance va 1) (advance pa 1) (pages - 1)
          (by omega) (advance_lt _ _) hstep.inv
        have hpos : 512 - n = 512 - (n + 1) + 1 := by omega
        rw [hpos] at hw hr
        refine ⟨ret, pages', x', 1 + m, heq, hone.trans hw, ?_, ?_, ?_, ?_⟩
        · rw [hr.left]
          push_cast
          omega
        · intro hp
          have := hr.budget (by omega)
          push_cast
          omega
        · intro h
          obtain ⟨h1, -⟩ := hr.done h
          refine ⟨?_, by omega⟩
          rwa [← Nat.add_assoc]
        · intro h
          obtain ⟨h1, h2⟩ := hr.failed h
          rw [← Nat.add_assoc]
          exact ⟨h1, h2⟩

/-! ### The other levels -/

/-- Linking an empty table enters no page. -/
theorem Walked.of_link {p : ℕ} (hinv : TableInv K x (d + 1) t b) (hi : i < 512)
    (hn : (sv39Format L).next (x.words t i) = none) (ha : x.bkpAllocZero 0 = (some p, x'))
    (hv : v ≤ 512 ^ (d + 1 + 1)) :
    Walked K flags x (x'.setWord t i (L.pointer p)) (d + 1) t b v pa 0 := by
  obtain ⟨hnew, hclear, hentry⟩ := EntryStep.link hinv hn ha
  refine ⟨hentry.tableStep hinv hi, hv, fun _ h1 h2 => by omega, fun w hw _ => ?_⟩
  by_cases hdiv : w / 512 ^ (d + 1) = i
  · have hold : x.leaf (d + 1) t w = none := leaf_hole (by rw [hdiv, hn])
    rw [hold, leaf_child (by rw [hdiv, hnew])]
    cases he : (x'.setWord t i (L.pointer p)).leaf d p (w % 512 ^ (d + 1)) with
    | none => exact .inl rfl
    | some e =>
      have hlt := Nat.mod_lt w (show 0 < 512 ^ (d + 1) from pow_pos (by norm_num) _)
      exact .inr ⟨rfl, by rw [leaf_of_empty hclear hlt he]; rfl⟩
  · exact .inl (hentry.leaf_other hinv hi hw hdiv)

/-- Why the walk below entry `i` stopped, counted in positions of the table itself. -/
structure EntryRet (x' : Memory A) (d t v i : ℕ) (pages ret pages' : ℤ) (m : ℕ) : Prop where
  left : pages' = pages - m
  budget : 0 < pages → m ≤ pages ∧ (ret ≠ 0 → m < pages)
  done : ret = 0 → (pages' = 0 ∨ v + m = (i + 1) * 512 ^ (d + 1)) ∧ 1 ≤ m
  failed : ret ≠ 0 → v + m < (i + 1) * 512 ^ (d + 1) ∧
    (ret = -eexist ∧ x'.ValidAt (d + 1) t (v + m) ∨
      ret = -enomem ∧ x'.leaf (d + 1) t (v + m) = none ∧ x'.OutOfPages)

theorem WalkRet.entry {pages ret pages' : ℤ} (h : WalkRet x' d t' v pages ret pages' m)
    (hv : v < 512 ^ (d + 1)) (hn : (sv39Format L).next (x'.words t i) = some t') :
    EntryRet x' d t (i * 512 ^ (d + 1) + v) i pages ret pages' m := by
  have hadd : (i + 1) * 512 ^ (d + 1) = i * 512 ^ (d + 1) + 512 ^ (d + 1) := by
    rw [Nat.add_mul, Nat.one_mul]
  refine ⟨h.left, h.budget, fun h0 => ?_, fun h0 => ?_⟩
  · obtain ⟨h1, h2⟩ := h.done h0
    exact ⟨by omega, h2 hv⟩
  · obtain ⟨h1, h2⟩ := h.failed h0
    have hdiv : (i * 512 ^ (d + 1) + v + m) / 512 ^ (d + 1) = i := by
      rw [Nat.div_eq_iff (pow_pos (by norm_num) _)]
      omega
    have hmod : (i * 512 ^ (d + 1) + v + m) % 512 ^ (d + 1) = v + m := by
      rw [Nat.add_assoc, Nat.mul_comm, Nat.mul_add_mod, Nat.mod_eq_of_lt h1]
    have hleaf : x'.leaf (d + 1) t (i * 512 ^ (d + 1) + v + m) = x'.leaf d t' (v + m) := by
      rw [leaf_child (by rw [hdiv, hn]), hmod]
    exact ⟨by omega, h2.imp (fun ⟨hr, e, he, hve⟩ => ⟨hr, e, hleaf.trans he, hve⟩)
      fun ⟨hr, he, hout⟩ => ⟨hr, hleaf.trans he, hout⟩⟩

/-- The walk ends in an entry: it failed, or no page is left. -/
theorem EntryRet.stopped {pages ret pages' : ℤ} (h : EntryRet x' d t v i pages ret pages' m)
    (hi : i < 512) (h0 : ret = 0 → pages' = 0) : WalkRet x' (d + 1) t v pages ret pages' m where
  left := h.left
  budget := h.budget
  done hret := ⟨.inl (h0 hret), fun _ => (h.done hret).2⟩
  failed hret := by
    have htop : (i + 1) * 512 ^ (d + 1) ≤ 512 ^ (d + 1 + 1) := by
      rw [pow_succ' 512 (d + 1)]
      exact Nat.mul_le_mul_right _ hi
    obtain ⟨h1, h2⟩ := h.failed hret
    exact ⟨by omega, h2⟩

/-- The walk goes on behind an entry. -/
theorem EntryRet.cons {pages ret pages₁ pages' : ℤ} {m₁ : ℕ}
    (h : EntryRet x' d t v i pages 0 pages₁ m₁) (hleft : pages₁ ≠ 0)
    (h' : WalkRet x'' (d + 1) t (v + m₁) pages₁ ret pages' m) :
    WalkRet x'' (d + 1) t v pages ret pages' (m₁ + m) where
  left := by
    rw [h'.left, h.left]
    push_cast
    omega
  budget hp := by
    have h1 := h.budget hp
    have h2 := h'.budget (by have := h.left; omega)
    have h3 := h.left
    push_cast
    omega
  done h0 := by
    obtain ⟨h1, -⟩ := h'.done h0
    have h2 := (h.done rfl).2
    refine ⟨?_, by omega⟩
    rwa [← Nat.add_assoc]
  failed h0 := by
    rw [← Nat.add_assoc]
    exact h'.failed h0

variable {next : ℕ → Memory A → ℕ → ℕ → ℤ → Option (ℤ × ℤ × Memory A)}

theorem walkEntry_spec (hnext : WalkSpec K flags d next) (hinv : TableInv K x (d + 1) t b)
    (hi : i < 512) (va : ℕ) (hpa : pa < 2 ^ 64) (pages : ℤ) : ∃ ret pages' x' m,
    walkEntry next t i x va pa pages = some (ret, pages', x') ∧
    Walked K flags x x' (d + 1) t b (i * 512 ^ (d + 1) + position d va) pa m ∧
    EntryRet x' d t (i * 512 ^ (d + 1) + position d va) i pages ret pages' m := by
  have hv := position_lt d va
  have hend : i * 512 ^ (d + 1) + position d va ≤ 512 ^ (d + 1 + 1) := by
    have h1 := Nat.mul_le_mul_right (512 ^ (d + 1)) (Nat.succ_le_of_lt hi)
    rw [Nat.succ_mul, ← pow_succ'] at h1
    omega
  have hlink : ∀ {y : Memory A} {t'}, TableInv K y (d + 1) t b →
      (sv39Format L).next (y.words t i) = some t' →
      ∃ ret pages' x' m, next t' y va pa pages = some (ret, pages', x') ∧
        Walked K flags y x' (d + 1) t b (i * 512 ^ (d + 1) + position d va) pa m ∧
        EntryRet x' d t (i * 512 ^ (d + 1) + position d va) i pages ret pages' m := by
    intro y t' hy hn
    obtain ⟨ret, pages', x', m, heq, hw, hr⟩ :=
      hnext t' y va pa pages _ hpa (hy.child hi hn).1
    refine ⟨ret, pages', x', m, heq, hw.child hy hi hn, hr.entry hv ?_⟩
    rw [(hw.step.frame t (hy.apart t (root_mem_tables y _ t)) (hy.tree.child hi hn).2).1, hn]
  rw [walkEntry]
  rcases hinv.tree i hi with h0 | ⟨t', hn, -⟩
  · -- an empty entry: a table is needed
    rw [sv39Format_empty] at h0
    have hnot : ¬ PteValid (x.words t i) := by
      rw [h0]
      exact not_pteValid_zero
    have hn := sv39Format_next_none (L := L) fun h => hnot (h : PteNextpgt (x.words t i)).1
    rw [if_neg hnot]
    cases ha : x.bkpAllocZero 0 with
    | mk ret x₁ =>
    cases ret with
    | none =>
      obtain ⟨h1, h2, h3, h4⟩ := bkpAllocZero_none ha
      refine ⟨-enomem, pages, x₁, 0, rfl,
        ⟨.of_same hinv h1 h2 h3 h4 (bkpAllocZero_evolves ha), hend,
        fun _ h1 h2 => by omega, fun w _ _ => .inl (by rw [leaf, h4, leaf])⟩, by simp,
        fun h => ⟨by omega, fun _ => by omega⟩, nofun, fun _ => ⟨?_, .inr ⟨rfl, ?_, ?_⟩⟩⟩
      · rw [Nat.add_mul, Nat.one_mul]
        omega
      · have hdiv : (i * 512 ^ (d + 1) + position d va) / 512 ^ (d + 1) = i := by
          rw [Nat.div_eq_iff (pow_pos (by norm_num) _)]
          omega
        exact leaf_hole (by rw [Nat.add_zero, hdiv, h4, hn])
      · exact ⟨x.buddy, bkpAllocZero_none_alloc ha⟩
    | some p =>
      have hp : p < L.pageNums :=
        (A.wellFormed x.buddy).free_lt p (bkpAllocZero_some ha).2.mem_free
      have hw : Walked K flags x _ (d + 1) t b _ pa 0 := Walked.of_link hinv hi hn ha hend
      obtain ⟨hnew, -, -⟩ := EntryStep.link hinv hn ha
      obtain ⟨ret, pages', x', m, heq, hw', hr⟩ := hlink hw.step.inv hnew
      have hw0 : Walked K flags x x' (d + 1) t b (i * 512 ^ (d + 1) + position d va) pa (0 + m) :=
        hw.trans (by rw [Nat.cast_zero, advance_zero hpa]; exact hw')
      rw [Nat.zero_add] at hw0
      refine ⟨ret, pages', x', m, ?_, hw0, hr⟩
      dsimp only
      rw [if_pos ⟨VmLayout.pg2pa_aligned hp, VmLayout.pg2va_aligned hp⟩, heq]
  · -- a table is there
    obtain ⟨hnext', heq⟩ := nextPgtable_eq hn
    rw [if_pos hnext'.1, if_neg (not_not.2 hnext'), heq]
    exact hlink hinv hn

theorem walkDir_spec (hnext : WalkSpec K flags d next) (hd : d + 1 ≤ 2) (n : ℕ) (x : Memory A)
    (va pa : ℕ) (pages : ℤ) (hn : n ≤ 512) (hpa : pa < 2 ^ 64)
    (hinv : TableInv K x (d + 1) t b) (v : ℕ) (hlo : (512 - n) * 512 ^ (d + 1) ≤ v)
    (hhi : v < (512 - n + 1) * 512 ^ (d + 1)) (hend : n = 0 → v = 512 ^ (d + 1 + 1))
    (hva : 0 < n → position (d + 1) va = v) : ∃ ret pages' x' m,
    walkDir next t n x va pa pages = some (ret, pages', x') ∧
    Walked K flags x x' (d + 1) t b v pa m ∧ WalkRet x' (d + 1) t v pages ret pages' m := by
  induction n generalizing x va pa pages v with
  | zero =>
    have hv := hend rfl
    refine ⟨0, pages, x, 0, rfl, .refl hinv hv.le, by simp, fun h => ⟨by omega, nofun⟩, ?_, nofun⟩
    exact fun _ => ⟨.inr hv, fun h => absurd hv (ne_of_lt h)⟩
  | succ n ih =>
    have hi : 512 - (n + 1) < 512 := by omega
    have hva' := hva (Nat.succ_pos n)
    have hpos := position_entry hlo hhi hva'
    obtain ⟨ret, pages₁, x₁, m₁, heq, hw, hr⟩ := walkEntry_spec hnext hinv hi va hpa pages
    rw [hpos] at hw hr
    rw [walkDir, pteNums_eq, heq]
    dsimp only
    by_cases hret : ret = 0
    · subst hret
      rw [if_neg (not_not.2 rfl)]
      by_cases h0 : pages₁ = 0
      · rw [if_pos h0]
        exact ⟨0, pages₁, x₁, m₁, rfl, hw, hr.stopped hi fun _ => h0⟩
      · -- the entry is full, and the walk goes on at the next one
        rw [if_neg h0]
        have hS : 0 < 512 ^ (d + 1) := pow_pos (by norm_num) _
        have hm : pages - pages₁ = (m₁ : ℕ) := by
          rw [hr.left]
          omega
        have hv₁ : v + m₁ = (512 - n) * 512 ^ (d + 1) := by
          rw [(hr.done rfl).1.resolve_left h0]
          congr 1
          omega
        rw [hm]
        obtain ⟨ret, pages', x', m, heq', hw', hr'⟩ := ih x₁ (advance va m₁) (advance pa m₁) pages₁
          (by omega) (advance_lt _ _) hw.step.inv (v + m₁) (by omega)
          (by rw [Nat.add_mul, Nat.one_mul]; omega)
          (by rintro rfl; rw [hv₁, Nat.sub_zero, ← pow_succ'])
          (fun hn0 => by
            rw [position_advance hd, hva', Nat.mod_eq_of_lt]
            rw [hv₁, pow_succ' 512 (d + 1)]
            exact Nat.mul_lt_mul_of_pos_right (by omega) hS)
        exact ⟨ret, pages', x', m₁ + m, heq', hw.trans hw', hr.cons h0 hr'⟩
    · rw [if_pos hret]
      exact ⟨ret, pages₁, x₁, m₁, rfl, hw, hr.stopped hi fun h => absurd h hret⟩

/-- `vm_walkthrough` on every level. -/
theorem walk_spec (K : ℕ → Prop) (flags d : ℕ) (hd : d ≤ 2) :
    WalkSpec (A := A) K flags d (vmWalkthrough flags d) := by
  induction d with
  | zero =>
    intro t x va pa pages b hpa hinv
    have hv := position_lt 0 va
    have hidx : sv39Index2Id va 2 = position 0 va := by
      have := index_eq (d := 0) (by omega) va
      rwa [pow_zero, Nat.div_one] at this
    obtain ⟨ret, pages', x', m, heq, hw, hr⟩ := walkLeaves_spec flags
      (pteNums - position 0 va) x va pa pages (Nat.sub_le _ _) hpa hinv
    rw [pteNums_eq, show 512 - (512 - position 0 va) = position 0 va by omega] at hw hr
    exact ⟨ret, pages', x', m, by rw [vmWalkthrough, hidx, heq], hw, hr⟩
  | succ d ih =>
    intro t x va pa pages b hpa hinv
    have hS : 0 < 512 ^ (d + 1) := pow_pos (by norm_num) _
    have hv := position_lt (d + 1) va
    have hidx : sv39Index2Id va (1 - d) = position (d + 1) va / 512 ^ (d + 1) := by
      have := index_eq (d := d + 1) hd va
      rwa [show 2 - (d + 1) = 1 - d by omega] at this
    have hlt : position (d + 1) va / 512 ^ (d + 1) < 512 := by
      rw [Nat.div_lt_iff_lt_mul hS, ← pow_succ']
      exact hv
    have hcnt : 512 - (512 - position (d + 1) va / 512 ^ (d + 1)) =
        position (d + 1) va / 512 ^ (d + 1) := by omega
    obtain ⟨ret, pages', x', m, heq, hw, hr⟩ := walkDir_spec (ih (by omega)) hd
      (pteNums - position (d + 1) va / 512 ^ (d + 1)) x va pa pages (Nat.sub_le _ _) hpa hinv
      (position (d + 1) va)
      (by rw [pteNums_eq, hcnt]; exact Nat.div_mul_le_self _ _)
      (by rw [pteNums_eq, hcnt]; exact (Nat.div_lt_iff_lt_mul hS).1 (Nat.lt_succ_self _))
      (by rw [pteNums_eq]; omega) (fun _ => rfl)
    exact ⟨ret, pages', x', m, by rw [vmWalkthrough, hidx, heq], hw, hr⟩

end Memory

end AcoOs
