/-
What `__arch_hw_unmap` clears when tables are missing.

`riscv_unmap` passes by a whole span where a table is missing, also when it is in the middle of the
span.  So it is late at the next entry, and the first pages of a table there are not cleared.  What
it does clear are the positions that a sweep visits (`Radix.Visits`), and nothing else changes
(`Swept`).

* **`hw_unmap_clears_iff`** — `__arch_hw_unmap` clears exactly its range just when every valid page
  of the range is visited;
* **`hw_unmap_visits`** — it is when the range begins at a multiple of 1 GiB, or no table of it is
  missing;
* **`hw_unmap_not_cleared`** — behind a missing table it leaves a page that is mapped.
-/
import AcoOs.PageTableCalls
import AcoOs.RadixSweep

namespace AcoOs

open Radix

variable {L : VmLayout} {A : PageAllocator L.toLayout}

namespace Memory

variable {K : ℕ → Prop} {x x' x₁ : Memory A} {d t t' b i o v w : ℕ} {pages pages' : ℤ}
  {next : ℕ → Memory A → ℕ → ℤ → Option (ℤ × Memory A)}

/-- The unmap that begins at position `v` gets to position `w`. -/
def Visits (x : Memory A) (d t v w : ℕ) : Prop := Radix.Visits (sv39Format L) x.words d t v w

/-- The entry is as it was, or there is none before and after. -/
def SameLeaf (x x' : Memory A) (d t w : ℕ) : Prop :=
  x'.leaf d t w = x.leaf d t w ∨ Gone (x.leaf d t w) ∧ Gone (x'.leaf d t w)

/-- What an unmap of `pages` pages from position `v` on does to a table. -/
structure Swept (x x' : Memory A) (d t v : ℕ) (pages pages' : ℤ) : Prop where
  left : pages' = max 0 (v + pages - (512 ^ (d + 1) + late (sv39Format L) x.words d t v : ℕ))
  cleared : ∀ w : ℕ, w < 512 ^ (d + 1) → (w : ℤ) < v + pages → x.Visits d t v w →
    Gone (x'.leaf d t w)
  kept : ∀ w < 512 ^ (d + 1), ¬ x.Visits d t v w → SameLeaf x x' d t w

theorem SameLeaf.trans (h : SameLeaf x x₁ d t w) (h' : SameLeaf x₁ x' d t w) :
    SameLeaf x x' d t w := by
  rcases h with h | ⟨h, hg⟩
  · rcases h' with h' | ⟨h', hg'⟩
    · exact .inl (h'.trans h)
    · rw [h] at h'
      exact .inr ⟨h', hg'⟩
  · rcases h' with h' | ⟨-, hg'⟩
    · rw [← h'] at hg
      exact .inr ⟨h, hg⟩
    · exact .inr ⟨h, hg'⟩

/-- What is proved of an unmap on one level, for use one level up. -/
def SweepSpec (K : ℕ → Prop) (d : ℕ) (next : ℕ → Memory A → ℕ → ℤ → Option (ℤ × Memory A)) :
    Prop :=
  ∀ t x va pages b pages' x', TableInv K x d t b → 0 < pages →
    (∀ w, InRange (position d va) pages w → ¬ K (b + w)) →
    next t x va pages = some (pages', x') → Swept x x' d t (position d va) pages pages'

theorem sweep_leaves (K : ℕ → Prop) : SweepSpec (A := A) K 0 (riscvUnmap 0) := by
  intro t x va pages b pages' x' hinv hp hK heq
  obtain ⟨pages₁, x₁, heq₁, hun, -⟩ := unmap_leaves K t x va pages b hinv hK
  rw [heq] at heq₁
  cases heq₁
  have hleaf : ∀ w, x.leaf 0 t w ≠ none := fun _ => Option.some_ne_none _
  obtain ⟨h1, h2⟩ := hun.exact hp fun w _ _ _ => hleaf w
  have hnn := (hun.left hp).1
  have hlate : late (sv39Format L) x.words 0 t (position 0 va) = 0 := rfl
  refine ⟨?_, fun w hw hlt hv => h2 w hv hw hlt, fun w hw hv => ?_⟩
  · rw [hlate, Nat.add_zero]
    omega
  · rcases hun.erased w hw with h | ⟨h, h' | h'⟩
    · exact .inl h
    · exact .inr ⟨h', h⟩
    · exact absurd h'.1 hv

/-! ### One entry -/

/-- What an unmap does at entry `i` that it enters at offset `o`. -/
structure EntrySwept (x x' : Memory A) (d t i o : ℕ) (pages pages' : ℤ) : Prop where
  left : pages' = max 0 (o + pages -
    (512 ^ (d + 1) + lateEntry (sv39Format L) x.words d t i o : ℕ))
  cleared : ∀ t', (sv39Format L).next (x.words t i) = some t' → ∀ w : ℕ, w < 512 ^ (d + 1) →
    (w : ℤ) < o + pages → x.Visits d t' o w → Gone (x'.leaf (d + 1) t (i * 512 ^ (d + 1) + w))
  kept : ∀ w < 512 ^ (d + 1), (∀ t', (sv39Format L).next (x.words t i) = some t' →
    ¬ x.Visits d t' o w) → SameLeaf x x' (d + 1) t (i * 512 ^ (d + 1) + w)
  replaced : Replaced (sv39Format L) x.words x'.words d t i

/-- A missing table is passed by. -/
theorem EntrySwept.of_hole (hn : (sv39Format L).next (x.words t i) = none) (hi : i < 512)
    (hpages : pages' = if (512 ^ (d + 1) : ℕ) < pages then pages - (512 ^ (d + 1) : ℕ) else 0) :
    EntrySwept x x d t i o pages pages' where
  left := by
    rw [hpages, lateEntry_none hn]
    split_ifs <;> omega
  cleared t' hn' := by
    rw [hn] at hn'
    cases hn'
  kept _ _ _ := .inl rfl
  replaced := ⟨hi, fun _ _ _ => rfl, fun _ _ _ _ _ => rfl⟩

/-- The table below an entry is swept. -/
theorem EntrySwept.of_child (hn : (sv39Format L).next (x.words t i) = some t')
    (hn' : (sv39Format L).next (x'.words t i) = some t') (h : Swept x x' d t' o pages pages')
    (hr : Replaced (sv39Format L) x.words x'.words d t i) :
    EntrySwept x x' d t i o pages pages' where
  left := by
    rw [lateEntry_some hn]
    exact h.left
  cleared t'' hn'' w hw hlt hv := by
    rw [hn] at hn''
    cases hn''
    rw [leaf_of_entry hn' hw]
    exact h.cleared w hw hlt hv
  kept w hw hno := by
    unfold SameLeaf
    rw [leaf_of_entry hn hw, leaf_of_entry hn' hw]
    exact h.kept w hw (hno t' hn)
  replaced := hr

/-- The table below an entry is swept, is empty then and is freed. -/
theorem EntrySwept.of_emptied (hn : (sv39Format L).next (x.words t i) = some t')
    (h : Swept x x₁ d t' o pages pages') (hgone : ∀ w < 512 ^ (d + 1), Gone (x₁.leaf d t' w))
    (hhole : ∀ w, w / 512 ^ (d + 1) = i → x'.leaf (d + 1) t w = none)
    (hr : Replaced (sv39Format L) x.words x'.words d t i) :
    EntrySwept x x' d t i o pages pages' where
  left := by
    rw [lateEntry_some hn]
    exact h.left
  cleared _ _ w hw _ _ := by
    refine .inl (hhole _ ?_)
    rw [Nat.div_eq_iff (pow_pos (by norm_num) _)]
    omega
  kept w hw hno := by
    refine .inr ⟨?_, .inl (hhole _ ?_)⟩
    · rw [leaf_of_entry hn hw]
      rcases h.kept w hw (hno t' hn) with h1 | ⟨h1, -⟩
      · rw [← h1]
        exact hgone w hw
      · exact h1
    · rw [Nat.div_eq_iff (pow_pos (by norm_num) _)]
      omega
  replaced := hr

theorem unmapEntry_swept (hnext : UnmapSpec K d next) (hsweep : SweepSpec K d next)
    (hd : d + 1 ≤ 2) (hinv : TableInv K x (d + 1) t b) (hi : i < 512) {va : ℕ} (hp : 0 < pages)
    (hK : ∀ w, InRange (i * 512 ^ (d + 1) + position d va) pages w → ¬ K (b + w))
    (heq : unmapEntry next (1 - d) t i x va pages = some (pages', x')) :
    EntrySwept x x' d t i (position d va) pages pages' := by
  obtain ⟨pages₁, y, heq₁, hrun⟩ := unmapEntry_run hnext hd hinv hi va pages hK
  rw [heq] at heq₁
  cases heq₁
  have hK' : ∀ w, InRange (position d va) pages w → ¬ K (b + i * 512 ^ (d + 1) + w) := by
    intro w hw
    rw [Nat.add_assoc]
    exact hK _ (hw.shift _)
  cases hrun with
  | hole hn => exact .of_hole hn hi rfl
  | child hn hx' h =>
    have hsw := hsweep _ x va pages _ _ _ (hinv.child hi hn).1 hp hK' hx'
    have hentry := h.step.entry hinv hi hn
    refine .of_child hn ?_ hsw (hentry.replaced hinv hi)
    rw [(h.step.frame t (hinv.apart t (root_mem_tables x _ t)) (hinv.tree.child hi hn).2).1, hn]
  | emptied hn hx₁ h hfull hgone hlink hzero =>
    have hsw := hsweep _ x va pages _ _ _ (hinv.child hi hn).1 hp hK' hx₁
    have hentry := h.step.entry hinv hi hn
    refine .of_emptied hn hsw hgone (fun w hw => leaf_hole ?_)
      ((hentry.replaced hinv hi).trans (hlink.replaced (hentry.tableStep hinv hi).inv hi))
    rw [hw, hzero]
    exact sv39Format_next_none fun h => not_pteValid_zero h.1

/-! ### A table -/

/-- What an unmap does to a table when it enters word `i` at offset `o`. -/
structure DirSwept (x x' : Memory A) (d t i o : ℕ) (pages pages' : ℤ) (k : ℕ) : Prop where
  left : pages' = max 0 ((i * 512 ^ (d + 1) + o : ℕ) + pages -
    (512 * 512 ^ (d + 1) + offset (lateEntry (sv39Format L) x.words d t) i k o : ℕ))
  cleared : ∀ w : ℕ, w < 512 * 512 ^ (d + 1) → (w : ℤ) < (i * 512 ^ (d + 1) + o : ℕ) + pages →
    VisitsFrom (sv39Format L) x.words d t i o w → Gone (x'.leaf (d + 1) t w)
  kept : ∀ w < 512 * 512 ^ (d + 1), ¬ VisitsFrom (sv39Format L) x.words d t i o w →
    SameLeaf x x' (d + 1) t w

namespace EntrySwept

variable {pages₁ : ℤ} {k : ℕ}

/-- The positions of the entry itself. -/
theorem cleared_self (h : EntrySwept x x₁ d t i o pages pages₁)
    (hdiv : w / 512 ^ (d + 1) = i) (hlt : (w : ℤ) < (i * 512 ^ (d + 1) + o : ℕ) + pages)
    (hv : VisitsFrom (sv39Format L) x.words d t i o w) : Gone (x₁.leaf (d + 1) t w) := by
  obtain ⟨t', hn, hv⟩ := (visitsFrom_self (F := sv39Format L) hdiv).1 hv
  have hw : w = i * 512 ^ (d + 1) + w % 512 ^ (d + 1) := by
    rw [← hdiv, Nat.mul_comm, Nat.div_add_mod]
  have hmod := Nat.mod_lt w (show 0 < 512 ^ (d + 1) from pow_pos (by norm_num) _)
  have hv : x.Visits d t' o (w % 512 ^ (d + 1)) := hv
  generalize w % 512 ^ (d + 1) = u at *
  rw [hw]
  refine h.cleared t' hn u hmod ?_ hv
  rw [hw] at hlt
  push_cast at hlt
  omega

theorem kept_self (h : EntrySwept x x₁ d t i o pages pages₁)
    (hdiv : w / 512 ^ (d + 1) = i) (hv : ¬ VisitsFrom (sv39Format L) x.words d t i o w) :
    SameLeaf x x₁ (d + 1) t w := by
  rw [visitsFrom_self (F := sv39Format L) hdiv] at hv
  have hw : w = i * 512 ^ (d + 1) + w % 512 ^ (d + 1) := by
    rw [← hdiv, Nat.mul_comm, Nat.div_add_mod]
  have hmod := Nat.mod_lt w (show 0 < 512 ^ (d + 1) from pow_pos (by norm_num) _)
  have hv : ∀ t', (sv39Format L).next (x.words t i) = some t' →
      ¬ x.Visits d t' o (w % 512 ^ (d + 1)) := fun t' hn hvis => hv ⟨t', hn, hvis⟩
  generalize w % 512 ^ (d + 1) = u at *
  rw [hw]
  exact h.kept u hmod hv

/-- The unmap ends with this entry. -/
theorem done (h : EntrySwept x x₁ d t i o pages 0) (ho : o < 512 ^ (d + 1))
    (hk : i + (k + 1) = 512) :
    DirSwept x x₁ d t i o pages 0 (k + 1) := by
  have hleft := h.left
  have hlate : lateEntry (sv39Format L) x.words d t i o < 512 ^ (d + 1) :=
    lateEntry_lt (F := sv39Format L) ho
  have hother : ∀ w < 512 * 512 ^ (d + 1), w / 512 ^ (d + 1) ≠ i →
      x₁.leaf (d + 1) t w = x.leaf (d + 1) t w := fun w hw hdiv =>
    h.replaced.leaf_same (by rw [← pow_succ'] at hw; exact hw) hdiv
  refine ⟨?_, fun w hw hlt hv => ?_, fun w hw hv => ?_⟩
  · rw [offset_succ]
    generalize lateEntry (sv39Format L) x.words d t i o = o' at *
    rcases Nat.eq_zero_or_pos k with rfl | hpos
    · rw [offset_zero]
      obtain rfl : i = 511 := by omega
      generalize 512 ^ (d + 1) = S at *
      omega
    · have hle : (i + 2) * 512 ^ (d + 1) ≤ 512 * 512 ^ (d + 1) := Nat.mul_le_mul_right _ (by omega)
      rw [Nat.add_mul] at hle
      generalize 512 ^ (d + 1) = S at *
      generalize i * S = B at *
      omega
  · by_cases hdiv : w / 512 ^ (d + 1) = i
    · exact h.cleared_self hdiv hlt hv
    · -- a later position that is visited is not in the range
      have hle := hv.le (lt_of_le_of_ne hv.1 (Ne.symm hdiv)) ho
      exfalso
      rw [show (sv39Format L).fanout = 512 from rfl, Nat.add_mul, Nat.one_mul] at hle
      omega
  · by_cases hdiv : w / 512 ^ (d + 1) = i
    · exact h.kept_self hdiv hv
    · exact .inl (hother w hw hdiv)

/-- The unmap goes on with the next entry. -/
theorem cons (h : EntrySwept x x₁ d t i o pages pages₁) (h0 : pages₁ ≠ 0)
    (hk : i + 1 + k = 512)
    (h' : DirSwept x₁ x' d t (i + 1) (lateEntry (sv39Format L) x.words d t i o) pages₁ pages' k) :
    DirSwept x x' d t i o pages pages' (k + 1) := by
  have hr := h.replaced
  have hleft := h.left
  have hleft' := h'.left
  rw [hr.offset (show i + 1 + k ≤ (sv39Format L).fanout from hk.le)] at hleft'
  have hend : (((i + 1) * 512 ^ (d + 1) + lateEntry (sv39Format L) x.words d t i o : ℕ) : ℤ) +
      pages₁ = (i * 512 ^ (d + 1) + o : ℕ) + pages := by
    rw [Nat.add_mul, Nat.one_mul]
    push_cast at hleft ⊢
    omega
  have hlater : ∀ w < 512 * 512 ^ (d + 1), i < w / 512 ^ (d + 1) →
      (VisitsFrom (sv39Format L) x₁.words d t (i + 1) (lateEntry (sv39Format L) x.words d t i o) w ↔
        VisitsFrom (sv39Format L) x.words d t i o w) := fun w hw hi =>
    hr.visitsFrom (by rw [← pow_succ'] at hw; exact hw) hi
  have hsame : ∀ w < 512 * 512 ^ (d + 1), w / 512 ^ (d + 1) ≠ i →
      x₁.leaf (d + 1) t w = x.leaf (d + 1) t w := fun w hw hi =>
    hr.leaf_same (by rw [← pow_succ'] at hw; exact hw) hi
  have hbefore : ∀ w < 512 * 512 ^ (d + 1), w / 512 ^ (d + 1) ≤ i → SameLeaf x₁ x' (d + 1) t w :=
    fun w hw hi => h'.kept w hw fun hv => absurd hv.1 (by
      show ¬ i + 1 ≤ w / 512 ^ (d + 1)
      omega)
  refine ⟨?_, fun w hw hlt hv => ?_, fun w hw hv => ?_⟩
  · rw [hend] at hleft'
    exact hleft'
  · have hle : i ≤ w / 512 ^ (d + 1) := hv.1
    rcases hle.lt_or_eq with hi | hdiv
    · exact h'.cleared w hw (by rw [hend]; exact hlt) ((hlater w hw hi).2 hv)
    · have hgone := h.cleared_self hdiv.symm hlt hv
      rcases hbefore w hw hdiv.ge with hs | ⟨-, hs⟩
      · rwa [hs]
      · exact hs
  · rcases Nat.lt_trichotomy (w / 512 ^ (d + 1)) i with hi | hdiv | hi
    · unfold SameLeaf
      rw [← hsame w hw hi.ne]
      exact hbefore w hw hi.le
    · exact (h.kept_self hdiv hv).trans (hbefore w hw hdiv.le)
    · unfold SameLeaf
      rw [← hsame w hw hi.ne']
      exact h'.kept w hw fun hv' => hv ((hlater w hw hi).1 hv')

end EntrySwept

theorem unmapDir_swept (hnext : UnmapSpec K d next) (hsweep : SweepSpec K d next)
    (hd : d + 1 ≤ 2) (k i : ℕ) (x : Memory A) {va : ℕ} (hk : i + k = 512) (hp : 0 < pages)
    (hinv : TableInv K x (d + 1) t b)
    (hK : ∀ w, InRange (i * 512 ^ (d + 1) + position d va) pages w → ¬ K (b + w))
    (heq : unmapDir next (1 - d) t k x va pages = some (pages', x')) :
    DirSwept x x' d t i (position d va) pages pages' k := by
  have hS : 0 < 512 ^ (d + 1) := pow_pos (by norm_num) _
  induction k generalizing i x va pages with
  | zero =>
    rw [unmapDir] at heq
    cases heq
    obtain rfl : i = 512 := by omega
    refine ⟨?_, fun w hw _ hv => ?_, fun _ _ _ => .inl rfl⟩
    · rw [offset_zero]
      omega
    · have hlt : w / 512 ^ (d + 1) < 512 := (Nat.div_lt_iff_lt_mul hS).2 hw
      exact absurd hv.1 (Nat.not_le.2 hlt)
  | succ k ih =>
    have ho := position_lt d va
    obtain ⟨pages₁, x₁, heq₁, h⟩ := unmapEntry_spec (i := i) hnext hd hinv (by omega) va pages hK
    have hs := unmapEntry_swept hnext hsweep hd hinv (by omega) hp hK heq₁
    rw [unmapDir, pteNums_eq, show 512 - (k + 1) = i by omega, heq₁] at heq
    dsimp only at heq
    by_cases h0 : pages₁ = 0
    · rw [if_pos h0] at heq
      cases heq
      rw [h0] at hs ⊢
      exact hs.done ho hk
    · rw [if_neg h0] at heq
      have hleft := hs.left
      have hlate : lateEntry (sv39Format L) x.words d t i (position d va) < 512 ^ (d + 1) :=
        lateEntry_lt (F := sv39Format L) ho
      have hadv : pages - pages₁ = (512 ^ (d + 1) + lateEntry (sv39Format L) x.words d t i
          (position d va) - position d va : ℕ) := by omega
      have hpos : position d (advance va (pages - pages₁)) =
          lateEntry (sv39Format L) x.words d t i (position d va) := by
        rw [hadv, position_advance (by omega), Nat.add_sub_of_le (by omega), Nat.add_mod_left,
          Nat.mod_eq_of_lt hlate]
      refine hs.cons h0 (by omega) ?_
      have hrest := ih (i + 1) x₁ (by omega) (by omega) h.unmapped.step.inv (fun w hw => ?_) heq
      · rwa [hpos] at hrest
      · refine hK w (hw.of_later ?_ fun _ => ⟨by omega, ?_⟩)
        · rw [hpos, Nat.add_mul, Nat.one_mul]
          omega
        · rw [hpos, Nat.add_mul, Nat.one_mul]
          push_cast at hleft ⊢
          omega

/-- `riscv_unmap` on every level. -/
theorem sweep_spec (K : ℕ → Prop) (d : ℕ) (hd : d ≤ 2) : SweepSpec (A := A) K d (riscvUnmap d) := by
  induction d with
  | zero => exact sweep_leaves K
  | succ d ih =>
    intro t x va pages b pages' x' hinv hp hK heq
    have hS : 0 < 512 ^ (d + 1) := pow_pos (by norm_num) _
    have htop : 512 ^ (d + 1 + 1) = 512 * 512 ^ (d + 1) := pow_succ' 512 (d + 1)
    have hidx : sv39Index2Id va (1 - d) = position (d + 1) va / 512 ^ (d + 1) := by
      have := index_eq (d := d + 1) hd va
      rwa [show 2 - (d + 1) = 1 - d by omega] at this
    have hlt : position (d + 1) va / 512 ^ (d + 1) < 512 := by
      rw [Nat.div_lt_iff_lt_mul hS, ← htop]
      exact position_lt (d + 1) va
    have hv : position (d + 1) va / 512 ^ (d + 1) * 512 ^ (d + 1) + position d va =
        position (d + 1) va := by
      rw [position_child d va, Nat.div_add_mod']
    rw [riscvUnmap, hidx, pteNums_eq] at heq
    have h := unmapDir_swept (unmap_spec K d (by omega)) (ih (by omega)) hd _
      (position (d + 1) va / 512 ^ (d + 1)) x (by omega) hp hinv (by rw [hv]; exact hK) heq
    have hvis : ∀ w, VisitsFrom (sv39Format L) x.words d t (position (d + 1) va / 512 ^ (d + 1))
        (position d va) w ↔ x.Visits (d + 1) t (position (d + 1) va) w := by
      intro w
      rw [position_child d va]
      exact Iff.rfl
    refine ⟨?_, fun w hw hlt hw' => ?_, fun w hw hw' => ?_⟩
    · have hleft := h.left
      rw [hv, position_child d va] at hleft
      rw [htop, late_succ]
      exact hleft
    · rw [htop] at hw
      exact h.cleared w hw (by rw [hv]; exact hlt) ((hvis w).2 hw')
    · rw [htop] at hw
      exact h.kept w hw fun hf => hw' ((hvis w).1 hf)

/-! ### `__arch_hw_unmap` -/

theorem gone_iff : Gone (x.leaf 2 t w) ↔ x.leafEntry t w = 0 := by
  unfold Gone leafEntry
  cases x.leaf 2 t w with
  | none => exact iff_of_true (.inl rfl) rfl
  | some e =>
    rw [Option.some.injEq, Option.getD_some]
    exact or_iff_right (Option.some_ne_none e)

theorem SameLeaf.leafEntry (h : SameLeaf x x' 2 t w) : x'.leafEntry t w = x.leafEntry t w := by
  rcases h with h | ⟨h, h'⟩
  · unfold Memory.leafEntry
    rw [h]
  · rw [gone_iff.1 h, gone_iff.1 h']

/-- No page of the range is mapped, and every other page has the entry it had before. -/
structure RangeCleared (x x' : Memory A) (t va size : ℕ) : Prop where
  range : ∀ i < size / pageSize, ¬ PteValid (x'.leafEntry t (position 2 (va + i * pageSize)))
  other : ∀ w < tableSpan, (∀ i < size / pageSize, w ≠ position 2 (va + i * pageSize)) →
    x'.leafEntry t w = x.leafEntry t w

/-- What `__arch_hw_unmap` does below `2 ^ 39`. -/
theorem hwUnmap_swept (hinv : TableInv K x 2 t 0) {va n : ℕ} (hva : va % pageSize = 0)
    (hn : position 2 va + n ≤ tableSpan)
    (hK : ∀ w, position 2 va ≤ w → w < position 2 va + n → ¬ K w) :
    ∃ x', x.hwUnmap t va (n * pageSize) = some x' ∧
      (∀ w < tableSpan, ¬ (position 2 va ≤ w ∧ w < position 2 va + n) → SameLeaf x x' 2 t w) ∧
      ∀ w, position 2 va ≤ w → w < position 2 va + n →
        (x.Visits 2 t (position 2 va) w → Gone (x'.leaf 2 t w)) ∧
        (¬ x.Visits 2 t (position 2 va) w → SameLeaf x x' 2 t w) := by
  have hspan := tableSpan_eq
  obtain ⟨x', heq, -, hout, -⟩ := hwUnmap_spec hinv hva hn hK
  refine ⟨x', heq, fun w hw hnot => ?_, fun w h1 h2 => ?_⟩
  · rcases hout w hw with h | ⟨h, h' | h'⟩
    · exact .inl h
    · exact .inr ⟨h', h⟩
    · exact absurd h' hnot
  · have hint : toInt32 n = n := toInt32_of_lt (by omega)
    have hpos : (0 : ℤ) < n := by omega
    unfold hwUnmap at heq
    rw [Nat.mul_div_cancel _ (by decide), hint] at heq
    split_ifs at heq with h3 h4 h5
    · rw [Nat.mul_eq_zero] at h4
      simp only [pageSize, pageOffset] at h4
      omega
    · rcases hr : riscvUnmap 2 t x va n with _ | ⟨pages', y⟩
      · rw [hr] at heq
        cases heq
      rw [hr] at heq
      have heq : (if pages' = 0 then some y else none) = some x' := heq
      split_ifs at heq
      cases heq
      have hsw := sweep_spec K 2 le_rfl t x va n 0 pages' x' hinv hpos (fun w hw => by
        rw [Nat.zero_add]
        exact hK w hw.1 (by have := hw.2 hpos; omega)) hr
      have hw : w < 512 ^ (2 + 1) := lt_of_lt_of_le h2 hn
      exact ⟨hsw.cleared w hw (by omega), hsw.kept w hw⟩

end Memory

open Memory

variable {K : ℕ → Prop} {x x' : Memory A} {t va size : ℕ}

/-- In a range below `2 ^ 39` `__arch_hw_unmap` clears exactly the range just when the walk, which
is late behind missing tables, gets to every page of the range that is mapped. -/
theorem hw_unmap_clears_iff (h : x.IsPageTable K t) (hva : va % pageSize = 0)
    (hsize : size % pageSize = 0) (hspan : va + size ≤ 2 ^ 39)
    (hK : ∀ i < size / pageSize, ¬ K (position 2 (va + i * pageSize))) :
    ∃ x', x.hwUnmap t va size = some x' ∧ (RangeCleared x x' t va size ↔
      ∀ i < size / pageSize, PteValid (x.leafEntry t (position 2 (va + i * pageSize))) →
        x.Visits 2 t (position 2 va) (position 2 (va + i * pageSize))) := by
  have htable := tableSpan_eq
  have hn : position 2 va + size / pageSize ≤ tableSpan := by
    show va / 4096 % 2 ^ 27 + _ ≤ _
    simp only [pageSize, pageOffset] at *
    omega
  have hat : ∀ i < size / pageSize, position 2 (va + i * pageSize) = position 2 va + i := by
    intro i hi
    rw [position_add, Nat.mod_eq_of_lt (by omega)]
  have hin : ∀ w, position 2 va ≤ w → w < position 2 va + size / pageSize →
      ∃ i < size / pageSize, w = position 2 (va + i * pageSize) := by
    intro w h1 h2
    obtain ⟨i, rfl⟩ := Nat.exists_eq_add_of_le h1
    exact ⟨i, by omega, (hat i (by omega)).symm⟩
  obtain ⟨x', heq, hout, hrange⟩ := hwUnmap_swept h.inv hva hn fun w h1 h2 => by
    obtain ⟨i, hi, rfl⟩ := hin w h1 h2
    exact hK i hi
  rw [Nat.div_mul_cancel (Nat.dvd_of_mod_eq_zero hsize)] at heq
  have hpage : ∀ i < size / pageSize,
      (x.Visits 2 t (position 2 va) (position 2 (va + i * pageSize)) →
        Gone (x'.leaf 2 t (position 2 (va + i * pageSize)))) ∧
      (¬ x.Visits 2 t (position 2 va) (position 2 (va + i * pageSize)) →
        SameLeaf x x' 2 t (position 2 (va + i * pageSize))) := fun i hi => by
    rw [hat i hi]
    exact hrange _ (Nat.le_add_right _ _) (by omega)
  refine ⟨x', heq, fun hc i hi hvalid => ?_,
    fun hall => ⟨fun i hi hvalid => ?_, fun w hw hno => ?_⟩⟩
  · -- a page that the walk does not get to keeps its entry
    by_contra hnot
    rw [← ((hpage i hi).2 hnot).leafEntry] at hvalid
    exact hc.range i hi hvalid
  · by_cases hvis : x.Visits 2 t (position 2 va) (position 2 (va + i * pageSize))
    · rw [gone_iff.1 ((hpage i hi).1 hvis)] at hvalid
      exact not_pteValid_zero hvalid
    · rw [((hpage i hi).2 hvis).leafEntry] at hvalid
      exact hvis (hall i hi hvalid)
  · refine (hout w hw fun hr => ?_).leafEntry
    obtain ⟨i, hi, rfl⟩ := hin w hr.1 hr.2
    exact hno i hi rfl

/-- The walk gets to every mapped page of a range that begins at a multiple of 1 GiB, and of a range
of which no table is missing. -/
theorem hw_unmap_visits (hsize : size % pageSize = 0) (hspan : va + size ≤ 2 ^ 39)
    (h : va % 2 ^ 30 = 0 ∨
      ∀ i < size / pageSize, x.leaf 2 t (position 2 (va + i * pageSize)) ≠ none) :
    ∀ i < size / pageSize, PteValid (x.leafEntry t (position 2 (va + i * pageSize))) →
      x.Visits 2 t (position 2 va) (position 2 (va + i * pageSize)) := by
  intro i hi hvalid
  have htable := tableSpan_eq
  have hpos : position 2 va = va / 4096 % 2 ^ 27 := rfl
  have hat : ∀ j < size / pageSize, position 2 (va + j * pageSize) = position 2 va + j := by
    intro j hj
    rw [position_add, Nat.mod_eq_of_lt]
    simp only [pageSize, pageOffset] at *
    omega
  rw [hat i hi] at hvalid ⊢
  rcases h with hva | hfull
  · refine (visits_of_aligned (F := sv39Format L) ?_).2
      ⟨Nat.div_le_div_right (Nat.le_add_right _ _), fun hnone => ?_⟩
    · show position 2 va % 512 ^ (1 + 1) = 0
      rw [hpos]
      omega
    · rw [leafEntry_of_none hnone] at hvalid
      exact not_pteValid_zero hvalid
  · refine visits_of_full (Nat.le_add_right _ _) fun u h1 h2 => ?_
    obtain ⟨j, rfl⟩ := Nat.exists_eq_add_of_le h1
    rw [← hat j (by omega)]
    exact hfull j (by omega)

/-! ### A missing table -/

namespace Memory

variable {flags d i j pa : ℕ} {b : ℕ} {ret pages pages' : ℤ}
  {next : ℕ → Memory A → ℕ → ℕ → ℤ → Option (ℤ × ℤ × Memory A)}

/-- A walk below entry `i` leaves the other entries of the table. -/
theorem walkEntry_words (hnext : WalkSpec K flags d next) (hinv : TableInv K x (d + 1) t b)
    (hi : i < 512) (hpa : pa < 2 ^ 64)
    (heq : walkEntry next t i x va pa pages = some (ret, pages', x')) (hj : j ≠ i) :
    x'.words t j = x.words t j := by
  have hlink : ∀ {y : Memory A} {t'}, TableInv K y (d + 1) t b →
      (sv39Format L).next (y.words t i) = some t' →
      next t' y va pa pages = some (ret, pages', x') → x'.words t j = y.words t j := by
    intro y t' hy hn heq
    obtain ⟨ret₁, pages₁, x₁, m, heq₁, hw, -⟩ := hnext t' y va pa pages _ hpa (hy.child hi hn).1
    rw [heq] at heq₁
    cases heq₁
    rw [(hw.step.frame t (hy.apart t (root_mem_tables y _ t)) (hy.tree.child hi hn).2).1]
  rw [walkEntry] at heq
  rcases hinv.tree i hi with h0 | ⟨t', hn, -⟩
  · rw [sv39Format_empty] at h0
    have hnot : ¬ PteValid (x.words t i) := by
      rw [h0]
      exact not_pteValid_zero
    have hn := sv39Format_next_none (L := L) fun h => hnot (h : PteNextpgt (x.words t i)).1
    rw [if_neg hnot] at heq
    rcases ha : x.bkpAllocZero 0 with ⟨_ | p, x₁⟩
    · rw [ha] at heq
      cases heq
      rw [(bkpAllocZero_none ha).2.2.2]
    · obtain ⟨hnew, -, hstep⟩ := EntryStep.link hinv hn ha
      rw [ha] at heq
      dsimp only at heq
      split_ifs at heq
      rw [hlink (hstep.tableStep hinv hi).inv hnew heq, hstep.words j hj]
  · obtain ⟨hptr, hnxt⟩ := nextPgtable_eq hn
    rw [if_pos hptr.1, if_neg (not_not.2 hptr), hnxt] at heq
    exact hlink hinv hn heq

/-- A walk leaves the entries before the one it begins with. -/
theorem walkDir_words (hnext : WalkSpec K flags d next) (k i : ℕ) (hk : i + k = 512)
    (hinv : TableInv K x (d + 1) t b) (hpa : pa < 2 ^ 64)
    (heq : walkDir next t k x va pa pages = some (ret, pages', x')) (hj : j < i) :
    x'.words t j = x.words t j := by
  induction k generalizing i x va pa pages with
  | zero =>
    cases heq
    rfl
  | succ k ih =>
    obtain ⟨ret₁, pages₁, x₁, m, heq₁, hw, -⟩ := walkEntry_spec (i := i) hnext hinv (by omega) va
      hpa pages
    have hwords := walkEntry_words hnext hinv (by omega) hpa heq₁ hj.ne
    rw [walkDir, pteNums_eq, show 512 - (k + 1) = i by omega, heq₁] at heq
    dsimp only at heq
    split_ifs at heq
    · cases heq
      exact hwords
    · cases heq
      exact hwords
    · rw [← hwords]
      exact ih (i + 1) (by omega) hw.step.inv (advance_lt _ _) heq (by omega)

end Memory

open Memory

/-- A page that is mapped in the second GiB, with no table for the first. -/
theorem vmMachine_hole : ∃ s : TableRun vmMachinePages, (hwRuns vmMachinePages).Reachable s ∧
    s.mem.IsPageTable noPin s.root ∧ PteValid (s.mem.leafEntry s.root (2 ^ 18)) ∧
    (sv39Format vmMachineLayout).next (s.mem.words s.root 0) = none := by
  obtain ⟨x₀, x, t, hx, hinv, hzero, hfree⟩ := vmMachine_table
  have hword : x.words t 0 = 0 := (bkpAllocZero_some hx).2.clear 0
  have hpos : position 2 (2 ^ 30) = 2 ^ 18 := by norm_num [position, pageSize, pageOffset]
  obtain ⟨ret, x', heq, hstep, hcase⟩ := hwMmap_spec hinv (fun _ => False.elim)
    (show 2 ^ 30 % pageSize = 0 from rfl) (show 0 % pageSize = 0 from rfl) (by norm_num)
    (show 4096 % pageSize = 0 from rfl) (by decide) 3
  rcases hcase with ⟨rfl, m, hw, -, -, hone⟩ | ⟨-, -, w, hwt, -, ⟨-, -, hout⟩ | ⟨-, e, he, hve⟩⟩
  · have hstep' : (hwRuns vmMachinePages).step ⟨t, x⟩ (.mmap (2 ^ 30) 0 3 4096) ⟨t, x'⟩ :=
      ⟨⟨rfl, rfl, by norm_num, rfl, by norm_num⟩, rfl, 0, heq⟩
    refine ⟨⟨t, x'⟩, .step (.of_init ⟨x₀, hx⟩) hstep', ⟨hstep.inv, fun _ => False.elim⟩, ?_, ?_⟩
    · have hentry := hw.leafEntry_wrote (hone (by norm_num))
      rw [Nat.add_zero, hpos] at hentry
      rw [show (⟨t, x'⟩ : TableRun vmMachinePages).mem.leafEntry t (2 ^ 18) = _ from hentry]
      decide
    · -- the walk began with the second entry of the root
      unfold hwMmap at heq
      rw [if_pos ⟨rfl, rfl, rfl⟩, if_neg (by norm_num), if_pos (by decide)] at heq
      rcases hr : vmWalkthrough 3 2 t x (2 ^ 30) 0 (toInt32 (4096 / pageSize)) with _ | ⟨r, n, y⟩
      · rw [hr] at heq
        cases heq
      rw [hr] at heq
      dsimp only at heq
      by_cases hr0 : r = 0
      · rw [if_neg (not_not.2 hr0)] at heq
        cases heq
        have hwords := walkDir_words (j := 0) (walk_spec noPin 3 1 (by norm_num)) 511 1 rfl hinv
          (by norm_num) hr (by norm_num)
        show (sv39Format vmMachineLayout).next (x'.words t 0) = none
        rw [hwords, hword]
        rfl
      · rw [if_pos hr0] at heq
        rcases hu : y.hwUnmap t (2 ^ 30) _ with _ | z
        · rw [hu] at heq
          cases heq
        · rw [hu] at heq
          cases heq
          exact absurd rfl hr0
  · exact absurd hout (not_exhausts vmMachinePages_ample (by omega))
  · rw [hzero w hwt e he] at hve
    exact absurd hve not_pteValid_zero

/-- The first GiB, of which the table is missing, and the page behind it. -/
theorem hw_unmap_clears_iff_page : ∃ (s : TableRun vmMachinePages) (x' : Memory vmMachinePages),
    (hwRuns vmMachinePages).Reachable s ∧ PteValid (s.mem.leafEntry s.root (2 ^ 18)) ∧
      s.mem.leaf 2 s.root 0 = none ∧
      s.mem.hwUnmap s.root 0 (2 ^ 30 + 4096) = some x' ∧
      RangeCleared s.mem x' s.root 0 (2 ^ 30 + 4096) := by
  obtain ⟨s, hs, htable, hvalid, hhole⟩ := vmMachine_hole
  have hsize : (2 ^ 30 + 4096) % pageSize = 0 := by decide
  obtain ⟨x', heq, hiff⟩ := hw_unmap_clears_iff htable (show 0 % pageSize = 0 from rfl) hsize
    (by norm_num) fun _ _ => id
  exact ⟨s, x', hs, hvalid, leaf_succ_none (F := sv39Format vmMachineLayout) hhole, heq,
    hiff.2 (hw_unmap_visits hsize (by norm_num) (.inl rfl))⟩

/-- A range that begins in the middle of the first GiB and ends in the middle of the second one. -/
theorem hw_unmap_not_cleared : ∃ (s : TableRun vmMachinePages) (x' : Memory vmMachinePages),
    (hwRuns vmMachinePages).Reachable s ∧ s.mem.IsPageTable noPin s.root ∧
    s.mem.hwUnmap s.root (2 ^ 29) (2 ^ 30) = some x' ∧
    ¬ RangeCleared s.mem x' s.root (2 ^ 29) (2 ^ 30) := by
  obtain ⟨s, hs, htable, hvalid, hhole⟩ := vmMachine_hole
  obtain ⟨x', heq, hiff⟩ := hw_unmap_clears_iff htable (show 2 ^ 29 % pageSize = 0 from rfl)
    (show 2 ^ 30 % pageSize = 0 from rfl) (by norm_num) fun _ _ => id
  refine ⟨s, x', hs, htable, heq, fun hc => ?_⟩
  have hpos : position 2 (2 ^ 29 + 2 ^ 17 * pageSize) = 2 ^ 18 := by
    norm_num [position, pageSize, pageOffset]
  have hpos' : position 2 (2 ^ 29) = 2 ^ 17 := by norm_num [position, pageSize, pageOffset]
  have hvis := hiff.1 hc (2 ^ 17) (by norm_num [pageSize, pageOffset]) (by rw [hpos]; exact hvalid)
  rw [hpos, hpos'] at hvis
  -- the walk is late by half a GiB when it enters the second entry of the root
  have hfrom : VisitsFrom (sv39Format vmMachineLayout) s.mem.words 1 s.root 0 (2 ^ 17) (2 ^ 18) :=
    hvis
  have hle := hfrom.le (by decide) (by decide)
  rw [lateEntry_none hhole, show (sv39Format vmMachineLayout).fanout = 512 from rfl] at hle
  norm_num at hle

end AcoOs
