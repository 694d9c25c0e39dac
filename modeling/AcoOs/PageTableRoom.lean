/-
Memory with room for page tables.

A page table has less than `2 ^ 19` tables, so with that many free pages none is missing for
a table (`not_exhausts`).  `vmMachineLayout` is a machine of 16 GiB, where a page table can
be made right after boot (`vmMachine_table`).
-/
import AcoOs.PageTableFree

namespace AcoOs

open Memory

/-! ### Counting pages -/

section Pages

variable {L : VmLayout} {A : PageAllocator L.toLayout}

theorem Memory.freePages_finite (x : Memory A) : x.freePages.Finite :=
  (Set.finite_lt_nat L.pageNums).subset fun q hq => (A.wellFormed x.buddy).free_lt q hq

theorem Memory.card_tables_lt (x : Memory A) (t : ℕ) : (x.tables 2 t).card < 2 ^ 19 := by
  have h : (x.tables 2 t).card < 2 * (sv39Format L).fanout ^ 2 :=
    Radix.card_tables_lt (by rw [sv39Format_fanout]; norm_num) 2 t
  rw [sv39Format_fanout] at h
  exact h.trans_eq (by norm_num)

/-- A page table takes less than `2 ^ 19` pages. -/
theorem ncard_le_of_conserve {F : Set ℕ} {T : Finset ℕ} {x : Memory A} {t : ℕ}
    (h : ∀ q, q ∈ x.freePages ∨ q ∈ x.tables 2 t ↔ q ∈ F ∨ q ∈ T) :
    F.ncard < x.freePages.ncard + 2 ^ 19 := by
  have hsub : F ⊆ x.freePages ∪ (x.tables 2 t : Set ℕ) := fun q hq => (h q).2 (.inl hq)
  have h1 := Set.ncard_le_ncard hsub (x.freePages_finite.union (Finset.finite_toSet _))
  have h2 := Set.ncard_union_le x.freePages (x.tables 2 t : Set ℕ)
  have h3 := x.card_tables_lt t
  rw [Set.ncard_coe_finset] at h2
  omega

/-- The allocator has a page as long as one is free. -/
def PageAllocator.Ample (A : PageAllocator L.toLayout) : Prop :=
  ∀ s, (A.freePages s).Nonempty → (A.alloc s 0).1 ≠ none

theorem Memory.not_exhausts (hA : A.Ample) {K : ℕ → Prop} {x : Memory A} {t : ℕ}
    (hfree : 2 ^ 19 ≤ x.freePages.ncard) : ¬ x.Exhausts K t := by
  rintro ⟨y, hstep, s, hs⟩
  have hempty : y.freePages = ∅ := by
    rw [show y.freePages = A.freePages s from (PageAllocator.alloc_none hs).1,
      ← Set.not_nonempty_iff_eq_empty]
    exact fun hne => hA s hne (congrArg Prod.fst hs)
  have := ncard_le_of_conserve hstep.conserve
  rw [hempty, Set.ncard_empty] at this
  omega

theorem Memory.bkpAllocZero_succeeds (hA : A.Ample) {x : Memory A} (hfree : 0 < x.freePages.ncard) :
    ∃ p x', x.bkpAllocZero 0 = (some p, x') ∧ x'.freePages.ncard + 1 = x.freePages.ncard := by
  have hne : x.freePages.Nonempty := (Set.ncard_pos x.freePages_finite).1 hfree
  obtain ⟨p, hp⟩ := Option.ne_none_iff_exists'.1 (hA x.buddy hne)
  obtain ⟨x', hx'⟩ := bkpAllocZero_of_alloc (x := x) (Prod.ext hp rfl)
  obtain ⟨-, hz⟩ := bkpAllocZero_some hx'
  refine ⟨p, x', hx', ?_⟩
  rw [hz.free, show pagesOf p (0 : ℤ).toNat = {p} from pagesOf_zero p]
  exact Set.ncard_sdiff_singleton_add_one hz.mem_free x.freePages_finite

/-- A page table can be made as long as a page is free. -/
theorem Memory.table_succeeds (hA : A.Ample) {x : Memory A} (hfree : 0 < x.freePages.ncard) :
    ∃ t x', x.bkpAllocZero 0 = (some t, x') ∧ TableInv noPin x' 2 t 0 ∧
      (∀ w < tableSpan, ∀ e, x'.leaf 2 t w = some e → e = 0) ∧
      x'.freePages.ncard + 1 = x.freePages.ncard := by
  obtain ⟨t, x', hx', hcount⟩ := bkpAllocZero_succeeds hA hfree
  obtain ⟨-, hz⟩ := bkpAllocZero_some hx'
  have hinv : TableInv noPin x' 2 t 0 := (TableRun.inv_init (s := ⟨t, x'⟩) ⟨x, hx'⟩).1
  refine ⟨t, x', hx', hinv, fun w hw e he => ?_, hcount⟩
  exact Radix.leaf_of_empty (F := sv39Format L) (fun j _ => hz.clear j) hw he

end Pages

/-! ### A machine of 16 GiB -/

theorem buddyAllocator_ample {L : VmLayout} (R : FreeRange L.toLayout) (h0 : 0 < L.vaStart) :
    (buddyAllocator L.toLayout R h0).Ample := by
  rintro s ⟨q, k, hk, p, hp, -⟩
  obtain ⟨p', s', h⟩ := buddyAllocator_succeeds (x := s) (k := 0) le_rfl
    (Int.natCast_nonneg k) hk (List.ne_nil_of_mem hp)
  rw [h]
  exact Option.some_ne_none p'

/-- Right after boot every page of the range is free. -/
theorem bootState_freePages {c : Layout} (R : FreeRange c) (h0 : 0 < c.vaStart) :
    (buddyAllocator c R h0).freePages (bootState c R h0) = R.set := by
  obtain ⟨s, hs, hb⟩ := buddyModuleInit_spec R
  rw [bootState_eq R h0] at hs
  cases hs
  refine Eq.trans hb.freePages_eq (Set.ext fun q => ⟨And.left, fun hq => ⟨hq, ?_⟩⟩)
  have := R.le
  have : q < R.start + R.count := hq.2
  omega

/-- `2 ^ 22` pages, the first one for the code of the kernel. -/
def vmMachineLayout : VmLayout :=
  .ofPages 4 (2 ^ 22) 1 (by decide) (by norm_num) ⟨by norm_num, by norm_num⟩

/-- All of its pages belong to the buddy allocator. -/
def vmMachinePages : PageAllocator vmMachineLayout.toLayout :=
  buddyAllocator vmMachineLayout.toLayout (.all _) vmMachineLayout.vaStart_pos

theorem vmMachinePages_ample : vmMachinePages.Ample :=
  buddyAllocator_ample (.all _) vmMachineLayout.vaStart_pos

/-- The state of the buddy allocator right after boot. -/
def vmMachineBuddy : vmMachinePages.State :=
  bootState vmMachineLayout.toLayout (.all _) vmMachineLayout.vaStart_pos

theorem vmMachineBuddy_ncard : (vmMachinePages.freePages vmMachineBuddy).ncard = 2 ^ 22 := by
  rw [show vmMachinePages.freePages vmMachineBuddy = _ from
    bootState_freePages (.all vmMachineLayout.toLayout) vmMachineLayout.vaStart_pos]
  show (Set.Ico 0 (0 + vmMachineLayout.pageNums)).ncard = _
  rw [Set.ncard_eq_toFinset_card', Set.toFinset_Ico, Nat.card_Ico]
  rfl

/-- Right after boot a page table can be made. -/
theorem vmMachine_table : ∃ (x₀ x : Memory vmMachinePages) (t : ℕ),
    x₀.bkpAllocZero 0 = (some t, x) ∧ TableInv noPin x 2 t 0 ∧
      (∀ w < tableSpan, ∀ e, x.leaf 2 t w = some e → e = 0) ∧ 2 ^ 21 ≤ x.freePages.ncard := by
  have hcard : (⟨vmMachineBuddy, fun _ => .handed 0, fun _ _ => 0⟩ :
      Memory vmMachinePages).freePages.ncard = 2 ^ 22 := vmMachineBuddy_ncard
  obtain ⟨t, x, hx, hinv, hzero, hcount⟩ := table_succeeds vmMachinePages_ample (x :=
    ⟨vmMachineBuddy, fun _ => .handed 0, fun _ _ => 0⟩) (by rw [hcard]; norm_num)
  refine ⟨_, x, t, hx, hinv, hzero, ?_⟩
  rw [hcard] at hcount
  omega

end AcoOs
