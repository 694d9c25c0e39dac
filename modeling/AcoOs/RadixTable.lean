/-
Tables of words that point to tables.

A table on level 0 holds `fanout` words; the words of a table on level `d + 1` point to
tables on level `d` or are empty.  So a table on level `d` has `fanout ^ (d + 1)`
positions, and `leaf` is the word a walk finds at one of them, if it finds one.

`tables` are the tables a walk can pass, `IsTree` says that no two walks meet again
below the place where they part.  `IsTree.replace` is the rule for every update: what
hangs below one word of a table is replaced, and the rest is left alone.
-/
import Mathlib

namespace Radix

/-- The number of words of a table, and what words mean. -/
structure Format (ι ω : Type*) where
  fanout : ℕ
  next : ω → Option ι
  empty : ω
  fanout_pos : 0 < fanout
  next_empty : next empty = none

variable {ι ω : Type*} (F : Format ι ω)

/-- The word at a position. -/
def leaf (m : ι → ℕ → ω) : ℕ → ι → ℕ → Option ω
  | 0, t, v => some (m t v)
  | d + 1, t, v => (F.next (m t (v / F.fanout ^ (d + 1)))).bind fun t' =>
      leaf m d t' (v % F.fanout ^ (d + 1))

theorem leaf_succ_some {F : Format ι ω} {m : ι → ℕ → ω} {d v : ℕ} {t t' : ι}
    (h : F.next (m t (v / F.fanout ^ (d + 1))) = some t') :
    leaf F m (d + 1) t v = leaf F m d t' (v % F.fanout ^ (d + 1)) := by
  rw [leaf, h, Option.bind_some]

theorem leaf_succ_none {F : Format ι ω} {m : ι → ℕ → ω} {d v : ℕ} {t : ι}
    (h : F.next (m t (v / F.fanout ^ (d + 1))) = none) : leaf F m (d + 1) t v = none := by
  rw [leaf, h, Option.bind_none]

/-- Every table below, with its level and its first position, has the property. -/
def Below (P : ℕ → ι → ℕ → Prop) (m : ι → ℕ → ω) : ℕ → ι → ℕ → Prop
  | 0, _, _ => True
  | d + 1, t, b => ∀ i < F.fanout, ∀ t', F.next (m t i) = some t' →
      P d t' (b + i * F.fanout ^ (d + 1)) ∧ Below P m d t' (b + i * F.fanout ^ (d + 1))

theorem below_of_empty {F : Format ι ω} {P : ℕ → ι → ℕ → Prop} {m : ι → ℕ → ω} {d b : ℕ}
    {t : ι} (h : ∀ i < F.fanout, m t i = F.empty) : Below F P m d t b := by
  cases d with
  | zero => trivial
  | succ d =>
    intro i hi t' hn
    rw [h i hi, F.next_empty] at hn
    cases hn

/-- No walk finds more than an empty word. -/
theorem leaf_of_empty {F : Format ι ω} {m : ι → ℕ → ω} {d v : ℕ} {t : ι}
    (h : ∀ i < F.fanout, m t i = F.empty) (hv : v < F.fanout ^ (d + 1)) {e : ω}
    (he : leaf F m d t v = some e) : e = F.empty := by
  cases d with
  | zero =>
    cases he
    exact h v (by rwa [Nat.zero_add, pow_one] at hv)
  | succ d =>
    have hi : v / F.fanout ^ (d + 1) < F.fanout := by
      rw [Nat.div_lt_iff_lt_mul (pow_pos F.fanout_pos _), ← pow_succ']
      exact hv
    rw [leaf_succ_none (by rw [h _ hi, F.next_empty])] at he
    cases he

variable [DecidableEq ι]

/-- The table itself and those below it. -/
def tables (m : ι → ℕ → ω) : ℕ → ι → Finset ι
  | 0, t => {t}
  | d + 1, t => insert t ((Finset.range F.fanout).biUnion fun i =>
      (F.next (m t i)).elim ∅ (tables m d))

/-- There are less than twice as many tables as there can be on the last level. -/
theorem card_tables_lt {F : Format ι ω} {m : ι → ℕ → ω} (hf : 2 ≤ F.fanout) (d : ℕ) (t : ι) :
    (tables F m d t).card < 2 * F.fanout ^ d := by
  induction d generalizing t with
  | zero =>
    rw [tables, Finset.card_singleton, pow_zero]
    norm_num
  | succ d ih =>
    have hchild : ∀ i ∈ Finset.range F.fanout,
        ((F.next (m t i)).elim ∅ (tables F m d)).card ≤ 2 * F.fanout ^ d - 1 := by
      intro i _
      cases F.next (m t i) with
      | none => exact Nat.zero_le _
      | some t' =>
        have := ih t'
        exact Nat.le_sub_one_of_lt this
    have hsum := Finset.card_biUnion_le.trans (Finset.sum_le_card_nsmul _ _ _ hchild)
    have hins := Finset.card_insert_le t ((Finset.range F.fanout).biUnion fun i =>
      (F.next (m t i)).elim ∅ (tables F m d))
    have hpow : 0 < F.fanout ^ d := pow_pos F.fanout_pos d
    rw [Finset.card_range, smul_eq_mul, Nat.mul_sub_one] at hsum
    rw [tables, pow_succ, ← Nat.mul_assoc]
    rw [Nat.mul_comm F.fanout] at hsum
    have hle : F.fanout ≤ 2 * F.fanout ^ d * F.fanout :=
      Nat.le_mul_of_pos_left _ (by omega)
    omega

/-- Below the words of a table there are disjoint trees; a word that points nowhere is
empty. -/
def IsTree (m : ι → ℕ → ω) : ℕ → ι → Prop
  | 0, _ => True
  | d + 1, t => ∀ i < F.fanout, m t i = F.empty ∨ ∃ t', F.next (m t i) = some t' ∧
      IsTree m d t' ∧ t ∉ tables F m d t' ∧
      ∀ j < F.fanout, j ≠ i → ∀ t'', F.next (m t j) = some t'' →
        Disjoint (tables F m d t') (tables F m d t'')

variable {F} {m m' : ι → ℕ → ω} {d i v b : ℕ} {t t' p : ι}

theorem self_mem_tables : t ∈ tables F m d t := by
  cases d with
  | zero => exact Finset.mem_singleton_self t
  | succ d => exact Finset.mem_insert_self _ _

theorem mem_tables_succ : p ∈ tables F m (d + 1) t ↔
    p = t ∨ ∃ i < F.fanout, ∃ t', F.next (m t i) = some t' ∧ p ∈ tables F m d t' := by
  rw [tables, Finset.mem_insert, Finset.mem_biUnion]
  refine or_congr Iff.rfl (exists_congr fun i => ?_)
  rw [Finset.mem_range]
  refine and_congr Iff.rfl ?_
  cases F.next (m t i) with
  | none => simp
  | some t' => simp

theorem tables_child (hi : i < F.fanout) (h : F.next (m t i) = some t') :
    tables F m d t' ⊆ tables F m (d + 1) t :=
  fun _ hp => mem_tables_succ.2 (.inr ⟨i, hi, t', h, hp⟩)

namespace IsTree

theorem child (h : IsTree F m (d + 1) t) (hi : i < F.fanout) (hn : F.next (m t i) = some t') :
    IsTree F m d t' ∧ t ∉ tables F m d t' := by
  rcases h i hi with he | ⟨t₁, ht, h1, h2, -⟩
  · rw [he, F.next_empty] at hn
    cases hn
  · rw [ht] at hn
    cases hn
    exact ⟨h1, h2⟩

theorem disjoint (h : IsTree F m (d + 1) t) {j : ℕ} (hi : i < F.fanout) (hj : j < F.fanout)
    (hij : j ≠ i) {t'' : ι} (hn : F.next (m t i) = some t') (hn' : F.next (m t j) = some t'') :
    Disjoint (tables F m d t') (tables F m d t'') := by
  rcases h i hi with he | ⟨t₁, ht, -, -, h3⟩
  · rw [he, F.next_empty] at hn
    cases hn
  · rw [ht] at hn
    cases hn
    exact h3 j hj hij t'' hn'

theorem empty_of_next (h : IsTree F m (d + 1) t) (hi : i < F.fanout)
    (hn : F.next (m t i) = none) : m t i = F.empty := by
  rcases h i hi with he | ⟨t₁, ht, -⟩
  · exact he
  · rw [ht] at hn
    cases hn

end IsTree

/-! ### A table of empty words -/

theorem tables_of_empty (h : ∀ i < F.fanout, m t i = F.empty) : tables F m d t = {t} := by
  cases d with
  | zero => rfl
  | succ d =>
    ext p
    rw [mem_tables_succ, Finset.mem_singleton]
    constructor
    · rintro (hp | ⟨i, hi, t', hn, -⟩)
      · exact hp
      · rw [h i hi, F.next_empty] at hn
        cases hn
    · exact .inl

theorem isTree_of_empty (h : ∀ i < F.fanout, m t i = F.empty) : IsTree F m d t := by
  cases d with
  | zero => trivial
  | succ d => exact fun i hi => .inl (h i hi)

/-! ### Frames -/

/-- What hangs below a table depends on the words of its tables only. -/
theorem tables_congr (h : ∀ p ∈ tables F m d t, m' p = m p) :
    tables F m' d t = tables F m d t := by
  induction d generalizing t with
  | zero => rfl
  | succ d ih =>
    have ht : m' t = m t := h t self_mem_tables
    rw [tables, tables, ht]
    congr 1
    refine Finset.biUnion_congr rfl fun i hi => ?_
    cases hn : F.next (m t i) with
    | none => rfl
    | some t' =>
      exact ih fun p hp => h p (tables_child (Finset.mem_range.1 hi) hn hp)

theorem leaf_congr (h : ∀ p ∈ tables F m d t, m' p = m p) (hv : v < F.fanout ^ (d + 1)) :
    leaf F m' d t v = leaf F m d t v := by
  induction d generalizing t v with
  | zero => rw [leaf, leaf, h t self_mem_tables]
  | succ d ih =>
    rw [leaf, leaf, h t self_mem_tables]
    have hi : v / F.fanout ^ (d + 1) < F.fanout := by
      rw [Nat.div_lt_iff_lt_mul (pow_pos F.fanout_pos _), ← pow_succ']
      exact hv
    cases hn : F.next (m t (v / F.fanout ^ (d + 1))) with
    | none => rfl
    | some t' =>
      exact ih (fun p hp => h p (tables_child hi hn hp)) (Nat.mod_lt _ (pow_pos F.fanout_pos _))

theorem IsTree.congr (ht : IsTree F m d t) (h : ∀ p ∈ tables F m d t, m' p = m p) :
    IsTree F m' d t := by
  induction d generalizing t with
  | zero => trivial
  | succ d ih =>
    have hchild : ∀ i < F.fanout, ∀ t', F.next (m t i) = some t' →
        ∀ p ∈ tables F m d t', m' p = m p :=
      fun i hi t' hn p hp => h p (tables_child hi hn hp)
    intro i hi
    rw [h t self_mem_tables]
    rcases ht i hi with he | ⟨t', hn, h1, h2, h3⟩
    · exact .inl he
    · refine .inr ⟨t', hn, ih h1 (hchild i hi t' hn), ?_, ?_⟩
      · rwa [tables_congr (hchild i hi t' hn)]
      · intro j hj hij t'' hn'
        rw [tables_congr (hchild i hi t' hn), tables_congr (hchild j hj t'' hn')]
        exact h3 j hj hij t'' hn'

theorem Below.congr {P Q : ℕ → ι → ℕ → Prop} (hb : Below F P m d t b)
    (h : ∀ p ∈ tables F m d t, m' p = m p)
    (hPQ : ∀ e p c, p ∈ tables F m d t → tables F m e p ⊆ tables F m d t → P e p c → Q e p c) :
    Below F Q m' d t b := by
  induction d generalizing t b with
  | zero => trivial
  | succ d ih =>
    intro i hi t' hn
    rw [h t self_mem_tables] at hn
    obtain ⟨h1, h2⟩ := hb i hi t' hn
    have hsub := tables_child (d := d) hi hn
    refine ⟨hPQ _ _ _ (hsub self_mem_tables) hsub h1, ih h2 (fun p hp => h p (hsub hp)) ?_⟩
    exact fun e p c hp hep => hPQ e p c (hsub hp) (hep.trans hsub)

/-- A table is the root, or has the property that those below have. -/
theorem Below.of_mem {P : ℕ → ι → ℕ → Prop} (hb : Below F P m d t b) (hp : p ∈ tables F m d t) :
    p = t ∨ ∃ e c, P e p c := by
  induction d generalizing t b with
  | zero => exact .inl (Finset.mem_singleton.1 hp)
  | succ d ih =>
    rcases mem_tables_succ.1 hp with hp | ⟨i, hi, t', hn, hp⟩
    · exact .inl hp
    · obtain ⟨h1, h2⟩ := hb i hi t' hn
      rcases ih h2 hp with rfl | h
      · exact .inr ⟨_, _, h1⟩
      · exact .inr h

/-! ### Replacing what hangs below one word -/

/-- The tables below word `i`. -/
def under (F : Format ι ω) (m : ι → ℕ → ω) (d : ℕ) (t : ι) (i : ℕ) : Finset ι :=
  (F.next (m t i)).elim ∅ (tables F m d)

theorem mem_under : p ∈ under F m d t i ↔ ∃ t', F.next (m t i) = some t' ∧ p ∈ tables F m d t' := by
  unfold under
  cases F.next (m t i) <;> simp

theorem under_some (h : F.next (m t i) = some t') : under F m d t i = tables F m d t' := by
  unfold under
  rw [h]
  rfl

theorem under_none (h : F.next (m t i) = none) : under F m d t i = ∅ := by
  unfold under
  rw [h]
  rfl

theorem under_subset (hi : i < F.fanout) : under F m d t i ⊆ tables F m (d + 1) t := by
  intro p hp
  obtain ⟨t', hn, hp⟩ := mem_under.1 hp
  exact tables_child hi hn hp

theorem mem_tables_under : p ∈ tables F m (d + 1) t ↔
    p = t ∨ ∃ i < F.fanout, p ∈ under F m d t i := by
  simp only [mem_tables_succ, mem_under]

theorem IsTree.self_notMem_under (h : IsTree F m (d + 1) t) (hi : i < F.fanout) :
    t ∉ under F m d t i := by
  intro hp
  obtain ⟨t', hn, hp⟩ := mem_under.1 hp
  exact (h.child hi hn).2 hp

theorem IsTree.disjoint_under (h : IsTree F m (d + 1) t) {j : ℕ} (hi : i < F.fanout)
    (hj : j < F.fanout) (hij : j ≠ i) : Disjoint (under F m d t i) (under F m d t j) := by
  rw [Finset.disjoint_left]
  intro p hp hp'
  obtain ⟨t', hn, hp⟩ := mem_under.1 hp
  obtain ⟨t'', hn', hp'⟩ := mem_under.1 hp'
  exact Finset.disjoint_left.1 (h.disjoint hi hj hij hn hn') hp hp'

/-- Only word `i` of table `t` and what hangs below it differ. -/
structure Replaced (F : Format ι ω) (m m' : ι → ℕ → ω) (d : ℕ) (t : ι) (i : ℕ) : Prop where
  lt : i < F.fanout
  words : ∀ j < F.fanout, j ≠ i → m' t j = m t j
  frame : ∀ j < F.fanout, j ≠ i → ∀ p ∈ under F m d t j, m' p = m p

namespace Replaced

theorem under_eq (h : Replaced F m m' d t i) {j : ℕ} (hj : j < F.fanout) (hij : j ≠ i) :
    under F m' d t j = under F m d t j := by
  unfold under
  rw [h.words j hj hij]
  cases hn : F.next (m t j) with
  | none => rfl
  | some t' =>
    refine tables_congr fun p hp => h.frame j hj hij p ?_
    rwa [under_some hn]

theorem mem_tables (h : Replaced F m m' d t i) (ht : IsTree F m (d + 1) t) :
    p ∈ tables F m' (d + 1) t ↔
      (p ∈ tables F m (d + 1) t ∧ p ∉ under F m d t i) ∨ p ∈ under F m' d t i := by
  rw [mem_tables_under, mem_tables_under]
  constructor
  · rintro (rfl | ⟨j, hj, hp⟩)
    · exact .inl ⟨.inl rfl, ht.self_notMem_under h.lt⟩
    · by_cases hij : j = i
      · subst hij
        exact .inr hp
      · rw [h.under_eq hj hij] at hp
        exact .inl ⟨.inr ⟨j, hj, hp⟩,
          Finset.disjoint_left.1 (ht.disjoint_under hj h.lt (Ne.symm hij)) hp⟩
  · rintro (⟨rfl | ⟨j, hj, hp⟩, hni⟩ | hp)
    · exact .inl rfl
    · have hij : j ≠ i := by
        rintro rfl
        exact hni hp
      rw [← h.under_eq hj hij] at hp
      exact .inr ⟨j, hj, hp⟩
    · exact .inr ⟨i, h.lt, hp⟩

theorem leaf_same (h : Replaced F m m' d t i) (hv : v < F.fanout ^ (d + 2))
    (hvi : v / F.fanout ^ (d + 1) ≠ i) : leaf F m' (d + 1) t v = leaf F m (d + 1) t v := by
  have hj : v / F.fanout ^ (d + 1) < F.fanout := by
    rw [Nat.div_lt_iff_lt_mul (pow_pos F.fanout_pos _), ← pow_succ']
    exact hv
  rw [leaf, leaf, h.words _ hj hvi]
  cases hn : F.next (m t (v / F.fanout ^ (d + 1))) with
  | none => rfl
  | some t' =>
    refine leaf_congr (fun p hp => h.frame _ hj hvi p ?_) (Nat.mod_lt _ (pow_pos F.fanout_pos _))
    rwa [under_some hn]

end Replaced

/-- A table stays a tree when a tree of other tables, or nothing, replaces what hangs below
one of its words. -/
theorem IsTree.replace (ht : IsTree F m (d + 1) t) (h : Replaced F m m' d t i)
    (hnew : m' t i = F.empty ∨ ∃ t', F.next (m' t i) = some t' ∧ IsTree F m' d t')
    (hself : t ∉ under F m' d t i)
    (hdisj : ∀ j < F.fanout, j ≠ i → Disjoint (under F m' d t i) (under F m d t j)) :
    IsTree F m' (d + 1) t := by
  intro j hj
  by_cases hij : j = i
  · subst hij
    rcases hnew with he | ⟨t', hn, htree⟩
    · exact .inl he
    · refine .inr ⟨t', hn, htree, ?_, ?_⟩
      · rwa [under_some hn] at hself
      · intro k hk hkj t'' hn'
        have := hdisj k hk hkj
        rw [← h.under_eq hk hkj, under_some hn, under_some hn'] at this
        exact this
  · rw [h.words j hj hij]
    rcases ht j hj with he | ⟨t', hn, h1, h2, -⟩
    · exact .inl he
    · have hfr : ∀ p ∈ tables F m d t', m' p = m p :=
        fun p hp => h.frame j hj hij p (by rwa [under_some hn])
      refine .inr ⟨t', hn, h1.congr hfr, by rwa [tables_congr hfr], ?_⟩
      intro k hk hkj t'' hn'
      have hu' : under F m' d t k = tables F m' d t'' := under_some hn'
      have hu : under F m d t j = tables F m' d t' := by
        rw [tables_congr hfr, under_some hn]
      rw [← hu, ← hu']
      by_cases hki : k = i
      · rw [hki]
        exact (hdisj j hj hij).symm
      · rw [h.under_eq hk hki]
        exact ht.disjoint_under hj hk hkj

/-- The same for a property of the tables below. -/
theorem Below.replace {P Q : ℕ → ι → ℕ → Prop} (hb : Below F P m (d + 1) t b)
    (h : Replaced F m m' d t i)
    (hnew : ∀ t', F.next (m' t i) = some t' →
      Q d t' (b + i * F.fanout ^ (d + 1)) ∧ Below F Q m' d t' (b + i * F.fanout ^ (d + 1)))
    (hPQ : ∀ j < F.fanout, j ≠ i → ∀ e p c, p ∈ under F m d t j →
      tables F m e p ⊆ under F m d t j → P e p c → Q e p c) :
    Below F Q m' (d + 1) t b := by
  intro j hj t' hn
  by_cases hij : j = i
  · subst hij
    exact hnew t' hn
  · rw [h.words j hj hij] at hn
    obtain ⟨h1, h2⟩ := hb j hj t' hn
    have hu : under F m d t j = tables F m d t' := under_some hn
    have hPQ' := hPQ j hj hij
    rw [hu] at hPQ'
    refine ⟨hPQ' d t' _ self_mem_tables (subset_refl _) h1, h2.congr ?_ hPQ'⟩
    exact fun p hp => h.frame j hj hij p (by rwa [hu])

-- membership in the tables of a large format is not to be decided by unfolding
attribute [irreducible] tables

end Radix
