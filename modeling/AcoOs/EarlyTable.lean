/-
The page table of the boot code, and what changes in it.

The tables that the boot code has made and the pages that are still free make up the pages it began
with (`Step`).  `freemem_alloc_pa` takes a page (`Took`), the page becomes an empty table below an
entry (`Linked`), and an entry of the last level is written (`Entered`).
-/
import AcoOs.EarlyVm

namespace AcoOs

open Radix

theorem earlyFanout_pos : 0 < 512 := by norm_num

/-- Sv39 tables as tables of words that hold the physical addresses of tables. -/
def earlyFormat : Format ℕ ℕ where
  fanout := 512
  next pte := if PteNextpgt pte then some (sv39PTE2Pa pte) else none
  empty := 0
  fanout_pos := earlyFanout_pos
  next_empty := if_neg fun h => not_pteValid_zero h.1

theorem earlyFormat_next {pte : ℕ} (h : PteNextpgt pte) :
    earlyFormat.next pte = some (sv39PTE2Pa pte) := if_pos h

theorem earlyFormat_next_none {pte : ℕ} (h : ¬ PteNextpgt pte) : earlyFormat.next pte = none :=
  if_neg h

theorem earlyFormat_pointer {p : ℕ} (hp : p < 2 ^ 56) (ha : p % pageSize = 0) :
    earlyFormat.next (sv39Pa2PTE p vmProtV) = some p := by
  rw [earlyFormat_next (pteNextpgt_pa2PTE _), sv39PTE2Pa_pa2PTE hp ha]

namespace EarlyMemory

variable {x x' y z : EarlyMemory} {d t t' i p v w e flags va pa : ℕ}

/-- The entry at a position. -/
def leaf (x : EarlyMemory) (d t v : ℕ) : Option ℕ := Radix.leaf earlyFormat x.words d t v

/-- The tables of a page table. -/
def tables (x : EarlyMemory) (d t : ℕ) : Finset ℕ := Radix.tables earlyFormat x.words d t

/-- The tables below an entry. -/
def under (x : EarlyMemory) (d t i : ℕ) : Finset ℕ := Radix.under earlyFormat x.words d t i

/-- The position has a valid entry. -/
def ValidAt (x : EarlyMemory) (d t v : ℕ) : Prop := ∃ e, x.leaf d t v = some e ∧ PteValid e

/-- A page that `freemem_alloc_pa` will return. -/
def Free (x : EarlyMemory) (p : ℕ) : Prop :=
  p % pageSize = 0 ∧ x.paStFree ≤ p ∧ p + pageSize ≤ x.paStFree + x.sizeFree

/-- The free pages are pages that an entry can hold, and they are zero. -/
structure Ok (x : EarlyMemory) : Prop where
  aligned : x.paStFree % pageSize = 0
  pos : 0 < x.paStFree
  end_le : x.paStFree + x.sizeFree ≤ 2 ^ 56
  zero : ∀ p, x.Free p → ∀ j < 512, x.words p j = 0

/-- A page table: its tables are pages, form a tree and are not free. -/
structure IsTable (x : EarlyMemory) (d t : ℕ) : Prop where
  tree : IsTree earlyFormat x.words d t
  page : ∀ p ∈ x.tables d t, (p ≠ 0 ∧ p % pageSize = 0) ∧ ¬ x.Free p

/-- One operation on a page table. -/
structure Step (x x' : EarlyMemory) (d t : ℕ) : Prop where
  ok : x'.Ok
  table : x'.IsTable d t
  conserve : ∀ p, x'.Free p ∨ p ∈ x'.tables d t ↔ x.Free p ∨ p ∈ x.tables d t
  frame : ∀ p, ¬ x.Free p → p ∉ x.tables d t → x'.words p = x.words p
  refused : x.refused = true → x'.refused = true

theorem root_mem_tables (x : EarlyMemory) (d t : ℕ) : t ∈ x.tables d t := self_mem_tables

theorem IsTable.ne_zero (h : x.IsTable d t) : t ≠ 0 := (h.page t (root_mem_tables x d t)).1.1

namespace Step

theorem refl (h : x.Ok) (ht : x.IsTable d t) : Step x x d t :=
  ⟨h, ht, fun _ => Iff.rfl, fun _ _ _ => rfl, id⟩

theorem trans (h : Step x y d t) (h' : Step y z d t) : Step x z d t where
  ok := h'.ok
  table := h'.table
  conserve p := (h'.conserve p).trans (h.conserve p)
  frame p hf hp := by
    have hnot := mt (h.conserve p).1 (not_or.2 ⟨hf, hp⟩)
    rw [not_or] at hnot
    rw [h'.frame p hnot.1 hnot.2, h.frame p hf hp]
  refused hr := h'.refused (h.refused hr)

/-- What hangs below one entry changes. -/
theorem of_replaced (ht : x.IsTable (d + 1) t)
    (hr : Replaced earlyFormat x.words x'.words d t i) (hok : x'.Ok)
    (hnew : x'.words t i = 0 ∨ ∃ t', earlyFormat.next (x'.words t i) = some t' ∧ x'.IsTable d t')
    (hc : ∀ p, x'.Free p ∨ p ∈ x'.under d t i ↔ x.Free p ∨ p ∈ x.under d t i)
    (hframe : ∀ p, p ≠ t → ¬ x.Free p → p ∉ x.under d t i → x'.words p = x.words p)
    (href : x.refused = true → x'.refused = true) : Step x x' (d + 1) t := by
  have hmem : ∀ p, p ∈ x'.tables (d + 1) t ↔
      (p ∈ x.tables (d + 1) t ∧ p ∉ x.under d t i) ∨ p ∈ x'.under d t i :=
    fun p => hr.mem_tables ht.tree
  have hsub : ∀ p ∈ x.under d t i, p ∈ x.tables (d + 1) t := fun _ hp => under_subset hr.lt hp
  have hout : ∀ p ∈ x.tables (d + 1) t, p ∉ x.under d t i → ¬ x'.Free p ∧ p ∉ x'.under d t i := by
    intro p hp hu
    rw [← not_or, hc]
    exact not_or.2 ⟨(ht.page p hp).2, hu⟩
  have hself := ht.tree.self_notMem_under hr.lt
  refine ⟨hok, ⟨?_, fun p hp => ?_⟩, fun p => ?_, fun p hf hp => ?_, href⟩
  · refine ht.tree.replace hr ?_ (hout t (root_mem_tables x _ t) hself).2 fun j hj hij => ?_
    · rcases hnew with h0 | ⟨t', hn, ht'⟩
      · exact .inl h0
      · exact .inr ⟨t', hn, ht'.tree⟩
    · rw [Finset.disjoint_right]
      intro p hp
      exact (hout p (under_subset hj hp)
        (Finset.disjoint_left.1 (ht.tree.disjoint_under hj hr.lt (Ne.symm hij)) hp)).2
  · rcases (hmem p).1 hp with ⟨h1, h2⟩ | h1
    · exact ⟨(ht.page p h1).1, (hout p h1 h2).1⟩
    · rcases hnew with h0 | ⟨t', hn, ht'⟩
      · rw [under, under_none (by rw [h0]; exact earlyFormat.next_empty)] at h1
        cases h1
      · rw [under, under_some hn] at h1
        exact ht'.page p h1
  · have hcp := hc p
    have hsubp := hsub p
    rw [hmem p]
    clear * - hcp hsubp
    tauto
  · refine hframe p ?_ hf fun hu => hp (hsub p hu)
    rintro rfl
    exact hp (root_mem_tables x _ p)

end Step

/-- A position below an entry is one of the table below it. -/
theorem leaf_child (hn : earlyFormat.next (x.words t (w / 512 ^ (d + 1))) = some t') :
    x.leaf (d + 1) t w = x.leaf d t' (w % 512 ^ (d + 1)) := leaf_succ_some (F := earlyFormat) hn

theorem leaf_hole (hn : earlyFormat.next (x.words t (w / 512 ^ (d + 1))) = none) :
    x.leaf (d + 1) t w = none := leaf_succ_none (F := earlyFormat) hn

/-- The entry is as it was, or it is an empty entry of a new table. -/
def SameOrNew (x x' : EarlyMemory) (d t w : ℕ) : Prop :=
  x'.leaf d t w = x.leaf d t w ∨ x.leaf d t w = none ∧ x'.leaf d t w = some 0

theorem SameOrNew.trans (h : SameOrNew x y d t w) (h' : SameOrNew y z d t w) :
    SameOrNew x z d t w := by
  rcases h with h | ⟨h1, h2⟩
  · rcases h' with h' | ⟨h1', h2'⟩
    · exact .inl (h'.trans h)
    · exact .inr ⟨h ▸ h1', h2'⟩
  · rcases h' with h' | ⟨h1', -⟩
    · exact .inr ⟨h1, h'.trans h2⟩
    · rw [h2] at h1'
      cases h1'

/-- The valid entries are the same. -/
theorem SameOrNew.valid_iff (h : SameOrNew x x' d t w) (he : PteValid e) :
    x'.leaf d t w = some e ↔ x.leaf d t w = some e := by
  rcases h with h | ⟨h1, h2⟩
  · rw [h]
  · rw [h1, h2]
    refine ⟨fun h => ?_, fun h => (nomatch h)⟩
    cases h
    exact absurd he not_pteValid_zero

theorem SameOrNew.validAt_iff (h : SameOrNew x x' d t w) :
    x'.ValidAt d t w ↔ x.ValidAt d t w :=
  exists_congr fun _ => and_congr_left fun he => h.valid_iff he

/-- A free position has got an entry, and nothing else has changed. -/
structure Entered (x x' : EarlyMemory) (d t v e : ℕ) : Prop where
  empty : ¬ x.ValidAt d t v
  entry : x'.leaf d t v = some e
  rest : ∀ w < 512 ^ (d + 1), w ≠ v → SameOrNew x x' d t w

/-! ### `freemem_alloc_pa` -/

/-- What `freemem_alloc_pa` does when it returns a page. -/
structure Took (x y : EarlyMemory) (p : ℕ) : Prop where
  ok : y.Ok
  ne_zero : p ≠ 0
  lt : p < 2 ^ 56
  free : x.Free p
  free_iff : ∀ q, y.Free q ↔ x.Free q ∧ q ≠ p
  words : y.words = x.words
  refused : y.refused = x.refused

theorem freememAllocPa_cases (h : x.Ok) :
    x.freememAllocPa = (0, { x with refused := true }) ∨
    ∃ p y, x.freememAllocPa = (p, y) ∧ Took x y p := by
  have h1 := h.aligned
  have h2 := h.end_le
  have h3 := h.pos
  unfold freememAllocPa
  by_cases hlt : x.sizeFree < pageSize
  · rw [if_pos hlt]
    exact .inl rfl
  · rw [if_neg hlt]
    have hadd : (x.paStFree + pageSize) % 2 ^ 64 = x.paStFree + pageSize := by
      refine Nat.mod_eq_of_lt ?_
      simp only [pageSize, pageOffset] at *
      omega
    rw [hadd]
    have hfree : ∀ q, Free { x with
        paStFree := x.paStFree + pageSize, sizeFree := x.sizeFree - pageSize } q ↔
        x.Free q ∧ q ≠ x.paStFree := by
      intro q
      show q % pageSize = 0 ∧ x.paStFree + pageSize ≤ q ∧
        q + pageSize ≤ x.paStFree + pageSize + (x.sizeFree - pageSize) ↔
        (q % pageSize = 0 ∧ x.paStFree ≤ q ∧ q + pageSize ≤ x.paStFree + x.sizeFree) ∧
          q ≠ x.paStFree
      clear hadd h2
      simp only [pageSize, pageOffset] at *
      omega
    refine .inr ⟨_, _, rfl, ⟨?_, ?_, ?_, fun q hq => ?_⟩, h3.ne', ?_, ?_, hfree, rfl, rfl⟩
    · exact (Nat.add_mod_right x.paStFree pageSize).trans h1
    · show 0 < x.paStFree + pageSize
      omega
    · show x.paStFree + pageSize + (x.sizeFree - pageSize) ≤ 2 ^ 56
      omega
    · exact h.zero q ((hfree q).1 hq).1
    · simp only [pageSize, pageOffset] at *
      omega
    · exact ⟨h1, le_rfl, by omega⟩

theorem freememAllocPa_some (hx : x.Ok) (h : pageSize ≤ x.sizeFree) :
    ∃ p y, x.freememAllocPa = (p, y) ∧ Took x y p ∧ y.sizeFree + pageSize = x.sizeFree := by
  have heq : x.freememAllocPa = (x.paStFree, { x with
      paStFree := (x.paStFree + pageSize) % 2 ^ 64, sizeFree := x.sizeFree - pageSize }) :=
    if_neg (not_lt.2 h)
  rcases freememAllocPa_cases hx with hr | ⟨p, y, hs, htook⟩
  · rw [heq] at hr
    exact absurd (congrArg Prod.fst hr) hx.pos.ne'
  · refine ⟨p, y, hs, htook, ?_⟩
    have hy : _ = y := congrArg Prod.snd (heq.symm.trans hs)
    rw [← hy]
    exact Nat.sub_add_cancel h

/-! ### One entry -/

theorem setWord_words (x : EarlyMemory) (t i e p j : ℕ) :
    (x.setWord t i e).words p j = if p = t ∧ j = i then e else x.words p j := rfl

theorem setWord_words_of_ne (h : p ≠ t) : (x.setWord t i e).words p = x.words p :=
  funext fun _ => if_neg fun hp => h hp.1

/-- An entry of the last level. -/
theorem Step.setLeaf (h : x.Ok) (ht : x.IsTable 0 t) : Step x (x.setWord t i e) 0 t := by
  have htables : ∀ y : EarlyMemory, y.tables 0 t = {t} := by
    intro y
    rw [tables, Radix.tables]
  have hft : ¬ x.Free t := (ht.page t (root_mem_tables x 0 t)).2
  refine ⟨⟨h.aligned, h.pos, h.end_le, fun p hp j hj => ?_⟩, ⟨trivial, fun p hp => ?_⟩,
    fun p => ?_, fun p _ hp => ?_, id⟩
  · rw [setWord_words_of_ne]
    · exact h.zero p hp j hj
    · rintro rfl
      exact hft hp
  · rw [htables] at hp
    exact ht.page p (by rw [htables]; exact hp)
  · rw [htables, htables]
    exact Iff.rfl
  · rw [htables, Finset.mem_singleton] at hp
    exact setWord_words_of_ne hp

theorem Entered.setLeaf (hi : ¬ PteValid (x.words t i)) : Entered x (x.setWord t i e) 0 t i e where
  empty := by
    rintro ⟨e', he, hv⟩
    cases he
    exact hi hv
  entry := congrArg some (if_pos ⟨rfl, rfl⟩)
  rest w _ hw := .inl (congrArg some (if_neg fun h => hw h.2))

/-- What changed in the table below an entry. -/
theorem Step.replaced (h : Step x x' d t') (ht : x.IsTable (d + 1) t) (hi : i < 512)
    (hn : earlyFormat.next (x.words t i) = some t') :
    x'.words t = x.words t ∧ Replaced earlyFormat x.words x'.words d t i := by
  have hwords : x'.words t = x.words t :=
    h.frame t (ht.page t (root_mem_tables x _ t)).2 (ht.tree.child hi hn).2
  refine ⟨hwords, hi, fun j _ _ => by rw [hwords], fun j hj hij p hp => ?_⟩
  refine h.frame p (ht.page p (under_subset hj hp)).2 fun hp' => ?_
  refine Finset.disjoint_left.1 (ht.tree.disjoint_under hj hi (Ne.symm hij)) hp ?_
  rwa [under_some hn]

/-- A step of the table below an entry. -/
theorem Step.child (h : Step x x' d t') (ht : x.IsTable (d + 1) t) (hi : i < 512)
    (hn : earlyFormat.next (x.words t i) = some t') : Step x x' (d + 1) t := by
  obtain ⟨hwords, hr⟩ := h.replaced ht hi hn
  have hn' : earlyFormat.next (x'.words t i) = some t' := by rw [hwords, hn]
  refine .of_replaced ht hr h.ok (.inr ⟨t', hn', h.table⟩) (fun p => ?_) (fun p _ hf hu => ?_)
    h.refused
  · rw [under, under, under_some hn, under_some hn']
    exact h.conserve p
  · rw [under, under_some hn] at hu
    exact h.frame p hf hu

theorem Entered.child (he : Entered x x' d t' (v % 512 ^ (d + 1)) e) (h : Step x x' d t')
    (ht : x.IsTable (d + 1) t) (hi : v / 512 ^ (d + 1) < 512)
    (hn : earlyFormat.next (x.words t (v / 512 ^ (d + 1))) = some t') :
    Entered x x' (d + 1) t v e := by
  obtain ⟨hwords, hr⟩ := h.replaced ht hi hn
  have hn' : earlyFormat.next (x'.words t (v / 512 ^ (d + 1))) = some t' := by rw [hwords, hn]
  refine ⟨?_, ?_, fun w hw hwv => ?_⟩
  · unfold ValidAt
    rw [leaf_child hn]
    exact he.empty
  · rw [leaf_child hn']
    exact he.entry
  · unfold SameOrNew
    by_cases hdiv : w / 512 ^ (d + 1) = v / 512 ^ (d + 1)
    · rw [← hdiv] at hn hn'
      rw [leaf_child hn, leaf_child hn']
      refine he.rest _ (Nat.mod_lt w (pow_pos (by norm_num) _)) fun hmod => hwv ?_
      rw [← Nat.div_add_mod w (512 ^ (d + 1)), hdiv, hmod, Nat.div_add_mod]
    · exact .inl (hr.leaf_same (F := earlyFormat) hw hdiv)

/-- A table that was taken for an entry. -/
structure Linked (x z : EarlyMemory) (d t i p : ℕ) : Prop where
  step : Step x z (d + 1) t
  table : z.IsTable d p
  clear : ∀ j < 512, z.words p j = 0
  next : earlyFormat.next (z.words t i) = some p
  replaced : Replaced earlyFormat x.words z.words d t i
  refused : z.refused = x.refused

/-- A page of empty entries is a table. -/
theorem isTable_of_clear (h : ∀ j < 512, x.words t j = 0) (ht : t ≠ 0 ∧ t % pageSize = 0)
    (hf : ¬ x.Free t) : x.IsTable d t := by
  refine ⟨isTree_of_empty (F := earlyFormat) h, fun p hp => ?_⟩
  rw [show x.tables d t = {t} from tables_of_empty (F := earlyFormat) h,
    Finset.mem_singleton] at hp
  rw [hp]
  exact ⟨ht, hf⟩

theorem Took.linked (h : Took x y p) (hx : x.Ok) (ht : x.IsTable (d + 1) t) (hi : i < 512)
    (h0 : x.words t i = 0) : Linked x (y.setWord t i (sv39Pa2PTE p vmProtV)) d t i p := by
  have hnone : earlyFormat.next (x.words t i) = none := by
    rw [h0]
    exact earlyFormat.next_empty
  have hft : ¬ x.Free t := (ht.page t (root_mem_tables x _ t)).2
  have hpt : p ≠ t := by
    rintro rfl
    exact hft h.free
  have hwords : ∀ q, q ≠ t → (y.setWord t i (sv39Pa2PTE p vmProtV)).words q = x.words q := by
    intro q hq
    rw [setWord_words_of_ne hq, h.words]
  have hword : ∀ j, (y.setWord t i (sv39Pa2PTE p vmProtV)).words t j =
      if j = i then sv39Pa2PTE p vmProtV else x.words t j := by
    intro j
    rw [setWord_words, h.words]
    by_cases hj : j = i
    · rw [if_pos ⟨rfl, hj⟩, if_pos hj]
    · rw [if_neg fun hc => hj hc.2, if_neg hj]
  have hclear : ∀ j < 512, (y.setWord t i (sv39Pa2PTE p vmProtV)).words p j = 0 := by
    intro j hj
    rw [hwords p hpt]
    exact hx.zero p h.free j hj
  have hnext : earlyFormat.next ((y.setWord t i (sv39Pa2PTE p vmProtV)).words t i) = some p := by
    rw [hword, if_pos rfl]
    exact earlyFormat_pointer h.lt h.free.1
  have hfree : ∀ q, (y.setWord t i (sv39Pa2PTE p vmProtV)).Free q ↔ x.Free q ∧ q ≠ p := h.free_iff
  have hone : (y.setWord t i (sv39Pa2PTE p vmProtV)).tables d p = {p} :=
    tables_of_empty (F := earlyFormat) hclear
  have htable : (y.setWord t i (sv39Pa2PTE p vmProtV)).IsTable d p :=
    isTable_of_clear hclear ⟨h.ne_zero, h.free.1⟩ fun hf => ((hfree p).1 hf).2 rfl
  have hr : Replaced earlyFormat x.words (y.setWord t i (sv39Pa2PTE p vmProtV)).words d t i := by
    refine ⟨hi, fun j _ hij => by rw [hword, if_neg hij], fun j hj _ q hq => hwords q ?_⟩
    rintro rfl
    exact ht.tree.self_notMem_under hj hq
  refine ⟨.of_replaced ht hr ⟨h.ok.aligned, h.ok.pos, h.ok.end_le, fun q hq j hj => ?_⟩
    (.inr ⟨p, hnext, htable⟩) (fun q => ?_) (fun q hq _ _ => hwords q hq) (fun h' => ?_),
    htable, hclear, hnext, hr, h.refused⟩
  · rw [hwords q]
    · exact hx.zero q ((hfree q).1 hq).1 j hj
    · rintro rfl
      exact hft ((hfree q).1 hq).1
  · rw [hfree, under, under, under_some hnext, under_none hnone]
    have hq : q ∈ Radix.tables earlyFormat (y.setWord t i (sv39Pa2PTE p vmProtV)).words d p ↔
        q = p := by
      rw [show Radix.tables earlyFormat _ d p = _ from hone, Finset.mem_singleton]
    rw [hq]
    have hp := h.free
    by_cases hqp : q = p
    · rw [hqp]
      exact iff_of_true (.inr rfl) (.inl hp)
    · simp [hqp]
  · exact h.refused.trans h'

/-- Linking a table changes no valid entry. -/
theorem Linked.sameOrNew (h : Linked x z d t i p) (h0 : x.words t i = 0)
    (hw : w < 512 ^ (d + 1 + 1)) : SameOrNew x z (d + 1) t w := by
  unfold SameOrNew
  by_cases hdiv : w / 512 ^ (d + 1) = i
  · have hx : x.leaf (d + 1) t w = none := by
      refine leaf_hole ?_
      rw [hdiv, h0]
      exact earlyFormat.next_empty
    rw [hx, leaf_child (by rw [hdiv, h.next])]
    cases he : z.leaf d p (w % 512 ^ (d + 1)) with
    | none => exact .inl rfl
    | some e =>
      refine .inr ⟨rfl, congrArg some ?_⟩
      exact leaf_of_empty (F := earlyFormat) h.clear
        (Nat.mod_lt w (pow_pos earlyFormat.fanout_pos _)) he
  · exact .inl (h.replaced.leaf_same (F := earlyFormat) hw hdiv)

/-- Nothing is entered in a new table yet. -/
theorem Linked.not_validAt (h : Linked x z d t i p) (hv : v < 512 ^ (d + 1)) :
    ¬ z.ValidAt d p v := by
  rintro ⟨e, he, hve⟩
  rw [leaf_of_empty (F := earlyFormat) h.clear hv he] at hve
  exact not_pteValid_zero hve

end EarlyMemory

end AcoOs
