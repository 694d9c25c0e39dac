/-
What an operation on a page table may do to memory.

`TableInv` is the invariant of one page table: the tables form a tree, none of them is a
free page, and each table below the root is a block that can be freed, or holds a pinned
entry and will not be.  The pinned positions are those of the kernel; the tables that the
boot code built for them are no blocks of the buddy allocator.

`TableStep` relates the memory before and after an operation: free pages and tables
together stay the same set, and every other page keeps its words, its block and its
descriptor.  Steps compose (`trans`), a step below one entry is a step of the table
(`child`), and the three elementary steps write an entry of the last level, link a new
table and unlink an empty one.
-/
import AcoOs.PageTable

namespace AcoOs

open Radix

variable {L : VmLayout} {A : PageAllocator L.toLayout}

/-- Sv39 tables as tables of words that point to tables. -/
def sv39Format (L : VmLayout) : Format ℕ ℕ where
  fanout := 512
  next pte := if PteNextpgt pte then some (L.va2pg (L.pa2va (sv39PTE2Pa pte))) else none
  empty := 0
  fanout_pos := by norm_num
  next_empty := if_neg fun h => not_pteValid_zero h.1

theorem sv39Format_fanout : (sv39Format L).fanout = 512 := rfl

theorem sv39Format_empty : (sv39Format L).empty = 0 := rfl

theorem sv39Format_next {pte : ℕ} (h : PteNextpgt pte) :
    (sv39Format L).next pte = some (L.va2pg (L.pa2va (sv39PTE2Pa pte))) := if_pos h

theorem sv39Format_next_none {pte : ℕ} (h : ¬ PteNextpgt pte) : (sv39Format L).next pte = none :=
  if_neg h

theorem sv39Format_pointer {p : ℕ} (hp : p < L.pageNums) :
    (sv39Format L).next (L.pointer p) = some p := by
  rw [VmLayout.pointer, sv39Format_next (pteNextpgt_pa2PTE _),
    sv39PTE2Pa_pa2PTE (VmLayout.pg2pa_lt hp) (VmLayout.pg2pa_aligned hp),
    VmLayout.pa2va_pg2pa hp, Layout.pg2va_of_valid hp, Layout.va2pg_add hp]

/-- The alignment that the code asserts of the next table holds for every entry. -/
theorem nextPgtable_eq {pte t : ℕ} (h : (sv39Format L).next pte = some t) :
    PteNextpgt pte ∧ nextPgtable L pte = some t := by
  by_cases hn : PteNextpgt pte
  · rw [sv39Format_next hn] at h
    cases h
    refine ⟨hn, if_pos ?_⟩
    have h1 := L.vaStart_aligned
    have h2 := L.paStart_aligned
    have h3 := L.paStart_le
    rw [sv39PTE2Pa_eq, VmLayout.pa2va]
    simp only [pageSize, pageOffset] at *
    omega
  · rw [sv39Format_next_none hn] at h
    cases h

namespace Memory

/-- The free pages. -/
def freePages (x : Memory A) : Set ℕ := A.freePages x.buddy

/-- The orders of the blocks that are handed out. -/
def blocks (x : Memory A) : ℕ → Option ℕ := A.blocks x.buddy

/-- The tables of a page table with `d` levels below its root. -/
def tables (x : Memory A) (d t : ℕ) : Finset ℕ := Radix.tables (sv39Format L) x.words d t

/-- The entry a walk to a page number reads on the last level. -/
def leaf (x : Memory A) (d t v : ℕ) : Option ℕ := Radix.leaf (sv39Format L) x.words d t v

/-- The entry is valid. -/
def ValidAt (x : Memory A) (d t v : ℕ) : Prop := ∃ e, x.leaf d t v = some e ∧ PteValid e

/-- The page of a table that was taken from the buddy allocator. -/
structure IsTablePage (x : Memory A) (p : ℕ) : Prop where
  block : x.blocks p = some 0
  type : (x.pages p).pgtype = .buddyAllocator
  freeable : (x.pages p).Freeable

/-- A table below the root can be freed, or holds a pinned entry. -/
def Held (K : ℕ → Prop) (x : Memory A) (d t b : ℕ) : Prop :=
  t < L.pageNums ∧ (x.IsTablePage t ∨ ∃ w < 512 ^ (d + 1), K (b + w) ∧ x.ValidAt d t w)

/-- The invariant of a page table; `K` are the pinned positions, `b` is the first one. -/
structure TableInv (K : ℕ → Prop) (x : Memory A) (d t b : ℕ) : Prop where
  tree : IsTree (sv39Format L) x.words d t
  below : Below (sv39Format L) (Held K x) x.words d t b
  apart : ∀ p ∈ x.tables d t, p ∉ x.freePages

/-- One operation on a page table. -/
structure TableStep (K : ℕ → Prop) (x x' : Memory A) (d t b : ℕ) : Prop where
  inv : TableInv K x' d t b
  conserve : ∀ p, p ∈ x'.freePages ∨ p ∈ x'.tables d t ↔ p ∈ x.freePages ∨ p ∈ x.tables d t
  frame : ∀ p, p ∉ x.freePages → p ∉ x.tables d t →
    x'.words p = x.words p ∧ x'.blocks p = x.blocks p ∧ x'.pages p = x.pages p
  root : x'.blocks t = x.blocks t ∧ x'.pages t = x.pages t
  fresh : ∀ p, x'.pages p = x.pages p ∨ x'.pages p = .handed 0
  buddy : A.Evolves x.buddy x'.buddy
  keep : ∀ w < 512 ^ (d + 1), K (b + w) → x.ValidAt d t w → x'.leaf d t w = x.leaf d t w

variable {K : ℕ → Prop} {x x' x'' : Memory A} {d t t' b i v : ℕ}

theorem root_mem_tables (x : Memory A) (d t : ℕ) : t ∈ x.tables d t := Radix.self_mem_tables

theorem tables_zero (x : Memory A) (t : ℕ) : x.tables 0 t = {t} := by
  rw [tables, Radix.tables]

theorem Held.mono (h : Held K x d t b) (hb : x'.blocks t = x.blocks t)
    (hp : x'.pages t = x.pages t)
    (hk : ∀ w < 512 ^ (d + 1), K (b + w) → x.ValidAt d t w → x'.leaf d t w = x.leaf d t w) :
    Held K x' d t b := by
  refine ⟨h.1, ?_⟩
  rcases h.2 with ht | ⟨w, hw, hkw, e, he, hv⟩
  · exact .inl ⟨by rw [hb, ht.block], by rw [hp]; exact ht.type, by rw [hp]; exact ht.freeable⟩
  · exact .inr ⟨w, hw, hkw, e, by rw [hk w hw hkw ⟨e, he, hv⟩, he], hv⟩

namespace TableStep

theorem refl (h : TableInv K x d t b) : TableStep K x x d t b :=
  ⟨h, fun _ => Iff.rfl, fun _ _ _ => ⟨rfl, rfl, rfl⟩, ⟨rfl, rfl⟩, fun _ => .inl rfl,
    .refl, fun _ _ _ _ => rfl⟩

theorem trans (h : TableStep K x x' d t b) (h' : TableStep K x' x'' d t b) :
    TableStep K x x'' d t b where
  inv := h'.inv
  conserve p := (h'.conserve p).trans (h.conserve p)
  frame p hf ht := by
    have hn : ¬ (p ∈ x'.freePages ∨ p ∈ x'.tables d t) := by
      rw [h.conserve]
      exact not_or.2 ⟨hf, ht⟩
    obtain ⟨h1, h2, h3⟩ := h.frame p hf ht
    obtain ⟨h1', h2', h3'⟩ := h'.frame p (not_or.1 hn).1 (not_or.1 hn).2
    exact ⟨h1'.trans h1, h2'.trans h2, h3'.trans h3⟩
  root := ⟨h'.root.1.trans h.root.1, h'.root.2.trans h.root.2⟩
  fresh p := by
    rcases h'.fresh p with h1 | h1
    · rw [h1]
      exact h.fresh p
    · exact .inr h1
  buddy := h.buddy.trans h'.buddy
  keep w hw hk hv := by
    have h1 := h.keep w hw hk hv
    obtain ⟨e, he, hve⟩ := hv
    exact (h'.keep w hw hk ⟨e, h1.trans he, hve⟩).trans h1

/-- A page that is neither free nor one of the tables stays so. -/
theorem frame_out (h : TableStep K x x' d t b) {p : ℕ} (hf : p ∉ x.freePages)
    (ht : p ∉ x.tables d t) : p ∉ x'.freePages ∧ p ∉ x'.tables d t := by
  have hn : ¬ (p ∈ x'.freePages ∨ p ∈ x'.tables d t) := by
    rw [h.conserve]
    exact not_or.2 ⟨hf, ht⟩
  exact not_or.1 hn

end TableStep

/-! ### What hangs below one entry changes -/

/-- The tables below an entry. -/
def under (x : Memory A) (d t i : ℕ) : Finset ℕ := Radix.under (sv39Format L) x.words d t i

theorem under_eq (hn : (sv39Format L).next (x.words t i) = some t') :
    x.under d t i = x.tables d t' := under_some hn

theorem under_eq_empty (hn : (sv39Format L).next (x.words t i) = none) :
    x.under d t i = ∅ := under_none hn

theorem under_subset {p : ℕ} (hi : i < 512) (hp : p ∈ x.under d t i) : p ∈ x.tables (d + 1) t :=
  Radix.under_subset (F := sv39Format L) hi hp

namespace TableInv

variable (hinv : TableInv K x (d + 1) t b) (hi : i < 512)

include hinv hi

theorem notMem_under_other {j p : ℕ} (hj : j < 512) (hij : j ≠ i) (hp : p ∈ x.under d t j) :
    p ∉ x.under d t i :=
  Finset.disjoint_left.1 (hinv.tree.disjoint_under hj hi (Ne.symm hij)) hp

theorem root_notMem_under : t ∉ x.under d t i := hinv.tree.self_notMem_under hi

/-- The part of the invariant that is about one entry. -/
theorem child (hn : (sv39Format L).next (x.words t i) = some t') :
    TableInv K x d t' (b + i * 512 ^ (d + 1)) ∧ Held K x d t' (b + i * 512 ^ (d + 1)) := by
  refine ⟨⟨(hinv.tree.child hi hn).1, (hinv.below i hi t' hn).2, fun p hp => ?_⟩,
    (hinv.below i hi t' hn).1⟩
  refine hinv.apart p (under_subset hi ?_)
  rwa [under_eq hn]

end TableInv

/-- What changed between two states is entry `i` of table `t` and what hangs below it. -/
structure EntryStep (K : ℕ → Prop) (x x' : Memory A) (d t b i : ℕ) : Prop where
  words : ∀ j, j ≠ i → x'.words t j = x.words t j
  new : x'.words t i = 0 ∨ ∃ t', (sv39Format L).next (x'.words t i) = some t' ∧
    TableInv K x' d t' (b + i * 512 ^ (d + 1)) ∧ Held K x' d t' (b + i * 512 ^ (d + 1))
  conserve : ∀ p, p ∈ x'.freePages ∨ p ∈ x'.under d t i ↔ p ∈ x.freePages ∨ p ∈ x.under d t i
  apart : ∀ p ∈ x'.under d t i, p ∉ x'.freePages
  frame : ∀ p, p ≠ t → p ∉ x.freePages → p ∉ x.under d t i →
    x'.words p = x.words p ∧ x'.blocks p = x.blocks p ∧ x'.pages p = x.pages p
  root : x'.blocks t = x.blocks t ∧ x'.pages t = x.pages t
  fresh : ∀ p, x'.pages p = x.pages p ∨ x'.pages p = .handed 0
  buddy : A.Evolves x.buddy x'.buddy
  keep : ∀ w < 512 ^ (d + 2), w / 512 ^ (d + 1) = i → K (b + w) → x.ValidAt (d + 1) t w →
    x'.leaf (d + 1) t w = x.leaf (d + 1) t w

namespace EntryStep

variable (h : EntryStep K x x' d t b i) (hinv : TableInv K x (d + 1) t b) (hi : i < 512)

include h hinv

/-- A page that is neither free nor below the entry stays so. -/
theorem frame_out {p : ℕ} (hp : p ∈ x.tables (d + 1) t) (hu : p ∉ x.under d t i) :
    p ∉ x'.freePages ∧ p ∉ x'.under d t i := by
  rw [← not_or, h.conserve]
  exact not_or.2 ⟨hinv.apart p hp, hu⟩

include hi

theorem replaced : Replaced (sv39Format L) x.words x'.words d t i where
  lt := hi
  words j _ hij := h.words j hij
  frame j hj hij p hp := by
    have hpt : p ≠ t := by
      rintro rfl
      exact hinv.root_notMem_under hj hp
    exact (h.frame p hpt (hinv.apart p (under_subset hj hp))
      (hinv.notMem_under_other hi hj hij hp)).1

theorem leaf_other {w : ℕ} (hw : w < 512 ^ (d + 2)) (hwi : w / 512 ^ (d + 1) ≠ i) :
    x'.leaf (d + 1) t w = x.leaf (d + 1) t w :=
  (h.replaced hinv hi).leaf_same hw hwi

theorem tableStep : TableStep K x x' (d + 1) t b := by
  have hr := h.replaced hinv hi
  have hmem : ∀ p, p ∈ x'.tables (d + 1) t ↔
      (p ∈ x.tables (d + 1) t ∧ p ∉ x.under d t i) ∨ p ∈ x'.under d t i :=
    fun p => hr.mem_tables hinv.tree
  have hother : ∀ j < 512, j ≠ i → ∀ p ∈ x.under d t j,
      p ≠ t ∧ p ∉ x.freePages ∧ p ∉ x.under d t i := by
    intro j hj hij p hp
    refine ⟨?_, hinv.apart p (under_subset hj hp), hinv.notMem_under_other hi hj hij hp⟩
    rintro rfl
    exact hinv.root_notMem_under hj hp
  refine ⟨⟨?_, ?_, ?_⟩, ?_, ?_, h.root, h.fresh, h.buddy, ?_⟩
  · refine hinv.tree.replace hr ?_ ?_ ?_
    · rcases h.new with h0 | ⟨t', hn, ht, -⟩
      · exact .inl h0
      · exact .inr ⟨t', hn, ht.tree⟩
    · exact (h.frame_out hinv (root_mem_tables x _ t) (hinv.root_notMem_under hi)).2
    · intro j hj hij
      rw [Finset.disjoint_right]
      intro p hp
      exact (h.frame_out hinv (under_subset hj hp) (hother j hj hij p hp).2.2).2
  · refine hinv.below.replace hr ?_ ?_
    · intro t₁ hn₁
      rcases h.new with h0 | ⟨t', hn, ht, hheld⟩
      · rw [h0, sv39Format_next_none fun hv => not_pteValid_zero hv.1] at hn₁
        cases hn₁
      · rw [hn] at hn₁
        cases hn₁
        exact ⟨hheld, ht.below⟩
    · intro j hj hij e p c hp hsub hheld
      obtain ⟨h1, h2, h3⟩ := hother j hj hij p hp
      have hpt := h.frame p h1 h2 h3
      refine hheld.mono hpt.2.1 hpt.2.2 fun w hw _ _ => leaf_congr (fun q hq => ?_) hw
      obtain ⟨h1, h2, h3⟩ := hother j hj hij q (hsub hq)
      exact (h.frame q h1 h2 h3).1
  · intro p hp
    rcases (hmem p).1 hp with ⟨h1, h2⟩ | h1
    · exact (h.frame_out hinv h1 h2).1
    · exact h.apart p h1
  · intro p
    have hc := h.conserve p
    have hsub : p ∈ x.under d t i → p ∈ x.tables (d + 1) t := under_subset hi
    rw [hmem p]
    tauto
  · intro p hf hp
    refine h.frame p ?_ hf fun hu => hp (under_subset hi hu)
    rintro rfl
    exact hp (root_mem_tables x _ p)
  · intro w hw hk hv
    by_cases hwi : w / 512 ^ (d + 1) = i
    · exact h.keep w hw hwi hk hv
    · exact h.leaf_other hinv hi hw hwi

end EntryStep

/-- A position below an entry is one of the table below it. -/
theorem leaf_child {w : ℕ} (hn : (sv39Format L).next (x.words t (w / 512 ^ (d + 1))) = some t') :
    x.leaf (d + 1) t w = x.leaf d t' (w % 512 ^ (d + 1)) := leaf_succ_some (F := sv39Format L) hn

theorem leaf_hole {w : ℕ} (hn : (sv39Format L).next (x.words t (w / 512 ^ (d + 1))) = none) :
    x.leaf (d + 1) t w = none := leaf_succ_none (F := sv39Format L) hn

/-- A step of the table below an entry. -/
theorem TableStep.entry (hs : TableStep K x x' d t' (b + i * 512 ^ (d + 1)))
    (hinv : TableInv K x (d + 1) t b) (hi : i < 512)
    (hn : (sv39Format L).next (x.words t i) = some t') : EntryStep K x x' d t b i := by
  have hroot := hs.frame t (hinv.apart t (root_mem_tables x _ t)) (hinv.tree.child hi hn).2
  have hn' : (sv39Format L).next (x'.words t i) = some t' := by rw [hroot.1, hn]
  have hu := under_eq (d := d) hn
  have hu' := under_eq (d := d) hn'
  refine ⟨fun j _ => by rw [hroot.1], ?_, ?_, ?_, ?_, hroot.2, hs.fresh, hs.buddy, ?_⟩
  · exact .inr ⟨t', hn', hs.inv, (hinv.child hi hn).2.mono hs.root.1 hs.root.2 hs.keep⟩
  · rw [hu, hu']
    exact hs.conserve
  · rw [hu']
    exact hs.inv.apart
  · rw [hu]
    exact fun p _ hf hp => hs.frame p hf hp
  · rintro w - rfl hk hv
    rw [leaf_child hn, leaf_child hn']
    refine hs.keep _ (Nat.mod_lt _ (pow_pos (by norm_num) _)) ?_ ?_
    · rw [Nat.add_assoc, Nat.mul_comm, Nat.div_add_mod]
      exact hk
    · obtain ⟨e, he, hve⟩ := hv
      exact ⟨e, (leaf_child hn).symm.trans he, hve⟩

/-! ### The elementary steps -/

/-- Nothing changed but the inside of the buddy allocator. -/
theorem TableStep.of_same (h : TableInv K x d t b) (hfree : x'.freePages = x.freePages)
    (hblocks : x'.blocks = x.blocks) (hpages : x'.pages = x.pages) (hwords : x'.words = x.words)
    (hbuddy : A.Evolves x.buddy x'.buddy) : TableStep K x x' d t b := by
  have hleaf : ∀ e p w, x'.leaf e p w = x.leaf e p w := by
    intro e p w
    rw [leaf, hwords, leaf]
  have htab : x'.tables d t = x.tables d t := by rw [tables, hwords, tables]
  refine ⟨⟨?_, ?_, ?_⟩, ?_, ?_, ?_, fun p => .inl (by rw [hpages]),
    hbuddy, fun w _ _ _ => hleaf _ _ _⟩
  · rw [hwords]
    exact h.tree
  · rw [hwords]
    refine h.below.congr (fun _ _ => rfl) fun e p c _ _ hheld => ?_
    exact hheld.mono (by rw [hblocks]) (by rw [hpages]) fun w _ _ _ => hleaf _ _ _
  · rw [htab, hfree]
    exact h.apart
  · intro p
    rw [htab, hfree]
  · intro p _ _
    rw [hwords, hblocks, hpages]
    exact ⟨rfl, rfl, rfl⟩
  · rw [hblocks, hpages]
    exact ⟨rfl, rfl⟩

/-- A block of free pages was taken and cleared, and its descriptor is that of a new block. -/
structure TookZero (x x' : Memory A) (p k : ℕ) : Prop where
  sub : pagesOf p k ⊆ x.freePages
  free : x'.freePages = x.freePages \ pagesOf p k
  block : x'.blocks p = some k
  page : x'.pages p = .handed k
  zero : ∀ q ∈ pagesOf p k, ∀ j, x'.words q j = 0
  blocks : ∀ q, q ≠ p → x'.blocks q = x.blocks q
  pages : ∀ q, q ≠ p → x'.pages q = x.pages q
  words : ∀ q, q ∉ pagesOf p k → x'.words q = x.words q

/-- `bkp_alloc_zero` takes a block out of the free pages and clears it. -/
theorem bkpAllocZero_some {k : ℤ} {p : ℕ} (h : x.bkpAllocZero k = (some p, x')) :
    0 ≤ k ∧ x.TookZero x' p k.toNat := by
  unfold bkpAllocZero at h
  split at h
  · cases h
  · rename_i q s heq
    cases h
    obtain ⟨h0, hsub, hfree, hblocks⟩ := PageAllocator.alloc_some heq
    refine ⟨h0, hsub, hfree, ?_, Function.update_self .., fun q hq j => ?_, fun q hq => ?_,
      fun q hq => Function.update_of_ne hq .., fun q hq => ?_⟩
    · show A.blocks s p = _
      rw [hblocks, Function.update_self]
    · rw [mem_pagesOf, ← Nat.one_shiftLeft] at hq
      exact congrFun (if_pos hq) j
    · show A.blocks s q = _
      rw [hblocks, Function.update_of_ne hq]
      rfl
    · rw [mem_pagesOf, ← Nat.one_shiftLeft] at hq
      exact if_neg hq

namespace TookZero

variable {p k : ℕ}

theorem mem_free (h : x.TookZero x' p k) : p ∈ x.freePages := h.sub (self_mem_pagesOf p k)

/-- The words of the first page. -/
theorem clear (h : x.TookZero x' p k) (j : ℕ) : x'.words p j = 0 :=
  h.zero p (self_mem_pagesOf p k) j

end TookZero

theorem bkpAllocZero_none {k : ℤ} (h : x.bkpAllocZero k = (none, x')) :
    x'.freePages = x.freePages ∧ x'.blocks = x.blocks ∧ x'.pages = x.pages ∧
    x'.words = x.words := by
  unfold bkpAllocZero at h
  split at h
  · rename_i s heq
    cases h
    obtain ⟨hfree, hblocks⟩ := PageAllocator.alloc_none heq
    exact ⟨hfree, hblocks, rfl, rfl⟩
  · cases h

theorem bkpAllocZero_none_alloc {k : ℤ} (h : x.bkpAllocZero k = (none, x')) :
    A.alloc x.buddy k = (none, x'.buddy) := by
  unfold bkpAllocZero at h
  split at h
  · rename_i s heq
    cases h
    exact heq
  · cases h

theorem bkpAllocZero_evolves {k : ℤ} {o : Option ℕ} (h : x.bkpAllocZero k = (o, x')) :
    A.Evolves x.buddy x'.buddy := by
  have hs := PageAllocator.Evolves.alloc (.refl (A := A) (s := x.buddy)) k
  unfold bkpAllocZero at h
  split at h
  · rename_i s heq
    cases h
    rwa [heq] at hs
  · rename_i q s heq
    cases h
    rwa [heq] at hs

theorem bkpFree_evolves {p : ℕ} (h : x.bkpFree p = some x') : A.Evolves x.buddy x'.buddy := by
  unfold bkpFree at h
  split_ifs at h
  split at h
  · cases h
  · rename_i s heq
    cases h
    exact .free .refl heq

theorem bkpAllocZero_of_alloc {k : ℤ} {p : ℕ} {s : A.State} (h : A.alloc x.buddy k = (some p, s)) :
    ∃ x', x.bkpAllocZero k = (some p, x') := by
  rw [bkpAllocZero, h]
  exact ⟨_, rfl⟩

/-- `bkp_free` of a block that its owner marked as one of the buddy allocator again. -/
theorem bkpFree_some {p k : ℕ} (hb : x.blocks p = some k)
    (ht : (x.pages p).pgtype = .buddyAllocator) (hf : (x.pages p).Freeable) :
    ∃ x', x.bkpFree p = some x' ∧ x'.freePages = x.freePages ∪ pagesOf p k ∧
      x'.blocks = Function.update x.blocks p none ∧ x'.pages = x.pages ∧ x'.words = x.words := by
  obtain ⟨s, hs, hfree, hblocks⟩ := PageAllocator.free_some (A := A) hb
  refine ⟨{ x with buddy := s }, ?_, hfree, hblocks, rfl, rfl⟩
  rw [bkpFree, if_pos ⟨ht, hf⟩, hs]

/-- A page is one page of a block of order 0. -/
theorem pagesOf_zero (p : ℕ) : pagesOf p 0 = {p} := by
  ext q
  rw [mem_pagesOf, Set.mem_singleton_iff]
  omega

theorem block_notMem_freePages {p k : ℕ} (h : x.blocks p = some k) : p ∉ x.freePages := by
  intro hf
  rw [show x.blocks p = none from PageAllocator.blocks_of_free hf] at h
  cases h

theorem setWord_words (x : Memory A) (t i e p j : ℕ) : (x.setWord t i e).words p j =
    if p = t ∧ j = i then e else x.words p j := by
  show Function.update x.words t (Function.update (x.words t) i e) p j = _
  by_cases hp : p = t
  · subst hp
    rw [Function.update_self, Function.update_apply]
    simp
  · rw [Function.update_of_ne hp, if_neg fun h => hp h.1]

theorem setWord_words_of_ne {p e : ℕ} (h : p ≠ t) : (x.setWord t i e).words p = x.words p :=
  Function.update_of_ne h _ _

/-- Writing an entry of the last level, unless a pinned entry is lost. -/
theorem TableStep.setLeaf (h : TableInv K x 0 t b) {e : ℕ}
    (hk : K (b + i) → ¬ PteValid (x.words t i)) : TableStep K x (x.setWord t i e) 0 t b where
  inv := ⟨trivial, trivial, by rw [tables_zero]; have := h.apart; rwa [tables_zero] at this⟩
  conserve _ := by rw [tables_zero, tables_zero]; rfl
  frame p _ hp := by
    refine ⟨setWord_words_of_ne ?_, rfl, rfl⟩
    rintro rfl
    exact hp (root_mem_tables x _ p)
  root := ⟨rfl, rfl⟩
  fresh _ := .inl rfl
  buddy := .refl
  keep w _ hkw hv := by
    have hwi : w ≠ i := by
      rintro rfl
      obtain ⟨e', he', hv'⟩ := hv
      cases he'
      exact hk hkw hv'
    show some _ = some _
    rw [setWord_words, if_neg fun h => hwi h.2]

theorem leaf_setWord (x : Memory A) (t i e w : ℕ) :
    (x.setWord t i e).leaf 0 t w = if w = i then some e else x.leaf 0 t w := by
  show some _ = _
  rw [setWord_words]
  by_cases hw : w = i
  · rw [if_pos ⟨rfl, hw⟩, if_pos hw]
  · rw [if_neg fun h => hw h.2, if_neg hw]
    rfl

/-- Linking a cleared page as the table below an empty entry. -/
theorem EntryStep.link (hinv : TableInv K x (d + 1) t b) {p : ℕ}
    (hn : (sv39Format L).next (x.words t i) = none) (ha : x.bkpAllocZero 0 = (some p, x')) :
    (sv39Format L).next ((x'.setWord t i (L.pointer p)).words t i) = some p ∧
    (∀ j < 512, (x'.setWord t i (L.pointer p)).words p j = 0) ∧
    EntryStep K x (x'.setWord t i (L.pointer p)) d t b i := by
  obtain ⟨-, hz⟩ := bkpAllocZero_some ha
  rw [Int.toNat_zero] at hz
  have hp : p ∈ x.freePages := hz.mem_free
  have hpt : p ≠ t := by
    rintro rfl
    exact hinv.apart p (root_mem_tables x _ p) hp
  have hlt : p < L.pageNums := (A.wellFormed x.buddy).free_lt p hp
  have hw : ∀ q, q ≠ p → x'.words q = x.words q := by
    intro q hq
    refine hz.words q ?_
    rwa [pagesOf_zero]
  have hclear : ∀ j < 512, (x'.setWord t i (L.pointer p)).words p j = 0 := by
    intro j _
    rw [setWord_words, if_neg fun h => hpt h.1, hz.clear]
  have hnew : (sv39Format L).next ((x'.setWord t i (L.pointer p)).words t i) = some p := by
    rw [setWord_words, if_pos ⟨rfl, rfl⟩]
    exact sv39Format_pointer hlt
  have htab : (x'.setWord t i (L.pointer p)).tables d p = {p} := tables_of_empty hclear
  have hpage : IsTablePage (x'.setWord t i (L.pointer p)) p := by
    refine ⟨hz.block, ?_, ?_⟩
    · exact congrArg Pageframe.pgtype hz.page
    · show (x'.pages p).Freeable
      rw [hz.page]
      rfl
  have hpf : p ∉ (x'.setWord t i (L.pointer p)).freePages := block_notMem_freePages hpage.block
  have hf : ∀ q, q ∈ (x'.setWord t i (L.pointer p)).freePages ↔ q ∈ x.freePages ∧ q ≠ p := by
    intro q
    show q ∈ x'.freePages ↔ _
    rw [hz.free, pagesOf_zero]
    rfl
  have hother : ∀ q, q ≠ p → x'.blocks q = x.blocks q ∧ x'.pages q = x.pages q :=
    fun q hq => ⟨hz.blocks q hq, hz.pages q hq⟩
  refine ⟨hnew, hclear, ?_, ?_, ?_, ?_, ?_, hother t (Ne.symm hpt), fun q => ?_,
    show A.Evolves x.buddy x'.buddy from bkpAllocZero_evolves ha, ?_⟩
  · intro j hj
    rw [setWord_words, if_neg fun h => hj h.2, hw t (Ne.symm hpt)]
  · refine .inr ⟨p, hnew, ⟨isTree_of_empty hclear, below_of_empty hclear, ?_⟩, hlt, .inl hpage⟩
    intro q hq
    rw [htab, Finset.mem_singleton] at hq
    rw [hq]
    exact hpf
  · intro q
    rw [under_eq hnew, under_eq_empty hn, htab, Finset.mem_singleton, hf]
    by_cases hq : q = p
    · simp [hq, hp]
    · simp [hq]
  · intro q hq
    rw [under_eq hnew, htab, Finset.mem_singleton] at hq
    rw [hq]
    exact hpf
  · intro q hqt hqf _
    have hqp : q ≠ p := by
      rintro rfl
      exact hqf hp
    exact ⟨by rw [setWord_words_of_ne hqt, hw q hqp], hother q hqp⟩
  · by_cases hqp : q = p
    · right
      rw [hqp]
      exact hz.page
    · exact .inl (hother q hqp).2
  · rintro w - rfl - ⟨e, he, -⟩
    rw [leaf_hole hn] at he
    cases he

/-- Unlinking and freeing the table below an entry, when it has no table below it and no
valid entry. -/
theorem EntryStep.unlink (hinv : TableInv K x (d + 1) t b) (hi : i < 512)
    (hn : (sv39Format L).next (x.words t i) = some t') (htab : x.tables d t' = {t'})
    (hno : ∀ w < 512 ^ (d + 1), ¬ x.ValidAt d t' w) :
    ∃ x', (x.setWord t i 0).bkFree t' = some x' ∧ x'.words = (x.setWord t i 0).words ∧
      EntryStep K x x' d t b i := by
  obtain ⟨-, hlt, hheld⟩ := hinv.child hi hn
  have hpage : x.IsTablePage t' := by
    rcases hheld with h | ⟨w, hw, -, hv⟩
    · exact h
    · exact absurd hv (hno w hw)
  obtain ⟨x', hx', hfree, hblocks, hpages, hwords⟩ :=
    bkpFree_some (x := x.setWord t i 0) hpage.block hpage.type hpage.freeable
  rw [pagesOf_zero] at hfree
  have htt : t' ≠ t := by
    rintro rfl
    exact (hinv.tree.child hi hn).2 Radix.self_mem_tables
  have hzero : x'.words t i = 0 := by rw [hwords, setWord_words, if_pos ⟨rfl, rfl⟩]
  have hu' : x'.under d t i = ∅ := under_eq_empty (by
    rw [hzero]
    exact sv39Format_next_none fun hv => not_pteValid_zero hv.1)
  have hu : x.under d t i = {t'} := by rw [under_eq hn, htab]
  have hf : ∀ q, q ∈ x'.freePages ↔ q ∈ x.freePages ∨ q = t' := by
    intro q
    rw [hfree]
    rfl
  have hother : ∀ q, q ≠ t' → x'.blocks q = x.blocks q ∧ x'.pages q = x.pages q := by
    intro q hq
    rw [hblocks, hpages, Function.update_of_ne hq]
    exact ⟨rfl, rfl⟩
  refine ⟨x', by rw [bkFree, if_pos (show L.pgValid t' from hlt), hx'], hwords, ?_, .inl hzero,
    ?_, ?_, ?_, hother t (Ne.symm htt), fun q => .inl (by rw [hpages]; rfl),
    show A.Evolves (x.setWord t i 0).buddy x'.buddy from bkpFree_evolves hx', ?_⟩
  · intro j hj
    rw [hwords, setWord_words, if_neg fun h => hj h.2]
  · intro q
    rw [hu, hu', hf, Finset.mem_singleton]
    simp
  · intro q hq
    rw [hu'] at hq
    cases hq
  · intro q hqt _ hqu
    rw [hu, Finset.mem_singleton] at hqu
    exact ⟨by rw [hwords, setWord_words_of_ne hqt], hother q hqu⟩
  · rintro w hw rfl - ⟨e, he, hv⟩
    rw [leaf_child hn] at he
    exact absurd ⟨e, he, hv⟩ (hno _ (Nat.mod_lt _ (pow_pos (by norm_num) _)))

end Memory

end AcoOs
