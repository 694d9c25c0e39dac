/-
What the walk of the boot code does.

A walk to a position takes a page for each table that is missing on the way (`missing`), and changes
nothing but what is on the way (`OnPath`).  Its outcomes are those of `WalkEnd`: it enters the
position, finds a valid entry there, or is refused a page (`walk_end`).  As long as no page is
refused, `vm_mmap` enters a whole range, or finds a valid entry in it (`loop_spec`).
-/
import AcoOs.EarlyTable

namespace AcoOs

open Radix

namespace EarlyMemory

variable {x x' y z : EarlyMemory} {d t t' i p v w e flags va pa : ℕ}

/-! ### The way to a position -/

/-- The number of tables that are missing on the way to a position. -/
def missing (x : EarlyMemory) : ℕ → ℕ → ℕ → ℕ
  | 0, _, _ => 0
  | d + 1, t, v =>
    match earlyFormat.next (x.words t (v / 512 ^ (d + 1))) with
    | none => d + 1
    | some t' => x.missing d t' (v % 512 ^ (d + 1))

theorem missing_hole (h : earlyFormat.next (x.words t (v / 512 ^ (d + 1))) = none) :
    x.missing (d + 1) t v = d + 1 := by
  rw [missing, h]

theorem missing_child {t' : ℕ} (h : earlyFormat.next (x.words t (v / 512 ^ (d + 1))) = some t') :
    x.missing (d + 1) t v = x.missing d t' (v % 512 ^ (d + 1)) := by
  rw [missing, h]

theorem missing_le (x : EarlyMemory) (d t v : ℕ) : x.missing d t v ≤ d := by
  induction d generalizing t v with
  | zero => exact le_rfl
  | succ d ih =>
    cases h : earlyFormat.next (x.words t (v / 512 ^ (d + 1))) with
    | none => exact (missing_hole h).le
    | some t' =>
      rw [missing_child h]
      exact (ih t' _).trans (Nat.le_succ d)

/-- All tables are missing below an empty one. -/
theorem missing_of_empty (h : ∀ j < 512, x.words t j = 0) (hv : v < 512 ^ (d + 1)) :
    x.missing d t v = d := by
  cases d with
  | zero => rfl
  | succ d =>
    refine missing_hole ?_
    rw [h]
    · exact earlyFormat.next_empty
    · rwa [Nat.div_lt_iff_lt_mul (pow_pos (by norm_num) _), ← pow_succ']

theorem missing_eq_zero_iff : x.missing d t v = 0 ↔ x.leaf d t v ≠ none := by
  induction d generalizing t v with
  | zero => exact iff_of_true rfl (Option.some_ne_none _)
  | succ d ih =>
    cases hn : earlyFormat.next (x.words t (v / 512 ^ (d + 1))) with
    | none =>
      rw [missing_hole hn, leaf_hole hn]
      exact iff_of_false (Nat.succ_ne_zero d) fun h => h rfl
    | some t' =>
      rw [missing_child hn, leaf_child hn]
      exact ih

theorem missing_pos_of_none (h : x.leaf d t v = none) : 0 < x.missing d t v :=
  Nat.pos_of_ne_zero fun h0 => missing_eq_zero_iff.1 h0 h

/-- The way to a position is in the tables. -/
theorem missing_congr (h : ∀ p ∈ x.tables d t, y.words p = x.words p) (hv : v < 512 ^ (d + 1)) :
    y.missing d t v = x.missing d t v := by
  induction d generalizing t v with
  | zero => rfl
  | succ d ih =>
    have hi : v / 512 ^ (d + 1) < 512 := by
      rw [Nat.div_lt_iff_lt_mul (pow_pos (by norm_num) _), ← pow_succ']
      exact hv
    have ht := h t (root_mem_tables x _ t)
    cases hn : earlyFormat.next (x.words t (v / 512 ^ (d + 1))) with
    | none => rw [missing_hole hn, missing_hole (by rw [ht, hn])]
    | some t' =>
      rw [missing_child hn, missing_child (by rw [ht, hn])]
      exact ih (fun p hp => h p (tables_child (F := earlyFormat) hi hn hp))
        (Nat.mod_lt v (pow_pos (by norm_num) _))

theorem missing_same (h : Replaced earlyFormat x.words y.words d t i) (hw : w < 512 ^ (d + 1 + 1))
    (hne : w / 512 ^ (d + 1) ≠ i) : y.missing (d + 1) t w = x.missing (d + 1) t w := by
  have hj : w / 512 ^ (d + 1) < 512 := by
    rw [Nat.div_lt_iff_lt_mul (pow_pos (by norm_num) _), ← pow_succ']
    exact hw
  have hword := h.words _ hj hne
  cases hn : earlyFormat.next (x.words t (w / 512 ^ (d + 1))) with
  | none => rw [missing_hole hn, missing_hole (by rw [hword, hn])]
  | some t' =>
    rw [missing_child hn, missing_child (by rw [hword, hn])]
    refine missing_congr (fun p hp => h.frame _ hj hne p ?_)
      (Nat.mod_lt w (pow_pos (by norm_num) _))
    rwa [under_some hn]

/-- The level of the first table that the ways to two positions have in common. -/
def meet : ℕ → ℕ → ℕ → ℕ
  | 0, _, _ => 0
  | d + 1, v, w =>
    if v / 512 ^ (d + 1) = w / 512 ^ (d + 1) then meet d (v % 512 ^ (d + 1)) (w % 512 ^ (d + 1))
    else d + 1

theorem meet_le (d v w : ℕ) : meet d v w ≤ d := by
  induction d generalizing v w with
  | zero => exact le_rfl
  | succ d ih =>
    rw [meet]
    split
    · exact (ih _ _).trans (Nat.le_succ d)
    · exact le_rfl

/-- What is missing on the way to a position is missing on the way to another one, or it is below
the table where the ways part. -/
theorem missing_le_max (x : EarlyMemory) (d t v w : ℕ) :
    x.missing d t w ≤ max (meet d v w) (x.missing d t v) := by
  induction d generalizing t v w with
  | zero => exact Nat.zero_le _
  | succ d ih =>
    rw [meet]
    by_cases hdiv : v / 512 ^ (d + 1) = w / 512 ^ (d + 1)
    · rw [if_pos hdiv]
      cases hn : earlyFormat.next (x.words t (v / 512 ^ (d + 1))) with
      | none =>
        rw [missing_hole hn]
        exact (missing_le x (d + 1) t w).trans (le_max_right _ _)
      | some t' =>
        rw [missing_child hn, missing_child (by rw [← hdiv, hn])]
        exact ih _ _ _
    · rw [if_neg hdiv]
      exact (missing_le x (d + 1) t w).trans (le_max_left _ _)

/-- Only what is on the way to one position changes. -/
structure OnPath (x y : EarlyMemory) (d t v : ℕ) : Prop where
  rest : ∀ w < 512 ^ (d + 1), w ≠ v → SameOrNew x y d t w
  missing : ∀ w < 512 ^ (d + 1),
    y.missing d t w = min (x.missing d t w) (max (meet d v w) (y.missing d t v))

theorem OnPath.of_words (h : y.words = x.words) : OnPath x y d t v := by
  have hmissing : ∀ w < 512 ^ (d + 1), y.missing d t w = x.missing d t w := fun w hw =>
    missing_congr (fun p _ => by rw [h]) hw
  refine ⟨fun w _ _ => .inl (by unfold leaf; rw [h]), fun w hw => ?_⟩
  rw [hmissing w hw]
  refine (min_eq_left ?_).symm
  rw [← hmissing w hw]
  exact missing_le_max y d t v w

theorem OnPath.child (hp : OnPath x y d t' (v % 512 ^ (d + 1))) (h : Step x y d t')
    (ht : x.IsTable (d + 1) t) (hi : v / 512 ^ (d + 1) < 512)
    (hn : earlyFormat.next (x.words t (v / 512 ^ (d + 1))) = some t') :
    OnPath x y (d + 1) t v := by
  obtain ⟨hwords, hr⟩ := h.replaced ht hi hn
  have hn' : earlyFormat.next (y.words t (v / 512 ^ (d + 1))) = some t' := by rw [hwords, hn]
  refine ⟨fun w hw hwv => ?_, fun w hw => ?_⟩
  · unfold SameOrNew
    by_cases hdiv : w / 512 ^ (d + 1) = v / 512 ^ (d + 1)
    · rw [← hdiv] at hn hn'
      rw [leaf_child hn, leaf_child hn']
      refine hp.rest _ (Nat.mod_lt w (pow_pos (by norm_num) _)) fun hmod => hwv ?_
      rw [← Nat.div_add_mod w (512 ^ (d + 1)), hdiv, hmod, Nat.div_add_mod]
    · exact .inl (hr.leaf_same (F := earlyFormat) hw hdiv)
  · rw [meet, missing_child hn']
    by_cases hdiv : v / 512 ^ (d + 1) = w / 512 ^ (d + 1)
    · rw [if_pos hdiv, missing_child (x := y) (v := w) (by rw [← hdiv, hn']),
        missing_child (x := x) (v := w) (by rw [← hdiv, hn])]
      exact hp.missing _ (Nat.mod_lt w (pow_pos (by norm_num) _))
    · rw [if_neg hdiv, missing_same hr hw (Ne.symm hdiv)]
      exact (min_eq_left ((missing_le x (d + 1) t w).trans (le_max_left _ _))).symm

/-- A table is taken first. -/
theorem OnPath.linked (hp : OnPath z y (d + 1) t v) (hl : Linked x z d t (v / 512 ^ (d + 1)) p)
    (h0 : x.words t (v / 512 ^ (d + 1)) = 0) (hv : v < 512 ^ (d + 1 + 1)) :
    OnPath x y (d + 1) t v := by
  refine ⟨fun w hw hwv => (hl.sameOrNew h0 hw).trans (hp.rest w hw hwv), fun w hw => ?_⟩
  have hmod : ∀ u, u % 512 ^ (d + 1) < 512 ^ (d + 1) := fun u =>
    Nat.mod_lt u (pow_pos (by norm_num) _)
  rw [hp.missing w hw]
  by_cases hdiv : v / 512 ^ (d + 1) = w / 512 ^ (d + 1)
  · -- below the new table all tables are missing
    have hz : z.missing (d + 1) t w = d := by
      rw [missing_child (by rw [← hdiv, hl.next])]
      exact missing_of_empty hl.clear (hmod w)
    have hx : x.missing (d + 1) t w = d + 1 := by
      refine missing_hole ?_
      rw [← hdiv, h0]
      exact earlyFormat.next_empty
    have hy : y.missing (d + 1) t v ≤ d := by
      refine (hp.missing v hv).le.trans ((min_le_left _ _).trans ?_)
      rw [missing_child hl.next, missing_of_empty hl.clear (hmod v)]
    have hmeet : meet (d + 1) v w ≤ d := by
      rw [meet, if_pos hdiv]
      exact meet_le d _ _
    rw [hz, hx]
    omega
  · rw [missing_same hl.replaced hw (Ne.symm hdiv)]

/-! ### How a walk ends -/

/-- The outcomes of a walk to a position, by its return value. -/
inductive WalkEnd (x y : EarlyMemory) (d t v e : ℕ) : ℤ → Prop
  | found (h : x.ValidAt d t v) (hsize : y.sizeFree = x.sizeFree)
      (href : y.refused = x.refused) : WalkEnd x y d t v e (-eexist)
  | refused (h : x.sizeFree < pageSize) (hm : 0 < x.missing d t v)
      (hsize : y.sizeFree = x.sizeFree) (hleaf : y.leaf d t v = none)
      (href : y.refused = true) : WalkEnd x y d t v e (-enomem)
  | entered (h : y.sizeFree + x.missing d t v * pageSize = x.sizeFree)
      (he : Entered x y d t v e) (href : y.refused = x.refused) : WalkEnd x y d t v e 0
  /-- The pages have run out on the way. -/
  | unnoticed (h : pageSize ≤ x.sizeFree) (hm : x.sizeFree < x.missing d t v * pageSize)
      (hsize : y.sizeFree < pageSize) (hleaf : y.leaf d t v = none)
      (href : y.refused = true) : WalkEnd x y d t v e 0

theorem WalkEnd.child {ret : ℤ} (hc : WalkEnd x y d t' (v % 512 ^ (d + 1)) e ret)
    (h : Step x y d t') (ht : x.IsTable (d + 1) t) (hi : v / 512 ^ (d + 1) < 512)
    (hn : earlyFormat.next (x.words t (v / 512 ^ (d + 1))) = some t') :
    WalkEnd x y (d + 1) t v e ret := by
  have hn' : earlyFormat.next (y.words t (v / 512 ^ (d + 1))) = some t' := by
    rw [(h.replaced ht hi hn).1, hn]
  cases hc with
  | found hvalid hsize href =>
    refine .found ?_ hsize href
    unfold ValidAt
    rwa [leaf_child hn]
  | refused hlt hm hsize hleaf href =>
    exact .refused hlt (by rwa [missing_child hn]) hsize (by rwa [leaf_child hn']) href
  | entered hsize he href => exact .entered (by rwa [missing_child hn]) (he.child h ht hi hn) href
  | unnoticed hp hm hsize hleaf href =>
    exact .unnoticed hp (by rwa [missing_child hn]) hsize (by rwa [leaf_child hn']) href

/-- Behind a table that was just taken a walk finds nothing, and its return value is lost. -/
theorem WalkEnd.linked {ret : ℤ} (hc : WalkEnd z y d p (v % 512 ^ (d + 1)) e ret)
    (h : Step z y d p) (hl : Linked x z d t (v / 512 ^ (d + 1)) p)
    (h0 : x.words t (v / 512 ^ (d + 1)) = 0) (hv : v < 512 ^ (d + 1 + 1))
    (hi : v / 512 ^ (d + 1) < 512) (hsize : z.sizeFree + pageSize = x.sizeFree) :
    WalkEnd x y (d + 1) t v e 0 := by
  have hmod : v % 512 ^ (d + 1) < 512 ^ (d + 1) := Nat.mod_lt v (pow_pos (by norm_num) _)
  have hz : z.missing d p (v % 512 ^ (d + 1)) = d := missing_of_empty hl.clear hmod
  have hx : x.missing (d + 1) t v = d + 1 := by
    refine missing_hole ?_
    rw [h0]
    exact earlyFormat.next_empty
  have hn' : earlyFormat.next (y.words t (v / 512 ^ (d + 1))) = some p := by
    rw [(h.replaced hl.step.table hi hl.next).1, hl.next]
  have hmul : (d + 1) * pageSize = d * pageSize + pageSize := Nat.succ_mul d pageSize
  cases hc with
  | found hvalid _ _ => exact absurd hvalid (hl.not_validAt hmod)
  | refused hlt hm hsame hleaf href =>
    -- the table was taken from the last page
    rw [hz] at hm
    refine .unnoticed (by omega) ?_ (by rwa [hsame]) (by rwa [leaf_child hn']) href
    have hle := Nat.le_mul_of_pos_left pageSize hm
    rw [hx]
    omega
  | entered hsum he href =>
    have hent := he.child h hl.step.table hi hl.next
    refine .entered ?_ ⟨?_, hent.entry, fun w hw hwv =>
      (hl.sameOrNew h0 hw).trans (hent.rest w hw hwv)⟩ (href.trans hl.refused)
    · rw [hz] at hsum
      rw [hx]
      omega
    · rw [← (hl.sameOrNew h0 hv).validAt_iff]
      exact hent.empty
  | unnoticed hp hm hlt hleaf href =>
    rw [hz] at hm
    refine .unnoticed (by omega) ?_ hlt (by rwa [leaf_child hn']) href
    rw [hx]
    omega

theorem walk_end (flags d : ℕ) (hd : d ≤ 2) (hx : x.Ok) (ht : x.IsTable d t)
    (hva : va % pageSize = 0) (hpa : pa % pageSize = 0) :
    ∃ ret y, vmWalkthrough flags d x t va pa = (ret, y) ∧ Step x y d t ∧
      OnPath x y d t (position d va) ∧
      WalkEnd x y d t (position d va) (sv39Pa2PTE pa flags) ret := by
  have hargs : WalkArgs t va pa := ⟨(ht.page t (root_mem_tables x d t)).1, hva, hpa⟩
  induction d generalizing x t with
  | zero =>
    have hidx : sv39Index2Id va 2 = position 0 va := by
      have := index_eq (d := 0) (by omega) va
      rwa [pow_zero, Nat.div_one] at this
    rw [vmWalkthrough, if_neg (not_not.2 hargs), hidx]
    by_cases hv : PteValid (x.words t (position 0 va))
    · rw [if_neg (not_not.2 hv)]
      exact ⟨_, x, rfl, .refl hx ht, .of_words rfl, .found ⟨_, rfl, hv⟩ rfl rfl⟩
    · rw [if_pos hv]
      have hent : Entered x (x.setWord t (position 0 va) (sv39Pa2PTE pa flags)) 0 t
        (position 0 va) (sv39Pa2PTE pa flags) := .setLeaf hv
      exact ⟨_, _, rfl, .setLeaf hx ht, ⟨hent.rest, fun w _ => (Nat.zero_min _).symm⟩,
        .entered (by rw [missing, Nat.zero_mul]; rfl) hent rfl⟩
  | succ d ih =>
    have hlt : position (d + 1) va < 512 ^ (d + 1 + 1) := position_lt (d + 1) va
    have hidx : sv39Index2Id va (1 - d) = position (d + 1) va / 512 ^ (d + 1) := by
      have := index_eq (d := d + 1) hd va
      rwa [show 2 - (d + 1) = 1 - d by omega] at this
    have hi : position (d + 1) va / 512 ^ (d + 1) < 512 := by
      rw [Nat.div_lt_iff_lt_mul (pow_pos (by norm_num) _), ← pow_succ']
      exact hlt
    rw [vmWalkthrough, if_neg (not_not.2 hargs), hidx]
    rcases ht.tree _ hi with h0 | ⟨t', hn, -⟩
    · -- an empty entry: a table is needed
      have h0 : x.words t (position (d + 1) va / 512 ^ (d + 1)) = 0 := h0
      have hnone : earlyFormat.next (x.words t (position (d + 1) va / 512 ^ (d + 1))) = none := by
        rw [h0]
        exact earlyFormat.next_empty
      rw [if_pos (by rw [h0]; exact not_pteValid_zero)]
      by_cases hroom : x.sizeFree < pageSize
      · have ha : x.freememAllocPa = (0, { x with refused := true }) := if_pos hroom
        rw [ha]
        exact ⟨_, _, rfl, ⟨⟨hx.aligned, hx.pos, hx.end_le, hx.zero⟩, ⟨ht.tree, ht.page⟩,
          fun _ => Iff.rfl, fun _ _ _ => rfl, fun _ => rfl⟩, OnPath.of_words rfl,
          .refused hroom (by rw [missing_hole hnone]; exact Nat.succ_pos d) rfl
            (leaf_hole (x := x) hnone) rfl⟩
      · obtain ⟨p, y, ha, htook, hsize⟩ := freememAllocPa_some hx (not_lt.1 hroom)
        have hlink := htook.linked hx ht hi h0
        obtain ⟨ret, z, heq, hstep, hpath, hend⟩ := ih (by omega) hlink.step.ok hlink.table
          ⟨(hlink.table.page p (root_mem_tables _ d p)).1, hva, hpa⟩
        rw [position_child d va] at hpath hend
        rw [ha]
        dsimp only
        rw [if_neg htook.ne_zero, heq]
        exact ⟨0, z, rfl, hlink.step.trans (hstep.child hlink.step.table hi hlink.next),
          (hpath.child hstep hlink.step.table hi hlink.next).linked hlink h0 hlt,
          hend.linked hstep hlink h0 hlt hi hsize⟩
    · -- a table is there
      have hptr : PteNextpgt (x.words t (position (d + 1) va / 512 ^ (d + 1))) := by
        by_contra hno
        rw [earlyFormat_next_none hno] at hn
        cases hn
      have ht' : sv39PTE2Pa (x.words t (position (d + 1) va / 512 ^ (d + 1))) = t' := by
        rw [earlyFormat_next hptr] at hn
        exact Option.some.inj hn
      have htable : x.IsTable d t' := ⟨(ht.tree.child hi hn).1, fun p hp =>
        ht.page p (tables_child (F := earlyFormat) hi hn hp)⟩
      rw [if_neg (not_not.2 hptr.1), if_neg (not_not.2 hptr), ht']
      obtain ⟨ret, y, heq, hstep, hpath, hend⟩ := ih (by omega) hx htable
        ⟨(htable.page t' (root_mem_tables x d t')).1, hva, hpa⟩
      rw [position_child d va] at hpath hend
      exact ⟨ret, y, heq, hstep.child ht hi hn, hpath.child hstep ht hi hn,
        hend.child hstep ht hi hn⟩

/-- A walk enters one position, or finds a valid entry there. -/
theorem walk_spec (flags d : ℕ) (hd : d ≤ 2) (hx : x.Ok) (ht : x.IsTable d t)
    (hva : va % pageSize = 0) (hpa : pa % pageSize = 0) :
    ∃ ret x', vmWalkthrough flags d x t va pa = (ret, x') ∧ Step x x' d t ∧
    (x'.refused = false →
      ret = 0 ∧ Entered x x' d t (position d va) (sv39Pa2PTE pa flags) ∨
      ret = -eexist ∧ x.ValidAt d t (position d va)) := by
  obtain ⟨ret, x', heq, hstep, -, hend⟩ := walk_end flags d hd hx ht hva hpa
  refine ⟨ret, x', heq, hstep, fun href => ?_⟩
  cases hend with
  | found h _ _ => exact .inr ⟨rfl, h⟩
  | refused _ _ _ _ hr =>
    rw [href] at hr
    cases hr
  | entered _ he _ => exact .inl ⟨rfl, he⟩
  | unnoticed _ _ _ _ hr =>
    rw [href] at hr
    cases hr

/-! ### `vm_mmap` -/

/-- The range of `n` pages from position `v` on was free, and is mapped to `pa`. -/
structure Mapped (x x' : EarlyMemory) (t v n pa flags : ℕ) : Prop where
  empty : ∀ i < n, ¬ x.ValidAt 2 t (v + i)
  entry : ∀ i < n, x'.leaf 2 t (v + i) = some (sv39Pa2PTE (pa + i * pageSize) flags)
  rest : ∀ w < tableSpan, w < v ∨ v + n ≤ w → SameOrNew x x' 2 t w

theorem sv39Pa2PTE_advance_add (pa i flags : ℕ) :
    sv39Pa2PTE (advance pa 1 + i * pageSize) flags =
      sv39Pa2PTE (pa + (i + 1) * pageSize) flags := by
  rw [sv39Pa2PTE_eq, sv39Pa2PTE_eq, show (1 : ℤ) = (1 : ℕ) from rfl, advance_eq]
  simp only [pageSize, pageOffset]
  omega

theorem advance_aligned (h : va % pageSize = 0) : advance va 1 % pageSize = 0 := by
  rw [show (1 : ℤ) = (1 : ℕ) from rfl, advance_eq]
  simp only [pageSize, pageOffset] at *
  omega

theorem position_next (hv : position 2 va = v) (hend : v + 1 < tableSpan) :
    position 2 (advance va 1) = v + 1 := by
  rw [show (1 : ℤ) = (1 : ℕ) from rfl, position_advance le_rfl, hv]
  exact Nat.mod_eq_of_lt hend

/-- The first page of a range, and then the others. -/
theorem Mapped.cons {n : ℕ} (h : Entered x y 2 t v (sv39Pa2PTE pa flags))
    (h' : Mapped y z t (v + 1) n (advance pa 1) flags) (hv : v + (n + 1) ≤ tableSpan) :
    Mapped x z t v (n + 1) pa flags where
  empty i hi := by
    rcases Nat.eq_zero_or_pos i with rfl | hpos
    · exact h.empty
    · have hno := h'.empty (i - 1) (by omega)
      rw [show v + 1 + (i - 1) = v + i by omega,
        (h.rest (v + i) (show v + i < tableSpan by omega) (by omega)).validAt_iff] at hno
      exact hno
  entry i hi := by
    rcases Nat.eq_zero_or_pos i with rfl | hpos
    · have hent := h.entry
      rw [Nat.zero_mul, Nat.add_zero, Nat.add_zero]
      rcases h'.rest v (by omega) (.inl (Nat.lt_succ_self v)) with hs | ⟨hs, -⟩
      · rw [hs, hent]
      · rw [hent] at hs
        cases hs
    · have hent := h'.entry (i - 1) (by omega)
      rw [sv39Pa2PTE_advance_add, show v + 1 + (i - 1) = v + i by omega,
        Nat.sub_add_cancel hpos] at hent
      exact hent
  rest w hw hor := (h.rest w hw (by omega)).trans (h'.rest w hw (by omega))

theorem loop_spec (flags n : ℕ) (hx : x.Ok) (ht : x.IsTable 2 t) (hva : va % pageSize = 0)
    (hpa : pa % pageSize = 0) (hv : 0 < n → position 2 va = v) (hend : v + n ≤ tableSpan) :
    ∃ ret x', vmMmapLoop flags t n x va pa = (ret, x') ∧ Step x x' 2 t ∧
    (x'.refused = false →
      ret = 0 ∧ Mapped x x' t v n pa flags ∨ ret = -eexist ∧ ∃ i < n, x.ValidAt 2 t (v + i)) := by
  induction n generalizing x va pa v with
  | zero =>
    exact ⟨0, x, rfl, .refl hx ht, fun _ => .inl ⟨rfl, fun _ hi => absurd hi (Nat.not_lt_zero _),
      fun _ hi => absurd hi (Nat.not_lt_zero _), fun _ _ _ => .inl rfl⟩⟩
  | succ n ih =>
    have hpos := hv (Nat.succ_pos n)
    obtain ⟨ret, y, heq, hstep, hcase⟩ := walk_spec flags 2 le_rfl hx ht hva hpa
    rw [hpos] at hcase
    rw [vmMmapLoop, heq]
    dsimp only
    by_cases hret : ret = 0
    · rw [if_neg (not_not.2 hret)]
      obtain ⟨ret', z, heq', hstep', hcase'⟩ := ih (v := v + 1) hstep.ok hstep.table
        (advance_aligned hva) (advance_aligned hpa)
        (fun hn => position_next hpos (by omega)) (by omega)
      refine ⟨ret', z, heq', hstep.trans hstep', fun h => ?_⟩
      have hy : y.refused = false := by
        by_contra hne
        rw [hstep'.refused (Bool.eq_true_of_not_eq_false hne)] at h
        cases h
      obtain ⟨-, hent⟩ := (hcase hy).resolve_right fun hc => by
        rw [hret] at hc
        exact absurd hc.1 (by decide)
      rcases hcase' h with ⟨hret', hmap⟩ | ⟨hret', i, hi, hvalid⟩
      · exact .inl ⟨hret', .cons hent hmap hend⟩
      · refine .inr ⟨hret', i + 1, by omega, ?_⟩
        rw [show v + 1 + i = v + (i + 1) by omega,
          (hent.rest (v + (i + 1)) (show _ < tableSpan by omega) (by omega)).validAt_iff] at hvalid
        exact hvalid
    · rw [if_pos hret]
      refine ⟨ret, y, rfl, hstep, fun h => ?_⟩
      rcases hcase h with ⟨h0, -⟩ | ⟨hex, hvalid⟩
      · exact absurd h0 hret
      · exact .inr ⟨hex, 0, Nat.succ_pos n, hvalid⟩

/-- `vm_mmap` with a page table that is there is its loop. -/
theorem vmMmap_loop (flags : ℕ) (ht : t ≠ 0) (hva : va % pageSize = 0) (hpa : pa % pageSize = 0)
    {size : ℕ} (hsize : size % pageSize = 0) :
    x.vmMmap t va pa size flags =
      ((vmMmapLoop flags t (size / pageSize) x va pa).1, t,
        (vmMmapLoop flags t (size / pageSize) x va pa).2) := by
  unfold vmMmap
  rw [if_neg (by rw [hva, hpa]; exact fun h => h rfl), if_neg (by rw [hsize]; exact fun h => h rfl),
    if_neg ht]
  dsimp only
  rw [if_neg ht, Nat.div_mul_cancel (Nat.dvd_of_mod_eq_zero hva),
    Nat.div_mul_cancel (Nat.dvd_of_mod_eq_zero hpa)]

theorem vmMmap_spec (flags : ℕ) (hx : x.Ok) (ht : x.IsTable 2 t) (hva : va % pageSize = 0)
    (hpa : pa % pageSize = 0) {size : ℕ} (hsize : size % pageSize = 0)
    (hend : position 2 va + size / pageSize ≤ tableSpan) :
    ∃ ret x', x.vmMmap t va pa size flags = (ret, t, x') ∧ Step x x' 2 t ∧
    (x'.refused = false →
      ret = 0 ∧ Mapped x x' t (position 2 va) (size / pageSize) pa flags ∨
      ret = -eexist ∧ ∃ i < size / pageSize, x.ValidAt 2 t (position 2 va + i)) := by
  obtain ⟨ret, x', heq, hstep, hcase⟩ := loop_spec flags (size / pageSize) hx ht hva hpa
    (fun _ => rfl) hend
  refine ⟨ret, x', ?_, hstep, hcase⟩
  rw [vmMmap_loop flags ht.ne_zero hva hpa hsize, heq]

end EarlyMemory

end AcoOs
