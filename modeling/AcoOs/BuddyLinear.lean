/-
How concurrent calls of the buddy allocator relate to sequential ones.

Every lock is released between two sections, so a block that is being split or
merged is in no pool for a while: `bkp_alloc` may answer `NULL` although either order
of the calls would succeed, and two neighbours freed at once may stay apart
(`freed_apart_two_cpus`).  What does hold is proved here.

* `concurrent_refines`: as an allocator of pages the calls are linearizable.  Each
  takes its pages, or gives them back, in one step;
* `null_seen_empty`: `NULL` is answered only after each pool was seen empty;
* `solo_alloc`, `solo_free`: a call that no other CPU disturbs is the sequential one.
-/
import AcoOs.BuddyConcurrent

namespace AcoOs

open Tiling Buddy Machine

variable {c : Layout}

/-! ### A set of pages -/

/-- An allocator of pages: the free pages, and the orders of the blocks handed out. -/
structure PageSet where
  free : Set ℕ
  blocks : ℕ → Option ℕ

/-- The effect of a call on the set of pages.  An allocation may always fail. -/
inductive PageSet.Apply (maxOrder : ℕ) : PageSet → Op → Ret → PageSet → Prop
  | allocSome {σ : PageSet} {k p : ℕ} (hk : k < maxOrder)
      (hsub : Set.Ico p (p + 2 ^ k) ⊆ σ.free) :
      Apply maxOrder σ (.alloc k) (.block (some p))
        ⟨σ.free \ Set.Ico p (p + 2 ^ k), Function.update σ.blocks p (some k)⟩
  | allocNone (σ : PageSet) (k : ℤ) : Apply maxOrder σ (.alloc k) (.block none) σ
  | free {σ : PageSet} {p k : ℕ} (hp : σ.blocks p = some k) :
      Apply maxOrder σ (.free p) .unit
        ⟨σ.free ∪ Set.Ico p (p + 2 ^ k), Function.update σ.blocks p none⟩

/-- The pages as an object with `bkp_alloc` and `bkp_free`. -/
def pageObject (c : Layout) : Object PageSet Op Ret := ⟨PageSet.Apply c.maxOrder⟩

/-- All pages of the range are free. -/
def FreeRange.pageSet (R : FreeRange c) : PageSet := ⟨R.set, fun _ => none⟩

namespace Pc

/-- The blocks a CPU inside a call still counts as handed out: a free has taken effect
after its first section, an allocation when it took its block. -/
def promised : Pc → List ℕ
  | .freeEntry p none => [p]
  | pc => pc.result

/-- What the call of a CPU looks like from outside. -/
def status : Pc → Status Op Ret
  | .idle | .panic => .idle
  | .allocScan orderOrig _ => .invoked (.alloc orderOrig)
  | .allocSplit r => .done (.block (some r.pagePtr))
  | .allocDone ret => .done (.block ret)
  | .freeEntry p none => .invoked (.free p)
  | .freeEntry _ (some r) | .freeLoop _ _ (some r) | .freeInsert _ _ (some r) =>
    .done (.block (some r.pagePtr))
  | .freeLoop _ _ none | .freeInsert _ _ none | .freeDone => .done .unit

theorem mem_heads_of_promised {pc : Pc} {p : ℕ} (h : p ∈ pc.promised) : p ∈ pc.heads := by
  cases pc with
  | freeEntry q k =>
    cases k with
    | none => exact List.mem_append_left _ h
    | some r => exact List.mem_append_right _ h
  | _ => exact List.mem_append_right _ h

/-- Past the take section no section changes the result, the answer or what is promised. -/
theorem advance_result {s : Buddy} {pc : Pc} (hrun : pc.Running)
    (hscan : ∀ oo o, pc ≠ .allocScan oo o) (hentry : ∀ p, pc ≠ .freeEntry p none) :
    (pc.advance c s).2 = .panic ∨ (pc.advance c s).2.promised = pc.result ∧
      pc.promised = pc.result ∧ (pc.advance c s).2.result = pc.result ∧
      (pc.advance c s).2.status = pc.status := by
  cases pc with
  | idle | panic | allocDone | freeDone => exact absurd hrun id
  | allocScan oo o => exact absurd rfl (hscan oo o)
  | allocSplit r =>
    obtain ⟨p, i, rest, num⟩ := r
    cases i with
    | zero => exact .inr ⟨rfl, rfl, rfl, rfl⟩
    | succ i =>
      simp only [advance]
      split_ifs
      · exact .inr ⟨rfl, rfl, rfl, rfl⟩
      · split
        · exact .inl rfl
        · exact .inr ⟨rfl, rfl, rfl, rfl⟩
      · exact .inr ⟨rfl, rfl, rfl, rfl⟩
  | freeEntry p k =>
    cases k with
    | none => exact absurd rfl (hentry p)
    | some r =>
      simp only [advance]
      split
      · exact .inl rfl
      · exact .inr ⟨rfl, rfl, rfl, rfl⟩
  | freeLoop p o k =>
    cases k <;>
    · simp only [advance]
      split_ifs
      · split
        · exact .inl rfl
        · exact .inr ⟨rfl, rfl, rfl, rfl⟩
        · exact .inr ⟨rfl, rfl, rfl, rfl⟩
      · exact .inr ⟨rfl, rfl, rfl, rfl⟩
  | freeInsert p o k =>
    cases k <;>
    · simp only [advance]
      split
      · exact .inl rfl
      · exact .inr ⟨rfl, rfl, rfl, rfl⟩

end Pc

section Linear

variable {ι : Type*} {R : FreeRange c} {x y : Conc ι}

/-- The blocks that are handed out, as the pages see it. -/
def Conc.Promised (x : Conc ι) (p : ℕ) : Prop := ∃ i, p ∈ x.held i ∨ p ∈ (x.pc i).promised

open Classical in
/-- The set of pages a state of the machine stands for. -/
noncomputable def Conc.pageSet (R : FreeRange c) (x : Conc ι) : PageSet where
  free := R.set \ {q | ∃ p, x.Promised p ∧ q ∈ x.buddy.block p}
  blocks p := if x.Promised p then some (x.buddy.order p) else none

namespace ConcInv

theorem owns_of_promised {i : ι} {p : ℕ} (h : p ∈ x.held i ∨ p ∈ (x.pc i).promised) :
    x.Owns i p :=
  h.imp_right Pc.mem_heads_of_promised

theorem block_sub (h : ConcInv c R x) {p : ℕ} (hp : p < c.pageNums) (hh : x.buddy.Head p) :
    x.buddy.block p ⊆ R.set := by
  intro q hq
  by_contra hn
  exact h.inv.not_static_of_block hp hh hq ((h.static_iff q).2 hn)

/-- Blocks of the pools are free pages. -/
theorem free_block_sub (h : ConcInv c R x) {p : ℕ} (hp : p < c.pageNums)
    (hf : x.buddy.FreeHead p) : x.buddy.block p ⊆ (x.pageSet R).free := by
  intro q hq
  refine ⟨h.block_sub hp (.inr hf) hq, ?_⟩
  rintro ⟨r, ⟨i, hr⟩, hqr⟩
  obtain ⟨h1, h2, -⟩ := h.owned i r (owns_of_promised hr)
  have := h.inv.block_unique h1 (.inl h2) hp (.inr hf) hqr hq
  exact hf.not_held (this ▸ h2)

theorem freePages_sub (h : ConcInv c R x) : freePages c x.buddy ⊆ (x.pageSet R).free := by
  intro q hq
  obtain ⟨p, hp, hf, hb⟩ := h.inv.mem_freePages.1 hq
  exact h.free_block_sub hp hf hb

/-- When no call is in progress, the pools hold all free pages. -/
theorem freePages_eq (h : ConcInv c R x) (hidle : ∀ i, x.pc i = .idle) :
    freePages c x.buddy = (x.pageSet R).free := by
  refine Set.Subset.antisymm h.freePages_sub ?_
  rintro q ⟨hqR, hnp⟩
  have hqn : q < c.pageNums := lt_of_lt_of_le hqR.2 R.le
  have hraw : q ∉ ⋃ i, (x.pc i).raw := by
    intro hin
    obtain ⟨i, hi⟩ := Set.mem_iUnion.1 hin
    rw [hidle, Pc.raw_none rfl] at hi
    exact hi
  obtain ⟨p, h1, h2⟩ := h.inv.tiles.cover q hqn (by
    rintro (hs | hr)
    · exact (h.static_iff q).1 hs hqR
    · exact hraw hr)
  obtain ⟨hp, hh⟩ := Inv.len_pos.1 (by omega : 0 < x.buddy.len c p)
  rw [Inv.len_eq p hp hh] at h2
  rcases hh with hh | hf
  · obtain ⟨i, hi⟩ := h.exists_owner p hp hh
    unfold Conc.Owns at hi
    rw [hidle] at hi
    exact absurd ⟨p, ⟨i, .inl (hi.resolve_right List.not_mem_nil)⟩, h1, h2⟩ hnp
  · exact h.inv.mem_freePages.2 ⟨p, hp, hf, h1, h2⟩

end ConcInv

/-! ### The simulation -/

theorem PageSet.ext {σ τ : PageSet} (h1 : ∀ q, q ∈ σ.free ↔ q ∈ τ.free)
    (h2 : ∀ p, σ.blocks p = τ.blocks p) : σ = τ := by
  cases σ
  cases τ
  congr
  · exact Set.ext h1
  · exact funext h2

/-- The blocks handed out stay the same. -/
theorem Conc.pageSet_congr (hP : ∀ p, y.Promised p ↔ x.Promised p)
    (hsame : ∀ p, x.Promised p → y.buddy.order p = x.buddy.order p) :
    y.pageSet R = x.pageSet R := by
  have hblock : ∀ p, x.Promised p → y.buddy.block p = x.buddy.block p := by
    intro p hp
    unfold block
    rw [hsame p hp]
  refine PageSet.ext (fun q => ?_) fun p => ?_
  · refine and_congr_right fun _ => not_congr ⟨?_, ?_⟩
    · rintro ⟨p, hp, hq⟩
      have hp' := (hP p).1 hp
      exact ⟨p, hp', hblock p hp' ▸ hq⟩
    · rintro ⟨p, hp, hq⟩
      exact ⟨p, (hP p).2 hp, hblock p hp ▸ hq⟩
  · by_cases hp : x.Promised p
    · simp only [Conc.pageSet, if_pos hp, if_pos ((hP p).2 hp), hsame p hp]
    · simp only [Conc.pageSet, if_neg hp, if_neg (fun e => hp ((hP p).1 e))]

/-- One block more is handed out. -/
theorem Conc.pageSet_take {p k : ℕ} (hP : ∀ r, y.Promised r ↔ x.Promised r ∨ r = p)
    (hsame : ∀ r, x.Promised r → y.buddy.order r = x.buddy.order r)
    (hord : y.buddy.order p = k) :
    y.pageSet R = ⟨(x.pageSet R).free \ Set.Ico p (p + 2 ^ k),
      Function.update (x.pageSet R).blocks p (some k)⟩ := by
  have hblock : ∀ p, x.Promised p → y.buddy.block p = x.buddy.block p := by
    intro p hp
    unfold block
    rw [hsame p hp]
  have hblockp : y.buddy.block p = Set.Ico p (p + 2 ^ k) := by rw [block, hord]
  refine PageSet.ext (fun q => ?_) fun r => ?_
  · constructor
    · rintro ⟨h1, h2⟩
      refine ⟨⟨h1, ?_⟩, fun hq => h2 ⟨p, (hP p).2 (.inr rfl), hblockp ▸ hq⟩⟩
      rintro ⟨r, hr, hq⟩
      exact h2 ⟨r, (hP r).2 (.inl hr), hblock r hr ▸ hq⟩
    · rintro ⟨⟨h1, h2⟩, h3⟩
      refine ⟨h1, ?_⟩
      rintro ⟨r, hr, hq⟩
      rcases (hP r).1 hr with hr | rfl
      · exact h2 ⟨r, hr, hblock r hr ▸ hq⟩
      · exact h3 (hblockp ▸ hq)
  · by_cases hr : r = p
    · subst hr
      simp only [Conc.pageSet, if_pos ((hP r).2 (.inr rfl)), Function.update_self, hord]
    · dsimp only
      rw [Function.update_of_ne hr]
      by_cases hpr : x.Promised r
      · simp only [Conc.pageSet, if_pos hpr, if_pos ((hP r).2 (.inl hpr)), hsame r hpr]
      · have hnp : ¬ y.Promised r := fun e => ((hP r).1 e).elim hpr hr
        simp only [Conc.pageSet, if_neg hpr, if_neg hnp]

/-- One block less is handed out. -/
theorem Conc.pageSet_release {p : ℕ} (hP : ∀ r, y.Promised r ↔ x.Promised r ∧ r ≠ p)
    (hb : y.buddy = x.buddy) (hsub : x.buddy.block p ⊆ R.set)
    (hdisj : ∀ r, x.Promised r → r ≠ p → ∀ q ∈ x.buddy.block r, q ∉ x.buddy.block p) :
    y.pageSet R = ⟨(x.pageSet R).free ∪ x.buddy.block p,
      Function.update (x.pageSet R).blocks p none⟩ := by
  refine PageSet.ext (fun q => ?_) fun r => ?_
  · constructor
    · rintro ⟨h1, h2⟩
      rw [hb] at h2
      by_cases hq : q ∈ x.buddy.block p
      · exact .inr hq
      · refine .inl ⟨h1, ?_⟩
        rintro ⟨r, hr, hqr⟩
        by_cases hrp : r = p
        · exact hq (hrp ▸ hqr)
        · exact h2 ⟨r, (hP r).2 ⟨hr, hrp⟩, hqr⟩
    · rintro (⟨h1, h2⟩ | h1)
      · refine ⟨h1, ?_⟩
        rintro ⟨r, hr, hqr⟩
        rw [hb] at hqr
        exact h2 ⟨r, ((hP r).1 hr).1, hqr⟩
      · refine ⟨hsub h1, ?_⟩
        rintro ⟨r, hr, hqr⟩
        rw [hb] at hqr
        obtain ⟨h3, h4⟩ := (hP r).1 hr
        exact hdisj r h3 h4 q hqr h1
  · by_cases hr : r = p
    · subst hr
      have hnp : ¬ y.Promised r := fun e => ((hP r).1 e).2 rfl
      simp only [Conc.pageSet, if_neg hnp, Function.update_self]
    · dsimp only
      rw [Function.update_of_ne hr]
      by_cases hpr : x.Promised r
      · simp only [Conc.pageSet, if_pos hpr, if_pos ((hP r).2 ⟨hpr, hr⟩), hb]
      · have hnp : ¬ y.Promised r := fun e => hpr ((hP r).1 e).1
        simp only [Conc.pageSet, if_neg hpr, if_neg hnp]

/-- What is handed out apart from the call of CPU `i`. -/
def Conc.PromisedElse (x : Conc ι) (i : ι) (p : ℕ) : Prop :=
  p ∈ x.held i ∨ ∃ j, j ≠ i ∧ (p ∈ x.held j ∨ p ∈ (x.pc j).promised)

theorem Conc.promised_iff (i : ι) (p : ℕ) :
    x.Promised p ↔ x.PromisedElse i p ∨ p ∈ (x.pc i).promised := by
  unfold Conc.Promised Conc.PromisedElse
  constructor
  · rintro ⟨j, hj⟩
    by_cases hji : j = i
    · rcases hj with hj | hj
      · exact .inl (.inl (hji ▸ hj))
      · exact .inr (hji ▸ hj)
    · exact .inl (.inr ⟨j, hji, hj⟩)
  · rintro ((hp | ⟨j, -, hj⟩) | hp)
    · exact ⟨i, .inl hp⟩
    · exact ⟨j, hj⟩
    · exact ⟨i, .inr hp⟩

namespace ConcInv

theorem owns_of_promisedElse {i : ι} {p : ℕ} (hp : x.PromisedElse i p) :
    ∃ j, x.Owns j p ∧ (j = i → p ∈ x.held i) := by
  rcases hp with hp | ⟨j, hj, hp⟩
  · exact ⟨i, .inl hp, fun _ => hp⟩
  · exact ⟨j, owns_of_promised hp, fun e => absurd e hj⟩

theorem same_of_promisedElse (h : ConcInv c R x) {i : ι} {s' : Buddy} {pc' : Pc} {W : Set ℕ}
    {p : ℕ} (a : Advanced c W x.buddy (x.pc i) s' pc') (hp : x.PromisedElse i p) :
    s'.order p = x.buddy.order p := by
  obtain ⟨j, hj, hji⟩ := owns_of_promisedElse hp
  unfold Buddy.order
  rw [h.same_of_owns a hj fun e hm =>
    h.held_heads i p (hji e) (Pc.mem_heads_of_moving hm)]

end ConcInv

variable [DecidableEq ι]

theorem Conc.promisedElse_setPc (s : Buddy) (i : ι) (pc : Pc) (p : ℕ) :
    ((x.setBuddy s).setPc i pc).PromisedElse i p ↔ x.PromisedElse i p := by
  unfold Conc.PromisedElse
  refine or_congr Iff.rfl (exists_congr fun j => and_congr_right fun hj => ?_)
  rw [show ((x.setBuddy s).setPc i pc).pc j = x.pc j from Function.update_of_ne hj ..]
  rfl

theorem Conc.setPc_promised_iff (s : Buddy) (i : ι) (pc : Pc) (p : ℕ) :
    ((x.setBuddy s).setPc i pc).Promised p ↔ x.PromisedElse i p ∨ p ∈ pc.promised := by
  rw [Conc.promised_iff i, Conc.promisedElse_setPc]
  rw [show ((x.setBuddy s).setPc i pc).pc i = pc from Function.update_self ..]

/-- The state of the atomic object. -/
noncomputable def Conc.toAtomic (R : FreeRange c) (x : Conc ι) :
    PageSet × (ι → Status Op Ret) := (x.pageSet R, fun i => (x.pc i).status)

theorem Conc.status_setPc (x : Conc ι) (i : ι) (pc : Pc) :
    (fun j => ((x.setPc i pc).pc j).status) =
      Function.update (fun j => (x.pc j).status) i pc.status := by
  funext j
  by_cases hj : j = i
  · subst hj
    simp [Conc.setPc]
  · simp [Conc.setPc, Function.update_of_ne hj]

namespace ConcInv

/-- A section that is not the point where a call takes effect. -/
theorem pageSet_stutter (h : ConcInv c R x) {i : ι} {s' : Buddy} {pc' : Pc} {W : Set ℕ}
    (a : Advanced c W x.buddy (x.pc i) s' pc') (h1 : pc'.promised = (x.pc i).result)
    (h2 : (x.pc i).promised = (x.pc i).result) :
    ((x.setBuddy s').setPc i pc').pageSet R = x.pageSet R := by
  refine Conc.pageSet_congr (fun p => ?_) fun p hp => ?_
  · rw [Conc.setPc_promised_iff, Conc.promised_iff i, h1, h2]
  · rcases (Conc.promised_iff i p).1 hp with hp | hp
    · exact h.same_of_promisedElse a hp
    · rw [h2] at hp
      change s'.order p = _
      unfold Buddy.order
      rw [h.same_of_owns a (.inr (List.mem_append_right _ hp)) fun _ hm => ?_]
      have hn := h.nodup i
      unfold Pc.heads at hn
      exact (List.nodup_append.1 hn).2.2 p hm p hp rfl

/-- Past its point a call does nothing that others can see. -/
theorem toAtomic_stutter (h : ConcInv c R x) {i : ι} (hrun : (x.pc i).Running)
    (hscan : ∀ oo o, x.pc i ≠ .allocScan oo o) (hentry : ∀ p, x.pc i ≠ .freeEntry p none) :
    ((x.setBuddy ((x.pc i).advance c x.buddy).1).setPc i
      ((x.pc i).advance c x.buddy).2).toAtomic R = x.toAtomic R := by
  have a := h.advanced hrun
  rcases Pc.advance_result (c := c) (s := x.buddy) hrun hscan hentry with hpanic | ⟨h1, h2, -, h3⟩
  · have hok := a.ok'
    rw [hpanic] at hok
    exact absurd hok id
  · refine Prod.ext (h.pageSet_stutter a h1 h2) ((Conc.status_setPc _ i _).trans ?_)
    rw [h3]
    exact Function.update_eq_self i fun j => (x.pc j).status

/-- The search of an allocation: it moves on, gives up, or takes its block. -/
theorem simulates_scan (h : ConcInv c R x) {i : ι} {oo o : ℕ} (hpc : x.pc i = .allocScan oo o) :
    ∃ bs, ((pageObject c).atomic ι R.pageSet).Run (x.toAtomic R) bs
      (((x.setBuddy ((x.pc i).advance c x.buddy).1).setPc i
        ((x.pc i).advance c x.buddy).2).toAtomic R) ∧ bs.filterMap Act.external = [] := by
  have a := h.advanced (i := i) (by rw [hpc]; trivial)
  have hst : (x.pc i).status = .invoked (.alloc oo) := by rw [hpc]; rfl
  have hres : (x.pc i).result = [] := by rw [hpc]; rfl
  obtain ⟨hoo, ho⟩ : oo ≤ o ∧ o ≤ c.maxOrder := by
    have := h.ok i
    rwa [hpc] at this
  have hraw : (x.pc i).raw = ∅ := by
    rw [hpc]
    exact Pc.raw_none rfl
  have hinv := h.inv
  rw [iUnion_raw i, hraw, Set.union_empty] at hinv
  rcases Nat.lt_or_ge o c.maxOrder with hlt | hge
  · rcases take_spec hinv hlt hoo with ⟨ht, -⟩ | ⟨p, s', ht, t, h'⟩
    · have hadv : (x.pc i).advance c x.buddy = (x.buddy, .allocScan oo (o + 1)) := by
        rw [hpc]
        simp only [Pc.advance, if_pos hlt, ht]
      rw [hadv] at a ⊢
      refine ⟨[], ?_, rfl⟩
      have : ((x.setBuddy x.buddy).setPc i (.allocScan oo (o + 1))).toAtomic R =
          x.toAtomic R := by
        refine Prod.ext (h.pageSet_stutter a (by rw [hpc]; rfl) (by rw [hpc]; rfl))
          ((Conc.status_setPc _ i _).trans ?_)
        exact (congrArg _ hst.symm).trans (Function.update_eq_self i fun j => (x.pc j).status)
      rw [this]
      exact .nil _
    · set r : Rest := ⟨p, c.maxOrder, p + Layout.order2pgnum oo,
        Layout.order2pgnum o - Layout.order2pgnum oo⟩ with hr
      have hadv : (x.pc i).advance c x.buddy = (s', .allocSplit r) := by
        rw [hpc]
        simp only [Pc.advance, if_pos hlt, ht, hr]
      rw [hadv] at a ⊢
      have hnp : ∀ q, x.Promised q → q ≠ p := by
        rintro q ⟨j, hj⟩ rfl
        exact t.free.not_held (h.owned j q (owns_of_promised hj)).2.1
      have hps : ((x.setBuddy s').setPc i (.allocSplit r)).pageSet R =
          ⟨(x.pageSet R).free \ Set.Ico p (p + 2 ^ oo),
            Function.update (x.pageSet R).blocks p (some oo)⟩ := by
        refine Conc.pageSet_take (fun q => ?_) (fun q hq => ?_) t.order'
        · rw [Conc.setPc_promised_iff, Conc.promised_iff i, hpc]
          simp [Pc.promised, Pc.result, hr]
        · change s'.order q = _
          exact t.order_other (hnp q hq)
      refine ⟨[(i, .internal)], .single ?_, rfl⟩
      unfold Conc.toAtomic
      rw [hps, Conc.status_setPc]
      refine .perform hst (.allocSome (by omega) ?_)
      have hpow : 2 ^ oo ≤ 2 ^ o := Nat.pow_le_pow_right (by norm_num) hoo
      have hsub := h.free_block_sub t.lt t.free
      rw [block, t.order] at hsub
      exact (Set.Ico_subset_Ico_right (by omega : p + 2 ^ oo ≤ p + 2 ^ o)).trans hsub
  · have hadv : (x.pc i).advance c x.buddy = (x.buddy, .allocDone none) := by
      rw [hpc]
      simp only [Pc.advance, if_neg (not_lt.2 hge)]
    rw [hadv] at a ⊢
    refine ⟨[(i, .internal)], .single ?_, rfl⟩
    unfold Conc.toAtomic
    rw [h.pageSet_stutter a (by rw [hpc]; rfl) (by rw [hpc]; rfl), Conc.status_setPc]
    exact .perform hst (.allocNone _ _)

/-- The first section of a free gives the pages back. -/
theorem simulates_entry (h : ConcInv c R x) {i : ι} {p : ℕ} (hpc : x.pc i = .freeEntry p none) :
    ∃ bs, ((pageObject c).atomic ι R.pageSet).Run (x.toAtomic R) bs
      (((x.setBuddy ((x.pc i).advance c x.buddy).1).setPc i
        ((x.pc i).advance c x.buddy).2).toAtomic R) ∧ bs.filterMap Act.external = [] := by
  have hst : (x.pc i).status = .invoked (.free p) := by rw [hpc]; rfl
  have hown : x.Owns i p := .inr (by rw [hpc]; exact List.mem_singleton_self p)
  obtain ⟨h1, h2, h3⟩ := h.owned i p hown
  have hentry : bkpFreeEntry c x.buddy p = some (x.buddy.order p) :=
    if_pos ⟨h1, h3, h2, h.inv.order_lt p h1 (.inl h2)⟩
  have hadv : (x.pc i).advance c x.buddy = (x.buddy, .freeLoop p (x.buddy.order p) none) := by
    rw [hpc]
    simp only [Pc.advance, hentry]
  have hpp : x.Promised p := ⟨i, .inr (by rw [hpc]; exact List.mem_singleton_self p)⟩
  rw [hadv]
  have hps : ((x.setBuddy x.buddy).setPc i (.freeLoop p (x.buddy.order p) none)).pageSet R =
      ⟨(x.pageSet R).free ∪ x.buddy.block p,
        Function.update (x.pageSet R).blocks p none⟩ := by
    refine Conc.pageSet_release (fun r => ?_) rfl (h.block_sub h1 (.inl h2)) ?_
    · rw [Conc.setPc_promised_iff, Conc.promised_iff i, hpc]
      have hne : x.PromisedElse i r → r ≠ p := by
        rintro hr rfl
        obtain ⟨j, hj, hji⟩ := owns_of_promisedElse hr
        have hij := h.owner_unique j i r hj hown
        refine h.held_heads i r (hji hij) ?_
        rw [hpc]
        exact List.mem_singleton_self r
      simp only [Pc.promised, Pc.result, List.mem_singleton, List.not_mem_nil, or_false]
      exact ⟨fun e => ⟨.inl e, hne e⟩, fun e => e.1.resolve_right e.2⟩
    · rintro r ⟨j, hj⟩ hrp q hq hqp
      obtain ⟨h4, h5, -⟩ := h.owned j r (owns_of_promised hj)
      exact hrp (h.inv.block_unique h4 (.inl h5) h1 (.inl h2) hq hqp)
  refine ⟨[(i, .internal)], .single ?_, rfl⟩
  unfold Conc.toAtomic
  rw [hps, Conc.status_setPc]
  exact .perform hst (.free (if_pos hpp))

/-- Calls and returns do not change the set of pages. -/
theorem pageSet_move {i : ι} {F : Finset ℕ} {pc' : Pc}
    (hP : ∀ p, p ∈ F ∨ p ∈ pc'.promised ↔ p ∈ x.held i ∨ p ∈ (x.pc i).promised) :
    ((x.setHeld i F).setPc i pc').pageSet R = x.pageSet R := by
  refine Conc.pageSet_congr (fun p => exists_congr fun j => ?_) fun _ _ => rfl
  by_cases hj : j = i
  · subst hj
    simpa only [Conc.setPc, Conc.setHeld, Function.update_self] using hP p
  · simp only [Conc.setPc, Conc.setHeld, Function.update_of_ne hj]

/-- Every step is a step of the atomic object, or none. -/
theorem simulates (h : ConcInv c R x) {i : ι} {a : Act Op Ret} (hs : x.exec c i a = some y) :
    ∃ bs, ((pageObject c).atomic ι R.pageSet).Run (x.toAtomic R) bs (y.toAtomic R) ∧
      bs.filterMap Act.external = (Act.external (i, a)).toList := by
  have hself : ∀ pc, x.setPc i pc = (x.setHeld i (x.held i)).setPc i pc := by
    intro pc
    simp [Conc.setHeld, Conc.setPc]
  have hst : ∀ F pc, (fun j => (((x.setHeld i F).setPc i pc).pc j).status) =
      Function.update (fun j => (x.pc j).status) i pc.status := fun F pc =>
    Conc.status_setPc (x.setHeld i F) i pc
  unfold Conc.exec at hs
  split at hs
  · rename_i k
    split_ifs at hs with hpc hk <;> cases hs
    · refine ⟨[(i, .invoke (.alloc k))], .single ?_, rfl⟩
      unfold Conc.toAtomic
      rw [hself, pageSet_move (fun p => by rw [hpc]; rfl), hst]
      have hk' : ((k.toNat : ℕ) : ℤ) = k := Int.toNat_of_nonneg hk.1
      rw [Pc.status, hk']
      exact .invoke _ (by rw [hpc]; rfl)
    · -- an order out of range is answered at once
      refine ⟨[(i, .invoke (.alloc k)), (i, .internal)], ?_, rfl⟩
      unfold Conc.toAtomic
      rw [hself, pageSet_move (fun p => by rw [hpc]; rfl), hst]
      set st := fun j => (x.pc j).status with hstat
      have h1 : (pageObject c).Step (x.pageSet R, st) (i, .invoke (.alloc k))
          (x.pageSet R, Function.update st i (.invoked (.alloc k))) :=
        .invoke _ (by simp only [hstat, hpc]; rfl)
      have h2 : (pageObject c).Step (x.pageSet R, Function.update st i (.invoked (.alloc k)))
          (i, .internal) (x.pageSet R, Function.update
            (Function.update st i (.invoked (.alloc k))) i (.done (.block none))) :=
        .perform (Function.update_self ..) (.allocNone _ k)
      rw [Function.update_idem] at h2
      exact (System.Run.single h1).snoc h2
  · rename_i p
    split_ifs at hs with hpc
    cases hs
    obtain ⟨hpc, hp⟩ := hpc
    refine ⟨[(i, .invoke (.free p))], .single ?_, rfl⟩
    unfold Conc.toAtomic
    rw [pageSet_move (fun q => ?_), hst]
    · exact .invoke _ (by rw [hpc]; rfl)
    · rw [hpc, Finset.mem_erase]
      simp only [Pc.promised, Pc.result, List.mem_singleton, List.not_mem_nil, or_false]
      by_cases hqp : q = p
      · subst hqp
        exact iff_of_true (.inr rfl) hp
      · simp [hqp]
  · split_ifs at hs with hrun
    cases hs
    by_cases hscan : ∃ oo o, x.pc i = .allocScan oo o
    · obtain ⟨oo, o, hpc⟩ := hscan
      exact h.simulates_scan hpc
    · by_cases hentry : ∃ p, x.pc i = .freeEntry p none
      · obtain ⟨p, hpc⟩ := hentry
        exact h.simulates_entry hpc
      · refine ⟨[], ?_, rfl⟩
        rw [h.toAtomic_stutter hrun (fun oo o e => hscan ⟨oo, o, e⟩) fun p e => hentry ⟨p, e⟩]
        exact .nil _
  · split_ifs at hs with hpc
    cases hs
    refine ⟨[(i, .respond (.block none))], .single ?_, rfl⟩
    unfold Conc.toAtomic
    rw [hself, pageSet_move (fun p => by rw [hpc]; rfl), hst]
    exact .respond (by rw [hpc]; rfl)
  · rename_i p
    split_ifs at hs with hpc
    cases hs
    refine ⟨[(i, .respond (.block (some p)))], .single ?_, rfl⟩
    unfold Conc.toAtomic
    rw [pageSet_move (fun q => ?_), hst]
    · exact .respond (by rw [hpc]; rfl)
    · rw [hpc, Finset.mem_insert]
      simp only [Pc.promised, Pc.result, List.mem_singleton, List.not_mem_nil, or_false]
      exact or_comm
  · split_ifs at hs with hpc
    cases hs
    refine ⟨[(i, .respond .unit)], .single ?_, rfl⟩
    unfold Conc.toAtomic
    rw [hself, pageSet_move (fun p => by rw [hpc]; rfl), hst]
    exact .respond (by rw [hpc]; rfl)

end ConcInv

/-- Every interleaving is, from outside, a run of the atomic allocator of pages; the pools
hold free pages only, and all of them when no call is in progress. -/
theorem concurrent_refines {as : List (ι × Act Op Ret)} (h0 : (concRuns c R ι).init x)
    (hr : (concRuns c R ι).Run x as y) :
    ∃ bs u, ((pageObject c).atomic ι R.pageSet).Run (R.pageSet, fun _ => .idle) bs u ∧
      bs.filterMap Act.external = as.filterMap Act.external ∧
      freePages c y.buddy ⊆ u.1.free ∧
      ((∀ i, y.pc i = .idle) → freePages c y.buddy = u.1.free) := by
  have hx := System.Reachable.of_init h0
  obtain ⟨bs, u, hrun, hext, hu⟩ := hr.refine
    (N := (pageObject c).atomic ι R.pageSet) (fun x u => u = x.toAtomic R)
    (fun s t u a hs hu hst => by
      obtain ⟨bs, hrun, hext⟩ := (concInv_of_reachable hs).simulates hst
      exact ⟨bs, _, hu ▸ hrun, hext, rfl⟩) hx rfl
  have hinit : x.toAtomic R = (R.pageSet, fun _ => .idle) := by
    obtain ⟨-, hheld, hpc⟩ := h0
    have hnp : ∀ p, ¬ x.Promised p := by
      rintro p ⟨i, hi⟩
      rw [hheld, hpc] at hi
      simp [Pc.promised, Pc.result] at hi
    refine Prod.ext (PageSet.ext (fun q => ?_) fun p => if_neg (hnp p)) (funext fun i => ?_)
    · refine and_iff_left ?_
      rintro ⟨p, hp, -⟩
      exact hnp p hp
    · change (x.pc i).status = .idle
      rw [hpc]
      rfl
  have hy := concInv_of_reachable (hx.run hr)
  rw [hinit] at hrun
  exact ⟨bs, u, hrun, hext, by rw [hu]; exact hy.freePages_sub,
    fun hidle => by rw [hu]; exact hy.freePages_eq hidle⟩

/-! ### `NULL` -/

theorem Conc.exec_pc_other {i j : ι} {a : Act Op Ret} (hs : x.exec c i a = some y)
    (hj : j ≠ i) : y.pc j = x.pc j := by
  unfold Conc.exec at hs
  split at hs <;> split_ifs at hs <;> cases hs <;>
  exact Function.update_of_ne hj ..

/-- Each pool from order `k` up to `o` was empty at some moment of the run. -/
def SeenEmpty (c : Layout) (R : FreeRange c) (x : Conc ι) (as : List (ι × Act Op Ret))
    (k o : ℕ) : Prop :=
  ∀ j, k ≤ j → j < o → ∃ bs bs' z, as = bs ++ bs' ∧ (concRuns c R ι).Run x bs z ∧
    (z.buddy.orderPools j).list = []

theorem SeenEmpty.append {as : List (ι × Act Op Ret)} {k o : ℕ} (h : SeenEmpty c R x as k o)
    (as' : List (ι × Act Op Ret)) : SeenEmpty c R x (as ++ as') k o := by
  intro j h1 h2
  obtain ⟨bs, bs', z, rfl, hr, hz⟩ := h j h1 h2
  exact ⟨bs, bs' ++ as', z, by rw [List.append_assoc], hr, hz⟩

/-- The search of an allocation, with the sections of the other CPUs in between. -/
theorem scan_run {i : ι} {k : ℕ} {as : List (ι × Act Op Ret)}
    (hx : (concRuns c R ι).Reachable x) (hpc : x.pc i = .allocScan k k)
    (hr : (concRuns c R ι).Run x as y) (has : ∀ a ∈ as, a.1 = i → a.2 = .internal) :
    (∃ o, y.pc i = .allocScan k o ∧ SeenEmpty c R x as k o) ∨
    (y.pc i = .allocDone none ∧ SeenEmpty c R x as k c.maxOrder) ∨ (y.pc i).result ≠ [] := by
  induction hr with
  | nil =>
    exact .inl ⟨k, hpc, fun j h1 h2 => by omega⟩
  | @snoc w y as a hr hs ih =>
    have hw := concInv_of_reachable (hx.run hr)
    have hy := hw.step hs
    have ih := ih fun b hb => has b (List.mem_append_left _ hb)
    by_cases hai : a.1 = i
    · have hint := has a (by simp) hai
      obtain ⟨i', act⟩ := a
      dsimp only at hai hint
      subst hai
      subst hint
      change w.exec c i' .internal = some y at hs
      unfold Conc.exec at hs
      dsimp only at hs
      split_ifs at hs with hrun
      cases hs
      have hpi : (((w.setBuddy ((w.pc i').advance c w.buddy).1).setPc i'
          ((w.pc i').advance c w.buddy).2).pc i') = ((w.pc i').advance c w.buddy).2 :=
        Function.update_self ..
      rw [hpi]
      rcases ih with ⟨o, hwo, hseen⟩ | ⟨hwo, -⟩ | hres
      · obtain ⟨hko, ho⟩ : k ≤ o ∧ o ≤ c.maxOrder := by
          have := hw.ok i'
          rwa [hwo] at this
        rw [hwo]
        simp only [Pc.advance]
        split_ifs with hlt
        · rcases take_spec hw.inv hlt hko with ⟨ht, hempty⟩ | ⟨p, s', ht, -, -⟩
          · left
            simp only [ht]
            refine ⟨o + 1, rfl, fun j h1 h2 => ?_⟩
            by_cases hj : j = o
            · exact ⟨as, _, w, rfl, hr, hj ▸ hempty⟩
            · exact hseen.append _ j h1 (by omega)
          · right
            right
            simp [ht, Pc.result]
        · have : o = c.maxOrder := by omega
          exact .inr (.inl ⟨rfl, this ▸ hseen.append _⟩)
      · rw [hwo] at hrun
        exact absurd hrun id
      · refine .inr (.inr ?_)
        rcases Pc.advance_result (c := c) (s := w.buddy) hrun
          (fun oo o e => hres (by rw [e]; rfl)) (fun p e => hres (by rw [e]; rfl)) with
          hpanic | ⟨-, -, h3, -⟩
        · have hok := hy.ok i'
          rw [hpi, hpanic] at hok
          exact absurd hok id
        · rwa [h3]
    · have hpy : y.pc i = w.pc i := Conc.exec_pc_other hs (Ne.symm hai)
      rw [hpy]
      rcases ih with ⟨o, hwo, hseen⟩ | ⟨hwo, hseen⟩ | hres
      · exact .inl ⟨o, hwo, hseen.append _⟩
      · exact .inr (.inl ⟨hwo, hseen.append _⟩)
      · exact .inr (.inr hres)

/-- An allocation that answers `NULL` saw each pool from its order up empty. -/
theorem null_seen_empty {i : ι} {k : ℤ} {as : List (ι × Act Op Ret)}
    (hx : (concRuns c R ι).Reachable x) (hk : 0 ≤ k ∧ k < c.maxOrder)
    (hr : (concRuns c R ι).Run x
      ((i, .invoke (.alloc k)) :: as ++ [(i, .respond (.block none))]) y)
    (has : ∀ a ∈ as, a.1 = i → a.2 = .internal) :
    ∀ j : ℕ, k ≤ j → j < c.maxOrder → ∃ bs bs' z, as = bs ++ bs' ∧
      (concRuns c R ι).Run x ((i, .invoke (.alloc k)) :: bs) z ∧
      (z.buddy.orderPools j).list = [] := by
  obtain ⟨v, w, hcall, hmid, hlast⟩ := hr.of_ends
  have hpv : v.pc i = .allocScan k.toNat k.toNat := by
    change x.exec c i (.invoke (.alloc k)) = some v at hcall
    unfold Conc.exec at hcall
    dsimp only at hcall
    rw [if_pos hk] at hcall
    split_ifs at hcall
    cases hcall
    exact Function.update_self ..
  have hpw : w.pc i = .allocDone none := by
    change w.exec c i (.respond (.block none)) = some y at hlast
    unfold Conc.exec at hlast
    dsimp only at hlast
    split_ifs at hlast with hpc
    exact hpc
  intro j h1 h2
  rcases scan_run (hx.step hcall) hpv hmid has with ⟨o, ho, -⟩ | ⟨-, hseen⟩ | hres
  · rw [hpw] at ho
    cases ho
  · obtain ⟨bs, bs', z, hbs, hz, hempty⟩ := hseen j (by omega) h2
    exact ⟨bs, bs', z, hbs, (System.Run.single hcall).append hz, hempty⟩
  · rw [hpw] at hres
    exact absurd rfl hres

/-! ### Undisturbed calls -/

/-- What the rest of a split loop does, when nobody disturbs it. -/
def finishSplit (c : Layout) (s : Buddy) (r : Rest) : Option (Ret × Buddy) :=
  match bkpAllocSplit c r.i s r.restPgst r.restPgnum with
  | none => none
  | some s => some (.block (some r.pagePtr), s)

/-- What happens when `bkp_free` returns. -/
def finishRet (c : Layout) (s : Buddy) : Option Rest → Option (Ret × Buddy)
  | none => some (.unit, s)
  | some r => finishSplit c s r

/-- The answer and the effect of the rest of a call, when nobody disturbs it. -/
def Pc.finish (c : Layout) (s : Buddy) : Pc → Option (Ret × Buddy)
  | .idle | .panic => none
  | .allocScan orderOrig order =>
    match bkpAllocLoop c orderOrig (c.maxOrder - order) s order with
    | none => none
    | some (ret, s) => some (.block ret, s)
  | .allocSplit r => finishSplit c s r
  | .allocDone ret => some (.block ret, s)
  | .freeEntry p k =>
    match bkpFree c s p with
    | none => none
    | some s => finishRet c s k
  | .freeLoop p order k =>
    match bkpFreeLoop c (c.maxOrder - 1 - order) s p order with
    | none => none
    | some (p, order, s) =>
      match bkpFreeInsert s p order with
      | none => none
      | some s => finishRet c s k
  | .freeInsert p order k =>
    match bkpFreeInsert s p order with
    | none => none
    | some s => finishRet c s k
  | .freeDone => some (.unit, s)

theorem Pc.finish_ret (s : Buddy) (k : Option Rest) :
    (Pc.ret k).finish c s = finishRet c s k := by
  cases k <;> rfl

/-- One section of the call leaves what the whole call does unchanged. -/
theorem Pc.finish_advance {s : Buddy} {pc : Pc} (hrun : pc.Running) :
    (pc.advance c s).2.finish c (pc.advance c s).1 = pc.finish c s := by
  cases pc with
  | idle | panic | allocDone | freeDone => exact absurd hrun id
  | allocScan oo o =>
    simp only [Pc.advance]
    split_ifs with hlt
    · have hn : c.maxOrder - o = c.maxOrder - (o + 1) + 1 := by omega
      rcases ht : bkpAllocTake s o oo with _ | ⟨_ | p, s'⟩ <;>
        simp only [Pc.finish, hn, bkpAllocLoop, ht, finishSplit]
      cases bkpAllocSplit c c.maxOrder s' (p + Layout.order2pgnum oo)
        (Layout.order2pgnum o - Layout.order2pgnum oo) <;> rfl
    · have hn : c.maxOrder - o = 0 := by omega
      simp only [Pc.finish, hn, bkpAllocLoop]
  | allocSplit r =>
    obtain ⟨p, i, rest, num⟩ := r
    cases i with
    | zero => rfl
    | succ i =>
      simp only [Pc.advance]
      split_ifs with h0 hbit
      · simp only [Pc.finish, finishSplit, bkpAllocSplit, if_pos h0]
      · rcases hc : bkpAllocCarve c s rest i with _ | s'
        · simp only [Pc.finish, finishSplit, bkpAllocSplit, if_neg h0, if_pos hbit, hc]
        · simp only [Pc.finish, finishRet, finishSplit, bkpAllocSplit, if_neg h0, if_pos hbit, hc]
          cases bkpFree c s' rest <;> rfl
      · simp only [Pc.finish, finishSplit, bkpAllocSplit, if_neg h0, if_neg hbit]
  | freeEntry p k =>
    simp only [Pc.advance]
    rcases he : bkpFreeEntry c s p with _ | o
    · simp only [Pc.finish, bkpFree, he]
    · simp only [Pc.finish, bkpFree, he]
      rcases bkpFreeLoop c (c.maxOrder - 1 - o) s p o with _ | ⟨q, o', s'⟩ <;> rfl
  | freeLoop p o k =>
    simp only [Pc.advance]
    split_ifs with hlt
    · have hn : c.maxOrder - 1 - o = c.maxOrder - 1 - (o + 1) + 1 := by omega
      rcases hm : bkpFreeMerge c s p o with _ | ⟨_ | q, s'⟩ <;>
        simp only [Pc.finish, hn, bkpFreeLoop, hm]
    · have hn : c.maxOrder - 1 - o = 0 := by omega
      simp only [Pc.finish, hn, bkpFreeLoop]
  | freeInsert p o k =>
    simp only [Pc.advance]
    rcases hi : bkpFreeInsert s p o with _ | s'
    · simp only [Pc.finish, hi]
    · rw [Pc.finish_ret]
      simp only [Pc.finish, hi]

/-- While only CPU `i` takes steps, what its call does stays the same. -/
theorem finish_run {i : ι} {as : List (ι × Act Op Ret)} (hr : (concRuns c R ι).Run x as y)
    (has : ∀ a ∈ as, a = (i, .internal)) :
    (y.pc i).finish c y.buddy = (x.pc i).finish c x.buddy := by
  induction hr with
  | nil => rfl
  | @snoc w y as a hr hs ih =>
    rw [← ih fun b hb => has b (List.mem_append_left _ hb)]
    have ha := has a (by simp)
    subst ha
    change w.exec c i .internal = some y at hs
    unfold Conc.exec at hs
    dsimp only at hs
    split_ifs at hs with hrun
    cases hs
    rw [← Pc.finish_advance hrun]
    unfold Conc.setPc
    dsimp only
    rw [Function.update_self]
    rfl

/-- An allocation no other CPU disturbs is the sequential one. -/
theorem solo_alloc {i : ι} {k : ℤ} {ret : Option ℕ} {as : List (ι × Act Op Ret)}
    (hr : (concRuns c R ι).Run x
      ((i, .invoke (.alloc k)) :: as ++ [(i, .respond (.block ret))]) y)
    (has : ∀ a ∈ as, a = (i, .internal)) : bkpAlloc c x.buddy k = some (ret, y.buddy) := by
  obtain ⟨v, w, hcall, hmid, hlast⟩ := hr.of_ends
  have hrun := finish_run hmid has
  have hdone : w.pc i = .allocDone ret ∧ w.buddy = y.buddy := by
    change w.exec c i (.respond (.block ret)) = some y at hlast
    unfold Conc.exec at hlast
    cases ret <;>
    · dsimp only at hlast
      split_ifs at hlast with hpc
      cases hlast
      exact ⟨hpc, rfl⟩
  obtain ⟨hpw, hb⟩ := hdone
  rw [hpw] at hrun
  change x.exec c i (.invoke (.alloc k)) = some v at hcall
  unfold Conc.exec at hcall
  dsimp only at hcall
  unfold bkpAlloc
  split_ifs at hcall with hpc hk <;> cases hcall
  · rw [show (x.setPc i _).pc i = _ from Function.update_self ..] at hrun
    change _ = Pc.finish c x.buddy _ at hrun
    rw [if_neg (not_not.2 hk)]
    simp only [Pc.finish] at hrun
    split at hrun
    · cases hrun
    · rename_i heq
      rw [heq]
      cases hrun
      rw [hb]
  · rw [show (x.setPc i _).pc i = _ from Function.update_self ..] at hrun
    change _ = Pc.finish c x.buddy _ at hrun
    rw [if_pos hk]
    simp only [Pc.finish, Option.some.injEq, Prod.mk.injEq, Ret.block.injEq] at hrun
    rw [← hb, hrun.1, hrun.2]

/-- A free no other CPU disturbs is the sequential one. -/
theorem solo_free {i : ι} {p : ℕ} {as : List (ι × Act Op Ret)}
    (hr : (concRuns c R ι).Run x
      ((i, .invoke (.free p)) :: as ++ [(i, .respond .unit)]) y)
    (has : ∀ a ∈ as, a = (i, .internal)) : bkpFree c x.buddy p = some y.buddy := by
  obtain ⟨v, w, hcall, hmid, hlast⟩ := hr.of_ends
  have hrun := finish_run hmid has
  change w.exec c i (.respond .unit) = some y at hlast
  unfold Conc.exec at hlast
  dsimp only at hlast
  split_ifs at hlast with hpw
  cases hlast
  change x.exec c i (.invoke (.free p)) = some v at hcall
  unfold Conc.exec at hcall
  dsimp only at hcall
  split_ifs at hcall with hpc
  cases hcall
  rw [hpw, show ((x.setHeld i _).setPc i _).pc i = _ from Function.update_self ..] at hrun
  change _ = Pc.finish c x.buddy _ at hrun
  simp only [Pc.finish] at hrun
  split at hrun
  · cases hrun
  · rename_i heq
    rw [heq]
    cases hrun
    rfl

/-! ### Sequential orders -/

/-- The calls that return in a schedule, in the order in which they return; `pending`
holds the calls that have not. -/
def completedCalls : List (ι × Act Op Ret) → (ι → Option Op) → List Call
  | [], _ => []
  | (i, .invoke op) :: as, pending => completedCalls as (Function.update pending i (some op))
  | (_, .internal) :: as, pending => completedCalls as pending
  | (i, .respond ret) :: as, pending =>
    match pending i, ret with
    | some (.alloc k), .block p => .alloc k p :: completedCalls as pending
    | some (.free p), .unit => .free p :: completedCalls as pending
    | _, _ => completedCalls as pending

/-- The calls of every interleaving that comes to rest return what they would in some
sequential order, and leave the pools as that order does. -/
def SequentialOrder (c : Layout) (R : FreeRange c) (ι : Type*) [DecidableEq ι] : Prop :=
  ∀ x as y, (concRuns c R ι).init x → (concRuns c R ι).Run x as y →
    (∀ i, y.pc i = .idle) → ∃ calls, calls.Perm (completedCalls as fun _ => none) ∧
      ∃ z, bootAndRun c R calls = some z ∧
        ∀ k < c.maxOrder, (z.buddy.orderPools k).list.Perm (y.buddy.orderPools k).list

/-- Concurrent calls of the buddy allocator: they are linearizable as operations on the set
of free pages, `NULL` is answered only by a call that saw each pool from its order up
empty, and a call that no other CPU disturbs is the sequential one. -/
theorem concurrent_calls (R : FreeRange c) (ι : Type*) [DecidableEq ι] :
    (∀ x as y, (concRuns c R ι).init x → (concRuns c R ι).Run x as y →
      ∃ bs u, ((pageObject c).atomic ι R.pageSet).Run (R.pageSet, fun _ => .idle) bs u ∧
        bs.filterMap Act.external = as.filterMap Act.external ∧
        freePages c y.buddy ⊆ u.1.free ∧
        ((∀ i, y.pc i = .idle) → freePages c y.buddy = u.1.free)) ∧
    (∀ x i (k : ℤ) as y, (concRuns c R ι).Reachable x → 0 ≤ k ∧ k < c.maxOrder →
      (concRuns c R ι).Run x
        ((i, .invoke (.alloc k)) :: as ++ [(i, .respond (.block none))]) y →
      (∀ a ∈ as, a.1 = i → a.2 = .internal) →
      ∀ j : ℕ, k ≤ j → j < c.maxOrder → ∃ bs bs' z, as = bs ++ bs' ∧
        (concRuns c R ι).Run x ((i, .invoke (.alloc k)) :: bs) z ∧
        (z.buddy.orderPools j).list = []) ∧
    (∀ x i (k : ℤ) ret as y, (concRuns c R ι).Run x
        ((i, .invoke (.alloc k)) :: as ++ [(i, .respond (.block ret))]) y →
      (∀ a ∈ as, a = (i, .internal)) → bkpAlloc c x.buddy k = some (ret, y.buddy)) ∧
    ∀ x i p as y, (concRuns c R ι).Run x
        ((i, .invoke (.free p)) :: as ++ [(i, .respond .unit)]) y →
      (∀ a ∈ as, a = (i, .internal)) → bkpFree c x.buddy p = some y.buddy :=
  ⟨fun _ _ _ h0 hr => concurrent_refines h0 hr,
    fun _ _ _ _ _ hx hk hr has => null_seen_empty hx hk hr has,
    fun _ _ _ _ _ _ hr has => solo_alloc hr has, fun _ _ _ _ _ hr has => solo_free hr has⟩

/-- Two pages are one free block.  While CPU `0` splits it, CPU `1` finds both pools empty:
it gets `NULL`, although there is a page for each, in either order. -/
theorem not_sequentialOrder_two_cpus :
    let c := Layout.ofPages 2 2 (by decide) (by decide)
    ¬ SequentialOrder c (FreeRange.all c) (Fin 2) := by
  intro c h
  set as : List (Fin 2 × Act Op Ret) := List.flatten
    [[(0, .invoke (.alloc 0))], List.replicate 2 (0, .internal), [(1, .invoke (.alloc 0))],
      List.replicate 3 (1, .internal), [(1, .respond (.block none))],
      List.replicate 6 (0, .internal), [(0, .respond (.block (some 0)))]] with has
  have hrun : (bootAndSchedule c (FreeRange.all c) as).map (fun x => (x.pc 0, x.pc 1)) =
      some (.idle, .idle) := by
    rw [has]
    decide
  have hcalls : completedCalls as (fun _ => none) = [.alloc 0 none, .alloc 0 (some 0)] := by
    rw [has]
    rfl
  obtain ⟨y, hy, hv⟩ := Option.map_eq_some_iff.1 hrun
  obtain ⟨h0, h1⟩ := Prod.mk.inj hv
  obtain ⟨x, hinit, hr⟩ := run_bootAndSchedule hy
  obtain ⟨calls, hperm, z, hz, -⟩ := h x as y hinit hr fun i => by fin_cases i <;> assumption
  rw [hcalls] at hperm
  have hnone : ∀ calls ∈ [[Call.alloc 0 none, .alloc 0 (some 0)],
      [Call.alloc 0 (some 0), .alloc 0 none]],
      (bootAndRun c (FreeRange.all c) calls).map (fun z => z.held) = none := by decide
  have hmem : calls ∈ [[Call.alloc 0 none, .alloc 0 (some 0)],
      [Call.alloc 0 (some 0), .alloc 0 none]] := by
    obtain ⟨u, v, rfl⟩ := List.length_eq_two.1 hperm.length_eq
    have hu := hperm.subset (List.mem_cons_self ..)
    simp only [List.mem_cons, List.not_mem_nil, or_false] at hu
    rcases hu with rfl | rfl
    · have := List.perm_singleton.1 ((List.perm_cons _).1 hperm)
      simp [this]
    · have := List.perm_singleton.1 ((List.perm_cons _).1 (hperm.trans (.swap ..)))
      simp [this]
  have := hnone calls hmem
  rw [hz] at this
  cases this

/-- Each CPU frees one of two neighbouring pages.  Both look for a neighbour to merge with before
the other one has inserted its page, so the pages stay apart.  No sequential run leaves them so. -/
theorem freed_apart_two_cpus :
    let c := Layout.ofPages 2 2 (by decide) (by decide)
    ∃ x as y, (concRuns c (FreeRange.all c) (Fin 2)).init x ∧
      (concRuns c (FreeRange.all c) (Fin 2)).Run x as y ∧ (∀ i, y.pc i = .idle) ∧
      completedCalls as (fun _ => none) =
        [.alloc 0 (some 0), .alloc 0 (some 1), .free 0, .free 1] ∧
      (y.buddy.orderPools 0).list = [0, 1] ∧
      ∀ calls z, bootAndRun c (FreeRange.all c) calls = some z →
        ¬ (z.buddy.orderPools 0).list.Perm (y.buddy.orderPools 0).list := by
  intro c
  set as : List (Fin 2 × Act Op Ret) := List.flatten
    [[(0, .invoke (.alloc 0))], List.replicate 8 (0, .internal), [(0, .respond (.block (some 0)))],
      [(1, .invoke (.alloc 0))], List.replicate 2 (1, .internal),
      [(1, .respond (.block (some 1)))], [(0, .invoke (.free 0)), (1, .invoke (.free 1))],
      List.flatten (List.replicate 3 [(0, .internal), (1, .internal)]),
      [(0, .respond .unit), (1, .respond .unit)]] with has
  have hrun : (bootAndSchedule c (FreeRange.all c) as).map (fun x =>
      (x.pc 0, x.pc 1, (x.buddy.orderPools 0).list)) = some (.idle, .idle, [0, 1]) := by
    rw [has]
    decide
  obtain ⟨y, hy, hv⟩ := Option.map_eq_some_iff.1 hrun
  obtain ⟨h0, hv⟩ := Prod.mk.inj hv
  obtain ⟨h1, hlist⟩ := Prod.mk.inj hv
  obtain ⟨x, hinit, hr⟩ := run_bootAndSchedule hy
  refine ⟨x, as, y, hinit, hr, fun i => by fin_cases i <;> assumption, ?_, hlist,
    fun calls z hz hperm => ?_⟩
  · rw [has]
    rfl
  · have hmem : ∀ p, p ∈ (z.buddy.orderPools 0).list ↔ p ∈ [0, 1] := fun p => by
      rw [hperm.mem_iff, hlist]
    exact (runInv_of_reachable (reachable_bootAndRun hz)).coalesced 0 (by decide)
      0 ((hmem 0).2 (by decide)) 1 ((hmem 1).2 (by decide)) rfl

end Linear

end AcoOs
