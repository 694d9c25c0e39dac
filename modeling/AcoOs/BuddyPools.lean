/-
The pools after boot, for every page array.

`buddy_module_init` looks at the flags of every page, and at the type and the order of pages that
are not `STATIC`.  Two arrays that agree there (`Alike`) end with the same pools, so what boot makes
of the array of `pgfm_module_init` it makes of each array with the same free pages.

* **`boot_pools`** — the pools hold the binary digits of the number of free pages, and the top one
  what is left over.
-/
import AcoOs.BuddyBoot

namespace AcoOs

open Buddy

variable {c : Layout}

/-- Two descriptors that `bkp_free` cannot tell apart. -/
structure Pageframe.Alike (pg pg' : Pageframe) : Prop where
  flags : pg'.buddyFlags = pg.buddyFlags
  rest : pg.buddyFlags ≠ flagStatic → pg'.pgtype = pg.pgtype ∧ pg'.buddyOrder = pg.buddyOrder

/-- Two states with the same pools that `bkp_free` cannot tell apart. -/
structure Alike (c : Layout) (s s' : Buddy) : Prop where
  pools : s'.orderPools = s.orderPools
  pages : ∀ p < c.pageNums, (s.pages p).Alike (s'.pages p)

theorem bef_lt {p k : ℕ} (hp : p < c.pageNums) (hk : k < c.maxOrder)
    (h : c.vaValid (c.befPgva p k)) : c.va2pg (c.befPgva p k) < c.pageNums := by
  rw [c.va2pg_bef hp hk ((c.vaValid_bef hp hk).1 h)]
  exact lt_of_le_of_lt (Nat.sub_le p _) hp

theorem aft_lt {p k : ℕ} (hp : p < c.pageNums) (hk : k < c.maxOrder)
    (h : c.vaValid (c.aftPgva p k)) : c.va2pg (c.aftPgva p k) < c.pageNums := by
  have hlt := (c.vaValid_aft hp hk).1 h
  rwa [c.va2pg_aft hp hk hlt]

theorem Pageframe.Alike.mergeable {pg pg' : Pageframe} (h : pg.Alike pg') (k : ℕ) :
    pg'.Mergeable k ↔ pg.Mergeable k := by
  unfold Pageframe.Mergeable
  rw [h.flags]
  by_cases hs : pg.buddyFlags = flagStatic
  · -- a `STATIC` page is no head
    refine iff_of_false (fun hm => ?_) fun hm => ?_
    · exact hm.2.2.1 (by rw [hs]; decide)
    · exact hm.2.2.1 (by rw [hs]; decide)
  · rw [(h.rest hs).1, (h.rest hs).2]

namespace Alike

variable {s s' t : Buddy} {p k : ℕ}

theorem setPage (h : Alike c s s') {pg pg' : Pageframe} (hpg : pg.Alike pg') (p : ℕ) :
    Alike c (s.setPage p pg) (s'.setPage p pg') := by
  refine ⟨h.pools, fun q hq => ?_⟩
  rw [setPage_pages, setPage_pages]
  split_ifs
  · exact hpg
  · exact h.pages q hq

theorem setPool (h : Alike c s s') (k : ℕ) (m : Mempool) :
    Alike c (s.setPool k m) (s'.setPool k m) := by
  refine ⟨?_, h.pages⟩
  unfold Buddy.setPool
  rw [h.pools]

theorem joinBlocks (h : Alike c s s') {lo hi : ℕ} (hlo : lo < c.pageNums)
    (htype : (s.pages lo).buddyFlags ≠ flagStatic) (hhi : hi < c.pageNums)
    (htype' : (s.pages hi).buddyFlags ≠ flagStatic) (k linked : ℕ) :
    Alike c (joinBlocks c s k lo hi linked) (joinBlocks c s' k lo hi linked) := by
  unfold AcoOs.joinBlocks
  have hl := (h.pages lo hlo).rest htype
  have hh := (h.pages hi hhi).rest htype'
  rw [h.pools]
  have halike : Pageframe.Alike
      { s.pages lo with buddyOrder := (s.pages lo).buddyOrder + 1, buddyFlags := flagHead }
      { s'.pages lo with buddyOrder := (s'.pages lo).buddyOrder + 1, buddyFlags := flagHead } :=
    ⟨rfl, fun _ => ⟨hl.1, congrArg (· + 1) hl.2⟩⟩
  have halike' : Pageframe.Alike
      { s.pages hi with buddyOrder := c.maxOrder, buddyFlags := flagBody }
      { s'.pages hi with buddyOrder := c.maxOrder, buddyFlags := flagBody } :=
    ⟨rfl, fun _ => ⟨hh.1, rfl⟩⟩
  exact ((h.setPool k _).setPage halike' hi).setPage halike lo

theorem entry (h : Alike c s s') (he : bkpFreeEntry c s p = some k) :
    bkpFreeEntry c s' p = some k ∧ p < c.pageNums ∧ k < c.maxOrder := by
  unfold bkpFreeEntry at he ⊢
  split_ifs at he with hc
  obtain ⟨hp, htype, hf, ho⟩ := hc
  have hpage := h.pages p hp
  have hrest := hpage.rest (by rw [show (s.pages p).buddyFlags = flagHead from hf]; decide)
  have hf' : (s'.pages p).Freeable := hpage.flags.trans hf
  cases he
  rw [hrest.1, hrest.2]
  exact ⟨if_pos ⟨hp, htype, hf', ho⟩, hp, ho⟩

/-- One iteration of the merge loop. -/
theorem merge (h : Alike c s s') (hp : p < c.pageNums) (hk : k < c.maxOrder) {o : Option ℕ}
    (hm : bkpFreeMerge c s p k = some (o, t)) : ∃ t', bkpFreeMerge c s' p k = some (o, t') ∧
      Alike c t t' ∧ ∀ q, o = some q → q < c.pageNums := by
  have hmerge : ∀ q < c.pageNums, (s'.pages q).Mergeable k ↔ (s.pages q).Mergeable k :=
    fun q hq => (h.pages q hq).mergeable k
  have hstatic : ∀ {q}, (s.pages q).Mergeable k → (s.pages q).buddyFlags ≠ flagStatic := by
    intro q hq hs
    exact hq.2.2.1 (by rw [hs]; decide)
  unfold bkpFreeMerge at hm ⊢
  dsimp only at hm ⊢
  split_ifs at hm with hc hbef haft
  · -- the block before joins
    obtain ⟨htype, ho, hf⟩ := hc
    have hne : (s.pages p).buddyFlags ≠ flagStatic := by
      rw [hf]
      decide
    have hrest := (h.pages p hp).rest hne
    have hq := bef_lt hp hk hbef.1
    rw [if_pos ⟨hrest.1.trans htype, hrest.2.trans ho, (h.pages p hp).flags.trans hf⟩,
      if_pos ⟨hbef.1, (hmerge _ hq).2 hbef.2⟩]
    cases hm
    refine ⟨_, rfl, h.joinBlocks hq (hstatic hbef.2) hp hne k _, fun q he => ?_⟩
    cases he
    exact hq
  · -- the block behind joins
    obtain ⟨htype, ho, hf⟩ := hc
    have hne : (s.pages p).buddyFlags ≠ flagStatic := by
      rw [hf]
      decide
    have hrest := (h.pages p hp).rest hne
    have hq := aft_lt hp hk haft.1
    rw [if_pos ⟨hrest.1.trans htype, hrest.2.trans ho, (h.pages p hp).flags.trans hf⟩,
      if_neg fun hb => hbef ⟨hb.1, (hmerge _ (bef_lt hp hk hb.1)).1 hb.2⟩,
      if_pos ⟨haft.1, (hmerge _ hq).2 haft.2⟩]
    cases hm
    refine ⟨_, rfl, h.joinBlocks hp hne hq (hstatic haft.2) k _, fun q he => ?_⟩
    cases he
    exact hp
  · obtain ⟨htype, ho, hf⟩ := hc
    have hrest := (h.pages p hp).rest (by rw [hf]; decide)
    rw [if_pos ⟨hrest.1.trans htype, hrest.2.trans ho, (h.pages p hp).flags.trans hf⟩,
      if_neg fun hb => hbef ⟨hb.1, (hmerge _ (bef_lt hp hk hb.1)).1 hb.2⟩,
      if_neg fun ha => haft ⟨ha.1, (hmerge _ (aft_lt hp hk ha.1)).1 ha.2⟩]
    cases hm
    exact ⟨_, rfl, h, fun q he => by cases he⟩

theorem loop (n : ℕ) : ∀ {s s' t : Buddy} {p k q j : ℕ}, Alike c s s' → p < c.pageNums →
    k + n < c.maxOrder → bkpFreeLoop c n s p k = some (q, j, t) →
      ∃ t', bkpFreeLoop c n s' p k = some (q, j, t') ∧ Alike c t t' ∧ q < c.pageNums := by
  induction n with
  | zero =>
    intro s s' t p k q j h hp _ hl
    cases hl
    exact ⟨s', rfl, h, hp⟩
  | succ n ih =>
    intro s s' t p k q j h hp hk hl
    rw [bkpFreeLoop] at hl
    split at hl
    · cases hl
    · rename_i u hm
      cases hl
      obtain ⟨t', hm', h', -⟩ := h.merge hp (by omega) hm
      refine ⟨t', ?_, h', hp⟩
      rw [bkpFreeLoop, hm']
    · rename_i r u hm
      obtain ⟨u', hm', h', hr⟩ := h.merge hp (by omega) hm
      obtain ⟨t', hl', ht', hq⟩ := ih h' (hr r rfl) (by omega) hl
      refine ⟨t', ?_, ht', hq⟩
      rw [bkpFreeLoop, hm']
      exact hl'

theorem insert (h : Alike c s s') (hp : p < c.pageNums) (hi : bkpFreeInsert s p k = some t) :
    ∃ t', bkpFreeInsert s' p k = some t' ∧ Alike c t t' := by
  have hpage := h.pages p hp
  unfold bkpFreeInsert at hi ⊢
  dsimp only at hi ⊢
  split_ifs at hi with hc
  cases hi
  have hne : (s.pages p).buddyFlags ≠ flagStatic := by
    intro hs
    rw [hs] at hc
    exact hc.2.2.2.2 |> absurd <| by decide
  have hrest := hpage.rest hne
  have halike : Pageframe.Alike
      { s.pages p with buddyFlags := (s.pages p).buddyFlags ||| flagFree }
      { s'.pages p with buddyFlags := (s'.pages p).buddyFlags ||| flagFree } :=
    ⟨congrArg (· ||| flagFree) hpage.flags, fun _ => hrest⟩
  rw [if_pos (by rw [hpage.flags, hrest.1]; exact hc), h.pools]
  exact ⟨_, rfl, (h.setPage halike p).setPool k _⟩

theorem free (h : Alike c s s') (hf : bkpFree c s p = some t) :
    ∃ t', bkpFree c s' p = some t' ∧ Alike c t t' := by
  unfold bkpFree at hf ⊢
  split at hf
  · cases hf
  · rename_i k he
    obtain ⟨he', hp, hk⟩ := h.entry he
    rw [he']
    dsimp only
    split at hf
    · cases hf
    · rename_i q j u hl
      obtain ⟨u', hl', h', hq⟩ := loop (c.maxOrder - 1 - k) h hp (by omega) hl
      rw [hl']
      exact h'.insert hq hf

theorem initFree (i : ℕ) (hi : i ≤ c.pageNums) : ∀ {s s' t : Buddy}, Alike c s s' →
    initFree c i s = some t → ∃ t', initFree c i s' = some t' ∧ Alike c t t' := by
  induction i with
  | zero =>
    intro s s' t h ht
    cases ht
    exact ⟨s', rfl, h⟩
  | succ i ih =>
    intro s s' t h ht
    rw [AcoOs.initFree] at ht ⊢
    split at ht
    · cases ht
    · rename_i u hu
      obtain ⟨u', hu', h'⟩ := ih (by omega) h hu
      have hflags := (h'.pages i (by omega)).flags
      rw [hu']
      dsimp only
      split_ifs at ht with hf
      · rw [if_pos (show (u'.pages i).Freeable from hflags.trans hf)]
        exact h'.free ht
      · rw [if_neg (show ¬ (u'.pages i).Freeable from fun hf' => hf (hflags.symm.trans hf'))]
        cases ht
        exact ⟨u', rfl, h'⟩

end Alike

/-- After boot the pool of the top order has as many blocks as fit, and every other pool has the
digit of its order in the number of free pages. -/
theorem boot_pools (R : FreeRange c) (pages : ℕ → Pageframe)
    (hhead : ∀ p ∈ R.set, (pages p).pgtype = .buddyAllocator ∧ (pages p).buddyFlags = flagHead ∧
      (pages p).buddyOrder = 0)
    (hstatic : ∀ p < c.pageNums, p ∉ R.set → (pages p).buddyFlags = flagStatic) :
    ∃ s, buddyModuleInit c pages = some s ∧
      (s.orderPools (c.maxOrder - 1)).list.length = R.count / 2 ^ (c.maxOrder - 1) ∧
      (∀ k < c.maxOrder - 1, (s.orderPools k).list.length = if R.count.testBit k then 1 else 0) ∧
      ∀ k < c.maxOrder, (s.orderPools k).restBlockNum = (s.orderPools k).list.length := by
  have hM := c.maxOrder_pos
  -- the loop reads nothing of the descriptors of the kernel but that they are static
  have halike : Alike c { pages := R.pages, orderPools := initPools }
      { pages := pages, orderPools := initPools } := by
    refine ⟨rfl, fun p hp => ?_⟩
    by_cases hin : p ∈ R.set
    · obtain ⟨h1, h2, h3⟩ := hhead p hin
      have hflags : (R.pages p).buddyFlags = flagHead := if_pos hin
      exact ⟨h2.trans hflags.symm, fun _ => ⟨h1, h3⟩⟩
    · have hflags : (R.pages p).buddyFlags = flagStatic := if_neg hin
      exact ⟨(hstatic p hp hin).trans hflags.symm, fun hne => absurd hflags hne⟩
  obtain ⟨s, hs, hboot⟩ := buddyModuleInit_spec R
  obtain ⟨s', hs', h⟩ := halike.initFree c.pageNums le_rfl hs
  -- the counters are those of a binary number
  have hlen : ∀ k < c.maxOrder,
      ((s.orderPools k).list.length : ℤ) = bootRest c.maxOrder R.count k := by
    intro k hk
    rw [← boot_rest hs hk, hboot.inv.count k hk]
  refine ⟨s', hs', ?_, fun k hk => ?_, fun k hk => ?_⟩
  · have htop := hlen (c.maxOrder - 1) (by omega)
    rw [bootRest, if_pos (by omega)] at htop
    rw [h.pools]
    exact_mod_cast htop
  · have hdigit := hlen k (by omega)
    rw [bootRest, if_neg (by omega)] at hdigit
    rw [h.pools, Nat.testBit_eq_decide_div_mod_eq]
    have := Nat.mod_lt (R.count / 2 ^ k) (by norm_num : 0 < 2)
    by_cases hbit : R.count / 2 ^ k % 2 = 1
    · rw [if_pos (decide_eq_true hbit)]
      omega
    · rw [if_neg (by simpa using hbit)]
      omega
  · rw [h.pools]
    exact hboot.inv.count k hk

/-- Five free pages behind a page of the kernel, which has garbage in the rest of its descriptor:
with three orders a block of four pages and a block of one. -/
theorem boot_pools_five_pages :
    let c := Layout.ofPages 3 6 (by decide) (by decide)
    let R : FreeRange c := ⟨1, 5, by decide⟩
    let pages := fun p => if p = 0 then ⟨.vmaArea, flagStatic, 7, 7⟩ else R.pages p
    ∃ s, buddyModuleInit c pages = some s ∧ (s.orderPools 2).list.length = 1 ∧
      (s.orderPools 1).list.length = 0 ∧ (s.orderPools 0).list.length = 1 := by
  intro c R pages
  obtain ⟨s, hs, htop, hdigit, -⟩ := boot_pools R pages
    (fun p hp => by
      have hp0 : p ≠ 0 := by
        rintro rfl
        exact absurd hp.1 (by decide)
      show ((if p = 0 then _ else R.pages p : Pageframe)).pgtype = _ ∧
        ((if p = 0 then _ else R.pages p : Pageframe)).buddyFlags = _ ∧
        ((if p = 0 then _ else R.pages p : Pageframe)).buddyOrder = _
      rw [if_neg hp0]
      exact ⟨rfl, if_pos hp, rfl⟩)
    (fun p _ hp => by
      show ((if p = 0 then _ else R.pages p : Pageframe)).buddyFlags = _
      split_ifs
      · rfl
      · exact if_neg hp)
  have hcount : (s.orderPools 2).list.length = 5 / 4 ∧
      (s.orderPools 1).list.length = (if Nat.testBit 5 1 then 1 else 0) ∧
      (s.orderPools 0).list.length = if Nat.testBit 5 0 then 1 else 0 :=
    ⟨htop, hdigit 1 (by decide), hdigit 0 (by decide)⟩
  exact ⟨s, hs, hcount⟩

end AcoOs
