/-
What one section of a call means for the others.

`VmPc.Moves` says what a CPU may do in one section: it keeps the books, it may rely on what it needs
at the next place, and it changes only what it holds.  `VmPc.advance_moves` and `VmPc.start_moves`
show this of every section; the only assumption is about the section of `unmmap_memory_cb` that
drops the last reference to a block.
-/
import AcoOs.VmOwnership

namespace AcoOs

open Memory Machine

variable {L : VmLayout} {A : VmEnv L}

namespace VmState

variable {x x' y : VmState A} {u v a p : ℕ} {O W H P : Set ℕ} {caller : VmCaller}
  {area : VmaArea} {own : Option ℕ} {whole : Bool}

theorem OnlyMemory.refl (hb : x.Books) : x.OnlyMemory x ∅ :=
  .of_at hb ⟨rfl, rfl, rfl, rfl, rfl, rfl, subset_rfl⟩ rfl

theorem Changes.trans (h : x.Changes y O W H P) (h' : y.Changes x' O W H P) (hO : O ⊆ W) :
    x.Changes x' O W H P where
  kernVma := h'.kernVma.trans h.kernVma
  live v hv hn := by
    obtain ⟨h1, h2⟩ := h.live v hv hn
    obtain ⟨h3, h4⟩ := h'.live v h1 hn
    exact ⟨h3, h4.trans h2⟩
  vmas v hv hn := (h'.vmas v (h.live v hv fun hO' => hn (hO hO')).1 hn).trans (h.vmas v hv hn)
  areas a ha hn := by
    obtain ⟨h1, h2⟩ := h.areas a ha hn
    obtain ⟨h3, h4⟩ := h'.areas a h1 hn
    exact ⟨h3, h4.trans h2⟩
  listed v hv a ha hn := by
    obtain ⟨h1, h2⟩ := h'.listed v hv a ha hn
    exact h.listed v h1 a h2 hn
  loose p hp hn := h'.loose p (h.loose p hp hn) hn
  fresh p hp hn := h'.fresh p (h.fresh p hp hn) hn
  guarded a ha hn hg := h'.guarded a (h.areas a ha hn).1 hn (h.guarded a ha hn hg)

/-- A block that an area refers to is nobody's. -/
theorem Changes.of_referred (h : x.Changes x' O W H P) (hb : x.Books)
    (hP : ∀ p ∈ P, ∃ a ∈ x.live .vmaArea, x.RefersTo a p) : x.Changes x' O W H ∅ where
  kernVma := h.kernVma
  live := h.live
  vmas := h.vmas
  areas := h.areas
  listed := h.listed
  loose p hp _ := h.loose p hp fun hpP => by
    obtain ⟨a, ha, hr⟩ := hP p hpP
    exact hp.unused hb a ha hr
  fresh p hp _ := h.fresh p hp fun hpP => by
    obtain ⟨a, ha, hr⟩ := hP p hpP
    exact hp.2 a ha hr
  guarded := h.guarded

end VmState

open VmState

namespace VmPc

variable {x x' y : VmState A} {pc pc' : VmPc} {O W H P : Set ℕ} {u v a b p : ℕ}
  {caller : VmCaller} {area : VmaArea} {own : Option ℕ} {whole : Bool} {order ret : ℤ}
  {rest : List ℕ}

/-! ### Moves -/

/-- The address spaces that are made or freed. -/
def born (pc pc' : VmPc) : Set ℕ := {v | pc.owns = some v ∨ pc'.owns = some v}

/-- The address spaces that may change. -/
def touched (pc pc' : VmPc) : Set ℕ :=
  {v | (pc.writes = some v ∨ pc'.writes = some v) ∨ pc.owns = some v ∨ pc'.owns = some v}

/-- The areas that may change. -/
def handled (pc pc' : VmPc) : Set ℕ := {a | pc.hand = some a ∨ pc'.hand = some a}

/-- The blocks that may change. -/
def atHand (x : VmState A) (pc : VmPc) : Set ℕ := {p | pc.holds = some p ∨ p ∈ x.mem.freePages}

/-- A section leads from `pc` to `pc'`. -/
structure Moves (x : VmState A) (pc : VmPc) (x' : VmState A) (pc' : VmPc) : Prop where
  books : x'.Books
  ok : pc'.Ok x'
  changes : x.Changes x' (born pc pc') (touched pc pc') (handled pc pc') (atHand x pc)
  hand : ∀ a, pc'.hand = some a → pc.hand = some a ∨ a ∉ x.live .vmaArea ∨
    ∃ v ∈ x.tabled, pc'.writes = some v ∧ a ∈ x.list v
  holds : ∀ p, pc'.holds = some p → pc.holds = some p ∨ p ∈ x.mem.freePages ∨
    ∃ a ∈ x.live .vmaArea, x.RefersTo a p
  settled : ∀ a, pc.hand = some a ∨ pc'.hand = some a → ∀ v ∈ x'.tabled, a ∈ x'.list v →
    x'.Settled v a ∨ pc'.hangs = some (v, a)

theorem born_subset (pc pc' : VmPc) : born pc pc' ⊆ touched pc pc' := fun _ => Or.inr

/-- A section that changes the memory only and takes no new area in hand. -/
theorem Moves.of_memory (hb : x.Books) (hm : x.OnlyMemory x' P) (hok : pc'.Ok x')
    (hP : ∀ p ∈ P, pc.holds = some p) (hhand : ∀ a, pc'.hand = some a → pc.hand = some a)
    (hholds : ∀ p, pc'.holds = some p → pc.holds = some p ∨ p ∈ x.mem.freePages)
    (hsettled : ∀ a, pc.hand = some a → ∀ v ∈ x'.tabled, a ∈ x'.list v →
      x'.Settled v a ∨ pc'.hangs = some (v, a)) : Moves x pc x' pc' where
  books := hm.books hb
  ok := hok
  changes := (hm.changes hb).mono (Set.empty_subset _) (Set.empty_subset _) (Set.empty_subset _)
    fun p hp => .inl (hP p hp)
  hand a ha := .inl (hhand a ha)
  holds p hp := (hholds p hp).imp_right .inl
  settled a ha v hv hal := hsettled a (ha.elim id (hhand a)) v hv hal

/-- A section that changes nothing. -/
theorem Moves.of_same (hb : x.Books) (hok : pc'.Ok x)
    (hhand : ∀ a, pc'.hand = some a → pc.hand = some a)
    (hholds : ∀ p, pc'.holds = some p → pc.holds = some p)
    (hsettled : ∀ a, pc.hand = some a → ∀ v ∈ x.tabled, a ∈ x.list v →
      x.Settled v a ∨ pc'.hangs = some (v, a)) : Moves x pc x pc' :=
  .of_memory hb (.refl hb) hok (fun _ hp => hp.elim) hhand (fun p hp => .inl (hholds p hp)) hsettled

/-- An area that hangs nowhere is on no list. -/
theorem settled_of_apart (hap : x.Apart a) : ∀ v ∈ x.tabled, a ∈ x.list v →
    x.Settled v a ∨ pc'.hangs = some (v, a) := fun v hv hal => absurd hal (hap.2 v hv)

/-! ### `vma_dup` -/

theorem made_moves (hb : x.Books) (hok : (made u v).Ok x)
    (h : advance x (made u v) = some (x', pc')) : Moves x (made u v) x' pc' := by
  obtain ⟨hu, hv⟩ := hok
  unfold advance at h
  dsimp only at h
  rw [if_pos (by rw [hv.zero]; exact ⟨rfl, rfl⟩)] at h
  rcases hk : x.bkpAllocZero 0 with ⟨_ | pg, y⟩
  · rw [hk] at h
    cases h
    have hm := hb.takeNone hk
    have hc := hm.changes hb
    exact .of_memory hb hm (hc.blank hv (Set.notMem_empty _) (Set.notMem_empty _))
      (fun _ hp => hp.elim) nofun nofun nofun
  · rw [hk] at h
    cases h
    obtain ⟨hm, hloose, hsub, hblock, hzero⟩ := hb.take hk
    have hc := hm.changes hb
    have hblank := hc.blank hv (Set.notMem_empty v) (Set.notMem_empty v)
    have ht := OnlyTable.of_set hblank.live hblank.zero hloose hblock hzero
    have hfree : pg ∈ x.mem.freePages := hsub (self_mem_pagesOf pg _)
    have hut : u ∈ y.tabled := hc.tabled hu (Set.notMem_empty u)
    refine ⟨ht.books (hm.books hb), ⟨ht.tabled_iff.2 (.inr hut), ⟨ht.tabled_iff.2 (.inl rfl), ?_⟩,
      fun he => ht.blank (he ▸ hut)⟩, ?_, nofun, nofun, nofun⟩
    · rw [ht.kernVma]
      exact hblank.ne
    · refine Changes.trans (hc.mono (Set.empty_subset _) (Set.empty_subset _) (Set.empty_subset _)
        (Set.empty_subset _)) (ht.changes.mono (Set.singleton_subset_iff.2 (.inl rfl))
        (Set.singleton_subset_iff.2 (.inr (.inl rfl))) (Set.empty_subset _)
        (Set.singleton_subset_iff.2 (.inr hfree))) (born_subset _ _)

/-- An address space without a page table, or without areas, is given back. -/
theorem moves_of_onlySpace (hb : x.Books) (hs : x.OnlySpace x' v) (ho : pc.owns = some v)
    (hhand : pc.hand = none) : Moves x pc x' idle := by
  refine ⟨hs.books hb, trivial, hs.changes.mono (Set.singleton_subset_iff.2 (.inl ho))
    (Set.singleton_subset_iff.2 (.inr (.inl ho))) (Set.empty_subset _) (Set.empty_subset _),
    nofun, nofun, fun b hb' => ?_⟩
  rw [hhand] at hb'
  exact hb'.elim nofun nofun

theorem unmade_moves (hb : x.Books) (hok : (unmade v).Ok x)
    (h : advance x (unmade v) = some (x', pc')) : Moves x (unmade v) x' pc' := by
  obtain ⟨y, hy, heq⟩ := Option.map_eq_some_iff.1 h
  cases heq
  have hset : x.setVma v .zero = x := by
    unfold setVma
    rw [← hok.zero, Function.update_eq_self]
  exact moves_of_onlySpace hb (Books.freeSpace hok.live hok.ne (by rw [hset]; exact hy)) rfl rfl

theorem opened_moves (hb : x.Books) (hok : (opened u v).Ok x)
    (h : advance x (opened u v) = some (x', pc')) : Moves x (opened u v) x' pc' := by
  cases h
  exact .of_same hb ⟨hok, fun _ => id⟩ nofun nofun nofun

/-- The areas on a list that nobody writes to. -/
def Complete (x : VmState A) (pc : VmPc) (v : ℕ) : Prop :=
  v ∈ x.tabled → ∀ a ∈ x.list v, x.Settled v a ∨ pc.hangs = some (v, a)

/-- What `vma_dup` copies is the copy of an area that is complete. -/
theorem copyNext_moves (hb : x.Books) (hok : (copying u v (b :: rest)).Ok x)
    (hcomplete : Complete x (copying u v (b :: rest)) u)
    (h : copyNext x u v b rest = some (x', pc')) : Moves x (copying u v (b :: rest)) x' pc' := by
  obtain ⟨hfill, hrest⟩ := hok
  have hu := hfill.tabled
  have hbu := hrest b List.mem_cons_self
  have hbl := hb.mem_live u hu b hbu
  have hfits := hb.fits b hbl
  have htarget : x.Target (.dup u rest) v := by
    refine ⟨hfill.sole.tabled, fun w hw => ?_, fun w l hw c hc => ?_⟩
    · cases hw
      exact hfill
    · cases hw
      exact hrest c (List.mem_cons_of_mem b hc)
  have hset : x.Settled u b := (hcomplete hu b hbu).resolve_right nofun
  unfold copyNext at h
  dsimp only at h
  split at h
  · rename_i ht
    obtain ⟨p, hp⟩ := Option.ne_none_iff_exists'.1 (hset.backed ht)
    have hr : x.RefersTo b p := ⟨ht, hp⟩
    obtain ⟨o, hbk⟩ := hb.refers b hbl p hr
    have hpl : p < L.pageNums := A.block_lt hbk.backs.block
    split_ifs at h with h1 h2 h3 h4 h5 h6
    · exact absurd h3 (hset.backed ht)
    · -- an area that can be written gets a block of its own
      rcases hk : x.bkpAllocZero (pgnum2order L.maxOrder (toInt32 ((x.areas b).size / pageSize)))
        with ⟨_ | pg, y⟩
      · rw [hk] at h
        cases h
        have hm := hb.takeNone hk
        exact .of_memory hb hm ((hm.changes hb).sole hfill.sole (Set.notMem_empty v))
          (fun _ hp => hp.elim) nofun nofun nofun
      · rw [hk] at h
        cases h
        obtain ⟨hm, hloose, hsub, hblock, -⟩ := hb.take hk
        have hc := hm.changes hb
        have hpg : pg < L.pageNums := A.block_lt hblock
        refine .of_memory hb hm ⟨hc.target_empty htarget, hloose, rfl, ?_,
          fun _ => ⟨pg, hpg, rfl, .inl rfl⟩⟩ (fun _ hp => hp.elim) nofun (fun q hq => ?_) nofun
        · have := VmLayout.pg2pa_lt hpg
          dsimp only
          omega
        · cases hq
          exact .inr (hsub (self_mem_pagesOf pg _))
    · cases h
      refine .of_same hb ⟨htarget, nofun, rfl, hfits.pa_lt, fun _ => ⟨p, hpl, hbk.pa, .inr ⟨rfl,
        u, rfl, b, hbu, hr, rfl⟩⟩⟩ nofun nofun nofun
  · rename_i ht
    split_ifs at h with h1
    cases h
    refine .of_same hb ⟨htarget, nofun, h1.2.2.2.2, hfits.pa_lt, fun hm => absurd hm ?_⟩ nofun nofun
      nofun
    exact fun hm => ht hm

/-! ### A block and `__vm_mmap` -/

theorem taken_moves (hb : x.Books) (hok : (taken caller v area p order).Ok x)
    (h : advance x (taken caller v area p order) = some (x', pc')) :
    Moves x (taken caller v area p order) x' pc' := by
  obtain ⟨ht, hp, ha⟩ := hok
  unfold advance at h
  dsimp only at h
  rcases hk : x.claimBlock p order with _ | y
  · rw [hk] at h
    cases h
  · rw [hk] at h
    cases h
    obtain ⟨hm, hfresh⟩ := hb.claim hp hk
    have hc := hm.changes hb
    refine .of_memory hb hm ⟨hc.target_empty ht, ?_, hc.adds hb ht ha fun w _ =>
      ⟨Set.notMem_empty w, fun b _ => Set.notMem_empty b⟩⟩ ?_ nofun (fun q hq => .inl hq) nofun
    · -- the block counts no reference yet
      rintro q hq
      cases hq
      exact hfresh
    · rintro q rfl
      rfl

theorem adding_moves (hb : x.Books) (hok : (adding caller v area own).Ok x)
    (h : addNext x caller v area own = some (x', pc')) :
    Moves x (adding caller v area own) x' pc' := by
  obtain ⟨ht, hown, ha⟩ := hok
  unfold addNext at h
  split_ifs at h with hargs
  rcases hk : x.objAlloc .vmaArea with ⟨_ | a, y⟩
  · rw [hk] at h
    cases h
    obtain ⟨hat, hlive⟩ := objAlloc_none hk
    have hm := OnlyMemory.of_at hb hat hlive
    have hc := hm.changes hb
    exact .of_memory hb hm ⟨hc.target_empty ht, hc.brings hown fun q _ => Set.notMem_empty q⟩
      (fun _ hq => hq.elim) nofun (fun q hq => .inl hq) nofun
  · rw [hk] at h
    cases h
    obtain ⟨-, hsize, hva, hpa, hsz⟩ := hargs
    obtain ⟨ho, hap, hfresh, harea⟩ := hb.allocArea hk ⟨hva, hpa, hsz, hsize, ha.pa_lt⟩ ha.pgfm
    have hc := ho.changes
    have hbrings := hc.brings hown fun q _ => Set.notMem_empty q
    refine ⟨ho.books hb, ⟨hc.target_empty ht, hbrings, ?_, hap⟩,
      hc.mono (Set.empty_subset _) (Set.empty_subset _) (Set.singleton_subset_iff.2 (.inr rfl))
        (Set.empty_subset _), ?_, fun q hq => .inl hq, ?_⟩
    · -- what is copied is not the new object
      rw [harea]
      refine hc.adds hb ht ha fun w hw => ⟨Set.notMem_empty w, ?_⟩
      rintro b hbw rfl
      exact hfresh (hb.mem_live w (ht.source w hw).tabled b hbw)
    · rintro b hb'
      cases hb'
      exact .inr (.inl hfresh)
    · rintro b (hb' | hb')
      · cases hb'
      · cases hb'
        exact settled_of_apart hap

/-- What `vma_area_hang` and `vma_area_unhang` leave of the state of a call that maps. -/
theorem target_onlyList (h : x.OnlyList x' v a) (hb : x.Books) (ht : x.Target caller v)
    (hown : x.Brings own) (ha : x.Adds caller own (x.areas a))
    (hn : ∀ u, caller.source = some u → a ∉ x.list u) :
    x'.Target caller v ∧ x'.Brings own ∧ x'.Adds caller own (x'.areas a) := by
  have hc := h.changes
  have hne : ∀ u, caller.source = some u → u ∉ ({v} : Set ℕ) := fun u hu => (ht.source u hu).ne
  refine ⟨hc.target ht (fun w _ => Set.notMem_empty w) hne,
    hc.brings hown fun q _ => Set.notMem_empty q, ?_⟩
  rw [h.areas]
  refine hc.adds hb ht ha fun u hu => ⟨hne u hu, ?_⟩
  rintro b hbu rfl
  exact hn u hu hbu

theorem hanging_moves (hb : x.Books) (hok : (hanging caller v a own).Ok x)
    (h : advance x (hanging caller v a own) = some (x', pc')) :
    Moves x (hanging caller v a own) x' pc' := by
  obtain ⟨ht, hown, ha, hap⟩ := hok
  unfold advance at h
  dsimp only at h
  rcases hk : x.vmaAreaHang v a with ⟨ret, y⟩
  rw [hk] at h
  dsimp only at h
  rcases hb.hang ht.tabled hap hk with ⟨hne, rfl⟩ | ⟨rfl, hl, hal⟩
  · rw [if_pos hne] at h
    cases h
    refine .of_same hb ⟨ht, hown, hap, fun q hr => ?_⟩ (fun _ hc => hc) (fun _ hq => hq) ?_
    · have := hr.2
      rw [ha.pgfm] at this
      cases this
    · rintro b hb'
      cases hb'
      exact settled_of_apart hap
  · rw [if_neg (not_not.2 rfl)] at h
    cases h
    obtain ⟨h1, h2, h3⟩ := target_onlyList hl hb ht hown ha fun u hu =>
      hap.2 u (ht.source u hu).tabled
    refine ⟨hl.books hb ht.tabled, ⟨h1, h2, h3, hal⟩, hl.changes.mono (Set.empty_subset _)
      (Set.singleton_subset_iff.2 (.inl (.inr rfl))) (Set.singleton_subset_iff.2 (.inl rfl))
      (Set.empty_subset _), fun _ hc => .inl hc, fun q hq => .inl hq, ?_⟩
    · -- the area is on the list before it is in the page table
      intro b hb' w hw hbw
      have hba : a = b := hb'.elim Option.some.inj Option.some.inj
      subst hba
      right
      rw [(hl.books hb ht.tabled).owner w hw v h1.tabled a hbw hal]
      rfl

theorem hung_moves (hb : x.Books) (hok : (hung caller v a own).Ok x)
    (h : enterNext x caller v a own = some (x', pc')) : Moves x (hung caller v a own) x' pc' := by
  obtain ⟨ht, hown, ha, hal⟩ := hok
  have hlive := hb.mem_live v ht.tabled a hal
  unfold enterNext at h
  dsimp only at h
  split_ifs at h with h1 h2 h3
  · -- the pages of an area of memory are known
    obtain ⟨p, hp, hpa, -⟩ := ha.memory h2.1
    have := VmLayout.pg2pa_lt hp
    rw [← hpa, h2.2] at this
    exact absurd this (by decide)
  · rcases hk : x.hwMmapArea v (x.areas a) with _ | ⟨ret, y⟩
    · rw [hk] at h
      cases h
    · rw [hk] at h
      cases h
      obtain ⟨hm, hout⟩ := hb.enter ht.tabled (hb.fits a hlive) hk
      have hc := hm.changes hb
      have hbrings := hc.brings hown fun q _ => Set.notMem_empty q
      refine .of_memory hb hm ⟨hc.target_empty ht, hbrings, ?_, ?_, ?_⟩
        (fun _ hq => hq.elim) (fun _ hc => hc) (fun q hq => .inl hq) ?_
      · rw [hm.areas]
        exact hc.adds hb ht ha fun w _ => ⟨Set.notMem_empty w, fun b _ => Set.notMem_empty b⟩
      · rw [hm.list]
        exact hal
      · rw [hm.areas, hm.pin]
        exact hout
      · intro b hb' w hw hbw
        cases hb'
        rw [hm.tabled] at hw
        rw [hm.list] at hbw
        right
        rw [hb.owner w hw v ht.tabled a hbw hal]
        rfl

/-- Where a call goes on after `__vm_mmap`. -/
theorem done_ok (ht : x.Target caller v) : (caller.done v).Ok x := by
  cases caller with
  | mmap => trivial
  | dup u rest => exact ⟨ht.source u rfl, ht.rest u rest rfl⟩

theorem refused_ok (ht : x.Target caller v) : (caller.refused v).Ok x := by
  cases caller with
  | mmap => trivial
  | dup u rest => exact (ht.source u rfl).sole

theorem done_free (caller : VmCaller) (v : ℕ) :
    (caller.done v).hand = none ∧ (caller.done v).holds = none := by
  cases caller <;> exact ⟨rfl, rfl⟩

theorem refused_free (caller : VmCaller) (v : ℕ) :
    (caller.refused v).hand = none ∧ (caller.refused v).holds = none := by
  cases caller <;> exact ⟨rfl, rfl⟩

/-- The block of an area that `hw_mmap` has entered. -/
theorem exists_backed (hb : x.Books) (ht : x.Target caller v) (hown : x.Brings own)
    (ha : x.Adds caller own (x.areas a)) (hm : (x.areas a).vmarTyp = .memory)
    (hblock : x.BlockOk (L.pa2pg (x.areas a).pa) (x.areas a)) :
    ∃ o, x.Backed a (L.pa2pg (x.areas a).pa) o ∧
      (∀ b ∈ x.live .vmaArea, x.RefersTo b (L.pa2pg (x.areas a).pa) →
        (x.areas b).prot = (x.areas a).prot) ∧
      (own = some (L.pa2pg (x.areas a).pa) ∨
        ∃ b ∈ x.live .vmaArea, x.RefersTo b (L.pa2pg (x.areas a).pa)) := by
  obtain ⟨p, hp, hpa, hor⟩ := ha.memory hm
  have hpg : L.pa2pg (x.areas a).pa = p := by rw [hpa, VmLayout.pa2pg_pg2pa hp]
  rw [hpg] at hblock ⊢
  have hsize : ∀ o, x.mem.BacksAreas p o → (x.areas a).size = 2 ^ o * pageSize := by
    intro o ho
    rw [← hblock.2.2, ho.order, Nat.one_shiftLeft]
  rcases hor with rfl | ⟨-, u, hu, b, hbu, hr, hprot⟩
  · obtain ⟨⟨o, ho⟩, hnone⟩ := hown p rfl
    exact ⟨o, ⟨ho, hpa, hsize o ho⟩, fun b hbl hr => absurd hr (hnone b hbl), .inl rfl⟩
  · have hbl := hb.mem_live u (ht.source u hu).tabled b hbu
    obtain ⟨o, ho⟩ := hb.refers b hbl p hr
    refine ⟨o, ⟨ho.backs, hpa, hsize o ho.backs⟩, fun c hcl hrc => ?_, .inr ⟨b, hbl, hr⟩⟩
    rw [hb.agree c hcl b hbl p hrc hr, hprot]

/-- The block of an area that has been entered counts one more reference. -/
theorem counted_moves (hb : x.Books) (hok : (entered caller v a own 0).Ok x)
    (hm : (x.areas a).vmarTyp = .memory)
    (hblock : x.BlockOk (L.pa2pg (x.areas a).pa) (x.areas a)) :
    Moves x (entered caller v a own 0) (x.referenced a (L.pa2pg (x.areas a).pa))
      (caller.done v) := by
  obtain ⟨ht, hown, ha, hal, hout⟩ := hok
  have hlive := hb.mem_live v ht.tabled a hal
  obtain ⟨hdh, hdp⟩ := done_free caller v
  obtain ⟨o, hbk, hprot, hor⟩ := exists_backed hb ht hown ha hm hblock
  generalize L.pa2pg (x.areas a).pa = p at hbk hprot hor ⊢
  obtain ⟨hb', hc, hr⟩ := hb.refer hlive hm ha.pgfm hbk hprot
  -- the block is the one that the call brings along, or somebody refers to it already
  have hc' : x.Changes (x.referenced a p) ∅ ∅ {a} {q | own = some q} := by
    rcases hor with rfl | hex
    · exact hc.mono subset_rfl subset_rfl subset_rfl (Set.singleton_subset_iff.2 rfl)
    · refine (hc.of_referred hb ?_).mono subset_rfl subset_rfl subset_rfl (Set.empty_subset _)
      rintro q rfl
      exact hex
  refine ⟨hb', done_ok ⟨ht.tabled, fun u hu => ?_, ht.rest⟩, hc'.mono (Set.empty_subset _)
    (Set.empty_subset _) (Set.singleton_subset_iff.2 (.inl rfl)) (fun q hq => .inl hq), ?_, ?_, ?_⟩
  · exact hc'.filling (ht.source u hu) (Set.notMem_empty u) (Set.notMem_empty v)
  · rw [hdh]
    nofun
  · rw [hdp]
    nofun
  · -- the area is complete
    intro b hb'' w hw hbw
    rw [hdh, or_iff_left nofun] at hb''
    cases hb''
    obtain rfl : w = v := hb.owner w hw v ht.tabled a hbw hal
    refine .inl ⟨fun _ => ?_, fun _ => ?_⟩
    · rw [hr.2]
      nofun
    · have harea : (x.referenced a p).areas a = { x.areas a with pgfm := some p } :=
        Function.update_self (β := fun _ => VmaArea) _ _ _
      rw [harea]
      exact hout rfl

theorem entered_moves (hb : x.Books) (hok : (entered caller v a own ret).Ok x)
    (h : countNext x caller v a own ret = some (x', pc')) :
    Moves x (entered caller v a own ret) x' pc' := by
  unfold countNext at h
  dsimp only at h
  split_ifs at h with h1 h2 h3 h4
  · cases h
    obtain ⟨ht, hown, ha, hal, -⟩ := hok
    obtain ⟨hl, hap⟩ := hb.unhang ht.tabled hal
    have hn : ∀ u, caller.source = some u → a ∉ x.list u := fun u hu hau =>
      (ht.source u hu).ne (hb.owner u (ht.source u hu).tabled v ht.tabled a hau hal)
    obtain ⟨h4, h5, h6⟩ := target_onlyList hl hb ht hown ha hn
    refine ⟨hl.books hb ht.tabled, ⟨h4, h5, hap, fun q hr => ?_⟩, hl.changes.mono
      (Set.empty_subset _) (Set.singleton_subset_iff.2 (.inl (.inl rfl)))
      (Set.singleton_subset_iff.2 (.inl rfl)) (Set.empty_subset _), fun _ hc => .inl hc,
      fun q hq => .inl hq, ?_⟩
    · have := hr.2
      rw [h6.pgfm] at this
      cases this
    · intro b hb' w hw hbw
      have hba : a = b := hb'.elim Option.some.inj Option.some.inj
      subst hba
      exact absurd hbw (hap.2 w hw)
  · cases h
    obtain rfl := not_not.1 h2
    exact counted_moves hb hok h3 h4
  · cases h
    obtain ⟨ht, -, -, hal, hout⟩ := hok
    obtain ⟨hdh, hdp⟩ := done_free caller v
    refine .of_same hb (done_ok ht) ?_ ?_ ?_
    · rw [hdh]
      nofun
    · rw [hdp]
      nofun
    · intro b hb' w hw hbw
      cases hb'
      obtain rfl : w = v := hb.owner w hw v ht.tabled a hbw hal
      exact .inl ⟨fun hm => absurd hm h3, fun _ => hout (not_not.1 h2)⟩

theorem discarding_moves (hb : x.Books) (hok : (discarding caller v a own).Ok x)
    (h : advance x (discarding caller v a own) = some (x', pc')) :
    Moves x (discarding caller v a own) x' pc' := by
  obtain ⟨ht, hown, hbare⟩ := hok
  obtain ⟨y, hy, heq⟩ := Option.map_eq_some_iff.1 h
  cases heq
  have ho := Books.freeArea hbare.apart hbare.unused hy
  have hc := ho.changes
  refine ⟨ho.books hb, ⟨hc.target_empty ht, hc.brings hown fun q _ => Set.notMem_empty q⟩,
    hc.mono (Set.empty_subset _) (Set.empty_subset _) (Set.singleton_subset_iff.2 (.inl rfl))
      (Set.empty_subset _), nofun, fun q hq => .inl hq, ?_⟩
  · intro b hb' w hw hbw
    rw [or_iff_left nofun] at hb'
    cases hb'
    rw [ho.tabled] at hw
    rw [ho.list] at hbw
    exact absurd hbw (ho.apart w hw)

theorem failed_moves (hb : x.Books) (hok : (failed caller v own).Ok x)
    (h : advance x (failed caller v own) = some (x', pc')) :
    Moves x (failed caller v own) x' pc' := by
  obtain ⟨ht, hown⟩ := hok
  -- whatever is left in `ref_count`, the block is held
  have hback : ∀ p, own = some p → ∀ r, Moves x (failed caller v own)
      (x.setPage p { x.mem.pages p with pgtype := .buddyAllocator, refCount := r })
      (returned caller v p) := by
    rintro p rfl r
    obtain ⟨hm, hp⟩ := hb.release (hown p rfl) r
    refine .of_memory hb hm ⟨(hm.changes hb).target ht (fun w _ => Set.notMem_empty w)
      fun w _ => Set.notMem_empty w, hp⟩ ?_ nofun (fun q hq => .inl hq) nofun
    rintro q rfl
    rfl
  cases own with
  | none =>
    cases h
    obtain ⟨h1, h2⟩ := refused_free caller v
    refine .of_same hb (refused_ok ht) ?_ ?_ nofun
    · rw [h1]
      nofun
    · rw [h2]
      nofun
  | some p =>
    cases caller with
    | mmap =>
      cases h
      exact hback p rfl 0
    | dup u rest =>
      cases h
      exact hback p rfl (x.mem.pages p).refCount

theorem returned_moves (hb : x.Books) (hok : (returned caller v p).Ok x)
    (h : advance x (returned caller v p) = some (x', pc')) :
    Moves x (returned caller v p) x' pc' := by
  obtain ⟨ht, hp⟩ := hok
  obtain ⟨m, hm, heq⟩ := Option.map_eq_some_iff.1 h
  cases heq
  obtain ⟨h1, h2⟩ := refused_free caller v
  have hmem := hb.giveBack hp hm
  refine .of_memory hb hmem (refused_ok ((hmem.changes hb).target_empty ht)) ?_ ?_ ?_ nofun
  · rintro q rfl
    rfl
  · rw [h1]
    nofun
  · rw [h2]
    nofun

/-! ### Removing an area -/

/-- An area is taken off its list. -/
theorem unhang_moves (hb : x.Books) (hv : v ∈ x.tabled) (ha : a ∈ x.list v)
    (hne : whole = true → v ≠ x.kernVma) (hset : x.Settled v a)
    (hout : ∀ w, (x.areas a).Covers w → ¬ x.pin v w) (hhand : pc.hand = none)
    (hpc : pc' = if (x.areas a).vmarTyp = .memory then unhung whole v a else clearing whole v a) :
    Moves x pc (x.vmaAreaUnhang v a) pc' := by
  obtain ⟨hl, hap⟩ := hb.unhang hv ha
  have hlive := hb.mem_live v hv a ha
  have hareas : (x.vmaAreaUnhang v a).areas = x.areas := hl.areas
  have hworks : (x.vmaAreaUnhang v a).Works whole v := by
    refine ⟨by rw [hl.tabled]; exact hv, fun hw => ?_⟩
    rw [hl.kernVma]
    exact hne hw
  have houts : ∀ w, ((x.vmaAreaUnhang v a).areas a).Covers w → ¬ (x.vmaAreaUnhang v a).pin v w := by
    rw [hareas, hl.pin]
    exact hout
  have hbooks := hl.books hb hv
  have hchanges : ∀ {pc₁ : VmPc}, pc₁.writes = some v → pc₁.hand = some a →
      x.Changes (x.vmaAreaUnhang v a) (born pc pc₁) (touched pc pc₁) (handled pc pc₁)
        (atHand x pc) := by
    intro pc₁ hw hh
    exact hl.changes.mono (Set.empty_subset _) (Set.singleton_subset_iff.2 (.inl (.inr hw)))
      (Set.singleton_subset_iff.2 (.inr hh)) (Set.empty_subset _)
  have hsettled : ∀ {pc₁ : VmPc}, pc₁.hand = some a → ∀ b, pc.hand = some b ∨ pc₁.hand = some b →
      ∀ w ∈ (x.vmaAreaUnhang v a).tabled, b ∈ (x.vmaAreaUnhang v a).list w →
        (x.vmaAreaUnhang v a).Settled w b ∨ pc₁.hangs = some (w, b) := by
    intro pc₁ hh b hb' w hw hbw
    rw [hhand, hh, or_iff_right nofun] at hb'
    cases hb'
    exact absurd hbw (hap.2 w hw)
  by_cases ht : (x.areas a).vmarTyp = .memory
  · rw [if_pos ht] at hpc
    subst hpc
    obtain ⟨p, hp⟩ := Option.ne_none_iff_exists'.1 (hset.backed ht)
    refine ⟨hbooks, ⟨hworks, hap, ⟨houts, fun _ _ => ?_⟩, ?_⟩, hchanges rfl rfl, ?_, nofun,
      hsettled rfl⟩
    · -- until the reference is dropped the area itself guards its pages
      refine ⟨a, hap.1, p, ?_, rfl, rfl, rfl⟩
      unfold RefersTo
      rw [hareas]
      exact ⟨ht, hp⟩
    · rw [hareas]
      exact ht
    · rintro b hb'
      cases hb'
      exact .inr (.inr ⟨v, hv, rfl, ha⟩)
  · rw [if_neg ht] at hpc
    subst hpc
    refine ⟨hbooks, ⟨hworks, ⟨hap, fun q hr => ?_⟩, houts, fun hm => ?_⟩, hchanges rfl rfl, ?_,
      nofun, hsettled rfl⟩
    · have := hr.1
      rw [hareas] at this
      exact ht this
    · rw [hareas] at hm
      exact absurd hm ht
    · rintro b hb'
      cases hb'
      exact .inr (.inr ⟨v, hv, rfl, ha⟩)

theorem emptying_moves (hb : x.Books) (hok : (emptying v).Ok x)
    (hcomplete : Complete x (emptying v) v) (h : emptyNext x v = some (x', pc')) :
    Moves x (emptying v) x' pc' := by
  obtain ⟨hv, hne⟩ := hok
  unfold emptyNext at h
  split at h
  · rename_i a rest hlist
    have ha : a ∈ x.list v := by
      rw [hlist]
      exact List.mem_cons_self
    obtain ⟨rfl, hpc⟩ := Prod.mk.inj (Option.some.inj h)
    refine unhang_moves hb hv ha (fun _ => hne) ((hcomplete hv a ha).resolve_right nofun) ?_ rfl
      hpc.symm
    rw [VmInv.pin_eq_noPin hne]
    exact fun _ _ => id
  · rcases hk : x.hwUnmapAll v with _ | y
    · rw [hk] at h
      cases h
    · rw [hk] at h
      cases h
      have hm := hb.clearAll hv hne hk
      exact .of_memory hb hm ((hm.changes hb).sole ⟨hv, hne⟩ (Set.notMem_empty v))
        (fun _ hq => hq.elim) nofun nofun nofun

/-- What is left of an area when its reference is dropped. -/
theorem leaving_onlyReference {pg : Pageframe} (h : x.OnlyReference x' a p none pg)
    (hl : x.Leaving v a) (hg : x.Guarded a → x'.Guarded a) : x'.Leaving v a := by
  refine ⟨?_, hg hl.guarded⟩
  rw [h.area, h.pin]
  exact hl.outside

/-- A reference is dropped; the last one only when the entries of the area are not valid. -/
theorem unhung_moves (hb : x.Books) (hok : (unhung whole v a).Ok x)
    (hlast : ∀ p, (x.areas a).pgfm = some p → (x.mem.pages p).refCount = 1 →
      (x.areas a).prot % 2 = 0) (h : dropNext x whole v a = some (x', pc')) :
    Moves x (unhung whole v a) x' pc' := by
  obtain ⟨hworks, hap, hleave, ht⟩ := hok
  unfold dropNext at h
  split at h
  · rename_i hnone
    split_ifs at h
    cases h
    -- lazy allocation: there is no block
    refine .of_same hb ⟨hworks, hap, fun q hr => ?_⟩ (fun _ hc => hc) nofun ?_
    · have := hr.2
      rw [hnone] at this
      cases this
    · intro b hb'
      cases hb'
      exact settled_of_apart hap
  · rename_i p hp
    have hr : x.RefersTo a p := ⟨ht, hp⟩
    have hsub : ({a} : Set ℕ) ⊆ {b | some a = some b ∨ some a = some b} :=
      Set.singleton_subset_iff.2 (.inl rfl)
    split_ifs at h with hblock
    dsimp only at h
    split_ifs at h with hzero
    · -- the last reference
      obtain ⟨rfl, rfl⟩ := Prod.mk.inj (Option.some.inj h)
      have href := OnlyReference.of_set x a p none { x.mem.pages p with
        refCount := (x.mem.pages p).refCount - 1, pgtype := .buddyAllocator }
      obtain ⟨hb', hc, hap', hun, hg, hloose⟩ := hb.drop hap hr href rfl rfl rfl
        (.inr ⟨by omega, rfl⟩) (hlast p hp)
      refine ⟨hb', ⟨hc.works hworks (Set.notMem_empty v), ⟨hap', hun⟩,
        leaving_onlyReference href hleave hg, hloose rfl⟩, hc.mono (Set.empty_subset _)
        (Set.empty_subset _) hsub (Set.empty_subset _), fun _ hc => .inl hc, ?_, ?_⟩
      · intro q hq
        cases hq
        exact .inr (.inr ⟨a, hap.1, hr⟩)
      · intro b hb''
        cases hb''.elim id id
        exact settled_of_apart hap'
    · -- somebody else still refers to the block
      obtain ⟨rfl, rfl⟩ := Prod.mk.inj (Option.some.inj h)
      have href := OnlyReference.of_set x a p none { x.mem.pages p with
        refCount := (x.mem.pages p).refCount - 1 }
      obtain ⟨hb', hc, hap', hun, hg, -⟩ := hb.drop hap hr href rfl rfl rfl
        (.inl ⟨by omega, hblock.2.1⟩) (hlast p hp)
      refine ⟨hb', ⟨hc.works hworks (Set.notMem_empty v), ⟨hap', hun⟩,
        leaving_onlyReference href hleave hg⟩, hc.mono (Set.empty_subset _)
        (Set.empty_subset _) hsub (Set.empty_subset _), fun _ hc => .inl hc, nofun, ?_⟩
      intro b hb''
      cases hb''.elim id id
      exact settled_of_apart hap'

theorem freeing_moves (hb : x.Books) (hok : (freeing whole v a p).Ok x)
    (h : advance x (freeing whole v a p) = some (x', pc')) :
    Moves x (freeing whole v a p) x' pc' := by
  obtain ⟨hworks, hbare, hleave, hp⟩ := hok
  obtain ⟨m, hm, heq⟩ := Option.map_eq_some_iff.1 h
  cases heq
  have hmem := hb.giveBack hp hm
  have hc := hmem.changes hb
  have hbare' := hc.bare hbare (Set.notMem_empty a)
  refine .of_memory hb hmem ⟨hc.works hworks (Set.notMem_empty v), hbare',
    hc.leaving hleave hbare.apart.1 (Set.notMem_empty a)⟩ ?_ (fun _ hc => hc) nofun ?_
  · rintro q rfl
    rfl
  · intro b hb'
    cases hb'
    exact settled_of_apart hbare'.apart

theorem clearing_moves (hb : x.Books) (hok : (clearing whole v a).Ok x)
    (h : advance x (clearing whole v a) = some (x', pc')) :
    Moves x (clearing whole v a) x' pc' := by
  obtain ⟨hworks, hbare, hleave⟩ := hok
  unfold advance at h
  dsimp only at h
  rcases hk : x.hwUnmapArea v (x.areas a) with _ | y
  · rw [hk] at h
    cases h
  · rw [hk] at h
    cases h
    have hmem := hb.clear hworks.tabled hleave.outside hk
    have hc := hmem.changes hb
    have hbare' := hc.bare hbare (Set.notMem_empty a)
    refine .of_memory hb hmem ⟨hc.works hworks (Set.notMem_empty v), hbare'⟩ (fun _ hq => hq.elim)
      (fun _ hc => hc) nofun ?_
    intro b hb'
    cases hb'
    exact settled_of_apart hbare'.apart

theorem cleared_moves (hb : x.Books) (hok : (cleared whole v a).Ok x)
    (h : advance x (cleared whole v a) = some (x', pc')) :
    Moves x (cleared whole v a) x' pc' := by
  obtain ⟨hworks, hbare⟩ := hok
  obtain ⟨y, hy, heq⟩ := Option.map_eq_some_iff.1 h
  obtain ⟨rfl, rfl⟩ := Prod.mk.inj heq
  have ho := Books.freeArea hbare.apart hbare.unused hy
  have hc := ho.changes
  have hw := hc.works hworks (Set.notMem_empty v)
  have hsettled : ∀ {pc₁ : VmPc}, pc₁.hand = none → ∀ b, some a = some b ∨ pc₁.hand = some b →
      ∀ w ∈ y.tabled, b ∈ y.list w → y.Settled w b ∨ pc₁.hangs = some (w, b) := by
    intro pc₁ hh b hb' w hw hbw
    rw [hh, or_iff_left nofun] at hb'
    cases hb'
    rw [ho.tabled] at hw
    rw [ho.list] at hbw
    exact absurd hbw (ho.apart w hw)
  cases whole with
  | false => exact ⟨ho.books hb, trivial, hc.mono (Set.empty_subset _) (Set.empty_subset _)
      (Set.singleton_subset_iff.2 (.inl rfl)) (Set.empty_subset _), nofun, nofun, hsettled rfl⟩
  | true => exact ⟨ho.books hb, ⟨hw.tabled, hw.ne rfl⟩, hc.mono (Set.empty_subset _)
      (Set.empty_subset _) (Set.singleton_subset_iff.2 (.inl rfl)) (Set.empty_subset _), nofun,
      nofun, hsettled rfl⟩

theorem closing_moves (hb : x.Books) (hok : (closing v).Ok x)
    (h : advance x (closing v) = some (x', pc')) : Moves x (closing v) x' pc' := by
  obtain ⟨y, hy, heq⟩ := Option.map_eq_some_iff.1 h
  cases heq
  exact moves_of_onlySpace hb (Books.freeSpace (mem_tabled.1 hok.tabled).1 hok.ne hy) rfl rfl

/-! ### Sections and calls -/

/-- The area in hand loses the last reference to its block only when its entries are not valid. -/
def LastInvalid (x : VmState A) (pc : VmPc) : Prop :=
  ∀ whole v a p, pc = unhung whole v a → (x.areas a).pgfm = some p →
    (x.mem.pages p).refCount = 1 → (x.areas a).prot % 2 = 0

/-- Every section of a call. -/
theorem advance_moves (hb : x.Books) (hok : pc.Ok x)
    (hcomplete : ∀ v, pc.reads = some v ∨ pc.writes = some v → Complete x pc v)
    (hlast : LastInvalid x pc) (h : advance x pc = some (x', pc')) : Moves x pc x' pc' := by
  cases pc with
  | idle => cases h
  | made u v => exact made_moves hb hok h
  | unmade v => exact unmade_moves hb hok h
  | opened u v => exact opened_moves hb hok h
  | copying u v rest =>
    cases rest with
    | nil =>
      cases h
      exact .of_same hb trivial nofun nofun nofun
    | cons b rest => exact copyNext_moves hb hok (hcomplete u (.inl rfl)) h
  | taken c v area p order => exact taken_moves hb hok h
  | adding c v area own => exact adding_moves hb hok h
  | hanging c v a own => exact hanging_moves hb hok h
  | hung c v a own => exact hung_moves hb hok h
  | entered c v a own ret => exact entered_moves hb hok h
  | discarding c v a own => exact discarding_moves hb hok h
  | failed c v own => exact failed_moves hb hok h
  | returned c v p => exact returned_moves hb hok h
  | emptying v => exact emptying_moves hb hok (hcomplete v (.inr rfl)) h
  | unhung whole v a => exact unhung_moves hb hok (hlast whole v a · rfl) h
  | freeing whole v a p => exact freeing_moves hb hok h
  | clearing whole v a => exact clearing_moves hb hok h
  | cleared whole v a => exact cleared_moves hb hok h
  | closing v => exact closing_moves hb hok h

theorem makeNext_moves (hb : x.Books) (hu : u = 0 ∨ u ∈ x.tabled)
    (h : makeNext x u = (x', pc')) : Moves x idle x' pc' := by
  unfold makeNext at h
  split_ifs at h with hargs
  · cases h
    exact .of_same hb trivial nofun nofun nofun
  · rcases hk : x.objAlloc .vma with ⟨_ | v, y⟩
    · rw [hk] at h
      cases h
      obtain ⟨hat, hlive⟩ := objAlloc_none hk
      exact .of_memory hb (.of_at hb hat hlive) trivial (fun _ hq => hq.elim) nofun nofun nofun
    · rw [hk] at h
      cases h
      obtain ⟨hs, hlive, hfresh⟩ := hb.allocSpace hk
      have hut := hu.resolve_left fun h0 => hargs (.inl h0)
      have hne : u ≠ v := fun he => hfresh (he ▸ (mem_tabled.1 hut).1)
      refine ⟨hs.books hb, ⟨hs.tabled_iff.2 ⟨hne, hut⟩, hlive, hs.zero, ?_⟩,
        hs.changes.mono (Set.singleton_subset_iff.2 (.inr rfl))
          (Set.singleton_subset_iff.2 (.inr (.inr rfl))) (Set.empty_subset _) (Set.empty_subset _),
        nofun, nofun, nofun⟩
      rw [hs.kernVma]
      exact hs.ne

theorem unhangNext_moves {va size : ℕ} {typ : VmarType} (hb : x.Books) (hv : v = 0 ∨ v ∈ x.tabled)
    (ht : typ ≠ .kernel) (h : unhangNext x v va size typ = some (x', pc'))
    (hcomplete : pc'.writes = some v → Complete x idle v) : Moves x idle x' pc' := by
  by_cases hargs : v ≠ 0 ∧ 0 < size ∧ va % pageSize = 0 ∧ size % pageSize = 0
  · have hvt := hv.resolve_left hargs.1
    unfold unhangNext at h
    rw [if_pos hargs] at h
    rcases hfind : x.findArea v va size with _ | a
    · rw [hfind] at h
      cases h
      exact .of_same hb trivial nofun nofun nofun
    · have ha := (findArea_some (hb.listed v hvt) hfind).1
      rw [hfind] at h
      dsimp only at h
      rw [if_pos (findArea_some (hb.listed v hvt) hfind).2] at h
      by_cases htyp : (x.areas a).vmarTyp = typ
      · rw [if_neg (not_not.2 htyp)] at h
        obtain ⟨rfl, hpc⟩ := Prod.mk.inj (Option.some.inj h)
        have hw : pc'.writes = some v := by
          rw [← hpc]
          split_ifs <;> rfl
        have hset := (hcomplete hw hvt a ha).resolve_right nofun
        have hfalse : false = true → v ≠ x.kernVma := fun hc => absurd hc Bool.false_ne_true
        refine unhang_moves hb hvt ha hfalse hset (hset.outside (by rw [htyp]; exact ht)) rfl ?_
        rw [htyp]
        exact hpc.symm
      · rw [if_pos htyp] at h
        cases h
        exact .of_same hb trivial nofun nofun nofun
  · unfold unhangNext at h
    rw [if_neg hargs] at h
    cases h

/-- The first section of a call. -/
theorem start_moves {call : VmCall} (hb : x.Books) (hwords : call.Words)
    (hvma : call.vma = 0 ∨ call.vma ∈ x.tabled) (h : start x call = some (x', pc'))
    (hcomplete : ∀ v, pc'.writes = some v → Complete x idle v) : Moves x idle x' pc' := by
  cases call with
  | vmaAlloc => exact makeNext_moves hb (.inr hb.kern) (Option.some.inj h)
  | vmaDup u => exact makeNext_moves hb hvma (Option.some.inj h)
  | vmaFree v =>
    unfold start at h
    dsimp only at h
    split_ifs at h with hargs
    · cases h
      exact .of_same hb trivial nofun nofun nofun
    · cases h
      have hvt := hvma.resolve_left fun h0 => hargs (.inl h0)
      exact .of_same hb ⟨hvt, fun he => hargs (.inr (.inl he))⟩ nofun nofun nofun
  | vmIomap v va pa prot size =>
    unfold start at h
    dsimp only at h
    split_ifs at h with hargs
    · cases h
      have hvt := hvma.resolve_left hargs.2.2.1
      exact .of_same hb ⟨⟨hvt, nofun, nofun⟩, nofun, rfl, hwords.2.1, nofun⟩ nofun nofun nofun
    · cases h
      exact .of_same hb trivial nofun nofun nofun
  | vmIounmap v va size =>
    unfold start at h
    dsimp only at h
    split_ifs at h with hargs
    · cases h
      exact .of_same hb trivial nofun nofun nofun
    · have ht : VmarType.io ≠ .kernel := nofun
      exact unhangNext_moves (v := v) hb hvma ht h (hcomplete v)
  | vmMmap v va order prot =>
    unfold start at h
    dsimp only at h
    split_ifs at h with hargs
    · cases h
      exact .of_same hb trivial nofun nofun nofun
    · have hvt := hvma.resolve_left fun h0 => hargs (.inl h0)
      rcases hk : x.bkpAllocZero order with ⟨_ | p, y⟩
      · rw [hk] at h
        cases h
        exact .of_memory hb (hb.takeNone hk) trivial (fun _ hq => hq.elim) nofun nofun nofun
      · rw [hk] at h
        cases h
        obtain ⟨hm, hloose, hsub, hblock, -⟩ := hb.take hk
        have hp : p < L.pageNums := A.block_lt hblock
        refine .of_memory hb hm
          ⟨⟨?_, nofun, nofun⟩, hloose, rfl, ?_, fun _ => ⟨p, hp, rfl, .inl rfl⟩⟩
          (fun _ hq => hq.elim) nofun (fun q hq => ?_) nofun
        · rw [hm.tabled]
          exact hvt
        · have := VmLayout.pg2pa_lt hp
          show L.pg2pa p < 2 ^ 64
          omega
        · cases hq
          exact .inr (hsub (self_mem_pagesOf p _))
  | vmUnmap v va order =>
    unfold start at h
    dsimp only at h
    split_ifs at h with hargs
    · cases h
      exact .of_same hb trivial nofun nofun nofun
    · have ht : VmarType.memory ≠ .kernel := nofun
      exact unhangNext_moves (v := v) hb hvma ht h (hcomplete v)

end VmPc

end AcoOs
