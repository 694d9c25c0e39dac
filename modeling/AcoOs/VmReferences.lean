/-
Blocks and the areas that refer to them.

* **`reference_counts`** — in every run the counter of a block is the number of areas that refer
  to it, and the block is given back with the last of them;
* **`vma_free_gives_back`** — freeing an address space gives back all its pages but one: the root
  of its page table stays behind.
-/
import AcoOs.VmCopy

namespace AcoOs

open Memory

variable {L : VmLayout} {A : VmEnv L}

namespace VmState

variable {x x' y : VmState A} {v a p o q : ℕ}

/-! ### References -/

/-- Area `a` is one of memory, and its `pgfm` points to block `p`. -/
def RefersTo (x : VmState A) (a p : ℕ) : Prop :=
  (x.areas a).vmarTyp = .memory ∧ (x.areas a).pgfm = some p

instance (x : VmState A) (p : ℕ) : DecidablePred fun a => x.RefersTo a p := fun _ =>
  inferInstanceAs (Decidable (_ ∧ _))

/-- The number of areas of all address spaces that refer to block `p`. -/
def references (x : VmState A) (p : ℕ) : ℕ :=
  ∑ v ∈ x.live .vma, ((x.list v).filter fun a => x.RefersTo a p).length

/-- Every area is on one list, once. -/
theorem references_eq (h : x.VmInv) (p : ℕ) :
    x.references p = (x.backed (x.live .vmaArea) p).card := by
  have hunion : x.backed (x.live .vmaArea) p =
      (x.live .vma).biUnion fun v => ((x.list v).filter fun a => x.RefersTo a p).toFinset := by
    ext a
    rw [Finset.mem_biUnion]
    unfold backed
    rw [Finset.mem_filter, h.live_iff]
    constructor
    · rintro ⟨⟨v, hv, ha⟩, href⟩
      refine ⟨v, hv, List.mem_toFinset.2 (List.mem_filter.2 ⟨ha, ?_⟩)⟩
      exact decide_eq_true href
    · rintro ⟨v, hv, ha⟩
      obtain ⟨hal, href⟩ := List.mem_filter.1 (List.mem_toFinset.1 ha)
      exact ⟨⟨v, hv, hal⟩, of_decide_eq_true href⟩
  rw [hunion, Finset.card_biUnion]
  · refine Finset.sum_congr rfl fun v hv => ?_
    exact (List.toFinset_card_of_nodup ((h.listed v hv).nodup.filter _)).symm
  · intro v hv w hw hne
    refine Finset.disjoint_left.2 fun a hav haw => hne ?_
    have hav' := (List.mem_filter.1 (List.mem_toFinset.1 hav)).1
    have haw' := (List.mem_filter.1 (List.mem_toFinset.1 haw)).1
    exact h.owner v hv w hw a hav' haw'

theorem references_ne_zero (h : x.VmInv) :
    x.references p ≠ 0 ↔ ∃ a ∈ x.live .vmaArea, x.RefersTo a p := by
  rw [references_eq h, Finset.card_ne_zero]
  constructor
  · rintro ⟨a, ha⟩
    obtain ⟨h1, h2⟩ := Finset.mem_filter.1 ha
    exact ⟨a, h1, h2⟩
  · rintro ⟨a, h1, h2⟩
    exact ⟨a, Finset.mem_filter.2 ⟨h1, h2⟩⟩

/-! ### A call and the blocks -/

/-- A block of a freed address space is given back, or an area elsewhere refers to it. -/
theorem Released.backs_or (hr : y.Released x' v) (hb : y.mem.BacksAreas p o) (h : y.VmInv) :
    x'.mem.BacksAreas p o ∨ pagesOf p o ⊆ x'.mem.freePages := by
  by_cases honly : ∀ b ∈ y.live .vmaArea, (y.areas b).pgfm = some p → b ∈ y.list v
  · exact .inr fun q hq => (hr.free q).2 (.inr (.inr ⟨p, o, hb, hq, honly⟩))
  · left
    push Not at honly
    obtain ⟨b, hbl, hbp, hbv⟩ := honly
    have hb' : b ∈ x'.live .vmaArea := (hr.liveAreas b).2 ⟨hbl, hbv⟩
    have ht := h.memory_of_pgfm hbl hbp
    obtain ⟨p₁, o₁, h1, h2, -, h4⟩ :=
      (hr.inv.areaOk b hb').backed (by rw [hr.areas b hbv]; exact ht)
    obtain ⟨p₂, o₂, h5, h6, -, h8⟩ := (h.areaOk b hbl).backed ht
    rw [hr.areas b hbv] at h1 h4
    -- the order is the one that the area has the size of
    have ho : o₁ = o₂ :=
      Nat.pow_right_injective le_rfl (Nat.eq_of_mul_eq_mul_right (by decide) (h4.symm.trans h8))
    rw [hbp] at h1 h5
    cases h1
    cases h5
    rwa [ho, ← hb.order_unique h6] at h2

/-- After a call a block for areas is one still, or all its pages are free. -/
theorem Effect.backs_or {call : VmCall} (he : x.Effect call x') (h : x.Inv)
    (hb : x.mem.BacksAreas p o) : x'.mem.BacksAreas p o ∨ pagesOf p o ⊆ x'.mem.freePages := by
  cases he with
  | same => exact .inl hb
  | refused hv hr => exact .inl (hb.untouched (hr.kept.backs p o hb))
  | added hv _ ha => exact .inl (ha.backs p o hb)
  | removed hv ha ht hr =>
    rcases hr.backs_or hb with hb' | ⟨-, -, -, hfree⟩
    · exact .inl hb'
    · exact .inr hfree
  | released hv hne hr => exact hr.backs_or hb h.vm
  | undone hu ho hd hr =>
    have hg := hd.grown ho.inv (ho.live_iff.2 (.inl rfl))
    exact hr.backs_or (hg.backs p o (ho.backs p o hb)) hg.inv
  | done hu ho hd =>
    have hg := hd.grown ho.inv (ho.live_iff.2 (.inl rfl))
    exact .inl (hg.backs p o (ho.backs p o hb))

/-- Between calls the areas refer to blocks for areas only, and to all of them. -/
theorem Inv.references_backs (h : x.Inv) (hb : x.mem.BacksAreas p o) : x.references p ≠ 0 := by
  obtain ⟨a, ha, href⟩ := h.referenced p hb.type
  exact (references_ne_zero h.vm).2 ⟨a, ha, href⟩

/-- The pages of a block are free just when no area refers to it any more. -/
theorem Effect.references_eq_zero {call : VmCall} (he : x.Effect call x') (h : x.Inv)
    (hb : x.mem.BacksAreas p o) : (x'.references p = 0 ↔ pagesOf p o ⊆ x'.mem.freePages) ∧
      (x'.references p ≠ 0 → x'.mem.BacksAreas p o) := by
  have hinv' := he.inv h
  have hself := self_mem_pagesOf p o
  rcases he.backs_or h hb with hb' | hfree
  · have hne := hinv'.references_backs hb'
    exact ⟨⟨fun h0 => absurd h0 hne, fun hsub => absurd (hsub hself)
      (Spaces.backs_notMem_free hb' hself)⟩, fun _ => hb'⟩
  · have h0 : x'.references p = 0 := by
      by_contra hne
      obtain ⟨a, ha, href⟩ := (references_ne_zero hinv'.vm).1 hne
      exact hinv'.vm.pgfm_notMem ha href.2 (hfree hself)
    exact ⟨⟨fun _ => hfree, fun _ => h0⟩, fun hne => absurd h0 hne⟩

end VmState

open VmState

/-- In every run the counters of the blocks are exact, the callbacks find the blocks they assert,
and a block is given back with its last area. -/
theorem reference_counts (x : VmState A) (h : (vmRuns A).Reachable x) :
    (∀ p, (x.mem.pages p).pgtype = .vmaArea →
      (x.mem.pages p).refCount = x.references p ∧ 1 ≤ x.references p ∧
      (x.mem.pages p).buddyFlags = flagHead ∧
      ∀ v ∈ x.live .vma, ∀ a ∈ x.list v, x.RefersTo a p →
        (x.areas a).size = 2 ^ (x.mem.pages p).buddyOrder * pageSize) ∧
    ∀ call : VmCall, call.Valid x → x.exec call ≠ .error .block ∧
      ∀ ret x', x.exec call = .ok (ret, x') → ∀ p o, x.mem.BacksAreas p o →
        (x'.references p = 0 ↔ pagesOf p o ⊆ x'.mem.freePages) ∧
        (x'.references p ≠ 0 → x'.mem.BacksAreas p o) := by
  have hinv := inv_reachable h
  refine ⟨fun p hp => ?_, fun call hc => ?_⟩
  · -- a block for areas backs one, by the invariant
    obtain ⟨o, hb⟩ := hinv.vm.spaces.backs p hp
    refine ⟨?_, Nat.one_le_iff_ne_zero.2 (hinv.references_backs hb), hb.head, ?_⟩
    · rw [references_eq hinv.vm]
      exact hinv.vm.refCount p hp
    · rintro v hv a ha ⟨ht, hap⟩
      obtain ⟨p', o', hp', hb', -, hsize⟩ := (hinv.vm.list_ok hv ha).backed ht
      rw [hap] at hp'
      cases hp'
      rw [hsize, hb'.order]
  · -- whatever the call has done, by `Effect`
    rcases exec_effect hinv hc with ⟨e, he, hne⟩ | ⟨ret', y, he, heff⟩
    · rw [he]
      refine ⟨fun hbad => hne (Except.error.inj hbad), fun ret x' hret => ?_⟩
      cases hret
    · rw [he]
      refine ⟨fun hbad => ?_, fun ret x' hret p o hb => ?_⟩
      · cases hbad
      · cases hret
        exact heff.references_eq_zero hinv hb

/-- The block of a page of memory of the kernel has one reference. -/
theorem reference_counts_page : ∃ (x : VmState vmMachine) (p : ℕ), (vmRuns vmMachine).Reachable x ∧
    (x.mem.pages p).pgtype = .vmaArea ∧ (x.mem.pages p).refCount = x.references p ∧
    1 ≤ x.references p := by
  obtain ⟨s, x, text, data, r, a, hs, hb, hx, ha, hreach, hn⟩ := vmMachine_mmap
  have hal : a ∈ x.live .vmaArea := by
    rw [ha.live]
    exact Finset.mem_insert_self _ _
  obtain ⟨p, o, -, hback, -⟩ := (ha.inv.areaOk a hal).backed (by rw [ha.made]; rfl)
  have hcounts := (reference_counts x hreach).1 p hback.type
  exact ⟨x, p, hreach, hback.type, hcounts.1, hcounts.2.1⟩

/-! ### What `vma_free` gives back -/

/-- The pages that were taken from the buddy allocator for address space `v`: those of its page
table, and the blocks that no other address space refers to. -/
def VmState.TakenFor (x : VmState A) (v q : ℕ) : Prop :=
  q ∈ x.mem.tables 2 (x.root v) ∨ x.OnlyBy v q

/-- `vma_free` gives back the pages taken for an address space, all but the root of its page
table; so it never gives back everything. -/
theorem vma_free_gives_back (x : VmState A) (h : (vmRuns A).Reachable x) (v : ℕ)
    (hv : v ∈ x.live .vma) (hne : v ≠ x.kernVma) (x' : VmState A) (hret : x.vmaFree v = .ok x') :
    (¬ ∀ q, x.TakenFor v q → q ∈ x'.mem.freePages) ∧
    ∀ q, x.TakenFor v q → (q ∈ x'.mem.freePages ↔ q ≠ x.root v) := by
  have hinv := inv_reachable h
  have hr : x.Released x' v := by
    rcases vmaFree_cases hinv.vm hinv.referenced hv hne with ⟨he, -⟩ | ⟨y, he, hr⟩
    · rw [he] at hret
      cases hret
    · rw [he] at hret
      cases hret
      exact hr
  have htab := hinv.vm.spaces.table v hv
  have hroot : x.root v ∈ x.mem.tables 2 (x.root v) := root_mem_tables x.mem 2 _
  have hiff : ∀ q, x.TakenFor v q → (q ∈ x'.mem.freePages ↔ q ≠ x.root v) := by
    intro q hq
    rw [hr.free]
    constructor
    · rintro (hf | ⟨-, hqr⟩ | ⟨p, o, hb, hqp, -⟩) rfl
      · exact htab.apart _ hroot hf
      · exact hqr rfl
      · exact hinv.vm.spaces.block_apart v hv p o hb _ hroot hqp
    · intro hqr
      rcases hq with ht | honly
      · exact .inr (.inl ⟨ht, hqr⟩)
      · exact .inr (.inr honly)
  exact ⟨fun hall => (hiff _ (.inl hroot)).1 (hall _ (.inl hroot)) rfl, hiff⟩

/-- Right after boot an address space can be made and freed again. -/
theorem vmMachine_free : ∃ (s x x' : VmState vmMachine) (v : ℕ), (vmRuns vmMachine).init s ∧
    (vmRuns vmMachine).Reachable x ∧ s.vmaAlloc = .ok (v, x) ∧ v ∈ x.live .vma ∧ v ≠ x.kernVma ∧
    x.vmaFree v = .ok x' ∧ x.Released x' v ∧ x.root v ∈ s.mem.freePages := by
  obtain ⟨s, x, text, data, v, hs, hb, hx, hv, hreach, -⟩ := vmMachine_alloc
  have hk := hb.vm.kern_live
  have hinv := inv_reachable hreach
  have hd := (vmaDup_copies hb.inv ⟨trivial, .inr hk⟩ hx).1 hv
  have hvx : v ∈ x.live .vma := by
    rw [hd.live]
    exact Finset.mem_insert_self v _
  have hend := vmaDup_end hb.vm hb.referenced hk
  rw [show s.vmaDup s.kernVma = .ok (v, x) from hx] at hend
  obtain ⟨hroot, hkern⟩ : x.root v ∈ s.mem.freePages ∧ x.kernVma = s.kernVma := by
    generalize hvv : v = ret at hend
    cases hend with
    | nothing => exact absurd hvv hv
    | undone => exact absurd hvv hv
    | done ho hdups =>
      have hg := hdups.grown ho.inv (ho.live_iff.2 (.inl rfl))
      refine ⟨?_, hg.frame.kernVma.trans ho.kernVma⟩
      rw [hg.frame.root, ho.root]
      exact ho.free
  have hne : v ≠ x.kernVma := by
    rw [hkern]
    exact fun he => hd.fresh (he ▸ hk)
  rcases vmaFree_cases hinv.vm hinv.referenced hvx hne with ⟨-, c, hc, hover⟩ | ⟨x', hx', hr⟩
  · -- the areas are as long as those of the kernel
    obtain ⟨l, hperm, hcopies⟩ := hd.areas
    obtain ⟨b, hbl, hcopy⟩ := exists_of_forall₂ hcopies (hperm.mem_iff.2 hc)
    have hok := hb.vm.list_ok hk hbl
    have hfits := (hb.low b hbl).fits hok.va_aligned hok.size_pos
    rw [hcopy.va, hcopy.size] at hover
    omega
  · exact ⟨s, x, x', v, hs, hreach, hx, hvx, hne, hx', hr, hroot⟩

/-- An address space of the machine is freed, and the root of its page table is not. -/
theorem vma_free_gives_back_alloc : ∃ (x x' : VmState vmMachine) (v : ℕ), x.vmaFree v = .ok x' ∧
    (¬ ∀ q, x.TakenFor v q → q ∈ x'.mem.freePages) ∧
    ∀ q, x.TakenFor v q → (q ∈ x'.mem.freePages ↔ q ≠ x.root v) := by
  obtain ⟨s, x, x', v, -, hreach, -, hv, hne, hx', -⟩ := vmMachine_free
  exact ⟨x, x', v, hx', vma_free_gives_back x hreach v hv hne x' hx'⟩

/-- After `vma_alloc` and `vma_free` a page is missing. -/
theorem not_vma_free_gives_back : ∃ (s x x' : VmState vmMachine) (v q : ℕ),
    (vmRuns vmMachine).init s ∧ s.vmaAlloc = .ok (v, x) ∧ x.vmaFree v = .ok x' ∧
    x.TakenFor v q ∧ q ∈ s.mem.freePages ∧ q ∉ x'.mem.freePages := by
  obtain ⟨s, x, x', v, hs, hreach, hx, hv, hne, hx', hr, hroot⟩ := vmMachine_free
  have hinv := inv_reachable hreach
  have hmem : x.root v ∈ x.mem.tables 2 (x.root v) := root_mem_tables x.mem 2 _
  refine ⟨s, x, x', v, x.root v, hs, hx, hx', .inl hmem, hroot, fun hf => ?_⟩
  rcases (hr.free _).1 hf with hf | ⟨-, hne'⟩ | ⟨p, o, hb, hq, -⟩
  · exact (hinv.vm.spaces.table v hv).apart _ hmem hf
  · exact hne' rfl
  · exact hinv.vm.spaces.block_apart v hv p o hb _ hmem hq

end AcoOs
