/-
What `vma_free` does.

Its loop takes out every area of the list; then the page table is freed, and the object
(`Released`).  Every page that was taken for the address space is free again, but for the
root of its page table.
-/
import AcoOs.VmUnmap

namespace AcoOs

open Memory

variable {L : VmLayout} {A : VmEnv L}

namespace VmState

variable {x x' y : VmState A} {v w a p o : ℕ}

/-- Every area of `v` was removed. -/
structure Emptied (x x' : VmState A) (v : ℕ) : Prop where
  inv : x'.VmInv
  referenced : x'.Referenced
  frame : x.Frame x' v
  list : x'.list v = []
  live : ∀ b, b ∈ x'.live .vmaArea ↔ b ∈ x.live .vmaArea ∧ b ∉ x.list v
  areas : ∀ b, b ∉ x.list v → x'.areas b = x.areas b
  types : ∀ q, (x'.mem.pages q).pgtype = .vmaArea → (x.mem.pages q).pgtype = .vmaArea
  conserve : ∀ q, q ∈ x'.mem.freePages ∨ q ∈ x'.mem.tables 2 (x.root v) ↔
    q ∈ x.mem.freePages ∨ q ∈ x.mem.tables 2 (x.root v) ∨ x.OnlyBy v q

theorem VmInv.pin_eq_noPin (hne : v ≠ x.kernVma) : x.pin v = noPin := if_neg hne

/-- Some area of `v` goes beyond the end of the page table. -/
def Overruns (x : VmState A) (v : ℕ) : Prop :=
  ∃ a ∈ x.list v, tableSpan < position 2 (x.areas a).va + (x.areas a).size / pageSize

/-- The loop of `vma_free`. -/
theorem freeAreas_cases (l : List ℕ) (x : VmState A) (h : x.VmInv) (href : x.Referenced)
    (hv : v ∈ x.live .vma) (hne : v ≠ x.kernVma) (hl : x.list v = l) :
    (x.freeAreas v l = .error .callee ∧ x.Overruns v) ∨
    ∃ x', x.freeAreas v l = .ok x' ∧ x.Emptied x' v := by
  induction l generalizing x with
  | nil =>
    refine .inr ⟨x, rfl, h, href, .refl x v, hl, fun b => ?_, fun _ _ => rfl, fun _ hq => hq,
      fun q => ?_⟩
    · rw [hl]
      simp
    · refine or_congr Iff.rfl ⟨.inl, fun hq => hq.resolve_right ?_⟩
      rintro ⟨p, o, hb, -, honly⟩
      obtain ⟨c, hc, -, hcp⟩ := href p hb.type
      have := honly c hc hcp
      rw [hl] at this
      cases this
  | cons a l ih =>
    have ha : a ∈ x.list v := by rw [hl]; exact List.mem_cons_self
    have hout : ∀ w, (x.areas a).Covers w → ¬ x.pin v w := by
      intro w _
      rw [VmInv.pin_eq_noPin hne]
      exact id
    rw [freeAreas]
    rcases removeArea_cases h hv ha hout with ⟨herr, hlt⟩ | ⟨y, hy, hr⟩
    · rw [herr]
      exact .inl ⟨rfl, a, ha, hlt⟩
    · rw [hy]
      dsimp only
      have hlist : y.list v = l := by rw [hr.list, hl, List.erase_cons_head]
      have hmem : ∀ b, b ∈ x.list v ↔ b = a ∨ b ∈ y.list v := by
        intro b
        rw [hl, hlist, List.mem_cons]
      rcases ih y (hr.inv h hv ha) (hr.referenced h hv ha href)
        (by rw [hr.frame.liveVma]; exact hv) (by rw [hr.frame.kernVma]; exact hne) hlist with
        ⟨herr, b, hb, hlt⟩ | ⟨x', hx', he⟩
      · have hba : b ≠ a := by
          rintro rfl
          rw [hr.list] at hb
          exact (h.listed v hv).nodup.not_mem_erase hb
        rw [hr.areas b hba] at hlt
        exact .inl ⟨herr, b, (hmem b).2 (.inr hb), hlt⟩
      · refine .inr ⟨x', hx', he.inv, he.referenced, hr.frame.trans he.frame, he.list,
          fun b => ?_, fun b hb => ?_, fun q hq => hr.types q (he.types q hq), fun q => ?_⟩
        · rw [he.live, hr.mem_live, hmem]
          tauto
        · rw [hmem, not_or] at hb
          rw [he.areas b hb.2, hr.areas b hb.1]
        · have hc := he.conserve q
          have hc' := hr.conserve q
          rw [hr.frame.root] at hc
          rw [hc, hr.onlyBy_iff h hv ha, ← or_assoc, hc', or_assoc, or_assoc]

/-- What `vma_free` leaves behind. -/
structure Released (x x' : VmState A) (v : ℕ) : Prop where
  inv : x'.VmInv
  referenced : x'.Referenced
  kernVma : x'.kernVma = x.kernVma
  live : x'.live .vma = (x.live .vma).erase v
  vmas : ∀ w, w ≠ v → x'.vmas w = x.vmas w
  liveAreas : ∀ b, b ∈ x'.live .vmaArea ↔ b ∈ x.live .vmaArea ∧ b ∉ x.list v
  areas : ∀ b, b ∉ x.list v → x'.areas b = x.areas b
  entry : ∀ w ∈ x.live .vma, w ≠ v → ∀ u < tableSpan, x'.entry w u = x.entry w u
  types : ∀ q, (x'.mem.pages q).pgtype = .vmaArea → (x.mem.pages q).pgtype = .vmaArea
  free : ∀ q, q ∈ x'.mem.freePages ↔ q ∈ x.mem.freePages ∨
    (q ∈ x.mem.tables 2 (x.root v) ∧ q ≠ x.root v) ∨ x.OnlyBy v q
  root : x'.mem.blocks (x.root v) = some 0

/-- The page table of an address space is freed, but for its root. -/
theorem hwUnmapAll_spec (h : y.VmInv) (hv : v ∈ y.live .vma) (hne : v ≠ y.kernVma) :
    ∃ m, y.hwUnmapAll v = .ok (y.withMem m) ∧ TableStep (y.pin v) y.mem m 2 (y.root v) 0 ∧
      y.mem.Frees m ∧ m.tables 2 (y.root v) = {y.root v} := by
  have htab := h.spaces.table v hv
  rw [VmInv.pin_eq_noPin hne] at htab ⊢
  obtain ⟨m, hm, hstep, hcleared⟩ := free_spec 2 (y.root v) y.mem 0 htab
  refine ⟨m, ?_, hstep, riscvFreePgtable_frees 2 _ _ _ hm, hcleared.tables⟩
  have hm' : y.mem.hwUnmapAll (y.root v) = some m := hm
  unfold VmState.hwUnmapAll
  rw [h.hwPgtable v hv]
  dsimp only
  rw [hm']
  rfl

/-- The object of an address space without areas is freed. -/
structure Closed (y x' : VmState A) (v : ℕ) (m : Memory A.toPageAllocator) : Prop where
  kernVma : x'.kernVma = y.kernVma
  vmas : x'.vmas = Function.update y.vmas v .zero
  areas : x'.areas = y.areas
  live : x'.live .vma = (y.live .vma).erase v
  liveAreas : x'.live .vmaArea = y.live .vmaArea
  kept : Kept (y.live .vma) y.root y.pin v y.mem x'.mem
  words : x'.mem.words = m.words
  free : x'.mem.freePages = m.freePages

theorem closed_spec (hsp : y.mem.Spaces (y.live .vma) y.root y.pin) (hv : v ∈ y.live .vma)
    {m : Memory A.toPageAllocator}
    (hstep : TableStep (y.pin v) y.mem m 2 (y.root v) 0) :
    ∃ x', ((y.withMem m).setVma v .zero).objFree .vma v = some x' ∧ y.Closed x' v m := by
  have hlive : ((y.withMem m).setVma v .zero).live = y.live := live_evolves hstep.buddy
  obtain ⟨x', hx', hat, hfree, hl⟩ :=
    objFree_some (x := (y.withMem m).setVma v .zero) (k := .vma) (a := v) (by rw [hlive]; exact hv)
  rw [hlive] at hl
  have hkept := Kept.of_tableStep hsp hv hstep
  refine ⟨x', hx', hat.kernVma, hat.vmas, hat.areas, ?_, ?_,
    hkept.trans (hat.kept hkept.spaces), hat.words, hfree⟩
  · rw [hl, Function.update_self]
  · rw [hl]
    rfl

namespace Closed

variable {m : Memory A.toPageAllocator}

theorem vmas_of_ne (hc : y.Closed x' v m) (hw : w ≠ v) : x'.vmas w = y.vmas w := by
  rw [hc.vmas, Function.update_of_ne hw]

theorem root (hc : y.Closed x' v m) (hw : w ≠ v) : x'.root w = y.root w := by
  unfold VmState.root
  rw [hc.vmas_of_ne hw]

theorem list (hc : y.Closed x' v m) (hw : w ≠ v) : x'.list w = y.list w := by
  unfold VmState.list
  rw [hc.vmas_of_ne hw]

theorem pin (hc : y.Closed x' v m) : x'.pin = y.pin := by
  funext w
  unfold VmState.pin
  rw [hc.kernVma]

theorem inv (hc : y.Closed x' v m) (h : y.VmInv) (hne : v ≠ y.kernVma)
    (hlist : y.list v = []) : x'.VmInv := by
  have hmem : ∀ w, w ∈ x'.live .vma ↔ w ≠ v ∧ w ∈ y.live .vma := by
    intro w
    rw [hc.live, Finset.mem_erase]
  constructor
  · rw [hmem, hc.kernVma]
    exact ⟨Ne.symm hne, h.kern_live⟩
  · exact fun h0 => h.zero_notMem ((hmem 0).1 h0).2
  · intro w hw
    obtain ⟨hwv, hwl⟩ := (hmem w).1 hw
    rw [hc.vmas_of_ne hwv, hc.kernVma]
    exact h.kernelVma w hwl
  · intro w hw
    obtain ⟨hwv, hwl⟩ := (hmem w).1 hw
    rw [hc.root hwv, hc.vmas_of_ne hwv]
    exact h.hwPgtable w hwl
  · intro w hw
    by_cases hwv : w = v
    · rw [hwv, hc.vmas, Function.update_self]
    · rw [hc.vmas_of_ne hwv]
      exact h.dead w fun hwl => hw ((hmem w).2 ⟨hwv, hwl⟩)
  · intro w hw
    obtain ⟨hwv, hwl⟩ := (hmem w).1 hw
    exact (h.listed w hwl).congr (hc.vmas_of_ne hwv)
  · refine (hc.kept.spaces.mono fun w (hw : w ∈ x'.live .vma) => ((hmem w).1 hw).2).congr ?_ ?_
    · exact fun w hw => hc.root ((hmem w).1 hw).1
    · intro w _
      rw [hc.pin]
  · intro w hw hwk
    obtain ⟨hwv, hwl⟩ := (hmem w).1 hw
    rw [hc.kernVma] at hwk
    rw [hc.root hwv, hc.kept.blocks_root hwl]
    exact h.rootBlock w hwl hwk
  · intro a
    rw [hc.liveAreas, h.live_iff]
    constructor
    · rintro ⟨w, hwl, ha⟩
      have hwv : w ≠ v := by
        rintro rfl
        rw [hlist] at ha
        cases ha
      exact ⟨w, (hmem w).2 ⟨hwv, hwl⟩, by rw [hc.list hwv]; exact ha⟩
    · rintro ⟨w, hw, ha⟩
      obtain ⟨hwv, hwl⟩ := (hmem w).1 hw
      rw [hc.list hwv] at ha
      exact ⟨w, hwl, ha⟩
  · intro w hw u hu a haw hau
    obtain ⟨hwv, hwl⟩ := (hmem w).1 hw
    obtain ⟨huv, hul⟩ := (hmem u).1 hu
    rw [hc.list hwv] at haw
    rw [hc.list huv] at hau
    exact h.owner w hwl u hul a haw hau
  · intro a ha
    rw [hc.liveAreas] at ha
    rw [hc.areas]
    exact (h.areaOk a ha).mono fun p o _ hb => hb.untouched (hc.kept.backs p o hb)
  · intro p hp
    obtain ⟨o, ho⟩ := h.spaces.backs p (hc.kept.types p hp)
    rw [(hc.kept.backs p o ho).pages, hc.liveAreas, h.refCount p ho.type,
      backed_congr fun a _ => congrFun hc.areas a]

end Closed

/-- `vma_free` of an address space. -/
theorem vmaFree_cases (h : x.VmInv) (href : x.Referenced) (hv : v ∈ x.live .vma)
    (hne : v ≠ x.kernVma) :
    (x.vmaFree v = .error .callee ∧ x.Overruns v) ∨
    ∃ x', x.vmaFree v = .ok x' ∧ x.Released x' v := by
  unfold vmaFree
  rw [if_neg (h.ne_zero hv), if_neg hne, if_neg (not_not.2 (h.kernelVma v hv))]
  rcases freeAreas_cases (x.list v) x h href hv hne rfl with
    ⟨herr, hover⟩ | ⟨y, hy, he⟩
  · left
    rw [show x.freeAreas v (x.vmas v).lList = _ from herr]
    exact ⟨rfl, hover⟩
  right
  rw [show x.freeAreas v (x.vmas v).lList = _ from hy]
  have hvy : v ∈ y.live .vma := by rw [he.frame.liveVma]; exact hv
  have hney : v ≠ y.kernVma := by rw [he.frame.kernVma]; exact hne
  obtain ⟨m, hm, hstep, hfrees, htab⟩ := hwUnmapAll_spec he.inv hvy hney
  dsimp only
  rw [hm]
  obtain ⟨x', hx', hc⟩ := closed_spec he.inv.spaces hvy hstep
  dsimp only
  rw [hx']
  have hroot : y.root v = x.root v := he.frame.root v
  refine ⟨x', rfl, hc.inv he.inv hney he.list, ?_, ?_, ?_, fun w hw => ?_, fun b => ?_,
    fun b hb => ?_, fun w hw hwv u hu => ?_, fun q hq => he.types q (hc.kept.types q hq),
    fun q => ?_, ?_⟩
  · intro p hp
    obtain ⟨a, ha, h1, h2⟩ := he.referenced p (hc.kept.types p hp)
    exact ⟨a, by rw [hc.liveAreas]; exact ha, by rw [hc.areas]; exact h1,
      by rw [hc.areas]; exact h2⟩
  · rw [hc.kernVma, he.frame.kernVma]
  · rw [hc.live, he.frame.liveVma]
  · rw [hc.vmas_of_ne hw, he.frame.vmas w hw]
  · rw [hc.liveAreas, he.live]
  · rw [hc.areas, he.areas b hb]
  · have hwy : w ∈ y.live .vma := by rw [he.frame.liveVma]; exact hw
    rw [← he.frame.entry w hw hwv u hu]
    unfold entry
    rw [hc.root hwv]
    exact leaf_untouched (hc.kept.others w hwy hwv) hu
  · -- a page is free or in the page table, or it was not
    have h1 := hstep.conserve q
    have h2 := he.conserve q
    have hnf : x.root v ∉ m.freePages := by
      have := hstep.inv.apart (y.root v) (by rw [htab]; exact Finset.mem_singleton_self _)
      rwa [hroot] at this
    have honly : x.OnlyBy v q → q ≠ x.root v := by
      rintro ⟨p, o, hb, hq, -⟩ rfl
      exact h.spaces.block_apart v hv p o hb _ (root_mem_tables x.mem 2 _) hq
    have hfx : q ∈ x.mem.freePages → q ≠ x.root v := by
      rintro hq rfl
      exact (h.spaces.table v hv).apart _ (root_mem_tables x.mem 2 _) hq
    rw [htab, Finset.mem_singleton, hroot] at h1
    rw [hc.free]
    have h3 := h1.trans h2
    by_cases hqr : q = x.root v
    · rw [hqr] at hfx honly ⊢
      exact ⟨fun hq => absurd hq hnf, fun hq => hq.elim (fun hf => absurd rfl (hfx hf)) fun ho =>
        ho.elim (fun ht => absurd rfl ht.2) fun hb => absurd rfl (honly hb)⟩
    · rw [or_iff_left hqr] at h3
      rw [h3, and_iff_left hqr]
  · rw [← hroot, hc.kept.root]
    exact he.inv.rootBlock v hvy hney

end VmState

end AcoOs
