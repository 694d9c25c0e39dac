/-
What `vma_dup` makes of an address space.

* **`vma_dup_copies`** — the new address space has the areas of the old one, writable memory has
  blocks of its own there, and when there is no new address space nothing is left of the attempt.

`CopyOf` is what one area of the copy has of the area it was made from.
-/
import AcoOs.VmCalls

namespace AcoOs

open Memory

variable {L : VmLayout} {A : VmEnv L}

/-- The page of a block is given back by its address. -/
theorem VmLayout.pg2pa_inj {p q : ℕ} (hp : p < L.pageNums) (hq : q < L.pageNums)
    (h : L.pg2pa p = L.pg2pa q) : p = q := by
  rw [← pa2pg_pg2pa hp, h, pa2pg_pg2pa hq]

/-- The type and the address of an area say what backs it. -/
theorem AreaOk.pgfm_eq {m m' : Memory A.toPageAllocator} {area area' : VmaArea} (h : AreaOk m area)
    (h' : AreaOk m' area') (ht : area.vmarTyp = area'.vmarTyp) (hpa : area.pa = area'.pa) :
    area.pgfm = area'.pgfm := by
  by_cases hm : area.vmarTyp = .memory
  · obtain ⟨p, o, hp, hb, h1, -⟩ := h.backed hm
    obtain ⟨q, k, hq, hb', h2, -⟩ := h'.backed (ht ▸ hm)
    rw [hp, hq, VmLayout.pg2pa_inj (A.block_lt hb.block) (A.block_lt hb'.block)
      (by rw [← h1, hpa, h2])]
  · rw [h.unbacked hm, h'.unbacked (ht ▸ hm)]

theorem VmaArea.covers_pgfm (area : VmaArea) (p : Option ℕ) (w : ℕ) :
    { area with pgfm := p }.Covers w ↔ area.Covers w := Iff.rfl

theorem VmaArea.pte_pgfm (area : VmaArea) (p : Option ℕ) (w : ℕ) :
    { area with pgfm := p }.pte w = area.pte w := rfl

theorem exists_of_forall₂ {α β : Type*} {R : α → β → Prop} {l : List α} {l' : List β}
    (h : List.Forall₂ R l l') {d : β} (hd : d ∈ l') : ∃ b ∈ l, R b d := by
  induction h with
  | nil => cases hd
  | @cons b c l l' hbc _ ih =>
    rcases List.mem_cons.1 hd with rfl | hd
    · exact ⟨b, List.mem_cons_self, hbc⟩
    · obtain ⟨b', hb', hr⟩ := ih hd
      exact ⟨b', List.mem_cons_of_mem b hb', hr⟩

namespace VmState

variable {x x' y s : VmState A} {v w u a b c p o : ℕ} {area : VmaArea}

/-! ### Copies of areas -/

/-- Area `c` of `x'` is a copy of area `b` of `x`: what may not be written is shared, and what may
be written has a block to itself, as it comes from `bkp_alloc_zero`. -/
structure CopyOf (x x' : VmState A) (b c : ℕ) : Prop where
  vmarTyp : (x'.areas c).vmarTyp = (x.areas b).vmarTyp
  va : (x'.areas c).va = (x.areas b).va
  size : (x'.areas c).size = (x.areas b).size
  prot : (x'.areas c).prot = (x.areas b).prot
  shared : ¬ (x.areas b).Writable →
    (x'.areas c).pa = (x.areas b).pa ∧ (x'.areas c).pgfm = (x.areas b).pgfm
  own : (x.areas b).Writable → ∃ p o, (x'.areas c).pgfm = some p ∧ x'.mem.BacksAreas p o ∧
    (x'.areas c).size = 2 ^ o * pageSize ∧
    (∀ d ∈ x'.live .vmaArea, (x'.areas d).pgfm = some p → d = c) ∧
    ∀ q ∈ pagesOf p o, ∀ j, x'.mem.words q j = 0

/-- Only the area itself matters of the state it is copied from. -/
theorem CopyOf.source (h : y.CopyOf x' b c) (hb : y.areas b = x.areas b) : x.CopyOf x' b c := by
  obtain ⟨h1, h2, h3, h4, h5, h6⟩ := h
  rw [hb] at h1 h2 h3 h4 h5 h6
  exact ⟨h1, h2, h3, h4, h5, h6⟩

/-- The block of an area that backs it in a state is not free there. -/
theorem VmInv.pgfm_notMem (h : x.VmInv) (ha : a ∈ x.live .vmaArea)
    (hp : (x.areas a).pgfm = some p) : p ∉ x.mem.freePages := by
  obtain ⟨q, o, hq, hb, -⟩ := (h.areaOk a ha).backed (h.memory_of_pgfm ha hp)
  rw [hp] at hq
  cases hq
  exact Spaces.backs_notMem_free hb (self_mem_pagesOf p o)

/-- The first copy that `vma_dup` makes, seen from the end of the loop. -/
theorem Added.copyOf (ha : x.Added y v a area) (h : x.VmInv) (hg : y.Grown x' v)
    (hb : b ∈ x.live .vmaArea) (hc : Copies (x.areas b) area)
    (hnew : (x.areas b).Writable → x.NewBlock y area)
    (hlater : ∀ p, p ∉ y.mem.freePages → (∀ d ∈ x.live .vmaArea, (x.areas d).pgfm ≠ some p) →
      ∀ d ∈ x'.live .vmaArea, d ∉ y.live .vmaArea → (x'.areas d).pgfm = some p →
        (x'.areas a).pgfm = some p → False) : x.CopyOf x' b a := by
  have hal : a ∈ y.live .vmaArea := by
    rw [ha.live]
    exact Finset.mem_insert_self _ _
  have hax : x'.areas a = y.areas a := hg.areas a hal
  have hmade := ha.made
  have hya := ha.inv.areaOk a hal
  refine ⟨?_, ?_, ?_, ?_, fun hw => ?_, fun hw => ?_⟩
  · rw [hax, hmade]
    exact hc.vmarTyp
  · rw [hax, hmade]
    exact hc.va
  · rw [hax, hmade]
    exact hc.size
  · rw [hax, hmade]
    exact hc.prot
  · have hpa : (y.areas a).pa = (x.areas b).pa := by
      rw [hmade]
      exact hc.pa hw
    have ht : (y.areas a).vmarTyp = (x.areas b).vmarTyp := by
      rw [hmade]
      exact hc.vmarTyp
    rw [hax]
    exact ⟨hpa, hya.pgfm_eq (h.areaOk b hb) ht hpa⟩
  · obtain ⟨p, o, hpa, hsize, hfree, hzero⟩ := hnew hw
    have ht : (y.areas a).vmarTyp = .memory := by
      rw [hmade]
      exact hc.vmarTyp.trans hw.1
    obtain ⟨q, k, hq, hback, hpa', hsize'⟩ := hya.backed ht
    rw [hmade] at hpa' hsize'
    have hpx : p ∈ x.mem.freePages := hfree (self_mem_pagesOf p o)
    have hqp : q = p := VmLayout.pg2pa_inj (A.block_lt hback.block)
      ((A.wellFormed x.mem.buddy).free_lt p hpx) (hpa'.symm.trans hpa)
    have hko : k = o := by
      have := Nat.eq_of_mul_eq_mul_right (by decide) (hsize'.symm.trans hsize)
      exact Nat.pow_right_injective le_rfl this
    rw [hqp] at hq hback
    rw [hko] at hback
    have hold : ∀ d ∈ x.live .vmaArea, (x.areas d).pgfm ≠ some p := fun d hd hdp =>
      h.pgfm_notMem hd hdp hpx
    refine ⟨p, o, by rw [hax, hq], hg.backs p o hback, ?_, fun d hd hdp => ?_, fun r hr j => ?_⟩
    · rw [hax, hmade]
      exact hsize
    · by_cases hdy : d ∈ y.live .vmaArea
      · rw [ha.live, Finset.mem_insert] at hdy
        refine hdy.resolve_right fun hdx => hold d hdx ?_
        rwa [← ha.areas_live hdx, ← hg.areas d (ha.grown.live hdx)]
      · exact (hlater p (Spaces.backs_notMem_free hback (self_mem_pagesOf p o)) hold d hd hdy hdp
          (by rw [hax, hq])).elim
    · rw [hg.words p o hback r hr, hzero r hr]

/-- What the loop of `vma_dup` has made when it is through. -/
structure Copied (x x' : VmState A) (v : ℕ) (l l' : List ℕ) : Prop where
  fresh : ∀ c ∈ l', c ∉ x.live .vmaArea
  list : (x'.list v).Perm (l' ++ x.list v)
  live : ∀ c, c ∈ x'.live .vmaArea ↔ c ∈ l' ∨ c ∈ x.live .vmaArea
  copies : List.Forall₂ (x.CopyOf x') l l'
  entry : ∀ w < tableSpan, ∀ e, PteValid e → (x'.entry v w = some e ↔
    x.entry v w = some e ∨ ∃ c ∈ l', (x'.areas c).Covers w ∧ (x'.areas c).pte w = e)

theorem Dups.copied_all {l : List ℕ} {ok : Bool} (hd : Dups v x l ok x') (hok : ok = true)
    (h : x.VmInv) (hv : v ∈ x.live .vma) (hl : ∀ b ∈ l, b ∈ x.live .vmaArea) :
    ∃ l', x.Copied x' v l l' := by
  induction hd with
  | nil =>
    exact ⟨[], nofun, .refl _, fun c => by simp, .nil, fun w _ e _ => by simp⟩
  | refused => cases hok
  | @copied x y x' a b l ok area hc ha hnew hd ih =>
    have hvy : v ∈ y.live .vma := by rw [ha.frame.liveVma]; exact hv
    have hbl : b ∈ x.live .vmaArea := hl b List.mem_cons_self
    have hlx : ∀ d ∈ l, d ∈ x.live .vmaArea := fun d hd => hl d (List.mem_cons_of_mem b hd)
    have hg := hd.grown ha.inv hvy
    obtain ⟨l', hl'⟩ := ih hok ha.inv hvy fun d hd => ha.grown.live (hlx d hd)
    have hal : a ∈ y.live .vmaArea := by
      rw [ha.live]
      exact Finset.mem_insert_self _ _
    refine ⟨a :: l', fun d hd => ?_, ?_, fun d => ?_, .cons ?_ ?_, fun w hw e he => ?_⟩
    · rcases List.mem_cons.1 hd with rfl | hd
      · exact ha.fresh
      · exact fun hdx => hl'.fresh d hd (ha.grown.live hdx)
    · obtain ⟨l₁, r, h1, h2, -⟩ := ha.split
      have hy : (y.list v).Perm (a :: x.list v) := by
        rw [h1, h2]
        exact List.perm_middle
      exact hl'.list.trans ((hy.append_left l').trans List.perm_middle)
    · rw [hl'.live, ha.live, Finset.mem_insert, List.mem_cons]
      tauto
    · refine ha.copyOf h hg hbl hc hnew fun p hp hold d hdl hdy hdp hap => ?_
      -- a later copy shares the block of a source, or has one to itself
      have hd' : d ∈ l' := ((hl'.live d).1 hdl).resolve_right hdy
      obtain ⟨b', hb', hcopy⟩ := exists_of_forall₂ hl'.copies hd'
      have hsrc := hlx b' hb'
      by_cases hw : (y.areas b').Writable
      · obtain ⟨q, k, hq, -, -, honly, -⟩ := hcopy.own hw
        rw [hdp] at hq
        cases hq
        exact hdy (honly a (hg.live hal) hap ▸ hal)
      · refine hold _ hsrc ?_
        rw [← ha.areas_live hsrc, ← (hcopy.shared hw).2, hdp]
    · have hzip := List.forall₂_iff_zip.1 hl'.copies
      refine List.forall₂_iff_zip.2 ⟨hzip.1, fun {d c} hdc => ?_⟩
      exact (hzip.2 hdc).source (ha.areas_live (hlx d (List.of_mem_zip hdc).1))
    · rw [hl'.entry w hw e he, ha.entry_valid hw he]
      have hcov : x'.areas a = y.areas a := hg.areas a hal
      have hsame : ((x'.areas a).Covers w ∧ (x'.areas a).pte w = e) ↔
          area.Covers w ∧ area.pte w = e := by
        rw [hcov, ha.made, VmaArea.covers_pgfm, VmaArea.pte_pgfm]
      rw [← hsame, List.exists_mem_cons_iff, or_assoc]

/-! ### `vma_dup` -/

/-- With the same objects and the same address spaces nothing visible has changed. -/
theorem unchanged_of (h : x.Inv) (h' : x'.Inv) (hlive : x'.live = x.live)
    (hsame : ∀ w ∈ x.live .vma, x.SameSpace x' w) : x.Unchanged x' := by
  have hareas : ∀ a ∈ x.live .vmaArea, x'.areas a = x.areas a := by
    intro a ha
    obtain ⟨w, hw, haw⟩ := (h.vm.live_iff a).1 ha
    exact (hsame w hw).areas a haw
  have htype : ∀ {y z : VmState A} {p : ℕ}, y.Inv → z.Inv → z.live = y.live →
      (∀ a ∈ y.live .vmaArea, z.areas a = y.areas a) → (y.mem.pages p).pgtype = .vmaArea →
      (z.mem.pages p).pgtype = .vmaArea := by
    intro y z p hy hz hl ha hp
    obtain ⟨a, hal, ht, hap⟩ := hy.referenced p hp
    obtain ⟨q, o, hq, hb, -⟩ := (hz.vm.areaOk a (by rw [hl]; exact hal)).backed
      (by rw [ha a hal]; exact ht)
    rw [ha a hal, hap] at hq
    cases hq
    exact hb.type
  refine ⟨hlive, fun w hw => (hsame w hw).list, fun w hw => ?_, hareas,
    fun w hw va => (hsame w hw).entries.translate va, fun p => ⟨?_, ?_⟩, fun p hp => ?_⟩
  · rw [(h'.vm.listed w (by rw [hlive]; exact hw)).toList, (h.vm.listed w hw).toList,
      (hsame w hw).list]
  · refine htype h' h hlive.symm fun a ha => (hareas a ?_).symm
    rwa [← hlive]
  · exact htype h h' hlive hareas
  · rw [h.vm.refCount p hp, h'.vm.refCount p (htype h h' hlive hareas hp), hlive,
      backed_congr hareas]

/-- An address space that was opened, filled and released again leaves nothing behind. -/
theorem Opened.released {pg : ℕ} (ho : x.Opened s v pg) (h : x.Inv) (hg : s.Grown y v)
    (hr : y.Released x' v) : x'.live = x.live ∧ ∀ w ∈ x.live .vma, x.SameSpace x' w := by
  have hv : v ∈ s.live .vma := ho.live_iff.2 (.inl rfl)
  have hvy : v ∈ y.live .vma := by rw [hg.frame.liveVma]; exact hv
  have hne : ∀ w ∈ x.live .vma, w ≠ v := fun w hw he => ho.fresh (he ▸ hw)
  have hsame : ∀ w ∈ x.live .vma, x.SameSpace y w := fun w hw =>
    (ho.sameSpace w hw).trans (hg.sameSpace ho.inv (ho.live_iff.2 (.inr hw)) (hne w hw))
  have hwy : ∀ w ∈ x.live .vma, w ∈ y.live .vma := fun w hw => by
    rw [hg.frame.liveVma]
    exact ho.live_iff.2 (.inr hw)
  refine ⟨funext fun k => ?_, fun w hw =>
    (hsame w hw).trans (hr.sameSpace hg.inv hvy (hwy w hw) (hne w hw))⟩
  cases k with
  | vma =>
    rw [hr.live, hg.frame.liveVma, ho.live]
    exact Finset.erase_insert ho.fresh
  | vmaArea =>
    ext a
    rw [hr.liveAreas, hg.inv.live_iff, h.vm.live_iff]
    constructor
    · rintro ⟨⟨w, hw, ha⟩, hav⟩
      have hwv : w ≠ v := fun he => hav (he ▸ ha)
      rw [hg.frame.liveVma] at hw
      have hwx := (ho.live_iff.1 hw).resolve_left hwv
      exact ⟨w, hwx, by rw [← (hsame w hwx).list]; exact ha⟩
    · rintro ⟨w, hw, ha⟩
      rw [← (hsame w hw).list] at ha
      exact ⟨⟨w, hwy w hw, ha⟩, fun hav => hne w hw (hg.inv.owner w (hwy w hw) v hvy a ha hav)⟩

/-- What a successful `vma_dup` of `u` has made: the new address space `v`. -/
structure Duplicated (x x' : VmState A) (u v : ℕ) : Prop where
  fresh : v ∉ x.live .vma
  live : x'.live .vma = insert v (x.live .vma)
  areas : ∃ l, l.Perm (x'.list v) ∧ List.Forall₂ (x.CopyOf x') (x.list u) l
  list : ∀ w ∈ x.live .vma, x'.list w = x.list w
  same : ∀ a ∈ x.live .vmaArea, x'.areas a = x.areas a
  translate : ∀ w ∈ x.live .vma, ∀ va, x'.translate w va = x.translate w va
  entry : ∀ w < tableSpan, ∀ e, PteValid e → (x'.entry v w = some e ↔
    ∃ c ∈ x'.list v, (x'.areas c).Covers w ∧ (x'.areas c).pte w = e)
  words : ∀ p o, x.mem.BacksAreas p o → ∀ q ∈ pagesOf p o, x'.mem.words q = x.mem.words q

theorem vmaDup_copies (hinv : x.Inv) (hu : (VmCall.vmaDup u).Valid x) {ret : ℕ}
    (hret : x.vmaDup u = .ok (ret, x')) :
    (ret ≠ 0 → x.Duplicated x' u ret) ∧ (ret = 0 → x.Unchanged x') := by
  rcases hu.vma with h0 | hu
  · have he : x.vmaDup u = .ok (0, x) := if_pos (.inl h0)
    rw [he] at hret
    cases hret
    exact ⟨fun hn => absurd rfl hn, fun _ => .refl x⟩
  have hu : u ∈ x.live .vma := hu
  have hend := vmaDup_end hinv.vm hinv.referenced hu
  rw [hret] at hend
  cases hend with
  | nothing hr => exact ⟨fun hn => absurd rfl hn, fun _ => hr.unchanged hinv.vm⟩
  | undone ho hd hr =>
    have heff : x.Effect (.vmaDup u) x' := .undone hu ho hd hr
    have hinv' := heff.inv hinv
    obtain ⟨hlive, hsame⟩ := ho.released hinv (hd.grown ho.inv (ho.live_iff.2 (.inl rfl))) hr
    exact ⟨fun hn => absurd rfl hn, fun _ => unchanged_of hinv hinv' hlive hsame⟩
  | @done s _ _ _ ho hd =>
    have hv : ret ∈ s.live .vma := ho.live_iff.2 (.inl rfl)
    have hg := hd.grown ho.inv hv
    have hlive : x'.live .vma = insert ret (x.live .vma) := hg.frame.liveVma.trans ho.live
    have hsame : ∀ w ∈ x.live .vma, x.SameSpace x' w := fun w hw =>
      (ho.sameSpace w hw).trans
        (hg.sameSpace ho.inv (ho.live_iff.2 (.inr hw)) fun he => ho.fresh (he ▸ hw))
    obtain ⟨l, hl⟩ := hd.copied_all rfl ho.inv hv fun b hb => by
      rw [ho.liveAreas]
      exact hinv.vm.mem_live hu hb
    have hlist := hl.list
    rw [ho.list, List.append_nil] at hlist
    refine ⟨fun _ => ⟨ho.fresh, hlive, ⟨l, hlist.symm, ?_⟩, fun w hw => (hsame w hw).list,
      fun a ha => ?_, fun w hw va => (hsame w hw).entries.translate va, fun w hw e he => ?_,
      fun p o hp q hq => ?_⟩, fun h0 => ?_⟩
    · exact hl.copies.imp fun b c hc => hc.source (by rw [ho.areas])
    · rw [hg.areas a (by rw [ho.liveAreas]; exact ha), ho.areas]
    · rw [hl.entry w hw e he, or_iff_right (ho.entry w hw e he)]
      exact exists_congr fun c => and_congr_left' hlist.mem_iff.symm
    · rw [hg.words p o (ho.backs p o hp) q hq, ho.words p o hp q hq]
    · exact absurd h0 (hg.inv.ne_zero (by rw [hlive]; exact Finset.mem_insert_self ret _))

end VmState

open VmState

/-- A successful `vma_dup` copies the areas and changes nothing else, and one that fails changes
nothing. -/
theorem vma_dup_copies (x : VmState A) (h : (vmRuns A).Reachable x) (u : ℕ)
    (hu : (VmCall.vmaDup u).Valid x) (ret : ℕ) (x' : VmState A)
    (hret : x.vmaDup u = .ok (ret, x')) :
    (ret ≠ 0 → x.Duplicated x' u ret) ∧ (ret = 0 → x.Unchanged x') :=
  vmaDup_copies (inv_reachable h) hu hret

/-- The address space of the kernel is copied after a page that may be written was mapped in it. -/
theorem vma_dup_copies_page : ∃ (s x y : VmState vmMachine) (a v : ℕ),
    (vmRuns vmMachine).init s ∧ s.vmMmap s.kernVma vmMachineLayout.vaEnd 0 7 = .ok (0, x) ∧
    a ∈ x.list s.kernVma ∧ (x.areas a).va = vmMachineLayout.vaEnd ∧ (x.areas a).Writable ∧
    x.vmaDup s.kernVma = .ok (v, y) ∧ x.Duplicated y s.kernVma v := by
  obtain ⟨s, x, y, text, data, p, a, v, hs, -, hx, ha, hkern, hr, hy, hv, -⟩ := vmMachine_copy
  have hvalid : (VmCall.vmaDup s.kernVma).Valid x :=
    ⟨trivial, .inr (hkern ▸ (inv_reachable hr).vm.kern_live)⟩
  refine ⟨s, x, y, a, v, hs, hx, ha.mem_list.2 (.inl rfl), ?_, ?_, hy,
    (vma_dup_copies x hr s.kernVma hvalid v y hy).1 hv⟩
  · rw [ha.made]
    rfl
  · rw [ha.made]
    exact ⟨rfl, show 7 &&& protW ≠ 0 by decide⟩

end AcoOs
