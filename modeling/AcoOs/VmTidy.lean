/-
Address spaces whose page table is the union of their areas.

In a `Tidy` address space the areas are in order, no two of them share a position of the page
table, and the valid entries are those of the areas.  Every call keeps an address space tidy, as
long as each area that is asked for agrees with the areas that are there (`Fits`): it has a
position in common with one of them only if it overlaps it.  Areas below `2 ^ 39` always agree.

* **`Effect.tidy`** — a call keeps an address space tidy if what it asks for fits;
* **`Opened.tidy`** — the copies of areas that agree with each other make a tidy address space.
-/
import AcoOs.VmReferences

namespace AcoOs

open Memory

variable {L : VmLayout} {A : VmEnv L} {area area' : VmaArea}

/-! ### Areas that agree -/

/-- The areas share a position of the page table only if they overlap. -/
def VmaArea.Agrees (area area' : VmaArea) : Prop :=
  ∀ w < tableSpan, area.Covers w → area'.Covers w → area.Overlaps area'

theorem VmaArea.agrees_self (h : 0 < area.size) : area.Agrees area :=
  fun _ _ _ _ => ⟨Nat.lt_add_of_pos_right h, Nat.lt_add_of_pos_right h⟩

/-- Only the ranges matter. -/
theorem VmaArea.Agrees.congr {area₁ area₂ : VmaArea} (h : area.Agrees area')
    (hva : area₁.va = area.va) (hsize : area₁.size = area.size) (hva' : area₂.va = area'.va)
    (hsize' : area₂.size = area'.size) : area₁.Agrees area₂ := by
  unfold Agrees Covers Overlaps at *
  rw [hva, hsize, hva', hsize']
  exact h

namespace VmState

variable {x x' y s : VmState A} {v w u a b : ℕ} {call : VmCall}

theorem agrees_of_low {m m' : Memory A.toPageAllocator} (hok : AreaOk m area)
    (hok' : AreaOk m' area') (hl : area.Low) (hl' : area'.Low) : area.Agrees area' := by
  intro w _ hc hc'
  by_contra hno
  exact hl.apart hl' hok.va_aligned hok.size_aligned hok.size_pos hok'.va_aligned
    hok'.size_aligned hok'.size_pos hno hc hc'

/-! ### One address space and one call -/

theorem effect_of_step (h : x.Inv) (hs : (vmRuns A).step x call x') : x.Effect call x' := by
  obtain ⟨hc, ret, heq⟩ := hs
  rcases exec_effect h hc with ⟨e, he, -⟩ | ⟨ret', y, he, heff⟩
  · rw [heq] at he
    cases he
  · rw [heq] at he
    cases he
    exact heff

/-- An address space that is live before and after a call is as it was, or has got the area that
the call asks for, or has lost an area. -/
theorem Effect.space_cases (he : x.Effect call x') (h : x.Inv) (hv : v ∈ x.live .vma)
    (hv' : v ∈ x'.live .vma) : x.SameSpace x' v ∨
      (∃ a area, x.Asks v area call ∧ x.Added x' v a area) ∨
      ∃ a ∈ x.list v, x.Removed x' v a := by
  cases he with
  | same => exact .inl ⟨rfl, fun _ _ => rfl, .of_eq fun _ _ => rfl⟩
  | refused hu hr => exact .inl (hr.sameSpace h.vm hv)
  | @added _ u a area hu hask ha =>
    by_cases hvu : v = u
    · subst hvu
      exact .inr (.inl ⟨a, area, hask, ha⟩)
    · exact .inl (ha.sameSpace h.vm hv hvu)
  | @removed _ u a hu ha ht hr =>
    by_cases hvu : v = u
    · subst hvu
      exact .inr (.inr ⟨a, ha, hr⟩)
    · exact .inl (hr.sameSpace h.vm hu ha hv hvu)
  | @released _ u hu hne hr =>
    rw [hr.live, Finset.mem_erase] at hv'
    exact .inl (hr.sameSpace h.vm hu hv hv'.1)
  | @undone s y _ u n pg hu ho hd hr =>
    have hg := hd.grown ho.inv (ho.live_iff.2 (.inl rfl))
    exact .inl ((ho.released h hg hr).2 v hv)
  | @done s _ u n pg hu ho hd =>
    have hg := hd.grown ho.inv (ho.live_iff.2 (.inl rfl))
    have hne : v ≠ n := fun hvn => ho.fresh (hvn ▸ hv)
    exact .inl ((ho.sameSpace v hv).trans (hg.sameSpace ho.inv (ho.live_iff.2 (.inr hv)) hne))

/-- An address space that a call has made was opened and filled with copies of areas. -/
theorem Effect.born (he : x.Effect call x') (hv : v ∉ x.live .vma)
    (hv' : v ∈ x'.live .vma) : ∃ u ∈ x.live .vma, ∃ s pg, x.Opened s v pg ∧
      Dups v s (x.list u) true x' := by
  cases he with
  | same => exact absurd hv' hv
  | refused hu hr =>
    rw [hr.frame.liveVma] at hv'
    exact absurd hv' hv
  | added hu hask ha =>
    rw [ha.frame.liveVma] at hv'
    exact absurd hv' hv
  | removed hu ha ht hr =>
    rw [hr.frame.liveVma] at hv'
    exact absurd hv' hv
  | released hu hne hr =>
    rw [hr.live, Finset.mem_erase] at hv'
    exact absurd hv'.2 hv
  | undone hu ho hd hr =>
    have hg := hd.grown ho.inv (ho.live_iff.2 (.inl rfl))
    rw [hr.live, Finset.mem_erase, hg.frame.liveVma, ho.live_iff] at hv'
    exact absurd (hv'.2.resolve_left hv'.1) hv
  | @done s _ u n pg hu ho hd =>
    have hg := hd.grown ho.inv (ho.live_iff.2 (.inl rfl))
    rw [hg.frame.liveVma, ho.live_iff] at hv'
    obtain rfl := hv'.resolve_right hv
    exact ⟨u, hu, s, pg, ho, hd⟩

/-! ### What all areas of an address space have -/

/-- A property of areas that copies have too. -/
structure Hereditary (P : VmaArea → Prop) : Prop where
  pgfm : ∀ area p, P area → P { area with pgfm := p }
  copy : ∀ area area', Copies area area' → P area → P area'

variable {P : VmaArea → Prop}

theorem all_sameSpace (hs : x.SameSpace x' v) (h : ∀ a ∈ x.list v, P (x.areas a)) :
    ∀ a ∈ x'.list v, P (x'.areas a) := by
  intro a ha
  rw [hs.list] at ha
  rw [hs.areas a ha]
  exact h a ha

theorem all_added (hP : Hereditary P) (hinv : x.VmInv) (hv : v ∈ x.live .vma)
    (ha : x.Added x' v a area) (harea : P area) (h : ∀ a ∈ x.list v, P (x.areas a)) :
    ∀ a ∈ x'.list v, P (x'.areas a) := by
  intro b hb
  rcases ha.mem_list.1 hb with rfl | hb
  · rw [ha.made]
    exact hP.pgfm area _ harea
  · rw [ha.areas_live (hinv.mem_live hv hb)]
    exact h b hb

theorem mem_list_of_removed (hr : x.Removed x' v a) (hinv : x.VmInv) (hv : v ∈ x.live .vma) :
    b ∈ x'.list v ↔ b ≠ a ∧ b ∈ x.list v := by
  rw [hr.list]
  exact (hinv.listed v hv).nodup.mem_erase_iff

theorem all_removed (hinv : x.VmInv) (hv : v ∈ x.live .vma) (hr : x.Removed x' v a)
    (h : ∀ a ∈ x.list v, P (x.areas a)) : ∀ a ∈ x'.list v, P (x'.areas a) := by
  intro b hb
  obtain ⟨hba, hb⟩ := (mem_list_of_removed hr hinv hv).1 hb
  rw [hr.areas b hba]
  exact h b hb

theorem Dups.all {l : List ℕ} {ok : Bool} (hd : Dups v x l ok x') (hok : ok = true)
    (hP : Hereditary P) (hinv : x.VmInv) (hv : v ∈ x.live .vma) (hl : ∀ b ∈ l, b ∈ x.live .vmaArea)
    (hsrc : ∀ b ∈ l, P (x.areas b)) (h : ∀ a ∈ x.list v, P (x.areas a)) :
    ∀ a ∈ x'.list v, P (x'.areas a) := by
  induction hd with
  | nil => exact h
  | refused => cases hok
  | @copied x y x' a b l ok area hc ha _ hd ih =>
    have hlx : ∀ c ∈ l, c ∈ x.live .vmaArea := fun c hcl => hl c (List.mem_cons_of_mem b hcl)
    refine ih hok ha.inv (by rw [ha.frame.liveVma]; exact hv)
      (fun c hcl => ha.grown.live (hlx c hcl)) (fun c hcl => ?_) ?_
    · rw [ha.areas_live (hlx c hcl)]
      exact hsrc c (List.mem_cons_of_mem b hcl)
    · exact all_added hP hinv hv ha (hP.copy _ _ hc (hsrc b List.mem_cons_self)) h

/-! ### Tidy address spaces -/

/-- The areas are in order, agree with each other, and are what the page table maps. -/
structure Tidy (x : VmState A) (v : ℕ) : Prop where
  sorted : x.Sorted v
  agrees : ∀ a ∈ x.list v, ∀ b ∈ x.list v, (x.areas a).Agrees (x.areas b)
  mapped : ∀ w < tableSpan, ∀ e, PteValid e → (x.entry v w = some e ↔
    ∃ a ∈ x.list v, (x.areas a).Covers w ∧ (x.areas a).pte w = e)

/-- An area that may be asked for: it does not wrap, and it agrees with the areas there. -/
structure Fits (x : VmState A) (v : ℕ) (area : VmaArea) : Prop where
  plain : area.Plain
  agrees : ∀ b ∈ x.list v, area.Agrees (x.areas b)

/-- A low request fits where all areas are low. -/
theorem Fits.of_low (h : x.VmInv) (hv : v ∈ x.live .vma) (hlow : area.Low)
    (hva : area.va % pageSize = 0) (hsize : area.size % pageSize = 0) (hpos : 0 < area.size)
    (hall : ∀ b ∈ x.list v, (x.areas b).Low) : x.Fits v area := by
  refine ⟨hlow.plain, fun b hb w _ hc hc' => ?_⟩
  have hok := h.list_ok hv hb
  by_contra hno
  exact hlow.apart (hall b hb) hva hsize hpos hok.va_aligned hok.size_aligned hok.size_pos hno
    hc hc'

/-- Two areas of a sorted list do not overlap. -/
theorem Sorted.not_overlaps (h : x.Sorted v) (ha : a ∈ x.list v) (hb : b ∈ x.list v)
    (hne : a ≠ b) : ¬ (x.areas a).Overlaps (x.areas b) := by
  have hforall : (x.list v).Pairwise fun a b => ¬ (x.areas a).Overlaps (x.areas b) :=
    h.pairwise.imp fun {c d} hcd hover => absurd hover.2 (Nat.not_lt.2 hcd)
  have hsymm : Std.Symm fun a b => ¬ (x.areas a).Overlaps (x.areas b) :=
    ⟨fun c d hcd hover => hcd ⟨hover.2, hover.1⟩⟩
  exact hforall.forall ha hb hne

namespace Tidy

/-- A range behind all areas of an address space is free in its tree and in its page table. -/
theorem behind (h : x.Tidy v) (hinv : x.VmInv) (hv : v ∈ x.live .vma) (hlow : area.Low)
    (hva : area.va % pageSize = 0) (hsize : area.size % pageSize = 0) (hpos : 0 < area.size)
    (hall : ∀ b ∈ x.list v, (x.areas b).va + (x.areas b).size ≤ area.va) :
    x.inTheWay v area = none ∧
      ∀ w < tableSpan, area.Covers w → ¬ x.mem.ValidAt 2 (x.root v) w := by
  have hno : ∀ b ∈ x.list v, ¬ area.Overlaps (x.areas b) := fun b hb hover =>
    absurd hover.1 (Nat.not_lt.2 (hall b hb))
  refine ⟨(h.sorted.inTheWay_eq_none (hinv.listed v hv) hlow.plain).2 hno, ?_⟩
  rintro w hw hc ⟨e, he, hve⟩
  obtain ⟨b, hb, hcb, -⟩ := (h.mapped w hw e hve).1 he
  have hok := hinv.list_ok hv hb
  have hblow : (x.areas b).Low := by
    have hle := hall b hb
    unfold VmaArea.Low at *
    omega
  exact hlow.apart hblow hva hsize hpos hok.va_aligned hok.size_aligned hok.size_pos (hno b hb) hc
    hcb

/-- Two areas have no position in common. -/
theorem apart (h : x.Tidy v) (ha : a ∈ x.list v) (hb : b ∈ x.list v) (hne : a ≠ b)
    (hw : w < tableSpan) (hc : (x.areas a).Covers w) : ¬ (x.areas b).Covers w :=
  fun hc' => h.sorted.not_overlaps ha hb hne (h.agrees a ha b hb w hw hc hc')

theorem sameSpace (h : x.Tidy v) (hs : x.SameSpace x' v) : x'.Tidy v where
  sorted := h.sorted.sameSpace hs
  agrees a ha b hb := by
    rw [hs.list] at ha hb
    rw [hs.areas a ha, hs.areas b hb]
    exact h.agrees a ha b hb
  mapped w hw e he := by
    rw [hs.entries w hw e he, h.mapped w hw e he, hs.list]
    refine exists_congr fun a => and_congr_right fun ha => ?_
    rw [hs.areas a ha]

theorem added (h : x.Tidy v) (hinv : x.VmInv) (hv : v ∈ x.live .vma) (ha : x.Added x' v a area)
    (hf : x.Fits v area) : x'.Tidy v := by
  have hold : ∀ b ∈ x.list v, x'.areas b = x.areas b := fun b hb =>
    ha.areas_live (hinv.mem_live hv hb)
  have hal : a ∈ x'.list v := ha.mem_list.2 (.inl rfl)
  have hvx : v ∈ x'.live .vma := by
    rw [ha.frame.liveVma]
    exact hv
  have hva : (x'.areas a).va = area.va := by
    rw [ha.made]
  have hsize : (x'.areas a).size = area.size := by
    rw [ha.made]
  have hnew : ∀ b ∈ x.list v, (x'.areas a).Agrees (x'.areas b) := by
    intro b hb
    rw [hold b hb]
    exact (hf.agrees b hb).congr hva hsize rfl rfl
  refine ⟨h.sorted.added hinv hv ha hf.plain, fun b hb c hc => ?_, fun w hw e he => ?_⟩
  · rcases ha.mem_list.1 hb with rfl | hb
    · rcases ha.mem_list.1 hc with rfl | hc
      · exact VmaArea.agrees_self (ha.inv.list_ok hvx hal).size_pos
      · exact hnew c hc
    · rcases ha.mem_list.1 hc with rfl | hc
      · intro w hw hcb hcc
        obtain ⟨h1, h2⟩ := hnew b hb w hw hcc hcb
        exact ⟨h2, h1⟩
      · rw [hold b hb, hold c hc]
        exact h.agrees b hb c hc
  · rw [ha.entry_valid hw he, h.mapped w hw e he]
    have hcov : ((x'.areas a).Covers w ∧ (x'.areas a).pte w = e) ↔
        area.Covers w ∧ area.pte w = e := by
      rw [ha.made, VmaArea.covers_pgfm, VmaArea.pte_pgfm]
    constructor
    · rintro (⟨b, hb, hbw⟩ | hw')
      · exact ⟨b, ha.mem_list.2 (.inr hb), by rw [hold b hb]; exact hbw⟩
      · exact ⟨a, hal, hcov.2 hw'⟩
    · rintro ⟨b, hb, hbw⟩
      rcases ha.mem_list.1 hb with rfl | hb
      · exact .inr (hcov.1 hbw)
      · rw [hold b hb] at hbw
        exact .inl ⟨b, hb, hbw⟩

/-- The positions of an area that is removed have no valid entry any more. -/
theorem removed_entry (h : x.Tidy v) (ha : a ∈ x.list v) (hr : x.Removed x' v a)
    (hw : w < tableSpan) (hc : (x.areas a).Covers w) {e : ℕ} (he : PteValid e) :
    x'.entry v w ≠ some e := by
  intro hent
  by_cases hv : (x.areas a).prot % 2 = 1
  · -- all entries of the area are there, so all of them are cleared
    have hall : ∀ u < tableSpan, (x.areas a).Covers u → x.entry v u ≠ none := by
      intro u hu huc
      have hvalid : PteValid ((x.areas a).pte u) := pteValid_pa2PTE.2 hv
      rw [(h.mapped u hu _ hvalid).2 ⟨a, ha, huc, rfl⟩]
      exact Option.some_ne_none _
    exact (hr.exact hall w hw hc).ne_valid he hent
  · -- no entry of the area was valid
    have hx : x.entry v w = some e := by
      rcases hr.erased w hw with h1 | ⟨h1, -⟩
      · rwa [← h1]
      · exact absurd hent (h1.ne_valid he)
    obtain ⟨b, hb, hbc, rfl⟩ := (h.mapped w hw e he).1 hx
    by_cases hba : b = a
    · rw [hba] at he
      exact hv (pteValid_pa2PTE.1 he)
    · exact h.apart ha hb (Ne.symm hba) hw hc hbc

theorem removed (h : x.Tidy v) (hinv : x.VmInv) (hv : v ∈ x.live .vma) (ha : a ∈ x.list v)
    (hr : x.Removed x' v a) : x'.Tidy v := by
  refine ⟨h.sorted.removed hinv hv hr, fun b hb c hc => ?_, fun w hw e he => ?_⟩
  · obtain ⟨hba, hb⟩ := (mem_list_of_removed hr hinv hv).1 hb
    obtain ⟨hca, hc⟩ := (mem_list_of_removed hr hinv hv).1 hc
    rw [hr.areas b hba, hr.areas c hca]
    exact h.agrees b hb c hc
  · constructor
    · intro hent
      have hx : x.entry v w = some e := by
        rcases hr.erased w hw with h1 | ⟨h1, -⟩
        · rwa [← h1]
        · exact absurd hent (h1.ne_valid he)
      obtain ⟨b, hb, hbw⟩ := (h.mapped w hw e he).1 hx
      have hba : b ≠ a := by
        rintro rfl
        exact h.removed_entry hb hr hw hbw.1 he hent
      exact ⟨b, (mem_list_of_removed hr hinv hv).2 ⟨hba, hb⟩, by rw [hr.areas b hba]; exact hbw⟩
    · rintro ⟨b, hb, hbw⟩
      obtain ⟨hba, hb⟩ := (mem_list_of_removed hr hinv hv).1 hb
      rw [hr.areas b hba] at hbw
      have hx := (h.mapped w hw e he).2 ⟨b, hb, hbw⟩
      rcases hr.erased w hw with h1 | ⟨-, hgone | hc⟩
      · rwa [h1]
      · exact absurd hx (hgone.ne_valid he)
      · exact absurd hc (h.apart hb ha hba hw hbw.1)

theorem of_opened {pg : ℕ} (ho : x.Opened s v pg) : s.Tidy v where
  sorted := .nil ho.list
  agrees a ha := by
    rw [ho.list] at ha
    cases ha
  mapped w hw e he := by
    refine ⟨fun hent => absurd hent (ho.entry w hw e he), ?_⟩
    rintro ⟨a, ha, -⟩
    rw [ho.list] at ha
    cases ha

end Tidy

/-- The copies of areas that agree with each other make a tidy address space. -/
theorem Dups.tidy {l : List ℕ} {ok : Bool} (hd : Dups v x l ok x') (hok : ok = true)
    (hinv : x.VmInv) (hv : v ∈ x.live .vma) (h : x.Tidy v) (hl : ∀ b ∈ l, b ∈ x.live .vmaArea)
    (hplain : ∀ b ∈ l, (x.areas b).Plain)
    (hagree : ∀ b ∈ l, ∀ c ∈ l, (x.areas b).Agrees (x.areas c))
    (hold : ∀ b ∈ l, ∀ c ∈ x.list v, (x.areas b).Agrees (x.areas c)) : x'.Tidy v := by
  induction hd with
  | nil => exact h
  | refused => cases hok
  | @copied x y x' a b l ok area hc ha _ hd ih =>
    have hlx : ∀ c ∈ l, c ∈ x.live .vmaArea := fun c hcl => hl c (List.mem_cons_of_mem b hcl)
    have hareas : ∀ c ∈ l, y.areas c = x.areas c := fun c hcl => ha.areas_live (hlx c hcl)
    have hfit : x.Fits v area := by
      refine ⟨?_, fun c hcv => ?_⟩
      · unfold VmaArea.Plain
        rw [hc.va, hc.size]
        exact hplain b List.mem_cons_self
      · exact (hold b List.mem_cons_self c hcv).congr hc.va hc.size rfl rfl
    refine ih hok ha.inv (by rw [ha.frame.liveVma]; exact hv) (h.added hinv hv ha hfit)
      (fun c hcl => ha.grown.live (hlx c hcl)) (fun c hcl => ?_) (fun c hcl d hdl => ?_)
      fun c hcl d hd => ?_
    · rw [hareas c hcl]
      exact hplain c (List.mem_cons_of_mem b hcl)
    · rw [hareas c hcl, hareas d hdl]
      exact hagree c (List.mem_cons_of_mem b hcl) d (List.mem_cons_of_mem b hdl)
    · rw [hareas c hcl]
      rcases ha.mem_list.1 hd with rfl | hd
      · refine (hagree c (List.mem_cons_of_mem b hcl) b List.mem_cons_self).congr rfl rfl ?_ ?_
        · rw [ha.made]
          exact hc.va
        · rw [ha.made]
          exact hc.size
      · rw [ha.areas_live (hinv.mem_live hv hd)]
        exact hold c (List.mem_cons_of_mem b hcl) d hd

/-- A call keeps an address space tidy when what it asks for fits. -/
theorem Effect.tidy (he : x.Effect call x') (h : x.Inv) (hv : v ∈ x.live .vma)
    (hv' : v ∈ x'.live .vma) (ht : x.Tidy v)
    (hfit : ∀ area, x.Asks v area call → x.Fits v area) : x'.Tidy v := by
  rcases he.space_cases h hv hv' with hs | ⟨a, area, hask, ha⟩ | ⟨a, ha, hr⟩
  · exact ht.sameSpace hs
  · exact ht.added h.vm hv ha (hfit area hask)
  · exact ht.removed h.vm hv ha hr

/-- A new address space is tidy when the areas that were copied agree with each other. -/
theorem Opened.tidy {pg : ℕ} (ho : x.Opened s v pg) (hd : Dups v s (x.list u) true x')
    (h : x.Inv) (hu : u ∈ x.live .vma) (hplain : ∀ b ∈ x.list u, (x.areas b).Plain)
    (hagree : ∀ b ∈ x.list u, ∀ c ∈ x.list u, (x.areas b).Agrees (x.areas c)) : x'.Tidy v := by
  refine hd.tidy rfl ho.inv (ho.live_iff.2 (.inl rfl)) (.of_opened ho) (fun b hb => ?_)
    (fun b hb => ?_) (fun b hb c hc => ?_) fun b hb c hc => ?_
  · rw [ho.liveAreas]
    exact h.vm.mem_live hu hb
  · rw [ho.areas]
    exact hplain b hb
  · rw [ho.areas]
    exact hagree b hb c hc
  · rw [ho.list] at hc
    cases hc

end VmState

end AcoOs
