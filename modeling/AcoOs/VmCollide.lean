/-
Areas that the tree takes although the page table has an entry in their way.

The tree compares 64-bit ranges, and the page table looks at 27 bits of an address.  So an area can
be new to the tree and collide with an entry of the page table: when the range wraps around at
`2 ^ 64`, or when addresses differ only above bit 38.  The `ASSERT` of the callbacks then fails.

* **`mmap_never_eexist`** — in every run whose requests fit (they do not wrap, and they have a
  position of the page table in common with an area only if they overlap it) no such `ASSERT` fails;
* **`not_mmap_never_eexist`** — a request `2 ^ 39` above a page of the kernel makes it fail.
-/
import AcoOs.VmTranslation

namespace AcoOs

open Memory

variable {L : VmLayout} {A : VmEnv L} {area : VmaArea}

namespace VmState

variable {x x' y s : VmState A} {v w u a b : ℕ} {call : VmCall}

/-! ### Which call can collide -/

/-- What makes the `ASSERT` on `-EEXIST` fail: the area that a call asks for collides, or one that
`vma_dup` is about to copy. -/
inductive Collision (x : VmState A) (call : VmCall) : Prop
  | asked {v : ℕ} {area : VmaArea} (hv : v ∈ x.live .vma) (hask : x.Asks v area call)
      (hc : x.Collides v area) : Collision x call
  | copied {u v pg b : ℕ} {l₁ l₂ : List ℕ} {s y : VmState A} (hu : u ∈ x.live .vma)
      (ho : x.Opened s v pg) (hl : x.list u = l₁ ++ b :: l₂) (hd : Dups v s l₁ true y)
      (hc : y.Collides v (y.areas b)) : Collision x call

theorem MapEnd.collision {r : Except VmAssert (ℤ × VmState A)} (h : x.MapEnd v area r)
    (hr : r = .error .eexist) (hv : v ∈ x.live .vma) (hask : x.Asks v area call) :
    x.Collision call := by
  cases h with
  | stopped hne hex =>
    cases hr
    exact .asked hv hask (hex rfl)
  | refused => cases hr
  | added => cases hr

theorem UnmapEnd.ne_eexist {r : Except VmAssert (ℤ × VmState A)} (h : x.UnmapEnd v r) :
    r ≠ .error .eexist := by
  rintro rfl
  cases h with
  | stopped hne => rcases hne with h | h <;> cases h

theorem DupEnd.collision {r : Except VmAssert (ℕ × VmState A)} (h : x.DupEnd u r)
    (hr : r = .error .eexist) (hu : u ∈ x.live .vma) : x.Collision call := by
  cases h with
  | stopped hne hex =>
    cases hr
    obtain ⟨v, pg, s, l₁, b, l₂, y, ho, hl, hd, hc⟩ := hex rfl
    exact .copied hu ho hl hd hc
  | nothing => cases hr
  | undone => cases hr
  | done => cases hr

theorem map_eq_error {α β ε : Type} {f : α → β} {r : Except ε α} {e : ε}
    (h : r.map f = .error e) : r = .error e := by
  cases r with
  | error =>
    cases h
    rfl
  | ok => cases h

/-- A call that fails the `ASSERT` on `-EEXIST` has met a collision. -/
theorem exec_eexist (h : x.Inv) (hc : call.Valid x) (he : x.exec call = .error .eexist) :
    x.Collision call := by
  obtain ⟨hwords, hvma⟩ := hc
  cases call with
  | vmaAlloc =>
    exact (vmaDup_end h.vm h.referenced h.vm.kern_live).collision (map_eq_error he) h.vm.kern_live
  | vmaDup u =>
    have he := map_eq_error he
    rcases hvma with h0 | hu
    · rw [show x.vmaDup u = _ from if_pos (.inl h0)] at he
      cases he
    · exact (vmaDup_end h.vm h.referenced hu).collision he hu
  | vmaFree v =>
    have he := map_eq_error he
    rcases hvma with h0 | hv
    · rw [show x.vmaFree v = _ from if_pos h0] at he
      cases he
    have hv : v ∈ x.live .vma := hv
    by_cases hk : v = x.kernVma
    · unfold vmaFree at he
      rw [if_neg (h.vm.ne_zero hv), if_pos hk] at he
      cases he
    · rcases vmaFree_cases h.vm h.referenced hv hk with ⟨he', -⟩ | ⟨x', he', -⟩ <;>
      · rw [he'] at he
        cases he
  | vmIomap v va pa prot size =>
    have he : x.vmIomap v va pa prot size = _ := he
    rcases vmIomap_eq x v va pa prot size with ⟨-, ret, -, he'⟩ | ⟨hacc, -⟩
    · rw [he'] at he
      cases he
    · have hv := hvma.resolve_left hacc.2.2.1
      exact (vmIomap_end h hv hacc hwords.1 hwords.2.1).collision he hv ⟨rfl, rfl⟩
  | vmIounmap v va size =>
    have he : x.vmIounmap v va size = _ := he
    rcases hvma with h0 | hv
    · obtain ⟨ret, -, he'⟩ := vmIounmap_null (x := x) (show v = 0 from h0) va size
      rw [he'] at he
      cases he
    · exact absurd he (vmIounmap_end h.vm hv va size).ne_eexist
  | vmMmap v va order prot =>
    have he : x.vmMmap v va order prot = _ := he
    by_cases hacc : MmapAccepts L v va order
    · have hv : v ∈ x.live .vma := hvma.resolve_left hacc.1
      rcases vmMmap_end h hv hacc hwords prot with ⟨x', -, he', -⟩ | ⟨p, hp, hend⟩
      · rw [he'] at he
        cases he
      · exact hend.collision he hv ⟨rfl, p, hp, rfl⟩
    · rw [vmMmap_refuses hacc] at he
      cases he
  | vmUnmap v va order =>
    have he : x.vmUnmap v va order = _ := he
    rcases hvma with h0 | hv
    · rw [show x.vmUnmap v va order = _ from if_pos (.inl h0)] at he
      cases he
    · exact absurd he (vmUnmap_end h.vm hv va order).ne_eexist

/-! ### Requests that fit -/

/-- An area that fits into a tidy address space does not collide. -/
theorem Tidy.not_collides (ht : x.Tidy v) (h : x.VmInv) (hv : v ∈ x.live .vma)
    (hf : x.Fits v area) : ¬ x.Collides v area := by
  rintro ⟨hway, w, hw, hc, e, hent, he⟩
  obtain ⟨a, ha, hca, -⟩ := (ht.mapped w hw e he).1 hent
  exact (ht.sorted.inTheWay_eq_none (h.listed v hv) hf.plain).1 hway a ha
    (hf.agrees a ha w hw hc hca)

theorem hereditary_agrees (area : VmaArea) : Hereditary area.Agrees where
  pgfm _ _ h := h.congr rfl rfl rfl rfl
  copy _ _ hc h := h.congr rfl rfl hc.va hc.size

/-- The copies of the areas of a tidy address space do not collide. -/
theorem Tidy.not_collides_copy {pg : ℕ} {l₁ l₂ : List ℕ} (ht : x.Tidy u) (h : x.Inv)
    (hu : u ∈ x.live .vma) (ho : x.Opened s v pg) (hl : x.list u = l₁ ++ b :: l₂)
    (hd : Dups v s l₁ true y) : ¬ y.Collides v (y.areas b) := by
  have hvs : v ∈ s.live .vma := ho.live_iff.2 (.inl rfl)
  have hg := hd.grown ho.inv hvs
  have hmem : ∀ c ∈ l₁, c ∈ x.list u := fun c hc => hl ▸ List.mem_append_left _ hc
  have hb : b ∈ x.list u := hl ▸ List.mem_append_right _ List.mem_cons_self
  have hlive : ∀ c ∈ x.list u, c ∈ s.live .vmaArea := fun c hc => by
    rw [ho.liveAreas]
    exact h.vm.mem_live hu hc
  have hyb : y.areas b = x.areas b := by
    rw [hg.areas b (hlive b hb), ho.areas]
  have hty : y.Tidy v := by
    refine hd.tidy rfl ho.inv hvs (.of_opened ho) (fun c hc => hlive c (hmem c hc))
      (fun c hc => ?_) (fun c hc d hd => ?_) fun c hc d hd => ?_
    · rw [ho.areas]
      exact ht.sorted.plain c (hmem c hc)
    · rw [ho.areas]
      exact ht.agrees c (hmem c hc) d (hmem d hd)
    · rw [ho.list] at hd
      cases hd
  have hagree : ∀ c ∈ y.list v, (x.areas b).Agrees (y.areas c) := by
    refine hd.all rfl (hereditary_agrees (x.areas b)) ho.inv hvs
      (fun c hc => hlive c (hmem c hc)) (fun c hc => ?_) fun c hc => ?_
    · rw [ho.areas]
      exact ht.agrees b hb c (hmem c hc)
    · rw [ho.list] at hc
      cases hc
  have hvy : v ∈ y.live .vma := by
    rw [hg.frame.liveVma]
    exact hvs
  rw [hyb]
  exact hty.not_collides hg.inv hvy ⟨ht.sorted.plain b hb, hagree⟩

end VmState

open VmState

/-- What a call asks for fits the areas that are there. -/
def VmCall.Fits (x : VmState A) (call : VmCall) : Prop :=
  ∀ v area, x.Asks v area call → x.Fits v area

/-- The runs in which every request fits. -/
def fitRuns (A : VmEnv L) : Machine.System (VmState A) VmCall :=
  (vmRuns A).restrict fun x call => call.Fits x

namespace VmState

variable {x x' : VmState A} {v : ℕ} {call : VmCall}

/-- Every address space is tidy. -/
def TidySpaces (x : VmState A) : Prop := ∀ v ∈ x.live .vma, x.Tidy v

theorem Effect.tidySpaces (he : x.Effect call x') (h : x.Inv) (hfit : call.Fits x)
    (hall : x.TidySpaces) : x'.TidySpaces := by
  intro v hv'
  by_cases hv : v ∈ x.live .vma
  · exact he.tidy h hv hv' (hall v hv) fun area hask => hfit v area hask
  · obtain ⟨u, hu, y, pg, ho, hd⟩ := he.born hv hv'
    have ht := hall u hu
    exact ho.tidy hd h hu ht.sorted.plain ht.agrees

theorem tidy_reachable (h : (fitRuns A).Reachable x) : x.Inv ∧ x.TidySpaces := by
  refine h.invariant (P := fun x => x.Inv ∧ x.TidySpaces) (fun s hs => ?_)
    fun s call s' _ hinv hstep => ?_
  · obtain ⟨x₀, pgtable, hboot, hinit⟩ := hs
    obtain ⟨text, data, hb⟩ := hboot.booted hinit
    exact ⟨hb.inv, fun v hv => (hb.lowSpaces v hv).1⟩
  · obtain ⟨hs, hall⟩ := hinv
    obtain ⟨hfit, hst⟩ := hstep
    have he := effect_of_step hs hst
    exact ⟨he.inv hs, he.tidySpaces hs hfit hall⟩

end VmState

/-- In every run whose requests fit, the `ASSERT` that `hw_mmap` does not return `-EEXIST` holds in
every call. -/
theorem mmap_never_eexist (x : VmState A) (h : (fitRuns A).Reachable x) (call : VmCall)
    (hc : call.Valid x) (hfit : call.Fits x) : x.exec call ≠ .error .eexist := by
  obtain ⟨hinv, hall⟩ := tidy_reachable h
  intro he
  cases exec_eexist hinv hc he with
  | asked hv hask hcol => exact (hall _ hv).not_collides hinv.vm hv (hfit _ _ hask) hcol
  | copied hu ho hl hd hcol => exact (hall _ hu).not_collides_copy hinv hu ho hl hd hcol

/-- The page behind the managed range is mapped by `vm_mmap`, and a second request for it fits. -/
theorem mmap_never_eexist_twice : ∃ s x : VmState vmMachine, (vmRuns vmMachine).init s ∧
    (fitRuns vmMachine).Run s [.vmMmap s.kernVma vmMachineLayout.vaEnd 0 7] x ∧
    x.exec (.vmIomap s.kernVma vmMachineLayout.vaEnd 4096 1 4096) ≠ .error .eexist ∧
    x.exec (.vmIomap s.kernVma (vmMachineLayout.vaEnd + 4096) 4096 1 4096) ≠ .error .eexist := by
  obtain ⟨s, x, text, data, p, a, hs, hb, hx, ha, hr, -⟩ := vmMachine_mmap
  have hk := hb.vm.kern_live
  have hinv := inv_reachable hr
  have hkx : s.kernVma ∈ x.live .vma := ha.frame.kernVma ▸ hinv.vm.kern_live
  have hstep : (fitRuns vmMachine).step s (.vmMmap s.kernVma vmMachineLayout.vaEnd 0 7) x := by
    refine ⟨?_, ⟨show _ < _ by decide, .inr hk⟩, 0, hx⟩
    rintro v area ⟨rfl, p, -, rfl⟩
    exact Fits.of_low hb.vm hk (vmMachine_page_low p)
      (show vmMachineLayout.vaEnd % pageSize = 0 by decide)
      (show 2 ^ 0 * pageSize % pageSize = 0 by decide) (show 0 < 2 ^ 0 * pageSize by decide) hb.low
  have hreach : (fitRuns vmMachine).Reachable x := .step (.of_init hs) hstep
  have hfits : ∀ va, va % pageSize = 0 → va + 4096 ≤ 2 ^ 39 →
      (VmCall.vmIomap s.kernVma va 4096 1 4096).Fits x := by
    rintro va hva hlt v area ⟨rfl, rfl⟩
    exact Fits.of_low hinv.vm hkx (show (ioArea va 4096 1 4096).Low from hlt) hva
      (show pageUpperAlign 4096 % pageSize = 0 by decide)
      (show 0 < pageUpperAlign 4096 by decide) fun b hbl => (vmMachine_page_areas hb ha hbl).1
  refine ⟨s, x, hs, .single hstep, ?_, ?_⟩
  · exact mmap_never_eexist x hreach _ ⟨⟨by decide, by decide, by decide⟩, .inr hkx⟩
      (hfits _ (by decide) (by decide))
  · exact mmap_never_eexist x hreach _ ⟨⟨by decide, by decide, by decide⟩, .inr hkx⟩
      (hfits _ (by decide) (by decide))

/-- A page `2 ^ 39` above the kernel is new to the tree, and the page table has an entry there. -/
theorem not_mmap_never_eexist : ∃ (s x : VmState vmMachine) (v : ℕ),
    (vmRuns vmMachine).init s ∧ s.vmaAlloc = .ok (v, x) ∧ v ≠ 0 ∧
    x.inTheWay v (ioArea (2 ^ 31 + 2 ^ 39) 4096 1 4096) = none ∧
    x.vmIomap v (2 ^ 31 + 2 ^ 39) 4096 1 4096 = .error .eexist := by
  obtain ⟨s, x, v, c, hs, hx, hv0, hr, hv, hc, ⟨hva, hsize, -, hprot⟩, -, hfree⟩ :=
    vmMachine_space
  have hinv := inv_reachable hr.of_restrict
  obtain ⟨ht, hall⟩ := (low_reachable hr).2 v hv
  have hplain : (ioArea (2 ^ 31 + 2 ^ 39) 4096 1 4096).Plain := by
    unfold VmaArea.Plain
    decide
  have hway : x.inTheWay v (ioArea (2 ^ 31 + 2 ^ 39) 4096 1 4096) = none := by
    refine (ht.sorted.inTheWay_eq_none (hinv.vm.listed v hv) hplain).2 fun b hb hover => ?_
    have hlow : (x.areas b).va + (x.areas b).size ≤ 2 ^ 39 := (hall b hb).low
    have hlt : 2 ^ 31 + 2 ^ 39 < (x.areas b).va + (x.areas b).size := hover.1
    omega
  refine ⟨s, x, v, hs, hx, hv0, hway, ?_⟩
  -- the page of the kernel has a valid entry
  have hcov : (x.areas c).Covers (2 ^ 19) := by
    unfold VmaArea.Covers
    rw [hva, hsize]
    exact ⟨by decide, by decide⟩
  have hvalid : PteValid ((x.areas c).pte (2 ^ 19)) := by
    refine pteValid_pa2PTE.2 ?_
    rw [hprot]
  have hent := (ht.mapped (2 ^ 19) (by decide) _ hvalid).2 ⟨c, hc, hcov, rfl⟩
  have hacc : IomapAccepts vmMachineLayout v (2 ^ 31 + 2 ^ 39) 4096 4096 :=
    ⟨by decide, by decide, hv0, by decide, by decide, by decide⟩
  have hreq : x.Request (ioArea (2 ^ 31 + 2 ^ 39) 4096 1 4096) :=
    ioArea_request hacc (by norm_num) (by norm_num) (by decide) 1
  rcases vmIomap_eq x v (2 ^ 31 + 2 ^ 39) 4096 1 4096 with ⟨hn, -⟩ | ⟨-, heq⟩
  · exact absurd hacc hn
  rw [heq]
  obtain ⟨a, y, hy, hfy⟩ := objAlloc_succeeds vmMachine_ample x .vmaArea
  rcases vmMmapInternal_cases hinv.vm hv hreq with ⟨e, he, hst⟩ | ⟨ret, x', -, hwhy, -⟩ |
    ⟨a, x', -, -, -, hm⟩
  · rcases hst with ⟨-, hneg⟩ | ⟨rfl, -⟩
    · exact absurd hneg (by decide)
    · exact he
  · rw [hy] at hwhy
    rcases hwhy with ⟨-, hn⟩ | ⟨-, ⟨-, hn⟩ | ⟨-, -, hex, -⟩⟩
    · cases hn
    · exact absurd hway hn
    · exact absurd hex (Memory.not_exhausts vmMachine_ample.pages (by rw [hfy]; omega))
  · exact absurd ⟨_, hent, hvalid⟩ (hm.wrote (2 ^ 19) (by decide) ⟨by decide, by decide⟩).1

end AcoOs
