/-
Pages of areas that are being removed, on any number of CPUs.

`Ownership` is the invariant of the runs in which the last reference to a block is dropped only for
an area without `PROT_V`.  In those runs the block of an area stays one for areas as long as there
are valid entries to it; in others `unmmap_memory_cb` gives the block back before `hw_unmap`.
-/
import AcoOs.VmAlone
import AcoOs.VmContents
import AcoOs.VmMoves

namespace AcoOs

open Memory Machine VmState VmPc

variable {L : VmLayout} {A : VmEnv L}

namespace VmPc

variable {x : VmState A} {pc : VmPc} {v a : ℕ}

/-- An address space that is read has a page table. -/
theorem Ok.reads (h : pc.Ok x) (hv : pc.reads = some v) : v ∈ x.tabled := by
  cases pc with
  | copying u w rest =>
    cases hv
    exact h.1.tabled
  | taken | adding | hanging | hung | entered | discarding | failed | returned =>
    exact (h.1.source v hv).tabled
  | _ => cases hv

/-- The area that is being removed. -/
theorem Ok.leaving (h : pc.Ok x) (ha : pc.removes = some (v, a)) : x.Leaving v a := by
  cases pc with
  | unhung whole w b =>
    cases ha
    exact h.2.2.1
  | freeing whole w b p =>
    cases ha
    exact h.2.2.1
  | clearing whole w b =>
    cases ha
    exact h.2.2
  | _ => cases ha

end VmPc

/-- A relation between any two of a family, when one of them changes. -/
theorem update_pairwise {α β : Type*} [DecidableEq α] {R : β → β → Prop} {f : α → β} {i : α} {b : β}
    (h : ∀ j k, j ≠ k → R (f j) (f k)) (hb : ∀ j, j ≠ i → R (f j) b ∧ R b (f j)) (j k : α)
    (hjk : j ≠ k) : R (Function.update f i b j) (Function.update f i b k) := by
  by_cases hj : j = i
  · have hk : k ≠ i := fun hk => hjk (hj.trans hk.symm)
    rw [hj, Function.update_self, Function.update_of_ne hk]
    exact (hb k hk).2
  · rw [Function.update_of_ne hj]
    by_cases hk : k = i
    · rw [hk, Function.update_self]
      exact (hb j hj).1
    · rw [Function.update_of_ne hk]
      exact h j k hjk

namespace VmCpus

variable {ι : Type} {σ : VmCpus A ι} {i j : ι} {x : VmState A} {pc : VmPc}
  {v a p q : ℕ} {P : Set ℕ} {owned : Finset ℕ}

/-- The books are in order, every area on a list is complete or somebody is about to complete it,
and nobody holds what another holds. -/
structure Ownership (σ : VmCpus A ι) : Prop where
  books : σ.st.Books
  settled : ∀ v ∈ σ.st.tabled, ∀ a ∈ σ.st.list v,
    σ.st.Settled v a ∨ ∃ i, (σ.pc i).hangs = some (v, a)
  ok : ∀ i, (σ.pc i).Ok σ.st
  compatible : ∀ i j, i ≠ j → (σ.pc i).Compatible (σ.pc j)
  hand : ∀ i j, i ≠ j → ∀ a, (σ.pc i).hand = some a → (σ.pc j).hand ≠ some a
  holds : ∀ i j, i ≠ j → ∀ p, (σ.pc i).holds = some p → (σ.pc j).holds ≠ some p
  owned : ∀ p ∈ σ.owned, σ.st.Loose p ∧ ∀ i, (σ.pc i).holds ≠ some p

namespace Ownership

/-! ### A section of one CPU -/

/-- The areas of an address space that a CPU reads or writes are complete. -/
theorem complete (h : σ.Ownership) (hq : ∀ j, j ≠ i → (σ.pc j).Compatible pc)
    (hv : pc.reads = some v ∨ pc.writes = some v) : Complete σ.st (σ.pc i) v := by
  intro hvt a ha
  rcases h.settled v hvt a ha with hs | ⟨j, hj⟩
  · exact .inl hs
  · by_cases hji : j = i
    · rw [hji] at hj
      exact .inr hj
    · -- another CPU would have the lock
      have hw := (hangs_writes hj).1
      exact hv.elim (fun hr => absurd hr ((hq j hji).read v hw))
        fun hw' => absurd hw' ((hq j hji).write v hw)

/-- The area that one CPU takes in hand is not in the hand of another. -/
theorem hand_ne (h : σ.Ownership) (hm : Moves σ.st (σ.pc i) x pc) (hwait : σ.Admits i pc)
    (hji : j ≠ i) (ha : pc.hand = some a) : (σ.pc j).hand ≠ some a := by
  intro hja
  obtain ⟨hlive, hor⟩ := (h.ok j).hand h.books hja
  rcases hm.hand a ha with hi | hn | ⟨v, hv, hw, hal⟩
  · exact h.hand i j (Ne.symm hji) a hi hja
  · exact hn hlive
  · rcases hor with hap | ⟨w, hwt, hjw, hjl⟩
    · exact hap.2 v hv hal
    · rw [h.books.owner w hwt v hv a hjl hal] at hjw
      exact (hwait j hji).2.write v hw hjw

/-- The block that one CPU comes to hold is not held by another. -/
theorem holds_ne (h : σ.Ownership) (hm : Moves σ.st (σ.pc i) x pc) (hji : j ≠ i)
    (hp : pc.holds = some p) : (σ.pc j).holds ≠ some p := by
  intro hjp
  have hheld := (h.ok j).holds hjp
  rcases hm.holds p hp with hi | hf | ⟨a, ha, hr⟩
  · exact h.holds i j (Ne.symm hji) p hi hjp
  · exact hheld.elim (fun hl => hl.notMem_free hf) fun hl => hl.notMem_free hf
  · exact hheld.elim (fun hl => hl.unused h.books a ha hr) fun hl => hl.2 a ha hr

/-- What one CPU changes is not what another relies on. -/
theorem spared (h : σ.Ownership) (hm : Moves σ.st (σ.pc i) x pc) (hwait : σ.Admits i pc)
    (hji : j ≠ i) : (σ.pc j).Spared σ.st (born (σ.pc i) pc) (touched (σ.pc i) pc)
      (handled (σ.pc i) pc) (atHand σ.st (σ.pc i)) := by
  have hij := h.compatible i j (Ne.symm hji)
  have hji' := h.compatible j i hji
  obtain ⟨hjp, hpj⟩ := hwait j hji
  have howns : ∀ v ∈ (σ.pc j).spaces, ¬ ((σ.pc i).owns = some v ∨ pc.owns = some v) :=
    fun v hv hor => hor.elim (fun ho => hij.owns v ho hv) fun ho => hpj.owns v ho hv
  refine ⟨fun v hv hor => howns v hv hor, fun v hv => ⟨?_, fun b hb hor => ?_⟩, fun v hv => ?_,
    fun v hv => ?_, fun a ha hor => ?_, fun p hp hor => ?_⟩
  · rintro ((hw | hw) | ho)
    · exact hij.read v hw hv
    · exact hpj.read v hw hv
    · exact howns v (mem_spaces_of_reads hv) ho
  · -- an area in hand is on no list that is being read
    have hvt := (h.ok j).reads hv
    have hlist : ∀ w ∈ σ.st.tabled, b ∈ σ.st.list w → w = v := fun w hw hbw =>
      h.books.owner w hw v hvt b hbw hb
    have hold : (σ.pc i).hand ≠ some b := by
      intro hi
      rcases ((h.ok i).hand h.books hi).2 with hap | ⟨w, hwt, hw, hbw⟩
      · exact hap.2 v hvt hb
      · rw [hlist w hwt hbw] at hw
        exact hij.read v hw hv
    rcases hor with hi | hi
    · exact hold hi
    · rcases hm.hand b hi with hi | hn | ⟨w, hwt, hw, hbw⟩
      · exact hold hi
      · exact hn (h.books.mem_live v hvt b hb)
      · rw [hlist w hwt hbw] at hw
        exact hpj.read v hw hv
  · rintro ((hw | hw) | ho)
    · exact hij.write v hw hv
    · exact hpj.write v hw hv
    · exact howns v (mem_spaces_of_writes hv) ho
  · rintro ((hw | hw) | ho)
    · exact hji'.owns v hv (mem_spaces_of_writes hw)
    · exact hjp.owns v hv (mem_spaces_of_writes hw)
    · exact howns v (mem_spaces_of_owns hv) ho
  · rcases hor with hi | hi
    · exact h.hand i j (Ne.symm hji) a hi ha
    · exact h.hand_ne hm hwait hji hi ha
  · rcases hor with hi | hf
    · exact h.holds i j (Ne.symm hji) p hi hp
    · exact ((h.ok j).holds hp).elim (fun hl => hl.notMem_free hf) fun hl => hl.notMem_free hf

/-- A section of one CPU keeps the invariant. -/
theorem moved [DecidableEq ι] (h : σ.Ownership) (hm : Moves σ.st (σ.pc i) x pc)
    (hwait : σ.Admits i pc) : (σ.moved i x pc).Ownership := by
  have hself : (σ.moved i x pc).pc i = pc := Function.update_self (β := fun _ => VmPc) _ _ _
  have hother : ∀ j, j ≠ i → (σ.moved i x pc).pc j = σ.pc j := fun j hj =>
    Function.update_of_ne (β := fun _ => VmPc) hj _ _
  refine ⟨hm.books, fun v hv a ha => ?_, fun j => ?_, update_pairwise h.compatible hwait,
    update_pairwise (R := fun c d : VmPc => ∀ a, c.hand = some a → d.hand ≠ some a) h.hand
      fun j hji => ⟨fun a hj hi => h.hand_ne hm hwait hji hi hj,
        fun a hi => h.hand_ne hm hwait hji hi⟩,
    update_pairwise (R := fun c d : VmPc => ∀ p, c.holds = some p → d.holds ≠ some p) h.holds
      fun j hji => ⟨fun p hj hi => h.holds_ne hm hji hi hj, fun p hi => h.holds_ne hm hji hi⟩,
    fun p hp => ⟨?_, fun j hj => ?_⟩⟩
  · by_cases hah : (σ.pc i).hand = some a ∨ pc.hand = some a
    · exact (hm.settled a hah v hv ha).imp_right fun hh => ⟨i, by rw [hself]; exact hh⟩
    · obtain ⟨hv', ha'⟩ := hm.changes.listed v hv a ha hah
      rcases h.settled v hv' a ha' with hs | ⟨j, hj⟩
      · exact .inl (hm.changes.settled (h.books.mem_live v hv' a ha') hah hs)
      · have hji : j ≠ i := by
          rintro rfl
          exact hah (.inl (hangs_writes hj).2)
        exact .inr ⟨j, by rw [hother j hji]; exact hj⟩
  · by_cases hji : j = i
    · rw [hji, hself]
      exact hm.ok
    · rw [hother j hji]
      exact (h.ok j).others h.books hm.changes (h.spared hm hwait hji)
  · obtain ⟨hl, hn⟩ := h.owned p hp
    exact hm.changes.loose p hl fun hor => hor.elim (hn i) hl.notMem_free
  · obtain ⟨hl, hn⟩ := h.owned p hp
    by_cases hji : j = i
    · rw [hji, hself] at hj
      rcases hm.holds p hj with hi | hf | ⟨a, ha, hr⟩
      · exact hn i hi
      · exact hl.notMem_free hf
      · exact hl.unused h.books a ha hr
    · rw [hother j hji] at hj
      exact hn j hj

/-! ### Blocks that others take -/

/-- Somebody outside of the calls takes blocks or gives them back. -/
theorem memory (h : σ.Ownership) (hm : σ.st.OnlyMemory x P)
    (hP : ∀ p ∈ P, ∀ i, (σ.pc i).holds ≠ some p)
    (howned : ∀ p ∈ owned, x.Loose p ∧ ∀ i, (σ.pc i).holds ≠ some p) :
    Ownership ⟨x, owned, σ.pc⟩ := by
  have hc := hm.changes h.books
  refine ⟨hm.books h.books, fun v hv a ha => ?_, fun i => ?_, h.compatible, h.hand, h.holds, howned⟩
  · obtain ⟨hv', ha'⟩ := hc.listed v hv a ha (Set.notMem_empty a)
    exact (h.settled v hv' a ha').imp_left
      (hc.settled (h.books.mem_live v hv' a ha') (Set.notMem_empty a))
  · exact (h.ok i).others h.books hc ⟨fun _ _ => Set.notMem_empty _,
      fun _ _ => ⟨Set.notMem_empty _, fun _ _ => Set.notMem_empty _⟩, fun _ _ => Set.notMem_empty _,
      fun _ _ => Set.notMem_empty _, fun _ _ => Set.notMem_empty _, fun p hp hpP => hP p hpP i hp⟩

/-- A block that was free is nobody's. -/
theorem holds_ne_of_free (h : σ.Ownership) (hp : p ∈ σ.st.mem.freePages) (i : ι) :
    (σ.pc i).holds ≠ some p := fun hi =>
  ((h.ok i).holds hi).elim (fun hl => hl.notMem_free hp) fun hl => hl.notMem_free hp

theorem taken (h : σ.Ownership) {k : ℤ} (hk : σ.st.bkpAllocZero k = (some p, x)) :
    Ownership ⟨x, insert p σ.owned, σ.pc⟩ := by
  obtain ⟨hm, hloose, hsub, -⟩ := h.books.take hk
  refine h.memory hm (fun _ hq => hq.elim) fun q hq => ?_
  rcases Finset.mem_insert.1 hq with rfl | hq
  · exact ⟨hloose, h.holds_ne_of_free (hsub (self_mem_pagesOf q _))⟩
  · obtain ⟨hl, hn⟩ := h.owned q hq
    exact ⟨hm.loose hl (Set.notMem_empty q), hn⟩

theorem refused (h : σ.Ownership) {k : ℤ} (hk : σ.st.bkpAllocZero k = (none, x)) :
    Ownership ⟨x, σ.owned, σ.pc⟩ := by
  have hm := h.books.takeNone hk
  refine h.memory hm (fun _ hq => hq.elim) fun q hq => ?_
  obtain ⟨hl, hn⟩ := h.owned q hq
  exact ⟨hm.loose hl (Set.notMem_empty q), hn⟩

theorem given (h : σ.Ownership) {m : Memory A.toPageAllocator} (hp : p ∈ σ.owned)
    (hm : σ.st.mem.bkpFree p = some m) : Ownership ⟨σ.st.withMem m, σ.owned.erase p, σ.pc⟩ := by
  obtain ⟨hl, hn⟩ := h.owned p hp
  have hmem := h.books.giveBack hl hm
  refine h.memory hmem ?_ fun q hq => ?_
  · rintro q rfl
    exact hn
  · obtain ⟨hqp, hq⟩ := Finset.mem_erase.1 hq
    obtain ⟨hl', hn'⟩ := h.owned q hq
    exact ⟨hmem.loose hl' hqp, hn'⟩

/-- A step of the system. -/
theorem step [DecidableEq ι] {τ : VmCpus A ι} {e : CpuEvent} (h : σ.Ownership)
    (hlast : LastInvalid σ.st (σ.pc i)) (hs : σ.Step i e τ) : τ.Ownership := by
  cases hs with
  | call hi hwords hvma hstart hwait =>
    refine h.moved ?_ hwait
    rw [hi]
    refine start_moves h.books hwords hvma hstart fun v hv => ?_
    have hc := h.complete (fun j hj => (hwait j hj).1) (.inr hv)
    rwa [hi] at hc
  | advance hadv hwait =>
    exact h.moved (advance_moves h.books (h.ok i)
      (fun v hv => h.complete (fun j hj => h.compatible j i hj) hv) hlast hadv) hwait
  | alloc hi hk => exact h.taken hk
  | allocNone hi hk => exact h.refused hk
  | free hi hp hm => exact h.given hp hm

end Ownership

/-! ### The start -/

/-- What `vm_module_init` leaves is in order. -/
theorem booted_books {s : VmState A} {text data : ℕ} (h : s.Booted text data) : s.Books := by
  have htabled : s.tabled = s.live .vma := Finset.filter_true_of_mem fun v hv => by
    rw [h.vm.hwPgtable v hv]
    nofun
  have hnone : ∀ a ∈ s.live .vmaArea, ∀ p, ¬ s.RefersTo a p := by
    intro a ha p hr
    obtain ⟨v, hv, hal⟩ := (h.vm.live_iff a).1 ha
    rw [h.liveVma, Finset.mem_singleton] at hv
    rw [hv, h.list, List.mem_cons, List.mem_singleton] at hal
    have ht := hr.1
    rcases hal with rfl | rfl
    · rw [h.text] at ht
      cases ht
    · rw [h.data] at ht
      cases ht
  refine ⟨?_, h.vm.dead, ?_, ?_, ?_, ?_, fun a ha => ?_, fun a ha p hr => absurd hr (hnone a ha p),
    fun a ha b _ p hr => absurd hr (hnone a ha p), h.vm.refCount⟩
  · rw [htabled]
    exact h.vm.kern_live
  · rw [htabled]
    exact h.vm.listed
  · rw [htabled]
    exact fun v hv a ha => h.vm.mem_live hv ha
  · rw [htabled]
    exact h.vm.owner
  · rw [htabled]
    exact h.vm.spaces
  · have hok := h.vm.areaOk a ha
    exact ⟨hok.va_aligned, hok.pa_aligned, hok.size_aligned, hok.size_pos, hok.pa_lt⟩

theorem booted_settled {s : VmState A} {text data : ℕ} (h : s.Booted text data) :
    ∀ v ∈ s.tabled, ∀ a ∈ s.list v, s.Settled v a := by
  intro v hv a ha
  have hv' := (mem_tabled.1 hv).1
  rw [h.liveVma, Finset.mem_singleton] at hv'
  have ht : (s.areas a).vmarTyp = .kernel := by
    rw [hv', h.list, List.mem_cons, List.mem_singleton] at ha
    rcases ha with rfl | rfl
    · rw [h.text]
      rfl
    · rw [h.data]
      rfl
  refine ⟨fun hm => ?_, fun hne => absurd ht hne⟩
  rw [ht] at hm
  cases hm

theorem ownership_init [DecidableEq ι] (h : (vmCpus A ι).init σ) : σ.Ownership := by
  obtain ⟨⟨x₀, pgtable, hboot, hinit⟩, howned, hidle⟩ := h
  obtain ⟨text, data, hb⟩ := hboot.booted hinit
  refine ⟨booted_books hb, fun v hv a ha => .inl (booted_settled hb v hv a ha), fun i => ?_,
    fun i j _ => ?_, fun i j _ a hi => ?_, fun i j _ p hi => ?_, fun p hp => ?_⟩
  · rw [hidle]
    trivial
  · rw [hidle, hidle]
    exact ⟨nofun, nofun, nofun⟩
  · rw [hidle] at hi
    cases hi
  · rw [hidle] at hi
    cases hi
  · rw [howned] at hp
    exact absurd hp (Finset.notMem_empty p)

/-- The states of the runs in which no area with `PROT_V` loses the last reference to its block. -/
theorem ownership_reachable [DecidableEq ι]
    (h : ((vmCpus A ι).restrict fun σ e => LastInvalid σ.st (σ.pc e.1)).Reachable σ) :
    σ.Ownership := by
  refine h.invariant (P := Ownership) ?_ ?_
  · intro _ h0
    exact ownership_init h0
  · intro _ _ _ _ ho hs
    exact ho.step hs.1 hs.2

/-! ### Exposed pages -/

/-- The pages of an area that is being removed with valid entries belong to a block that another
area refers to. -/
theorem Ownership.leaving (h : σ.Ownership) (hr : (σ.pc i).removes = some (v, a))
    (hm : (σ.st.areas a).vmarTyp = .memory) {w : ℕ} (hc : (σ.st.areas a).Covers w)
    (hvalid : PteValid ((σ.st.areas a).pte w)) : ∃ b ∈ σ.st.live .vmaArea, ∃ p o,
      σ.st.RefersTo b p ∧ σ.st.mem.BacksAreas p o ∧ ∃ q ∈ pagesOf p o, q < L.pageNums ∧
        sv39PTE2Pa ((σ.st.areas a).pte w) = L.pg2pa q := by
  have hprot : (σ.st.areas a).prot % 2 = 1 := pteValid_pa2PTE.1 hvalid
  obtain ⟨b, hb, p, hrb, hpa, hsize, -⟩ := ((h.ok i).leaving hr).guarded hm hprot
  obtain ⟨o, hbacked⟩ := h.books.refers b hb p hrb
  exact ⟨b, hb, p, o, hrb, hbacked.backs, frame_of_covers hbacked.backs
    (hpa.symm.trans hbacked.pa) (hsize.symm.trans hbacked.size) hc⟩

/-- An exposed page belongs to a block that another area refers to. -/
theorem Ownership.exposed (h : σ.Ownership) (hq : σ.Exposed q) : ∃ b ∈ σ.st.live .vmaArea,
    ∃ p o, σ.st.RefersTo b p ∧ σ.st.mem.BacksAreas p o ∧ q ∈ pagesOf p o := by
  obtain ⟨hlt, i, v, a, w, e, hr, -, hm, -, hc, -, hvalid, rfl, hpa⟩ := hq
  obtain ⟨b, hb, p, o, hrb, hbacks, q', hq', hlt', hpa'⟩ := h.leaving hr hm hc hvalid
  have hqq : q' = q := by
    rw [← VmLayout.pa2pg_pg2pa hlt', ← VmLayout.pa2pg_pg2pa hlt]
    exact congrArg L.pa2pg (hpa'.symm.trans hpa)
  exact ⟨b, hb, p, o, hrb, hbacks, hqq ▸ hq'⟩

/-- Nobody who has taken a block holds one that an area refers to. -/
theorem Ownership.block_ne (h : σ.Ownership) {b p' : ℕ} (hb : b ∈ σ.st.live .vmaArea)
    (hr : σ.st.RefersTo b p) (hp : p' ∈ σ.owned ∨ ∃ i, (σ.pc i).gains = some p') : p' ≠ p := by
  rintro rfl
  rcases hp with hp | ⟨i, hi⟩
  · exact (h.owned p' hp).1.unused h.books b hb hr
  · exact ((h.ok i).holds (holds_of_gains hi)).elim (fun hl => hl.unused h.books b hb hr)
      fun hf => hf.2 b hb hr

/-- In every run in which the last reference to a block is dropped only for areas without `PROT_V`,
no page is reused while it is exposed. -/
theorem exposed_not_reused [DecidableEq ι]
    (h : ((vmCpus A ι).restrict fun σ e => LastInvalid σ.st (σ.pc e.1)).Reachable σ) (q : ℕ)
    (hq : σ.Exposed q) : ¬ σ.Reused q := by
  have ho := ownership_reachable h
  obtain ⟨b, hb, p, o, hr, hbacks, hqp⟩ := ho.exposed hq
  have hwf := A.wellFormed σ.st.mem.buddy
  rintro (hfree | ⟨p', o', hp', hblock, hqp'⟩ | ⟨v, hv, ht⟩)
  · exact hwf.not_free p o q hbacks.block hqp hfree
  · exact ho.block_ne hb hr hp' (hwf.block_unique p' o' p o q hblock hbacks.block hqp' hqp)
  · exact ho.books.spaces.block_apart v hv p o hbacks q ht hqp

/-! ### The last reference -/

/-- A CPU drops the last reference to a block and gives it back, with the lock of the address space
in its hands all the time. -/
theorem Ownership.drop_run [DecidableEq ι] (h : σ.Ownership) {whole : Bool} {y z : VmState A}
    (hi : σ.pc i = .unhung whole v a)
    (h1 : VmPc.advance σ.st (.unhung whole v a) = some (z, .freeing whole v a p))
    (h2 : VmPc.advance z (.freeing whole v a p) = some (y, .clearing whole v a)) :
    (vmCpus A ι).Run σ [(i, .advance), (i, .advance)] (σ.moved i y (.clearing whole v a)) := by
  have hfreeing : σ.Admits i (.freeing whole v a p) := fun j hj => by
    have hij := h.compatible i j (Ne.symm hj)
    have hji := h.compatible j i hj
    rw [hi] at hij hji
    exact ⟨⟨hji.write, hji.read, hji.owns⟩, ⟨hij.write, hij.read, hij.owns⟩⟩
  have hclearing : (σ.moved i z (.freeing whole v a p)).Admits i (.clearing whole v a) := by
    intro j hj
    obtain ⟨hji, hij⟩ := hfreeing j hj
    have hother : (σ.moved i z (.freeing whole v a p)).pc j = σ.pc j :=
      Function.update_of_ne (β := fun _ => VmPc) hj _ _
    rw [hother]
    exact ⟨⟨hji.write, hji.read, hji.owns⟩, ⟨hij.write, hij.read, hij.owns⟩⟩
  have hmid : (σ.moved i z (.freeing whole v a p)).pc i = .freeing whole v a p :=
    Function.update_self (β := fun _ => VmPc) _ _ _
  have hstep : σ.Step i .advance (σ.moved i z (.freeing whole v a p)) :=
    .advance (by rw [hi]; exact h1) hfreeing
  have hstep' : (σ.moved i z (.freeing whole v a p)).Step i .advance
      (σ.moved i y (.clearing whole v a)) := by
    have hs := Step.advance (by rw [hmid]; exact h2) hclearing
    unfold VmCpus.moved at hs ⊢
    rwa [Function.update_idem] at hs
  have hrun : (vmCpus A ι).Run σ [(i, .advance)] (σ.moved i z (.freeing whole v a p)) :=
    .snoc (.nil σ) hstep
  exact .snoc hrun hstep'

/-- The condition is exact: when an area with a valid entry loses the last reference to its block,
the next two sections leave a page that is exposed and free. -/
theorem reused_of_last [DecidableEq ι] (h : σ.Ownership) {whole : Bool} {w : ℕ}
    (hi : σ.pc i = .unhung whole v a) (hp : (σ.st.areas a).pgfm = some p)
    (href : (σ.st.mem.pages p).refCount = 1) (hw : w < tableSpan) (hc : (σ.st.areas a).Covers w)
    (he : σ.st.entry v w = some ((σ.st.areas a).pte w)) (hvalid : PteValid ((σ.st.areas a).pte w)) :
    ∃ τ, (vmCpus A ι).Run σ [(i, .advance), (i, .advance)] τ ∧ ∃ q, τ.Exposed q ∧ τ.Reused q := by
  have hok := h.ok i
  rw [hi] at hok
  obtain ⟨hworks, hap, -, ht⟩ := hok
  have hb := h.books
  obtain ⟨o, hbacked⟩ := hb.refers a hap.1 p ⟨ht, hp⟩
  obtain ⟨y, hy, hdrop, -⟩ := dropBlock_spec hb.spaces hbacked.backs hbacked.size
  obtain ⟨z, h1, h2⟩ := dropBlock_last whole v hp
    (paLazy_ne (hb.fits a hap.1).pa_aligned) href hy
  refine ⟨σ.moved i y (.clearing whole v a), h.drop_run hi h1 h2, ?_⟩
  obtain ⟨q, hq, hlt, hframe⟩ := frame_of_covers hbacked.backs hbacked.pa hbacked.size hc
  have hself : (σ.moved i y (.clearing whole v a)).pc i = .clearing whole v a :=
    Function.update_self (β := fun _ => VmPc) _ _ _
  have harea : y.areas a = { σ.st.areas a with pgfm := none } := by
    rw [hdrop.areas]
    exact Function.update_self (β := fun _ => VmaArea) _ _ _
  have htabled : y.tabled = σ.st.tabled := by
    unfold VmState.tabled
    rw [hdrop.live, hdrop.vmas]
  have hentry : y.entry v w = σ.st.entry v w := by
    unfold VmState.entry VmState.root
    rw [hdrop.vmas]
    exact leaf_untouched (fun t hin => hdrop.untouched t
      (hb.spaces.block_apart v hworks.tabled p o hbacked.backs t hin)
      ((hb.spaces.table v hworks.tabled).apart t hin)) hw
  have hfree : q ∈ y.mem.freePages := by
    rcases hdrop.block with ⟨-, -, hf⟩ | ⟨hne, -⟩
    · rw [hf]
      exact .inr hq
    · exact absurd href hne
  refine ⟨q, ⟨hlt, i, v, a, w, _, by rw [hself]; rfl, ?_, ?_, hw, ?_, hentry.trans he, hvalid, ?_,
    hframe⟩, .inl hfree⟩
  · show v ∈ y.tabled
    rw [htabled]
    exact hworks.tabled
  · show (y.areas a).vmarTyp = .memory
    rw [harea]
    exact ht
  · show (y.areas a).Covers w
    rw [harea]
    exact hc
  · show _ = (y.areas a).pte w
    rw [harea]
    rfl

/-! ### A page of the kernel -/

/-- A page of memory of the kernel that only one area refers to. -/
structure Lone (x : VmState vmMachine) (v a p : ℕ) : Prop where
  inv : x.VmInv
  live : v ∈ x.live .vma
  found : x.findArea v vmMachineLayout.vaEnd 4096 = some a
  area : x.areas a = { memoryArea vmMachineLayout vmMachineLayout.vaEnd p 0 7 with pgfm := some p }
  refCount : (x.mem.pages p).refCount = 1
  covers : (x.areas a).Covers (position 2 vmMachineLayout.vaEnd)
  entry : x.entry v (position 2 vmMachineLayout.vaEnd) =
    some ((x.areas a).pte (position 2 vmMachineLayout.vaEnd))

/-- After boot the other areas are those of the kernel, without a block. -/
theorem backed_singleton {s x : VmState A} {area : VmaArea} {text data : ℕ}
    (hb : s.Booted text data) (ha : s.Added x v a area) (ht : area.vmarTyp = .memory)
    (hp : (x.areas a).pgfm = some p) :
    x.backed (x.live .vmaArea) p = {a} := by
  ext b
  unfold backed
  rw [Finset.mem_filter, Finset.mem_singleton]
  constructor
  · rintro ⟨hbl, htb, -⟩
    rw [ha.live, Finset.mem_insert] at hbl
    refine hbl.resolve_right fun hbs => ?_
    have hne : b ≠ a := fun he => ha.fresh (he ▸ hbs)
    rw [ha.areas b hne] at htb
    obtain ⟨w, hw, hbw⟩ := (hb.vm.live_iff b).1 hbs
    rw [hb.liveVma, Finset.mem_singleton] at hw
    rw [hw, hb.list, List.mem_cons, List.mem_singleton] at hbw
    rcases hbw with rfl | rfl
    · rw [hb.text] at htb
      cases htb
    · rw [hb.data] at htb
      cases htb
  · rintro rfl
    refine ⟨?_, ?_, hp⟩
    · rw [ha.live]
      exact Finset.mem_insert_self _ _
    · rw [ha.made]
      exact ht

theorem vmMachine_lone : ∃ (s x : VmState vmMachine) (v a p : ℕ), (vmRuns vmMachine).init s ∧
    v ∈ s.tabled ∧ s.vmMmap v vmMachineLayout.vaEnd 0 7 = .ok (0, x) ∧ Lone x v a p := by
  obtain ⟨s, x, text, data, r, a, hs, hb, hx, ha, hreach, -⟩ := vmMachine_mmap
  have hk := hb.vm.kern_live
  have hkx : s.kernVma ∈ x.live .vma := by
    rw [ha.frame.liveVma]
    exact hk
  have hinv := (inv_reachable hreach).vm
  have hal : a ∈ x.list s.kernVma := ha.mem_list.2 (.inl rfl)
  have hcov := vmMachine_page_covers r
  have hsorted := hb.sorted.added hb.vm hk ha (vmMachine_page_low r).plain
  obtain ⟨p, o, hp, hback, hpa, -⟩ := (hinv.list_ok hkx hal).backed (by rw [ha.made]; rfl)
  have hrp : vmMachineLayout.pg2pa r = vmMachineLayout.pg2pa p := by
    rw [ha.made] at hpa
    exact hpa
  have harea : x.areas a =
      { memoryArea vmMachineLayout vmMachineLayout.vaEnd p 0 7 with pgfm := some p } := by
    rw [ha.made, hp]
    unfold memoryArea
    rw [hrp]
  refine ⟨s, x, s.kernVma, a, p, hs, by rw [tabled_eq hb.vm]; exact hk, hx, hinv, hkx, ?_, harea,
    ?_, ?_, ?_⟩
  · have hfind := hsorted.findArea_self (hinv.listed _ hkx) hal
      (by rw [harea]; exact show 0 < 4096 by decide)
    rw [harea] at hfind
    exact hfind
  · rw [hinv.refCount p hback.type, backed_singleton hb ha rfl hp]
    rfl
  · rw [ha.made]
    exact hcov
  · rw [(ha.wrote _ (position_lt 2 _) hcov).2, ha.made]
    rfl

/-- Runs with one CPU in which that page is about to be given back. -/
theorem vmMachine_leaving : ∃ (x : VmState vmMachine) (v a p : ℕ), Lone x v a p ∧
    ((vmCpus vmMachine Unit).restrict fun σ e => LastInvalid σ.st (σ.pc e.1)).Reachable
      ⟨x.vmaAreaUnhang v a, ∅, fun _ => .unhung false v a⟩ := by
  obtain ⟨s, x, v, a, p, hs, hv, hx, hl⟩ := vmMachine_lone
  have hP : ∀ (x : VmState vmMachine) pc, pc.removes = none → LastInvalid x pc := by
    intro x pc hpc whole v a p he
    rw [he] at hpc
    cases hpc
  have hmoved : ∀ (s x : VmState vmMachine) pc,
      (sequential Unit s).moved () x pc = ⟨x, ∅, fun _ => pc⟩ := by
    intro s x pc
    unfold moved sequential
    congr 1
  refine ⟨x, v, a, p, hl, ?_⟩
  -- `vm_mmap`, and the first section of `vm_unmap`
  have hinit : ((vmCpus vmMachine Unit).restrict fun σ e =>
      LastInvalid σ.st (σ.pc e.1)).Reachable (sequential Unit s) := .of_init ⟨hs, rfl, fun _ => rfl⟩
  obtain ⟨st, hst, hsec⟩ := vmMmap_sections hP hx
  have hmap := reachable_call (i := ()) (.vmMmap v vmMachineLayout.vaEnd 0 7) hinit
    (fun _ => rfl) (show _ < 2 ^ 64 by decide) (.inr hv) (hP s _ rfl) hst hsec
  rw [hmoved] at hmap
  have hvx : v ∈ x.tabled := by
    rw [tabled_eq hl.inv]
    exact hl.live
  have hunmap : start x (.vmUnmap v vmMachineLayout.vaEnd 0) =
      some (x.vmaAreaUnhang v a, .unhung false v a) := by
    have hargs : ¬ (v = 0 ∨ vmMachineLayout.vaEnd % pageSize ≠ 0 ∨
        (x.vmas v).kernelVma ≠ x.kernVma ∨
        ¬ ((0 : ℤ) ≤ 0 ∧ (0 : ℤ) < vmMachineLayout.maxOrder)) := by
      rintro (h0 | h0 | h0 | h0)
      · exact hl.inv.ne_zero hl.live h0
      · exact h0 (by decide)
      · exact h0 (hl.inv.kernelVma v hl.live)
      · exact h0 (by decide)
    unfold start
    dsimp only
    rw [if_neg hargs]
    unfold unhangNext
    rw [if_pos ⟨hl.inv.ne_zero hl.live, by decide, by decide, by decide⟩,
      show 1 <<< (0 : ℤ).toNat * pageSize = 4096 from rfl, hl.found]
    dsimp only
    rw [hl.area]
    rfl
  have hend := reachable_call (i := ()) (σ := sequential Unit x)
    (.vmUnmap v vmMachineLayout.vaEnd 0) hmap (fun _ => rfl)
    (show _ < 2 ^ 64 by decide) (.inr hvx) (hP x _ rfl) hunmap .refl
  rwa [hmoved] at hend

theorem Lone.entry_unhang {x : VmState vmMachine} {v a p : ℕ} (hl : Lone x v a p) :
    (x.vmaAreaUnhang v a).entry v (position 2 vmMachineLayout.vaEnd) =
      some ((x.areas a).pte (position 2 vmMachineLayout.vaEnd)) := by
  rw [← hl.entry]
  unfold VmState.entry VmState.root
  rw [show (x.vmaAreaUnhang v a).vmas v = _ from Function.update_self (β := fun _ => Vma) _ _ _]
  rfl

theorem Lone.valid {x : VmState vmMachine} {v a p : ℕ} (hl : Lone x v a p) :
    PteValid ((x.areas a).pte (position 2 vmMachineLayout.vaEnd)) := by
  rw [hl.area]
  exact pteValid_pa2PTE.2 (show 7 % 2 = 1 from rfl)

/-- While the area of the page is being removed, and before its block is given back. -/
theorem exposed_not_reused_leaving : ∃ (σ : VmCpus vmMachine Unit) (q : ℕ),
    ((vmCpus vmMachine Unit).restrict fun σ e => LastInvalid σ.st (σ.pc e.1)).Reachable σ ∧
    σ.Exposed q ∧ ¬ σ.Reused q := by
  obtain ⟨x, v, a, p, hl, hreach⟩ := vmMachine_leaving
  have ho := ownership_reachable hreach
  have hm : (x.areas a).vmarTyp = .memory := by
    rw [hl.area]
    rfl
  obtain ⟨b, hb, p', o, hr, hbacks, q, hq, hlt, hpa⟩ :=
    ho.leaving (i := ()) rfl hm hl.covers hl.valid
  have hexposed : VmCpus.Exposed ⟨x.vmaAreaUnhang v a, ∅, fun _ : Unit => .unhung false v a⟩ q :=
    ⟨hlt, (), v, a, _, _, rfl, (ho.ok ()).1.tabled, hm, position_lt 2 _, hl.covers, hl.entry_unhang,
      hl.valid, rfl, hpa⟩
  exact ⟨_, q, hreach, hexposed, exposed_not_reused hreach q hexposed⟩

/-- One CPU maps a page for the kernel and removes it again: the page is free while its entry is
still valid. -/
theorem not_exposed_not_reused : ¬ ∀ σ : VmCpus vmMachine Unit,
    (vmCpus vmMachine Unit).Reachable σ → ∀ q, σ.Exposed q → ¬ σ.Reused q := by
  intro hall
  obtain ⟨x, v, a, p, hl, hreach⟩ := vmMachine_leaving
  have hp : (x.areas a).pgfm = some p := by
    rw [hl.area]
  obtain ⟨τ, hrun, q, hexposed, hreused⟩ := reused_of_last (ownership_reachable hreach) (i := ())
    rfl hp hl.refCount (position_lt 2 _) hl.covers hl.entry_unhang hl.valid
  exact hall τ (hreach.of_restrict.run hrun) q hexposed hreused

end VmCpus

end AcoOs
