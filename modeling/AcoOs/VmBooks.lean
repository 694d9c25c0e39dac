/-
The books of the address spaces while calls are under way.

Between calls `VmInv` says that every area that is handed out is on a list.  Inside a call this
fails: an object may be handed out and hang nowhere yet, or not any more, and a block may be held
by the call.  `Books` is what is left, and `Changes` says what an operation may do to the lists, the
areas and the blocks that others rely on:

* **`Loose`** — a block that somebody holds and no area refers to;
* **`Fresh`** — one that is marked as a block for areas already;
* **`Guarded`** — an area whose pages stay with the block because another area refers to it.
-/
import AcoOs.VmCpus

namespace AcoOs

open Memory

variable {L : VmLayout} {A : VmEnv L}

/-- No page of a block that backs areas is in a page table. -/
theorem Memory.Spaces.of_untouched {x x' : Memory A.toPageAllocator} {V : Finset ℕ} {root : ℕ → ℕ}
    {pin : ℕ → ℕ → Prop} (h : x.Spaces V root pin)
    (hu : ∀ v ∈ V, ∀ p ∈ x.tables 2 (root v), x.Untouched x' p)
    (hb : ∀ p, (x'.pages p).pgtype = .vmaArea → ∃ o, x'.BacksAreas p o ∧
      ∀ v ∈ V, ∀ q ∈ x.tables 2 (root v), q ∉ pagesOf p o) : x'.Spaces V root pin where
  table v hv := (h.table v hv).untouched (hu v hv)
  pinned v hv w hw := by
    obtain ⟨hlt, e, he, hve⟩ := h.pinned v hv w hw
    exact ⟨hlt, e, (leaf_untouched (hu v hv) hlt).trans he, hve⟩
  apart v hv w hw hne := by
    rw [tables_untouched (hu v hv), tables_untouched (hu w hw)]
    exact h.apart v hv w hw hne
  backs p hp := by
    obtain ⟨o, ho, -⟩ := hb p hp
    exact ⟨o, ho⟩
  block_apart v hv p o hp q hq := by
    rw [tables_untouched (hu v hv)] at hq
    obtain ⟨o', ho', hap⟩ := hb p hp.type
    rw [ho'.order_unique hp] at hap
    exact hap v hv q hq

/-- What the `ASSERT`s of `__vm_mmap` say of an area. -/
structure VmaArea.Fits (area : VmaArea) : Prop where
  va_aligned : area.va % pageSize = 0
  pa_aligned : area.pa % pageSize = 0
  size_aligned : area.size % pageSize = 0
  size_pos : 0 < area.size
  pa_lt : area.pa < 2 ^ 64

namespace VmState

variable {x x' y : VmState A} {v w a b p o : ℕ} {O W H P : Set ℕ} {area : VmaArea}

theorem mem_tabled : v ∈ x.tabled ↔ v ∈ x.live .vma ∧ (x.vmas v).hwPgtable ≠ none :=
  Finset.mem_filter

theorem hwPgtable_root (hv : v ∈ x.tabled) : (x.vmas v).hwPgtable = some (x.root v) := by
  unfold VmState.root
  cases h : (x.vmas v).hwPgtable with
  | none => exact absurd h (mem_tabled.1 hv).2
  | some t => rfl

/-! ### Blocks that are held -/

/-- Block `p` is one of the buddy allocator, handed out, and no page table uses it. -/
def Loose (x : VmState A) (p : ℕ) : Prop :=
  ∃ o, x.mem.blocks p = some o ∧ (x.mem.pages p).pgtype = .buddyAllocator ∧
    (x.mem.pages p).buddyOrder = o ∧ (x.mem.pages p).buddyFlags = flagHead ∧
    ∀ v ∈ x.tabled, ∀ q ∈ x.mem.tables 2 (x.root v), q ∉ pagesOf p o

/-- Block `p` is one for areas, and no area refers to it. -/
def Fresh (x : VmState A) (p : ℕ) : Prop :=
  (∃ o, x.mem.BacksAreas p o) ∧ ∀ a ∈ x.live .vmaArea, ¬ x.RefersTo a p

/-- Somebody who hangs nowhere. -/
def Apart (x : VmState A) (a : ℕ) : Prop := a ∈ x.live .vmaArea ∧ ∀ v ∈ x.tabled, a ∉ x.list v

/-- If the entries of `a` are valid then an area like it refers to its block. -/
def Guarded (x : VmState A) (a : ℕ) : Prop :=
  (x.areas a).vmarTyp = .memory → (x.areas a).prot % 2 = 1 → ∃ b ∈ x.live .vmaArea, ∃ p,
    x.RefersTo b p ∧ (x.areas b).pa = (x.areas a).pa ∧ (x.areas b).size = (x.areas a).size ∧
    (x.areas b).prot = (x.areas a).prot

/-- What a block backs. -/
structure Backed (x : VmState A) (a p o : ℕ) : Prop where
  backs : x.mem.BacksAreas p o
  pa : (x.areas a).pa = L.pg2pa p
  size : (x.areas a).size = 2 ^ o * pageSize

/-- The invariant inside calls. -/
structure Books (x : VmState A) : Prop where
  kern : x.kernVma ∈ x.tabled
  dead : ∀ v, v ∉ x.live .vma → x.vmas v = .zero
  listed : ∀ v ∈ x.tabled, x.Listed v
  mem_live : ∀ v ∈ x.tabled, ∀ a ∈ x.list v, a ∈ x.live .vmaArea
  owner : ∀ v ∈ x.tabled, ∀ w ∈ x.tabled, ∀ a ∈ x.list v, a ∈ x.list w → v = w
  spaces : x.mem.Spaces x.tabled x.root x.pin
  fits : ∀ a ∈ x.live .vmaArea, (x.areas a).Fits
  refers : ∀ a ∈ x.live .vmaArea, ∀ p, x.RefersTo a p → ∃ o, x.Backed a p o
  agree : ∀ a ∈ x.live .vmaArea, ∀ b ∈ x.live .vmaArea, ∀ p, x.RefersTo a p → x.RefersTo b p →
    (x.areas a).prot = (x.areas b).prot
  refCount : ∀ p, (x.mem.pages p).pgtype = .vmaArea →
    (x.mem.pages p).refCount = (x.backed (x.live .vmaArea) p).card

/-- An area on the list of `v` that is complete: a block backs it, and it leaves the pinned
entries alone. -/
structure Settled (x : VmState A) (v a : ℕ) : Prop where
  backed : (x.areas a).vmarTyp = .memory → (x.areas a).pgfm ≠ none
  outside : (x.areas a).vmarTyp ≠ .kernel → ∀ w, (x.areas a).Covers w → ¬ x.pin v w

/-- An operation makes or frees at most the address spaces `O`, changes at most those in `W`, the
areas `H` and the blocks `P` that are held. -/
structure Changes (x x' : VmState A) (O W H P : Set ℕ) : Prop where
  kernVma : x'.kernVma = x.kernVma
  live : ∀ v ∈ x.live .vma, v ∉ O →
    v ∈ x'.live .vma ∧ (x'.vmas v).hwPgtable = (x.vmas v).hwPgtable
  vmas : ∀ v ∈ x.live .vma, v ∉ W → x'.vmas v = x.vmas v
  areas : ∀ a ∈ x.live .vmaArea, a ∉ H → a ∈ x'.live .vmaArea ∧ x'.areas a = x.areas a
  listed : ∀ v ∈ x'.tabled, ∀ a ∈ x'.list v, a ∉ H → v ∈ x.tabled ∧ a ∈ x.list v
  loose : ∀ p, x.Loose p → p ∉ P → x'.Loose p
  fresh : ∀ p, x.Fresh p → p ∉ P → x'.Fresh p
  guarded : ∀ a ∈ x.live .vmaArea, a ∉ H → x.Guarded a → x'.Guarded a

namespace Changes

theorem refl (x : VmState A) : x.Changes x ∅ ∅ ∅ ∅ :=
  ⟨rfl, fun _ hv _ => ⟨hv, rfl⟩, fun _ _ _ => rfl, fun _ ha _ => ⟨ha, rfl⟩,
    fun _ hv _ ha _ => ⟨hv, ha⟩, fun _ hp _ => hp, fun _ hp _ => hp, fun _ _ _ ha => ha⟩

theorem mono {O' W' H' P' : Set ℕ} (h : x.Changes x' O W H P) (hO : O ⊆ O') (hW : W ⊆ W')
    (hH : H ⊆ H') (hP : P ⊆ P') : x.Changes x' O' W' H' P' where
  kernVma := h.kernVma
  live v hv hn := h.live v hv fun hv' => hn (hO hv')
  vmas v hv hn := h.vmas v hv fun hv' => hn (hW hv')
  areas a ha hn := h.areas a ha fun ha' => hn (hH ha')
  listed v hv a ha hn := h.listed v hv a ha fun ha' => hn (hH ha')
  loose p hp hn := h.loose p hp fun hp' => hn (hP hp')
  fresh p hp hn := h.fresh p hp fun hp' => hn (hP hp')
  guarded a ha hn := h.guarded a ha fun ha' => hn (hH ha')

theorem tabled (h : x.Changes x' O W H P) (hv : v ∈ x.tabled) (hn : v ∉ O) : v ∈ x'.tabled := by
  obtain ⟨h1, h2⟩ := mem_tabled.1 hv
  obtain ⟨h3, h4⟩ := h.live v h1 hn
  rw [mem_tabled, h4]
  exact ⟨h3, h2⟩

theorem list (h : x.Changes x' O W H P) (hv : v ∈ x.tabled) (hn : v ∉ W) :
    x'.list v = x.list v := by
  unfold VmState.list
  rw [h.vmas v (mem_tabled.1 hv).1 hn]

theorem pin (h : x.Changes x' O W H P) : x'.pin = x.pin := by
  funext w
  unfold VmState.pin
  rw [h.kernVma]

theorem refersTo (h : x.Changes x' O W H P) (ha : a ∈ x.live .vmaArea) (hn : a ∉ H) :
    x'.RefersTo a p ↔ x.RefersTo a p := by
  unfold RefersTo
  rw [(h.areas a ha hn).2]

theorem apart (h : x.Changes x' O W H P) (ha : x.Apart a) (hn : a ∉ H) : x'.Apart a := by
  refine ⟨(h.areas a ha.1 hn).1, fun v hv hal => ?_⟩
  obtain ⟨h1, h2⟩ := h.listed v hv a hal hn
  exact ha.2 v h1 h2

theorem settled (h : x.Changes x' O W H P) (ha : a ∈ x.live .vmaArea) (hn : a ∉ H)
    (hs : x.Settled v a) : x'.Settled v a := by
  have hareas := (h.areas a ha hn).2
  refine ⟨?_, ?_⟩
  · rw [hareas]
    exact hs.backed
  · rw [hareas, h.pin]
    exact hs.outside

end Changes

/-! ### Operations on the memory -/

/-- Only the memory changed, and of the blocks that are held at most those in `P`, to which no
area refers. -/
structure OnlyMemory (x x' : VmState A) (P : Set ℕ) : Prop where
  vmas : x'.vmas = x.vmas
  areas : x'.areas = x.areas
  kernVma : x'.kernVma = x.kernVma
  live : x'.live = x.live
  spaces : x'.mem.Spaces x.tabled x.root x.pin
  tables : ∀ v ∈ x.tabled, ∀ q ∈ x'.mem.tables 2 (x.root v),
    q ∈ x.mem.freePages ∨ ∃ w ∈ x.tabled, q ∈ x.mem.tables 2 (x.root w)
  kept : ∀ p o, x.mem.blocks p = some o → p ∉ P →
    (∀ v ∈ x.tabled, p ∉ x.mem.tables 2 (x.root v)) → x.mem.Untouched x'.mem p
  types : ∀ p, (x'.mem.pages p).pgtype = .vmaArea → p ∉ P → (x.mem.pages p).pgtype = .vmaArea
  counts : ∀ p ∈ P, (x'.mem.pages p).pgtype = .vmaArea → (x'.mem.pages p).refCount = 0
  unused : ∀ p ∈ P, ∀ a ∈ x.live .vmaArea, ¬ x.RefersTo a p

namespace OnlyMemory

theorem tabled (h : x.OnlyMemory x' P) : x'.tabled = x.tabled := by
  unfold VmState.tabled
  rw [h.vmas, h.live]

theorem root (h : x.OnlyMemory x' P) : x'.root = x.root := by
  unfold VmState.root
  rw [h.vmas]

theorem pin (h : x.OnlyMemory x' P) : x'.pin = x.pin := by
  unfold VmState.pin
  rw [h.kernVma]

theorem list (h : x.OnlyMemory x' P) : x'.list = x.list := by
  unfold VmState.list
  rw [h.vmas]

theorem refersTo (h : x.OnlyMemory x' P) : x'.RefersTo a p ↔ x.RefersTo a p := by
  unfold RefersTo
  rw [h.areas]

theorem backs_untouched (h : x.OnlyMemory x' P) (hb : x.Books) (hp : x.mem.BacksAreas p o)
    (hn : p ∉ P) : x.mem.Untouched x'.mem p :=
  h.kept p o hp.block hn fun _ hv => hb.spaces.backs_notMem_tables hv hp

theorem backed (h : x.OnlyMemory x' P) (hb : x.Books) (ha : a ∈ x.live .vmaArea)
    (hr : x.RefersTo a p) (hbk : x.Backed a p o) : x'.Backed a p o := by
  have hn : p ∉ P := fun hp => h.unused p hp a ha hr
  refine ⟨hbk.backs.untouched (h.backs_untouched hb hbk.backs hn), ?_, ?_⟩
  · rw [h.areas]
    exact hbk.pa
  · rw [h.areas]
    exact hbk.size

theorem loose (h : x.OnlyMemory x' P) (hp : x.Loose p) (hn : p ∉ P) : x'.Loose p := by
  obtain ⟨o, h1, h2, h3, h4, h5⟩ := hp
  have hu := h.kept p o h1 hn fun v hv ht => h5 v hv p ht (self_mem_pagesOf p o)
  refine ⟨o, hu.blocks.trans h1, by rw [hu.pages]; exact h2, by rw [hu.pages]; exact h3,
    by rw [hu.pages]; exact h4, fun v hv q hq hqp => ?_⟩
  rw [h.tabled] at hv
  rw [h.root] at hq
  rcases h.tables v hv q hq with hf | ⟨w, hw, hqw⟩
  · exact (A.wellFormed x.mem.buddy).not_free p o q h1 hqp hf
  · exact h5 w hw q hqw hqp

theorem books (h : x.OnlyMemory x' P) (hb : x.Books) : x'.Books where
  kern := by rw [h.kernVma, h.tabled]; exact hb.kern
  dead := by rw [h.live, h.vmas]; exact hb.dead
  listed := by
    rw [h.tabled]
    exact fun v hv => (hb.listed v hv).congr (by rw [h.vmas])
  mem_live := by rw [h.tabled, h.list, h.live]; exact hb.mem_live
  owner := by rw [h.tabled, h.list]; exact hb.owner
  spaces := by rw [h.tabled, h.root, h.pin]; exact h.spaces
  fits := by rw [h.live, h.areas]; exact hb.fits
  refers a ha p hr := by
    rw [h.live] at ha
    obtain ⟨o, ho⟩ := hb.refers a ha p (h.refersTo.1 hr)
    exact ⟨o, h.backed hb ha (h.refersTo.1 hr) ho⟩
  agree a ha b hb' p hra hrb := by
    rw [h.live] at ha hb'
    rw [h.areas]
    exact hb.agree a ha b hb' p (h.refersTo.1 hra) (h.refersTo.1 hrb)
  refCount p hp := by
    rw [h.live, backed_congr fun a _ => congrFun h.areas a]
    by_cases hpP : p ∈ P
    · rw [h.counts p hpP hp]
      symm
      rw [Nat.cast_eq_zero, Finset.card_eq_zero, Finset.eq_empty_iff_forall_notMem]
      intro a ha
      obtain ⟨hal, har⟩ := Finset.mem_filter.1 ha
      exact h.unused p hpP a hal har
    · obtain ⟨o, ho⟩ := hb.spaces.backs p (h.types p hp hpP)
      rw [(h.backs_untouched hb ho hpP).pages]
      exact hb.refCount p ho.type

theorem changes (h : x.OnlyMemory x' P) (hb : x.Books) : x.Changes x' ∅ ∅ ∅ P where
  kernVma := h.kernVma
  live v hv _ := by
    rw [h.live, h.vmas]
    exact ⟨hv, rfl⟩
  vmas v _ _ := by rw [h.vmas]
  areas a ha _ := by
    rw [h.live, h.areas]
    exact ⟨ha, rfl⟩
  listed v hv a ha _ := by
    rw [h.tabled] at hv
    rw [h.list] at ha
    exact ⟨hv, ha⟩
  loose p hp hn := h.loose hp hn
  fresh p hp hn := by
    obtain ⟨⟨o, ho⟩, hfr⟩ := hp
    refine ⟨⟨o, ho.untouched (h.backs_untouched hb ho hn)⟩, fun a ha hr => ?_⟩
    rw [h.live] at ha
    exact hfr a ha (h.refersTo.1 hr)
  guarded a _ _ hg := by
    unfold Guarded RefersTo at hg ⊢
    rwa [h.areas, h.live]

end OnlyMemory

/-- What the page tables see did not change. -/
theorem OnlyMemory.of_untouched (hb : x.Books) (hvmas : x'.vmas = x.vmas)
    (hareas : x'.areas = x.areas) (hkern : x'.kernVma = x.kernVma) (hlive : x'.live = x.live)
    (hu : ∀ v ∈ x.tabled, ∀ q ∈ x.mem.tables 2 (x.root v), x.mem.Untouched x'.mem q)
    (hkept : ∀ q o, x.mem.blocks q = some o → q ∉ P → x.mem.Untouched x'.mem q)
    (hpages : ∀ q, q ∉ P → (x'.mem.pages q).pgtype = .vmaArea →
      (x.mem.pages q).pgtype = .vmaArea)
    (hnew : ∀ q ∈ P, (x'.mem.pages q).pgtype = .vmaArea → (x'.mem.pages q).refCount = 0 ∧
      ∃ o, x'.mem.BacksAreas q o ∧ ∀ v ∈ x.tabled, ∀ r ∈ x.mem.tables 2 (x.root v),
        r ∉ pagesOf q o)
    (hunused : ∀ q ∈ P, ∀ a ∈ x.live .vmaArea, ¬ x.RefersTo a q) : x.OnlyMemory x' P where
  vmas := hvmas
  areas := hareas
  kernVma := hkern
  live := hlive
  spaces := by
    refine hb.spaces.of_untouched hu fun q hq => ?_
    by_cases hqP : q ∈ P
    · exact (hnew q hqP hq).2
    · obtain ⟨o, ho⟩ := hb.spaces.backs q (hpages q hqP hq)
      exact ⟨o, ho.untouched (hkept q o ho.block hqP), fun v hv r hr =>
        hb.spaces.block_apart v hv q o ho r hr⟩
  tables v hv q hq := by
    rw [tables_untouched (hu v hv)] at hq
    exact .inr ⟨v, hv, hq⟩
  kept q o hq hn _ := hkept q o hq hn
  types q hq hn := hpages q hn hq
  counts q hqP hq := (hnew q hqP hq).1
  unused := hunused

theorem Books.tables_notMem_free (hb : x.Books) (hv : v ∈ x.tabled) :
    ∀ q ∈ x.mem.tables 2 (x.root v), q ∉ x.mem.freePages := (hb.spaces.table v hv).apart

theorem OnlyMemory.of_at (hb : x.Books) (hat : x.AtAllocators x') (hlive : x'.live = x.live) :
    x.OnlyMemory x' ∅ := by
  have hu := (hb.spaces.shrink hat.free hat.blocks hat.pages hat.words).2
  refine .of_untouched hb hat.vmas hat.areas hat.kernVma hlive
    (fun v hv q hq => hu q (hb.tables_notMem_free hv q hq))
    (fun q o hq _ => hu q (block_notMem_freePages hq)) (fun q _ hq => ?_) (fun _ hq => hq.elim)
    fun _ hq => hq.elim
  rwa [hat.pages] at hq

/-- `bkp_alloc_zero`. -/
theorem Books.take (hb : x.Books) {k : ℤ} (h : x.bkpAllocZero k = (some p, x')) :
    x.OnlyMemory x' ∅ ∧ x'.Loose p ∧ pagesOf p k.toNat ⊆ x.mem.freePages ∧
      x'.mem.blocks p = some k.toNat ∧ ∀ j, x'.mem.words p j = 0 := by
  unfold VmState.bkpAllocZero at h
  obtain ⟨hp, rfl⟩ := Prod.mk.inj h
  rcases hm : x.mem.bkpAllocZero k with ⟨q, m⟩
  rw [hm] at hp
  dsimp only at hp
  subst hp
  have hpg : m.pages p = .handed k.toNat := (bkpAllocZero_some hm).2.page
  obtain ⟨-, hu, hsub, -, hblock, -, hother, hzero⟩ := hb.spaces.take hm (m.pages p)
    (by rw [hpg]; rfl) (by rw [hpg]; rfl)
    (show m = { m with pages := _ } by rw [Function.update_eq_self])
  have hmem : x.OnlyMemory { x with mem := m } ∅ := by
    refine .of_untouched hb rfl rfl rfl (live_evolves (bkpAllocZero_evolves hm))
      (fun v hv q hq => hu q (hb.tables_notMem_free hv q hq))
      (fun q o hq _ => hu q (block_notMem_freePages hq)) (fun q _ hq => ?_) (fun _ hq => hq.elim)
      fun _ hq => hq.elim
    by_cases hqp : q = p
    · rw [hqp] at hq
      change (m.pages p).pgtype = _ at hq
      rw [hpg] at hq
      cases hq
    · rwa [← hother q hqp]
  refine ⟨hmem, ⟨k.toNat, hblock, ?_, ?_, ?_, fun v hv q hq hqp => ?_⟩, hsub, hblock, hzero⟩
  · exact (congrArg Pageframe.pgtype hpg)
  · exact (congrArg Pageframe.buddyOrder hpg)
  · exact (congrArg Pageframe.buddyFlags hpg)
  · rw [hmem.tabled] at hv
    rw [hmem.root] at hq
    change q ∈ m.tables 2 (x.root v) at hq
    rw [tables_untouched fun r hr => hu r (hb.tables_notMem_free hv r hr)] at hq
    exact hb.tables_notMem_free hv q hq (hsub hqp)

theorem Books.takeNone (hb : x.Books) {k : ℤ} (h : x.bkpAllocZero k = (none, x')) :
    x.OnlyMemory x' ∅ := by
  obtain ⟨hat, hlive⟩ := bkpAllocZero_none h
  exact .of_at hb hat hlive

/-- No area refers to a block of the buddy allocator. -/
theorem Loose.unused (hp : x.Loose p) (hb : x.Books) :
    ∀ a ∈ x.live .vmaArea, ¬ x.RefersTo a p := by
  rintro a ha hr
  obtain ⟨o, -, ht, -⟩ := hp
  obtain ⟨o', ho'⟩ := hb.refers a ha p hr
  rw [ho'.backs.type] at ht
  cases ht

theorem Loose.notMem_free (hp : x.Loose p) : p ∉ x.mem.freePages := by
  obtain ⟨o, ho, -⟩ := hp
  exact block_notMem_freePages ho

theorem Fresh.notMem_free (hp : x.Fresh p) : p ∉ x.mem.freePages := by
  obtain ⟨⟨o, ho⟩, -⟩ := hp
  exact block_notMem_freePages ho.block

/-- The descriptor of a block that is held changes. -/
theorem OnlyMemory.of_setPage (hb : x.Books) (pg : Pageframe)
    (hap : ∀ v ∈ x.tabled, p ∉ x.mem.tables 2 (x.root v))
    (hnew : pg.pgtype = .vmaArea → pg.refCount = 0 ∧ ∃ o, (x.setPage p pg).mem.BacksAreas p o ∧
      ∀ v ∈ x.tabled, ∀ r ∈ x.mem.tables 2 (x.root v), r ∉ pagesOf p o)
    (hunused : ∀ a ∈ x.live .vmaArea, ¬ x.RefersTo a p) : x.OnlyMemory (x.setPage p pg) {p} := by
  have hself : (x.setPage p pg).mem.pages p = pg :=
    Function.update_self (β := fun _ => Pageframe) _ _ _
  have hother : ∀ q, q ≠ p → (x.setPage p pg).mem.pages q = x.mem.pages q := fun q hq =>
    Function.update_of_ne (β := fun _ => Pageframe) hq _ _
  refine .of_untouched hb rfl rfl rfl rfl (fun v hv q hq => ?_) (fun q o hq hn => ?_)
    (fun q hn hq => ?_) (fun q hq ht => ?_) fun q hq => ?_
  · exact ⟨rfl, rfl, hother q fun he => hap v hv (he ▸ hq), hb.tables_notMem_free hv q hq⟩
  · exact ⟨rfl, rfl, hother q hn, block_notMem_freePages hq⟩
  · rwa [hother q hn] at hq
  · rw [Set.mem_singleton_iff] at hq
    subst hq
    rw [hself] at ht ⊢
    exact hnew ht
  · rw [Set.mem_singleton_iff] at hq
    rw [hq]
    exact hunused

/-- A new block becomes one for areas. -/
theorem Books.claim (hb : x.Books) (hp : x.Loose p) {k : ℤ} (h : x.claimBlock p k = .ok x') :
    x.OnlyMemory x' {p} ∧ x'.Fresh p := by
  obtain ⟨o, h1, h2, h3, h4, h5⟩ := hp
  unfold claimBlock at h
  split_ifs at h
  cases h
  have hbacks : (x.setPage p
      { x.mem.pages p with pgtype := .vmaArea, refCount := 0 }).mem.BacksAreas p o := by
    have hself : (x.setPage p
          { x.mem.pages p with pgtype := .vmaArea, refCount := 0 }).mem.pages p =
        { x.mem.pages p with pgtype := .vmaArea, refCount := 0 } :=
      Function.update_self (β := fun _ => Pageframe) _ _ _
    exact ⟨by rw [hself], h1, by rw [hself]; exact h3, by rw [hself]; exact h4⟩
  have hunused := Loose.unused ⟨o, h1, h2, h3, h4, h5⟩ hb
  exact ⟨.of_setPage hb _ (fun v hv ht => h5 v hv p ht (self_mem_pagesOf p o))
    (fun _ => ⟨rfl, o, hbacks, h5⟩) hunused, ⟨o, hbacks⟩, hunused⟩

/-- A block that was not mapped after all becomes one of the buddy allocator again. -/
theorem Books.release (hb : x.Books) (hp : x.Fresh p) (r : ℤ) :
    x.OnlyMemory (x.setPage p { x.mem.pages p with pgtype := .buddyAllocator, refCount := r }) {p} ∧
      (x.setPage p { x.mem.pages p with pgtype := .buddyAllocator, refCount := r }).Loose p := by
  obtain ⟨⟨o, ho⟩, hunused⟩ := hp
  generalize hs : x.setPage p { x.mem.pages p with pgtype := .buddyAllocator, refCount := r } = s
  have hself : s.mem.pages p = { x.mem.pages p with pgtype := .buddyAllocator, refCount := r } := by
    rw [← hs]
    exact Function.update_self (β := fun _ => Pageframe) _ _ _
  have hmem : x.OnlyMemory s {p} := by
    rw [← hs]
    exact .of_setPage hb _ (fun v hv => hb.spaces.backs_notMem_tables hv ho) nofun hunused
  refine ⟨hmem, o, ?_, by rw [hself], by rw [hself]; exact ho.order, by rw [hself]; exact ho.head,
    fun v hv q hq => ?_⟩
  · rw [← hs]
    exact ho.block
  · rw [hmem.tabled] at hv
    rw [hmem.root, ← hs] at hq
    exact hb.spaces.block_apart v hv p o ho q hq

/-- `bkp_free` of a block that is held. -/
theorem Books.giveBack (hb : x.Books) (hp : x.Loose p) {m : Memory A.toPageAllocator}
    (h : x.mem.bkpFree p = some m) : x.OnlyMemory (x.withMem m) {p} := by
  have hunused := hp.unused hb
  obtain ⟨o, h1, h2, h3, h4, h5⟩ := hp
  obtain ⟨m', hm', hfree, hblocks, hpages, hwords⟩ := bkpFree_some h1 h2 h4
  rw [h] at hm'
  cases hm'
  have hu : ∀ q, q ∉ x.mem.freePages → q ∉ pagesOf p o → x.mem.Untouched m q := by
    intro q hq hqp
    refine ⟨by rw [hwords], ?_, by rw [hpages], ?_⟩
    · have hne : q ≠ p := fun he => hqp (by rw [he]; exact self_mem_pagesOf p o)
      rw [hblocks, Function.update_of_ne hne]
    · rw [hfree]
      exact fun hor => hor.elim hq hqp
  refine .of_untouched hb rfl rfl rfl (live_evolves (bkpFree_evolves h))
    (fun v hv q hq => hu q (hb.tables_notMem_free hv q hq) (h5 v hv q hq)) (fun q k hq hn => ?_)
    (fun q _ hq => ?_) (fun q hq ht => ?_) fun q hq => ?_
  · refine hu q (block_notMem_freePages hq) fun hqp => hn ?_
    exact (A.wellFormed x.mem.buddy).block_unique q k p o q hq h1 (self_mem_pagesOf q k) hqp
  · change (m.pages q).pgtype = _ at hq
    rwa [hpages] at hq
  · rw [Set.mem_singleton_iff] at hq
    change (m.pages q).pgtype = _ at ht
    rw [hpages, hq, h2] at ht
    cases ht
  · rw [Set.mem_singleton_iff] at hq
    rw [hq]
    exact hunused

/-- An operation on the page table of `v`. -/
theorem OnlyMemory.of_tableStep (hb : x.Books) (hv : v ∈ x.tabled) {m : Memory A.toPageAllocator}
    (hs : TableStep (x.pin v) x.mem m 2 (x.root v) 0) : x.OnlyMemory (x.withMem m) ∅ := by
  obtain ⟨hsp, hother, hback, htypes⟩ := hb.spaces.tableStep hv hs
  refine ⟨rfl, rfl, rfl, live_evolves hs.buddy, hsp, fun w hw q hq => ?_, fun q o hq _ hap => ?_,
    fun q hq _ => htypes q hq, fun _ hq => hq.elim, fun _ hq => hq.elim⟩
  · change q ∈ m.tables 2 (x.root w) at hq
    by_cases hwv : w = v
    · rw [hwv] at hq
      exact ((hs.conserve q).1 (.inr hq)).imp_right fun hq => ⟨v, hv, hq⟩
    · rw [tables_untouched (hother w hw hwv)] at hq
      exact .inr ⟨w, hw, hq⟩
  · exact hs.untouched (block_notMem_freePages hq) (hap v hv)

end VmState

end AcoOs
