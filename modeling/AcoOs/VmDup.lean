/-
What `vma_dup` does.

Its loop maps a copy of every area of the list (`Dups`): a block that may be written gets a
block of its own, every other one is shared.  When a copy is refused, the new address space
is freed again.
-/
import AcoOs.VmMmap

namespace AcoOs

open Memory

variable {L : VmLayout} {A : VmEnv L}

/-! ### `PGNUM2ORDER` -/

theorem pgnum2orderLoop_two_pow (o n : ℕ) :
    pgnum2orderLoop (2 ^ o : ℕ) n = some (if o < n then (true, (o : ℤ)) else (false, 0)) := by
  induction n with
  | zero => rfl
  | succ n ih =>
    rw [pgnum2orderLoop, ih]
    have hbit : (2 ^ o &&& 1 <<< n ≠ 0) ↔ o = n := by
      rw [and_two_pow_ne_zero, Nat.mod_two_eq_one_iff_testBit_zero, Nat.testBit_div_two_pow,
        zero_add, Nat.testBit_two_pow, decide_eq_true_eq]
    dsimp only
    rw [Int.toNat_natCast]
    by_cases hon : o = n
    · rw [if_pos (hbit.2 hon), if_neg (show ¬ o < n by omega), if_pos (show o < n + 1 by omega),
        if_neg Bool.false_ne_true, hon]
    · rw [if_neg (fun h => hon (hbit.1 h))]
      by_cases hlt : o < n
      · rw [if_pos hlt, if_pos (show o < n + 1 by omega)]
      · rw [if_neg hlt, if_neg (show ¬ o < n + 1 by omega)]

/-- The order of a block of `2 ^ o` pages. -/
theorem pgnum2order_two_pow {o n : ℕ} (ho : o < n) : pgnum2order n (2 ^ o : ℕ) = o := by
  have hpos := Nat.two_pow_pos o
  rw [pgnum2order, if_neg (by omega), pgnum2orderLoop_two_pow, if_pos ho]

/-- An area of memory that may be written. -/
def VmaArea.Writable (area : VmaArea) : Prop :=
  area.vmarTyp = .memory ∧ area.prot &&& protW ≠ 0

namespace VmState

variable {x x' y z : VmState A} {v w a p o : ℕ} {area area' : VmaArea}

/-- What a copy of an area has of it. -/
structure Copies (area area' : VmaArea) : Prop where
  vmarTyp : area'.vmarTyp = area.vmarTyp
  va : area'.va = area.va
  size : area'.size = area.size
  prot : area'.prot = area.prot
  shared : area.vmarTyp ≠ .memory → area' = area
  pa : ¬ area.Writable → area'.pa = area.pa

namespace Copies

theorem covers (h : Copies area area') : area'.Covers w ↔ area.Covers w := by
  unfold VmaArea.Covers
  rw [h.va, h.size]

theorem inTheWay (h : Copies area area') : x.inTheWay v area' = x.inTheWay v area := by
  have hcmp : ∀ b, insertCompareVmarea area' b = insertCompareVmarea area b := by
    intro b
    unfold insertCompareVmarea VmaArea.vaEnd
    rw [h.va, h.size]
  unfold VmState.inTheWay
  simp only [hcmp]

end Copies

/-- The area was given a block that was free, and its pages are zero. -/
def NewBlock (x x' : VmState A) (area : VmaArea) : Prop :=
  ∃ p o, area.pa = L.pg2pa p ∧ area.size = 2 ^ o * pageSize ∧ pagesOf p o ⊆ x.mem.freePages ∧
    ∀ q ∈ pagesOf p o, ∀ j, x'.mem.words q j = 0

/-- How `vma_dup` can go on with one area: an `ASSERT` that is not about blocks fails, or no
copy is made, or one is. -/
inductive DupOutcome (x : VmState A) (v : ℕ) (area : VmaArea) :
    Except VmAssert (Bool × VmState A) → Prop
  | stopped {e : VmAssert} (hne : e ≠ .block) (hex : e = .eexist → x.Collides v area) :
      DupOutcome x v area (.error e)
  | refused {x' : VmState A} (h : x.Refused x' v) : DupOutcome x v area (.ok (false, x'))
  | copied {x' : VmState A} {a : ℕ} {area' : VmaArea} (hc : Copies area area')
      (ha : x.Added x' v a area') (hnew : area.Writable → x.NewBlock x' area') :
      DupOutcome x v area (.ok (true, x'))

theorem Collides.copy (hc : Copies area area') (h : x.Collides v area') : x.Collides v area := by
  obtain ⟨hway, w, hw, hcov, hvalid⟩ := h
  exact ⟨by rwa [hc.inTheWay] at hway, w, hw, hc.covers.1 hcov, hvalid⟩

theorem copyArea_cases (h : x.VmInv) (hv : v ∈ x.live .vma) {pa : ℕ}
    (hr : x.Request { area with pa := pa, pgfm := none }) :
    (∃ e, x.copyArea v area pa = .error e ∧ e ≠ .block ∧
      (e = .eexist → x.Collides v { area with pa := pa, pgfm := none })) ∨
    (∃ x', x.copyArea v area pa = .ok (false, x') ∧ x.Refused x' v) ∨
    ∃ a x', x.copyArea v area pa = .ok (true, x') ∧
      x.inTheWay v { area with pa := pa, pgfm := none } = none ∧
      x.Mapped x' v a { area with pa := pa, pgfm := none } := by
  unfold copyArea
  rcases vmMmapInternal_cases h hv hr with ⟨e, h1, h2⟩ | ⟨ret, x', h1, hwhy, h2⟩ |
    ⟨a, x', h1, -, h2, h3⟩
  · rw [show x.vmMmapInternal v area.va pa area.prot area.size area.vmarTyp true = _ from h1]
    exact .inl ⟨e, rfl, h2.ne_block, h2.collides⟩
  · have hret : ret ≠ 0 := by
      rcases hwhy with ⟨rfl, -⟩ | ⟨-, ⟨rfl, -⟩ | ⟨rfl, -⟩⟩ <;> decide
    rw [show x.vmMmapInternal v area.va pa area.prot area.size area.vmarTyp true = _ from h1]
    exact .inr (.inl ⟨x', by simp [hret], h2⟩)
  · rw [show x.vmMmapInternal v area.va pa area.prot area.size area.vmarTyp true = _ from h1]
    exact .inr (.inr ⟨a, x', by simp, h2, h3⟩)

/-- An area of a list may be mapped again. -/
theorem request_of_areaOk (hok : AreaOk x.mem area) : x.Request { area with pgfm := none } := by
  refine ⟨hok.va_aligned, hok.pa_aligned, hok.size_aligned, hok.size_pos, hok.va_lt, hok.pa_lt,
    hok.size_lt, rfl, fun ht => ?_, fun ht => ?_⟩
  · obtain ⟨p, o, -, hb, h1, h2⟩ := hok.backed ht
    exact ⟨p, o, hb, h1, h2⟩
  · have hne : area.vmarTyp ≠ .memory := by
      rw [show area.vmarTyp = .kernel from ht]
      decide
    have harea : { area with pgfm := none } = area := by rw [← hok.unbacked hne]
    rw [harea]
    exact hok.kernel ht

/-- A copy that shares everything. -/
theorem copyArea_outcome (h : x.VmInv) (hv : v ∈ x.live .vma) (hok : AreaOk x.mem area)
    (hw : ¬ area.Writable) : x.DupOutcome v area (x.copyArea v area area.pa) := by
  have hc : Copies area { area with pgfm := none } :=
    ⟨rfl, rfl, rfl, rfl, fun ht => by rw [← hok.unbacked ht], fun _ => rfl⟩
  have hr : x.Request { area with pgfm := none } := request_of_areaOk hok
  rcases copyArea_cases h hv hr with ⟨e, h1, h2, h3⟩ | ⟨x', h1, h2⟩ | ⟨a, x', h1, hway, hm⟩
  · rw [h1]
    exact .stopped h2 fun he => (h3 he).copy hc
  · rw [h1]
    exact .refused h2
  · rw [h1]
    refine .copied hc (hm.added h hv hr hway fun ht w hcov => ?_) fun hw' => absurd hw' hw
    exact hok.outside ht w (hc.covers.1 hcov)

/-- A copy of an area that may be written has a block of its own. -/
theorem copyBlock_outcome (h : x.VmInv) (hv : v ∈ x.live .vma) (hok : AreaOk x.mem area)
    (hw : area.Writable) {o : ℕ} (hsize : area.size = 2 ^ o * pageSize) :
    x.DupOutcome v area (x.copyBlock v area o) := by
  have ht := hw.1
  unfold copyBlock
  rcases hb : x.bkpAllocZero o with ⟨_ | p, y⟩
  · obtain ⟨hat, hlive⟩ := bkpAllocZero_none hb
    exact .refused (.of_at h hat hlive)
  obtain ⟨z, hz, hcl⟩ := claimBlock_spec h.spaces hb
  rw [Int.toNat_natCast] at hcl
  dsimp only
  rw [hz]
  have harea : { area with pa := L.pg2pa p, pgfm := none } =
      memoryArea L area.va p o area.prot := by
    rw [memoryArea, ← ht, ← hsize]
  have hc : Copies area { area with pa := L.pg2pa p, pgfm := none } :=
    ⟨rfl, rfl, rfl, rfl, fun hne => absurd ht hne, fun hn => absurd hw hn⟩
  have hr : z.Request { area with pa := L.pg2pa p, pgfm := none } := by
    rw [harea]
    exact hcl.request hok.va_aligned hok.va_lt
  have hvz : v ∈ z.live .vma := by rw [hcl.live]; exact hv
  dsimp only
  rcases copyArea_cases (hcl.inv h) hvz hr with ⟨e, h1, h2, h3⟩ | ⟨x', h1, h2⟩ |
    ⟨a, x', h1, hway, hm⟩
  · rw [h1]
    exact .stopped h2 fun he => (hcl.collides h.spaces hv (h3 he)).copy hc
  · rw [h1]
    have hpage := hcl.backs.untouched (h2.kept.backs p o hcl.backs)
    obtain ⟨m, hm, href, -, -⟩ := hcl.giveBack h hv h2
      { x'.mem.pages p with pgtype := .buddyAllocator } rfl hpage.head
    dsimp only
    rw [hm]
    exact .refused href
  · rw [h1]
    rw [hcl.inTheWay] at hway
    refine .copied hc (hcl.added h hv hr hm ht rfl hway fun w hcov => ?_) fun _ =>
      ⟨p, o, rfl, hsize, hcl.sub, fun q hq j => ?_⟩
    · exact hok.outside (by rw [ht]; decide) w (hc.covers.1 hcov)
    · rw [hm.words p o hcl.backs q hq, hcl.zero q hq]

/-- What may not be written is shared. -/
theorem dupArea_shared (hok : AreaOk x.mem area) (hw : ¬ area.Writable) (v : ℕ) :
    x.dupArea v area = x.copyArea v area area.pa := by
  unfold dupArea
  split
  · rename_i ht
    obtain ⟨p, o, hp, -⟩ := hok.backed ht
    rw [if_pos ⟨hok.va_aligned, hok.size_aligned, hok.size_pos⟩, if_neg (paLazy_ne hok.pa_aligned),
      if_pos (by rw [hp]; exact Option.some_ne_none p), if_neg fun hprot => hw ⟨ht, hprot⟩]
  · rename_i ht
    exact if_pos ⟨hok.va_aligned, hok.pa_aligned, hok.size_aligned, hok.size_pos, hok.unbacked ht⟩

/-- What may be written gets a block of the same order. -/
theorem dupArea_writable (hok : AreaOk x.mem area) (hw : area.Writable) (v : ℕ) :
    ∃ o : ℕ, area.size = 2 ^ o * pageSize ∧ x.dupArea v area = x.copyBlock v area o := by
  obtain ⟨p, o, hp, hb, hpa, hsize⟩ := hok.backed hw.1
  have ho : o < L.maxOrder := (A.wellFormed x.mem.buddy).order_lt p o hb.block
  have hpages : toInt32 (area.size / pageSize) = (2 ^ o : ℕ) := by
    have hpow := Layout.two_pow_le_of_lt_maxOrder ho
    rw [hsize, Nat.mul_div_cancel _ (by decide), toInt32_of_lt (by omega)]
  have horder : pgnum2order L.maxOrder (toInt32 (area.size / pageSize)) = o := by
    rw [hpages]
    exact pgnum2order_two_pow ho
  refine ⟨o, hsize, ?_⟩
  unfold dupArea
  rw [hw.1]
  dsimp only
  rw [if_pos ⟨hok.va_aligned, hok.size_aligned, hok.size_pos⟩, if_neg (paLazy_ne hok.pa_aligned),
    if_pos (by rw [hp]; exact Option.some_ne_none p), if_pos hw.2, horder,
    if_pos (Int.natCast_nonneg o)]

/-- What the loop of `vma_dup` does with one area. -/
theorem dupArea_outcome (h : x.VmInv) (hv : v ∈ x.live .vma) (hok : AreaOk x.mem area) :
    x.DupOutcome v area (x.dupArea v area) := by
  by_cases hw : area.Writable
  · obtain ⟨o, hsize, heq⟩ := dupArea_writable hok hw v
    rw [heq]
    exact copyBlock_outcome h hv hok hw hsize
  · rw [dupArea_shared hok hw]
    exact copyArea_outcome h hv hok hw

/-! ### The loop of `vma_dup` -/

/-- The areas of the list were copied into `v`, all of them or those up to one that was
refused. -/
inductive Dups (v : ℕ) : VmState A → List ℕ → Bool → VmState A → Prop
  | nil {x : VmState A} : Dups v x [] true x
  | refused {x x' : VmState A} {b : ℕ} {l : List ℕ} (h : x.Refused x' v) :
      Dups v x (b :: l) false x'
  | copied {x y x' : VmState A} {a b : ℕ} {l : List ℕ} {ok : Bool} {area : VmaArea}
      (hc : Copies (x.areas b) area) (ha : x.Added y v a area)
      (hnew : (x.areas b).Writable → x.NewBlock y area) (h : Dups v y l ok x') :
      Dups v x (b :: l) ok x'

/-- An address space got areas, and everything else stayed. -/
structure Grown (x x' : VmState A) (v : ℕ) : Prop where
  inv : x'.VmInv
  referenced : x.Referenced → x'.Referenced
  frame : x.Frame x' v
  live : x.live .vmaArea ⊆ x'.live .vmaArea
  areas : ∀ a ∈ x.live .vmaArea, x'.areas a = x.areas a
  backs : ∀ p o, x.mem.BacksAreas p o → x'.mem.BacksAreas p o
  words : ∀ p o, x.mem.BacksAreas p o → ∀ q ∈ pagesOf p o, x'.mem.words q = x.mem.words q

theorem Grown.sameSpace (hg : x.Grown x' v) (h : x.VmInv) (hw : w ∈ x.live .vma) (hne : w ≠ v) :
    x.SameSpace x' w where
  list := hg.frame.list hne
  areas a ha := hg.areas a (h.mem_live hw ha)
  entries := .of_eq fun u hu => hg.frame.entry w hw hne u hu

theorem Added.grown (ha : x.Added x' v a area) : x.Grown x' v where
  inv := ha.inv
  referenced := ha.referenced
  frame := ha.frame
  live := by
    rw [ha.live]
    exact Finset.subset_insert _ _
  areas _ hb := ha.areas_live hb
  backs := ha.backs
  words := ha.words

theorem Grown.trans (h : x.Grown y v) (h' : y.Grown x' v) : x.Grown x' v where
  inv := h'.inv
  referenced hr := h'.referenced (h.referenced hr)
  frame := h.frame.trans h'.frame
  live := h.live.trans h'.live
  areas a ha := by rw [h'.areas a (h.live ha), h.areas a ha]
  backs p o hb := h'.backs p o (h.backs p o hb)
  words p o hb q hq := by rw [h'.words p o (h.backs p o hb) q hq, h.words p o hb q hq]

theorem Refused.grown (hr : x.Refused x' v) (h : x.VmInv) (hv : v ∈ x.live .vma) :
    x.Grown x' v where
  inv := hr.inv h hv
  referenced := hr.referenced
  frame := hr.frame
  live := by rw [hr.live]
  areas := hr.areas
  backs p o hb := hb.untouched (hr.kept.backs p o hb)
  words := hr.kept.words

theorem Dups.grown {l : List ℕ} {ok : Bool} (hd : Dups v x l ok x') (h : x.VmInv)
    (hv : v ∈ x.live .vma) : x.Grown x' v := by
  induction hd with
  | nil => exact ⟨h, id, .refl _ v, subset_rfl, fun _ _ => rfl, fun _ _ => id, fun _ _ _ _ _ => rfl⟩
  | refused hr => exact hr.grown h hv
  | copied _ ha _ _ ih => exact ha.grown.trans (ih ha.inv (by rw [ha.frame.liveVma]; exact hv))

/-- The loop goes on until an `ASSERT` fails or a copy is refused. -/
theorem dupAreas_cases (l : List ℕ) (x : VmState A) (h : x.VmInv) (hv : v ∈ x.live .vma)
    (hl : ∀ b ∈ l, b ∈ x.live .vmaArea) :
    (∃ e, x.dupAreas v l = .error e ∧ e ≠ .block ∧ (e = .eexist → ∃ l₁ b l₂ y,
      l = l₁ ++ b :: l₂ ∧ Dups v x l₁ true y ∧ y.Collides v (y.areas b))) ∨
    ∃ ok x', x.dupAreas v l = .ok (ok, x') ∧ Dups v x l ok x' := by
  induction l generalizing x with
  | nil => exact .inr ⟨true, x, rfl, .nil⟩
  | cons b l ih =>
    have hout := dupArea_outcome h hv (h.areaOk b (hl b List.mem_cons_self))
    rw [dupAreas]
    generalize x.dupArea v (x.areas b) = r at hout
    cases hout with
    | stopped hne hex =>
      exact .inl ⟨_, rfl, hne, fun he => ⟨[], b, l, x, rfl, .nil, hex he⟩⟩
    | refused hr => exact .inr ⟨false, _, rfl, .refused hr⟩
    | copied hc ha hnew =>
      have hl' : ∀ c ∈ l, _ := fun c hc => ha.grown.live (hl c (List.mem_cons_of_mem b hc))
      rcases ih _ ha.inv (by rw [ha.frame.liveVma]; exact hv) hl' with
        ⟨e, h1, h2, h3⟩ | ⟨ok, x', h1, h2⟩
      · refine .inl ⟨e, h1, h2, fun he => ?_⟩
        obtain ⟨l₁, c, l₂, z, rfl, hd, hcol⟩ := h3 he
        exact ⟨b :: l₁, c, l₂, z, rfl, .copied hc ha hnew hd, hcol⟩
      · exact .inr ⟨ok, x', h1, .copied hc ha hnew h2⟩

/-! ### A new address space -/

/-- The address space `v` was opened, with an empty page table in page `pg`. -/
structure Opened (x s : VmState A) (v pg : ℕ) : Prop where
  inv : s.VmInv
  referenced : x.Referenced → s.Referenced
  fresh : v ∉ x.live .vma
  live : s.live .vma = insert v (x.live .vma)
  liveAreas : s.live .vmaArea = x.live .vmaArea
  kernVma : s.kernVma = x.kernVma
  vmas : ∀ w, w ≠ v → s.vmas w = x.vmas w
  areas : s.areas = x.areas
  list : s.list v = []
  entry : ∀ w < tableSpan, ∀ e, PteValid e → s.entry v w ≠ some e
  sameSpace : ∀ w ∈ x.live .vma, x.SameSpace s w
  root : s.root v = pg
  free : pg ∈ x.mem.freePages
  backs : ∀ p o, x.mem.BacksAreas p o → s.mem.BacksAreas p o
  words : ∀ p o, x.mem.BacksAreas p o → ∀ q ∈ pagesOf p o, s.mem.words q = x.mem.words q

/-- The page of the root is taken. -/
theorem takeRoot_spec (hsp : x.mem.Spaces (x.live .vma) x.root x.pin) (hat : x.AtAllocators y)
    {pg : ℕ} {m : Memory A.toPageAllocator} (hm : y.mem.bkpAllocZero 0 = (some pg, m)) :
    m.Spaces (x.live .vma) x.root x.pin ∧ (∀ q, q ∉ x.mem.freePages → x.mem.Untouched m q) ∧
    pg ∈ x.mem.freePages ∧ pg ∉ m.freePages ∧ m.blocks pg = some 0 ∧
    (m.pages pg).pgtype = .buddyAllocator ∧ (∀ q, q ≠ pg → m.pages q = x.mem.pages q) ∧
    ∀ j, m.words pg j = 0 := by
  obtain ⟨hspy, huy⟩ := hsp.shrink hat.free hat.blocks hat.pages hat.words
  have hpg : m.pages pg = .handed 0 := (bkpAllocZero_some hm).2.page
  obtain ⟨hspm, hum, hsub, hfree, hb, -, hother, hzero⟩ := hspy.take hm (m.pages pg)
    (by rw [hpg]; rfl) (by rw [hpg]; rfl)
    (show m = { m with pages := _ } by rw [Function.update_eq_self])
  have hself := self_mem_pagesOf pg (0 : ℤ).toNat
  refine ⟨hspm, fun q hq => ?_, hat.free (hsub hself), ?_, hb, by rw [hpg]; rfl, fun q hq => ?_,
    hzero⟩
  · exact (huy q hq).trans (hum q fun hqy => hq (hat.free hqy))
  · rw [hfree]
    exact fun hq => hq.2 hself
  · rw [hother q hq, hat.pages]

/-- Object `v` was taken for the new address space, and page `pg` for its root. -/
structure Opening (x s : VmState A) (v pg : ℕ) : Prop where
  ne_zero : v ≠ 0
  fresh : v ∉ x.live .vma
  vma : s.vmas v = ⟨some pg, x.kernVma, .nil, []⟩
  vmas : ∀ w, w ≠ v → s.vmas w = x.vmas w
  areas : s.areas = x.areas
  kernVma : s.kernVma = x.kernVma
  live : s.live .vma = insert v (x.live .vma)
  liveAreas : s.live .vmaArea = x.live .vmaArea
  spaces : s.mem.Spaces (x.live .vma) x.root x.pin
  untouched : ∀ q, q ∉ x.mem.freePages → x.mem.Untouched s.mem q
  free : pg ∈ x.mem.freePages
  notFree : pg ∉ s.mem.freePages
  blocks : s.mem.blocks pg = some 0
  pgtype : (s.mem.pages pg).pgtype = .buddyAllocator
  pages : ∀ q, q ≠ pg → s.mem.pages q = x.mem.pages q
  zero : ∀ j, s.mem.words pg j = 0

theorem opening_of_alloc (h : x.VmInv) (ho : x.objAlloc .vma = (some v, y)) {pg : ℕ}
    (hb : y.bkpAllocZero 0 = (some pg, z)) :
    x.Opening (z.setVma v ⟨some pg, z.kernVma, .nil, []⟩) v pg := by
  obtain ⟨hat, hv0, hfresh, hlivey⟩ := objAlloc_some ho
  unfold VmState.bkpAllocZero at hb
  rcases hm : y.mem.bkpAllocZero 0 with ⟨q, m⟩
  rw [hm] at hb
  obtain ⟨rfl, rfl⟩ := Prod.mk.inj hb
  obtain ⟨hsp, hu, hpx, hpm, hbm, htm, hpages, hzero⟩ := takeRoot_spec h.spaces hat hm
  have hlive : A.live m.buddy = Function.update x.live .vma (insert v (x.live .vma)) :=
    (live_evolves (bkpAllocZero_evolves hm)).trans hlivey
  refine ⟨hv0, hfresh, ?_, fun w hw => ?_, hat.areas, hat.kernVma, ?_, ?_, hsp, hu, hpx, hpm, hbm,
    htm, hpages, hzero⟩
  · rw [← hat.kernVma]
    exact Function.update_self (β := fun _ => Vma) _ _ _
  · rw [← hat.vmas]
    exact Function.update_of_ne (β := fun _ => Vma) hw _ _
  · show A.live m.buddy .vma = _
    rw [hlive, Function.update_self]
  · show A.live m.buddy .vmaArea = _
    rw [hlive]
    rfl

namespace Opening

variable {s : VmState A} {pg : ℕ}

theorem mem_live (hp : x.Opening s v pg) : w ∈ s.live .vma ↔ w = v ∨ w ∈ x.live .vma := by
  rw [hp.live, Finset.mem_insert]

theorem ne (hp : x.Opening s v pg) (hw : w ∈ x.live .vma) : w ≠ v :=
  fun he => hp.fresh (he ▸ hw)

theorem ne_kernVma (hp : x.Opening s v pg) (h : x.VmInv) : v ≠ x.kernVma :=
  fun he => hp.fresh (he ▸ h.kern_live)

theorem root_self (hp : x.Opening s v pg) : s.root v = pg := by
  unfold VmState.root
  rw [hp.vma]
  rfl

theorem root (hp : x.Opening s v pg) (hw : w ∈ x.live .vma) : s.root w = x.root w := by
  unfold VmState.root
  rw [hp.vmas w (hp.ne hw)]

theorem list_self (hp : x.Opening s v pg) : s.list v = [] := by
  unfold VmState.list
  rw [hp.vma]

theorem list (hp : x.Opening s v pg) (hw : w ∈ x.live .vma) : s.list w = x.list w := by
  unfold VmState.list
  rw [hp.vmas w (hp.ne hw)]

theorem pin (hp : x.Opening s v pg) : s.pin = x.pin := by
  funext w
  unfold VmState.pin
  rw [hp.kernVma]

/-- The page of the new root was free, so the tables of the others are what they were. -/
theorem tables (hp : x.Opening s v pg) (h : x.VmInv) (hw : w ∈ x.live .vma) :
    ∀ q ∈ x.mem.tables 2 (x.root w), x.mem.Untouched s.mem q :=
  fun q hq => hp.untouched q ((h.spaces.table w hw).apart q hq)

theorem backs (hp : x.Opening s v pg) (hb : x.mem.BacksAreas p o) : x.mem.Untouched s.mem p :=
  hp.untouched p (Spaces.backs_notMem_free hb (self_mem_pagesOf p o))

/-- The blocks that back areas are those from before. -/
theorem backs_before (hp : x.Opening s v pg) (h : x.VmInv)
    (hq : (s.mem.pages p).pgtype = .vmaArea) : ∃ k, x.mem.BacksAreas p k := by
  by_cases hpp : p = pg
  · rw [hpp, hp.pgtype] at hq
    cases hq
  · rw [hp.pages p hpp] at hq
    exact h.spaces.backs p hq

theorem memory_spaces (hp : x.Opening s v pg) (h : x.VmInv) :
    s.mem.Spaces (s.live .vma) s.root s.pin := by
  have hsp : s.mem.Spaces (x.live .vma) s.root s.pin := by
    rw [hp.pin]
    exact hp.spaces.congr (fun _ hw => hp.root hw) fun _ _ => rfl
  rw [hp.live]
  refine hsp.insert hp.fresh ?_ ?_ ?_ ?_ ?_
  · rw [hp.pin, VmInv.pin_eq_noPin (hp.ne_kernVma h)]
    exact fun _ => id
  · rw [hp.root_self]
    exact fun j _ => hp.zero j
  · rw [hp.root_self]
    exact hp.notFree
  · intro w hw hmem
    rw [hp.root_self, hp.root hw, tables_untouched (hp.tables h hw)] at hmem
    exact (h.spaces.table w hw).apart pg hmem hp.free
  · intro q k hq hmem
    obtain ⟨k', hk'⟩ := hp.backs_before h hq.type
    rw [(hk'.untouched (hp.backs hk')).order_unique hq] at hk'
    rw [hp.root_self] at hmem
    exact Spaces.backs_notMem_free hk' hmem hp.free

theorem listed (hp : x.Opening s v pg) (h : x.VmInv) (hw : w ∈ s.live .vma) : s.Listed w := by
  rcases hp.mem_live.1 hw with rfl | hw
  · refine ⟨?_, ?_⟩
    · rw [hp.list_self, hp.vma]
      rfl
    · rw [hp.list_self]
      exact List.nodup_nil
  · exact (h.listed w hw).congr (hp.vmas w (hp.ne hw))

/-- The new address space has no areas. -/
theorem mem_list (hp : x.Opening s v pg) (hw : w ∈ s.live .vma) (ha : a ∈ s.list w) :
    w ∈ x.live .vma ∧ a ∈ x.list w := by
  rcases hp.mem_live.1 hw with rfl | hw
  · rw [hp.list_self] at ha
    cases ha
  · rw [hp.list hw] at ha
    exact ⟨hw, ha⟩

theorem inv (hp : x.Opening s v pg) (h : x.VmInv) : s.VmInv where
  kern_live := by
    rw [hp.mem_live, hp.kernVma]
    exact .inr h.kern_live
  zero_notMem := by
    rw [hp.mem_live]
    exact fun h0 => h0.elim (fun h0 => hp.ne_zero h0.symm) h.zero_notMem
  kernelVma w hw := by
    rw [hp.kernVma]
    rcases hp.mem_live.1 hw with rfl | hw
    · rw [hp.vma]
    · rw [hp.vmas w (hp.ne hw)]
      exact h.kernelVma w hw
  hwPgtable w hw := by
    rcases hp.mem_live.1 hw with rfl | hw
    · rw [hp.vma, hp.root_self]
    · rw [hp.vmas w (hp.ne hw), hp.root hw]
      exact h.hwPgtable w hw
  dead w hw := by
    rw [hp.mem_live, not_or] at hw
    rw [hp.vmas w hw.1]
    exact h.dead w hw.2
  listed w hw := hp.listed h hw
  spaces := hp.memory_spaces h
  rootBlock w hw hwk := by
    rw [hp.kernVma] at hwk
    rcases hp.mem_live.1 hw with rfl | hw
    · rw [hp.root_self, hp.blocks]
    · rw [hp.root hw, (hp.tables h hw _ (root_mem_tables x.mem 2 _)).blocks]
      exact h.rootBlock w hw hwk
  live_iff a := by
    rw [hp.liveAreas, h.live_iff]
    constructor
    · rintro ⟨w, hw, ha⟩
      exact ⟨w, hp.mem_live.2 (.inr hw), by rw [hp.list hw]; exact ha⟩
    · rintro ⟨w, hw, ha⟩
      obtain ⟨hw', ha'⟩ := hp.mem_list hw ha
      exact ⟨w, hw', ha'⟩
  owner w hw u hu a haw hau := by
    obtain ⟨hw', haw'⟩ := hp.mem_list hw haw
    obtain ⟨hu', hau'⟩ := hp.mem_list hu hau
    exact h.owner w hw' u hu' a haw' hau'
  areaOk a ha := by
    rw [hp.liveAreas] at ha
    rw [hp.areas]
    exact (h.areaOk a ha).mono fun q k _ hq => hq.untouched (hp.backs hq)
  refCount q hq := by
    obtain ⟨k, hk⟩ := hp.backs_before h hq
    rw [(hp.backs hk).pages, hp.liveAreas, backed_congr fun a _ => congrFun hp.areas a]
    exact h.refCount q hk.type

theorem referenced (hp : x.Opening s v pg) (h : x.VmInv) (href : x.Referenced) :
    s.Referenced := by
  intro q hq
  obtain ⟨k, hk⟩ := hp.backs_before h hq
  obtain ⟨a, ha, h1, h2⟩ := href q hk.type
  exact ⟨a, by rw [hp.liveAreas]; exact ha, by rw [hp.areas]; exact h1, by rw [hp.areas]; exact h2⟩

/-- Nothing is mapped through a page of zeros. -/
theorem entry_self (hp : x.Opening s v pg) (hw : w < tableSpan) {e : ℕ} (he : PteValid e) :
    s.entry v w ≠ some e := by
  intro hent
  unfold VmState.entry at hent
  rw [hp.root_self] at hent
  have h0 : e = 0 := Radix.leaf_of_empty (F := sv39Format L) (fun j _ => hp.zero j) hw hent
  rw [h0] at he
  exact not_pteValid_zero he

theorem sameSpace (hp : x.Opening s v pg) (h : x.VmInv) (hw : w ∈ x.live .vma) :
    x.SameSpace s w where
  list := hp.list hw
  areas a _ := congrFun hp.areas a
  entries := .of_eq fun u hu => by
    unfold VmState.entry
    rw [hp.root hw]
    exact leaf_untouched (hp.tables h hw) hu

end Opening

theorem opened_spec (h : x.VmInv) (ho : x.objAlloc .vma = (some v, y)) {pg : ℕ}
    (hb : y.bkpAllocZero 0 = (some pg, z)) :
    x.Opened (z.setVma v ⟨some pg, z.kernVma, .nil, []⟩) v pg := by
  have hp := opening_of_alloc h ho hb
  exact {
    inv := hp.inv h
    referenced := hp.referenced h
    fresh := hp.fresh
    live := hp.live
    liveAreas := hp.liveAreas
    kernVma := hp.kernVma
    vmas := hp.vmas
    areas := hp.areas
    list := hp.list_self
    entry := fun _ hw _ he => hp.entry_self hw he
    sameSpace := fun _ hw => hp.sameSpace h hw
    root := hp.root_self
    free := hp.free
    backs := fun _ _ hq => hq.untouched (hp.backs hq)
    words := fun _ _ hr q hq => (hp.untouched q (Spaces.backs_notMem_free hr hq)).words }

/-- How `vma_dup` of address space `u` can end: with an `ASSERT` that is not about blocks, with
nothing done, with the new address space freed again, or with the new address space. -/
inductive DupEnd (x : VmState A) (u : ℕ) : Except VmAssert (ℕ × VmState A) → Prop
  | stopped {e : VmAssert} (hne : e ≠ .block) (hex : e = .eexist → ∃ v pg s l₁ b l₂ y,
      x.Opened s v pg ∧ x.list u = l₁ ++ b :: l₂ ∧ Dups v s l₁ true y ∧
        y.Collides v (y.areas b)) : DupEnd x u (.error e)
  | nothing {x' : VmState A} (h : x.Refused x' u) : DupEnd x u (.ok (0, x'))
  | undone {s y x' : VmState A} {v pg : ℕ} (ho : x.Opened s v pg)
      (hd : Dups v s (x.list u) false y) (hr : y.Released x' v) : DupEnd x u (.ok (0, x'))
  | done {s x' : VmState A} {v pg : ℕ} (ho : x.Opened s v pg)
      (hd : Dups v s (x.list u) true x') : DupEnd x u (.ok (v, x'))

/-- `vma_dup` of an address space. -/
theorem vmaDup_end (h : x.VmInv) (href : x.Referenced) {u : ℕ} (hu : u ∈ x.live .vma) :
    x.DupEnd u (x.vmaDup u) := by
  have hargs : ¬ (u = 0 ∨ (x.vmas u).kernelVma ≠ x.kernVma ∨ (x.vmas u).hwPgtable = none) := by
    rw [h.hwPgtable u hu]
    rintro (h0 | h0 | h0)
    · exact h.ne_zero hu h0
    · exact h0 (h.kernelVma u hu)
    · cases h0
  unfold vmaDup
  rw [if_neg hargs]
  rcases ho : x.objAlloc .vma with ⟨_ | v, y⟩
  · obtain ⟨hat, hlive⟩ := objAlloc_none ho
    exact .nothing (.of_at h hat hlive)
  obtain ⟨hat, hv0, hfresh, hlivey⟩ := objAlloc_some ho
  have hzero : y.vmas v = .zero := by
    rw [hat.vmas]
    exact h.dead v hfresh
  dsimp only
  rw [if_pos (by rw [hzero]; exact ⟨rfl, rfl⟩)]
  rcases hb : y.bkpAllocZero 0 with ⟨_ | pg, z⟩
  · -- no page for the root: the object is freed
    obtain ⟨hatz, hlivez⟩ := bkpAllocZero_none hb
    obtain ⟨x', hx', hat', -, hlive'⟩ := objFree_some (x := z) (k := .vma) (a := v)
      (by rw [hlivez, hlivey, Function.update_self]; exact Finset.mem_insert_self v _)
    dsimp only
    rw [hx']
    refine .nothing (.of_at h ((hat.trans hatz).trans hat') ?_)
    rw [hlive', hlivez, hlivey, Function.update_self, Function.update_idem,
      Finset.erase_insert hfresh, Function.update_eq_self]
  have hopen := opened_spec h ho hb
  have hlist : (z.vmas u).lList = x.list u := by
    unfold VmState.bkpAllocZero at hb
    rw [← (Prod.mk.inj hb).2]
    show (y.vmas u).lList = _
    rw [hat.vmas]
    rfl
  dsimp only
  generalize z.setVma v ⟨some pg, z.kernVma, .nil, []⟩ = s at hopen
  rw [hlist]
  have hvs : v ∈ s.live .vma := by
    rw [hopen.live]
    exact Finset.mem_insert_self v _
  have hl : ∀ b ∈ x.list u, b ∈ s.live .vmaArea := by
    intro b hbu
    rw [hopen.liveAreas]
    exact h.mem_live hu hbu
  rcases dupAreas_cases (x.list u) s hopen.inv hvs hl with ⟨e, h1, h2, h3⟩ | ⟨ok, y', h1, h2⟩
  · rw [h1]
    refine .stopped h2 fun he => ?_
    obtain ⟨l₁, b, l₂, w, hsplit, hd, hcol⟩ := h3 he
    exact ⟨v, pg, s, l₁, b, l₂, w, hopen, hsplit, hd, hcol⟩
  · rw [h1]
    cases ok with
    | true => exact .done hopen h2
    | false =>
      have hg := h2.grown hopen.inv hvs
      have hvk : v ≠ y'.kernVma := by
        rw [hg.frame.kernVma, hopen.kernVma]
        exact fun he => hopen.fresh (he ▸ h.kern_live)
      dsimp only
      rcases vmaFree_cases hg.inv (hg.referenced (hopen.referenced href))
        (by rw [hg.frame.liveVma]; exact hvs) hvk with
        ⟨herr, -⟩ | ⟨x', hx', hr⟩
      · rw [herr]
        exact .stopped (by decide) fun he => (nomatch he)
      · rw [hx']
        exact .undone hopen h2 hr

end VmState

end AcoOs
