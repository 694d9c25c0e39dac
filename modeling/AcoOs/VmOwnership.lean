/-
Who holds what while CPUs are inside calls.

`VmPc.Ok` says what a CPU relies on at each place: the address spaces it works on, the block it
holds and the area it has in hand.  A step of another CPU leaves all of that alone
(`VmPc.Ok.others`), because nobody else holds the block or the area and because of the locks; what a
step of the CPU itself does is `VmPc.Moves`.
-/
import AcoOs.VmSections

namespace AcoOs

open Memory Machine

variable {L : VmLayout} {A : VmEnv L}

namespace VmPc

/-- The area that this CPU puts on a list or takes off one. -/
def hand : VmPc → Option ℕ
  | hanging _ _ a _ | hung _ _ a _ | entered _ _ a _ _ | discarding _ _ a _ | unhung _ _ a
  | freeing _ _ a _ | clearing _ _ a | cleared _ _ a => some a
  | _ => none

/-- The area that is on a list and not complete yet. -/
def hangs : VmPc → Option (ℕ × ℕ)
  | hung _ v a _ | entered _ v a _ _ => some (v, a)
  | _ => none

/-- The block that this CPU holds. -/
def holds : VmPc → Option ℕ
  | freeing _ _ _ p => some p
  | pc => pc.gains

theorem holds_of_gains {pc : VmPc} {p : ℕ} (h : pc.gains = some p) : pc.holds = some p := by
  cases pc <;> first | exact h | cases h

end VmPc

namespace VmState

variable {x x' : VmState A} {u v a p : ℕ} {O W H P : Set ℕ} {caller : VmCaller} {area : VmaArea}
  {own : Option ℕ} {whole : Bool}

/-! ### What a CPU relies on -/

/-- An address space that is no other CPU's business. -/
structure Sole (x : VmState A) (v : ℕ) : Prop where
  tabled : v ∈ x.tabled
  ne : v ≠ x.kernVma

/-- An address space without a page table yet. -/
structure Blank (x : VmState A) (v : ℕ) : Prop where
  live : v ∈ x.live .vma
  zero : x.vmas v = .zero
  ne : v ≠ x.kernVma

/-- `v` becomes a copy of `u`. -/
structure Filling (x : VmState A) (u v : ℕ) : Prop where
  tabled : u ∈ x.tabled
  sole : x.Sole v
  ne : u ≠ v

/-- The address spaces of a call that maps, and what `vma_dup` has still to copy. -/
structure Target (x : VmState A) (caller : VmCaller) (v : ℕ) : Prop where
  tabled : v ∈ x.tabled
  source : ∀ u, caller.source = some u → x.Filling u v
  rest : ∀ u rest, caller = .dup u rest → ∀ b ∈ rest, b ∈ x.list u

/-- The block that a call brings along. -/
def Brings (x : VmState A) (own : Option ℕ) : Prop := ∀ p, own = some p → x.Fresh p

/-- The area is a copy of one that refers to block `p`. -/
def Shared (x : VmState A) (caller : VmCaller) (area : VmaArea) (p : ℕ) : Prop :=
  ∃ u, caller.source = some u ∧ ∃ b ∈ x.list u, x.RefersTo b p ∧ (x.areas b).prot = area.prot

/-- The area that is added: its pages are those of the block that the call brings along, or of one
that another area refers to. -/
structure Adds (x : VmState A) (caller : VmCaller) (own : Option ℕ) (area : VmaArea) : Prop where
  pgfm : area.pgfm = none
  pa_lt : area.pa < 2 ^ 64
  memory : area.vmarTyp = .memory → ∃ p < L.pageNums, area.pa = L.pg2pa p ∧
    (own = some p ∨ own = none ∧ x.Shared caller area p)

/-- An area that hangs nowhere and refers to no block. -/
structure Bare (x : VmState A) (a : ℕ) : Prop where
  apart : x.Apart a
  unused : ∀ p, ¬ x.RefersTo a p

/-- The address space an area is removed from. -/
structure Works (x : VmState A) (whole : Bool) (v : ℕ) : Prop where
  tabled : v ∈ x.tabled
  ne : whole = true → v ≠ x.kernVma

/-- An area that is removed leaves the pinned entries alone, and its pages stay with their block. -/
structure Leaving (x : VmState A) (v a : ℕ) : Prop where
  outside : ∀ w, (x.areas a).Covers w → ¬ x.pin v w
  guarded : x.Guarded a

end VmState

open VmState

namespace VmPc

/-- What a CPU relies on. -/
def Ok (x : VmState A) : VmPc → Prop
  | idle => True
  | made u v => u ∈ x.tabled ∧ x.Blank v
  | unmade v => x.Blank v
  | opened u v => x.Filling u v
  | copying u v rest => x.Filling u v ∧ ∀ b ∈ rest, b ∈ x.list u
  | taken c v area p _ => x.Target c v ∧ x.Loose p ∧ x.Adds c (some p) area
  | adding c v area own => x.Target c v ∧ x.Brings own ∧ x.Adds c own area
  | hanging c v a own => x.Target c v ∧ x.Brings own ∧ x.Adds c own (x.areas a) ∧ x.Apart a
  | hung c v a own => x.Target c v ∧ x.Brings own ∧ x.Adds c own (x.areas a) ∧ a ∈ x.list v
  | entered c v a own ret => x.Target c v ∧ x.Brings own ∧ x.Adds c own (x.areas a) ∧
      a ∈ x.list v ∧ (ret = 0 → ∀ w, (x.areas a).Covers w → ¬ x.pin v w)
  | discarding c v a own => x.Target c v ∧ x.Brings own ∧ x.Bare a
  | failed c v own => x.Target c v ∧ x.Brings own
  | returned c v p => x.Target c v ∧ x.Loose p
  | emptying v => x.Sole v
  | unhung whole v a => x.Works whole v ∧ x.Apart a ∧ x.Leaving v a ∧
      (x.areas a).vmarTyp = .memory
  | freeing whole v a p => x.Works whole v ∧ x.Bare a ∧ x.Leaving v a ∧ x.Loose p
  | clearing whole v a => x.Works whole v ∧ x.Bare a ∧ x.Leaving v a
  | cleared whole v a => x.Works whole v ∧ x.Bare a
  | closing v => x.Sole v

end VmPc

namespace VmState

variable {x x' : VmState A} {u v a p : ℕ} {O W H P : Set ℕ} {caller : VmCaller} {area : VmaArea}
  {own : Option ℕ} {whole : Bool}

/-! ### What the others leave alone -/

namespace Changes

theorem sole (h : x.Changes x' O W H P) (hv : x.Sole v) (hn : v ∉ O) : x'.Sole v :=
  ⟨h.tabled hv.tabled hn, by rw [h.kernVma]; exact hv.ne⟩

theorem filling (h : x.Changes x' O W H P) (hc : x.Filling u v) (hu : u ∉ O) (hv : v ∉ O) :
    x'.Filling u v := ⟨h.tabled hc.tabled hu, h.sole hc.sole hv, hc.ne⟩

theorem blank (h : x.Changes x' O W H P) (hv : x.Blank v) (hn : v ∉ O) (hw : v ∉ W) :
    x'.Blank v :=
  ⟨(h.live v hv.live hn).1, by rw [h.vmas v hv.live hw]; exact hv.zero,
    by rw [h.kernVma]; exact hv.ne⟩

theorem target (h : x.Changes x' O W H P) (hv : x.Target caller v)
    (hn : ∀ w ∈ v :: caller.source.toList, w ∉ O) (hr : ∀ u, caller.source = some u → u ∉ W) :
    x'.Target caller v := by
  refine ⟨h.tabled hv.tabled (hn v List.mem_cons_self), fun u hu => ?_, fun u rest hc => ?_⟩
  · refine h.filling (hv.source u hu) (hn u (List.mem_cons_of_mem v ?_)) (hn v List.mem_cons_self)
    rw [hu]
    exact List.mem_singleton_self u
  · have hu : caller.source = some u := by
      rw [hc]
      rfl
    rw [h.list (hv.source u hu).tabled (hr u hu)]
    exact hv.rest u rest hc

/-- No address space changes. -/
theorem target_empty (h : x.Changes x' ∅ ∅ H P) (hv : x.Target caller v) : x'.Target caller v :=
  h.target hv (fun w _ => Set.notMem_empty w) fun w _ => Set.notMem_empty w

theorem brings (h : x.Changes x' O W H P) (hb : x.Brings own) (hn : ∀ p, own = some p → p ∉ P) :
    x'.Brings own := fun p hp => h.fresh p (hb p hp) (hn p hp)

theorem works (h : x.Changes x' O W H P) (hv : x.Works whole v) (hn : v ∉ O) :
    x'.Works whole v :=
  ⟨h.tabled hv.tabled hn, by rw [h.kernVma]; exact hv.ne⟩

theorem bare (h : x.Changes x' O W H P) (ha : x.Bare a) (hn : a ∉ H) : x'.Bare a :=
  ⟨h.apart ha.apart hn, fun p hr => ha.unused p ((h.refersTo ha.apart.1 hn).1 hr)⟩

theorem leaving (h : x.Changes x' O W H P) (hl : x.Leaving v a) (ha : a ∈ x.live .vmaArea)
    (hn : a ∉ H) : x'.Leaving v a := by
  refine ⟨?_, h.guarded a ha hn hl.guarded⟩
  rw [(h.areas a ha hn).2, h.pin]
  exact hl.outside

/-- The area that is copied stays on the list that is being read. -/
theorem adds (h : x.Changes x' O W H P) (hb : x.Books) (ht : x.Target caller v)
    (ha : x.Adds caller own area)
    (hn : ∀ u, caller.source = some u → u ∉ W ∧ ∀ b ∈ x.list u, b ∉ H) :
    x'.Adds caller own area := by
  refine ⟨ha.pgfm, ha.pa_lt, fun hm => ?_⟩
  obtain ⟨p, hp, hpa, hor⟩ := ha.memory hm
  refine ⟨p, hp, hpa, hor.imp_right fun ⟨hown, u, hu, b, hbl, hr, hprot⟩ => ?_⟩
  have hut := (ht.source u hu).tabled
  obtain ⟨hw, hh⟩ := hn u hu
  have hlive := hb.mem_live u hut b hbl
  refine ⟨hown, u, hu, b, ?_, (h.refersTo hlive (hh b hbl)).2 hr, ?_⟩
  · rw [h.list hut hw]
    exact hbl
  · rw [(h.areas b hlive (hh b hbl)).2]
    exact hprot

end Changes

end VmState

namespace VmPc

variable {x x' : VmState A} {pc pc' : VmPc} {O W H P : Set ℕ} {v a p : ℕ}

/-- A change that does not concern a CPU. -/
structure Spared (x : VmState A) (pc : VmPc) (O W H P : Set ℕ) : Prop where
  spaces : ∀ v ∈ pc.spaces, v ∉ O
  reads : ∀ v, pc.reads = some v → v ∉ W ∧ ∀ b ∈ x.list v, b ∉ H
  writes : ∀ v, pc.writes = some v → v ∉ W
  owns : ∀ v, pc.owns = some v → v ∉ W
  hand : ∀ a, pc.hand = some a → a ∉ H
  holds : ∀ p, pc.holds = some p → p ∉ P

/-- A CPU can go on relying on what others leave alone. -/
theorem Ok.others (h : pc.Ok x) (hb : x.Books) (hc : x.Changes x' O W H P)
    (hs : pc.Spared x O W H P) : pc.Ok x' := by
  obtain ⟨hspaces, hreads, hwrites, howns, hhand, hholds⟩ := hs
  cases pc with
  | idle => trivial
  | made u v =>
    obtain ⟨h1, h2⟩ := h
    exact ⟨hc.tabled h1 (hspaces u List.mem_cons_self), hc.blank h2
      (hspaces v (List.mem_cons_of_mem u List.mem_cons_self)) (howns v rfl)⟩
  | unmade v => exact hc.blank h (hspaces v List.mem_cons_self) (howns v rfl)
  | opened u v =>
    exact hc.filling h (hspaces u List.mem_cons_self)
      (hspaces v (List.mem_cons_of_mem u List.mem_cons_self))
  | copying u v rest =>
    obtain ⟨h1, h2⟩ := h
    refine ⟨hc.filling h1 (hspaces u List.mem_cons_self)
      (hspaces v (List.mem_cons_of_mem u List.mem_cons_self)), ?_⟩
    rw [hc.list h1.tabled (hreads u rfl).1]
    exact h2
  | taken c v area p order =>
    obtain ⟨h1, h2, h3⟩ := h
    exact ⟨hc.target h1 hspaces fun u hu => (hreads u hu).1, hc.loose p h2 (hholds p rfl),
      hc.adds hb h1 h3 hreads⟩
  | adding c v area own =>
    obtain ⟨h1, h2, h3⟩ := h
    exact ⟨hc.target h1 hspaces fun u hu => (hreads u hu).1, hc.brings h2 hholds,
      hc.adds hb h1 h3 hreads⟩
  | hanging c v a own =>
    obtain ⟨h1, h2, h3, h4⟩ := h
    refine ⟨hc.target h1 hspaces fun u hu => (hreads u hu).1, hc.brings h2 hholds, ?_,
      hc.apart h4 (hhand a rfl)⟩
    rw [(hc.areas a h4.1 (hhand a rfl)).2]
    exact hc.adds hb h1 h3 hreads
  | hung c v a own =>
    obtain ⟨h1, h2, h3, h4⟩ := h
    have hlive := hb.mem_live v h1.tabled a h4
    refine ⟨hc.target h1 hspaces fun u hu => (hreads u hu).1, hc.brings h2 hholds, ?_, ?_⟩
    · rw [(hc.areas a hlive (hhand a rfl)).2]
      exact hc.adds hb h1 h3 hreads
    · rw [hc.list h1.tabled (hwrites v rfl)]
      exact h4
  | entered c v a own ret =>
    obtain ⟨h1, h2, h3, h4, h5⟩ := h
    have hlive := hb.mem_live v h1.tabled a h4
    refine ⟨hc.target h1 hspaces fun u hu => (hreads u hu).1, hc.brings h2 hholds, ?_, ?_, ?_⟩
    · rw [(hc.areas a hlive (hhand a rfl)).2]
      exact hc.adds hb h1 h3 hreads
    · rw [hc.list h1.tabled (hwrites v rfl)]
      exact h4
    · rw [(hc.areas a hlive (hhand a rfl)).2, hc.pin]
      exact h5
  | discarding c v a own =>
    obtain ⟨h1, h2, h3⟩ := h
    exact ⟨hc.target h1 hspaces fun u hu => (hreads u hu).1, hc.brings h2 hholds,
      hc.bare h3 (hhand a rfl)⟩
  | failed c v own =>
    obtain ⟨h1, h2⟩ := h
    exact ⟨hc.target h1 hspaces fun u hu => (hreads u hu).1, hc.brings h2 hholds⟩
  | returned c v p =>
    obtain ⟨h1, h2⟩ := h
    exact ⟨hc.target h1 hspaces fun u hu => (hreads u hu).1, hc.loose p h2 (hholds p rfl)⟩
  | emptying v => exact hc.sole h (hspaces v List.mem_cons_self)
  | unhung whole v a =>
    obtain ⟨h1, h2, h3, h4⟩ := h
    refine ⟨hc.works h1 (hspaces v List.mem_cons_self), hc.apart h2 (hhand a rfl),
      hc.leaving h3 h2.1 (hhand a rfl), ?_⟩
    rw [(hc.areas a h2.1 (hhand a rfl)).2]
    exact h4
  | freeing whole v a p =>
    obtain ⟨h1, h2, h3, h4⟩ := h
    exact ⟨hc.works h1 (hspaces v List.mem_cons_self), hc.bare h2 (hhand a rfl),
      hc.leaving h3 h2.apart.1 (hhand a rfl), hc.loose p h4 (hholds p rfl)⟩
  | clearing whole v a =>
    obtain ⟨h1, h2, h3⟩ := h
    exact ⟨hc.works h1 (hspaces v List.mem_cons_self), hc.bare h2 (hhand a rfl),
      hc.leaving h3 h2.apart.1 (hhand a rfl)⟩
  | cleared whole v a =>
    obtain ⟨h1, h2⟩ := h
    exact ⟨hc.works h1 (hspaces v List.mem_cons_self), hc.bare h2 (hhand a rfl)⟩
  | closing v => exact hc.sole h (hspaces v List.mem_cons_self)

/-- The area in hand hangs nowhere, or on a list that nobody else may touch. -/
theorem Ok.hand (h : pc.Ok x) (hb : x.Books) (ha : pc.hand = some a) : a ∈ x.live .vmaArea ∧
    (x.Apart a ∨ ∃ v ∈ x.tabled, pc.writes = some v ∧ a ∈ x.list v) := by
  cases pc with
  | hanging c v b own =>
    cases ha
    exact ⟨h.2.2.2.1, .inl h.2.2.2⟩
  | hung c v b own =>
    cases ha
    exact ⟨hb.mem_live v h.1.tabled a h.2.2.2, .inr ⟨v, h.1.tabled, rfl, h.2.2.2⟩⟩
  | entered c v b own ret =>
    cases ha
    exact ⟨hb.mem_live v h.1.tabled a h.2.2.2.1, .inr ⟨v, h.1.tabled, rfl, h.2.2.2.1⟩⟩
  | discarding c v b own =>
    cases ha
    exact ⟨h.2.2.apart.1, .inl h.2.2.apart⟩
  | unhung whole v b =>
    cases ha
    exact ⟨h.2.1.1, .inl h.2.1⟩
  | freeing whole v b p =>
    cases ha
    exact ⟨h.2.1.apart.1, .inl h.2.1.apart⟩
  | clearing whole v b =>
    cases ha
    exact ⟨h.2.1.apart.1, .inl h.2.1.apart⟩
  | cleared whole v b =>
    cases ha
    exact ⟨h.2.apart.1, .inl h.2.apart⟩
  | _ => cases ha

/-- No area refers to the block that a CPU holds. -/
theorem Ok.holds (h : pc.Ok x) (hp : pc.holds = some p) : x.Loose p ∨ x.Fresh p := by
  cases pc with
  | taken c v area q order =>
    cases hp
    exact .inl h.2.1
  | returned c v q =>
    cases hp
    exact .inl h.2
  | freeing whole v a q =>
    cases hp
    exact .inl h.2.2.2
  | adding c v area own => exact .inr (h.2.1 p hp)
  | hanging c v a own => exact .inr (h.2.1 p hp)
  | hung c v a own => exact .inr (h.2.1 p hp)
  | entered c v a own ret => exact .inr (h.2.1 p hp)
  | discarding c v a own => exact .inr (h.2.1 p hp)
  | failed c v own => exact .inr (h.2 p hp)
  | _ => cases hp

theorem hangs_writes (h : pc.hangs = some (v, a)) : pc.writes = some v ∧ pc.hand = some a := by
  cases pc with
  | hung c w b own =>
    cases h
    exact ⟨rfl, rfl⟩
  | entered c w b own ret =>
    cases h
    exact ⟨rfl, rfl⟩
  | _ => cases h

theorem mem_spaces_of_reads (h : pc.reads = some v) : v ∈ pc.spaces := by
  cases pc with
  | copying u w rest =>
    cases h
    exact List.mem_cons_self
  | taken c w _ _ _ | adding c w _ _ | hanging c w _ _ | hung c w _ _ | entered c w _ _ _
  | discarding c w _ _ | failed c w _ | returned c w _ =>
    change c.source = some v at h
    refine List.mem_cons_of_mem w ?_
    rw [h]
    exact List.mem_singleton_self v
  | _ => cases h

theorem mem_spaces_of_writes (h : pc.writes = some v) : v ∈ pc.spaces := by
  cases pc with
  | hung | entered | discarding | emptying | unhung | freeing | clearing | cleared =>
    cases h
    exact List.mem_cons_self
  | _ => cases h

theorem mem_spaces_of_owns (h : pc.owns = some v) : v ∈ pc.spaces := by
  cases pc with
  | idle => cases h
  | made u w | opened u w | copying u w _ =>
    cases h
    exact List.mem_cons_of_mem u List.mem_cons_self
  | unmade | emptying | closing =>
    cases h
    exact List.mem_cons_self
  | unhung whole w _ | freeing whole w _ _ | clearing whole w _ | cleared whole w _ =>
    cases whole with
    | false => cases h
    | true =>
      cases h
      exact List.mem_cons_self
  | taken c w _ _ _ | adding c w _ _ | hanging c w _ _ | hung c w _ _ | entered c w _ _ _
  | discarding c w _ _ | failed c w _ | returned c w _ =>
    cases c with
    | mmap => cases h
    | dup =>
      cases h
      exact List.mem_cons_self

end VmPc

end AcoOs
