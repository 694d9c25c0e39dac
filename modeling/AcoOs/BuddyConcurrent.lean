/-
The buddy allocator called by any number of CPUs at once.

A CPU is a program counter inside `bkp_alloc` or `bkp_free` together with the local
variables; each lock-protected critical section is one step (`Pc.advance`), and the
steps of the CPUs interleave in any order.  `concRuns c R ι` starts in the state boot
leaves and lets every CPU of `ι` make calls, and free the blocks it holds.

`ConcInv` is the ownership invariant: the heads that are not in a pool are divided
among the CPUs, some of them in transit, and so are the pages of a block that is
being split.  `advance_spec` is what one section does to it.
-/
import AcoOs.BuddyRun

namespace AcoOs

open Tiling Buddy Machine

variable {c : Layout}

/-! ### The machine -/

/-- The local variables of the loop of `bkp_alloc` that gives the remainder back: `i + 1`
for the next `i` of the loop, and where the remainder is. -/
structure Rest where
  pagePtr : ℕ
  i : ℕ
  restPgst : ℕ
  restPgnum : ℕ
  deriving DecidableEq

/-- Where a CPU is.  Inside `bkp_free` it remembers the call of `bkp_alloc` that made the
call, if there is one. -/
inductive Pc
  | idle
  | panic
  | allocScan (orderOrig order : ℕ)
  | allocSplit (r : Rest)
  | allocDone (ret : Option ℕ)
  | freeEntry (pgfm : ℕ) (k : Option Rest)
  | freeLoop (pgfm order : ℕ) (k : Option Rest)
  | freeInsert (pgfm order : ℕ) (k : Option Rest)
  | freeDone
  deriving DecidableEq

namespace Pc

/-- The CPU is inside a call and has a section to execute. -/
def Running : Pc → Prop
  | .idle | .panic | .allocDone _ | .freeDone => False
  | _ => True

instance : DecidablePred Running := fun pc => by
  cases pc <;> unfold Running <;> infer_instance

/-- Where `bkp_free` returns to. -/
def ret : Option Rest → Pc
  | none => .freeDone
  | some r => .allocSplit r

/-- Execute one critical section, or the local computation up to the next one; a failing
`ASSERT` is a panic. -/
def advance (c : Layout) (s : Buddy) : Pc → Buddy × Pc
  | .allocScan orderOrig order =>
    if order < c.maxOrder then
      match bkpAllocTake s order orderOrig with
      | none => (s, .panic)
      | some (none, s) => (s, .allocScan orderOrig (order + 1))
      | some (some pagePtr, s) =>
        (s, .allocSplit ⟨pagePtr, c.maxOrder, pagePtr + Layout.order2pgnum orderOrig,
          Layout.order2pgnum order - Layout.order2pgnum orderOrig⟩)
    else (s, .allocDone none)
  | .allocSplit ⟨pagePtr, 0, _, _⟩ => (s, .allocDone (some pagePtr))
  | .allocSplit ⟨pagePtr, i + 1, restPgst, restPgnum⟩ =>
    if restPgnum = 0 then (s, .allocDone (some pagePtr))
    else if restPgnum &&& (1 <<< i) ≠ 0 then
      match bkpAllocCarve c s restPgst i with
      | none => (s, .panic)
      | some s => (s, .freeEntry restPgst
          (some ⟨pagePtr, i, restPgst + 1 <<< i, restPgnum - 1 <<< i⟩))
    else (s, .allocSplit ⟨pagePtr, i, restPgst, restPgnum⟩)
  | .freeEntry pgfm k =>
    match bkpFreeEntry c s pgfm with
    | none => (s, .panic)
    | some order => (s, .freeLoop pgfm order k)
  | .freeLoop pgfm order k =>
    if order < c.maxOrder - 1 then
      match bkpFreeMerge c s pgfm order with
      | none => (s, .panic)
      | some (none, s) => (s, .freeInsert pgfm order k)
      | some (some q, s) => (s, .freeLoop q (order + 1) k)
    else (s, .freeInsert pgfm order k)
  | .freeInsert pgfm order k =>
    match bkpFreeInsert s pgfm order with
    | none => (s, .panic)
    | some s => (s, ret k)
  | pc => (s, pc)

end Pc

/-- A call of the allocator. -/
inductive Op
  | alloc (order : ℤ)
  | free (pgfm : ℕ)
  deriving DecidableEq

/-- What a call returns: a block or `NULL`, or nothing. -/
inductive Ret
  | block (pgfm : Option ℕ)
  | unit
  deriving DecidableEq

/-- The allocator, what each CPU holds, and where it is. -/
structure Conc (ι : Type*) where
  buddy : Buddy
  held : ι → Finset ℕ
  pc : ι → Pc

namespace Conc

variable {ι : Type*} [DecidableEq ι]

/-- CPU `i` is at `pc`. -/
def setPc (x : Conc ι) (i : ι) (pc : Pc) : Conc ι := { x with pc := Function.update x.pc i pc }

/-- CPU `i` holds the blocks `F`. -/
def setHeld (x : Conc ι) (i : ι) (F : Finset ℕ) : Conc ι :=
  { x with held := Function.update x.held i F }

/-- The allocator is `s`. -/
def setBuddy (x : Conc ι) (s : Buddy) : Conc ι := { x with buddy := s }

/-- The step of CPU `i` with a given label, when it can take it. -/
def exec (c : Layout) (x : Conc ι) (i : ι) : Act Op Ret → Option (Conc ι)
  | .invoke (.alloc order) =>
    if x.pc i = .idle then
      some (x.setPc i (if 0 ≤ order ∧ order < c.maxOrder then
        .allocScan order.toNat order.toNat else .allocDone none))
    else none
  | .invoke (.free pgfm) =>
    if x.pc i = .idle ∧ pgfm ∈ x.held i then
      some ((x.setHeld i ((x.held i).erase pgfm)).setPc i (.freeEntry pgfm none))
    else none
  | .internal =>
    if (x.pc i).Running then
      some ((x.setBuddy ((x.pc i).advance c x.buddy).1).setPc i ((x.pc i).advance c x.buddy).2)
    else none
  | .respond (.block none) =>
    if x.pc i = .allocDone none then some (x.setPc i .idle) else none
  | .respond (.block (some p)) =>
    if x.pc i = .allocDone (some p) then
      some ((x.setHeld i (insert p (x.held i))).setPc i .idle)
    else none
  | .respond .unit => if x.pc i = .freeDone then some (x.setPc i .idle) else none

end Conc

/-- The interleavings of the calls of the CPUs `ι`, after `buddy_module_init`. -/
def concRuns (c : Layout) (R : FreeRange c) (ι : Type*) [DecidableEq ι] :
    System (Conc ι) (ι × Act Op Ret) where
  init x := buddyModuleInit c R.pages = some x.buddy ∧ (∀ i, x.held i = ∅) ∧
    ∀ i, x.pc i = .idle
  step x a y := x.exec c a.1 a.2 = some y

/-! ### Running a schedule -/

section Schedule

variable {ι : Type*} [DecidableEq ι]

/-- Boot, then take the steps of a schedule in order. -/
def bootAndSchedule (c : Layout) (R : FreeRange c) (as : List (ι × Act Op Ret)) :
    Option (Conc ι) :=
  match buddyModuleInit c R.pages with
  | some s => System.execAll (fun x a => Conc.exec c x a.1 a.2) as
    ⟨s, fun _ => ∅, fun _ => .idle⟩
  | none => none

theorem run_bootAndSchedule {R : FreeRange c} {as : List (ι × Act Op Ret)} {y : Conc ι}
    (h : bootAndSchedule c R as = some y) :
    ∃ x, (concRuns c R ι).init x ∧ (concRuns c R ι).Run x as y := by
  unfold bootAndSchedule at h
  split at h
  · exact ⟨_, ⟨‹_›, fun _ => rfl, fun _ => rfl⟩, .of_execAll (fun _ _ _ => id) h⟩
  · cases h

end Schedule

/-! ### What a CPU owns -/

/-- The pages of a block being split that are not in a block yet. -/
def Rest.raw (r : Rest) : Set ℕ := Set.Ico r.restPgst (r.restPgst + r.restPgnum)

namespace Pc

/-- The block in transit through `bkp_free`. -/
def moving : Pc → List ℕ
  | .freeEntry p _ | .freeLoop p _ _ | .freeInsert p _ _ => [p]
  | _ => []

/-- The block that `bkp_alloc` is about to return. -/
def result : Pc → List ℕ
  | .allocSplit r | .freeEntry _ (some r) | .freeLoop _ _ (some r) | .freeInsert _ _ (some r) =>
    [r.pagePtr]
  | .allocDone (some p) => [p]
  | _ => []

/-- The blocks a CPU owns inside a call. -/
def heads (pc : Pc) : List ℕ := pc.moving ++ pc.result

/-- The split loop a CPU is in, or will return to. -/
def rest : Pc → Option Rest
  | .allocSplit r => some r
  | .freeEntry _ k | .freeLoop _ _ k | .freeInsert _ _ k => k
  | _ => none

/-- The pages a CPU owns that are in no block. -/
def raw (pc : Pc) : Set ℕ := {q | ∃ r ∈ pc.rest, q ∈ r.raw}

/-- What is true of the local variables. -/
def Ok (c : Layout) (s : Buddy) : Pc → Prop
  | .panic => False
  | .allocScan orderOrig order => orderOrig ≤ order ∧ order ≤ c.maxOrder
  | .allocSplit r => r.i ≤ c.maxOrder ∧ r.restPgnum < 2 ^ r.i
  | .freeEntry _ k => ∀ r ∈ k, r.i ≤ c.maxOrder ∧ r.restPgnum < 2 ^ r.i
  | .freeLoop p order k | .freeInsert p order k =>
    s.order p = order ∧ ∀ r ∈ k, r.i ≤ c.maxOrder ∧ r.restPgnum < 2 ^ r.i
  | _ => True

@[simp] theorem rest_ret (k : Option Rest) : (ret k).rest = k := by
  cases k <;> rfl

end Pc

/-- A block held by its owner, to be returned or freed. -/
def Buddy.Owned (c : Layout) (s : Buddy) (p : ℕ) : Prop :=
  p < c.pageNums ∧ s.HeldHead p ∧ (s.pages p).pgtype = .buddyAllocator

/-- The effect of one section of a CPU at `pc` that shares the allocator with CPUs whose
split blocks are `W`. -/
structure Advanced (c : Layout) (W : Set ℕ) (s : Buddy) (pc : Pc) (s' : Buddy) (pc' : Pc) :
    Prop where
  inv' : Inv c s' (W ∪ pc'.raw)
  disjoint' : Disjoint W pc'.raw
  ok' : pc'.Ok c s'
  owned' : ∀ p ∈ pc'.heads, s'.Owned c p
  nodup' : pc'.heads.Nodup
  same : ∀ q < c.pageNums, q ∉ pc.raw → ¬ s.FreeHead q → q ∉ pc.moving → s'.pages q = s.pages q
  held_iff : ∀ p < c.pageNums, s'.HeldHead p ↔ s.HeldHead p ∧ p ∉ pc.heads ∨ p ∈ pc'.heads
  fresh : ∀ p ∈ pc'.heads, p ∈ pc.heads ∨ ¬ s.HeldHead p
  static_iff : ∀ p, s'.Static p ↔ s.Static p

theorem Pc.raw_some {pc : Pc} {r : Rest} (h : pc.rest = some r) : pc.raw = r.raw := by
  unfold Pc.raw
  rw [h]
  ext q
  simp

theorem Pc.raw_none {pc : Pc} (h : pc.rest = none) : pc.raw = ∅ := by
  unfold Pc.raw
  rw [h]
  ext q
  simp

theorem Pc.raw_congr {pc pc' : Pc} (h : pc'.rest = pc.rest) : pc'.raw = pc.raw := by
  unfold Pc.raw
  rw [h]

theorem Pc.raw_allocSplit (r : Rest) : (Pc.allocSplit r).raw = r.raw := Pc.raw_some rfl

namespace Advanced

variable {W : Set ℕ} {s : Buddy} {pc pc' : Pc}

/-- Nothing but the program counter changes. -/
theorem stay (h : Inv c s (W ∪ pc.raw)) (hd : Disjoint W pc.raw)
    (ho : ∀ p ∈ pc.heads, s.Owned c p) (hn : pc.heads.Nodup) (hraw : pc'.raw = pc.raw)
    (hheads : pc'.heads = pc.heads) (hok : pc'.Ok c s) : Advanced c W s pc s pc' where
  inv' := hraw ▸ h
  disjoint' := hraw ▸ hd
  ok' := hok
  owned' := hheads ▸ ho
  nodup' := hheads ▸ hn
  same _ _ _ _ _ := rfl
  held_iff p _ := by
    rw [hheads]
    have := fun hp => (ho p hp).2.1
    tauto
  fresh p hp := .inl (hheads ▸ hp)
  static_iff _ := Iff.rfl

end Advanced

/-- The take section: the first block of the pool becomes the result of the call. -/
theorem advanced_take {W : Set ℕ} {s s' : Buddy} {oo o p : ℕ} (h : Inv c s W)
    (hoo : oo ≤ o) (ho : o < c.maxOrder) (t : Took c s s' o oo p)
    (h' : Inv c s' (W ∪ Set.Ico (p + 2 ^ oo) (p + 2 ^ o))) :
    Advanced c W s (.allocScan oo o) s' (.allocSplit ⟨p, c.maxOrder,
      p + Layout.order2pgnum oo, Layout.order2pgnum o - Layout.order2pgnum oo⟩) := by
  have hpow : 2 ^ oo ≤ 2 ^ o := Nat.pow_le_pow_right (by norm_num) hoo
  have hpos := Nat.two_pow_pos oo
  have hlt : 2 ^ o < 2 ^ c.maxOrder := Nat.pow_lt_pow_right (by norm_num) ho
  have hraw : (Pc.allocSplit ⟨p, c.maxOrder, p + Layout.order2pgnum oo,
      Layout.order2pgnum o - Layout.order2pgnum oo⟩).raw =
        Set.Ico (p + 2 ^ oo) (p + 2 ^ o) := by
    rw [Pc.raw_some rfl]
    change Set.Ico (p + 2 ^ oo) (p + 2 ^ oo + (2 ^ o - 2 ^ oo)) = _
    rw [show p + 2 ^ oo + (2 ^ o - 2 ^ oo) = p + 2 ^ o by omega]
  have hheld : ∀ r, r ≠ p → (s'.HeldHead r ↔ s.HeldHead r) := by
    intro r hr
    unfold HeldHead
    rw [t.other r hr]
  refine ⟨hraw ▸ h', ?_, ⟨le_rfl, ?_⟩, fun r hr => ?_, List.nodup_singleton _,
    fun q _ _ hf _ => t.other q fun e => hf (e ▸ t.free), fun r _ => ?_, fun r hr => ?_,
    t.static_iff⟩
  · rw [hraw, Set.disjoint_right]
    intro q hq
    exact (h.body t.lt (.inr t.free) (by have := hq.1; omega)
      ⟨by have := hq.1; omega, by rw [t.order]; exact hq.2⟩).2.2
  · simp only [Layout.order2pgnum]
    omega
  · rw [List.mem_singleton.1 hr]
    exact ⟨t.lt, t.held', t.type'.trans (h.pgtype p t.lt t.free.not_held)⟩
  · by_cases hr : r = p
    · subst hr
      exact iff_of_true t.held' (.inr (List.mem_singleton_self r))
    · rw [hheld r hr]
      simp [Pc.heads, Pc.moving, Pc.result, hr]
  · rw [List.mem_singleton.1 hr]
    exact .inr t.free.not_held

/-- The carve section: the first piece of the remainder becomes a block in transit. -/
theorem advanced_carve {W : Set ℕ} {s s' : Buddy} {p i rest num : ℕ}
    (h : Inv c s (W ∪ Set.Ico rest (rest + num))) (hd : Disjoint W (Set.Ico rest (rest + num)))
    (hp : s.Owned c p) (hi : i < c.maxOrder) (hle : 2 ^ i ≤ num) (hlt : num < 2 ^ (i + 1))
    (k : Carved c s s' i rest)
    (h' : Inv c s' ((W ∪ Set.Ico rest (rest + num)) \ Set.Ico rest (rest + 2 ^ i))) :
    Advanced c W s (.allocSplit ⟨p, i + 1, rest, num⟩) s'
      (.freeEntry rest (some ⟨p, i, rest + 1 <<< i, num - 1 <<< i⟩)) := by
  have hpos := Nat.two_pow_pos i
  have hs : 2 ^ (i + 1) = 2 ^ i + 2 ^ i := by ring
  obtain ⟨hrn, hbody⟩ := h.raw_body rest (.inr ⟨le_rfl, by omega⟩)
  have hne : rest ≠ p := by
    rintro rfl
    exact Head.not_body (.inl hp.2.1) hbody
  have hnheld : ¬ s.HeldHead rest := fun e => Head.not_body (.inl e) hbody
  have hraw : (Pc.freeEntry rest (some ⟨p, i, rest + 1 <<< i, num - 1 <<< i⟩)).raw =
      Set.Ico (rest + 2 ^ i) (rest + num) := by
    rw [Pc.raw_some rfl, Nat.one_shiftLeft]
    change Set.Ico (rest + 2 ^ i) (rest + 2 ^ i + (num - 2 ^ i)) = _
    rw [show rest + 2 ^ i + (num - 2 ^ i) = rest + num by omega]
  have hold : (Pc.allocSplit ⟨p, i + 1, rest, num⟩).raw = Set.Ico rest (rest + num) :=
    Pc.raw_allocSplit _
  have hrest : (W ∪ Set.Ico rest (rest + num)) \ Set.Ico rest (rest + 2 ^ i) =
      W ∪ Set.Ico (rest + 2 ^ i) (rest + num) := by
    ext q
    have hdq : q ∈ W → q ∉ Set.Ico rest (rest + num) := fun hq => Set.disjoint_left.1 hd hq
    simp only [Set.mem_sdiff, Set.mem_union, Set.mem_Ico] at hdq ⊢
    constructor
    · rintro ⟨h1 | h1, h2⟩
      · exact .inl h1
      · exact .inr (by omega)
    · rintro (h1 | h1)
      · exact ⟨.inl h1, fun h2 => hdq h1 (by omega)⟩
      · exact ⟨.inr (by omega), by omega⟩
  have hsame : ∀ q, q ≠ rest → (s'.HeldHead q ↔ s.HeldHead q) := by
    intro q hq
    unfold HeldHead
    rw [k.other q hq]
  refine ⟨by rwa [hraw, ← hrest], ?_, fun r hr => ?_, fun q hq => ?_, ?_, fun q hq hqr _ _ => ?_,
    fun q hq => ?_, fun q hq => ?_, fun q => ?_⟩
  · rw [hraw]
    exact hd.mono_right (Set.Ico_subset_Ico_left (by omega))
  · cases hr
    refine ⟨hi.le, ?_⟩
    change num - 1 <<< i < 2 ^ i
    rw [Nat.one_shiftLeft]
    omega
  · simp only [Pc.heads, Pc.moving, Pc.result, List.cons_append, List.nil_append,
      List.mem_cons, List.not_mem_nil, or_false] at hq
    rcases hq with rfl | rfl
    · exact ⟨hrn, k.held', k.type'.trans (h.pgtype q hrn hnheld)⟩
    · unfold Buddy.Owned HeldHead
      rw [k.other q hne.symm]
      exact hp
  · simp [Pc.heads, Pc.moving, Pc.result, hne]
  · refine k.other q ?_
    rintro rfl
    exact hqr (hold ▸ ⟨le_rfl, by omega⟩)
  · simp only [Pc.heads, Pc.moving, Pc.result, List.cons_append, List.nil_append,
      List.mem_cons, List.not_mem_nil, or_false]
    by_cases hqr : q = rest
    · subst hqr
      exact iff_of_true k.held' (.inr (.inl rfl))
    · rw [hsame q hqr]
      have : q = p → s.HeldHead q := fun e => e ▸ hp.2.1
      tauto
  · simp only [Pc.heads, Pc.moving, Pc.result, List.cons_append, List.nil_append,
      List.mem_cons, List.not_mem_nil, or_false] at hq ⊢
    rcases hq with rfl | rfl
    · exact .inr hnheld
    · exact .inl rfl
  · by_cases hqr : q = rest
    · subst hqr
      exact iff_of_false (Head.not_static (.inl k.held')) hbody.not_static
    · unfold Static
      rw [k.other q hqr]

/-- The merge section, when it merges: the block in transit grows. -/
theorem advanced_merge {W : Set ℕ} {s s' : Buddy} {p q o : ℕ} {k : Option Rest}
    (h : Inv c s (W ∪ (Pc.freeLoop p o k).raw)) (hd : Disjoint W (Pc.freeLoop p o k).raw)
    (hok : (Pc.freeLoop p o k).Ok c s) (hown : ∀ r ∈ (Pc.freeLoop p o k).heads, s.Owned c r)
    (hn : (Pc.freeLoop p o k).heads.Nodup) (m : Merged c s s' o p q) :
    Advanced c W s (.freeLoop p o k) s' (.freeLoop q (o + 1) k) := by
  have hp : s.Owned c p := hown p (by simp [Pc.heads, Pc.moving])
  obtain ⟨hmoved, hinv, hord⟩ := m.moved h hp.2.2
  have hraw : (Pc.freeLoop q (o + 1) k).raw = (Pc.freeLoop p o k).raw := Pc.raw_congr rfl
  have hres : (Pc.freeLoop q (o + 1) k).result = (Pc.freeLoop p o k).result := by
    cases k <;> rfl
  have hpres : p ∉ (Pc.freeLoop p o k).result := by
    unfold Pc.heads at hn
    exact fun e => (List.nodup_cons.1 hn).1 e
  -- the block the call returns later is neither the one in transit nor free
  have hkeep : ∀ r ∈ (Pc.freeLoop p o k).result, s'.pages r = s.pages r := by
    intro r hr
    have hro := hown r (List.mem_append_right _ hr)
    exact hmoved.other r (fun e => hpres (e ▸ hr)) fun e => e.not_held hro.2.1
  have hqres : q ∉ (Pc.freeLoop p o k).result := by
    intro hq
    rcases hmoved.origin with rfl | hf
    · exact hpres hq
    · exact hf.not_held (hown q (List.mem_append_right _ hq)).2.1
  have hheads : ∀ r, r ∈ (Pc.freeLoop p o k).heads ↔
      r = p ∨ r ∈ (Pc.freeLoop p o k).result := by
    intro r
    simp [Pc.heads, Pc.moving]
  have hheads' : ∀ r, r ∈ (Pc.freeLoop q (o + 1) k).heads ↔
      r = q ∨ r ∈ (Pc.freeLoop p o k).result := by
    intro r
    rw [← hres]
    simp [Pc.heads, Pc.moving]
  refine ⟨hraw ▸ hinv, hraw ▸ hd, ⟨hord, hok.2⟩, fun r hr => ?_, ?_, fun r _ _ hf hr => ?_,
    fun r hr => ?_, fun r hr => ?_, hmoved.static_iff⟩
  · rcases (hheads' r).1 hr with rfl | hr
    · exact ⟨hmoved.lt, hmoved.held', hmoved.type'⟩
    · unfold Buddy.Owned HeldHead
      rw [hkeep r hr]
      exact hown r (List.mem_append_right _ hr)
  · unfold Pc.heads
    rw [hres]
    refine List.nodup_cons.2 ⟨hqres, ?_⟩
    unfold Pc.heads at hn
    exact (List.nodup_cons.1 hn).2
  · exact hmoved.other r (fun e => hr (e ▸ List.mem_singleton_self p)) hf
  · rw [hheads', hheads]
    constructor
    · intro hr'
      rcases hmoved.held_sub r hr' with e | ⟨e1, e2⟩
      · exact .inr (.inl e)
      · by_cases e3 : r ∈ (Pc.freeLoop p o k).result
        · exact .inr (.inr e3)
        · exact .inl ⟨e1, by tauto⟩
    · rintro (⟨h1, h2⟩ | rfl | h1)
      · unfold HeldHead
        rwa [hmoved.other r (fun e => h2 (.inl e)) fun e => e.not_held h1]
      · exact hmoved.held'
      · unfold HeldHead
        rw [hkeep r h1]
        exact (hown r (List.mem_append_right _ h1)).2.1
  · rw [hheads]
    rcases (hheads' r).1 hr with rfl | hr
    · rcases hmoved.origin with e | e
      · exact .inl (.inl e)
      · exact .inr e.not_held
    · exact .inl (.inr hr)

/-- The insert section: the block in transit is free. -/
theorem advanced_insert {W : Set ℕ} {s s' : Buddy} {p o : ℕ} {k : Option Rest}
    (hd : Disjoint W (Pc.freeInsert p o k).raw)
    (hok : (Pc.freeInsert p o k).Ok c s) (hown : ∀ r ∈ (Pc.freeInsert p o k).heads, s.Owned c r)
    (hn : (Pc.freeInsert p o k).heads.Nodup) (m : Inserted s s' o p)
    (h' : Inv c s' (W ∪ (Pc.freeInsert p o k).raw)) :
    Advanced c W s (.freeInsert p o k) s' (.ret k) := by
  have hraw : (Pc.ret k).raw = (Pc.freeInsert p o k).raw := Pc.raw_congr (Pc.rest_ret k)
  have hres : (Pc.ret k).heads = (Pc.freeInsert p o k).result := by
    cases k <;> rfl
  have hpres : p ∉ (Pc.freeInsert p o k).result := by
    unfold Pc.heads at hn
    exact fun e => (List.nodup_cons.1 hn).1 e
  have hheads : ∀ r, r ∈ (Pc.freeInsert p o k).heads ↔
      r = p ∨ r ∈ (Pc.freeInsert p o k).result := by
    intro r
    simp [Pc.heads, Pc.moving]
  have hsame : ∀ r, r ≠ p → (s'.HeldHead r ↔ s.HeldHead r) := by
    intro r hr
    unfold HeldHead
    rw [m.other r hr]
  refine ⟨hraw ▸ h', hraw ▸ hd, ?_, fun r hr => ?_, ?_,
    fun r _ _ _ hr => m.other r fun e => hr (e ▸ List.mem_singleton_self p),
    fun r hr => ?_, fun r hr => ?_, fun r => ?_⟩
  · cases k with
    | none => trivial
    | some r => exact hok.2 r rfl
  · rw [hres] at hr
    unfold Buddy.Owned HeldHead
    rw [m.other r fun e => hpres (e ▸ hr)]
    exact hown r (List.mem_append_right _ hr)
  · rw [hres]
    unfold Pc.heads at hn
    exact (List.nodup_cons.1 hn).2
  · rw [hres, hheads]
    by_cases hrp : r = p
    · subst hrp
      refine iff_of_false m.free'.not_held ?_
      rintro (⟨-, h1⟩ | h1)
      · exact h1 (.inl rfl)
      · exact hpres h1
    · rw [hsame r hrp]
      have : r ∈ (Pc.freeInsert p o k).result → s.HeldHead r :=
        fun e => (hown r (List.mem_append_right _ e)).2.1
      tauto
  · rw [hres] at hr
    exact .inl ((hheads r).2 (.inr hr))
  · by_cases hrp : r = p
    · subst hrp
      exact iff_of_false (Head.not_static (.inr m.free')) (Head.not_static (.inl m.held))
    · unfold Static
      rw [m.other r hrp]

/-- What one section of one CPU does, whatever the others own. -/
theorem advance_spec {W : Set ℕ} {s : Buddy} {pc : Pc} (h : Inv c s (W ∪ pc.raw))
    (hd : Disjoint W pc.raw) (hok : pc.Ok c s) (hown : ∀ p ∈ pc.heads, s.Owned c p)
    (hn : pc.heads.Nodup) (hrun : pc.Running) :
    Advanced c W s pc (pc.advance c s).1 (pc.advance c s).2 := by
  cases pc with
  | idle | panic | allocDone | freeDone => exact absurd hrun id
  | allocScan oo o =>
    obtain ⟨h1, h2⟩ := hok
    rw [Pc.raw_none rfl, Set.union_empty] at h
    simp only [Pc.advance]
    split_ifs with hlt
    · rcases take_spec h hlt h1 with ⟨ht, -⟩ | ⟨p, s', ht, t, h'⟩
      · simp only [ht]
        refine .stay ?_ hd hown hn ?_ rfl ⟨by omega, hlt⟩
        · rwa [Pc.raw_none rfl, Set.union_empty]
        · rw [Pc.raw_none rfl, Pc.raw_none rfl]
      · simp only [ht]
        exact advanced_take h h1 hlt t h'
    · refine .stay ?_ hd hown hn ?_ rfl trivial
      · rwa [Pc.raw_none rfl, Set.union_empty]
      · rw [Pc.raw_none rfl, Pc.raw_none rfl]
  | allocSplit r =>
    obtain ⟨p, i, rest, num⟩ := r
    obtain ⟨h1, h2⟩ := hok
    dsimp only at h1 h2
    have hraw : (Pc.allocSplit ⟨p, i, rest, num⟩).raw = Set.Ico rest (rest + num) :=
      Pc.raw_allocSplit _
    have hdone : num = 0 → Advanced c W s (.allocSplit ⟨p, i, rest, num⟩) s
        (.allocDone (some p)) := by
      rintro rfl
      refine .stay h hd hown hn ?_ rfl trivial
      rw [hraw, Pc.raw_none rfl, add_zero, Set.Ico_self]
    cases i with
    | zero => exact hdone (by omega)
    | succ i =>
      simp only [Pc.advance]
      have him : i < c.maxOrder := h1
      split_ifs with h0 hbit
      · exact hdone h0
      · have hle := (and_shift_ne_zero h2).1 hbit
        rw [hraw] at h hd
        obtain ⟨s', hc, k, h'⟩ := carve_spec h him
          ((Set.Ico_subset_Ico_right (by omega)).trans Set.subset_union_right)
        simp only [hc]
        exact advanced_carve h hd (hown p (List.mem_singleton_self p)) him hle h2 k h'
      · have hlt : ¬ 2 ^ i ≤ num := fun e => hbit ((and_shift_ne_zero h2).2 e)
        refine .stay h hd hown hn ?_ rfl ⟨him.le, Nat.lt_of_not_le hlt⟩
        rw [Pc.raw_allocSplit, Pc.raw_allocSplit]
        rfl
  | freeEntry p k =>
    have hp : s.Owned c p := hown p (by simp [Pc.heads, Pc.moving])
    have hentry : bkpFreeEntry c s p = some (s.order p) :=
      if_pos ⟨hp.1, hp.2.2, hp.2.1, h.order_lt p hp.1 (.inl hp.2.1)⟩
    simp only [Pc.advance, hentry]
    refine .stay h hd hown hn (Pc.raw_congr rfl) ?_ ⟨rfl, hok⟩
    cases k <;> rfl
  | freeLoop p o k =>
    have hp : s.Owned c p := hown p (by simp [Pc.heads, Pc.moving])
    have hstay : Advanced c W s (.freeLoop p o k) s (.freeInsert p o k) := by
      refine .stay h hd hown hn (Pc.raw_congr rfl) ?_ hok
      cases k <;> rfl
    simp only [Pc.advance]
    split_ifs with hlt
    · rcases merge_spec h hp.1 hp.2.1 hp.2.2 hok.1 (by omega) with ⟨q, s', hm, m⟩ | ⟨hm, -⟩
      · simp only [hm]
        exact advanced_merge h hd hok hown hn m
      · simp only [hm]
        exact hstay
    · exact hstay
  | freeInsert p o k =>
    have hp : s.Owned c p := hown p (by simp [Pc.heads, Pc.moving])
    obtain ⟨s', hi, m, h'⟩ := insert_spec h hp.1 hp.2.1 hp.2.2 hok.1
    simp only [Pc.advance, hi]
    exact advanced_insert hd hok hown hn m h'

/-! ### The ownership invariant -/

section Ownership

variable {ι : Type*} {R : FreeRange c} {x y : Conc ι}

/-- CPU `i` owns the block `p`: it holds it, or has it in transit. -/
def Conc.Owns (x : Conc ι) (i : ι) (p : ℕ) : Prop := p ∈ x.held i ∨ p ∈ (x.pc i).heads

/-- Every block that is not in a pool, and every page of a block being split, has exactly
one owner. -/
structure ConcInv (c : Layout) (R : FreeRange c) (x : Conc ι) : Prop where
  inv : Inv c x.buddy (⋃ i, (x.pc i).raw)
  ok : ∀ i, (x.pc i).Ok c x.buddy
  owned : ∀ i p, x.Owns i p → x.buddy.Owned c p
  exists_owner : ∀ p < c.pageNums, x.buddy.HeldHead p → ∃ i, x.Owns i p
  owner_unique : ∀ i j p, x.Owns i p → x.Owns j p → i = j
  held_heads : ∀ i, ∀ p ∈ x.held i, p ∉ (x.pc i).heads
  nodup : ∀ i, (x.pc i).heads.Nodup
  raw_disjoint : ∀ i j, i ≠ j → Disjoint (x.pc i).raw (x.pc j).raw
  static_iff : ∀ p, x.buddy.Static p ↔ p ∉ R.set

/-- CPU `j` keeps its block `p` in a section of CPU `i`: a block CPU `i` has in transit can
change hands. -/
def Conc.Keeps (x : Conc ι) (i j : ι) (p : ℕ) : Prop :=
  (j ≠ i ∧ x.Owns j p) ∨ (j = i ∧ p ∈ x.held i)

theorem Conc.Keeps.owns {i j : ι} {p : ℕ} (h : x.Keeps i j p) : x.Owns j p := by
  rcases h with ⟨-, h⟩ | ⟨rfl, h⟩
  · exact h
  · exact .inl h

theorem Pc.mem_heads_of_moving {pc : Pc} {p : ℕ} (h : p ∈ pc.moving) : p ∈ pc.heads :=
  List.mem_append_left _ h

theorem Pc.Ok.congr {s s' : Buddy} {pc : Pc} (h : pc.Ok c s)
    (hsame : ∀ p ∈ pc.moving, s'.pages p = s.pages p) : pc.Ok c s' := by
  cases pc with
  | freeLoop p o k | freeInsert p o k =>
    refine ⟨?_, h.2⟩
    unfold Buddy.order
    rw [hsame p (List.mem_singleton_self p)]
    exact h.1
  | _ => exact h

namespace ConcInv

/-- The pages of the blocks that CPUs other than `i` split. -/
def others (x : Conc ι) (i : ι) : Set ℕ := ⋃ j, ⋃ (_ : j ≠ i), (x.pc j).raw

theorem mem_others {i : ι} {q : ℕ} : q ∈ others x i ↔ ∃ j, j ≠ i ∧ q ∈ (x.pc j).raw := by
  simp [others]

theorem iUnion_raw (i : ι) : ⋃ j, (x.pc j).raw = others x i ∪ (x.pc i).raw := by
  ext q
  rw [Set.mem_union, mem_others, Set.mem_iUnion]
  constructor
  · rintro ⟨j, hj⟩
    by_cases hji : j = i
    · exact .inr (hji ▸ hj)
    · exact .inl ⟨j, hji, hj⟩
  · rintro (⟨j, -, hj⟩ | hj)
    · exact ⟨j, hj⟩
    · exact ⟨i, hj⟩

theorem disjoint_others (h : ConcInv c R x) (i : ι) : Disjoint (others x i) (x.pc i).raw := by
  rw [Set.disjoint_left]
  intro q hq hqi
  obtain ⟨j, hj, hqj⟩ := mem_others.1 hq
  exact Set.disjoint_left.1 (h.raw_disjoint j i hj) hqj hqi

/-- A page of a block being split is a body page. -/
theorem body_of_raw (h : ConcInv c R x) {i : ι} {q : ℕ} (hq : q ∈ (x.pc i).raw) :
    q < c.pageNums ∧ x.buddy.Body c q :=
  h.inv.raw_body q (Set.mem_iUnion.2 ⟨i, hq⟩)

/-- A page in a block is not one of the pages of a block being split. -/
theorem not_raw (h : ConcInv c R x) {i : ι} {p q : ℕ} (hp : p < c.pageNums)
    (hh : x.buddy.Head p) (hq : q ∈ x.buddy.block p) : q ∉ (x.pc i).raw := by
  intro hr
  by_cases hqp : q = p
  · exact hh.not_body (hqp ▸ (h.body_of_raw hr).2)
  · exact (h.inv.body hp hh (lt_of_le_of_ne hq.1 (Ne.symm hqp)) hq).2.2
      (Set.mem_iUnion.2 ⟨i, hr⟩)

theorem advanced (h : ConcInv c R x) {i : ι} (hrun : (x.pc i).Running) :
    Advanced c (others x i) x.buddy (x.pc i) ((x.pc i).advance c x.buddy).1
      ((x.pc i).advance c x.buddy).2 :=
  advance_spec (iUnion_raw (x := x) i ▸ h.inv) (h.disjoint_others i) (h.ok i)
    (fun p hp => h.owned i p (.inr hp)) (h.nodup i) hrun

/-- A section touches no block but the one its CPU has in transit. -/
theorem same_of_owns (h : ConcInv c R x) {i j : ι} {s' : Buddy} {pc' : Pc} {W : Set ℕ} {p : ℕ}
    (a : Advanced c W x.buddy (x.pc i) s' pc') (hp : x.Owns j p)
    (hm : j = i → p ∉ (x.pc i).moving) : s'.pages p = x.buddy.pages p := by
  obtain ⟨h1, h2, -⟩ := h.owned j p hp
  refine a.same p h1 (fun hr => ?_) (fun hf => hf.not_held h2) fun hmv => ?_
  · exact Head.not_body (.inl h2) (h.body_of_raw hr).2
  · have hji := h.owner_unique j i p hp (.inr (Pc.mem_heads_of_moving hmv))
    exact hm hji hmv

theorem same_of_keeps (h : ConcInv c R x) {i j : ι} {s' : Buddy} {pc' : Pc} {W : Set ℕ} {p : ℕ}
    (a : Advanced c W x.buddy (x.pc i) s' pc') (hp : x.Keeps i j p) :
    s'.pages p = x.buddy.pages p := by
  rcases hp with ⟨hj, hp⟩ | ⟨rfl, hp⟩
  · exact h.same_of_owns a hp fun e => absurd e hj
  · exact h.same_of_owns a (.inl hp) fun _ hm => h.held_heads j p hp (Pc.mem_heads_of_moving hm)

theorem owned_of_keeps (h : ConcInv c R x) {i j : ι} {s' : Buddy} {pc' : Pc} {W : Set ℕ} {p : ℕ}
    (a : Advanced c W x.buddy (x.pc i) s' pc') (hp : x.Keeps i j p) : s'.Owned c p := by
  unfold Buddy.Owned HeldHead
  rw [h.same_of_keeps a hp]
  exact h.owned j p hp.owns

/-- The blocks a section gives its CPU are nobody else's. -/
theorem not_keeps (h : ConcInv c R x) {i j : ι} {s' : Buddy} {pc' : Pc} {W : Set ℕ} {p : ℕ}
    (a : Advanced c W x.buddy (x.pc i) s' pc') (hp : p ∈ pc'.heads) : ¬ x.Keeps i j p := by
  intro hk
  rcases a.fresh p hp with hin | hnot
  · rcases hk with ⟨hj, hk⟩ | ⟨rfl, hk⟩
    · exact hj (h.owner_unique j i p hk (.inr hin))
    · exact h.held_heads j p hk hin
  · exact hnot (h.owned j p hk.owns).2.1

/-- Calls and returns move blocks between what a CPU holds and what it has in transit. -/
theorem moves (h : ConcInv c R x) (hb : y.buddy = x.buddy)
    (hraw : ∀ i, (y.pc i).raw = (x.pc i).raw) (hok : ∀ i, (y.pc i).Ok c x.buddy)
    (howns : ∀ i p, y.Owns i p ↔ x.Owns i p)
    (hheld : ∀ i, ∀ p ∈ y.held i, p ∉ (y.pc i).heads) (hnodup : ∀ i, (y.pc i).heads.Nodup) :
    ConcInv c R y where
  inv := by
    rw [hb, Set.iUnion_congr hraw]
    exact h.inv
  ok i := hb ▸ hok i
  owned i p hp := hb ▸ h.owned i p ((howns i p).1 hp)
  exists_owner p hp hh := by
    rw [hb] at hh
    obtain ⟨i, hi⟩ := h.exists_owner p hp hh
    exact ⟨i, (howns i p).2 hi⟩
  owner_unique i j p hi hj := h.owner_unique i j p ((howns i p).1 hi) ((howns j p).1 hj)
  held_heads := hheld
  nodup := hnodup
  raw_disjoint i j hij := by
    rw [hraw, hraw]
    exact h.raw_disjoint i j hij
  static_iff p := by
    rw [hb]
    exact h.static_iff p

variable [DecidableEq ι]

/-- A call or a return of CPU `i`, which splits no block. -/
theorem move_one (h : ConcInv c R x) {i : ι} {F : Finset ℕ} {pc' : Pc}
    (hrest : (x.pc i).rest = none) (hrest' : pc'.rest = none) (hok : pc'.Ok c x.buddy)
    (howns : ∀ p, p ∈ F ∨ p ∈ pc'.heads ↔ p ∈ x.held i ∨ p ∈ (x.pc i).heads)
    (hheld : ∀ p ∈ F, p ∉ pc'.heads) (hnodup : pc'.heads.Nodup) :
    ConcInv c R ((x.setHeld i F).setPc i pc') := by
  have hcases : ∀ j, j = i ∨ j ≠ i := fun j => em _
  refine h.moves rfl (fun j => ?_) (fun j => ?_) (fun j p => ?_) (fun j => ?_) fun j => ?_ <;>
  rcases hcases j with rfl | hj
  · simp only [Conc.setPc, Conc.setHeld, Function.update_self]
    rw [Pc.raw_none hrest, Pc.raw_none hrest']
  · simp only [Conc.setPc, Conc.setHeld, Function.update_of_ne hj]
  · simpa only [Conc.setPc, Conc.setHeld, Function.update_self] using hok
  · simpa only [Conc.setPc, Conc.setHeld, Function.update_of_ne hj] using h.ok j
  · simpa only [Conc.Owns, Conc.setPc, Conc.setHeld, Function.update_self] using howns p
  · simp only [Conc.Owns, Conc.setPc, Conc.setHeld, Function.update_of_ne hj]
  · simpa only [Conc.setPc, Conc.setHeld, Function.update_self] using hheld
  · simpa only [Conc.setPc, Conc.setHeld, Function.update_of_ne hj] using h.held_heads j
  · simpa only [Conc.setPc, Conc.setHeld, Function.update_self] using hnodup
  · simpa only [Conc.setPc, Conc.setHeld, Function.update_of_ne hj] using h.nodup j

/-- The owners after a section of CPU `i`. -/
theorem owns_section {i j : ι} {s' : Buddy} {pc' : Pc} {p : ℕ} :
    ((x.setBuddy s').setPc i pc').Owns j p ↔ x.Keeps i j p ∨ (j = i ∧ p ∈ pc'.heads) := by
  unfold Conc.Owns Conc.Keeps Conc.setPc Conc.setBuddy
  by_cases hj : j = i
  · subst hj
    simp
  · simp [hj, Conc.Owns]

/-- A section keeps the ownership invariant. -/
theorem section_step (h : ConcInv c R x) {i : ι} (hrun : (x.pc i).Running) :
    ConcInv c R ((x.setBuddy ((x.pc i).advance c x.buddy).1).setPc i
      ((x.pc i).advance c x.buddy).2) := by
  have a := h.advanced hrun
  generalize ((x.pc i).advance c x.buddy).1 = s' at a ⊢
  generalize ((x.pc i).advance c x.buddy).2 = pc' at a ⊢
  have howns : ∀ j p, ((x.setBuddy s').setPc i pc').Owns j p ↔
      x.Keeps i j p ∨ (j = i ∧ p ∈ pc'.heads) := fun j p => owns_section
  set y := (x.setBuddy s').setPc i pc' with hy
  have hpi : y.pc i = pc' := Function.update_self ..
  have hpj : ∀ j, j ≠ i → y.pc j = x.pc j := fun j hj => Function.update_of_ne hj ..
  have hheld : y.held = x.held := rfl
  have hbuddy : y.buddy = s' := rfl
  clear_value y
  have hothers : others y i = others x i := by
    ext q
    rw [mem_others, mem_others]
    refine exists_congr fun j => and_congr_right fun hj => ?_
    rw [hpj j hj]
  refine ⟨?_, fun j => ?_, fun j p hp => ?_, fun p hp hh => ?_, fun j k p hj hk => ?_,
    fun j p hp => ?_, fun j => ?_, fun j k hjk => ?_, fun p => ?_⟩
  · rw [iUnion_raw i, hothers, hpi, hbuddy]
    exact a.inv'
  · rw [hbuddy]
    by_cases hj : j = i
    · rw [hj, hpi]
      exact a.ok'
    · rw [hpj j hj]
      exact (h.ok j).congr fun p hp =>
        h.same_of_keeps a (.inl ⟨hj, .inr (Pc.mem_heads_of_moving hp)⟩)
  · rw [hbuddy]
    rcases (howns j p).1 hp with hp | ⟨-, hp⟩
    · exact h.owned_of_keeps a hp
    · exact a.owned' p hp
  · rw [hbuddy] at hh
    rcases (a.held_iff p hp).1 hh with ⟨h1, h2⟩ | h1
    · obtain ⟨j, hj⟩ := h.exists_owner p hp h1
      refine ⟨j, (howns j p).2 (.inl ?_)⟩
      by_cases hji : j = i
      · subst hji
        exact .inr ⟨rfl, hj.resolve_right h2⟩
      · exact .inl ⟨hji, hj⟩
    · exact ⟨i, (howns i p).2 (.inr ⟨rfl, h1⟩)⟩
  · rcases (howns j p).1 hj with hj | ⟨rfl, hj⟩ <;> rcases (howns k p).1 hk with hk | ⟨rfl, hk⟩
    · exact h.owner_unique j k p hj.owns hk.owns
    · exact absurd hj (h.not_keeps a hk)
    · exact absurd hk (h.not_keeps a hj)
    · rfl
  · rw [hheld] at hp
    by_cases hj : j = i
    · subst hj
      rw [hpi]
      exact fun e => h.not_keeps a e (.inr ⟨rfl, hp⟩)
    · rw [hpj j hj]
      exact h.held_heads j p hp
  · by_cases hj : j = i
    · rw [hj, hpi]
      exact a.nodup'
    · rw [hpj j hj]
      exact h.nodup j
  · have hdi : ∀ k, k ≠ i → Disjoint (x.pc k).raw pc'.raw := by
      intro k hk
      refine a.disjoint'.mono_left fun q hq => ?_
      exact mem_others.2 ⟨k, hk, hq⟩
    by_cases hji : j = i <;> by_cases hki : k = i
    · exact absurd (hji.trans hki.symm) hjk
    · rw [hji, hpi, hpj k hki]
      exact (hdi k hki).symm
    · rw [hki, hpi, hpj j hji]
      exact hdi j hji
    · rw [hpj j hji, hpj k hki]
      exact h.raw_disjoint j k hjk
  · rw [hbuddy, a.static_iff p]
    exact h.static_iff p

/-- Every step keeps the ownership invariant. -/
theorem step (h : ConcInv c R x) {i : ι} {a : Act Op Ret} (hs : x.exec c i a = some y) :
    ConcInv c R y := by
  have hself : ∀ pc, (x.setHeld i (x.held i)).setPc i pc = x.setPc i pc := by
    intro pc
    simp [Conc.setHeld, Conc.setPc]
  unfold Conc.exec at hs
  split at hs
  · split_ifs at hs with hpc hk
    · cases hs
      rw [← hself]
      refine h.move_one (by rw [hpc]; rfl) rfl ⟨le_rfl, by omega⟩ (fun p => by rw [hpc]; rfl)
        (fun _ _ => List.not_mem_nil) List.nodup_nil
    · cases hs
      rw [← hself]
      refine h.move_one (by rw [hpc]; rfl) rfl trivial (fun p => by rw [hpc]; rfl)
        (fun _ _ => List.not_mem_nil) List.nodup_nil
  · rename_i p
    split_ifs at hs with hpc
    cases hs
    obtain ⟨hpc, hp⟩ := hpc
    refine h.move_one (by rw [hpc]; rfl) rfl (fun r hr => by cases hr) (fun q => ?_)
      (fun q hq hqp => ?_) (List.nodup_singleton p)
    · rw [hpc, Finset.mem_erase]
      simp only [Pc.heads, Pc.moving, Pc.result, List.append_nil, List.mem_singleton,
        List.not_mem_nil, or_false]
      by_cases hqp : q = p
      · subst hqp
        exact iff_of_true (.inr rfl) hp
      · simp [hqp]
    · rw [Finset.mem_erase] at hq
      exact hq.1 (List.mem_singleton.1 hqp)
  · split_ifs at hs with hrun
    cases hs
    exact h.section_step hrun
  · split_ifs at hs with hpc
    cases hs
    rw [← hself]
    exact h.move_one (by rw [hpc]; rfl) rfl trivial (fun p => by rw [hpc]; rfl)
      (fun _ _ => List.not_mem_nil) List.nodup_nil
  · rename_i p
    split_ifs at hs with hpc
    cases hs
    refine h.move_one (by rw [hpc]; rfl) rfl trivial (fun q => ?_)
      (fun _ _ => List.not_mem_nil) List.nodup_nil
    rw [hpc, Finset.mem_insert]
    simp only [Pc.heads, Pc.moving, Pc.result, List.nil_append, List.mem_singleton,
      List.not_mem_nil, or_false]
    exact or_comm
  · split_ifs at hs with hpc
    cases hs
    rw [← hself]
    exact h.move_one (by rw [hpc]; rfl) rfl trivial (fun p => by rw [hpc]; rfl)
      (fun _ _ => List.not_mem_nil) List.nodup_nil

theorem of_init (h : (concRuns c R ι).init x) : ConcInv c R x := by
  obtain ⟨hboot, hheld, hpc⟩ := h
  obtain ⟨s, hs, b⟩ := buddyModuleInit_spec R
  rw [hs] at hboot
  have hb : x.buddy = s := (Option.some.inj hboot).symm
  have hraw : ∀ i, (x.pc i).raw = ∅ := fun i => Pc.raw_none (by rw [hpc]; rfl)
  have howns : ∀ i p, ¬ x.Owns i p := by
    intro i p
    unfold Conc.Owns
    rw [hheld, hpc]
    simp [Pc.heads, Pc.moving, Pc.result]
  refine ⟨?_, fun i => ?_, fun i p hp => absurd hp (howns i p), fun p hp hh => ?_,
    fun i j p hp => absurd hp (howns i p), fun i p hp => ?_, fun i => ?_, fun i j _ => ?_,
    fun p => hb ▸ b.static_iff p⟩
  · rw [hb, Set.iUnion_congr hraw, Set.iUnion_empty]
    exact b.inv
  · rw [hpc]
    trivial
  · rw [hb, b.held_iff p hp] at hh
    omega
  · rw [hheld] at hp
    exact absurd hp (Finset.notMem_empty p)
  · rw [hpc]
    exact List.nodup_nil
  · rw [hraw]
    exact Set.empty_disjoint _

end ConcInv

variable [DecidableEq ι]

/-- The ownership invariant holds in every state of every interleaving. -/
theorem concInv_of_reachable (h : (concRuns c R ι).Reachable x) : ConcInv c R x :=
  h.invariant (fun _ hx => .of_init hx) fun _ _ _ _ hx hs => hx.step hs

/-! ### Ownership -/

/-- The pages of a CPU: those of its blocks, and of the block it is splitting. -/
def Conc.pages (x : Conc ι) (i : ι) : Set ℕ :=
  (x.pc i).raw ∪ {q | ∃ p, x.Owns i p ∧ q ∈ x.buddy.block p}

/-- In every interleaving no section changes a descriptor that heads a block another CPU
owns, no page belongs to two owners or to an owner and a pool, and no `ASSERT` fails. -/
theorem ownership (R : FreeRange c) (ι : Type*) [DecidableEq ι] :
    ∀ x, (concRuns c R ι).Reachable x →
      (∀ i a y, x.exec c i a = some y → ∀ j, j ≠ i → ∀ p, x.Owns j p →
        y.buddy.pages p = x.buddy.pages p) ∧
      (∀ i, Disjoint (x.pages i) (freePages c x.buddy)) ∧
      (∀ i j, i ≠ j → Disjoint (x.pages i) (x.pages j)) ∧
      ∀ i, x.pc i ≠ .panic := by
  intro x hx
  have h := concInv_of_reachable hx
  refine ⟨fun i a y hs j hj p hp => ?_, fun i => ?_, fun i j hij => ?_, fun i hpc => ?_⟩
  · -- only a section of CPU `i` writes descriptors
    have hb : y.buddy = x.buddy ∨ (x.pc i).Running ∧
        y.buddy = ((x.pc i).advance c x.buddy).1 := by
      unfold Conc.exec at hs
      split at hs <;> split_ifs at hs <;> cases hs
      · exact .inl rfl
      · exact .inl rfl
      · exact .inl rfl
      · exact .inr ⟨‹_›, rfl⟩
      · exact .inl rfl
      · exact .inl rfl
      · exact .inl rfl
    rcases hb with hb | ⟨hrun, hb⟩
    · rw [hb]
    · rw [hb]
      exact h.same_of_owns (h.advanced hrun) hp fun e => absurd e hj
  · -- a page of CPU `i` and of a pool would be in two blocks
    rw [Set.disjoint_left]
    intro q hq hfree
    obtain ⟨r, hr, hf, hb⟩ := h.inv.mem_freePages.1 hfree
    rcases hq with hq | ⟨p, hp, hq⟩
    · exact h.not_raw hr (.inr hf) hb hq
    · obtain ⟨h1, h2, -⟩ := h.owned i p hp
      have := h.inv.block_unique h1 (.inl h2) hr (.inr hf) hq hb
      exact hf.not_held (this ▸ h2)
  · -- each of the two has it in a block or in what it still has to cut
    rw [Set.disjoint_left]
    rintro q (hq | ⟨p, hp, hq⟩) (hq' | ⟨p', hp', hq'⟩)
    · exact Set.disjoint_left.1 (h.raw_disjoint i j hij) hq hq'
    · obtain ⟨h1, h2, -⟩ := h.owned j p' hp'
      exact h.not_raw h1 (.inl h2) hq' hq
    · obtain ⟨h1, h2, -⟩ := h.owned i p hp
      exact h.not_raw h1 (.inl h2) hq hq'
    · obtain ⟨h1, h2, -⟩ := h.owned i p hp
      obtain ⟨h1', h2', -⟩ := h.owned j p' hp'
      have := h.inv.block_unique h1 (.inl h2) h1' (.inl h2') hq hq'
      exact hij (h.owner_unique i j p hp (this ▸ hp'))
  · have := h.ok i
    rw [hpc] at this
    exact this

/-- Two CPUs and two pages: while CPU `1` is inside `bkp_free` with page `1`, CPU `0` calls
`bkp_free` with page `0`. -/
theorem ownership_two_cpus :
    let c := Layout.ofPages 2 2 (by decide) (by decide)
    let scan : List (Fin 2 × Act Op Ret) := List.replicate 8 (0, .internal)
    let find : List (Fin 2 × Act Op Ret) := List.replicate 2 (1, .internal)
    ∃ x y, bootAndSchedule c (FreeRange.all c) ((0, .invoke (.alloc 0)) :: scan ++
        (0, .respond (.block (some 0))) :: (1, .invoke (.alloc 0)) :: find ++
        [(1, .respond (.block (some 1))), (1, .invoke (.free 1)), (1, .internal)]) = some x ∧
      x.pc 1 = .freeLoop 1 0 none ∧ x.exec c 0 (.invoke (.free 0)) = some y ∧
      y.buddy.pages 1 = x.buddy.pages 1 ∧ Disjoint (x.pages 0) (x.pages 1) := by
  intro c scan find
  set as : List (Fin 2 × Act Op Ret) := (0, .invoke (.alloc 0)) :: scan ++
    (0, .respond (.block (some 0))) :: (1, .invoke (.alloc 0)) :: find ++
    [(1, .respond (.block (some 1))), (1, .invoke (.free 1)), (1, .internal)] with has
  have hrun : (bootAndSchedule c (FreeRange.all c) as).map
      (fun x => (x.pc 0, x.pc 1, x.held 0)) = some (.idle, .freeLoop 1 0 none, {0}) := by
    rw [has]
    decide
  obtain ⟨x, hx, hv⟩ := Option.map_eq_some_iff.1 hrun
  obtain ⟨h0, h1, hheld⟩ : x.pc 0 = .idle ∧ x.pc 1 = .freeLoop 1 0 none ∧ x.held 0 = {0} := by
    simpa using hv
  obtain ⟨w, hinit, hr⟩ := run_bootAndSchedule hx
  obtain ⟨hstep, -, hdisj, -⟩ :=
    ownership (FreeRange.all c) (Fin 2) x ((System.Reachable.of_init hinit).run hr)
  have hfree : x.exec c 0 (.invoke (.free 0)) = some
      ((x.setHeld 0 ((x.held 0).erase 0)).setPc 0 (.freeEntry 0 none)) :=
    if_pos ⟨h0, by simp [hheld]⟩
  refine ⟨x, _, hx, h1, hfree, ?_, hdisj 0 1 (by decide)⟩
  refine hstep 0 _ _ hfree 1 (by decide) 1 (.inr ?_)
  rw [h1]
  exact List.mem_singleton_self 1

end Ownership

end AcoOs
