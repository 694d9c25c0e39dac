/-
The locks of the buddy allocator, one at a time.

Here a CPU acquires and releases the lock of a pool or of a page in one step, in the
order the code does, and reads and writes what the code reads and writes between
them.  `bkp_free` locks a pool, its own page, and then a neighbour at a lower or a
higher address, so pages are not locked in the order of their addresses.

`lock_deadlock_free`: still no cycle of CPUs waits for each other.  A CPU that holds
a page and waits for another also holds the pool of an order `k`, no two hold the
same, and the two pages are `2 ^ k` apart.

`lock_solo_alloc`, `lock_solo_free`: lock by lock, a call that no other CPU disturbs
is still the sequential one.
-/
import AcoOs.BuddyLinear
import AcoOs.WaitCycle

namespace AcoOs

open Buddy Machine

variable {c : Layout}

/-- The spinlocks: `order_pools[order].lk` and the lock of a page. -/
inductive Lock
  | pool (order : ℕ)
  | page (pgfm : ℕ)
  deriving DecidableEq

/-- Where a CPU is.  The names of the sites of `bkp_alloc` and `bkp_free` follow what the
CPU does next; `release` unlocks the listed locks in order and goes on. -/
inductive Site
  | idle
  | panic (locks : List Lock)
  | release (locks : List Lock) (next : Site)
  -- `bkp_alloc`: the pools, then the page, then the remainder
  | scan (orderOrig order : ℕ)
  | scanTest (orderOrig order : ℕ)
  | take (orderOrig order pagePtr : ℕ)
  | takeTest (orderOrig order pagePtr : ℕ)
  | split (r : Rest)
  | carve (r : Rest)
  | carveTest (r : Rest)
  | allocDone (ret : Option ℕ)
  -- `bkp_free`: the entry check, the loop, the insertion
  | free (pgfm : ℕ) (k : Option Rest)
  | entry (pgfm : ℕ) (k : Option Rest)
  | entryTest (pgfm : ℕ) (k : Option Rest)
  | loop (pgfm order : ℕ) (k : Option Rest)
  | loopPage (pgfm order : ℕ) (k : Option Rest)
  | loopTest (pgfm order : ℕ) (k : Option Rest)
  | bef (pgfm order : ℕ) (k : Option Rest)
  | befTest (pgfm order : ℕ) (k : Option Rest)
  | look (pgfm order : ℕ) (k : Option Rest)
  | aft (pgfm order : ℕ) (k : Option Rest)
  | aftTest (pgfm order : ℕ) (k : Option Rest)
  | insert (pgfm order : ℕ) (k : Option Rest)
  | insertPage (pgfm order : ℕ) (k : Option Rest)
  | insertTest (pgfm order : ℕ) (k : Option Rest)
  | freeDone

namespace Site

/-- `va2pg(bef_pgva)`. -/
def befPage (c : Layout) (pgfm order : ℕ) : ℕ := c.va2pg (c.befPgva pgfm order)

/-- `va2pg(aft_pgva)`. -/
def aftPage (c : Layout) (pgfm order : ℕ) : ℕ := c.va2pg (c.aftPgva pgfm order)

/-- The lock a CPU is about to take, or spins on, and where it is when it has it. -/
def wants (c : Layout) : Site → Option (Lock × Site)
  | scan oo o => if o < c.maxOrder then some (.pool o, scanTest oo o) else none
  | take oo o p => some (.page p, takeTest oo o p)
  | carve r => some (.page r.restPgst, carveTest r)
  | entry p k => some (.page p, entryTest p k)
  | loop p o k => if o < c.maxOrder - 1 then some (.pool o, loopPage p o k) else none
  | loopPage p o k => some (.page p, loopTest p o k)
  | bef p o k => some (.page (befPage c p o), befTest p o k)
  | aft p o k => some (.page (aftPage c p o), aftTest p o k)
  | insert p o k => some (.pool o, insertPage p o k)
  | insertPage p o k => some (.page p, insertTest p o k)
  | _ => none

/-- The locks a CPU has taken and not released. -/
def holds (c : Layout) : Site → List Lock
  | panic ls => ls
  | release ls next => ls ++ holds c next
  | scanTest _ o | take _ o _ | loopPage _ o _ | insertPage _ o _ => [.pool o]
  | takeTest _ o p | loopTest p o _ | bef p o _ | look p o _ | aft p o _ | insertTest p o _ =>
    [.page p, .pool o]
  | carveTest r => [.page r.restPgst]
  | entryTest p _ => [.page p]
  | befTest p o _ => [.page (befPage c p o), .page p, .pool o]
  | aftTest p o _ => [.page (aftPage c p o), .page p, .pool o]
  | _ => []

/-- Where `bkp_free` returns to. -/
def ret : Option Rest → Site
  | none => freeDone
  | some r => split r

/-- The steps that take or release no lock; `none` where a CPU is not inside a call. -/
def act (c : Layout) (s : Buddy) : Site → Option (Buddy × Site)
  | release [] next => some (s, next)
  | scan _ _ => some (s, allocDone none)
  | scanTest oo o =>
    if (s.orderPools o).restBlockNum = 0 then some (s, release [.pool o] (scan oo (o + 1)))
    else
      match (s.orderPools o).list with
      | [] => some (s, panic [.pool o])
      | p :: _ => some (s.setPool o { s.orderPools o with
          restBlockNum := (s.orderPools o).restBlockNum - 1 }, take oo o p)
  | takeTest oo o p =>
    let s' := s.setPool o { s.orderPools o with list := (s.orderPools o).list.erase p }
    if (s.pages p).buddyFlags = flagHead ||| flagFree ∧ (s.pages p).buddyOrder = o then
      some (s'.setPage p { s.pages p with buddyFlags := flagHead, buddyOrder := oo },
        release [.page p, .pool o] (split ⟨p, c.maxOrder, p + Layout.order2pgnum oo,
          Layout.order2pgnum o - Layout.order2pgnum oo⟩))
    else some (s', panic [.page p, .pool o])
  | split ⟨p, 0, _, _⟩ => some (s, allocDone (some p))
  | split ⟨p, i + 1, rest, num⟩ =>
    if num = 0 then some (s, allocDone (some p))
    else if num &&& (1 <<< i) ≠ 0 then some (s, carve ⟨p, i, rest, num⟩)
    else some (s, split ⟨p, i, rest, num⟩)
  | carveTest ⟨p, i, rest, num⟩ =>
    match bkpAllocCarve c s rest i with
    | none => some (s, panic [.page rest])
    | some s => some (s, release [.page rest]
        (free rest (some ⟨p, i, rest + 1 <<< i, num - 1 <<< i⟩)))
  | free p k => if c.pgValid p then some (s, entry p k) else some (s, panic [])
  | entryTest p k =>
    match bkpFreeEntry c s p with
    | none => some (s, panic [.page p])
    | some o => some (s, release [.page p] (loop p o k))
  | loop p o k => some (s, insert p o k)
  | loopTest p o k =>
    if (s.pages p).pgtype = .buddyAllocator ∧ (s.pages p).buddyOrder = o ∧
        (s.pages p).buddyFlags = flagHead then
      if c.vaValid (c.befPgva p o) then some (s, bef p o k) else some (s, look p o k)
    else some (s, panic [.page p, .pool o])
  | befTest p o k =>
    if (s.pages (befPage c p o)).Mergeable o then
      some (joinBlocks c s o (befPage c p o) p (befPage c p o),
        release [.page (befPage c p o), .page p, .pool o] (loop (befPage c p o) (o + 1) k))
    else some (s, release [.page (befPage c p o)] (look p o k))
  | look p o k =>
    if c.vaValid (c.aftPgva p o) then some (s, aft p o k)
    else some (s, release [.page p, .pool o] (insert p o k))
  | aftTest p o k =>
    if (s.pages (aftPage c p o)).Mergeable o then
      some (joinBlocks c s o p (aftPage c p o) (aftPage c p o),
        release [.page (aftPage c p o), .page p, .pool o] (loop p (o + 1) k))
    else some (s, release [.page (aftPage c p o), .page p, .pool o] (insert p o k))
  | insertTest p o k =>
    match bkpFreeInsert s p o with
    | none => some (s, panic [.page p, .pool o])
    | some s => some (s, release [.page p, .pool o] (ret k))
  | _ => none

end Site

/-- The allocator, the spinlocks (`true` for a free one), what each CPU holds and where
it is. -/
structure Locked (ι : Type*) where
  buddy : Buddy
  value : Lock → Bool
  held : ι → Finset ℕ
  site : ι → Site

namespace Locked

variable {ι : Type*} [DecidableEq ι]

/-- CPU `i` is at `t`. -/
def setSite (x : Locked ι) (i : ι) (t : Site) : Locked ι :=
  { x with site := Function.update x.site i t }

/-- A step inside a call: take the lock the CPU waits for, release the next lock, or go
on.  A CPU that finds its lock taken has no step. -/
def internal (c : Layout) (x : Locked ι) (i : ι) : Option (Locked ι) :=
  match (x.site i).wants c with
  | some (l, t) =>
    if x.value l then
      some ({ x with value := Function.update x.value l false }.setSite i t)
    else none
  | none =>
    match x.site i with
    | .release (l :: ls) next =>
      some ({ x with value := Function.update x.value l true }.setSite i (.release ls next))
    | t =>
      match t.act c x.buddy with
      | some (s, t') => some ({ x with buddy := s }.setSite i t')
      | none => none

/-- The step of CPU `i` with a given label, when it can take it. -/
def exec (c : Layout) (x : Locked ι) (i : ι) : Act Op Ret → Option (Locked ι)
  | .invoke (.alloc order) =>
    match x.site i with
    | .idle => some (x.setSite i (if 0 ≤ order ∧ order < c.maxOrder then
        .scan order.toNat order.toNat else .allocDone none))
    | _ => none
  | .invoke (.free pgfm) =>
    match x.site i with
    | .idle =>
      if pgfm ∈ x.held i then
        some ({ x with held := Function.update x.held i ((x.held i).erase pgfm) }.setSite i
          (.free pgfm none))
      else none
    | _ => none
  | .internal => x.internal c i
  | .respond (.block none) =>
    match x.site i with
    | .allocDone none => some (x.setSite i .idle)
    | _ => none
  | .respond (.block (some p)) =>
    match x.site i with
    | .allocDone (some q) =>
      if p = q then
        some ({ x with held := Function.update x.held i (insert p (x.held i)) }.setSite i .idle)
      else none
    | _ => none
  | .respond .unit =>
    match x.site i with
    | .freeDone => some (x.setSite i .idle)
    | _ => none

end Locked

/-- The interleavings of the calls of the CPUs `ι`, lock by lock. -/
def lockRuns (c : Layout) (R : FreeRange c) (ι : Type*) [DecidableEq ι] :
    System (Locked ι) (ι × Act Op Ret) where
  init x := buddyModuleInit c R.pages = some x.buddy ∧ (∀ l, x.value l = true) ∧
    (∀ i, x.held i = ∅) ∧ ∀ i, x.site i = .idle
  step x a y := x.exec c a.1 a.2 = some y

/-! ### One step -/

namespace Site

/-- What the code has checked about the pages and the order at a site. -/
def Ok (c : Layout) : Site → Prop
  | release _ next => next.Ok c
  | scanTest _ o => o < c.maxOrder
  | entry p _ | entryTest p _ => p < c.pageNums
  | loop p o _ | insert p o _ | insertPage p o _ | insertTest p o _ =>
    p < c.pageNums ∧ o < c.maxOrder
  | loopPage p o _ | loopTest p o _ | look p o _ => p < c.pageNums ∧ o + 1 < c.maxOrder
  | bef p o _ | befTest p o _ =>
    p < c.pageNums ∧ o + 1 < c.maxOrder ∧ c.vaValid (c.befPgva p o)
  | aft p o _ | aftTest p o _ =>
    p < c.pageNums ∧ o + 1 < c.maxOrder ∧ c.vaValid (c.aftPgva p o)
  | _ => True

theorem befPage_eq {p o : ℕ} (hp : p < c.pageNums) (ho : o + 1 < c.maxOrder)
    (hv : c.vaValid (c.befPgva p o)) : 2 ^ o ≤ p ∧ befPage c p o = p - 2 ^ o := by
  have hle := (Layout.vaValid_bef hp (by omega)).1 hv
  exact ⟨hle, Layout.va2pg_bef hp (by omega) hle⟩

theorem aftPage_eq {p o : ℕ} (hp : p < c.pageNums) (ho : o + 1 < c.maxOrder)
    (hv : c.vaValid (c.aftPgva p o)) : aftPage c p o = p + 2 ^ o :=
  Layout.va2pg_aft hp (by omega) ((Layout.vaValid_aft hp (by omega)).1 hv)

/-- Taking a lock adds it to the ones held. -/
theorem holds_of_wants {t t' : Site} {l : Lock} (h : t.wants c = some (l, t')) :
    t'.holds c = l :: t.holds c := by
  cases t <;> simp only [wants, reduceCtorEq] at h
  case scan | loop =>
    split_ifs at h
    cases h
    rfl
  all_goals
    cases h
    rfl

theorem ok_of_wants {t t' : Site} {l : Lock} (h : t.wants c = some (l, t')) (hok : t.Ok c) :
    t'.Ok c := by
  cases t <;> simp only [wants, reduceCtorEq] at h
  case scan =>
    split_ifs at h with ho
    cases h
    exact ho
  case loop =>
    split_ifs at h
    cases h
    exact ⟨hok.1, by omega⟩
  all_goals
    cases h
    exact hok

/-- A step between two lock operations keeps the locks. -/
theorem holds_of_act {s s' : Buddy} {t t' : Site} (h : t.act c s = some (s', t')) :
    t'.holds c = t.holds c := by
  cases t <;> simp only [act, reduceCtorEq] at h
  case release ls next =>
    cases ls <;> simp only [reduceCtorEq] at h
    cases h
    rfl
  case split r =>
    obtain ⟨p, i, rest, num⟩ := r
    cases i <;> simp only at h
    · cases h
      rfl
    · split_ifs at h <;> cases h <;> rfl
  all_goals
    repeat' first
      | split at h
      | cases h
    all_goals first
      | rfl
      | cases ‹Option Rest› <;> rfl

theorem ok_of_act {s s' : Buddy} {t t' : Site} (h : t.act c s = some (s', t')) (hok : t.Ok c) :
    t'.Ok c := by
  cases t <;> simp only [act, reduceCtorEq] at h
  case release ls next =>
    cases ls <;> simp only [reduceCtorEq] at h
    cases h
    exact hok
  case split r =>
    obtain ⟨p, i, rest, num⟩ := r
    cases i <;> simp only at h
    · cases h
      trivial
    · split_ifs at h <;> cases h <;> trivial
  case free p k =>
    split_ifs at h with hp <;> cases h
    · exact hp
    · trivial
  case entryTest p k =>
    split at h
    · cases h
      trivial
    · rename_i o he
      cases h
      unfold bkpFreeEntry at he
      split_ifs at he with hc
      cases he
      exact ⟨hok, hc.2.2.2⟩
  case loopTest p o k =>
    split_ifs at h with h1 h2 <;> cases h
    · exact ⟨hok.1, hok.2, h2⟩
    · exact hok
    · trivial
  case befTest p o k =>
    obtain ⟨h1, h2, h3⟩ := hok
    obtain ⟨h4, h5⟩ := befPage_eq h1 h2 h3
    split_ifs at h <;> cases h
    · refine ⟨?_, h2⟩
      rw [h5]
      exact lt_of_le_of_lt (Nat.sub_le p _) h1
    · exact ⟨h1, h2⟩
  case look p o k =>
    split_ifs at h with h1 <;> cases h
    · exact ⟨hok.1, hok.2, h1⟩
    · exact ⟨hok.1, by have := hok.2; omega⟩
  case aftTest p o k =>
    obtain ⟨h1, h2, -⟩ := hok
    split_ifs at h <;> cases h
    · exact ⟨h1, h2⟩
    · exact ⟨h1, by omega⟩
  case insertTest p o k =>
    split at h <;> cases h
    · trivial
    · cases k <;> trivial
  case loop p o k =>
    cases h
    exact hok
  all_goals
    repeat' first
      | split at h
      | cases h
    all_goals trivial

end Site

section Deadlock

variable {ι : Type*} [DecidableEq ι] {R : FreeRange c} {x y : Locked ι}

/-- Everything a step can do to the locks: take one, release one, or neither. -/
theorem Locked.step_cases {i : ι} {a : Act Op Ret} (h : x.exec c i a = some y) :
    (∃ l t, (x.site i).wants c = some (l, t) ∧ x.value l = true ∧
      y.value = Function.update x.value l false ∧ y.site = Function.update x.site i t) ∨
    (∃ l ls next, x.site i = .release (l :: ls) next ∧
      y.value = Function.update x.value l true ∧
      y.site = Function.update x.site i (.release ls next)) ∨
    (∃ t, y.value = x.value ∧ y.site = Function.update x.site i t ∧
      t.holds c = (x.site i).holds c ∧ ((x.site i).Ok c → t.Ok c)) := by
  unfold Locked.exec at h
  split at h
  · split at h
    · rename_i heq
      cases h
      refine .inr (.inr ⟨_, rfl, rfl, ?_, fun _ => ?_⟩)
      · rw [heq]
        split_ifs <;> rfl
      · split_ifs <;> trivial
    · cases h
  · split at h
    · rename_i heq
      split_ifs at h
      cases h
      exact .inr (.inr ⟨_, rfl, rfl, by rw [heq]; rfl, fun _ => trivial⟩)
    · cases h
  · unfold Locked.internal at h
    split at h
    · rename_i l t hw
      split_ifs at h with hv
      cases h
      exact .inl ⟨l, t, hw, hv, rfl, rfl⟩
    · split at h
      · rename_i l ls next heq
        cases h
        exact .inr (.inl ⟨l, ls, next, heq, rfl, rfl⟩)
      · split at h
        · rename_i s t' hact
          cases h
          exact .inr (.inr ⟨t', rfl, rfl, Site.holds_of_act hact, Site.ok_of_act hact⟩)
        · cases h
  · split at h
    · rename_i heq
      cases h
      exact .inr (.inr ⟨_, rfl, rfl, by rw [heq]; rfl, fun _ => trivial⟩)
    · cases h
  · split at h
    · rename_i heq
      split_ifs at h
      cases h
      exact .inr (.inr ⟨_, rfl, rfl, by rw [heq]; rfl, fun _ => trivial⟩)
    · cases h
  · split at h
    · rename_i heq
      cases h
      exact .inr (.inr ⟨_, rfl, rfl, by rw [heq]; rfl, fun _ => trivial⟩)
    · cases h

/-- The spinlocks exclude each other, and the sites are as the code reaches them. -/
structure LockInv (c : Layout) (x : Locked ι) : Prop where
  taken : ∀ i, ∀ l ∈ (x.site i).holds c, x.value l = false
  exclusive : ∀ i j, ∀ l ∈ (x.site i).holds c, l ∈ (x.site j).holds c → i = j
  nodup : ∀ i, ((x.site i).holds c).Nodup
  ok : ∀ i, (x.site i).Ok c

namespace LockInv

omit [DecidableEq ι] in
theorem exclude (h : LockInv c x) :
    WaitCycle.Exclusive x.value fun i => (x.site i).holds c :=
  ⟨h.taken, h.exclusive, h.nodup⟩

/-- A step of CPU `i` to the site `t` keeps the other sites. -/
theorem of_exclude (h : LockInv c x) {i : ι} {t : Site}
    (hsite : y.site = Function.update x.site i t) (hok : t.Ok c)
    (hex : WaitCycle.Exclusive y.value fun j => (y.site j).holds c) : LockInv c y where
  taken := hex.taken
  exclusive := hex.unique
  nodup := hex.nodup
  ok j := by
    rw [hsite]
    by_cases hji : j = i
    · rw [hji, Function.update_self]
      exact hok
    · rw [Function.update_of_ne hji]
      exact h.ok j

theorem step (h : LockInv c x) {i : ι} {a : Act Op Ret} (hs : x.exec c i a = some y) :
    LockInv c y := by
  have hself : ∀ {t : Site}, y.site = Function.update x.site i t →
      (y.site i).holds c = t.holds c := by
    intro t he
    rw [he, Function.update_self]
  have hother : ∀ {t : Site}, y.site = Function.update x.site i t →
      ∀ j, j ≠ i → (y.site j).holds c = (x.site j).holds c := by
    intro t he j hj
    rw [he, Function.update_of_ne hj]
  rcases Locked.step_cases hs with ⟨l, t, hw, hv, hval, hsite⟩ | ⟨l, ls, next, heq, hval, hsite⟩ |
    ⟨t, hval, hsite, hh, hok⟩
  · refine h.of_exclude hsite (Site.ok_of_wants hw (h.ok i)) ?_
    rw [hval]
    refine h.exclude.acquire hv ?_ (hother hsite)
    rw [hself hsite, Site.holds_of_wants hw]
  · refine h.of_exclude hsite ?_ ?_
    · have hok := h.ok i
      rw [heq] at hok
      exact hok
    · rw [hval]
      refine h.exclude.release (i := i) ?_ (hother hsite)
      rw [hself hsite, heq]
      rfl
  · refine h.of_exclude hsite (hok (h.ok i)) ?_
    have hholds : (fun j => (y.site j).holds c) = fun j => (x.site j).holds c := by
      funext j
      by_cases hji : j = i
      · rw [hji, hself hsite, hh]
      · exact hother hsite j hji
    rw [hval, hholds]
    exact h.exclude

theorem of_reachable (h : (lockRuns c R ι).Reachable x) : LockInv c x := by
  refine h.invariant (fun x hx => ?_) fun x a y _ hx hs => hx.step hs
  obtain ⟨-, -, -, hsite⟩ := hx
  refine ⟨fun i l hl => ?_, fun i j l hl => ?_, fun i => ?_, fun i => ?_⟩
  · rw [hsite] at hl
    cases hl
  · rw [hsite] at hl
    cases hl
  · rw [hsite]
    exact List.nodup_nil
  · rw [hsite]
    trivial

end LockInv

/-! ### Deadlock -/

/-- CPU `i` spins on a lock that CPU `j` holds. -/
def Locked.WaitsFor (c : Layout) (x : Locked ι) (i j : ι) : Prop :=
  ∃ l t, (x.site i).wants c = some (l, t) ∧ l ∈ (x.site j).holds c

/-- The page and the order of a CPU inside the loop of `bkp_free`. -/
def Site.own : Site → ℕ × ℕ
  | .bef p o _ | .aft p o _ => (p, o)
  | _ => (0, 0)

/-- A CPU that holds a lock waits for a page only, and one that also holds a page waits
for a neighbour of it. -/
theorem Site.wants_cases {t t' : Site} {l m : Lock} (hw : t.wants c = some (l, t'))
    (hm : m ∈ t.holds c) : (∃ q, l = .page q) ∧ ((∃ q, m = .page q) →
      (∃ p o k, t = .bef p o k ∧ l = .page (befPage c p o) ∧
        (m = .page p ∧ Lock.pool o ∈ t.holds c)) ∨
      ∃ p o k, t = .aft p o k ∧ l = .page (aftPage c p o) ∧
        (m = .page p ∧ Lock.pool o ∈ t.holds c)) := by
  cases t <;> simp only [wants, reduceCtorEq] at hw
  case scan | loop =>
    cases hm
  case bef p o k =>
    cases hw
    refine ⟨⟨_, rfl⟩, fun hq => .inl ⟨p, o, k, rfl, rfl, ?_, by simp [holds]⟩⟩
    simp only [holds, List.mem_cons, List.not_mem_nil, or_false] at hm
    obtain ⟨q, rfl⟩ := hq
    simpa using hm
  case aft p o k =>
    cases hw
    refine ⟨⟨_, rfl⟩, fun hq => .inr ⟨p, o, k, rfl, rfl, ?_, by simp [holds]⟩⟩
    simp only [holds, List.mem_cons, List.not_mem_nil, or_false] at hm
    obtain ⟨q, rfl⟩ := hq
    simpa using hm
  all_goals
    cases hw
    simp only [holds, List.mem_cons, List.not_mem_nil, or_false] at hm
  all_goals
    refine ⟨⟨_, rfl⟩, ?_⟩
    rintro ⟨q, rfl⟩
    cases hm

/-- In no reachable state does a cycle of CPUs wait for each other. -/
theorem lock_deadlock_free (R : FreeRange c) (ι : Type*) [DecidableEq ι] :
    ∀ x, (lockRuns c R ι).Reachable x → ∀ i, ¬ Relation.TransGen (x.WaitsFor c) i i := by
  intro x hx
  have h := LockInv.of_reachable hx
  have hfun : ∀ i j l, x.WaitsFor c i j → x.WaitsFor c i l → j = l := by
    rintro i j l ⟨m, t, hm, hj⟩ ⟨m', t', hm', hl⟩
    rw [hm] at hm'
    cases hm'
    exact h.exclusive j l m hj hl
  -- in the middle of a chain a CPU holds a page and waits for a neighbour of it
  have hamid : ∀ i, WaitCycle.Amid (x.WaitsFor c) i → ∃ l t, (x.site i).wants c = some (l, t) ∧
      ∃ m ∈ (x.site i).holds c, ∃ q, m = .page q := by
    rintro i ⟨g, j', j, -, ⟨m, -, -, hm⟩, ⟨l', t', hw', hl'⟩, ⟨l, t, hw, -⟩, -⟩
    obtain ⟨⟨q, rfl⟩, -⟩ := Site.wants_cases hw' hm
    exact ⟨l, t, hw, _, hl', q, rfl⟩
  refine WaitCycle.no_cycle hfun (fun i => ((x.site i).own.1 : ℤ))
    (fun i => (x.site i).own.2) (fun i j hi hij => ?_) fun i j hi hj he => ?_
  · obtain ⟨l, t, hw, m, hm, hq⟩ := hamid i hi
    obtain ⟨-, -, j', j'', -, -, hij', hjj⟩ := hi
    have hjeq := hfun i j' j hij' hij
    subst hjeq
    obtain ⟨l', t', hw', hl'⟩ := hij
    rw [hw] at hw'
    cases hw'
    obtain ⟨n, u, hwj, -⟩ := hjj
    obtain ⟨⟨q, rfl⟩, hcase⟩ := Site.wants_cases hw hm
    -- the page CPU `i` waits for is the own page of CPU `j`
    have hown : (x.site j').own.1 = q := by
      rcases (Site.wants_cases hwj hl').2 ⟨q, rfl⟩ with ⟨p, o, k, ht, -, hp, -⟩ |
        ⟨p, o, k, ht, -, hp, -⟩
      · rw [ht]
        cases hp
        rfl
      · rw [ht]
        cases hp
        rfl
    have hoki := h.ok i
    rw [hown]
    rcases hcase hq with ⟨p, o, k, ht, hl, -⟩ | ⟨p, o, k, ht, hl, -⟩
    · cases hl
      rw [ht] at hoki ⊢
      obtain ⟨h1, h2⟩ := Site.befPage_eq hoki.1 hoki.2.1 hoki.2.2
      right
      rw [h2]
      simp only [Site.own]
      push_cast [h1]
      ring
    · cases hl
      rw [ht] at hoki ⊢
      left
      rw [Site.aftPage_eq hoki.1 hoki.2.1 hoki.2.2]
      simp only [Site.own]
      push_cast
      ring
  · -- two CPUs that hold the pool of one order are one CPU
    have hpool : ∀ i, WaitCycle.Amid (x.WaitsFor c) i →
        Lock.pool (x.site i).own.2 ∈ (x.site i).holds c := by
      intro i hi
      obtain ⟨l, t, hw, m, hm, hq⟩ := hamid i hi
      rcases (Site.wants_cases hw hm).2 hq with ⟨p, o, k, ht, -, -, hp⟩ |
        ⟨p, o, k, ht, -, -, hp⟩
      · rw [ht] at hp ⊢
        exact hp
      · rw [ht] at hp ⊢
        exact hp
    have hi' := hpool i hi
    rw [he] at hi'
    exact h.exclusive i j _ hi' (hpool j hj)

/-- Boot, then take the steps of a schedule in order. -/
def bootAndLock (c : Layout) (R : FreeRange c) (as : List (ι × Act Op Ret)) :
    Option (Locked ι) :=
  match buddyModuleInit c R.pages with
  | some s => System.execAll (fun x a => Locked.exec c x a.1 a.2) as
    ⟨s, fun _ => true, fun _ => ∅, fun _ => .idle⟩
  | none => none

theorem reachable_bootAndLock {R : FreeRange c} {as : List (ι × Act Op Ret)}
    (h : bootAndLock c R as = some x) : (lockRuns c R ι).Reachable x := by
  unfold bootAndLock at h
  split at h
  · rename_i s hs
    have h0 : (lockRuns c R ι).Reachable ⟨s, fun _ => true, fun _ => ∅, fun _ => .idle⟩ :=
      .of_init ⟨hs, fun _ => rfl, fun _ => rfl, fun _ => rfl⟩
    exact h0.run (.of_execAll (fun _ _ _ => id) h)
  · cases h

/-- CPU `1` spins on the pool CPU `0` has locked; CPU `0` waits for nobody who waits for it. -/
theorem lock_deadlock_free_two_cpus :
    let c := Layout.ofPages 2 2 (by decide) (by decide)
    ∃ x : Locked (Fin 2), bootAndLock c (FreeRange.all c) [(0, .invoke (.alloc 0)),
        (0, .internal), (1, .invoke (.alloc 0))] = some x ∧
      x.WaitsFor c 1 0 ∧ ¬ Relation.TransGen (x.WaitsFor c) 0 0 := by
  intro c
  have hrun : (bootAndLock c (FreeRange.all c) [(0, .invoke (.alloc 0)),
      (0, .internal), (1, .invoke (.alloc 0))] : Option (Locked (Fin 2))).map
        (fun x => ((x.site 0).holds c, ((x.site 1).wants c).map Prod.fst)) =
      some ([.pool 0], some (.pool 0)) := by decide
  obtain ⟨x, hx, hv⟩ := Option.map_eq_some_iff.1 hrun
  obtain ⟨h0, h1⟩ := Prod.mk.inj hv
  obtain ⟨⟨l, t⟩, hw, hl⟩ := Option.map_eq_some_iff.1 h1
  refine ⟨x, hx, ⟨l, t, hw, ?_⟩,
    lock_deadlock_free (FreeRange.all c) (Fin 2) x (reachable_bootAndLock hx) 0⟩
  rw [h0]
  cases hl
  exact List.mem_singleton_self _

/-! ### Undisturbed calls -/

namespace Site

/-- What is left of the test of the page after the block. -/
def finishAft (c : Layout) (s : Buddy) (p o : ℕ) (k : Option Rest) : Option (Ret × Buddy) :=
  if (s.pages (aftPage c p o)).Mergeable o then
    Pc.finish c (joinBlocks c s o p (aftPage c p o) (aftPage c p o)) (.freeLoop p (o + 1) k)
  else Pc.finish c s (.freeInsert p o k)

/-- What is left of the merge section once the page before the block is out. -/
def finishLook (c : Layout) (s : Buddy) (p o : ℕ) (k : Option Rest) : Option (Ret × Buddy) :=
  if c.vaValid (c.aftPgva p o) then finishAft c s p o k
  else Pc.finish c s (.freeInsert p o k)

/-- The answer and the effect of the rest of a call, when nobody disturbs it. -/
def finish (c : Layout) (s : Buddy) : Site → Option (Ret × Buddy)
  | idle | panic _ => none
  | release _ next => finish c s next
  | scan oo o | scanTest oo o => Pc.finish c s (.allocScan oo o)
  | take oo o p | takeTest oo o p =>
    let s' := s.setPool o { s.orderPools o with list := (s.orderPools o).list.erase p }
    if (s.pages p).buddyFlags = flagHead ||| flagFree ∧ (s.pages p).buddyOrder = o then
      finishSplit c
        (s'.setPage p { s.pages p with buddyFlags := flagHead, buddyOrder := oo })
        ⟨p, c.maxOrder, p + Layout.order2pgnum oo,
          Layout.order2pgnum o - Layout.order2pgnum oo⟩
    else none
  | split r => finishSplit c s r
  | carve ⟨p, i, rest, num⟩ | carveTest ⟨p, i, rest, num⟩ =>
    match bkpAllocCarve c s rest i with
    | none => none
    | some s => Pc.finish c s
        (.freeEntry rest (some ⟨p, i, rest + 1 <<< i, num - 1 <<< i⟩))
  | allocDone ret => some (.block ret, s)
  | free p k | entry p k | entryTest p k => Pc.finish c s (.freeEntry p k)
  | loop p o k | loopPage p o k | loopTest p o k => Pc.finish c s (.freeLoop p o k)
  | bef p o k | befTest p o k =>
    if (s.pages (befPage c p o)).Mergeable o then
      Pc.finish c (joinBlocks c s o (befPage c p o) p (befPage c p o))
        (.freeLoop (befPage c p o) (o + 1) k)
    else finishLook c s p o k
  | look p o k => finishLook c s p o k
  | aft p o k | aftTest p o k => finishAft c s p o k
  | insert p o k | insertPage p o k | insertTest p o k => Pc.finish c s (.freeInsert p o k)
  | freeDone => some (.unit, s)

theorem finish_ret (s : Buddy) (k : Option Rest) : (ret k).finish c s = finishRet c s k := by
  cases k <;> rfl

/-- Taking a lock changes nothing. -/
theorem finish_of_wants {s : Buddy} {t t' : Site} {l : Lock} (h : t.wants c = some (l, t')) :
    t'.finish c s = t.finish c s := by
  cases t <;> simp only [wants, reduceCtorEq] at h
  case scan | loop =>
    split_ifs at h
    cases h
    rfl
  all_goals
    cases h
    rfl

/-- The test of a pool, and the choice of its first block. -/
theorem finish_scanTest {s s' : Buddy} {oo o : ℕ} {t' : Site} (ho : o < c.maxOrder)
    (h : (scanTest oo o).act c s = some (s', t')) :
    t'.finish c s' = (scanTest oo o).finish c s := by
  have hadv := Pc.finish_advance (c := c) (s := s) (show (Pc.allocScan oo o).Running from trivial)
  simp only [Pc.advance, if_pos ho] at hadv
  simp only [act] at h
  change _ = Pc.finish c s (.allocScan oo o)
  rw [← hadv]
  split_ifs at h with h0
  · cases h
    simp only [bkpAllocTake, if_pos h0]
    rfl
  · split at h
    · rename_i hl
      cases h
      simp only [bkpAllocTake, if_neg h0, hl]
      rfl
    · rename_i p ps hl
      cases h
      simp only [bkpAllocTake, if_neg h0, hl, finish, Buddy.setPool_pages]
      split_ifs with hcond
      · simp only [Pc.finish, Buddy.setPool, Buddy.setPage, Mempool.unlink,
          Function.update_self, Function.update_idem, hl]
      · rfl

/-- The tests of the merge loop. -/
theorem finish_loopTest {s s' : Buddy} {p o : ℕ} {k : Option Rest} {t' : Site}
    (ho : o < c.maxOrder - 1) (h : (loopTest p o k).act c s = some (s', t')) :
    t'.finish c s' = (loopTest p o k).finish c s := by
  have hadv := Pc.finish_advance (c := c) (s := s) (show (Pc.freeLoop p o k).Running from trivial)
  simp only [Pc.advance, if_pos ho] at hadv
  simp only [act] at h
  change _ = Pc.finish c s (.freeLoop p o k)
  rw [← hadv]
  have haft : finishLook c s p o k = if c.vaValid (c.aftPgva p o) ∧
      (s.pages (aftPage c p o)).Mergeable o then
        Pc.finish c (joinBlocks c s o p (aftPage c p o) (aftPage c p o)) (.freeLoop p (o + 1) k)
      else Pc.finish c s (.freeInsert p o k) := by
    unfold finishLook finishAft
    split_ifs <;> tauto
  split_ifs at h with h1 h2 <;> cases h
  · by_cases hb : (s.pages (befPage c p o)).Mergeable o
    · have hb' := hb
      unfold befPage at hb'
      simp only [bkpFreeMerge, if_pos h1, if_pos (And.intro h2 hb'), finish, if_pos hb]
      rfl
    · have hb' : ¬ (c.vaValid (c.befPgva p o) ∧
          (s.pages (c.va2pg (c.befPgva p o))).Mergeable o) := fun e => hb e.2
      by_cases ha : c.vaValid (c.aftPgva p o) ∧ (s.pages (aftPage c p o)).Mergeable o
      · have ha' := ha
        unfold aftPage at ha'
        simp only [bkpFreeMerge, if_pos h1, if_neg hb', if_pos ha', finish, if_neg hb, haft,
          if_pos ha]
        rfl
      · have ha' := ha
        unfold aftPage at ha'
        simp only [bkpFreeMerge, if_pos h1, if_neg hb', if_neg ha', finish, if_neg hb, haft,
          if_neg ha]
  · have hb' : ¬ (c.vaValid (c.befPgva p o) ∧
        (s.pages (c.va2pg (c.befPgva p o))).Mergeable o) := fun e => h2 e.1
    by_cases ha : c.vaValid (c.aftPgva p o) ∧ (s.pages (aftPage c p o)).Mergeable o
    · have ha' := ha
      unfold aftPage at ha'
      simp only [bkpFreeMerge, if_pos h1, if_neg hb', if_pos ha', finish, haft, if_pos ha]
      rfl
    · have ha' := ha
      unfold aftPage at ha'
      simp only [bkpFreeMerge, if_pos h1, if_neg hb', if_neg ha', finish, haft, if_neg ha]
  · simp only [bkpFreeMerge, if_neg h1]
    rfl

/-- No step of a call changes what the whole call does. -/
theorem finish_of_act {s s' : Buddy} {t t' : Site} (hw : t.wants c = none)
    (hscan : ∀ oo o, t = scanTest oo o → o < c.maxOrder)
    (hloop : ∀ p o k, t = loopTest p o k → o < c.maxOrder - 1)
    (h : t.act c s = some (s', t')) : t'.finish c s' = t.finish c s := by
  cases t with
  | scanTest oo o => exact finish_scanTest (hscan oo o rfl) h
  | loopTest p o k => exact finish_loopTest (hloop p o k rfl) h
  | scan oo o =>
    have hadv := Pc.finish_advance (c := c) (s := s) (show (Pc.allocScan oo o).Running from trivial)
    simp only [wants, ite_eq_right_iff, reduceCtorEq, imp_false] at hw
    simp only [Pc.advance, if_neg hw] at hadv
    simp only [act] at h
    cases h
    exact hadv
  | loop p o k =>
    have hadv := Pc.finish_advance (c := c) (s := s) (show (Pc.freeLoop p o k).Running from trivial)
    simp only [wants, ite_eq_right_iff, reduceCtorEq, imp_false] at hw
    simp only [Pc.advance, if_neg hw] at hadv
    simp only [act] at h
    cases h
    exact hadv
  | release ls next =>
    cases ls <;> simp only [act, reduceCtorEq] at h
    cases h
    rfl
  | takeTest oo o p =>
    simp only [act] at h
    split_ifs at h with hcond <;> cases h
    · simp only [finish, if_pos hcond]
    · simp only [finish, if_neg hcond]
  | split r =>
    obtain ⟨p, i, rest, num⟩ := r
    have hadv := Pc.finish_advance (c := c) (s := s)
      (show (Pc.allocSplit ⟨p, i, rest, num⟩).Running from trivial)
    change _ = finishSplit c s _ at hadv
    cases i with
    | zero =>
      simp only [act] at h
      cases h
      exact hadv
    | succ i =>
      simp only [act] at h
      simp only [Pc.advance] at hadv
      split_ifs at h with h0 hbit <;> cases h
      · rw [if_pos h0] at hadv
        exact hadv
      · rw [if_neg h0, if_pos hbit] at hadv
        change _ = finishSplit c s _
        rw [← hadv]
        simp only [finish]
        rcases bkpAllocCarve c s rest i with _ | s' <;> rfl
      · rw [if_neg h0, if_neg hbit] at hadv
        exact hadv
  | carveTest r =>
    obtain ⟨p, i, rest, num⟩ := r
    simp only [act] at h
    split at h <;> rename_i hc <;> cases h <;> simp only [finish, hc]
  | free p k =>
    simp only [act] at h
    split_ifs at h with hp <;> cases h
    · rfl
    · have he : bkpFreeEntry c s p = none := if_neg fun e => hp e.1
      simp only [finish, Pc.finish, bkpFree, he]
  | entryTest p k =>
    have hadv := Pc.finish_advance (c := c) (s := s) (show (Pc.freeEntry p k).Running from trivial)
    simp only [Pc.advance] at hadv
    simp only [act] at h
    split at h <;> rename_i he <;> cases h <;> simp only [he] at hadv <;> exact hadv
  | befTest p o k =>
    simp only [act] at h
    split_ifs at h with hm <;> cases h <;> simp only [finish, hm, if_true, if_false]
  | look p o k =>
    simp only [act] at h
    split_ifs at h with hv <;> cases h <;> simp only [finish, finishLook, hv, if_true, if_false]
  | aftTest p o k =>
    simp only [act] at h
    split_ifs at h with hm <;> cases h <;> simp only [finish, finishAft, hm, if_true, if_false]
  | insertTest p o k =>
    have hadv := Pc.finish_advance (c := c) (s := s)
      (show (Pc.freeInsert p o k).Running from trivial)
    simp only [Pc.advance] at hadv
    simp only [act] at h
    split at h <;> rename_i hi <;> cases h <;> simp only [hi] at hadv
    · exact hadv
    · rw [Pc.finish_ret] at hadv
      simp only [finish, finish_ret]
      exact hadv
  | _ => simp only [act, reduceCtorEq] at h

end Site

namespace Locked

/-- While only CPU `i` takes steps, what its call does stays the same. -/
theorem finish_internal {i : ι} (h : LockInv c x) (hs : x.internal c i = some y) :
    (y.site i).finish c y.buddy = (x.site i).finish c x.buddy := by
  have hat : ∀ (z : Locked ι) (t : Site), (z.setSite i t).site i = t := fun z t =>
    Function.update_self ..
  have hok := h.ok i
  unfold internal at hs
  split at hs
  · rename_i l t hw
    split_ifs at hs
    cases hs
    rw [hat]
    exact Site.finish_of_wants hw
  · rename_i hw
    split at hs
    · rename_i l ls next heq
      cases hs
      rw [hat, heq]
      rfl
    · split at hs
      · rename_i s t' hact
        cases hs
        rw [hat]
        refine Site.finish_of_act hw (fun oo o ht => ?_) (fun p o k ht => ?_) hact
        · rw [ht] at hok
          exact hok
        · rw [ht] at hok
          have := hok.2
          omega
      · cases hs

theorem finish_run {i : ι} {as : List (ι × Act Op Ret)} (hx : (lockRuns c R ι).Reachable x)
    (hr : (lockRuns c R ι).Run x as y) (has : ∀ a ∈ as, a = (i, .internal)) :
    (y.site i).finish c y.buddy = (x.site i).finish c x.buddy := by
  induction hr with
  | nil => rfl
  | @snoc w y as a hr hs ih =>
    have has' : ∀ b ∈ as, b = (i, .internal) := fun b hb => has b (List.mem_append_left _ hb)
    rw [← ih has']
    have ha := has a (by simp)
    subst ha
    exact finish_internal (LockInv.of_reachable (hx.run hr)) hs

end Locked

/-- An allocation no other CPU disturbs is the sequential one, lock by lock. -/
theorem lock_solo_alloc {i : ι} {k : ℤ} {ret : Option ℕ} {as : List (ι × Act Op Ret)}
    (hx : (lockRuns c R ι).Reachable x)
    (hr : (lockRuns c R ι).Run x
      ((i, .invoke (.alloc k)) :: as ++ [(i, .respond (.block ret))]) y)
    (has : ∀ a ∈ as, a = (i, .internal)) : bkpAlloc c x.buddy k = some (ret, y.buddy) := by
  obtain ⟨v, w, hcall, hmid, hlast⟩ := hr.of_ends
  have hrun := Locked.finish_run (hx.step hcall) hmid has
  have hdone : w.site i = .allocDone ret ∧ w.buddy = y.buddy := by
    change w.exec c i (.respond (.block ret)) = some y at hlast
    unfold Locked.exec at hlast
    cases ret with
    | none =>
      dsimp only at hlast
      split at hlast <;> cases hlast
      rename_i hsite
      exact ⟨hsite, rfl⟩
    | some p =>
      dsimp only at hlast
      split at hlast
      · rename_i q hsite
        split_ifs at hlast with hpq
        cases hlast
        exact ⟨hpq ▸ hsite, rfl⟩
      · cases hlast
  obtain ⟨hsite, hb⟩ := hdone
  rw [hsite] at hrun
  change x.exec c i (.invoke (.alloc k)) = some v at hcall
  unfold Locked.exec at hcall
  dsimp only at hcall
  split at hcall <;> cases hcall
  rw [show (x.setSite i _).site i = _ from Function.update_self ..] at hrun
  unfold bkpAlloc
  by_cases hk : 0 ≤ k ∧ k < c.maxOrder
  · rw [if_pos hk] at hrun
    change some (Ret.block ret, w.buddy) = Pc.finish c x.buddy _ at hrun
    rw [if_neg (not_not.2 hk)]
    simp only [Pc.finish] at hrun
    split at hrun
    · cases hrun
    · rename_i heq
      rw [heq]
      cases hrun
      rw [hb]
  · rw [if_neg hk] at hrun
    change some (Ret.block ret, w.buddy) = some (Ret.block none, x.buddy) at hrun
    rw [if_pos hk]
    simp only [Option.some.injEq, Prod.mk.injEq, Ret.block.injEq] at hrun
    rw [← hb, hrun.1, hrun.2]

/-- A free no other CPU disturbs is the sequential one, lock by lock. -/
theorem lock_solo_free {i : ι} {p : ℕ} {as : List (ι × Act Op Ret)}
    (hx : (lockRuns c R ι).Reachable x)
    (hr : (lockRuns c R ι).Run x
      ((i, .invoke (.free p)) :: as ++ [(i, .respond .unit)]) y)
    (has : ∀ a ∈ as, a = (i, .internal)) : bkpFree c x.buddy p = some y.buddy := by
  obtain ⟨v, w, hcall, hmid, hlast⟩ := hr.of_ends
  have hrun := Locked.finish_run (hx.step hcall) hmid has
  change w.exec c i (.respond .unit) = some y at hlast
  unfold Locked.exec at hlast
  dsimp only at hlast
  split at hlast <;> cases hlast
  rename_i hsite
  change x.exec c i (.invoke (.free p)) = some v at hcall
  unfold Locked.exec at hcall
  dsimp only at hcall
  split at hcall
  · split_ifs at hcall
    cases hcall
    rw [hsite, show (Locked.setSite _ i _).site i = _ from Function.update_self ..] at hrun
    change some (_, w.buddy) = Pc.finish c x.buddy _ at hrun
    simp only [Pc.finish] at hrun
    split at hrun
    · cases hrun
    · rename_i heq
      rw [heq]
      cases hrun
      rfl
  · cases hcall

end Deadlock

end AcoOs
