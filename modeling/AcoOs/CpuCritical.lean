/-
The critical sections of a CPU, under all locks.

`cpu_critical_in` and `cpu_critical_out` count how deep a CPU is in critical sections, and keep the
interrupt state from before the outermost one.  All lock functions call them: `lock` once, and the
loops of the read-write locks around every iteration.

The model follows `cpu_critical.c`, `spinlock.h` and `rwlock.h`, one call of the two functions and
one atomic operation at a time.  What a CPU finds in the words of the locks is up to all CPUs.

* **`interrupts_follow_nesting`** — while a CPU has a lock its interrupts are off; when it has none
  any more they are as they were before the first one; and `cpu_critical_out` at depth 0 changes
  nothing.
-/
import AcoOs.RwLock

namespace AcoOs

open Machine

/-! ### `cpu_critical.c` -/

/-- What a CPU has for itself: the bit `SSTATUS_SIE`, `INTR_NEST[cpuid]` and
`INTR_ENABLE[cpuid]`. -/
structure CpuCritical where
  sie : Bool
  intrNest : ℤ
  intrEnable : ℤ
  deriving DecidableEq

namespace CpuCritical

/-- `cpu_intr_get`. -/
def cpuIntrGet (c : CpuCritical) : ℤ := if c.sie then 1 else 0

/-- `cpu_intr_off`. -/
def cpuIntrOff (c : CpuCritical) : CpuCritical := { c with sie := false }

/-- `cpu_intr_on`. -/
def cpuIntrOn (c : CpuCritical) : CpuCritical := { c with sie := true }

/-- `cpu_intr_restore`. -/
def cpuIntrRestore (c : CpuCritical) (intrEnable : ℤ) : CpuCritical :=
  if intrEnable ≠ 0 then c.cpuIntrOn else c.cpuIntrOff

/-- `cpu_critical_in`; to count beyond an `int` is undefined. -/
def cpuCriticalIn (c : CpuCritical) : Option (ℤ × CpuCritical) :=
  let localCpuState := c.cpuIntrGet
  let c := c.cpuIntrOff
  let c := if c.intrNest = 0 then { c with intrEnable := localCpuState } else c
  if c.intrNest + 1 < 2 ^ 31 then
    some (c.intrNest + 1, { c with intrNest := c.intrNest + 1 })
  else none

/-- `cpu_critical_out`. -/
def cpuCriticalOut (c : CpuCritical) : ℤ × CpuCritical :=
  let localCpuState := c.cpuIntrGet
  let c := c.cpuIntrOff
  if c.intrNest = 0 then (0, c.cpuIntrRestore localCpuState)
  else
    let c := { c with intrNest := c.intrNest - 1 }
    if c.intrNest = 0 then (0, c.cpuIntrRestore c.intrEnable) else (c.intrNest, c)

/-- Outside of all critical sections the interrupts are `on` or not, and inside this is kept. -/
structure Saved (on : Bool) (c : CpuCritical) : Prop where
  outside : c.intrNest = 0 → c.sie = on
  inside : c.intrNest ≠ 0 → (c.intrEnable ≠ 0 ↔ on = true)

variable {c x : CpuCritical} {on : Bool} {depth : ℤ}

theorem cpuIntrRestore_sie (c : CpuCritical) (v : ℤ) :
    (c.cpuIntrRestore v).sie = decide (v ≠ 0) := by
  unfold cpuIntrRestore
  by_cases h : v = 0
  · rw [if_neg (not_not.2 h), h]
    rfl
  · rw [if_pos h, decide_eq_true h]
    rfl

theorem cpuIntrGet_ne_zero (c : CpuCritical) : c.cpuIntrGet ≠ 0 ↔ c.sie = true := by
  unfold cpuIntrGet
  cases c.sie <;> decide

theorem cpuCriticalIn_some (h : c.cpuCriticalIn = some (depth, x)) :
    depth = c.intrNest + 1 ∧ x.intrNest = c.intrNest + 1 ∧ x.sie = false ∧
      x.intrEnable = if c.intrNest = 0 then c.cpuIntrGet else c.intrEnable := by
  have hnest : (if c.cpuIntrOff.intrNest = 0 then
      { c.cpuIntrOff with intrEnable := c.cpuIntrGet } else c.cpuIntrOff).intrNest =
      c.intrNest := by
    split <;> rfl
  unfold cpuCriticalIn at h
  dsimp only at h
  rw [hnest] at h
  by_cases hlt : c.intrNest + 1 < 2 ^ 31
  · rw [if_pos hlt] at h
    cases h
    refine ⟨rfl, rfl, ?_, ?_⟩
    · show (ite _ _ _ : CpuCritical).sie = false
      split <;> rfl
    · show (ite _ _ _ : CpuCritical).intrEnable = _
      by_cases h0 : c.intrNest = 0
      · rw [if_pos h0, if_pos (show c.cpuIntrOff.intrNest = 0 from h0)]
      · rw [if_neg h0, if_neg (show ¬ c.cpuIntrOff.intrNest = 0 from h0)]
        rfl
  · rw [if_neg hlt] at h
    cases h

/-- At depth 0 a call of `cpu_critical_out` changes nothing. -/
theorem cpuCriticalOut_zero (h : c.intrNest = 0) : c.cpuCriticalOut = (0, c) := by
  unfold cpuCriticalOut
  dsimp only
  rw [if_pos (show c.cpuIntrOff.intrNest = 0 from h)]
  refine congrArg (Prod.mk 0) ?_
  obtain ⟨sie, nest, enable⟩ := c
  cases sie <;> rfl

theorem cpuCriticalOut_pos (h : 0 < c.intrNest) :
    c.cpuCriticalOut.1 = c.intrNest - 1 ∧ c.cpuCriticalOut.2.intrNest = c.intrNest - 1 ∧
      c.cpuCriticalOut.2.intrEnable = c.intrEnable ∧
      c.cpuCriticalOut.2.sie = decide (c.intrNest = 1 ∧ c.intrEnable ≠ 0) := by
  unfold cpuCriticalOut
  dsimp only
  rw [if_neg (show ¬ c.cpuIntrOff.intrNest = 0 from h.ne')]
  by_cases h1 : c.intrNest = 1
  · have h0 : c.cpuIntrOff.intrNest - 1 = 0 := by
      show c.intrNest - 1 = 0
      omega
    rw [if_pos h0]
    refine ⟨by omega, ?_, ?_, ?_⟩
    · unfold cpuIntrRestore
      split <;> rfl
    · unfold cpuIntrRestore
      split <;> rfl
    · dsimp only
      rw [cpuIntrRestore_sie]
      simp only [h1, true_and]
      rfl
  · have h0 : ¬ c.cpuIntrOff.intrNest - 1 = 0 := by
      show ¬ c.intrNest - 1 = 0
      omega
    rw [if_neg h0]
    refine ⟨rfl, rfl, rfl, ?_⟩
    simp only [h1, false_and]
    rfl

theorem Saved.cpuCriticalIn (hs : Saved on c) (h0 : 0 ≤ c.intrNest)
    (h : c.cpuCriticalIn = some (depth, x)) : Saved on x := by
  obtain ⟨-, hnest, -, henable⟩ := cpuCriticalIn_some h
  refine ⟨fun hx => by omega, fun _ => ?_⟩
  rw [henable]
  by_cases hc : c.intrNest = 0
  · rw [if_pos hc, cpuIntrGet_ne_zero, hs.outside hc]
  · rw [if_neg hc]
    exact hs.inside hc

theorem Saved.cpuCriticalOut (hs : Saved on c) (h0 : 0 < c.intrNest) :
    Saved on c.cpuCriticalOut.2 := by
  obtain ⟨-, hnest, henable, hsie⟩ := cpuCriticalOut_pos h0
  have hin := hs.inside h0.ne'
  refine ⟨fun hx => ?_, fun hx => by rw [henable]; exact hin⟩
  rw [hsie, Bool.eq_iff_iff, decide_eq_true_iff]
  exact ⟨fun h => hin.1 h.2, fun h => ⟨by omega, hin.2 h⟩⟩

end CpuCritical

/-! ### The lock functions -/

variable {S R : Type*}

/-- The words of the spinlocks `S` and of the read-write locks `R`. -/
structure LockWords (S R : Type*) where
  spin : S → ℕ
  rwlock : R → RwLock

/-- A spinlock is taken in a call of `lock`, or in the loop of a function for a read-write lock. -/
inductive LockSite (S R : Type*)
  | user (s : S)
  | loop (op : RwOp) (l : R)
  deriving DecidableEq

/-- A lock that a CPU has: a spinlock, the spinlock in a read-write lock, or a read-write lock. -/
inductive HeldLock (S R : Type*)
  | spin (s : S)
  | inner (l : R)
  | rw (op : RwOp) (l : R)
  deriving DecidableEq

/-- What a CPU does next.  Behind `unlockOr` and `unlockOut` it says whether the loop has got the
read-write lock. -/
inductive LockPoint (S R : Type*)
  | idle
  /-- `lock`. -/
  | lockIn (k : LockSite S R)
  | lockSpin (k : LockSite S R)
  /-- `unlock`. -/
  | unlockOr (k : LockSite S R) (won : Bool)
  | unlockOut (k : LockSite S R) (won : Bool)
  /-- The loops of `r_lock`, `w_lock` and `w_lock_br`. -/
  | loopIn (op : RwOp) (l : R)
  | testWriters (op : RwOp) (l : R)
  | testReaders (l : R)
  | count (op : RwOp) (l : R)
  | loopOut (op : RwOp) (l : R)
  | drain (l : R)
  /-- `r_unlock`, `w_unlock` and `w_unlock_br`. -/
  | uncount (op : RwOp) (l : R)
  | uncountOut
  deriving DecidableEq

/-- A CPU, and the locks that it has. -/
structure LockingCpu (S R : Type*) where
  critical : CpuCritical
  held : Multiset (HeldLock S R)
  point : LockPoint S R

/-- The calls: the lock functions, a call of `cpu_critical_out` too many, and a change of the
interrupt state by the rest of the kernel. -/
inductive LockCall (S R : Type*)
  | lock (s : S)
  | unlock (s : S)
  | rwLock (op : RwOp) (l : R)
  | rwUnlock (op : RwOp) (l : R)
  | criticalOut
  | intr (on : Bool)
  deriving DecidableEq

namespace LockSite

/-- The spinlock of a call. -/
def lock : LockSite S R → HeldLock S R
  | user s => .spin s
  | loop _ l => .inner l

/-- The word of the spinlock. -/
def word (m : LockWords S R) : LockSite S R → ℕ
  | user s => m.spin s
  | loop _ l => (m.rwlock l).lk

variable [DecidableEq S] [DecidableEq R]

/-- Write the word of the spinlock. -/
def setWord (m : LockWords S R) (v : ℕ) : LockSite S R → LockWords S R
  | user s => { m with spin := Function.update m.spin s v }
  | loop _ l => { m with rwlock := Function.update m.rwlock l { m.rwlock l with lk := v } }

end LockSite

namespace LockWords

variable [DecidableEq R]

/-- Write the counter of the readers. -/
def setReaders (m : LockWords S R) (l : R) (v : ℕ) : LockWords S R :=
  { m with rwlock := Function.update m.rwlock l { m.rwlock l with readers := v } }

/-- Write the counter of the writers. -/
def setWriters (m : LockWords S R) (l : R) (v : ℕ) : LockWords S R :=
  { m with rwlock := Function.update m.rwlock l { m.rwlock l with writers := v } }

/-- Count a CPU into the readers or the writers. -/
def raise (m : LockWords S R) (op : RwOp) (l : R) : LockWords S R :=
  match op with
  | .read => m.setReaders l (atomicFetchAndAdd (m.rwlock l).readers 1).2
  | _ => m.setWriters l (atomicFetchAndAdd (m.rwlock l).writers 1).2

/-- Count a CPU out of them. -/
def lower (m : LockWords S R) (op : RwOp) (l : R) : LockWords S R :=
  match op with
  | .read => m.setReaders l (atomicFetchAndSub (m.rwlock l).readers 1).2
  | _ => m.setWriters l (atomicFetchAndSub (m.rwlock l).writers 1).2

end LockWords

namespace LockingCpu

variable [DecidableEq S] [DecidableEq R]

/-- One statement of a lock function. -/
def act (m : LockWords S R) (c : LockingCpu S R) : Option (LockWords S R × LockingCpu S R) :=
  match c.point with
  | .idle => none
  | .lockIn k =>
    match c.critical.cpuCriticalIn with
    | none => none
    | some (_, x) => some (m, { c with critical := x, point := .lockSpin k })
  | .lockSpin k =>
    let (old, v) := atomicFetchAndAnd (k.word m) 0
    let m := k.setWord m v
    if old = 0 then some (m, c)
    else some (m, { c with
      held := k.lock ::ₘ c.held
      point := match k with
        | .user _ => .idle
        | .loop op l => .testWriters op l })
  | .unlockOr k won =>
    some (k.setWord m (atomicFetchAndOr (k.word m) 1).2, { c with
      held := c.held.erase k.lock
      point := .unlockOut k won })
  | .unlockOut k won =>
    some (m, { c with
      critical := c.critical.cpuCriticalOut.2
      point := match k, won with
        | .user _, _ => .idle
        | .loop .writeBr l, true => .drain l
        | .loop _ _, true => .idle
        | .loop op l, false => .loopOut op l })
  | .loopIn op l =>
    match c.critical.cpuCriticalIn with
    | none => none
    | some (_, x) => some (m, { c with critical := x, point := .lockIn (.loop op l) })
  | .testWriters op l =>
    let (old, v) := atomicFetchAndAdd (m.rwlock l).writers 0
    some (m.setWriters l v, { c with
      point := if old = 0 then (if op = .write then .testReaders l else .count op l)
        else .unlockOr (.loop op l) false })
  | .testReaders l =>
    let (old, v) := atomicFetchAndAdd (m.rwlock l).readers 0
    some (m.setReaders l v, { c with
      point := if old = 0 then .count .write l else .unlockOr (.loop .write l) false })
  | .count op l =>
    some (m.raise op l, { c with
      held := .rw op l ::ₘ c.held
      point := .unlockOr (.loop op l) true })
  | .loopOut op l =>
    -- somebody is in the way: out of the critical section and in again
    some (m, { c with critical := c.critical.cpuCriticalOut.2, point := .loopIn op l })
  | .drain l =>
    let (old, v) := atomicFetchAndAdd (m.rwlock l).readers 0
    some (m.setReaders l v, { c with point := if old ≠ 0 then .drain l else .idle })
  | .uncount op l =>
    some (m.lower op l, { c with held := c.held.erase (.rw op l), point := .uncountOut })
  | .uncountOut => some (m, { c with critical := c.critical.cpuCriticalOut.2, point := .idle })

/-- A call between two lock functions; only locks that the CPU has are unlocked. -/
def call (c : LockingCpu S R) (k : LockCall S R) : Option (LockingCpu S R) :=
  match c.point, k with
  | .idle, .lock s => some { c with point := .lockIn (.user s) }
  | .idle, .unlock s =>
    if .spin s ∈ c.held then some { c with point := .unlockOr (.user s) true } else none
  | .idle, .rwLock op l => some { c with point := .loopIn op l }
  | .idle, .rwUnlock op l =>
    if .rw op l ∈ c.held then some { c with point := .uncount op l } else none
  | .idle, .criticalOut =>
    if c.critical.intrNest = 0 then some { c with critical := c.critical.cpuCriticalOut.2 }
    else none
  | .idle, .intr on =>
    if c.held = 0 then
      some { c with critical := if on then c.critical.cpuIntrOn else c.critical.cpuIntrOff }
    else none
  | _, _ => none

end LockingCpu

variable {C : Cpus}

/-- The CPUs and the locks. -/
structure LockingCpus (C : Cpus) (S R : Type*) where
  words : LockWords S R
  cpu : Fin C.num → LockingCpu S R

/-- A CPU calls a function, or does a statement of the one it is in. -/
inductive LockAct (S R : Type*)
  | call (k : LockCall S R)
  | statement
  deriving DecidableEq

/-- What CPU `i` does next, if its code has such a step. -/
def LockingCpus.exec [DecidableEq S] [DecidableEq R] (x : LockingCpus C S R) (i : Fin C.num) :
    LockAct S R → Option (LockingCpus C S R)
  | .call k => ((x.cpu i).call k).map fun c => { x with cpu := Function.update x.cpu i c }
  | .statement => ((x.cpu i).act x.words).map fun (m, c) => ⟨m, Function.update x.cpu i c⟩

/-- No lock function is running, and the CPU has no lock. -/
def LockingCpu.AtRest (c : LockingCpu S R) : Prop := c.point = .idle ∧ c.held = 0

/-- The CPUs of `C` on the locks, in any interleaving.  The locks are open, `INTR_NEST` and
`INTR_ENABLE` are in the bss. -/
def lockingRuns (C : Cpus) (S R : Type*) [DecidableEq S] [DecidableEq R] :
    System (LockingCpus C S R) (Fin C.num × LockAct S R) where
  init x := x.words = ⟨fun _ => 1, fun _ => .initVal⟩ ∧ ∀ i, (x.cpu i).AtRest ∧
    (x.cpu i).critical.intrNest = 0 ∧ (x.cpu i).critical.intrEnable = 0
  step x a y := x.exec a.1 a.2 = some y

/-! ### What a step does to the depth -/

namespace LockPoint

/-- How much deeper the CPU is than the locks that it has say. -/
def extra : LockPoint S R → ℕ
  | idle | lockIn (.user _) | unlockOr (.user _) _ | loopIn _ _ | unlockOr (.loop _ _) true
  | drain _ | uncount _ _ => 0
  | lockSpin (.user _) | unlockOut (.user _) _ | lockIn (.loop _ _) | testWriters _ _
  | testReaders _ | count _ _ | unlockOr (.loop _ _) false | unlockOut (.loop _ _) true
  | loopOut _ _ | uncountOut => 1
  | lockSpin (.loop _ _) | unlockOut (.loop _ _) false => 2

/-- The lock that the CPU will give back in the function it is in. -/
def own : LockPoint S R → Option (HeldLock S R)
  | testWriters _ l | testReaders l | count _ l => some (.inner l)
  | unlockOr k _ => some k.lock
  | uncount op l => some (.rw op l)
  | _ => none

end LockPoint

namespace LockingCpu

variable {c c' d : LockingCpu S R} {m m' : LockWords S R} {on : Bool}

/-- What a statement can do: it goes on, enters or leaves a critical section, takes a lock or gives
one back. -/
inductive Move [DecidableEq S] [DecidableEq R] (c : LockingCpu S R) : LockingCpu S R → Prop
  | goOn {p : LockPoint S R} (he : p.extra = c.point.extra)
      (ho : ∀ a ∈ p.own, a ∈ c.point.own ∨ a ∈ c.held) : Move c { c with point := p }
  | enter {depth : ℤ} {x : CpuCritical} {p : LockPoint S R}
      (h : c.critical.cpuCriticalIn = some (depth, x)) (he : p.extra = c.point.extra + 1)
      (ho : p.own = none) : Move c { c with critical := x, point := p }
  | leave {p : LockPoint S R} (he : p.extra + 1 = c.point.extra) (ho : p.own = none) :
      Move c { c with critical := c.critical.cpuCriticalOut.2, point := p }
  | take {a : HeldLock S R} {p : LockPoint S R} (he : p.extra + 1 = c.point.extra)
      (ho : ∀ b ∈ p.own, b = a ∨ b ∈ c.point.own) :
      Move c { c with held := a ::ₘ c.held, point := p }
  | drop {a : HeldLock S R} {p : LockPoint S R} (ha : a ∈ c.point.own)
      (he : p.extra = c.point.extra + 1) (ho : p.own = none) :
      Move c { c with held := c.held.erase a, point := p }

/-- The depth and the interrupt state of a CPU. -/
structure Inv (c : LockingCpu S R) : Prop where
  depth : c.critical.intrNest = c.held.card + c.point.extra
  off : 0 < c.critical.intrNest → c.critical.sie = false
  own : ∀ a ∈ c.point.own, a ∈ c.held

theorem Inv.nonneg (h : c.Inv) : 0 ≤ c.critical.intrNest := by
  rw [h.depth]
  omega

theorem Inv.held (h : c.Inv) (hne : c.held ≠ 0) : 0 < c.critical.intrNest := by
  have := Multiset.card_pos.2 hne
  rw [h.depth]
  omega

theorem AtRest.depth (hr : c.AtRest) (h : c.Inv) : c.critical.intrNest = 0 := by
  rw [h.depth, hr.1, hr.2]
  rfl

variable [DecidableEq S] [DecidableEq R]

theorem act_move (h : c.act m = some (m', c')) : Move c c' := by
  obtain ⟨x, held, p⟩ := c
  cases p with
  | idle => cases h
  | lockIn k =>
    cases hin : x.cpuCriticalIn with
    | none =>
      simp only [act, hin] at h
      cases h
    | some r =>
      simp only [act, hin] at h
      cases h
      exact .enter hin (by cases k <;> rfl) rfl
  | lockSpin k =>
    by_cases hold : (atomicFetchAndAnd (k.word m) 0).1 = 0
    · simp only [act, hold, if_true] at h
      cases h
      exact .goOn rfl fun a ha => .inl ha
    · simp only [act, hold, if_false] at h
      cases h
      cases k with
      | user s => exact .take rfl nofun
      | loop op l =>
        refine .take rfl fun b hb => .inl ?_
        cases hb
        rfl
  | unlockOr k won =>
    cases h
    refine .drop rfl ?_ rfl
    cases k <;> cases won <;> rfl
  | unlockOut k won =>
    cases h
    refine .leave ?_ ?_ <;> cases k with
      | user s => rfl
      | loop op l => cases won <;> cases op <;> rfl
  | loopIn op l =>
    cases hin : x.cpuCriticalIn with
    | none =>
      simp only [act, hin] at h
      cases h
    | some r =>
      simp only [act, hin] at h
      cases h
      exact .enter hin rfl rfl
  | testWriters op l =>
    cases h
    refine .goOn ?_ fun a ha => .inl ?_
    · split
      · split <;> rfl
      · rfl
    · split at ha
      · split at ha <;> exact ha
      · exact ha
  | testReaders l =>
    cases h
    refine .goOn ?_ fun a ha => .inl ?_
    · split <;> rfl
    · split at ha <;> exact ha
  | count op l =>
    cases h
    exact .take rfl fun b hb => .inr hb
  | loopOut op l =>
    cases h
    exact .leave rfl rfl
  | drain l =>
    cases h
    refine .goOn ?_ fun a ha => ?_
    · split <;> rfl
    · split at ha <;> cases ha
  | uncount op l =>
    cases h
    exact .drop rfl rfl rfl
  | uncountOut =>
    cases h
    exact .leave rfl rfl

/-- A call goes on, or it is one of the last two. -/
theorem call_cases {k : LockCall S R} (h : c.call k = some c') :
    Move c c' ∨
    c.critical.intrNest = 0 ∧ c' = { c with critical := c.critical.cpuCriticalOut.2 } ∨
    ∃ on, k = .intr on ∧ c.held = 0 ∧ c'.critical.intrNest = c.critical.intrNest ∧
      c'.held = c.held ∧ c'.point = c.point ∧ c.point = .idle := by
  obtain ⟨x, held, p⟩ := c
  cases p with
  | idle =>
    cases k with
    | lock s =>
      cases h
      exact .inl (.goOn rfl nofun)
    | unlock s =>
      by_cases hm : HeldLock.spin s ∈ held
      · simp only [call, hm, if_true] at h
        cases h
        refine .inl (.goOn rfl fun a ha => .inr ?_)
        cases ha
        exact hm
      · simp only [call, hm, if_false] at h
        cases h
    | rwLock op l =>
      cases h
      exact .inl (.goOn rfl nofun)
    | rwUnlock op l =>
      by_cases hm : HeldLock.rw op l ∈ held
      · simp only [call, hm, if_true] at h
        cases h
        refine .inl (.goOn rfl fun a ha => .inr ?_)
        cases ha
        exact hm
      · simp only [call, hm, if_false] at h
        cases h
    | criticalOut =>
      by_cases h0 : x.intrNest = 0
      · simp only [call, h0, if_true] at h
        cases h
        exact .inr (.inl ⟨h0, rfl⟩)
      · simp only [call, h0, if_false] at h
        cases h
    | intr on =>
      by_cases h0 : held = 0
      · simp only [call, h0, if_true] at h
        cases h
        refine .inr (.inr ⟨on, rfl, h0, ?_, h0.symm, rfl, rfl⟩)
        cases on <;> rfl
      · simp only [call, h0, if_false] at h
        cases h
  | _ => cases h

/-! ### The invariant -/

theorem Move.inv (h : Move c c') (hi : c.Inv) : c'.Inv := by
  have hdepth := hi.depth
  cases h with
  | goOn he ho =>
    refine ⟨?_, hi.off, fun a ha => (ho a ha).elim (hi.own a) id⟩
    show c.critical.intrNest = c.held.card + _
    rw [he]
    exact hdepth
  | @enter depth x p hin he ho =>
    obtain ⟨-, hnest, hsie, -⟩ := CpuCritical.cpuCriticalIn_some hin
    refine ⟨?_, fun _ => hsie, fun a ha => ?_⟩
    · show x.intrNest = c.held.card + p.extra
      omega
    · rw [show LockPoint.own _ = none from ho] at ha
      cases ha
  | @leave p he ho =>
    have hpos : 0 < c.critical.intrNest := by omega
    obtain ⟨-, hnest, -, hsie⟩ := CpuCritical.cpuCriticalOut_pos hpos
    refine ⟨?_, fun h0 => ?_, fun a ha => ?_⟩
    · show c.critical.cpuCriticalOut.2.intrNest = c.held.card + p.extra
      omega
    · rw [show CpuCritical.intrNest _ = _ from hnest] at h0
      show c.critical.cpuCriticalOut.2.sie = false
      rw [hsie, decide_eq_false_iff_not]
      omega
    · rw [show LockPoint.own _ = none from ho] at ha
      cases ha
  | @take a p he ho =>
    refine ⟨?_, hi.off, fun b hb => ?_⟩
    · show c.critical.intrNest = (a ::ₘ c.held).card + p.extra
      rw [Multiset.card_cons]
      omega
    · rw [Multiset.mem_cons]
      exact (ho b hb).imp id (hi.own b)
  | @drop a p ha he ho =>
    have hmem := hi.own a ha
    have hcard := Multiset.card_erase_add_one hmem
    refine ⟨?_, hi.off, fun b hb => ?_⟩
    · show c.critical.intrNest = (c.held.erase a).card + p.extra
      omega
    · rw [show LockPoint.own _ = none from ho] at hb
      cases hb

theorem Move.saved (h : Move c c') (hi : c.Inv) (hs : c.critical.Saved on) :
    c'.critical.Saved on := by
  cases h with
  | goOn he ho => exact hs
  | enter hin he ho => exact hs.cpuCriticalIn hi.nonneg hin
  | leave he ho =>
    have hdepth := hi.depth
    exact hs.cpuCriticalOut (by omega)
  | take he ho => exact hs
  | drop ha he ho => exact hs

end LockingCpu

section Runs

variable [DecidableEq S] [DecidableEq R] {x y : LockingCpus C S R} {i j : Fin C.num} {on : Bool}

namespace LockingCpus

/-- A CPU changes only itself and the words of the locks. -/
theorem exec_cases {a : LockAct S R} (h : x.exec i a = some y) :
    ∃ c, y.cpu = Function.update x.cpu i c ∧
      (LockingCpu.Move (x.cpu i) c ∨ ∃ k, a = .call k ∧ (x.cpu i).call k = some c) := by
  cases a with
  | call k =>
    obtain ⟨c, hc, rfl⟩ := Option.map_eq_some_iff.1 h
    exact ⟨c, rfl, .inr ⟨k, rfl, hc⟩⟩
  | statement =>
    obtain ⟨⟨m, c⟩, hc, rfl⟩ := Option.map_eq_some_iff.1 h
    exact ⟨c, rfl, .inl (LockingCpu.act_move hc)⟩

theorem inv_exec {a : LockAct S R} (h : x.exec i a = some y) (hi : ∀ j, (x.cpu j).Inv)
    (j : Fin C.num) : (y.cpu j).Inv := by
  obtain ⟨c, hcpu, hc⟩ := exec_cases h
  rw [hcpu]
  by_cases hj : j = i
  swap
  · rw [Function.update_of_ne hj]
    exact hi j
  rw [hj, Function.update_self]
  have hinv := hi i
  rcases hc with hmove | ⟨k, -, hcall⟩
  · exact hmove.inv hinv
  rcases LockingCpu.call_cases hcall with hmove | ⟨h0, rfl⟩ | ⟨on, -, hheld, hnest, hh, hp, hidle⟩
  · exact hmove.inv hinv
  · rw [CpuCritical.cpuCriticalOut_zero h0]
    exact hinv
  · have h0 : (x.cpu i).critical.intrNest = 0 := LockingCpu.AtRest.depth ⟨hidle, hheld⟩ hinv
    refine ⟨?_, fun hpos => by omega, fun a ha => ?_⟩
    · rw [hnest, hh, hp]
      exact hinv.depth
    · rw [hp, hidle] at ha
      cases ha

theorem inv_reachable (h : (lockingRuns C S R).Reachable x) (i : Fin C.num) : (x.cpu i).Inv := by
  refine h.invariant (P := fun x => ∀ i, (x.cpu i).Inv) (fun x h0 i => ?_)
    (fun x a y _ hi hs => inv_exec hs hi) i
  obtain ⟨hrest, hnest, -⟩ := h0.2 i
  refine ⟨?_, fun hpos => by omega, fun a ha => ?_⟩
  · rw [hnest, hrest.1, hrest.2]
    rfl
  · rw [hrest.1] at ha
    cases ha

theorem saved_exec {a : LockAct S R} (h : x.exec j a = some y) (hi : (x.cpu i).Inv)
    (hintr : ∀ on, (j, a) ≠ (i, .call (.intr on))) (hs : (x.cpu i).critical.Saved on) :
    (y.cpu i).critical.Saved on := by
  obtain ⟨c, hcpu, hc⟩ := exec_cases h
  rw [hcpu]
  by_cases hj : i = j
  swap
  · rw [Function.update_of_ne hj]
    exact hs
  subst hj
  rw [Function.update_self]
  rcases hc with hmove | ⟨k, rfl, hcall⟩
  · exact hmove.saved hi hs
  rcases LockingCpu.call_cases hcall with hmove | ⟨h0, rfl⟩ | ⟨on', rfl, -⟩
  · exact hmove.saved hi hs
  · rw [CpuCritical.cpuCriticalOut_zero h0]
    exact hs
  · exact absurd rfl (hintr on')

/-- From a moment on when the CPU is in no critical section, its interrupt state is kept. -/
theorem saved_run {as : List (Fin C.num × LockAct S R)} (h : (lockingRuns C S R).Reachable x)
    (hr : (lockingRuns C S R).Run x as y) (h0 : (x.cpu i).critical.intrNest = 0)
    (hintr : ∀ a ∈ as, ∀ on, a ≠ (i, .call (.intr on))) :
    (y.cpu i).critical.Saved (x.cpu i).critical.sie := by
  induction hr with
  | nil => exact ⟨fun _ => rfl, fun hne => absurd h0 hne⟩
  | snoc hr hs ih =>
    refine saved_exec hs (inv_reachable (h.run hr) i) (fun on => ?_) (ih fun a ha =>
      hintr a (List.mem_append_left _ ha))
    exact hintr _ (List.mem_append_right _ (List.mem_singleton_self _)) on

end LockingCpus

/-- **The interrupt state follows the nesting of the locks.**  For every CPU at every moment of a
run: its interrupts are off while it has a lock, they are as they were before the first lock when
the last one has been given back, and at depth 0 `cpu_critical_out` changes nothing. -/
theorem interrupts_follow_nesting (h : (lockingRuns C S R).Reachable x) (i : Fin C.num) :
    ((x.cpu i).held ≠ 0 → (x.cpu i).critical.sie = false) ∧
    (∀ as y, (lockingRuns C S R).Run x as y → (x.cpu i).AtRest → (y.cpu i).AtRest →
      (∀ a ∈ as, ∀ on, a ≠ (i, .call (.intr on))) →
      (y.cpu i).critical.sie = (x.cpu i).critical.sie) ∧
    ((x.cpu i).critical.intrNest = 0 →
      (x.cpu i).critical.cpuCriticalOut = (0, (x.cpu i).critical)) := by
  have hinv := LockingCpus.inv_reachable h i
  refine ⟨fun hne => hinv.off (hinv.held hne), fun as y hr hx hy hintr => ?_,
    CpuCritical.cpuCriticalOut_zero⟩
  -- the run keeps what was saved; at rest the depth is 0 again
  have hsaved := LockingCpus.saved_run h hr (hx.depth hinv) hintr
  exact hsaved.outside (hy.depth (LockingCpus.inv_reachable (h.run hr) i))

end Runs

theorem two_cpus_int : 2 < 2 ^ 31 := by norm_num

/-- Two CPUs. -/
def twoCpus : Cpus := ⟨2, two_cpus_int⟩

/-- Number 0. -/
def retryWriter : Fin twoCpus.num := ⟨0, Nat.two_pos⟩

/-- Number 1. -/
def retryReader : Fin twoCpus.num := ⟨1, Nat.one_lt_two⟩

/-- With the interrupts of both CPUs on, number 1 tries to read while number 0 writes, and gets the
lock at the second try. -/
def retryRun : List (Fin twoCpus.num × LockAct Unit Unit) :=
  List.flatten
    [[(retryWriter, .call (.rwLock .write ()))], List.replicate 8 (retryWriter, .statement),
      [(retryReader, .call (.rwLock .read ()))], List.replicate 7 (retryReader, .statement),
      [(retryWriter, .call (.rwUnlock .write ()))], List.replicate 2 (retryWriter, .statement),
      List.replicate 7 (retryReader, .statement),
      [(retryReader, .call (.rwUnlock .read ()))], List.replicate 2 (retryReader, .statement)]

/-- The state at the beginning of that run. -/
def retryStart : LockingCpus twoCpus Unit Unit :=
  ⟨⟨fun _ => 1, fun _ => .initVal⟩, fun _ => ⟨⟨true, 0, 0⟩, 0, .idle⟩⟩

theorem interrupts_follow_nesting_retry : ∃ y,
    System.execAll (fun x a => LockingCpus.exec x a.1 a.2) retryRun retryStart = some y ∧
      (y.cpu retryReader).critical.sie = true := by
  have hrun : (System.execAll (fun x (a : Fin twoCpus.num × LockAct Unit Unit) =>
      LockingCpus.exec x a.1 a.2) retryRun retryStart).map (fun y =>
        decide ((y.cpu retryReader).point = .idle ∧ (y.cpu retryReader).held = 0)) = some true := by
    decide +kernel
  obtain ⟨y, hy, hrest⟩ := Option.map_eq_some_iff.1 hrun
  have h0 : (lockingRuns twoCpus Unit Unit).Reachable retryStart :=
    .of_init ⟨rfl, fun _ => ⟨⟨rfl, rfl⟩, rfl, rfl⟩⟩
  refine ⟨y, hy, (interrupts_follow_nesting h0 retryReader).2.1 retryRun y
    (.of_execAll (fun _ _ _ h => h) hy) ⟨rfl, rfl⟩
    (show (y.cpu retryReader).point = .idle ∧ (y.cpu retryReader).held = 0 from
      of_decide_eq_true hrest) fun a ha on => ?_⟩
  rintro rfl
  revert ha
  cases on <;> decide

end AcoOs
