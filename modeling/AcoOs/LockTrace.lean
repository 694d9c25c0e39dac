/-
Sequences of lock operations of one CPU.

While the other CPUs do nothing, a call either goes through the loops of the lock functions at the
first try or stays in them forever.  `runOps` says what a sequence of operations makes of the locks
and of the nesting depth of the CPU, and `Apart v` that it leaves the counters of the read-write
lock `v`, and the depth, as they were.
-/
import AcoOs.RwLock

namespace AcoOs

/-! ### The operations -/

/-- The spinlocks: those of a pool, a page descriptor and a slab cache, and the one in the
read-write lock of a `vma_t`. -/
inductive SpinId
  | pool (order : ℕ)
  | page (pgfm : ℕ)
  | cache (kmmCache : ℕ)
  | rwlock (vma : ℕ)
  deriving DecidableEq

/-- The words of the locks, and `INTR_NEST` of the CPU. -/
structure Locks where
  nest : ℕ
  spin : SpinId → ℕ
  readers : ℕ → ℕ
  writers : ℕ → ℕ

namespace Locks

/-- The nesting of `cpu_critical_in`. -/
def cpuCriticalIn (w : Locks) : Locks := { w with nest := w.nest + 1 }

/-- The nesting of `cpu_critical_out`; zero stays zero. -/
def cpuCriticalOut (w : Locks) : Locks := { w with nest := w.nest - 1 }

/-- `lock`; `none` when it spins. -/
def lock (w : Locks) (s : SpinId) : Option Locks :=
  let w := w.cpuCriticalIn
  let (old, value) := atomicFetchAndAnd (w.spin s) 0
  if old = 0 then none else some { w with spin := Function.update w.spin s value }

/-- `unlock`. -/
def unlock (w : Locks) (s : SpinId) : Locks :=
  { w with spin := Function.update w.spin s (atomicFetchAndOr (w.spin s) 1).2 }.cpuCriticalOut

/-- Write the counter of the readers. -/
def setReaders (w : Locks) (vma n : ℕ) : Locks :=
  { w with readers := Function.update w.readers vma n }

/-- Write the counter of the writers. -/
def setWriters (w : Locks) (vma n : ℕ) : Locks :=
  { w with writers := Function.update w.writers vma n }

/-- `r_lock`; `none` when it goes on trying. -/
def rLock (w : Locks) (vma : ℕ) : Option Locks :=
  match w.cpuCriticalIn.lock (.rwlock vma) with
  | none => none
  | some w =>
    if (atomicFetchAndAdd (w.writers vma) 0).1 = 0 then
      some ((w.setReaders vma (atomicFetchAndAdd (w.readers vma) 1).2).unlock (.rwlock vma))
    else none

/-- `r_unlock`. -/
def rUnlock (w : Locks) (vma : ℕ) : Locks :=
  (w.setReaders vma (atomicFetchAndSub (w.readers vma) 1).2).cpuCriticalOut

/-- `w_lock_br`; `none` when it goes on trying, or waits for a reader. -/
def wLockBr (w : Locks) (vma : ℕ) : Option Locks :=
  match w.cpuCriticalIn.lock (.rwlock vma) with
  | none => none
  | some w =>
    if (atomicFetchAndAdd (w.writers vma) 0).1 = 0 then
      let w := (w.setWriters vma (atomicFetchAndAdd (w.writers vma) 1).2).unlock (.rwlock vma)
      if (atomicFetchAndAdd (w.readers vma) 0).1 ≠ 0 then none else some w
    else none

/-- `w_unlock_br`. -/
def wUnlockBr (w : Locks) (vma : ℕ) : Locks :=
  (w.setWriters vma (atomicFetchAndSub (w.writers vma) 1).2).cpuCriticalOut

/-- The three words of a read-write lock, as `rwlock_init` and `memset` write them. -/
def setRwlock (w : Locks) (vma value : ℕ) : Locks :=
  { w with
    spin := Function.update w.spin (.rwlock vma) value
    readers := Function.update w.readers vma 0
    writers := Function.update w.writers vma 0 }

/-- The read-write lock is free. -/
structure Free (w : Locks) (vma : ℕ) : Prop where
  spin : w.spin (.rwlock vma) = 1
  readers : w.readers vma = 0
  writers : w.writers vma = 0

/-- The counters of the read-write lock and the nesting depth are the same. -/
structure Same (vma : ℕ) (w w' : Locks) : Prop where
  readers : w'.readers vma = w.readers vma
  writers : w'.writers vma = w.writers vma
  nest : w'.nest = w.nest

end Locks

/-- What a function does with locks. -/
inductive LockOp
  | lock (s : SpinId)
  | unlock (s : SpinId)
  | rLock (vma : ℕ)
  | rUnlock (vma : ℕ)
  | wLockBr (vma : ℕ)
  | wUnlockBr (vma : ℕ)
  | rwlockInit (vma : ℕ)
  | clear (vma : ℕ)
  deriving DecidableEq

/-- One operation; `none` when it does not return. -/
def LockOp.run (w : Locks) : LockOp → Option Locks
  | .lock s => w.lock s
  | .unlock s => some (w.unlock s)
  | .rLock vma => w.rLock vma
  | .rUnlock vma => some (w.rUnlock vma)
  | .wLockBr vma => w.wLockBr vma
  | .wUnlockBr vma => some (w.wUnlockBr vma)
  | .rwlockInit vma => some (w.setRwlock vma 1)
  | .clear vma => some (w.setRwlock vma 0)

/-- One operation after the other. -/
def runOps (w : Locks) : List LockOp → Option Locks
  | [] => some w
  | op :: ops =>
    match op.run w with
    | none => none
    | some w => runOps w ops

/-! ### What an operation changes -/

namespace Locks

variable {w w' : Locks} {s : SpinId} {u v : ℕ}

theorem Same.refl (v : ℕ) (w : Locks) : Same v w w := ⟨rfl, rfl, rfl⟩

theorem Same.trans {w₁ w₂ w₃ : Locks} (h : Same v w₁ w₂) (h' : Same v w₂ w₃) : Same v w₁ w₃ :=
  ⟨h'.readers.trans h.readers, h'.writers.trans h.writers, h'.nest.trans h.nest⟩

theorem lock_some (h : w.lock s = some w') :
    w'.nest = w.nest + 1 ∧ w'.readers = w.readers ∧ w'.writers = w.writers := by
  unfold lock at h
  dsimp only at h
  split_ifs at h
  cases h
  exact ⟨rfl, rfl, rfl⟩

/-- `r_lock` that returns has counted a reader and gone one level down. -/
theorem rLock_some (h : w.rLock u = some w') : w'.nest = w.nest + 1 ∧
    w'.readers = Function.update w.readers u ((w.readers u + 1) % 2 ^ 32) ∧
    w'.writers = w.writers := by
  unfold rLock at h
  split at h
  · cases h
  · rename_i w₁ h₁
    obtain ⟨hn, hr, hw⟩ := lock_some h₁
    split_ifs at h
    cases h
    refine ⟨?_, ?_, hw⟩
    · show w₁.nest - 1 = w.nest + 1
      rw [hn]
      rfl
    · show Function.update w₁.readers u _ = _
      rw [hr]
      rfl

theorem wLockBr_some (h : w.wLockBr u = some w') : w'.nest = w.nest + 1 ∧
    w'.readers = w.readers ∧
    w'.writers = Function.update w.writers u ((w.writers u + 1) % 2 ^ 32) := by
  unfold wLockBr at h
  split at h
  · cases h
  · rename_i w₁ h₁
    obtain ⟨hn, hr, hw⟩ := lock_some h₁
    dsimp only at h
    split_ifs at h
    cases h
    refine ⟨?_, hr, ?_⟩
    · show w₁.nest - 1 = w.nest + 1
      rw [hn]
      rfl
    · show Function.update w₁.writers u _ = _
      rw [hw]
      rfl

/-- Of a lock that is free `r_lock` returns. -/
theorem Free.rLock (h : w.Free v) : ∃ w', w.rLock v = some w' := by
  unfold Locks.rLock Locks.lock
  dsimp only
  rw [if_neg (by rw [show w.cpuCriticalIn.cpuCriticalIn.spin (.rwlock v) = 1 from h.spin]; decide)]
  dsimp only
  exact ⟨_, if_pos (show w.writers v = 0 from h.writers)⟩

end Locks

theorem runOps_append (w : Locks) (l l' : List LockOp) :
    runOps w (l ++ l') = (runOps w l).bind fun w' => runOps w' l' := by
  induction l generalizing w with
  | nil => rfl
  | cons op l ih =>
    rw [List.cons_append, runOps, runOps]
    cases op.run w with
    | none => rfl
    | some w' => exact ih w'

/-- One operation, a sequence and one more operation. -/
theorem runOps_bracket {w w₃ : Locks} {op op' : LockOp} {l : List LockOp}
    (h : runOps w (op :: l ++ [op']) = some w₃) : ∃ w₁ w₂, op.run w = some w₁ ∧
      runOps w₁ l = some w₂ ∧ op'.run w₂ = some w₃ := by
  rw [List.cons_append, runOps] at h
  cases h₁ : op.run w with
  | none =>
    rw [h₁] at h
    cases h
  | some w₁ =>
    rw [h₁] at h
    dsimp only at h
    rw [runOps_append] at h
    obtain ⟨w₂, h₂, h₃⟩ := Option.bind_eq_some_iff.1 h
    refine ⟨w₁, w₂, rfl, h₂, ?_⟩
    unfold runOps at h₃
    cases h₄ : op'.run w₂ with
    | none =>
      rw [h₄] at h₃
      cases h₃
    | some w₄ =>
      rw [h₄] at h₃
      exact h₃

/-! ### Sequences that leave a lock alone -/

/-- Whenever the operations return, the counters of the read-write lock `v` and the nesting depth
are what they were. -/
def Apart (v : ℕ) (ops : List LockOp) : Prop :=
  ∀ w w', runOps w ops = some w' → Locks.Same v w w'

namespace Apart

variable {u v : ℕ} {l l' : List LockOp} {s : SpinId}

theorem nil (v : ℕ) : Apart v [] := by
  intro w w' h
  cases h
  exact .refl v w

theorem append (h : Apart v l) (h' : Apart v l') : Apart v (l ++ l') := by
  intro w w₂ hr
  rw [runOps_append] at hr
  obtain ⟨w₁, h₁, h₂⟩ := Option.bind_eq_some_iff.1 hr
  exact (h w w₁ h₁).trans (h' w₁ w₂ h₂)

/-- The operations between a `lock` and its `unlock`. -/
theorem spin (h : Apart v l) : Apart v (.lock s :: l ++ [.unlock s]) := by
  intro w w₃ hr
  obtain ⟨w₁, w₂, h₁, h₂, h₃⟩ := runOps_bracket hr
  cases h₃
  obtain ⟨hn, hrd, hwr⟩ := Locks.lock_some h₁
  have hs := h w₁ w₂ h₂
  refine ⟨hs.readers.trans (by rw [hrd]), hs.writers.trans (by rw [hwr]), ?_⟩
  show w₂.nest - 1 = w.nest
  rw [hs.nest, hn, Nat.add_sub_cancel]

/-- The operations between `w_lock_br` and `w_unlock_br` of another lock. -/
theorem wLockBr (hu : u ≠ v) (h : Apart v l) :
    Apart v (.wLockBr u :: l ++ [.wUnlockBr u]) := by
  intro w w₃ hr
  obtain ⟨w₁, w₂, h₁, h₂, h₃⟩ := runOps_bracket hr
  cases h₃
  obtain ⟨hn, hrd, hwr⟩ := Locks.wLockBr_some h₁
  have hs := h w₁ w₂ h₂
  refine ⟨hs.readers.trans (by rw [hrd]), ?_, ?_⟩
  · show Function.update w₂.writers u _ v = w.writers v
    rw [Function.update_of_ne hu.symm, hs.writers, hwr, Function.update_of_ne hu.symm]
  · show w₂.nest - 1 = w.nest
    rw [hs.nest, hn, Nat.add_sub_cancel]

/-- The words of another lock are written. -/
theorem setRwlock (hu : u ≠ v) : Apart v [.rwlockInit u] ∧ Apart v [.clear u] := by
  constructor <;>
  · intro w w' h
    cases h
    exact ⟨Function.update_of_ne hu.symm .., Function.update_of_ne hu.symm .., rfl⟩

end Apart

/-! ### Critical sections of spinlocks -/

/-- What is done between `lock` and `unlock`. -/
def locked (s : SpinId) (ops : List LockOp) : List LockOp := .lock s :: ops ++ [.unlock s]

/-- The sequence leaves every read-write lock alone. -/
structure Neutral (ops : List LockOp) : Prop where
  apart : ∀ v, Apart v ops

namespace Neutral

variable {l l' : List LockOp}

theorem nil : Neutral [] := ⟨Apart.nil⟩

theorem append (h : Neutral l) (h' : Neutral l') : Neutral (l ++ l') :=
  ⟨fun v => (h.apart v).append (h'.apart v)⟩

theorem locked (h : Neutral l) (s : SpinId) : Neutral (locked s l) := ⟨fun v => (h.apart v).spin⟩

/-- A critical section without locks inside. -/
theorem critical (s : SpinId) : Neutral (AcoOs.locked s []) := nil.locked s

theorem ite {p : Prop} [Decidable p] (h : Neutral l) (h' : Neutral l') :
    Neutral (if p then l else l') := by
  split
  · exact h
  · exact h'

end Neutral

/-! ### Sequences that take a lock and give it back -/

/-- `r_lock` and `r_unlock` of a lock without readers, with operations between that leave it
alone. -/
theorem same_of_rLock {v : ℕ} {l : List LockOp} (h : Apart v l) {w w' : Locks}
    (hw : w.readers v = 0)
    (hr : runOps w (.rLock v :: l ++ [.rUnlock v]) = some w') : Locks.Same v w w' := by
  obtain ⟨w₁, w₂, h₁, h₂, h₃⟩ := runOps_bracket hr
  cases h₃
  obtain ⟨hn, hrd, hwr⟩ := Locks.rLock_some h₁
  have hs := h w₁ w₂ h₂
  refine ⟨?_, hs.writers.trans (by rw [hwr]), ?_⟩
  · show Function.update w₂.readers v (atomicFetchAndSub (w₂.readers v) 1).2 v = w.readers v
    rw [Function.update_self, hs.readers, hrd, Function.update_self, hw]
    rfl
  · show w₂.nest - 1 = w.nest
    rw [hs.nest, hn, Nat.add_sub_cancel]

/-- `w_lock_br` and `w_unlock_br` of a lock without writers. -/
theorem same_of_wLockBr {v : ℕ} {l : List LockOp} (h : Apart v l) {w w' : Locks}
    (hw : w.writers v = 0)
    (hr : runOps w (.wLockBr v :: l ++ [.wUnlockBr v]) = some w') : Locks.Same v w w' := by
  obtain ⟨w₁, w₂, h₁, h₂, h₃⟩ := runOps_bracket hr
  cases h₃
  obtain ⟨hn, hrd, hwr⟩ := Locks.wLockBr_some h₁
  have hs := h w₁ w₂ h₂
  refine ⟨hs.readers.trans (by rw [hrd]), ?_, ?_⟩
  · show Function.update w₂.writers v (atomicFetchAndSub (w₂.writers v) 1).2 v = w.writers v
    rw [Function.update_self, hs.writers, hwr, Function.update_self, hw]
    rfl
  · show w₂.nest - 1 = w.nest
    rw [hs.nest, hn, Nat.add_sub_cancel]

end AcoOs
