/-
The read-write lock, one atomic operation at a time.

`rwlock_t` is a spinlock and two counters.  Both counters are raised under the
spinlock, after it was seen that `writers` is zero, but they are lowered without it;
and `w_lock_br` first takes the place of the writer and only then, outside the
spinlock, waits until no reader is left.

`RwInv` says for every CPU at every point of the code what the three words are.
`rwlock_exclusion`: a writer is alone, and the counters count.
-/
import AcoOs.Machine

namespace AcoOs

open Machine

/-! ### Atomic operations

What an operation on an `unsigned int` returns, and what it leaves in memory. -/

/-- `atomic_fetch_and_add`. -/
def atomicFetchAndAdd (ptr value : ℕ) : ℕ × ℕ := (ptr, (ptr + value) % 2 ^ 32)

/-- `atomic_fetch_and_sub`. -/
def atomicFetchAndSub (ptr value : ℕ) : ℕ × ℕ := (ptr, (ptr + (2 ^ 32 - value)) % 2 ^ 32)

/-- `atomic_fetch_and_or`. -/
def atomicFetchAndOr (ptr value : ℕ) : ℕ × ℕ := (ptr, ptr ||| value)

/-- `atomic_fetch_and_and`. -/
def atomicFetchAndAnd (ptr value : ℕ) : ℕ × ℕ := (ptr, ptr &&& value)

/-! ### The lock and the CPUs -/

/-- `rwlock_t`; `lk` is the word of the spinlock. -/
structure RwLock where
  lk : ℕ
  readers : ℕ
  writers : ℕ
  deriving DecidableEq

/-- `INIT_RWLOCK_VAL`: the spinlock is open, nobody is in. -/
def RwLock.initVal : RwLock := ⟨1, 0, 0⟩

/-- The three pairs of calls: `r_lock`, `w_lock` and `w_lock_br` with their unlocks. -/
inductive RwOp
  | read
  | write
  | writeBr
  deriving DecidableEq

/-- The atomic operation a CPU does next.  `unlock op won` gives the spinlock back, after
the counter was raised or in vain; `held op` is between the return of the lock function and
the call of its unlock function. -/
inductive RwPoint
  | idle
  | lock (op : RwOp)
  | testWriters (op : RwOp)
  | testReaders
  | count (op : RwOp)
  | unlock (op : RwOp) (won : Bool)
  | drain
  | held (op : RwOp)
  | uncount (op : RwOp)
  deriving DecidableEq

namespace RwPoint

/-- One atomic operation, and where the CPU is after it; `none` outside the functions. -/
def act (w : RwLock) : RwPoint → Option (RwLock × RwPoint)
  | lock op =>
    let (old, lk) := atomicFetchAndAnd w.lk 0
    some ({ w with lk := lk }, if old = 0 then lock op else testWriters op)
  | testWriters op =>
    let (old, writers) := atomicFetchAndAdd w.writers 0
    some ({ w with writers := writers },
      if old = 0 then (if op = .write then testReaders else count op) else unlock op false)
  | testReaders =>
    let (old, readers) := atomicFetchAndAdd w.readers 0
    some ({ w with readers := readers }, if old = 0 then count .write else unlock .write false)
  | count .read =>
    some ({ w with readers := (atomicFetchAndAdd w.readers 1).2 }, unlock .read true)
  | count op => some ({ w with writers := (atomicFetchAndAdd w.writers 1).2 }, unlock op true)
  | unlock op won =>
    some ({ w with lk := (atomicFetchAndOr w.lk 1).2 },
      if won then (if op = .writeBr then drain else held op) else lock op)
  | drain =>
    let (old, readers) := atomicFetchAndAdd w.readers 0
    some ({ w with readers := readers }, if old ≠ 0 then drain else held .writeBr)
  | uncount .read => some ({ w with readers := (atomicFetchAndSub w.readers 1).2 }, idle)
  | uncount _ => some ({ w with writers := (atomicFetchAndSub w.writers 1).2 }, idle)
  | idle | held _ => none

/-- The CPU has the spinlock. -/
def inLock : RwPoint → Bool
  | testWriters _ | testReaders | count _ | unlock _ _ => true
  | _ => false

/-- The CPU has counted itself in `readers`, and not yet out. -/
def countedReader : RwPoint → Bool
  | unlock .read true | held .read | uncount .read => true
  | _ => false

/-- The CPU has counted itself in `writers`, and not yet out. -/
def countedWriter : RwPoint → Bool
  | unlock .write true | held .write | uncount .write | unlock .writeBr true | drain
  | held .writeBr | uncount .writeBr => true
  | _ => false

/-- `w_lock` or `w_lock_br` has returned, and the CPU is not yet out. -/
def writing : RwPoint → Bool
  | held .write | uncount .write | held .writeBr | uncount .writeBr => true
  | _ => false

/-- `r_lock` has returned, and the CPU is not yet out. -/
def reading : RwPoint → Bool
  | held .read | uncount .read => true
  | _ => false

/-- The CPU has the spinlock and saw that there is no writer. -/
def sawNoWriter : RwPoint → Bool
  | testReaders | count _ => true
  | _ => false

/-- The CPU saw that there is no reader, and since then none can have come. -/
def sawNoReader : RwPoint → Bool
  | count .write | unlock .write true => true
  | p => p.writing

end RwPoint

/-- The number of CPUs is an `int` constant. -/
structure Cpus where
  num : ℕ
  int : num < 2 ^ 31

variable {C : Cpus}

structure RwState (C : Cpus) where
  lock : RwLock
  point : Fin C.num → RwPoint

/-- A CPU calls a lock function, does an atomic operation, or calls the unlock function. -/
inductive RwAct
  | call (op : RwOp)
  | atomic
  | callUnlock

/-- What CPU `i` does next, if its code has such a step. -/
def RwState.exec (s : RwState C) (i : Fin C.num) (a : RwAct) : Option (RwState C) :=
  match a, s.point i with
  | .call op, .idle => some ⟨s.lock, Function.update s.point i (.lock op)⟩
  | .callUnlock, .held op => some ⟨s.lock, Function.update s.point i (.uncount op)⟩
  | .atomic, p => (p.act s.lock).map fun (w, p') => ⟨w, Function.update s.point i p'⟩
  | _, _ => none

/-- The CPUs of `C` on one lock, in any interleaving of their atomic operations. -/
def rwRuns (C : Cpus) : System (RwState C) (Fin C.num × RwAct) where
  init s := s = ⟨.initVal, fun _ => .idle⟩
  step s a t := s.exec a.1 a.2 = some t

/-! ### Counting CPUs -/

/-- How many CPUs are at such a point. -/
def cpuCount (P : RwPoint → Bool) (point : Fin C.num → RwPoint) : ℕ :=
  (Finset.univ.filter fun i => P (point i) = true).card

theorem cpuCount_le (P : RwPoint → Bool) (point : Fin C.num → RwPoint) :
    cpuCount P point ≤ C.num := by
  have h := Finset.card_filter_le Finset.univ fun i => P (point i) = true
  rwa [Finset.card_univ, Fintype.card_fin] at h

theorem cpuCount_pos {P : RwPoint → Bool} {point : Fin C.num → RwPoint} {i : Fin C.num}
    (h : P (point i) = true) : 0 < cpuCount P point :=
  Finset.card_pos.mpr ⟨i, by simpa using h⟩

theorem cpuCount_eq_zero {P : RwPoint → Bool} {point : Fin C.num → RwPoint} :
    cpuCount P point = 0 ↔ ∀ i, P (point i) = false := by
  rw [cpuCount, Finset.card_eq_zero, Finset.filter_eq_empty_iff]
  simp

/-- Moving one CPU changes a count by that CPU only. -/
theorem cpuCount_update (P : RwPoint → Bool) (point : Fin C.num → RwPoint) (i : Fin C.num)
    (p : RwPoint) : cpuCount P (Function.update point i p) + (P (point i)).toNat =
      cpuCount P point + (P p).toNat := by
  have split : ∀ q : Fin C.num → RwPoint, cpuCount P q =
      ((Finset.univ.erase i).filter fun j => P (q j) = true).card + (P (q i)).toNat := by
    intro q
    rw [cpuCount, ← Finset.insert_erase (Finset.mem_univ i), Finset.filter_insert]
    cases h : P (q i) <;> simp [Finset.filter_erase]
  have same : ((Finset.univ.erase i).filter fun j => P (Function.update point i p j) = true) =
      (Finset.univ.erase i).filter fun j => P (point j) = true := by
    refine Finset.filter_congr fun j hj => ?_
    rw [Function.update_of_ne (Finset.ne_of_mem_erase hj)]
  rw [split (Function.update point i p), split point, same, Function.update_self]
  omega

theorem eq_of_cpuCount_le_one {P : RwPoint → Bool} {point : Fin C.num → RwPoint}
    (h : cpuCount P point ≤ 1) {i j : Fin C.num} (hi : P (point i) = true)
    (hj : P (point j) = true) : i = j :=
  Finset.card_le_one.mp h i (by simpa using hi) j (by simpa using hj)

/-! ### The invariant -/

/-- What the three words are, by where the CPUs are. -/
structure RwInv (s : RwState C) : Prop where
  lk : s.lock.lk + cpuCount RwPoint.inLock s.point = 1
  readers : s.lock.readers = cpuCount RwPoint.countedReader s.point
  writers : s.lock.writers = cpuCount RwPoint.countedWriter s.point
  one : s.lock.writers ≤ 1
  noWriter : ∀ i, (s.point i).sawNoWriter = true → s.lock.writers = 0
  noReader : ∀ i, (s.point i).sawNoReader = true → s.lock.readers = 0

namespace RwInv

variable {s : RwState C} {i : Fin C.num}

theorem readers_lt (h : RwInv s) : s.lock.readers < 2 ^ 31 := by
  rw [h.readers]
  exact lt_of_le_of_lt (cpuCount_le _ _) C.int

theorem readers_pos (h : RwInv s) (hi : (s.point i).countedReader = true) :
    0 < s.lock.readers := by
  rw [h.readers]
  exact cpuCount_pos hi

theorem writers_pos (h : RwInv s) (hi : (s.point i).countedWriter = true) :
    0 < s.lock.writers := by
  rw [h.writers]
  exact cpuCount_pos hi

theorem inLock_unique (h : RwInv s) {j : Fin C.num} (hi : (s.point i).inLock = true)
    (hj : (s.point j).inLock = true) : j = i :=
  eq_of_cpuCount_le_one (by have := h.lk; omega) hj hi

theorem lk_eq (h : RwInv s) (hi : (s.point i).inLock = true) : s.lock.lk = 0 := by
  have := cpuCount_pos hi
  have := h.lk
  omega

theorem counted_of_writing : ∀ {p : RwPoint}, p.writing = true → p.countedWriter = true
  | .held .write, _ | .uncount .write, _ | .held .writeBr, _ | .uncount .writeBr, _ => rfl

theorem sawNoReader_of_writing {p : RwPoint} (h : p.writing = true) : p.sawNoReader = true := by
  unfold RwPoint.sawNoReader
  split <;> first | rfl | exact h

theorem inLock_of_sawNoWriter {p : RwPoint} (h : p.sawNoWriter = true) : p.inLock = true := by
  cases p <;> simp_all [RwPoint.sawNoWriter, RwPoint.inLock]

/-- A CPU that saw that there is no reader has the spinlock, or is counted as the writer. -/
theorem of_sawNoReader {p : RwPoint} (h : p.sawNoReader = true) :
    p.inLock = true ∨ p.countedWriter = true := by
  unfold RwPoint.sawNoReader at h
  split at h
  · exact .inl rfl
  · exact .inl rfl
  · exact .inr (counted_of_writing h)

/-- One CPU moves: its own part of the counts changes, and what the others saw stays true. -/
theorem move (h : RwInv s) (w : RwLock) (p : RwPoint)
    (hlk : w.lk + p.inLock.toNat = s.lock.lk + (s.point i).inLock.toNat)
    (hr : w.readers + (s.point i).countedReader.toNat =
      s.lock.readers + p.countedReader.toNat)
    (hw : w.writers + (s.point i).countedWriter.toNat =
      s.lock.writers + p.countedWriter.toNat)
    (hone : w.writers ≤ 1)
    (hnw : p.sawNoWriter = true → w.writers = 0)
    (hnr : p.sawNoReader = true → w.readers = 0)
    (hnw' : ∀ j ≠ i, (s.point j).sawNoWriter = true → w.writers ≤ s.lock.writers)
    (hnr' : ∀ j ≠ i, (s.point j).sawNoReader = true → w.readers ≤ s.lock.readers) :
    RwInv ⟨w, Function.update s.point i p⟩ where
  lk := by
    have h1 := cpuCount_update RwPoint.inLock s.point i p
    have h2 := h.lk
    show w.lk + cpuCount RwPoint.inLock (Function.update s.point i p) = 1
    omega
  readers := by
    have h1 := cpuCount_update RwPoint.countedReader s.point i p
    have h2 := h.readers
    show w.readers = cpuCount RwPoint.countedReader (Function.update s.point i p)
    omega
  writers := by
    have h1 := cpuCount_update RwPoint.countedWriter s.point i p
    have h2 := h.writers
    show w.writers = cpuCount RwPoint.countedWriter (Function.update s.point i p)
    omega
  one := hone
  noWriter := by
    intro j (hj : (Function.update s.point i p j).sawNoWriter = true)
    by_cases hji : j = i
    · subst hji
      rw [Function.update_self] at hj
      exact hnw hj
    · rw [Function.update_of_ne hji] at hj
      have h1 := h.noWriter j hj
      have h2 := hnw' j hji hj
      show w.writers = 0
      omega
  noReader := by
    intro j (hj : (Function.update s.point i p j).sawNoReader = true)
    by_cases hji : j = i
    · subst hji
      rw [Function.update_self] at hj
      exact hnr hj
    · rw [Function.update_of_ne hji] at hj
      have h1 := h.noReader j hj
      have h2 := hnr' j hji hj
      show w.readers = 0
      omega

/-- Where neither counter is raised, nothing is to be said about the other CPUs. -/
theorem move_down (h : RwInv s) (w : RwLock) (p : RwPoint)
    (hlk : w.lk + p.inLock.toNat = s.lock.lk + (s.point i).inLock.toNat)
    (hr : w.readers + (s.point i).countedReader.toNat =
      s.lock.readers + p.countedReader.toNat)
    (hw : w.writers + (s.point i).countedWriter.toNat =
      s.lock.writers + p.countedWriter.toNat)
    (hr' : w.readers ≤ s.lock.readers) (hw' : w.writers ≤ s.lock.writers)
    (hnw : p.sawNoWriter = true → w.writers = 0)
    (hnr : p.sawNoReader = true → w.readers = 0) :
    RwInv ⟨w, Function.update s.point i p⟩ :=
  h.move w p hlk hr hw (le_trans hw' h.one) hnw hnr (fun _ _ _ => hw') fun _ _ _ => hr'

/-- The spinlock is taken by the CPU that finds it open. -/
theorem act_lock (h : RwInv s) {op : RwOp} (hp : s.point i = .lock op) :
    RwInv ⟨{ s.lock with lk := s.lock.lk &&& 0 }, Function.update s.point i
      (if s.lock.lk = 0 then .lock op else .testWriters op)⟩ := by
  have h1 := h.lk
  rcases (show s.lock.lk = 0 ∨ s.lock.lk = 1 by omega) with h0 | h0
  · rw [if_pos h0]
    refine h.move_down _ _ ?_ ?_ ?_ le_rfl le_rfl nofun nofun
    · simp [hp, h0, RwPoint.inLock]
    · rw [hp]
    · rw [hp]
  · rw [if_neg (by omega)]
    refine h.move_down _ _ ?_ ?_ ?_ le_rfl le_rfl nofun nofun
    · simp [hp, h0, RwPoint.inLock]
    · rw [hp]; rfl
    · rw [hp]; rfl

/-- Inside the spinlock the CPU raises the counter it may raise. -/
theorem act_count_read (h : RwInv s) (hp : s.point i = .count .read) :
    RwInv ⟨{ s.lock with readers := (s.lock.readers + 1) % 2 ^ 32 },
      Function.update s.point i (.unlock .read true)⟩ := by
  have hlt := h.readers_lt
  have hw0 := h.noWriter i (by rw [hp]; rfl)
  rw [Nat.mod_eq_of_lt (by omega)]
  refine h.move _ _ (by rw [hp]; rfl) (by rw [hp]; rfl) (by rw [hp]; rfl) h.one nofun nofun
    (fun _ _ _ => le_rfl) ?_
  intro j hj hsaw
  exfalso
  rcases of_sawNoReader hsaw with hin | hc
  · exact hj (h.inLock_unique (by rw [hp]; rfl) hin)
  · have := h.writers_pos hc
    omega

theorem act_count_write (h : RwInv s) {op : RwOp} (hop : op ≠ .read)
    (hp : s.point i = .count op) :
    RwInv ⟨{ s.lock with writers := (s.lock.writers + 1) % 2 ^ 32 },
      Function.update s.point i (.unlock op true)⟩ := by
  have hw0 := h.noWriter i (by rw [hp]; rfl)
  rw [hw0, Nat.mod_eq_of_lt (by norm_num)]
  refine h.move _ _ (by rw [hp]; rfl) ?_ ?_ le_rfl nofun ?_ ?_ (fun _ _ _ => le_rfl)
  · rw [hp]
    cases op <;> first | contradiction | rfl
  · rw [hp, hw0]
    cases op <;> first | contradiction | rfl
  · cases op with
    | read => contradiction
    | write => exact fun _ => h.noReader i (by rw [hp]; rfl)
    | writeBr => nofun
  · intro j hj hsaw
    exact absurd (h.inLock_unique (by rw [hp]; rfl) (inLock_of_sawNoWriter hsaw)) hj

/-- Giving the spinlock back: only the CPU that has it does. -/
theorem act_unlock (h : RwInv s) {op : RwOp} {won : Bool} (hp : s.point i = .unlock op won) :
    RwInv ⟨{ s.lock with lk := s.lock.lk ||| 1 }, Function.update s.point i
      (if won = true then (if op = .writeBr then .drain else .held op) else .lock op)⟩ := by
  have hlk := h.lk_eq (by rw [hp]; rfl)
  refine h.move_down _ _ ?_ ?_ ?_ le_rfl le_rfl ?_ ?_
  · rw [hp, hlk]
    cases won <;> cases op <;> rfl
  · rw [hp]
    cases won <;> cases op <;> rfl
  · rw [hp]
    cases won <;> cases op <;> rfl
  · cases won <;> cases op <;> nofun
  · cases won with
    | false => nofun
    | true =>
      cases op with
      | read => nofun
      | write => exact fun _ => h.noReader i (by rw [hp]; rfl)
      | writeBr => nofun

/-- Leaving: the counter is positive, so lowering it does not wrap. -/
theorem act_uncount_read (h : RwInv s) (hp : s.point i = .uncount .read) :
    RwInv ⟨{ s.lock with readers := (s.lock.readers + (2 ^ 32 - 1)) % 2 ^ 32 },
      Function.update s.point i .idle⟩ := by
  have hlt := h.readers_lt
  have hpos := h.readers_pos (by rw [hp]; rfl)
  have hsub : (s.lock.readers + (2 ^ 32 - 1)) % 2 ^ 32 = s.lock.readers - 1 := by omega
  rw [hsub]
  refine h.move_down _ _ (by rw [hp]; rfl) ?_ (by rw [hp]; rfl) (Nat.sub_le _ _) le_rfl
    nofun nofun
  have hcr : (s.point i).countedReader = true := by rw [hp]; rfl
  show s.lock.readers - 1 + (s.point i).countedReader.toNat = s.lock.readers + 0
  rw [hcr, Nat.add_zero]
  exact Nat.sub_add_cancel hpos

theorem act_uncount_write (h : RwInv s) {op : RwOp} (hop : op ≠ .read)
    (hp : s.point i = .uncount op) :
    RwInv ⟨{ s.lock with writers := (s.lock.writers + (2 ^ 32 - 1)) % 2 ^ 32 },
      Function.update s.point i .idle⟩ := by
  have hcw : (s.point i).countedWriter = true := by
    rw [hp]
    cases op with
    | read => exact absurd rfl hop
    | write | writeBr => rfl
  have hcr : (s.point i).countedReader = false := by
    rw [hp]
    cases op with
    | read => exact absurd rfl hop
    | write | writeBr => rfl
  have hpos := h.writers_pos hcw
  have hone := h.one
  have hsub : (s.lock.writers + (2 ^ 32 - 1)) % 2 ^ 32 = s.lock.writers - 1 := by omega
  rw [hsub]
  refine h.move_down _ _ (by rw [hp]; rfl) ?_ ?_ le_rfl (Nat.sub_le _ _) nofun nofun
  · rw [hcr]
    rfl
  · show s.lock.writers - 1 + (s.point i).countedWriter.toNat = s.lock.writers + 0
    rw [hcw, Nat.add_zero]
    exact Nat.sub_add_cancel hpos

/-- Every atomic operation keeps the invariant. -/
theorem act (h : RwInv s) {w : RwLock} {p : RwPoint} (ha : (s.point i).act s.lock = some (w, p)) :
    RwInv ⟨w, Function.update s.point i p⟩ := by
  have hr : (s.lock.readers + 0) % 2 ^ 32 = s.lock.readers := by
    have := h.readers_lt
    omega
  have hw : (s.lock.writers + 0) % 2 ^ 32 = s.lock.writers := by
    have := h.one
    omega
  cases hp : s.point i with
  | idle => simp [hp, RwPoint.act] at ha
  | held op => simp [hp, RwPoint.act] at ha
  | lock op =>
    simp only [hp, RwPoint.act, atomicFetchAndAnd, Option.some.injEq, Prod.mk.injEq] at ha
    obtain ⟨rfl, rfl⟩ := ha
    exact h.act_lock hp
  | testWriters op =>
    simp only [hp, RwPoint.act, atomicFetchAndAdd, hw, Option.some.injEq, Prod.mk.injEq] at ha
    obtain ⟨rfl, rfl⟩ := ha
    by_cases h0 : s.lock.writers = 0
    · rw [if_pos h0]
      refine h.move_down _ _ ?_ ?_ ?_ le_rfl le_rfl (fun _ => h0) ?_
      · rw [hp]; cases op <;> rfl
      · rw [hp]; cases op <;> rfl
      · rw [hp]; cases op <;> rfl
      · cases op <;> nofun
    · rw [if_neg h0]
      refine h.move_down _ _ ?_ ?_ ?_ le_rfl le_rfl nofun ?_
      · rw [hp]; rfl
      · rw [hp]; cases op <;> rfl
      · rw [hp]; cases op <;> rfl
      · cases op <;> nofun
  | testReaders =>
    simp only [hp, RwPoint.act, atomicFetchAndAdd, hr, Option.some.injEq, Prod.mk.injEq] at ha
    obtain ⟨rfl, rfl⟩ := ha
    have hw0 := h.noWriter i (by rw [hp]; rfl)
    by_cases h0 : s.lock.readers = 0
    · rw [if_pos h0]
      exact h.move_down _ _ (by rw [hp]; rfl) (by rw [hp]; rfl) (by rw [hp]; rfl) le_rfl le_rfl
        (fun _ => hw0) fun _ => h0
    · rw [if_neg h0]
      exact h.move_down _ _ (by rw [hp]; rfl) (by rw [hp]; rfl) (by rw [hp]; rfl) le_rfl le_rfl
        nofun nofun
  | count op =>
    cases op <;>
      simp only [hp, RwPoint.act, atomicFetchAndAdd, Option.some.injEq, Prod.mk.injEq] at ha <;>
      obtain ⟨rfl, rfl⟩ := ha
    · exact h.act_count_read hp
    · exact h.act_count_write nofun hp
    · exact h.act_count_write nofun hp
  | unlock op won =>
    simp only [hp, RwPoint.act, atomicFetchAndOr, Option.some.injEq, Prod.mk.injEq] at ha
    obtain ⟨rfl, rfl⟩ := ha
    exact h.act_unlock hp
  | drain =>
    simp only [hp, RwPoint.act, atomicFetchAndAdd, hr, Option.some.injEq, Prod.mk.injEq] at ha
    obtain ⟨rfl, rfl⟩ := ha
    by_cases h0 : s.lock.readers = 0
    · rw [if_neg (not_not.mpr h0)]
      exact h.move_down _ _ (by rw [hp]; rfl) (by rw [hp]; rfl) (by rw [hp]; rfl) le_rfl le_rfl
        nofun fun _ => h0
    · rw [if_pos h0]
      exact h.move_down _ _ (by rw [hp]) (by rw [hp]) (by rw [hp]) le_rfl le_rfl nofun nofun
  | uncount op =>
    cases op <;>
      simp only [hp, RwPoint.act, atomicFetchAndSub, Option.some.injEq, Prod.mk.injEq] at ha <;>
      obtain ⟨rfl, rfl⟩ := ha
    · exact h.act_uncount_read hp
    · exact h.act_uncount_write (show RwOp.write ≠ .read from nofun) hp
    · exact h.act_uncount_write (show RwOp.writeBr ≠ .read from nofun) hp

/-- Calling a lock or an unlock function changes no word. -/
theorem call (h : RwInv s) {p : RwPoint} (hl : p.inLock = (s.point i).inLock)
    (hr : p.countedReader = (s.point i).countedReader)
    (hw : p.countedWriter = (s.point i).countedWriter) (hnw : p.sawNoWriter = false)
    (hnr : p.sawNoReader = (s.point i).sawNoReader) :
    RwInv ⟨s.lock, Function.update s.point i p⟩ := by
  refine h.move_down s.lock p (by rw [hl]) (by rw [hr]) (by rw [hw]) le_rfl le_rfl ?_ ?_
  · rw [hnw]
    nofun
  · rw [hnr]
    exact h.noReader i

theorem exec (h : RwInv s) {a : RwAct} {t : RwState C} (ha : s.exec i a = some t) : RwInv t := by
  unfold RwState.exec at ha
  split at ha
  · rename_i hp
    cases ha
    exact h.call (by rw [hp]; rfl) (by rw [hp]; rfl) (by rw [hp]; rfl) rfl (by rw [hp]; rfl)
  · rename_i op hp
    cases ha
    refine h.call ?_ ?_ ?_ rfl ?_ <;> rw [hp] <;> cases op <;> rfl
  · rename_i hp
    obtain ⟨⟨w, p⟩, hact, rfl⟩ := Option.map_eq_some_iff.mp ha
    exact h.act hact
  · cases ha

theorem init : RwInv (⟨.initVal, fun _ => .idle⟩ : RwState C) := by
  have hzero : ∀ P : RwPoint → Bool, P .idle = false →
      cpuCount P (fun _ : Fin C.num => RwPoint.idle) = 0 :=
    fun P hP => cpuCount_eq_zero.mpr fun _ => hP
  exact ⟨by rw [hzero _ rfl]; rfl, (hzero _ rfl).symm, (hzero _ rfl).symm, Nat.zero_le _,
    fun _ _ => rfl, fun _ _ => rfl⟩

end RwInv

theorem rwRuns_inv {s : RwState C} (h : (rwRuns C).Reachable s) : RwInv s :=
  h.invariant (fun _ h0 => by rw [h0]; exact RwInv.init) fun _ _ _ _ hi hs => hi.exec hs

/-- In every state of every run a writer is alone, `readers` is the number of CPUs that have
counted themselves in and not yet out, and a counter about to be lowered is positive. -/
theorem rwlock_exclusion {s : RwState C} (h : (rwRuns C).Reachable s) :
    (∀ i j, (s.point i).writing = true → (s.point j).writing = true → i = j) ∧
    (∀ i j, (s.point i).writing = true → (s.point j).reading = false) ∧
    s.lock.readers = cpuCount RwPoint.countedReader s.point ∧
    (∀ i, s.point i = .uncount .read → 0 < s.lock.readers) ∧
    (∀ i op, op ≠ .read → s.point i = .uncount op → 0 < s.lock.writers) := by
  have inv := rwRuns_inv h
  refine ⟨?_, ?_, inv.readers, ?_, ?_⟩
  · -- a writer has counted itself, and there is one such CPU at most
    intro i j hi hj
    have hone : cpuCount RwPoint.countedWriter s.point ≤ 1 := inv.writers ▸ inv.one
    exact eq_of_cpuCount_le_one hone (RwInv.counted_of_writing hi) (RwInv.counted_of_writing hj)
  · -- the writer saw no reader, and none came after that
    intro i j hi
    have hnone : cpuCount RwPoint.countedReader s.point = 0 :=
      inv.readers ▸ inv.noReader i (RwInv.sawNoReader_of_writing hi)
    have hj := cpuCount_eq_zero.mp hnone j
    cases hr : (s.point j).reading with
    | false => rfl
    | true =>
      have hc : (s.point j).countedReader = true := by
        unfold RwPoint.reading at hr
        split at hr
        · rename_i hp
          rw [hp]; rfl
        · rename_i hp
          rw [hp]; rfl
        · cases hr
      rw [hc] at hj
      cases hj
  · intro i hp
    exact inv.readers_pos (show (s.point i).countedReader = true by rw [hp]; rfl)
  · intro i op hop hp
    have hc : (s.point i).countedWriter = true := by
      rw [hp]
      cases op with
      | read => exact absurd rfl hop
      | write | writeBr => rfl
    exact inv.writers_pos hc

/-- Of two CPUs, number 1 reads and number 0 waits for it in `w_lock_br`. -/
def drainRun : List (Fin 2 × RwAct) :=
  [(1, .call .read), (1, .atomic), (1, .atomic), (1, .atomic), (1, .atomic),
    (0, .call .writeBr), (0, .atomic), (0, .atomic), (0, .atomic), (0, .atomic), (0, .atomic)]

/-- The state that run ends in. -/
def drainState : RwState ⟨2, by norm_num⟩ :=
  ((System.execAll (fun s a => RwState.exec s a.1 a.2) drainRun
    ⟨.initVal, fun _ => .idle⟩).getD ⟨.initVal, fun _ => .idle⟩)

theorem drainState_reachable : (rwRuns ⟨2, by norm_num⟩).Reachable drainState := by
  have hr : (System.execAll (fun s (a : Fin 2 × RwAct) => RwState.exec s a.1 a.2) drainRun
      (⟨.initVal, fun _ => .idle⟩ : RwState ⟨2, by norm_num⟩)).isSome = true := by decide
  obtain ⟨s, hs⟩ := Option.isSome_iff_exists.mp hr
  have he : drainState = s := by rw [drainState, hs, Option.getD_some]
  rw [he]
  exact ⟨_, _, rfl, System.Run.of_execAll (fun _ _ _ h => h) hs⟩

theorem rwlock_exclusion_drain : drainState.point 0 = .drain ∧ drainState.lock = ⟨1, 1, 1⟩ ∧
    1 = cpuCount RwPoint.countedReader drainState.point := by
  have hlock : drainState.lock = ⟨1, 1, 1⟩ := by decide
  refine ⟨by decide, hlock, ?_⟩
  have h := (rwlock_exclusion drainState_reachable).2.2.1
  rwa [hlock] at h

end AcoOs
