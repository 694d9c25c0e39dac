/-
The locks that the page tables take.

The code of the page tables takes no lock itself.  It changes the allocator only by calls of
`bkp_alloc` and `bkp_free` (`hwMmap_evolves` and the others), so its lock operations are those of
these calls, and an allocator that keeps a record writes them down.
-/
import AcoOs.LockSections
import AcoOs.PageTableStep

namespace AcoOs

variable {L : VmLayout}

/-! ### An allocator with a record -/

/-- The allocator, with the lock operations of the calls so far. -/
def PageAllocator.traced {c : Layout} {A : PageAllocator c} (E : LockedAllocator A) :
    PageAllocator c where
  State := A.State × List LockOp
  pageSet s := A.pageSet s.1
  alloc s k := ((A.alloc s.1 k).1, (A.alloc s.1 k).2, s.2 ++ E.allocOps s.1 k)
  free s p := (A.free s.1 p).map fun b => (b, s.2 ++ E.freeOps s.1 p)
  wellFormed s := A.wellFormed s.1
  alloc_apply s k := A.alloc_apply s.1 k
  free_apply s p k h := by
    obtain ⟨b, hb, happ⟩ := A.free_apply s.1 p k h
    exact ⟨_, by rw [hb]; rfl, happ⟩
  free_none s p h := by
    rw [A.free_none s.1 p h]
    rfl

theorem PageAllocator.Evolves.neutral {c : Layout} {A : PageAllocator c} {E : LockedAllocator A}
    {s t : (PageAllocator.traced E).State} (h : (PageAllocator.traced E).Evolves s t)
    (hs : Neutral s.2) : Neutral t.2 := by
  induction h with
  | refl => exact hs
  | alloc _ k ih => exact ih.append (E.alloc_neutral _ k)
  | free _ hf ih =>
    obtain ⟨b, -, rfl⟩ := Option.map_eq_some_iff.1 hf
    exact ih.append (E.free_neutral _ _)

/-! ### The page tables only call the allocator -/

section Walk

variable {A : PageAllocator L.toLayout}

theorem walkLeaves_buddy (flags t n : ℕ) (x : Memory A) (va pa : ℕ) (pages : ℤ) :
    (walkLeaves flags t n x va pa pages).2.2.buddy = x.buddy := by
  induction n generalizing x va pa pages with
  | zero => rfl
  | succ n ih =>
    unfold walkLeaves
    dsimp only
    split_ifs
    · rfl
    · rfl
    · exact ih ..

/-- What a recursive call makes of the allocator. -/
def WalkEvolves (next : ℕ → Memory A → ℕ → ℕ → ℤ → Option (ℤ × ℤ × Memory A)) : Prop :=
  ∀ t x va pa pages ret pages' y, next t x va pa pages = some (ret, pages', y) →
    A.Evolves x.buddy y.buddy

theorem walkEntry_evolves {next : ℕ → Memory A → ℕ → ℕ → ℤ → Option (ℤ × ℤ × Memory A)}
    (hnext : WalkEvolves next) {t idx : ℕ} {x y : Memory A} {va pa : ℕ} {pages ret pages' : ℤ}
    (h : walkEntry next t idx x va pa pages = some (ret, pages', y)) :
    A.Evolves x.buddy y.buddy := by
  unfold walkEntry at h
  split_ifs at h with hv hn
  · split at h
    · cases h
    · exact hnext _ _ _ _ _ _ _ _ h
  · cases h
    exact .refl
  · split at h
    · rename_i ha
      cases h
      exact Memory.bkpAllocZero_evolves ha
    · rename_i ptr z ha
      split_ifs at h
      exact (Memory.bkpAllocZero_evolves ha).trans (hnext _ (z.setWord t idx _) _ _ _ _ _ _ h)

theorem walkDir_evolves {next : ℕ → Memory A → ℕ → ℕ → ℤ → Option (ℤ × ℤ × Memory A)}
    (hnext : WalkEvolves next) {t : ℕ} (n : ℕ) {x y : Memory A} {va pa : ℕ}
    {pages ret pages' : ℤ} (h : walkDir next t n x va pa pages = some (ret, pages', y)) :
    A.Evolves x.buddy y.buddy := by
  induction n generalizing x va pa pages with
  | zero =>
    cases h
    exact .refl
  | succ n ih =>
    unfold walkDir at h
    split at h
    · cases h
    · rename_i r p z he
      have hz := walkEntry_evolves hnext he
      split_ifs at h
      · cases h
        exact hz
      · cases h
        exact hz
      · exact hz.trans (ih h)

theorem vmWalkthrough_evolves (flags d : ℕ) :
    WalkEvolves (vmWalkthrough (A := A) flags d) := by
  induction d with
  | zero =>
    intro t x va pa pages ret pages' y h
    have hy := walkLeaves_buddy flags t (pteNums - sv39Index2Id va 2) x va pa pages
    rw [Option.some.inj h] at hy
    rw [show y.buddy = x.buddy from hy]
    exact .refl
  | succ d ih =>
    intro t x va pa pages ret pages' y h
    exact walkDir_evolves ih _ h

theorem unmapLeaves_buddy (t n : ℕ) (x : Memory A) (pages : ℤ) :
    (unmapLeaves t n x pages).2.buddy = x.buddy := by
  induction n generalizing x pages with
  | zero => rfl
  | succ n ih =>
    unfold unmapLeaves
    dsimp only
    split_ifs
    · rfl
    · exact ih ..

theorem bkFree_evolves {x y : Memory A} {p : ℕ} (h : x.bkFree p = some y) :
    A.Evolves x.buddy y.buddy := by
  unfold Memory.bkFree at h
  split_ifs at h
  · exact Memory.bkpFree_evolves h
  · cases h
    exact .refl

def UnmapEvolves (next : ℕ → Memory A → ℕ → ℤ → Option (ℤ × Memory A)) : Prop :=
  ∀ t x va pages pages' y, next t x va pages = some (pages', y) → A.Evolves x.buddy y.buddy

theorem unmapEntry_evolves {next : ℕ → Memory A → ℕ → ℤ → Option (ℤ × Memory A)}
    (hnext : UnmapEvolves next) {index t idx : ℕ} {x y : Memory A} {va : ℕ} {pages pages' : ℤ}
    (h : unmapEntry next index t idx x va pages = some (pages', y)) :
    A.Evolves x.buddy y.buddy := by
  unfold unmapEntry at h
  split_ifs at h
  · split at h
    · cases h
    · split at h
      · cases h
      · rename_i p z he
        have hz := hnext _ _ _ _ _ _ he
        split_ifs at h
        · split at h
          · cases h
          · rename_i u hu
            cases h
            exact hz.trans (bkFree_evolves (x := z.setWord t idx 0) hu)
        · cases h
          exact hz
  · cases h
    exact .refl
  · cases h
    exact .refl

theorem unmapDir_evolves {next : ℕ → Memory A → ℕ → ℤ → Option (ℤ × Memory A)}
    (hnext : UnmapEvolves next) {index t : ℕ} (n : ℕ) {x y : Memory A} {va : ℕ}
    {pages pages' : ℤ} (h : unmapDir next index t n x va pages = some (pages', y)) :
    A.Evolves x.buddy y.buddy := by
  induction n generalizing x va pages with
  | zero =>
    cases h
    exact .refl
  | succ n ih =>
    unfold unmapDir at h
    split at h
    · cases h
    · rename_i p z he
      have hz := unmapEntry_evolves hnext he
      split_ifs at h
      · cases h
        exact hz
      · exact hz.trans (ih h)

theorem riscvUnmap_evolves (d : ℕ) : UnmapEvolves (riscvUnmap (A := A) d) := by
  induction d with
  | zero =>
    intro t x va pages pages' y h
    have hy := unmapLeaves_buddy t (pteNums - sv39Index2Id va 2) x pages
    rw [Option.some.inj h] at hy
    rw [show y.buddy = x.buddy from hy]
    exact .refl
  | succ d ih =>
    intro t x va pages pages' y h
    exact unmapDir_evolves ih _ h

theorem freeLeaves_buddy (t n : ℕ) (x : Memory A) : (freeLeaves t n x).buddy = x.buddy := by
  induction n generalizing x with
  | zero => rfl
  | succ n ih =>
    unfold freeLeaves
    rw [ih]
    split_ifs <;> rfl

theorem freeDir_evolves {next : ℕ → Memory A → Option (Memory A)}
    (hnext : ∀ t x y, next t x = some y → A.Evolves x.buddy y.buddy) {t : ℕ} (n : ℕ)
    {x y : Memory A} (h : freeDir next t n x = some y) : A.Evolves x.buddy y.buddy := by
  induction n generalizing x with
  | zero =>
    cases h
    exact .refl
  | succ n ih =>
    unfold freeDir at h
    split at h
    · cases h
    · rename_i z he
      refine .trans ?_ (ih h)
      unfold freeEntry at he
      split_ifs at he
      · split at he
        · cases he
        · split at he
          · cases he
          · rename_i u hu
            exact (hnext _ _ _ hu).trans (bkFree_evolves (x := u.setWord t _ 0) he)
      · cases he
        exact .refl

theorem riscvFreePgtable_evolves (d : ℕ) : ∀ (t : ℕ) (x y : Memory A),
    riscvFreePgtable d t x = some y → A.Evolves x.buddy y.buddy := by
  induction d with
  | zero =>
    intro t x y h
    have hy := freeLeaves_buddy t pteNums x
    unfold riscvFreePgtable at h
    rw [Option.some.inj h] at hy
    rw [hy]
    exact .refl
  | succ d ih => exact fun t x y h => freeDir_evolves ih _ h

namespace Memory

variable {x y : Memory A}

theorem hwUnmap_evolves {t va size : ℕ} (h : x.hwUnmap t va size = some y) :
    A.Evolves x.buddy y.buddy := by
  unfold hwUnmap at h
  split_ifs at h
  · cases h
    exact .refl
  · split at h
    · cases h
    · rename_i p z he
      split_ifs at h
      cases h
      exact riscvUnmap_evolves _ _ _ _ _ _ _ he

theorem hwMmap_evolves {t va pa prot size : ℕ} {ret : ℤ}
    (h : x.hwMmap t va pa prot size = some (ret, y)) : A.Evolves x.buddy y.buddy := by
  unfold hwMmap at h
  split_ifs at h
  · cases h
    exact .refl
  · split at h
    · cases h
    · rename_i r p z he
      have hz := vmWalkthrough_evolves _ _ _ _ _ _ _ _ _ _ he
      split_ifs at h
      · split at h
        · cases h
        · rename_i u hu
          cases h
          exact hz.trans (hwUnmap_evolves hu)
      · cases h
        exact hz

theorem hwUnmapAll_evolves {t : ℕ} (h : x.hwUnmapAll t = some y) : A.Evolves x.buddy y.buddy :=
  riscvFreePgtable_evolves _ _ _ _ h

/-- The memory with the record still empty. -/
def traced (x : Memory A) (E : LockedAllocator A) : Memory (PageAllocator.traced E) :=
  ⟨(x.buddy, []), x.pages, x.words⟩

/-- `hw_mmap`. -/
def hwMmapOps (x : Memory A) (E : LockedAllocator A) (pgtable va pa prot size : ℕ) :
    List LockOp :=
  match (x.traced E).hwMmap pgtable va pa prot size with
  | none => []
  | some (_, y) => y.buddy.2

/-- `hw_unmap`. -/
def hwUnmapOps (x : Memory A) (E : LockedAllocator A) (pgtable va size : ℕ) : List LockOp :=
  match (x.traced E).hwUnmap pgtable va size with
  | none => []
  | some y => y.buddy.2

/-- `hw_unmap_all`. -/
def hwUnmapAllOps (x : Memory A) (E : LockedAllocator A) (pgtable : ℕ) : List LockOp :=
  match (x.traced E).hwUnmapAll pgtable with
  | none => []
  | some y => y.buddy.2

variable {E : LockedAllocator A}

theorem hwMmapOps_neutral (x : Memory A) (t va pa prot size : ℕ) :
    Neutral (x.hwMmapOps E t va pa prot size) := by
  unfold hwMmapOps
  split
  · exact .nil
  · rename_i h
    exact (hwMmap_evolves h).neutral .nil

theorem hwUnmapOps_neutral (x : Memory A) (t va size : ℕ) :
    Neutral (x.hwUnmapOps E t va size) := by
  unfold hwUnmapOps
  split
  · exact .nil
  · rename_i h
    exact (hwUnmap_evolves h).neutral .nil

theorem hwUnmapAllOps_neutral (x : Memory A) (t : ℕ) : Neutral (x.hwUnmapAllOps E t) := by
  unfold hwUnmapAllOps
  split
  · exact .nil
  · rename_i h
    exact (hwUnmapAll_evolves h).neutral .nil

end Memory

end Walk

end AcoOs
