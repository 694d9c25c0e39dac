/-
`pgfm_module_init`, which sets up the page array.

The array is put at the start of the free region, and the pages of the region behind it become
`HEAD` pages.  Addresses and sizes are `size_t`s, but the size of the array is an `int`.

* **`pgfm_module_init_unused_iff`** — only unused memory becomes `HEAD` pages just when the size of
  the array fits an `int` and the free region does not wrap around;
* **`pgfmModuleInit_freeRange`** — then the array is the one that `buddy_module_init` starts with;
* **`not_pgfm_module_init_unused`** — with `2 ^ 27` pages the array itself becomes `HEAD` pages.
-/
import AcoOs.PageCheck
import AcoOs.VirtualMemory

namespace AcoOs

/-! ### `pgfm_module_init` -/

/-- What the architecture says about the memory. -/
structure PgframeArch where
  paStart : ℕ
  vaStart : ℕ
  size : ℕ
  paKstart : ℕ
  kSize : ℕ
  freeVaStart : ℕ
  freeSize : ℕ
  paStart_lt : paStart < 2 ^ 64
  vaStart_lt : vaStart < 2 ^ 64
  size_lt : size < 2 ^ 64
  paKstart_lt : paKstart < 2 ^ 64
  kSize_lt : kSize < 2 ^ 64
  freeVaStart_lt : freeVaStart < 2 ^ 64
  freeSize_lt : freeSize < 2 ^ 64

namespace PgframeArch

variable (a : PgframeArch)

/-- `PGFRAME_PA_END`. -/
def paEnd : ℕ := (a.paStart + a.size) % 2 ^ 64

/-- `PGFRAME_VA_END`. -/
def vaEnd : ℕ := (a.vaStart + a.size) % 2 ^ 64

/-- `PGFRAME_PAGE_NUMS`. -/
def pageNums : ℕ := a.size / pageSize

/-- `PGFRAME_PAGEID2VA`. -/
def id2va (id : ℕ) : ℕ := (a.vaStart + id * pageSize % 2 ^ 64) % 2 ^ 64

end PgframeArch

/-- `PAGE_DOWNS_ALIGN`. -/
def pageDownsAlign (x : ℕ) : ℕ := x / pageSize * pageSize

/-- `sizeof(struct pageframe)`: the lock, the type, the packed 18 bytes of `meta` and 5 of
`meta_other`, and one of padding. -/
def sizeofPageframe : ℕ := 32

/-- `pgfm_module_init_done`, `pgframe_pages` and the array there. -/
structure Pgframe where
  initDone : ℕ
  pgframePages : ℕ
  pages : ℕ → Pageframe

/-- The loop of `pgfm_module_init` after `n` iterations. -/
def initPages (a : PgframeArch) (freeStart freeEnd : ℕ) (pages : ℕ → Pageframe) :
    ℕ → ℕ → Pageframe
  | 0 => pages
  | i + 1 => Function.update (initPages a freeStart freeEnd pages i) i
      { pgtype := .buddyAllocator
        buddyOrder := 0
        refCount := 0
        buddyFlags :=
          if freeStart ≤ a.id2va i ∧ a.id2va i < freeEnd then flagHead else flagStatic }

/-- `pgfm_module_init`. -/
def pgfmModuleInit (a : PgframeArch) (x : Pgframe) : ℤ × Pgframe :=
  if x.initDone ≠ 0 then (0, x)
  else if a.vaStart < a.paStart then (-efault, { x with pgframePages := 0 })
  else if a.paStart % pageSize ≠ 0 then (-efault, { x with pgframePages := 0 })
  else if a.vaStart % pageSize ≠ 0 then (-efault, { x with pgframePages := 0 })
  else if a.size % pageSize ≠ 0 then (-efault, { x with pgframePages := 0 })
  else if a.size = 0 then (-efault, { x with pgframePages := 0 })
  else
    let kernelStart := a.paKstart
    let kernelEnd := (a.paKstart + a.kSize) % 2 ^ 64
    if ¬ (a.paStart ≤ kernelStart ∧ kernelStart < a.paEnd ∧ a.paStart < kernelEnd ∧
        kernelEnd ≤ a.paEnd) then (-efault, { x with pgframePages := 0 })
    else
      let freeStart := a.freeVaStart
      let freeEnd := (a.freeVaStart + a.freeSize) % 2 ^ 64
      if ¬ (a.vaStart ≤ freeStart ∧ freeStart < a.vaEnd ∧ a.vaStart < freeEnd ∧
          freeEnd ≤ a.vaEnd) then (-efault, { x with pgframePages := 0 })
      else
        let needAllocSize := toInt32 (a.pageNums * sizeofPageframe)
        -- the comparison and the sum are those of `unsigned long`
        if (a.freeSize : ℤ) < needAllocSize % 2 ^ 64 then (-enomem, { x with pgframePages := 0 })
        else
          let freeStart := pageUpperAlign ((freeStart + needAllocSize) % 2 ^ 64).toNat
          let freeEnd := pageDownsAlign freeEnd
          if freeEnd ≤ freeStart then (-enomem, { x with pgframePages := 0 })
          else (0,
            { initDone := 1
              pgframePages := a.freeVaStart
              pages := initPages a freeStart freeEnd x.pages (toInt32 a.pageNums).toNat })

/-! ### What it should do -/

/-- The address is in the free region. -/
def PgframeArch.InFree (a : PgframeArch) (b : ℕ) : Prop :=
  a.freeVaStart ≤ b ∧ b < (a.freeVaStart + a.freeSize) % 2 ^ 64

/-- The address is in the array. -/
def PgframeArch.InArray (a : PgframeArch) (y : Pgframe) (b : ℕ) : Prop :=
  y.pgframePages ≤ b ∧ b < y.pgframePages + a.pageNums * sizeofPageframe

/-- The address is in page `i`. -/
def PgframeArch.InPage (a : PgframeArch) (i b : ℕ) : Prop :=
  a.vaStart + i * pageSize ≤ b ∧ b < a.vaStart + i * pageSize + pageSize

/-- Only unused memory is handed to the buddy allocator. -/
structure OnlyUnused (a : PgframeArch) (y : Pgframe) : Prop where
  array : ∀ b, a.InArray y b → a.InFree b
  head : ∀ i < a.pageNums, (y.pages i).Has flagHead →
    ∀ b, a.InPage i b → a.InFree b ∧ ¬ a.InArray y b
  static : ∀ i < a.pageNums, ¬ (y.pages i).Has flagHead → (y.pages i).buddyFlags = flagStatic

/-- The size of the array fits an `int`, and the free region does not wrap around. -/
def PgframeArch.Fits (a : PgframeArch) : Prop :=
  a.pageNums * sizeofPageframe < 2 ^ 31 ∧ a.freeVaStart + a.freeSize < 2 ^ 64

instance (a : PgframeArch) : Decidable a.Fits := inferInstanceAs (Decidable (_ ∧ _))

/-! ### The loop -/

variable {a : PgframeArch} {freeStart freeEnd : ℕ} {x y : Pgframe}

theorem initPages_of_lt (pages : ℕ → Pageframe) {n i : ℕ} (hi : i < n) :
    initPages a freeStart freeEnd pages n i =
      { pgtype := .buddyAllocator, buddyOrder := 0, refCount := 0
        buddyFlags :=
          if freeStart ≤ a.id2va i ∧ a.id2va i < freeEnd then flagHead else flagStatic } := by
  induction n with
  | zero => exact absurd hi (Nat.not_lt_zero i)
  | succ n ih =>
    unfold initPages
    rcases Nat.lt_succ_iff_lt_or_eq.1 hi with hlt | rfl
    · rw [Function.update_of_ne hlt.ne]
      exact ih hlt
    · rw [Function.update_self]

theorem initPages_of_ge (pages : ℕ → Pageframe) {n i : ℕ} (hi : n ≤ i) :
    initPages a freeStart freeEnd pages n i = pages i := by
  induction n with
  | zero => rfl
  | succ n ih =>
    unfold initPages
    rw [Function.update_of_ne (by omega)]
    exact ih (by omega)

theorem toInt32_bounds (n : ℕ) : -2 ^ 31 ≤ toInt32 n ∧ toInt32 n < 2 ^ 31 := by
  have h1 := Int.le_bmod (x := (n : ℤ)) (m := 2 ^ 32) (by decide)
  have h2 := Int.bmod_lt (x := (n : ℤ)) (m := 2 ^ 32) (by decide)
  unfold toInt32
  omega

/-- What the checks of `pgfm_module_init` say when it goes on to set up the array. -/
structure Checked (a : PgframeArch) (freeStart freeEnd : ℕ) : Prop where
  paStart_le : a.paStart ≤ a.vaStart
  paStart_aligned : a.paStart % pageSize = 0
  vaStart_aligned : a.vaStart % pageSize = 0
  size_aligned : a.size % pageSize = 0
  size_pos : 0 < a.size
  le_free : a.vaStart ≤ a.freeVaStart
  free_lt : a.freeVaStart < a.vaEnd
  lt_freeEnd : a.vaStart < (a.freeVaStart + a.freeSize) % 2 ^ 64
  freeEnd_le : (a.freeVaStart + a.freeSize) % 2 ^ 64 ≤ a.vaEnd
  enough : toInt32 (a.pageNums * sizeofPageframe) % 2 ^ 64 ≤ a.freeSize
  freeStart_eq : freeStart = pageUpperAlign
    ((a.freeVaStart + toInt32 (a.pageNums * sizeofPageframe)) % 2 ^ 64).toNat
  freeEnd_eq : freeEnd = pageDownsAlign ((a.freeVaStart + a.freeSize) % 2 ^ 64)
  lt : freeStart < freeEnd

/-- A call that returns zero has passed a check with an error. -/
theorem not_of_ite_zero {p : Prop} [Decidable p] {e : ℤ} {u : Pgframe} {v : ℤ × Pgframe}
    (he : e ≠ 0) (h : (if p then (e, u) else v).1 = 0) : ¬ p ∧ v.1 = 0 := by
  by_cases hp : p
  · rw [if_pos hp] at h
    exact absurd h he
  · rw [if_neg hp] at h
    exact ⟨hp, h⟩

theorem pgfmModuleInit_spec (h0 : x.initDone = 0) (h : (pgfmModuleInit a x).1 = 0) :
    ∃ freeStart freeEnd, Checked a freeStart freeEnd ∧
      ∀ x', x'.initDone = 0 → pgfmModuleInit a x' = (0, ⟨1, a.freeVaStart,
        initPages a freeStart freeEnd x'.pages (toInt32 a.pageNums).toNat⟩) := by
  unfold pgfmModuleInit at h
  rw [if_neg (not_not.2 h0)] at h
  dsimp only at h
  -- an error is not zero
  obtain ⟨h1, h⟩ := not_of_ite_zero (by decide) h
  obtain ⟨h2, h⟩ := not_of_ite_zero (by decide) h
  obtain ⟨h3, h⟩ := not_of_ite_zero (by decide) h
  obtain ⟨h4, h⟩ := not_of_ite_zero (by decide) h
  obtain ⟨h5, h⟩ := not_of_ite_zero (by decide) h
  obtain ⟨h6, h⟩ := not_of_ite_zero (by decide) h
  obtain ⟨h7, h⟩ := not_of_ite_zero (by decide) h
  obtain ⟨h8, h⟩ := not_of_ite_zero (by decide) h
  obtain ⟨h9, -⟩ := not_of_ite_zero (by decide) h
  refine ⟨_, _, ⟨not_lt.1 h1, not_not.1 h2, not_not.1 h3, not_not.1 h4, Nat.pos_of_ne_zero h5,
    (not_not.1 h7).1, (not_not.1 h7).2.1, (not_not.1 h7).2.2.1, (not_not.1 h7).2.2.2, not_lt.1 h8,
    rfl, rfl, not_le.1 h9⟩, fun x' h0' => ?_⟩
  unfold pgfmModuleInit
  rw [if_neg (not_not.2 h0')]
  dsimp only
  rw [if_neg h1, if_neg h2, if_neg h3, if_neg h4, if_neg h5, if_neg h6, if_neg h7,
    if_neg h8, if_neg h9]

namespace Checked

/-- The memory does not wrap around. -/
theorem vaEnd_eq (h : Checked a freeStart freeEnd) : a.vaEnd = a.vaStart + a.size := by
  have h1 := h.le_free
  have h2 := h.free_lt
  have h3 := a.vaStart_lt
  have h4 := a.size_lt
  unfold PgframeArch.vaEnd at *
  omega

theorem size_eq (h : Checked a freeStart freeEnd) : a.size = a.pageNums * pageSize := by
  have h2 := h.size_aligned
  unfold PgframeArch.pageNums
  simp only [pageSize, pageOffset] at *
  omega

/-- The addresses of the pages. -/
theorem id2va_eq (h : Checked a freeStart freeEnd) {i : ℕ} (hi : i < a.pageNums) :
    a.id2va i = a.vaStart + i * pageSize := by
  have h1 := h.vaEnd_eq
  have h2 := h.size_aligned
  unfold PgframeArch.vaEnd at h1
  unfold PgframeArch.pageNums at hi
  unfold PgframeArch.id2va
  simp only [pageSize, pageOffset] at *
  omega

/-- A page of the free region behind the array, when sizes fit. -/
theorem freeStart_le (h : Checked a freeStart freeEnd) (hfit : a.Fits) :
    a.freeVaStart + a.pageNums * sizeofPageframe ≤ freeStart ∧
      freeEnd ≤ a.freeVaStart + a.freeSize := by
  obtain ⟨hneed, hend⟩ := hfit
  have h1 := h.enough
  have h2 := h.freeStart_eq
  have h3 := h.freeEnd_eq
  have h4 := h.lt
  have h5 := h.vaEnd_eq
  have h6 := h.freeEnd_le
  have h7 := h.vaStart_aligned
  have h8 := h.size_aligned
  have h9 := a.freeVaStart_lt
  rw [toInt32_of_lt hneed] at h1 h2
  rw [h2, h3]
  unfold PgframeArch.vaEnd at *
  unfold pageUpperAlign pageDownsAlign at *
  simp only [pageSize, pageOffset] at *
  omega

/-- The first page behind the place for the array, as the code computes it. -/
theorem exists_page (h : Checked a freeStart freeEnd) (hle : a.vaStart ≤ freeStart) :
    ∃ i < a.pageNums, a.vaStart + i * pageSize = freeStart := by
  have h1 := h.freeStart_eq
  have h2 := h.freeEnd_eq
  have h3 := h.lt
  have h4 := h.vaEnd_eq
  have h5 := h.freeEnd_le
  have h6 := h.vaStart_aligned
  have h7 := h.size_aligned
  refine ⟨(freeStart - a.vaStart) / pageSize, ?_, ?_⟩ <;>
    unfold PgframeArch.vaEnd pageUpperAlign pageDownsAlign PgframeArch.pageNums at * <;>
    simp only [pageSize, pageOffset] at * <;> omega

/-- The pages the loop has been through. -/
theorem has_head_iff (h : Checked a freeStart freeEnd) (pages : ℕ → Pageframe) {n i : ℕ}
    (hi : i < n) (hlt : i < a.pageNums) :
    (initPages a freeStart freeEnd pages n i).Has flagHead ↔
      freeStart ≤ a.vaStart + i * pageSize ∧ a.vaStart + i * pageSize < freeEnd := by
  rw [initPages_of_lt pages hi, h.id2va_eq hlt]
  unfold Pageframe.Has
  dsimp only
  split_ifs with hin
  · exact iff_of_true (by decide) hin
  · exact iff_of_false (by decide) hin

theorem onlyUnused (h : Checked a freeStart freeEnd) (hfit : a.Fits) (pages : ℕ → Pageframe) :
    OnlyUnused a ⟨1, a.freeVaStart,
      initPages a freeStart freeEnd pages (toInt32 a.pageNums).toNat⟩ := by
  obtain ⟨hstart, hend⟩ := h.freeStart_le hfit
  obtain ⟨hneed, hwrap⟩ := hfit
  have hlt := h.lt
  have hn : (toInt32 a.pageNums).toNat = a.pageNums := by
    unfold sizeofPageframe at hneed
    rw [toInt32_of_lt (by omega)]
    exact Int.toNat_natCast _
  rw [hn]
  refine ⟨fun b hb => ?_, fun i hi hhead b hb => ?_, fun i hi hhead => ?_⟩
  · obtain ⟨h1, h2⟩ := hb
    dsimp only at h1 h2
    refine ⟨h1, ?_⟩
    rw [Nat.mod_eq_of_lt hwrap]
    omega
  · obtain ⟨h1, h2⟩ := (h.has_head_iff pages hi hi).1 hhead
    obtain ⟨h3, h4⟩ := hb
    -- the end of the region is the start of a page, so the whole page lies before it
    have h5 : a.vaStart + i * pageSize + pageSize ≤ freeEnd := by
      have h6 := h.freeEnd_eq
      have h7 := h.vaStart_aligned
      unfold pageDownsAlign at h6
      simp only [pageSize, pageOffset] at *
      omega
    refine ⟨⟨by omega, ?_⟩, fun hb => ?_⟩
    · rw [Nat.mod_eq_of_lt hwrap]
      omega
    · have h6 := hb.2
      dsimp only at h6
      omega
  · have hno := (h.has_head_iff pages hi hi).not.1 hhead
    dsimp only
    rw [initPages_of_lt pages hi, h.id2va_eq hi]
    exact if_neg hno

/-- When the size of the array does not fit an `int`, the code computes one that is too small. -/
theorem need_lt (h : Checked a freeStart freeEnd) (hn : a.pageNums < 2 ^ 31)
    (hwrap : a.freeVaStart + a.freeSize < 2 ^ 64) (hge : 2 ^ 31 ≤ a.pageNums * sizeofPageframe) :
    0 ≤ toInt32 (a.pageNums * sizeofPageframe) ∧
      toInt32 (a.pageNums * sizeofPageframe) + 2 ^ 32 ≤ a.pageNums * sizeofPageframe := by
  have hcong : toInt32 (a.pageNums * sizeofPageframe) % 2 ^ 32 =
      ((a.pageNums * sizeofPageframe : ℕ) : ℤ) % 2 ^ 32 := Int.bmod_emod
  obtain ⟨hlo, hhi⟩ := toInt32_bounds (a.pageNums * sizeofPageframe)
  have henough := h.enough
  have hle := h.freeEnd_le
  have hlefree := h.le_free
  rw [Nat.mod_eq_of_lt hwrap, h.vaEnd_eq, h.size_eq] at hle
  generalize toInt32 (a.pageNums * sizeofPageframe) = need at *
  unfold sizeofPageframe at *
  simp only [pageSize, pageOffset] at hle
  -- the region is smaller than a negative size is as a `size_t`
  have h0 : 0 ≤ need := by omega
  omega

/-- So the place for the array ends inside it. -/
theorem freeStart_in (h : Checked a freeStart freeEnd) (hn : a.pageNums < 2 ^ 31)
    (hwrap : a.freeVaStart + a.freeSize < 2 ^ 64) (hge : 2 ^ 31 ≤ a.pageNums * sizeofPageframe) :
    a.freeVaStart ≤ freeStart ∧ freeStart < a.freeVaStart + a.pageNums * sizeofPageframe := by
  obtain ⟨h0, hneed⟩ := h.need_lt hn hwrap hge
  have henough := h.enough
  have heq := h.freeStart_eq
  have hle := h.freeEnd_le
  have hvalt : a.vaEnd < 2 ^ 64 := Nat.mod_lt _ (by decide)
  have hva0 := h.vaStart_aligned
  rw [Nat.mod_eq_of_lt hwrap, h.vaEnd_eq, h.size_eq] at hle
  rw [h.vaEnd_eq, h.size_eq] at hvalt
  rw [heq]
  generalize toInt32 (a.pageNums * sizeofPageframe) = need at *
  unfold pageUpperAlign sizeofPageframe at *
  simp only [pageSize, pageOffset] at *
  have hsum : ((a.freeVaStart + need) % 2 ^ 64).toNat = a.freeVaStart + need.toNat := by omega
  rw [hsum]
  omega

theorem fits (h : Checked a freeStart freeEnd) (hall : ∀ pages, OnlyUnused a ⟨1, a.freeVaStart,
    initPages a freeStart freeEnd pages (toInt32 a.pageNums).toNat⟩) : a.Fits := by
  have hpos : 0 < a.pageNums := by
    have h1 := h.size_pos
    have h2 := h.size_eq
    simp only [pageSize, pageOffset] at *
    omega
  -- the array is not empty, so the region is not
  have hwrap : a.freeVaStart + a.freeSize < 2 ^ 64 := by
    have hin := ((hall fun _ => .handed 0).array a.freeVaStart
      ⟨le_rfl, by unfold sizeofPageframe; dsimp only; omega⟩).2
    have h1 := a.freeVaStart_lt
    have h2 := a.freeSize_lt
    omega
  -- the loop goes through all pages, or some keep what the memory held
  have hn : a.pageNums < 2 ^ 31 := by
    by_contra hge
    have hbound := (toInt32_bounds a.pageNums).2
    have hold : initPages a freeStart freeEnd (fun _ => ⟨.buddyAllocator, 0, 0, 0⟩)
        (toInt32 a.pageNums).toNat (a.pageNums - 1) = ⟨.buddyAllocator, 0, 0, 0⟩ :=
      initPages_of_ge _ (by omega)
    have hstatic := (hall fun _ => ⟨.buddyAllocator, 0, 0, 0⟩).static (a.pageNums - 1) (by omega)
      (by dsimp only; rw [hold]; decide)
    dsimp only at hstatic
    rw [hold] at hstatic
    exact absurd hstatic (by decide)
  refine ⟨?_, hwrap⟩
  by_contra hge
  -- the page behind the place for the array starts inside the array
  obtain ⟨hlo, hhi⟩ := h.freeStart_in hn hwrap (not_lt.1 hge)
  obtain ⟨i, hi, hip⟩ := h.exists_page (h.le_free.trans hlo)
  have hlt : i < (toInt32 a.pageNums).toNat := by
    rw [toInt32_of_lt hn, Int.toNat_natCast]
    exact hi
  have hhead := (h.has_head_iff (fun _ => .handed 0) hlt hi).2 ⟨hip.ge, hip.trans_lt h.lt⟩
  have hpage : a.InPage i freeStart := by
    unfold PgframeArch.InPage
    rw [hip]
    simp only [pageSize, pageOffset]
    omega
  have hno := (hall fun _ => .handed 0).head i hi
  dsimp only at hno
  exact (hno hhead freeStart hpage).2 ⟨hlo, hhi⟩

theorem onlyUnused_iff (h : Checked a freeStart freeEnd) : (∀ pages, OnlyUnused a
    ⟨1, a.freeVaStart, initPages a freeStart freeEnd pages (toInt32 a.pageNums).toNat⟩) ↔ a.Fits :=
  ⟨h.fits, h.onlyUnused⟩

/-- The pages `pgfm_module_init` leaves free. -/
theorem freeRange (h : Checked a freeStart freeEnd) (hfit : a.Fits) (m : ℕ) (hm : 1 ≤ m ∧ m ≤ 31) :
    ∃ (c : Layout) (R : FreeRange c), c.maxOrder = m ∧ c.paStart = a.paStart ∧
      c.vaStart = a.vaStart ∧ c.pageNums = a.pageNums ∧
      ∀ pages, ∀ i < a.pageNums,
        initPages a freeStart freeEnd pages (toInt32 a.pageNums).toNat i = R.pages i := by
  obtain ⟨hstart, hend⟩ := h.freeStart_le hfit
  have hsize := h.size_eq
  have hva := h.vaEnd_eq
  have hvalt : a.vaEnd < 2 ^ 64 := Nat.mod_lt _ (by decide)
  have hn := hfit.1
  unfold sizeofPageframe at hn
  have hle := h.freeEnd_le
  rw [Nat.mod_eq_of_lt hfit.2] at hle
  have hlefree := h.le_free
  have hs : freeStart % pageSize = 0 := by
    rw [h.freeStart_eq]
    exact Nat.mul_mod_left _ _
  have he : freeEnd % pageSize = 0 := by
    rw [h.freeEnd_eq]
    exact Nat.mul_mod_left _ _
  have hlt := h.lt
  have hal := h.vaStart_aligned
  have hbound : freeEnd ≤ a.vaStart + a.pageNums * pageSize := by omega
  have hlo : a.vaStart ≤ freeStart := by omega
  have hvaEnd : a.vaStart + a.pageNums * pageSize < 2 ^ 64 := by omega
  set c : Layout := ⟨m, a.paStart, a.vaStart, a.pageNums, hm.1, hm.2, h.paStart_le,
    h.paStart_aligned, h.vaStart_aligned, by omega, hvaEnd⟩ with hc
  refine ⟨c, ⟨(freeStart - a.vaStart) / pageSize, (freeEnd - freeStart) / pageSize, ?_⟩, rfl, rfl,
    rfl, rfl, fun pages i hi => ?_⟩
  · show (freeStart - a.vaStart) / pageSize + (freeEnd - freeStart) / pageSize ≤ a.pageNums
    simp only [pageSize, pageOffset] at *
    omega
  · rw [toInt32_of_lt (by omega), Int.toNat_natCast, initPages_of_lt pages hi, h.id2va_eq hi]
    unfold FreeRange.pages
    have hiff : (freeStart ≤ a.vaStart + i * pageSize ∧ a.vaStart + i * pageSize < freeEnd) ↔
        (freeStart - a.vaStart) / pageSize ≤ i ∧
          i < (freeStart - a.vaStart) / pageSize + (freeEnd - freeStart) / pageSize := by
      simp only [pageSize, pageOffset] at *
      omega
    simp only [hiff]

end Checked

/-! ### Results -/

/-- On the layouts on which `pgfm_module_init` returns `0`, whatever the memory held before, only
unused memory is handed to the buddy allocator just when the size of the array fits an `int` and the
free region does not wrap around. -/
theorem pgfm_module_init_unused_iff (a : PgframeArch) (x : Pgframe) (h0 : x.initDone = 0)
    (h : (pgfmModuleInit a x).1 = 0) :
    (∀ x', x'.initDone = 0 → OnlyUnused a (pgfmModuleInit a x').2) ↔ a.Fits := by
  obtain ⟨freeStart, freeEnd, hc, hx⟩ := pgfmModuleInit_spec h0 h
  rw [← hc.onlyUnused_iff]
  constructor
  · intro hall pages
    -- any descriptors may be in the memory before
    have hu := hall ⟨0, 0, pages⟩ rfl
    rwa [hx ⟨0, 0, pages⟩ rfl] at hu
  · intro hall x' h0'
    rw [hx x' h0']
    exact hall x'.pages

/-- Then the pages are those of a contiguous range, as `buddy_module_init` finds them. -/
theorem pgfmModuleInit_freeRange (h0 : x.initDone = 0) (h : (pgfmModuleInit a x).1 = 0)
    (hfit : a.Fits) (m : ℕ) (hm : 1 ≤ m ∧ m ≤ 31) :
    ∃ (c : Layout) (R : FreeRange c), c.maxOrder = m ∧ c.paStart = a.paStart ∧
      c.vaStart = a.vaStart ∧ c.pageNums = a.pageNums ∧
      ∀ i < a.pageNums, (pgfmModuleInit a x).2.pages i = R.pages i := by
  obtain ⟨freeStart, freeEnd, hc, hx⟩ := pgfmModuleInit_spec h0 h
  obtain ⟨c, R, h1, h2, h3, h4, hpages⟩ := hc.freeRange hfit m hm
  refine ⟨c, R, h1, h2, h3, h4, ?_⟩
  rw [hx x h0]
  dsimp only
  exact hpages x.pages

/-- `256` pages, of which the kernel has `16`. -/
def smallArch : PgframeArch := ⟨2 ^ 31, 2 ^ 31, 2 ^ 20, 2 ^ 31, 2 ^ 16, 2 ^ 31 + 2 ^ 16,
  2 ^ 20 - 2 ^ 16, by decide, by decide, by decide, by decide, by decide, by decide, by decide⟩

theorem pgfm_module_init_unused_iff_small :
    (∀ x, x.initDone = 0 → OnlyUnused smallArch (pgfmModuleInit smallArch x).2) ↔
      smallArch.Fits :=
  pgfm_module_init_unused_iff smallArch ⟨0, 0, fun _ => .handed 0⟩ rfl (by decide)

/-- `2 ^ 27` pages, whose array has `2 ^ 32` bytes. -/
def largeArch : PgframeArch := ⟨2 ^ 31, 2 ^ 31, 2 ^ 39, 2 ^ 31, 2 ^ 16, 2 ^ 31 + 2 ^ 16,
  2 ^ 39 - 2 ^ 16, by decide, by decide, by decide, by decide, by decide, by decide, by decide⟩

/-- There the first page of the array becomes a `HEAD` page. -/
theorem not_pgfm_module_init_unused :
    ¬ ∀ (a : PgframeArch) (x : Pgframe), x.initDone = 0 → (pgfmModuleInit a x).1 = 0 →
      OnlyUnused a (pgfmModuleInit a x).2 := by
  intro hall
  obtain ⟨freeStart, freeEnd, hc, hx⟩ :=
    pgfmModuleInit_spec (a := largeArch) (x := ⟨0, 0, fun _ => .handed 0⟩) rfl (by decide)
  refine absurd (hc.fits fun pages => ?_) (by decide)
  have hret := hx ⟨0, 0, pages⟩ rfl
  have hu := hall largeArch ⟨0, 0, pages⟩ rfl (congrArg Prod.fst hret)
  rwa [hret] at hu

end AcoOs
