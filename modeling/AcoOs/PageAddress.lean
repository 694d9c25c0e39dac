/-
The macros of `mm/pageframe.h` between addresses, page ids and descriptors.

Addresses are 64-bit words and their sums and differences wrap around; a page id is the quotient of
such a difference, cast to `int`, and a descriptor is a pointer into the array.

* **`conversions_inverse_iff`** — on the layouts on which `pgfm_module_init` returns `0`, the
  conversions are inverse to each other just when there are fewer than `2 ^ 31` pages;
* `Checked.always` — what holds on every such layout: the linear map between the two kinds of
  addresses, and the way from a valid id and back;
* `va2id_eq_va2pg`, `pageId2va_eq_pg2va` — on the layouts of the allocators the macros are those of
  `Layout`.
-/
import AcoOs.PageBoot

namespace AcoOs

/-! ### Words and pointers -/

/-- The cast to `uintptr_t`. -/
def toUintptr (z : ℤ) : ℕ := (z % 2 ^ 64).toNat

/-- `base + i` on pointers to elements of `size` bytes. -/
def ptrAdd (size base : ℕ) (i : ℤ) : ℕ := toUintptr (base + i * size)

/-- `p - q` on pointers to elements of `size` bytes. -/
def ptrDiff (size p q : ℕ) : ℤ := Int.bmod (p - q) (2 ^ 64) / size

theorem toUintptr_of_lt {n : ℕ} (h : n < 2 ^ 64) : toUintptr n = n := by
  unfold toUintptr
  omega

theorem natCast_toUintptr (z : ℤ) : (toUintptr z : ℤ) = z % 2 ^ 64 :=
  Int.toNat_of_nonneg (Int.emod_nonneg _ (by norm_num))

theorem ptrDiff_ptrAdd {size : ℕ} (base : ℕ) {i : ℤ} (hsize : 0 < size)
    (hlo : -2 ^ 63 ≤ i * size) (hhi : i * size < 2 ^ 63) :
    ptrDiff size (ptrAdd size base i) base = i := by
  have hbytes : Int.bmod ((toUintptr (base + i * size) : ℤ) - base) (2 ^ 64) = i * size := by
    rw [natCast_toUintptr, show (2 : ℤ) ^ 64 = (2 ^ 64 : ℕ) from rfl, Int.emod_sub_bmod,
      add_sub_cancel_left]
    exact Int.bmod_eq_of_le (by omega) (by omega)
  unfold ptrDiff ptrAdd
  rw [hbytes]
  exact Int.mul_ediv_cancel _ (by omega)

/-! ### The macros -/

namespace PgframeArch

variable (a : PgframeArch) (pages : ℕ)

/-- `PGFRAME_VA2PA_OFFSET`. -/
def va2paOffset : ℕ := toUintptr (a.vaStart - a.paStart)

/-- `va2pa`. -/
def va2pa (va : ℕ) : ℕ := toUintptr (va - a.va2paOffset)

/-- `pa2va`. -/
def pa2va (pa : ℕ) : ℕ := toUintptr (pa + a.va2paOffset)

/-- `PGFRAME_PA2PAGEID`. -/
def pa2PageId (pa : ℕ) : ℕ := toUintptr (pa - a.paStart) / pageSize

/-- `PGFRAME_VA2PAGEID`. -/
def va2PageId (va : ℕ) : ℕ := toUintptr (va - a.vaStart) / pageSize

/-- `va2id`. -/
def va2id (va : ℕ) : ℤ := toInt32 (a.va2PageId va)

/-- `pa2id`. -/
def pa2id (pa : ℕ) : ℤ := toInt32 (a.pa2PageId pa)

/-- `PGFRAME_PAGEID2VA`, the `id2va` of an `int`. -/
def pageId2va (id : ℤ) : ℕ := toUintptr (a.vaStart + toUintptr (id * pageSize))

/-- `PGFRAME_PAGEID2PA`, the `id2pa` of an `int`. -/
def pageId2pa (id : ℤ) : ℕ := toUintptr (a.paStart + toUintptr (id * pageSize))

/-- `id2pg`; `pages` is `PAGES`. -/
def id2pg (id : ℤ) : ℕ := ptrAdd sizeofPageframe pages id

/-- `pg2id`. -/
def pg2id (pg : ℕ) : ℤ := Int.bmod (ptrDiff sizeofPageframe pg pages) (2 ^ 32)

/-- `va2pg`. -/
def va2pg (va : ℕ) : ℕ := ptrAdd sizeofPageframe pages (a.va2id va)

/-- `pa2pg`. -/
def pa2pg (pa : ℕ) : ℕ := ptrAdd sizeofPageframe pages (a.pa2id pa)

/-- `pg2va`. -/
def pg2va (pg : ℕ) : ℕ := a.pageId2va (pg2id pages pg)

/-- `va_valid`. -/
def VaValid (va : ℕ) : Prop := a.vaStart ≤ va ∧ va < a.vaEnd

/-- `id_valid`. -/
def IdValid (id : ℤ) : Prop := 0 ≤ id ∧ id < toInt32 a.pageNums

/-- `pg_valid`. -/
def PgValid (pg : ℕ) : Prop := a.IdValid (pg2id pages pg)

end PgframeArch

/-- Addresses, page ids and descriptors are converted into each other without loss. -/
structure Inverse (a : PgframeArch) (pages : ℕ) : Prop where
  pa2va : ∀ va, a.VaValid va → a.pa2va (a.va2pa va) = va
  pg2va : ∀ va, a.VaValid va → a.pg2va pages (a.va2pg pages va) = pageDownsAlign va
  pa2pg : ∀ va, a.VaValid va → a.va2pg pages va = a.pa2pg pages (a.va2pa va)
  pgValid : ∀ va, a.VaValid va → a.PgValid pages (a.va2pg pages va)
  va2id : ∀ id, a.IdValid id → a.va2id (a.pageId2va id) = id
  pa2id : ∀ id, a.IdValid id → a.pa2id (a.pageId2pa id) = id
  pg2id : ∀ id, a.IdValid id → PgframeArch.pg2id pages (PgframeArch.id2pg pages id) = id
  distinct : ∀ va va', a.VaValid va → a.VaValid va' → pageDownsAlign va ≠ pageDownsAlign va' →
    a.va2pg pages va ≠ a.va2pg pages va'

/-! ### Descriptors -/

namespace PgframeArch

variable {a : PgframeArch} {pages freeStart freeEnd : ℕ} {id : ℤ} {va : ℕ}

/-- The way from an `int` to a descriptor and back, wherever the array is. -/
theorem pg2id_id2pg (pages : ℕ) (hlo : -2 ^ 31 ≤ id) (hhi : id < 2 ^ 31) :
    pg2id pages (id2pg pages id) = id := by
  unfold pg2id id2pg
  rw [ptrDiff_ptrAdd pages (by decide) (by unfold sizeofPageframe; omega)
    (by unfold sizeofPageframe; omega)]
  exact Int.bmod_eq_of_le (by omega) (by omega)

theorem pg2id_va2pg (pages va : ℕ) : pg2id pages (a.va2pg pages va) = a.va2id va := by
  obtain ⟨hlo, hhi⟩ := toInt32_bounds (a.va2PageId va)
  exact pg2id_id2pg pages hlo hhi

theorem IdValid.bounds (h : a.IdValid id) : 0 ≤ id ∧ id < 2 ^ 31 ∧ id < a.pageNums := by
  obtain ⟨hlo, hhi⟩ := h
  have hmod : toInt32 a.pageNums % 2 ^ 32 = (a.pageNums : ℤ) % 2 ^ 32 := Int.bmod_emod
  have hint := toInt32_bounds a.pageNums
  omega

/-! ### Addresses -/

/-- Both kinds of addresses have the same distance from their start. -/
theorem toUintptr_va2pa (va : ℕ) :
    toUintptr (a.va2pa va - a.paStart) = toUintptr (va - a.vaStart) := by
  have hoff := natCast_toUintptr (a.vaStart - a.paStart)
  have hpa := natCast_toUintptr (va - a.va2paOffset)
  unfold va2pa
  unfold va2paOffset at *
  unfold toUintptr at *
  omega

theorem pa2va_va2pa (hva : va < 2 ^ 64) : a.pa2va (a.va2pa va) = va := by
  have hpa := natCast_toUintptr (va - a.va2paOffset)
  unfold pa2va va2pa
  unfold toUintptr at *
  omega

theorem va2pg_eq_pa2pg (va : ℕ) : a.va2pg pages va = a.pa2pg pages (a.va2pa va) := by
  have hid : a.va2id va = a.pa2id (a.va2pa va) := by
    unfold va2id pa2id va2PageId pa2PageId
    rw [toUintptr_va2pa]
  unfold va2pg pa2pg
  rw [hid]

end PgframeArch

namespace Checked

open PgframeArch

variable {a : PgframeArch} {pages freeStart freeEnd : ℕ} {id : ℤ} {va : ℕ}

/-- A valid address lies in the page with its id. -/
theorem va2PageId_spec (h : Checked a freeStart freeEnd) (hva : a.VaValid va) :
    a.va2PageId va < a.pageNums ∧
      a.vaStart + a.va2PageId va * pageSize = pageDownsAlign va := by
  have hend := h.vaEnd_eq
  have hsize := h.size_aligned
  have hstart := h.vaStart_aligned
  have hlt : a.vaEnd < 2 ^ 64 := Nat.mod_lt _ (by decide)
  obtain ⟨hlo, hhi⟩ := hva
  have hoff : toUintptr (va - a.vaStart) = va - a.vaStart := by
    rw [← Nat.cast_sub hlo]
    exact toUintptr_of_lt (by omega)
  unfold va2PageId pageDownsAlign
  rw [hoff]
  unfold PgframeArch.pageNums
  simp only [pageSize, pageOffset] at *
  omega

/-- The first byte of every page is valid. -/
theorem vaValid_page (h : Checked a freeStart freeEnd) {i : ℕ} (hi : i < a.pageNums) :
    a.VaValid (a.vaStart + i * pageSize) ∧ a.va2PageId (a.vaStart + i * pageSize) = i := by
  have hend := h.vaEnd_eq
  have hsize := h.size_eq
  have hva : a.VaValid (a.vaStart + i * pageSize) := by
    unfold PgframeArch.VaValid
    rw [hend, hsize]
    simp only [pageSize, pageOffset]
    omega
  refine ⟨hva, ?_⟩
  have hpage := (h.va2PageId_spec hva).2
  have hstart := h.vaStart_aligned
  unfold pageDownsAlign at hpage
  simp only [pageSize, pageOffset] at *
  omega

theorem pageId2va_eq (h : Checked a freeStart freeEnd) {i : ℕ} (hi : i < a.pageNums) :
    a.pageId2va i = a.vaStart + i * pageSize := by
  have hend := h.vaEnd_eq
  have hsize := h.size_eq
  have hlt : a.vaEnd < 2 ^ 64 := Nat.mod_lt _ (by decide)
  unfold PgframeArch.pageId2va toUintptr
  simp only [pageSize, pageOffset] at *
  omega

theorem pageId2pa_eq (h : Checked a freeStart freeEnd) {i : ℕ} (hi : i < a.pageNums) :
    a.pageId2pa i = a.paStart + i * pageSize := by
  have hend := h.vaEnd_eq
  have hsize := h.size_eq
  have hle := h.paStart_le
  have hlt : a.vaEnd < 2 ^ 64 := Nat.mod_lt _ (by decide)
  unfold PgframeArch.pageId2pa toUintptr
  simp only [pageSize, pageOffset] at *
  omega

/-- The way from a valid id to an address and back. -/
theorem va2id_pageId2va (h : Checked a freeStart freeEnd) (hid : a.IdValid id) :
    a.va2id (a.pageId2va id) = id := by
  obtain ⟨h0, hint, hlt⟩ := hid.bounds
  obtain ⟨i, rfl⟩ := Int.eq_ofNat_of_zero_le h0
  have hi : i < a.pageNums := by omega
  unfold PgframeArch.va2id
  rw [h.pageId2va_eq hi, (h.vaValid_page hi).2]
  exact toInt32_of_lt (by omega)

theorem pa2id_pageId2pa (h : Checked a freeStart freeEnd) (hid : a.IdValid id) :
    a.pa2id (a.pageId2pa id) = id := by
  obtain ⟨h0, hint, hlt⟩ := hid.bounds
  obtain ⟨i, rfl⟩ := Int.eq_ofNat_of_zero_le h0
  have hi : i < a.pageNums := by omega
  have hpage : a.pa2PageId (a.paStart + i * pageSize) = i := by
    have hend := h.vaEnd_eq
    have hsize := h.size_eq
    have hvalt : a.vaEnd < 2 ^ 64 := Nat.mod_lt _ (by decide)
    unfold PgframeArch.pa2PageId toUintptr
    simp only [pageSize, pageOffset] at *
    omega
  unfold PgframeArch.pa2id
  rw [h.pageId2pa_eq hi, hpage]
  exact toInt32_of_lt (by omega)

/-- What holds on every layout, however many pages it has. -/
theorem always (h : Checked a freeStart freeEnd) (pages : ℕ) :
    (∀ va, a.VaValid va → a.pa2va (a.va2pa va) = va ∧
      a.va2pg pages va = a.pa2pg pages (a.va2pa va)) ∧
    ∀ id, a.IdValid id → a.va2id (a.pageId2va id) = id ∧ a.pa2id (a.pageId2pa id) = id ∧
      pg2id pages (id2pg pages id) = id := by
  refine ⟨fun va hva => ⟨?_, va2pg_eq_pa2pg va⟩, fun id hid => ?_⟩
  · have hlt : a.vaEnd < 2 ^ 64 := Nat.mod_lt _ (by decide)
    exact pa2va_va2pa (hva.2.trans hlt)
  · obtain ⟨h0, hint, -⟩ := hid.bounds
    exact ⟨h.va2id_pageId2va hid, h.pa2id_pageId2pa hid, pg2id_id2pg pages (by omega) hint⟩

/-- With fewer than `2 ^ 31` pages the id of a valid address is the number of its page. -/
theorem va2id_eq (h : Checked a freeStart freeEnd) (hn : a.pageNums < 2 ^ 31)
    (hva : a.VaValid va) : a.va2id va = a.va2PageId va :=
  toInt32_of_lt ((h.va2PageId_spec hva).1.trans hn)

theorem inverse (h : Checked a freeStart freeEnd) (hn : a.pageNums < 2 ^ 31) (pages : ℕ) :
    Inverse a pages := by
  obtain ⟨haddr, hids⟩ := h.always pages
  refine ⟨fun va hva => (haddr va hva).1, fun va hva => ?_, fun va hva => (haddr va hva).2,
    fun va hva => ?_, fun id hid => (hids id hid).1, fun id hid => (hids id hid).2.1,
    fun id hid => (hids id hid).2.2, fun va va' hva hva' hne heq => hne ?_⟩
  · obtain ⟨hlt, hpage⟩ := h.va2PageId_spec hva
    unfold PgframeArch.pg2va
    rw [pg2id_va2pg, h.va2id_eq hn hva, h.pageId2va_eq hlt, hpage]
  · have hlt := (h.va2PageId_spec hva).1
    unfold PgframeArch.PgValid PgframeArch.IdValid
    rw [pg2id_va2pg, h.va2id_eq hn hva, toInt32_of_lt hn]
    omega
  · -- equal descriptors have equal ids, and the id tells the page
    have hid := congrArg (pg2id pages) heq
    rw [pg2id_va2pg, pg2id_va2pg, h.va2id_eq hn hva, h.va2id_eq hn hva'] at hid
    rw [← (h.va2PageId_spec hva).2, ← (h.va2PageId_spec hva').2, Int.natCast_inj.1 hid]

/-- With more pages the last page that an `int` can name has no valid descriptor. -/
theorem pageNums_lt_of_inverse (h : Checked a freeStart freeEnd) (hinv : Inverse a pages) :
    a.pageNums < 2 ^ 31 := by
  by_contra hge
  have hi : 2 ^ 31 - 1 < a.pageNums := by omega
  obtain ⟨hva, hpage⟩ := h.vaValid_page hi
  have hvalid := hinv.pgValid _ hva
  unfold PgframeArch.PgValid PgframeArch.IdValid at hvalid
  rw [pg2id_va2pg] at hvalid
  unfold PgframeArch.va2id at hvalid
  rw [hpage, toInt32_of_lt (by norm_num)] at hvalid
  have hint := (toInt32_bounds a.pageNums).2
  push_cast at hvalid
  omega

end Checked

/-! ### The layouts of the allocators -/

section Layout

variable {a : PgframeArch} {freeStart freeEnd : ℕ} {c : Layout}

theorem va2id_eq_va2pg (h : Checked a freeStart freeEnd) (hstart : c.vaStart = a.vaStart)
    (hn : c.pageNums = a.pageNums) {va : ℕ} (hva : a.VaValid va) : a.va2id va = c.va2pg va := by
  have hlt := c.pageNums_lt
  rw [h.va2id_eq (by omega) hva]
  have hvalt := a.vaStart_lt
  unfold PgframeArch.va2PageId Layout.va2pg toUintptr
  rw [hstart]
  congr 2
  omega

theorem pageId2va_eq_pg2va (h : Checked a freeStart freeEnd) (hstart : c.vaStart = a.vaStart)
    (hn : c.pageNums = a.pageNums) {i : ℕ} (hi : i < a.pageNums) :
    a.pageId2va i = c.pg2va i := by
  rw [h.pageId2va_eq hi, Layout.pg2va_of_valid (by omega), hstart]

end Layout

/-! ### Results -/

/-- The conversions are inverse to each other just when the cast of the number of pages to `int`
loses nothing. -/
theorem conversions_inverse_iff (a : PgframeArch) (x : Pgframe) (h0 : x.initDone = 0)
    (h : (pgfmModuleInit a x).1 = 0) :
    Inverse a (pgfmModuleInit a x).2.pgframePages ↔ a.pageNums < 2 ^ 31 := by
  obtain ⟨freeStart, freeEnd, hc, -⟩ := pgfmModuleInit_spec h0 h
  exact ⟨hc.pageNums_lt_of_inverse, fun hn => hc.inverse hn _⟩

theorem conversions_inverse_iff_small :
    Inverse smallArch (pgfmModuleInit smallArch ⟨0, 0, fun _ => .handed 0⟩).2.pgframePages ↔
      smallArch.pageNums < 2 ^ 31 :=
  conversions_inverse_iff smallArch ⟨0, 0, fun _ => .handed 0⟩ rfl (by decide)

theorem hugeSize_lt : 2 ^ 43 < 2 ^ 64 := by norm_num

theorem hugeFree_lt : 2 ^ 43 - 2 ^ 16 < 2 ^ 64 := by norm_num

/-- `2 ^ 31` pages, the first number that is not an `int`. -/
def hugeArch : PgframeArch :=
  { smallArch with
    size := 2 ^ 43
    freeSize := 2 ^ 43 - 2 ^ 16
    size_lt := hugeSize_lt
    freeSize_lt := hugeFree_lt }

/-- There no descriptor is valid, not even that of the first page. -/
theorem not_conversions_inverse : ¬ ∀ (a : PgframeArch) (x : Pgframe), x.initDone = 0 →
    (pgfmModuleInit a x).1 = 0 → Inverse a (pgfmModuleInit a x).2.pgframePages := by
  intro hall
  have hinv := hall hugeArch ⟨0, 0, fun _ => .handed 0⟩ rfl (by decide)
  exact absurd (hinv.pgValid (2 ^ 31) ⟨by decide, by decide⟩).2 (by decide)

end AcoOs
