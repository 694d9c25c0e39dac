/-
The Sv39 macros of the RISC-V port.

An entry of a page table is a 64-bit word: the number of a physical page frame in bits
10 to 53, permissions below.  The lemmas say what the shifts and masks of `asm/vm.h` do
in arithmetic: an entry with the number of a frame gives the address of that frame back,
and the three indices of a virtual address are the digits of its page number in base 512.

`VmLayout` is a layout the port can map: physical addresses fit in an entry, and the
managed range lies in the part of the address space that the three indices tell apart.
-/
import AcoOs.SlabAllocator

namespace AcoOs

/-- A layout of the managed memory that Sv39 can map, with the number of pages of the
kernel's code: those below the separate line of the linker script. -/
structure VmLayout extends Layout where
  seperate : ℕ
  seperate_pos : 0 < seperate
  seperate_lt : seperate < pageNums
  vaStart_pos : 0 < vaStart
  paEnd_le : paStart + pageNums * pageSize ≤ 2 ^ 56
  vaEnd_le : vaStart + pageNums * pageSize ≤ 2 ^ 39

/-- `EEXIST`. -/
def eexist : ℤ := 17

/-! ### Entries -/

/-- `VM_PROT_V`, and `PROT_V` of `mm/vm.h`. -/
def vmProtV : ℕ := 1 <<< 0

/-- `VM_PROT_R`. -/
def vmProtR : ℕ := 1 <<< 1

/-- `VM_PROT_W`. -/
def vmProtW : ℕ := 1 <<< 2

/-- `VM_PROT_X`. -/
def vmProtX : ℕ := 1 <<< 3

/-- `PTE_VALID`. -/
def PteValid (pte : ℕ) : Prop := pte &&& vmProtV ≠ 0

/-- `PTE_WRITEABLE`. -/
def PteWriteable (pte : ℕ) : Prop := pte &&& vmProtW ≠ 0

/-- `PTE_READABLE`. -/
def PteReadable (pte : ℕ) : Prop := pte &&& vmProtR ≠ 0

/-- `PTE_EXCUTABLE`. -/
def PteExcutable (pte : ℕ) : Prop := pte &&& vmProtX ≠ 0

instance (pte : ℕ) : Decidable (PteValid pte) := inferInstanceAs (Decidable (_ ≠ _))

instance (pte : ℕ) : Decidable (PteWriteable pte) := inferInstanceAs (Decidable (_ ≠ _))

instance (pte : ℕ) : Decidable (PteReadable pte) := inferInstanceAs (Decidable (_ ≠ _))

instance (pte : ℕ) : Decidable (PteExcutable pte) := inferInstanceAs (Decidable (_ ≠ _))

/-- `PTE_NEXTPGT`. -/
def PteNextpgt (pte : ℕ) : Prop :=
  PteValid pte ∧ (¬ PteWriteable pte ∧ ¬ PteReadable pte ∧ ¬ PteExcutable pte)

instance (pte : ℕ) : Decidable (PteNextpgt pte) := inferInstanceAs (Decidable (_ ∧ _))

/-- `SV39_Index2Shift`. -/
def sv39Index2Shift (index : ℕ) : ℕ := 12 + 9 * (2 - index)

/-- `SV39_Index2Bit`. -/
def sv39Index2Bit (index : ℕ) : ℕ := 0x1ff <<< sv39Index2Shift index

/-- `SV39_Index2Id`. -/
def sv39Index2Id (va index : ℕ) : ℕ := (va &&& sv39Index2Bit index) >>> sv39Index2Shift index

/-- `SV39_Pa2PTE`. -/
def sv39Pa2PTE (pa prot : ℕ) : ℕ :=
  (((pa >>> pageOffset) &&& 0xfffffffffff) <<< 10) ||| (prot &&& 0x3ff)

/-- `SV39_PTE2Pa`; `~0x3ff` has 64 bits. -/
def sv39PTE2Pa (pte : ℕ) : ℕ :=
  (((pte &&& (2 ^ 64 - 1 - 0x3ff)) >>> 10) &&& 0xfffffffffff) <<< 12

/-- `PTE_NUMS`: a page of 8-byte entries. -/
def pteNums : ℕ := 1 <<< pageOffset / 8

/-- `SV39_INDEX_PAGES`. -/
def sv39IndexPages : ℕ → ℤ
  | 0 => pteNums * pteNums
  | 1 => pteNums
  | 2 => 1
  | _ => 0

theorem pteNums_eq : pteNums = 512 := rfl

/-- The lowest bit is the only one of the four that a pointer to a table has. -/
theorem and_two_pow_ne_zero {n i : ℕ} : n &&& 1 <<< i ≠ 0 ↔ n / 2 ^ i % 2 = 1 := by
  rw [Nat.one_shiftLeft, Nat.and_two_pow, Nat.testBit_eq_decide_div_mod_eq]
  by_cases h : n / 2 ^ i % 2 = 1 <;> simp [h]

theorem pteValid_iff {pte : ℕ} : PteValid pte ↔ pte % 2 = 1 := by
  rw [PteValid, vmProtV, and_two_pow_ne_zero, pow_zero, Nat.div_one]

theorem pteNextpgt_iff {pte : ℕ} : PteNextpgt pte ↔ pte % 16 = 1 := by
  rw [PteNextpgt, pteValid_iff, PteWriteable, PteReadable, PteExcutable, vmProtW, vmProtR,
    vmProtX, and_two_pow_ne_zero, and_two_pow_ne_zero, and_two_pow_ne_zero]
  omega

theorem not_pteValid_zero : ¬ PteValid 0 := by
  rw [pteValid_iff]
  omega

theorem sv39Index2Id_eq (va index : ℕ) :
    sv39Index2Id va index = va / 2 ^ sv39Index2Shift index % 512 := by
  rw [sv39Index2Id, sv39Index2Bit, Nat.shiftRight_and_distrib, Nat.shiftLeft_shiftRight,
    Nat.shiftRight_eq_div_pow, show 0x1ff = 2 ^ 9 - 1 from rfl, Nat.and_two_pow_sub_one_eq_mod]

theorem sv39Pa2PTE_eq (pa prot : ℕ) :
    sv39Pa2PTE pa prot = pa / 4096 % 2 ^ 44 * 1024 + prot % 1024 := by
  have h1 : (pa >>> pageOffset) &&& 0xfffffffffff = pa / 4096 % 2 ^ 44 := by
    rw [Nat.shiftRight_eq_div_pow, show 0xfffffffffff = 2 ^ 44 - 1 from rfl,
      Nat.and_two_pow_sub_one_eq_mod]
    rfl
  have h2 : prot &&& 0x3ff = prot % 1024 := by
    rw [show 0x3ff = 2 ^ 10 - 1 from rfl, Nat.and_two_pow_sub_one_eq_mod]
  rw [sv39Pa2PTE, h1, h2, ← Nat.shiftLeft_add_eq_or_of_lt (Nat.mod_lt _ (by norm_num)),
    Nat.shiftLeft_eq]

theorem sv39PTE2Pa_eq (pte : ℕ) : sv39PTE2Pa pte = pte / 1024 % 2 ^ 44 * 4096 := by
  have h : (2 ^ 64 - 1 - 0x3ff) >>> 10 = 2 ^ 54 - 1 := rfl
  rw [sv39PTE2Pa, Nat.shiftRight_and_distrib, h, Nat.shiftRight_eq_div_pow,
    Nat.and_two_pow_sub_one_eq_mod, show 0xfffffffffff = 2 ^ 44 - 1 from rfl,
    Nat.and_two_pow_sub_one_eq_mod, Nat.shiftLeft_eq]
  omega

/-- What an entry keeps of the permissions. -/
theorem pteValid_pa2PTE {pa prot : ℕ} : PteValid (sv39Pa2PTE pa prot) ↔ prot % 2 = 1 := by
  rw [pteValid_iff, sv39Pa2PTE_eq]
  omega

theorem pteNextpgt_pa2PTE (pa : ℕ) : PteNextpgt (sv39Pa2PTE pa vmProtV) := by
  rw [pteNextpgt_iff, sv39Pa2PTE_eq, vmProtV]
  omega

/-- An entry gives the address of its frame back. -/
theorem sv39PTE2Pa_pa2PTE {pa prot : ℕ} (h : pa < 2 ^ 56) (ha : pa % pageSize = 0) :
    sv39PTE2Pa (sv39Pa2PTE pa prot) = pa := by
  rw [sv39PTE2Pa_eq, sv39Pa2PTE_eq]
  simp only [pageSize, pageOffset] at ha
  omega

namespace VmLayout

variable (L : VmLayout)

/-- `PGFRAME_PA_END`. -/
def paEnd : ℕ := L.paStart + L.pageNums * pageSize

/-- `pg2pa`. -/
def pg2pa (pg : ℕ) : ℕ := (L.paStart + pg * pageSize) % 2 ^ 64

/-- `pa2va`. -/
def pa2va (pa : ℕ) : ℕ := (pa + (L.vaStart - L.paStart)) % 2 ^ 64

/-- `pa_valid`. -/
def paValid (pa : ℕ) : Prop := L.paStart ≤ pa ∧ pa < L.paEnd

instance (pa : ℕ) : Decidable (L.paValid pa) := inferInstanceAs (Decidable (_ ∧ _))

/-- `pa2pg`; as for `va2pg`, the cast to `int` changes nothing on a valid address. -/
def pa2pg (pa : ℕ) : ℕ := (pa + (2 ^ 64 - L.paStart)) % 2 ^ 64 / pageSize

/-- The entry of a table that points to the table in a page. -/
def pointer (pg : ℕ) : ℕ := sv39Pa2PTE (L.pg2pa pg) vmProtV

variable {L} {p : ℕ}

theorem pg2pa_of_valid (hp : p < L.pageNums) : L.pg2pa p = L.paStart + p * pageSize := by
  have h1 := L.paEnd_le
  unfold pg2pa
  simp only [pageSize, pageOffset] at *
  omega

theorem pg2pa_lt (hp : p < L.pageNums) : L.pg2pa p < 2 ^ 56 := by
  have h1 := L.paEnd_le
  rw [pg2pa_of_valid hp]
  simp only [pageSize, pageOffset] at *
  omega

theorem pg2pa_aligned (hp : p < L.pageNums) : L.pg2pa p % pageSize = 0 := by
  have h1 := L.paStart_aligned
  rw [pg2pa_of_valid hp]
  simp only [pageSize, pageOffset] at *
  omega

theorem pa2pg_pg2pa (hp : p < L.pageNums) : L.pa2pg (L.pg2pa p) = p := by
  have h1 := L.paEnd_le
  unfold pa2pg
  rw [pg2pa_of_valid hp]
  simp only [pageSize, pageOffset] at *
  omega

theorem paValid_pg2pa (hp : p < L.pageNums) : L.paValid (L.pg2pa p) := by
  unfold paValid paEnd
  rw [pg2pa_of_valid hp]
  simp only [pageSize, pageOffset]
  omega

theorem pa2va_pg2pa (hp : p < L.pageNums) : L.pa2va (L.pg2pa p) = L.pg2va p := by
  have h1 := L.vaEnd_le
  have h2 := L.paStart_le
  unfold pa2va
  rw [pg2pa_of_valid hp, Layout.pg2va_of_valid hp]
  simp only [pageSize, pageOffset] at *
  omega

theorem pg2va_aligned (hp : p < L.pageNums) : L.pg2va p % pageSize = 0 := by
  have h1 := L.vaStart_aligned
  rw [Layout.pg2va_of_valid hp]
  simp only [pageSize, pageOffset] at *
  omega

end VmLayout

end AcoOs
