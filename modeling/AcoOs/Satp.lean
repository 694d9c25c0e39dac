/-
The `satp` register and the encodings of physical addresses.

`satp` holds the mode in its high four bits and the number of the frame of the root table in its
low 44.  A physical address has 56 bits, and `SV39_Pa2PTE` shifts the offset out before it masks the
number of the frame.  `SV39_PGT2SATP` masks the address before the shift, so that it keeps 44 bits
of the address and not of the number.

* **`survives_iff`** — an address survives both encodings just when it is below `2 ^ 44`;
* `archHwGetCurrentPgtable_load` — the addresses of a managed range are below that, so there
  `__arch_hw_get_current_pgtable` finds the table that `__arch_hw_load_pgtable` has loaded.
-/
import AcoOs.EarlyVm

namespace AcoOs

/-- `SATP_MODE_SV39`. -/
def satpModeSv39 : ℕ := 8 <<< 60

/-- `SV39_SATP2PGT`. -/
def sv39Satp2Pgt (satp : ℕ) : ℕ := (satp &&& 0xfffffffffff) <<< 12

/-- The mode field of `satp`. -/
def satpMode (satp : ℕ) : ℕ := satp >>> 60

/-- What survives of a physical address and of the permissions. -/
structure Survives (pa prot : ℕ) : Prop where
  pte : sv39PTE2Pa (sv39Pa2PTE pa prot) = pa
  prot : sv39Pa2PTE pa prot % 2 ^ 10 = prot % 2 ^ 10
  pgt : sv39Satp2Pgt (sv39Pgt2Satp pa) = pa
  mode : satpMode (sv39Pgt2Satp pa) = satpMode satpModeSv39

/-! ### The macros in arithmetic -/

/-- The mask comes before the shift. -/
theorem sv39Pgt2Satp_eq (pgt : ℕ) : sv39Pgt2Satp pgt = 8 * 2 ^ 60 + pgt % 2 ^ 44 / 2 ^ 12 := by
  have hlt : pgt % 2 ^ 44 / 2 ^ 12 < 2 ^ 60 :=
    (Nat.div_le_self _ _).trans_lt ((Nat.mod_lt _ (by norm_num)).trans (by norm_num))
  rw [sv39Pgt2Satp, show 0xfffffffffff = 2 ^ 44 - 1 from rfl, Nat.and_two_pow_sub_one_eq_mod,
    Nat.shiftRight_eq_div_pow, Nat.or_comm, ← Nat.shiftLeft_add_eq_or_of_lt hlt, Nat.shiftLeft_eq]

theorem sv39Satp2Pgt_eq (satp : ℕ) : sv39Satp2Pgt satp = satp % 2 ^ 44 * 2 ^ 12 := by
  rw [sv39Satp2Pgt, show 0xfffffffffff = 2 ^ 44 - 1 from rfl, Nat.and_two_pow_sub_one_eq_mod,
    Nat.shiftLeft_eq]

theorem satpMode_pgt2Satp (pgt : ℕ) :
    satpMode (sv39Pgt2Satp pgt) = satpMode satpModeSv39 := by
  rw [satpMode, satpMode, Nat.shiftRight_eq_div_pow, sv39Pgt2Satp_eq,
    show satpModeSv39 >>> 60 = 8 from rfl]
  omega

/-- What comes back of the address of a root table. -/
theorem sv39Satp2Pgt_pgt2Satp {pgt : ℕ} (ha : pgt % pageSize = 0) :
    sv39Satp2Pgt (sv39Pgt2Satp pgt) = pgt % 2 ^ 44 := by
  rw [sv39Satp2Pgt_eq, sv39Pgt2Satp_eq]
  simp only [pageSize, pageOffset] at ha
  omega

/-- The number of the frame is above the ten bits of the permissions. -/
theorem sv39Pa2PTE_mod (pa prot : ℕ) : sv39Pa2PTE pa prot % 2 ^ 10 = prot % 2 ^ 10 := by
  rw [sv39Pa2PTE_eq]
  omega

/-! ### The root table -/

namespace VmLayout

variable (L : VmLayout)

/-- `va2pa`. -/
def va2pa (va : ℕ) : ℕ := (va + (2 ^ 64 - (L.vaStart - L.paStart))) % 2 ^ 64

/-- `__arch_hw_load_pgtable`: what it writes to `satp`. -/
def archHwLoadPgtable (pgtable : ℕ) : Option ℕ :=
  if pgtable ≠ 0 ∧ pgtable % pageSize = 0 then some (sv39Pgt2Satp (L.va2pa pgtable)) else none

/-- `__arch_hw_get_current_pgtable`. -/
def archHwGetCurrentPgtable (satp : ℕ) : Option ℕ :=
  let pgPa := sv39Satp2Pgt satp
  if pgPa % pageSize = 0 then some (L.pa2va pgPa) else none

variable {L} {p : ℕ}

theorem va2pa_pg2va (hp : p < L.pageNums) : L.va2pa (L.pg2va p) = L.pg2pa p := by
  have h1 := L.vaEnd_le
  have h2 := L.paStart_le
  unfold va2pa
  rw [pg2pa_of_valid hp, Layout.pg2va_of_valid hp]
  simp only [pageSize, pageOffset] at *
  omega

/-- The physical addresses are not above the virtual ones. -/
theorem pg2pa_lt_mask (hp : p < L.pageNums) : L.pg2pa p < 2 ^ 44 := by
  have h1 := L.vaEnd_le
  have h2 := L.paStart_le
  rw [pg2pa_of_valid hp]
  simp only [pageSize, pageOffset] at *
  omega

theorem archHwLoadPgtable_pg2va (hp : p < L.pageNums) :
    L.archHwLoadPgtable (L.pg2va p) = some (sv39Pgt2Satp (L.pg2pa p)) := by
  have hpos : L.pg2va p ≠ 0 := by
    have h1 := L.vaStart_pos
    rw [Layout.pg2va_of_valid hp]
    omega
  unfold archHwLoadPgtable
  rw [if_pos ⟨hpos, pg2va_aligned hp⟩, va2pa_pg2va hp]

/-- The table in a page of the managed range is found again. -/
theorem archHwGetCurrentPgtable_load (hp : p < L.pageNums) :
    (L.archHwLoadPgtable (L.pg2va p)).bind L.archHwGetCurrentPgtable = some (L.pg2va p) := by
  rw [archHwLoadPgtable_pg2va hp, Option.bind_some]
  unfold archHwGetCurrentPgtable
  dsimp only
  rw [sv39Satp2Pgt_pgt2Satp (pg2pa_aligned hp), Nat.mod_eq_of_lt (pg2pa_lt_mask hp),
    if_pos (pg2pa_aligned hp), pa2va_pg2pa hp]

end VmLayout

/-! ### Results -/

/-- A page-aligned physical address survives both encodings just when the mask of `SV39_PGT2SATP`
takes nothing of it away. -/
theorem survives_iff {pa : ℕ} (prot : ℕ) (h : pa < 2 ^ 56) (ha : pa % pageSize = 0) :
    Survives pa prot ↔ pa < 2 ^ 44 := by
  constructor
  · intro hs
    rw [← hs.pgt, sv39Satp2Pgt_pgt2Satp ha]
    exact Nat.mod_lt _ (by norm_num)
  · intro hlt
    refine ⟨sv39PTE2Pa_pa2PTE h ha, sv39Pa2PTE_mod pa prot, ?_, satpMode_pgt2Satp pa⟩
    rw [sv39Satp2Pgt_pgt2Satp ha, Nat.mod_eq_of_lt hlt]

theorem survives_iff_kernel : Survives 0x80200000 7 ↔ 0x80200000 < 2 ^ 44 :=
  survives_iff 7 (by norm_num) (by decide)

/-- The first address whose frame number has a bit above the mask. -/
theorem not_survives : ¬ ∀ pa prot : ℕ, pa < 2 ^ 56 → pa % pageSize = 0 → prot < 2 ^ 16 →
    Survives pa prot := by
  intro hall
  have hs := hall (2 ^ 44) 7 (by norm_num) (by decide) (by norm_num)
  exact absurd hs.pgt (by decide)

end AcoOs
