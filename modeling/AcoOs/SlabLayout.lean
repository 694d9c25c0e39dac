/-
Where things lie in a slab.

The block of a slab holds the `slab_t`, the array of indices and the objects, and the colour offset
shifts the objects by no more than what they leave over.

* **`slab_layout`** — for every order and every size of objects nothing overlaps, everything lies in
  the block, and no more objects would fit.
-/
import AcoOs.SlabInvariant

namespace AcoOs

/-! ### The parts of a slab -/

/-- The bytes of the `slab_t` at the address `start`. -/
def slabHeader (start : ℕ) : Set ℕ := Set.Ico start (start + sizeofSlab)

/-- The bytes of the array of `int`s behind it. -/
def Slab.indexArray (s : Slab) (start : ℕ) : Set ℕ :=
  Set.Ico (start + sizeofSlab) (start + sizeofSlab + 4 * s.objAll.toNat)

/-- The bytes of an object. -/
def Slab.object (s : Slab) (i : ℕ) : Set ℕ := Set.Ico (s.obj i) (s.obj i + s.objSize.toNat)

/-- The parts of the slab at the address `start` are apart and lie in its `size` bytes, it has as
many objects as fit, and objects are aligned to four bytes if their size allows it. -/
structure LaidOut (start size objSize : ℕ) (s : Slab) : Prop where
  objSize_eq : s.objSize = objSize
  header_index : Disjoint (slabHeader start) (s.indexArray start)
  header_object : ∀ i < s.objAll.toNat, Disjoint (slabHeader start) (s.object i)
  index_object : ∀ i < s.objAll.toNat, Disjoint (s.indexArray start) (s.object i)
  object_object : ∀ i < s.objAll.toNat, ∀ j < s.objAll.toNat, i ≠ j →
    Disjoint (s.object i) (s.object j)
  header_within : slabHeader start ⊆ Set.Ico start (start + size)
  index_within : s.indexArray start ⊆ Set.Ico start (start + size)
  object_within : ∀ i < s.objAll.toNat, s.object i ⊆ Set.Ico start (start + size)
  largest : ∀ m, sizeofSlab + m * 4 + m * objSize ≤ size ↔ m ≤ s.objAll.toNat
  aligned : 4 ∣ objSize → ∀ i < s.objAll.toNat, 4 ∣ s.obj i

variable {start size z k : ℕ} {s : Slab} {l : List ℕ}

/-- As many objects as fit. -/
theorem le_slabObjs_iff (hlo : sizeofSlab ≤ size) (m : ℕ) :
    sizeofSlab + m * 4 + m * z ≤ size ↔ m ≤ slabObjs size z := by
  have hexp : m * (4 + z) = m * 4 + m * z := Nat.mul_add m 4 z
  unfold slabObjs
  rw [Nat.le_div_iff_mul_le (by omega), hexp]
  omega

theorem SlabOk.laidOut (h : SlabOk start size z s l) (hlo : sizeofSlab ≤ size)
    (hal : 4 ∣ s.memObjStart) : LaidOut start size z s := by
  have hn : s.objAll.toNat = slabObjs size z := by
    rw [h.objAll, Int.toNat_natCast]
  have hz : s.objSize.toNat = z := by
    rw [h.objSize_eq, Int.toNat_natCast]
  have hwithin := fun i (hi : i < s.objAll.toNat) => h.obj_within (hn ▸ hi)
  have hafter : ∀ i, start + sizeofSlab + 4 * slabObjs size z ≤ s.obj i := by
    intro i
    rw [h.obj_eq]
    exact h.after.trans (Nat.le_add_right _ _)
  have hfit := (le_slabObjs_iff (z := z) hlo (slabObjs size z)).2 le_rfl
  refine ⟨h.objSize_eq, ?_, fun i _ => ?_, fun i _ => ?_, fun i hi j hj hij => ?_, ?_, ?_,
    fun i hi => ?_, fun m => ?_, fun hd i _ => ?_⟩
  · exact Set.disjoint_left.2 fun a ha hb => absurd ha.2 (not_lt.2 hb.1)
  · refine Set.disjoint_left.2 fun a ha hb => ?_
    have h1 := ha.2
    have h2 := hb.1
    have := hafter i
    omega
  · refine Set.disjoint_left.2 fun a ha hb => ?_
    have h1 := ha.2
    have h2 := hb.1
    have := hafter i
    rw [hn] at h1
    omega
  · refine Set.disjoint_left.2 fun a ha hb => ?_
    obtain ⟨h1, h2⟩ := ha
    obtain ⟨h3, h4⟩ := hb
    rw [hz] at h2 h4
    rcases Nat.lt_or_gt_of_ne hij with hlt | hlt
    · have := h.obj_apart hlt
      omega
    · have := h.obj_apart hlt
      omega
  · exact Set.Ico_subset_Ico le_rfl (by omega)
  · refine Set.Ico_subset_Ico (Nat.le_add_right _ _) ?_
    rw [hn]
    omega
  · have := hwithin i hi
    refine Set.Ico_subset_Ico (by omega) ?_
    rw [hz]
    omega
  · rw [hn]
    exact le_slabObjs_iff hlo m
  · rw [h.obj_eq]
    exact dvd_add hal (hd.mul_right i)

/-! ### `init_slab_xip` -/

/-- The objects start at a multiple of four: the colour offset is masked. -/
theorem initSlabXip_aligned {size objSize offset : ℤ} {stack : ℕ → BitVec 8}
    (h : initSlabXip start size objSize offset stack = some (some s)) : 4 ∣ s.memObjStart := by
  unfold initSlabXip at h
  dsimp only at h
  generalize toInt32 (sdbmHash (offsetBytes offset stack) 4).toNat = hash at h
  generalize toInt32 ((size.toNat + (2 ^ 64 - sizeofSlab)) % 2 ^ 64 % (4 + objSize.toNat)) = pad
    at h
  generalize toInt32 ((size.toNat + (2 ^ 64 - sizeofSlab)) % 2 ^ 64 / (4 + objSize.toNat)) = n at h
  generalize hash.tmod pad = rest at h
  -- either there is no padding and no offset, or the masked offset
  split_ifs at h with hassert hpad hoff hnum hoff hnum
  · cases Option.some.inj h
  · rw [← Option.some.inj (Option.some.inj h)]
    have hpage := hassert.2.2.2.2
    simp only [pageSize, pageOffset] at hpage
    dsimp only [sizeofSlab]
    omega
  · cases Option.some.inj h
  · rw [← Option.some.inj (Option.some.inj h)]
    have hpage := hassert.2.2.2.2
    simp only [pageSize, pageOffset] at hpage
    dsimp only [sizeofSlab]
    omega

/-- Whatever the order, the size of objects and the colour, the slab that `init_slab_xip` returns is
laid out in the pages of its block. -/
theorem slab_layout {objSize offset : ℤ} {stack : ℕ → BitVec 8} (hpos : 0 < objSize)
    (hlt : objSize < orderBytes k)
    (h : initSlabXip start (toInt32 (orderBytes k)) objSize offset stack = some (some s)) :
    LaidOut start (orderBytes k) objSize.toNat s := by
  have hal := initSlabXip_aligned h
  -- a slab was returned, so the `ASSERT` held and the size fits an `int`
  obtain ⟨hassert, hk⟩ : (start ≠ 0 ∧ 0 < toInt32 (orderBytes k) ∧ 0 < objSize ∧
      objSize < toInt32 (orderBytes k) ∧ start % pageSize = 0) ∧ k ≤ 18 := by
    have hassert := h
    unfold initSlabXip at hassert
    dsimp only at hassert
    by_cases hc : start ≠ 0 ∧ 0 < toInt32 (orderBytes k) ∧ 0 < objSize ∧
      objSize < toInt32 (orderBytes k) ∧ start % pageSize = 0
    · exact ⟨hc, order_le_of_pos hc.2.1⟩
    · rw [if_neg hc] at hassert
      cases hassert
  have hbytes := orderBytes_lt hk
  lift objSize to ℕ using hpos.le
  rw [toInt32_of_lt hbytes] at h
  rw [Int.toNat_natCast]
  rcases initSlabXip_spec (z := objSize) offset stack hassert.1 hassert.2.2.2.2 (by omega)
    (by omega) (sizeofSlab_le k) hbytes with ⟨-, hnull⟩ | ⟨-, s', hs', hok⟩
  · rw [hnull] at h
    cases h
  · rw [hs'] at h
    cases h
    exact hok.laidOut (sizeofSlab_le k) hal

/-- Two objects of `2000` bytes in a page. -/
theorem slab_layout_page : ∃ s : Slab,
    initSlabXip 4096 (toInt32 (orderBytes 0)) 2000 7 (fun _ => 0) = some (some s) ∧
      s.objAll = 2 ∧ LaidOut 4096 (orderBytes 0) 2000 s := by
  rcases @initSlabXip_spec 4096 4096 2000 7 (fun _ => 0) (by decide) (by decide)
    (by decide) (by decide) (by decide) (by decide) with ⟨h0, -⟩ | ⟨-, s, hs, hok⟩
  · exact absurd h0 (by decide)
  · have hsize : initSlabXip 4096 (toInt32 (orderBytes 0)) 2000 7 (fun _ => 0) = some (some s) := hs
    exact ⟨s, hsize, hok.objAll, slab_layout (by decide) (by decide) hsize⟩

end AcoOs
