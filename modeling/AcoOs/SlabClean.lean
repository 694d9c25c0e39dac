/-
Free objects of a slab cache are clean.

`kmem_obj_alloc` does not clear the object it hands out.  An object that is not handed out is clean
when all its bytes are zero (`SlabMemory.Clean`).

* **`SlabMemory.alloc_some_spec`**, **`SlabMemory.alloc_none_spec`** — free objects stay clean, and
  the object that is handed out is clean, whether its slab is new or not;
* **`SlabMemory.free_spec`** — free objects stay clean when the object that is given back is clean;
* **`SlabMemory.Elsewhere.clean`** — whoever stores in objects handed out or outside the slabs
  leaves free objects clean.
-/
import AcoOs.SlabBytes

namespace AcoOs

variable {c : Layout}

/-! ### Objects stay where they are -/

theorem slabAlloc_kept {s s' : Slab} {ret : Option ℕ} (h : slabAlloc s = some (ret, s')) :
    s'.objAll = s.objAll ∧ ∀ i, s'.obj i = s.obj i := by
  unfold slabAlloc at h
  split_ifs at h
  · cases h
    exact ⟨rfl, fun _ => rfl⟩
  · cases h
    split_ifs <;> exact ⟨rfl, fun _ => rfl⟩

theorem slabFree_kept {s s' : Slab} {a : ℕ} (h : slabFree s a = some s') :
    s'.objAll = s.objAll ∧ ∀ i, s'.obj i = s.obj i := by
  unfold slabFree at h
  dsimp only at h
  split_ifs at h
  · cases h
    exact ⟨rfl, fun _ => rfl⟩
  · cases h
    exact ⟨rfl, fun _ => rfl⟩

/-- An address that `slab_free` accepts is that of an object. -/
theorem slabFree_obj {s s' : Slab} {a : ℕ} (h : slabFree s a = some s') :
    ∃ i < s.objAll.toNat, a = s.obj i := by
  unfold slabFree at h
  dsimp only at h
  by_cases hrange : a ≠ 0 ∧ s.memObjStart ≤ a ∧
      a < s.memObjStart + s.objAll.toNat * s.objSize.toNat
  · rw [if_pos hrange] at h
    by_cases hmod : (a - s.memObjStart) % s.objSize.toNat = 0
    · obtain ⟨-, hlo, hhi⟩ := hrange
      have hdiv := Nat.div_add_mod (a - s.memObjStart) s.objSize.toNat
      have hz : 0 < s.objSize.toNat := by
        by_contra h0
        rw [Nat.eq_zero_of_not_pos h0] at hhi
        omega
      refine ⟨(a - s.memObjStart) / s.objSize.toNat, ?_, ?_⟩
      · rw [Nat.div_lt_iff_lt_mul hz]
        omega
      · unfold Slab.obj
        omega
    · rw [if_neg hmod] at h
      cases h
  · rw [if_neg hrange] at h
    cases h

namespace Kmem

variable {A : PageAllocator c} {x y : Kmem A}

/-- A slab has been replaced by one with the same objects, and moved between the lists. -/
theorem isObject_update {p : ℕ} {s : Slab} (hs : s.objAll = (x.slabs p).objAll)
    (hobj : ∀ i, s.obj i = (x.slabs p).obj i)
    (hslabs : y.slabs = Function.update x.slabs p s)
    (hall : ∀ q, q ∈ y.cache.all ↔ q ∈ x.cache.all) (a : ℕ) : y.IsObject a ↔ x.IsObject a := by
  have hsame : ∀ q, (y.slabs q).objAll = (x.slabs q).objAll ∧
      ∀ i, (y.slabs q).obj i = (x.slabs q).obj i := by
    intro q
    rw [hslabs]
    by_cases hqp : q = p
    · subst hqp
      rw [Function.update_self]
      exact ⟨hs, hobj⟩
    · rw [Function.update_of_ne hqp]
      exact ⟨rfl, fun _ => rfl⟩
  unfold IsObject
  constructor
  · rintro ⟨q, hq, i, hi, rfl⟩
    rw [(hsame q).1] at hi
    exact ⟨q, (hall q).1 hq, i, hi, (hsame q).2 i⟩
  · rintro ⟨q, hq, i, hi, rfl⟩
    refine ⟨q, (hall q).2 hq, i, ?_, ((hsame q).2 i).symm⟩
    rwa [(hsame q).1]

theorem mem_move {a b d : List ℕ} {p q : ℕ} (hp : p ∈ a) :
    q ∈ a.erase p ∨ q ∈ b ++ [p] ∨ q ∈ d ↔ q ∈ a ∨ q ∈ b ∨ q ∈ d := by
  by_cases hqp : q = p
  · subst hqp
    exact iff_of_true (.inr (.inl (by simp))) (.inl hp)
  · rw [List.mem_erase_of_ne hqp, List.mem_append, List.mem_singleton, or_iff_left hqp]

/-- `take` works on one slab of the cache. -/
theorem take_cases {ret : Option ℕ} (h : x.take = some (ret, y)) :
    ∃ p ∈ x.cache.all, ∃ o s, slabAlloc (x.slabs p) = some (o, s) ∧
      y.slabs = Function.update x.slabs p s ∧ (∀ q, q ∈ y.cache.all ↔ q ∈ x.cache.all) ∧
      y.cache.objSize = x.cache.objSize ∧
      ∀ m, x.takeStores m = slabAllocStores m (c.pg2va p) (x.slabs p) := by
  unfold take at h
  split at h
  · rename_i p ps hpart
    have hp : p ∈ x.cache.partialSlabs := by simp [hpart]
    split at h
    · rename_i o s hs
      cases h
      refine ⟨p, SlabsInv.mem_all.2 (.inr (.inl hp)), _, s, hs, rfl, fun q => ?_, ?_, fun m => ?_⟩
      · rw [SlabsInv.mem_all, SlabsInv.mem_all]
        split_ifs
        · have := mem_move (b := x.cache.full) (d := x.cache.free) (q := q) hp
          tauto
        · rfl
      · split_ifs <;> rfl
      · unfold takeStores
        rw [hpart]
    · cases h
  · rename_i hpart
    split at h
    · cases h
    · rename_i p ps hfree
      have hp : p ∈ x.cache.free := by simp [hfree]
      split at h
      · rename_i o s hs
        cases h
        refine ⟨p, SlabsInv.mem_all.2 (.inl hp), _, s, hs, rfl, fun q => ?_, ?_, fun m => ?_⟩
        · rw [SlabsInv.mem_all, SlabsInv.mem_all]
          split_ifs
          · have := mem_move (b := x.cache.full) (d := x.cache.partialSlabs) (q := q) hp
            tauto
          · exact mem_move hp
        · split_ifs <;> rfl
        · unfold takeStores
          rw [hpart]
          dsimp only
          rw [hfree]
      · cases h

theorem mem_of_scan {ok : Slab → Bool} {a p : ℕ} {l : List ℕ}
    (h : x.scan ok a l = some (some p)) : p ∈ l := by
  induction l with
  | nil => cases h
  | cons q l ih =>
    unfold scan at h
    split_ifs at h
    · cases h
      exact List.mem_cons_self
    · exact List.mem_cons_of_mem q (ih h)

/-- `kmem_obj_free` works on one slab of the cache, or on none. -/
theorem kmemObjFree_cases {a : ℕ} (h : x.kmemObjFree a = some y) :
    (y = x ∧ ∀ m, x.freeStores a m = m) ∨
    ∃ p ∈ x.cache.all, ∃ s, slabFree (x.slabs p) a = some s ∧
      y.slabs = Function.update x.slabs p s ∧ (∀ q, q ∈ y.cache.all ↔ q ∈ x.cache.all) ∧
      y.cache.objSize = x.cache.objSize ∧
      ∀ m, x.freeStores a m = slabFreeStores m (c.pg2va p) (x.slabs p) a := by
  unfold kmemObjFree at h
  by_cases h0 : a = 0
  · rw [if_pos h0] at h
    cases h
    exact .inl ⟨rfl, fun _ => if_pos h0⟩
  · rw [if_neg h0] at h
    split at h
    · cases h
    · rename_i p hscan
      have hp := mem_of_scan hscan
      split at h
      · cases h
      · rename_i s hs
        cases h
        refine .inr ⟨p, SlabsInv.mem_all.2 (.inr (.inl hp)), s, hs, rfl, fun q => ?_, ?_,
          fun m => ?_⟩
        · rw [SlabsInv.mem_all, SlabsInv.mem_all]
          split_ifs
          · have := mem_move (b := x.cache.free) (d := x.cache.full) (q := q) hp
            tauto
          · rfl
        · split_ifs <;> rfl
        · unfold freeStores
          rw [if_neg h0, hscan]
    · rename_i hpart
      split at h
      · cases h
      · rename_i hscan
        cases h
        refine .inl ⟨rfl, fun m => ?_⟩
        unfold freeStores
        rw [if_neg h0, hpart]
        dsimp only
        rw [hscan]
      · rename_i p hscan
        have hp := mem_of_scan hscan
        split at h
        · cases h
        · rename_i s hs
          cases h
          refine .inr ⟨p, SlabsInv.mem_all.2 (.inr (.inr hp)), s, hs, rfl, fun q => ?_, ?_,
            fun m => ?_⟩
          · rw [SlabsInv.mem_all, SlabsInv.mem_all]
            split_ifs
            · have := mem_move (b := x.cache.free) (d := x.cache.partialSlabs) (q := q) hp
              tauto
            · have := mem_move (b := x.cache.partialSlabs) (d := x.cache.free) (q := q) hp
              tauto
          · split_ifs <;> rfl
          · unfold freeStores
            rw [if_neg h0, hpart]
            dsimp only
            rw [hscan]

theorem newSlab_eq {p : ℕ} {stack : ℕ → BitVec 8} {pg : Pageframe}
    (h : setPgfmAslab (.handed x.cache.pgOrder.toNat) = some pg) : x.newSlab p stack =
      initSlab pg (c.pg2va p) x.cache.objSize x.cache.colorOffset stack := by
  unfold newSlab
  rw [h]

/-- A new slab. -/
theorem grow_cases {stack : ℕ → BitVec 8} {more : Bool} (h : x.grow stack = some (more, y)) :
    (more = false ∧ ∀ b m, (∀ p, (A.alloc x.buddy x.cache.pgOrder).1 = some p →
      b < c.pg2va p ∨ c.pg2va p + orderBytes x.cache.pgOrder.toNat ≤ b) →
        x.growStores stack m b = m b) ∨
    more = true ∧ ∃ p t s, A.alloc x.buddy x.cache.pgOrder = (some p, t) ∧
      y.slabs = Function.update x.slabs p s ∧ y.cache.all.Perm (p :: x.cache.all) ∧
      y.cache.objSize = x.cache.objSize ∧ ∀ m, x.growStores stack m =
        initSlabStores (m.memset (c.pg2va p) 0 (orderBytes x.cache.pgOrder.toNat))
          (c.pg2va p) s := by
  unfold grow at h
  split at h
  · rename_i t halloc
    cases h
    refine .inl ⟨rfl, fun b m _ => ?_⟩
    unfold growStores
    rw [halloc]
  · rename_i p t halloc
    split at h
    · cases h
    · rename_i pg hpg
      split at h
      · cases h
      · rename_i hslab
        split at h
        · cases h
        · split at h
          · cases h
          · cases h
            refine .inl ⟨rfl, fun b m hb => ?_⟩
            unfold growStores
            rw [halloc]
            dsimp only
            rw [newSlab_eq hpg, hslab]
            rcases hb p (by rw [halloc]) with hb | hb
            · exact Bytes.memset_of_lt _ hb
            · exact Bytes.memset_of_le _ hb
      · rename_i s hslab
        split_ifs at h
        cases h
        refine .inr ⟨rfl, p, t, s, halloc, rfl, ?_, rfl, fun m => ?_⟩
        · unfold KmemCache.all
          dsimp only
          rw [List.append_assoc, List.append_assoc, List.append_assoc]
          exact List.perm_middle
        · unfold growStores
          rw [halloc]
          dsimp only
          rw [newSlab_eq hpg, hslab]

end Kmem

/-! ### Where objects lie -/

namespace SlabsInv

variable {A : PageAllocator c} {z k : ℕ} {chain : ℕ → List ℕ} {live : Finset ℕ} {x : Kmem A}
  {a b p q : ℕ} {t : A.State}

/-- What is handed out is an object. -/
theorem isObject (h : SlabsInv z k chain live x) (ha : a ∈ live) : x.IsObject a := by
  obtain ⟨p, hp, i, hi, -, hobj⟩ := (h.live_iff a).1 ha
  refine ⟨p, hp, i, ?_, hobj⟩
  rwa [(h.slab p hp).objAll, Int.toNat_natCast]

/-- An object lies in the block of a slab, behind the array. -/
theorem object_within (h : SlabsInv z k chain live x) (ha : x.IsObject a) (hlo : a ≤ b)
    (hhi : b < a + z) : ∃ p ∈ x.cache.all,
      c.pg2va p + sizeofSlab + 4 * slabObjs (orderBytes k) z ≤ b ∧
        b < c.pg2va p + orderBytes k := by
  obtain ⟨p, hp, i, hi, rfl⟩ := ha
  have hok := h.slab p hp
  rw [hok.objAll, Int.toNat_natCast] at hi
  have hend := (hok.obj_within hi).2
  have hstart := hok.after
  have hobj := hok.obj_eq i
  exact ⟨p, hp, by omega, by omega⟩

/-- No object has a byte in the `slab_t` or the array of a slab. -/
theorem object_outside (h : SlabsInv z k chain live x) (ha : x.IsObject a) (hlo : a ≤ b)
    (hhi : b < a + z) (hq : q ∈ x.cache.all) :
    b < c.pg2va q ∨ c.pg2va q + sizeofSlab + 4 * slabObjs (orderBytes k) z ≤ b := by
  obtain ⟨p, hp, hfrom, hto⟩ := h.object_within ha hlo hhi
  by_cases hpq : p = q
  · subst hpq
    exact .inr hfrom
  · have hok := h.slab q hq
    have hafter := hok.after
    have hend := hok.within
    rcases A.block_apart (h.block p hp) (h.block q hq) hpq with hd | hd
    · exact .inl (by omega)
    · exact .inr (by omega)

/-- The block of a new slab is apart from those of the others. -/
theorem new_apart (h : SlabsInv z k chain live x) (halloc : A.alloc x.buddy k = (some p, t))
    (hq : q ∈ x.cache.all) : q ≠ p ∧
      (c.pg2va p + orderBytes k ≤ c.pg2va q ∨ c.pg2va q + orderBytes k ≤ c.pg2va p) := by
  obtain ⟨-, hsub, -, hblocks⟩ := A.alloc_some halloc
  rw [Int.toNat_natCast] at hsub hblocks
  have hqb := h.block q hq
  have hqp : q ≠ p := by
    rintro rfl
    rw [A.blocks_of_free (hsub (self_mem_pagesOf q k))] at hqb
    cases hqb
  refine ⟨hqp, A.block_apart (s := t) ?_ ?_ hqp.symm⟩
  · rw [hblocks, Function.update_self]
  · rw [hblocks, Function.update_of_ne hqp, hqb]

end SlabsInv

/-! ### Free objects are clean -/

namespace SlabMemory

variable {A : PageAllocator c} {z k : ℕ} {chain : ℕ → List ℕ} {live : Finset ℕ}
  {x y : SlabMemory A}

/-- All bytes of the free objects are zero, when the objects `live` are handed out. -/
def Clean (x : SlabMemory A) (live : Finset ℕ) : Prop :=
  ∀ a, x.kmem.IsObject a → a ∉ live → x.bytes.Zero a x.kmem.cache.objSize.toNat

/-- No object has moved or changed. -/
structure Kept (x y : SlabMemory A) : Prop where
  objSize : y.kmem.cache.objSize = x.kmem.cache.objSize
  object : ∀ a, y.kmem.IsObject a ↔ x.kmem.IsObject a
  bytes : ∀ a, x.kmem.IsObject a → ∀ b, a ≤ b → b < a + x.kmem.cache.objSize.toNat →
    y.bytes b = x.bytes b

theorem Kept.zero (h : Kept x y) {a : ℕ} (ha : y.kmem.IsObject a)
    (hz : x.bytes.Zero a x.kmem.cache.objSize.toNat) :
    y.bytes.Zero a y.kmem.cache.objSize.toNat := by
  intro b hlo hhi
  rw [h.objSize] at hhi
  rw [h.bytes a ((h.object a).1 ha) b hlo hhi]
  exact hz b hlo hhi

theorem Kept.clean (h : Kept x y) (hc : x.Clean live) : y.Clean live :=
  fun a ha hn => h.zero ha (hc a ((h.object a).1 ha) hn)

theorem Clean.mono {live' : Finset ℕ} (hc : x.Clean live) (hsub : live ⊆ live') :
    x.Clean live' := fun a ha hn => hc a ha fun hl => hn (hsub hl)

/-- `take` stores in no object. -/
theorem take_kept (h : SlabsInv z k chain live x.kmem) {ret : Option ℕ}
    (he : x.take = some (ret, y)) : Kept x y := by
  unfold take at he
  split at he
  · cases he
  · rename_i ret' w hw
    cases he
    obtain ⟨p, hp, o, s, hs, hslabs, hall, hsize, hstores⟩ := Kmem.take_cases hw
    obtain ⟨hobjs, hobj⟩ := slabAlloc_kept hs
    refine ⟨hsize, Kmem.isObject_update hobjs hobj hslabs hall, fun a ha b hlo hhi => ?_⟩
    rw [h.objSize, Int.toNat_natCast] at hhi
    dsimp only
    rw [hstores]
    exact (h.slab p hp).slabAllocStores_of_le (h.object_outside ha hlo hhi hp)

/-- `kmem_obj_free` stores in no object. -/
theorem kmemObjFree_kept (h : SlabsInv z k chain live x.kmem) (hz : 0 < z) {a : ℕ}
    (he : x.kmemObjFree a = some y) : Kept x y := by
  unfold kmemObjFree at he
  split at he
  · cases he
  · rename_i w hw
    cases he
    rcases Kmem.kmemObjFree_cases hw with ⟨hwx, hstores⟩ |
      ⟨p, hp, s, hs, hslabs, hall, hsize, hstores⟩
    · refine ⟨by rw [hwx], fun b => by rw [hwx], fun b _ d _ _ => ?_⟩
      dsimp only
      rw [hstores]
    · obtain ⟨hobjs, hobj⟩ := slabFree_kept hs
      refine ⟨hsize, Kmem.isObject_update hobjs hobj hslabs hall, fun d hd b hlo hhi => ?_⟩
      obtain ⟨i, hi, rfl⟩ := slabFree_obj hs
      have hok := h.slab p hp
      rw [hok.objAll, Int.toNat_natCast] at hi
      rw [h.objSize, Int.toNat_natCast] at hhi
      dsimp only
      rw [hstores]
      exact hok.slabFreeStores_of_le hz hi (h.object_outside hd hlo hhi hp)

/-- When no slab was set up nothing but the block has changed, which is free again. -/
theorem grow_kept (h : SlabsInv z k chain live x.kmem) (hz : 0 < z) (hlt : z < orderBytes k)
    (hlim : x.kmem.cache.pgOrhas < x.kmem.cache.pgOrlimit) {stack : ℕ → BitVec 8}
    (he : x.grow stack = some (false, y)) : Kept x y := by
  unfold grow at he
  split at he
  · cases he
  · rename_i more w hw
    cases he
    have hfail := h.grow_false hz hlt hlim hw
    have hobject : ∀ a, Kmem.IsObject w a ↔ x.kmem.IsObject a := fun a => by
      unfold Kmem.IsObject
      rw [hfail.cache, hfail.slabs]
    rcases Kmem.grow_cases hw with ⟨-, hstores⟩ | ⟨hmore, -⟩
    · refine ⟨congrArg KmemCache.objSize hfail.cache, hobject,
        fun a ha b hlo hhi => hstores b _ fun p hp => ?_⟩
      rw [h.objSize, Int.toNat_natCast] at hhi
      obtain ⟨q, hq, hfrom, hto⟩ := h.object_within ha hlo hhi
      rw [h.pgOrder] at hp ⊢
      rw [Int.toNat_natCast]
      obtain ⟨-, hd | hd⟩ := h.new_apart (Prod.ext hp rfl) hq
      · exact .inr (by omega)
      · exact .inl (by omega)
    · cases hmore

/-- A new slab has clean objects, since its block was cleared, and the other slabs are as before. -/
theorem grow_spec (h : SlabsInv z k chain live x.kmem) (hz : 0 < z) (hlt : z < orderBytes k)
    (hlim : x.kmem.cache.pgOrhas < x.kmem.cache.pgOrlimit) (hc : x.Clean live)
    {stack : ℕ → BitVec 8} (he : x.grow stack = some (true, y)) :
    y.Clean live ∧ ∃ chain', SlabsInv z k chain' live y.kmem := by
  unfold grow at he
  split at he
  · cases he
  rename_i more w hw
  cases he
  obtain ⟨chain', -, hinv, -⟩ := h.grow_true hz hlt hlim hw
  refine ⟨?_, chain', hinv⟩
  obtain ⟨hmore, -⟩ | ⟨-, p, t, s, halloc, hslabs, hperm, hsize, hstores⟩ := Kmem.grow_cases hw
  · cases hmore
  rw [h.pgOrder] at halloc
  rw [h.pgOrder, Int.toNat_natCast] at hstores
  have hpall : p ∈ w.cache.all := hperm.mem_iff.2 List.mem_cons_self
  have hok := hinv.slab p hpall
  have hps : w.slabs p = s := by rw [hslabs, Function.update_self]
  rw [hps] at hok
  have hobjs : s.objAll.toNat = slabObjs (orderBytes k) z := by
    rw [hok.objAll, Int.toNat_natCast]
  have hstart := (A.block_va (hinv.block p hpall)).2.1
  rintro a ⟨q, hq, i, hi, rfl⟩ hn b hlo hhi
  dsimp only at hq hi hlo hhi hn ⊢
  rw [hinv.objSize, Int.toNat_natCast] at hhi
  -- `init_slab` stores in no object
  have hout := hinv.object_outside ⟨q, hq, i, hi, rfl⟩ hlo hhi hpall
  rw [hstores, initSlabStores_of_le (hobjs ▸ hout)]
  by_cases hqp : q = p
  · -- an object of the new slab
    subst hqp
    rw [hps, hobjs] at hi
    rw [hps] at hlo hhi
    have hobj := hok.obj_within hi
    exact Bytes.memset_zero hstart.ne' b (by omega) (by omega)
  · have hqx : q ∈ x.kmem.cache.all := (List.mem_cons.1 (hperm.mem_iff.1 hq)).resolve_left hqp
    rw [hslabs, Function.update_of_ne hqp] at hi hlo hhi hn
    have hobject : x.kmem.IsObject ((x.kmem.slabs q).obj i) := ⟨q, hqx, i, hi, rfl⟩
    obtain ⟨r, hr, hfrom, hto⟩ := h.object_within hobject hlo hhi
    have hzero := hc _ hobject hn
    rw [h.objSize, Int.toNat_natCast] at hzero
    obtain ⟨-, hd | hd⟩ := h.new_apart halloc hr
    · rw [Bytes.memset_of_le _ (by omega)]
      exact hzero b hlo hhi
    · rw [Bytes.memset_of_lt _ (by omega)]
      exact hzero b hlo hhi

/-- `kmem_obj_alloc` keeps free objects clean. -/
theorem kmemObjAlloc_clean (h : SlabsInv z k chain live x.kmem) (hz : 0 < z)
    (hlt : z < orderBytes k) (hc : x.Clean live) {stack : ℕ → BitVec 8} {ret : Option ℕ}
    (he : x.kmemObjAlloc stack = some (ret, y)) : y.Clean live := by
  unfold kmemObjAlloc at he
  split_ifs at he with hnum hlim
  · cases he
    exact hc
  · split at he
    · cases he
    · rename_i w hw
      cases he
      exact (grow_kept h hz hlt (not_le.1 hlim) hw).clean hc
    · rename_i w hw
      obtain ⟨hwc, chain', hinv⟩ := grow_spec h hz hlt (not_le.1 hlim) hc hw
      exact (take_kept hinv he).clean hwc
  · exact (take_kept h he).clean hc

/-- The object that is handed out is clean, since it was a free one. -/
theorem alloc_some_spec (h : SlabsInv z k chain live x.kmem) (hz : 0 < z)
    (hlt : z < orderBytes k) (hc : x.Clean live) {stack : ℕ → BitVec 8} {a : ℕ}
    (he : x.kmemObjAlloc stack = some (some a, y)) :
    (∃ chain', SlabsInv z k chain' (insert a live) y.kmem) ∧ a ∉ live ∧ y.Clean live ∧
      y.bytes.Zero a z := by
  have hclean := kmemObjAlloc_clean h hz hlt hc he
  have hk := kmemObjAlloc_kmem x stack
  rw [he] at hk
  obtain ⟨hfresh, -, chain', hinv⟩ := h.kmemObjAlloc_some hz hlt hk.symm
  have hzero := hclean a (hinv.isObject (Finset.mem_insert_self a live)) hfresh
  rw [hinv.objSize, Int.toNat_natCast] at hzero
  exact ⟨⟨chain', hinv⟩, hfresh, hclean, hzero⟩

theorem alloc_none_spec (h : SlabsInv z k chain live x.kmem) (hz : 0 < z)
    (hlt : z < orderBytes k) (hc : x.Clean live) {stack : ℕ → BitVec 8}
    (he : x.kmemObjAlloc stack = some (none, y)) :
    SlabsInv z k chain live y.kmem ∧ y.Clean live := by
  refine ⟨?_, kmemObjAlloc_clean h hz hlt hc he⟩
  have hk := kmemObjAlloc_kmem x stack
  rw [he] at hk
  exact h.growFailed (h.kmemObjAlloc_none hz hlt hk.symm)

/-- `kmem_obj_free` of a clean object. -/
theorem free_spec (h : SlabsInv z k chain live x.kmem) (hsz : SlabSize z k) (hc : x.Clean live)
    {a : ℕ} (ha : a ∈ live) (hzero : x.bytes.Zero a z) (he : x.kmemObjFree a = some y) :
    (∃ chain', SlabsInv z k chain' (live.erase a) y.kmem) ∧ y.Clean (live.erase a) := by
  constructor
  · have hk := kmemObjFree_kmem x a
    obtain ⟨w, chain', hw, hinv, -⟩ := h.kmemObjFree_spec hsz ha
    rw [he, hw] at hk
    obtain rfl : y.kmem = w := Option.some.inj hk
    exact ⟨chain', hinv⟩
  · have hkept := kmemObjFree_kept h hsz.pos he
    intro b hb hn
    by_cases hba : b = a
    · subst hba
      refine hkept.zero hb ?_
      rwa [h.objSize, Int.toNat_natCast]
    · exact hkept.clean hc b hb fun hl => hn (Finset.mem_erase.2 ⟨hba, hl⟩)

/-- The slabs that `kmem_cache_init` sets up have clean objects, whatever the memory held. -/
theorem initLoop_clean {a : KmemArgs} (ha : a.Sized z k) (hx : x.kmem.cache = a.cache)
    (stack : ℕ → ℕ → BitVec 8) : ∀ i : ℕ, i ≤ a.pgorLimit → ∀ y,
      x.initLoop stack i = some (true, y) → y.Clean ∅ ∧ ∃ chain, SlabsInv z k chain ∅ y.kmem := by
  intro i
  induction i with
  | zero =>
    intro hlim y he
    cases he
    have hempty := SlabsInv.empty ha hlim x.kmem
    rw [← hx] at hempty
    refine ⟨?_, _, hempty⟩
    rintro b ⟨p, hp, -⟩
    rw [hx] at hp
    cases hp
  | succ i ih =>
    intro hlim y he
    unfold initLoop at he
    split at he
    · cases he
    · cases he
    · rename_i w hw
      obtain ⟨hwc, chain, hinv⟩ := ih (by omega) w hw
      have hroom : w.kmem.cache.pgOrhas < w.kmem.cache.pgOrlimit := by
        have hk := initLoop_kmem x stack i
        rw [hw] at hk
        rcases initLoop_loaded ha x.kmem hx stack i (by omega) with ⟨hn, -⟩ |
          ⟨n, -, v, u, hu, -⟩ | ⟨v, hv, hload⟩
        · rw [hn] at hk
          cases hk
        · rw [hu] at hk
          cases hk
        · rw [hv] at hk
          obtain rfl : w.kmem = v := congrArg Prod.snd (Option.some.inj hk)
          rw [hload.pgOrhas, hload.pgOrlimit, hx]
          show (i : ℤ) < a.pgorLimit
          omega
      exact grow_spec hinv ha.pos ha.lt hroom hwc he

/-! ### What others do -/

/-- A step of somebody who uses the page allocator and owns the objects `own`: pages are taken and
given back, and there are stores in these objects and outside the slabs of the cache. -/
inductive Outside (own : Finset ℕ) (x : SlabMemory A) : SlabMemory A → Prop
  | alloc (k : ℤ) : Outside own x
      { x with kmem := { x.kmem with buddy := (A.alloc x.kmem.buddy k).2 } }
  | free {p : ℕ} {b : A.State} (hp : p ∉ x.kmem.cache.all) (h : A.free x.kmem.buddy p = some b) :
      Outside own x { x with kmem := { x.kmem with buddy := b } }
  | write {y : SlabMemory A} (hbuddy : y.kmem.buddy = x.kmem.buddy)
      (hcache : y.kmem.cache = x.kmem.cache)
      (hpage : ∀ p ∈ x.kmem.cache.all, y.kmem.pages p = x.kmem.pages p)
      (hslab : ∀ p ∈ x.kmem.cache.all, y.kmem.slabs p = x.kmem.slabs p)
      (hbytes : ∀ b, y.bytes b = x.bytes b ∨
        (∀ p ∈ x.kmem.cache.all,
          b < c.pg2va p ∨ c.pg2va p + orderBytes x.kmem.cache.pgOrder.toNat ≤ b) ∨
        ∃ a ∈ own, a ≤ b ∧ b < a + x.kmem.cache.objSize.toNat) : Outside own x y

/-- Any number of such steps. -/
def Elsewhere (own : Finset ℕ) : SlabMemory A → SlabMemory A → Prop :=
  Relation.ReflTransGen (Outside own)

/-- The blocks of the slabs stay with the cache. -/
theorem Outside.blocks {own : Finset ℕ} (h : SlabsInv z k chain live x.kmem)
    (hs : Outside own x y) : ∀ p ∈ x.kmem.cache.all,
      A.blocks y.kmem.buddy p = A.blocks x.kmem.buddy p := by
  intro p hp
  cases hs with
  | alloc j =>
    dsimp only
    rcases hal : A.alloc x.kmem.buddy j with ⟨- | q, t⟩
    · rw [(A.alloc_none hal).2]
    · obtain ⟨-, hsub, -, hb⟩ := A.alloc_some hal
      rw [hb, Function.update_of_ne]
      rintro rfl
      have hnone := A.blocks_of_free (hsub (self_mem_pagesOf p _))
      rw [h.block p hp] at hnone
      cases hnone
  | @free q t hq hf =>
    dsimp only
    rcases hb : A.blocks x.kmem.buddy q with - | j
    · rw [A.free_none x.kmem.buddy q hb] at hf
      cases hf
    · obtain ⟨t', ht, -, hb'⟩ := A.free_some hb
      rw [ht] at hf
      cases hf
      rw [hb', Function.update_of_ne]
      rintro rfl
      exact hq hp
  | write hbuddy => rw [hbuddy]

theorem Outside.cache {own : Finset ℕ} (hs : Outside own x y) :
    y.kmem.cache = x.kmem.cache := by
  cases hs with
  | alloc j => rfl
  | free hp hf => rfl
  | write _ hcache => exact hcache

/-- The objects stay where they are, and those that are nobody's stay clean. -/
theorem Outside.clean {own dirty : Finset ℕ} (h : SlabsInv z k chain live x.kmem)
    (hown : own ⊆ dirty) (hdirty : dirty ⊆ live) (hc : x.Clean dirty) (hs : Outside own x y) :
    SlabsInv z k chain live y.kmem ∧ y.Clean dirty := by
  have hblocks := hs.blocks h
  cases hs with
  | alloc j => exact ⟨h.congr rfl hblocks (fun _ _ => rfl) fun _ _ => rfl, hc⟩
  | free hp hf => exact ⟨h.congr rfl hblocks (fun _ _ => rfl) fun _ _ => rfl, hc⟩
  | write hbuddy hcache hpage hslab hbytes =>
    refine ⟨h.congr hcache hblocks hpage hslab, ?_⟩
    intro a ha hn b hlo hhi
    have hobject : x.kmem.IsObject a := by
      obtain ⟨p, hp, i, hi, rfl⟩ := ha
      rw [hcache] at hp
      rw [hslab p hp] at hi ⊢
      exact ⟨p, hp, i, hi, rfl⟩
    rw [hcache] at hhi
    have hzero := hc a hobject hn b hlo hhi
    rw [h.objSize, Int.toNat_natCast] at hhi
    rcases hbytes b with hb | hb | ⟨d, hd, hdlo, hdhi⟩
    · rw [hb, hzero]
    · -- a byte outside all slabs is in no object
      obtain ⟨p, hp, hfrom, hto⟩ := h.object_within hobject hlo hhi
      have := hb p hp
      rw [h.pgOrder, Int.toNat_natCast] at this
      omega
    · -- a byte of an object that is handed out is in no other one
      obtain ⟨q, hq, j, hj, hjc, rfl⟩ := (h.live_iff d).1 (hdirty (hown hd))
      obtain ⟨p, hp, i, hi, rfl⟩ := hobject
      rw [(h.slab p hp).objAll, Int.toNat_natCast] at hi
      rw [h.objSize, Int.toNat_natCast] at hdhi
      have hpi := (h.slab p hp).obj_within hi
      have hqj := (h.slab q hq).obj_within hj
      by_cases hpq : p = q
      · subst hpq
        rcases Nat.lt_trichotomy i j with hij | rfl | hij
        · have := (h.slab p hp).obj_apart hij
          omega
        · exact absurd (hown hd) hn
        · have := (h.slab p hp).obj_apart hij
          omega
      · rcases A.block_apart (h.block p hp) (h.block q hq) hpq with hd | hd
        · omega
        · omega

/-- So whatever happens elsewhere, free objects stay clean, and so does an object that has just been
handed out and is nobody's yet. -/
theorem Elsewhere.clean {own dirty : Finset ℕ} (h : SlabsInv z k chain live x.kmem)
    (hown : own ⊆ dirty) (hdirty : dirty ⊆ live) (hc : x.Clean dirty) (hs : Elsewhere own x y) :
    SlabsInv z k chain live y.kmem ∧ y.Clean dirty ∧ y.kmem.cache = x.kmem.cache := by
  induction hs with
  | refl => exact ⟨h, hc, rfl⟩
  | tail _ hstep ih =>
    obtain ⟨hinv, hclean, hcache⟩ := ih
    obtain ⟨hinv', hclean'⟩ := hstep.clean hinv hown hdirty hclean
    exact ⟨hinv', hclean', hstep.cache.trans hcache⟩

end SlabMemory

end AcoOs
