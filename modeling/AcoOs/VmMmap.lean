/-
What `vm_mmap` does.

The block is taken and marked as one for areas before it backs one (`Claimed`), so that
between calls of `__vm_mmap` a block may have no reference.  When the mapping is refused
the block goes back to the buddy allocator, and everything that is visible is as it was.
-/
import AcoOs.VmFree

namespace AcoOs

open Memory

variable {L : VmLayout} {A : VmEnv L}

namespace VmState

variable {x x' y z : VmState A} {v w a p o : ℕ} {area : VmaArea}

/-! ### A block for an area -/

/-- Block `p` of order `o` was taken and marked as one for areas. -/
structure Claimed (x z : VmState A) (p o : ℕ) : Prop where
  vmas : z.vmas = x.vmas
  areas : z.areas = x.areas
  kernVma : z.kernVma = x.kernVma
  live : z.live = x.live
  spaces : z.mem.Spaces (x.live .vma) x.root x.pin
  untouched : ∀ q, q ∉ x.mem.freePages → x.mem.Untouched z.mem q
  sub : pagesOf p o ⊆ x.mem.freePages
  backs : z.mem.BacksAreas p o
  refCount : (z.mem.pages p).refCount = 0
  pages : ∀ q, q ≠ p → z.mem.pages q = x.mem.pages q
  zero : ∀ q ∈ pagesOf p o, ∀ j, z.mem.words q j = 0

theorem bkpAllocZero_none {k : ℤ} (h : x.bkpAllocZero k = (none, y)) :
    x.AtAllocators y ∧ y.live = x.live := by
  unfold VmState.bkpAllocZero at h
  rcases hm : x.mem.bkpAllocZero k with ⟨_ | p, m⟩
  · rw [hm] at h
    obtain rfl := (Prod.mk.inj h).2
    obtain ⟨h1, h2, h3, h4⟩ := Memory.bkpAllocZero_none hm
    exact ⟨⟨rfl, rfl, rfl, h3, h4, h2, h1.subset⟩, live_evolves (bkpAllocZero_evolves hm)⟩
  · rw [hm] at h
    cases (Prod.mk.inj h).1

/-- `bkp_alloc_zero` and what its callers do with the block. -/
theorem claimBlock_spec (hsp : x.mem.Spaces (x.live .vma) x.root x.pin) {k : ℤ}
    (h : x.bkpAllocZero k = (some p, y)) :
    ∃ z, y.claimBlock p k = .ok z ∧ x.Claimed z p k.toNat := by
  unfold VmState.bkpAllocZero at h
  obtain ⟨hp, rfl⟩ := Prod.mk.inj h
  rcases hm : x.mem.bkpAllocZero k with ⟨q, m⟩
  rw [hm] at hp
  dsimp only at hp
  subst hp
  obtain ⟨hk, hz⟩ := bkpAllocZero_some hm
  have hpg : m.pages p = .handed k.toNat := hz.page
  obtain ⟨hsp', hu, hsub, -, hb, hpp, hother, -⟩ := hsp.take hm
    { m.pages p with pgtype := .vmaArea, refCount := 0 } (by rw [hpg]; rfl)
    (by rw [hpg]; rfl) rfl
  have hev := bkpAllocZero_evolves hm
  have hlive : A.live m.buddy = A.live x.mem.buddy := live_evolves hev
  refine ⟨_, if_pos ?_, rfl, rfl, rfl, hlive, hsp', hu, hsub,
    ⟨?_, hb, ?_, ?_⟩, ?_, hother, hz.zero⟩
  · dsimp only
    rw [hpg]
    exact ⟨Int.toNat_of_nonneg hk, rfl, rfl⟩
  · exact congrArg Pageframe.pgtype hpp
  · exact (congrArg Pageframe.buddyOrder hpp).trans (by rw [hpg]; rfl)
  · exact (congrArg Pageframe.buddyFlags hpp).trans (by rw [hpg]; rfl)
  · exact congrArg Pageframe.refCount hpp

namespace Claimed

theorem root (hc : x.Claimed z p o) : z.root = x.root := by
  unfold VmState.root
  rw [hc.vmas]

theorem pin (hc : x.Claimed z p o) : z.pin = x.pin := by
  unfold VmState.pin
  rw [hc.kernVma]

theorem list (hc : x.Claimed z p o) : z.list = x.list := by
  unfold VmState.list
  rw [hc.vmas]

/-- The page tables do not see the block. -/
theorem tables (hc : x.Claimed z p o) (hsp : x.mem.Spaces (x.live .vma) x.root x.pin)
    (hv : v ∈ x.live .vma) : ∀ q ∈ x.mem.tables 2 (x.root v), x.mem.Untouched z.mem q :=
  fun q hq => hc.untouched q ((hsp.table v hv).apart q hq)

theorem entry (hc : x.Claimed z p o) (hsp : x.mem.Spaces (x.live .vma) x.root x.pin)
    (hv : v ∈ x.live .vma) (hw : w < tableSpan) : z.entry v w = x.entry v w := by
  unfold VmState.entry
  rw [hc.root]
  exact leaf_untouched (hc.tables hsp hv) hw

theorem backs_untouched (hc : x.Claimed z p o) {q k : ℕ} (hb : x.mem.BacksAreas q k) :
    x.mem.Untouched z.mem q :=
  hc.untouched q (Spaces.backs_notMem_free hb (self_mem_pagesOf q k))

theorem frame (hc : x.Claimed z p o) (hsp : x.mem.Spaces (x.live .vma) x.root x.pin) :
    x.Frame z v where
  kernVma := hc.kernVma
  liveVma := by rw [hc.live]
  vmas _ _ := by rw [hc.vmas]
  hwPgtable := by rw [hc.vmas]
  kernelVma := by rw [hc.vmas]
  entry _ hw _ _ hu := hc.entry hsp hw hu

theorem sameSpace (hc : x.Claimed z p o) (hsp : x.mem.Spaces (x.live .vma) x.root x.pin)
    (hv : v ∈ x.live .vma) : x.SameSpace z v where
  list := by rw [hc.list]
  areas _ _ := by rw [hc.areas]
  entries := .of_eq fun _ hw => hc.entry hsp hv hw

/-- No area refers to the block yet. -/
theorem inv (hc : x.Claimed z p o) (h : x.VmInv) : z.VmInv := by
  refine h.step (hc.frame h.spaces) h.kern_live ?_ hc.spaces (fun w hw _ => ?_) (fun a => ?_)
    (fun a ha => .inl ?_) (fun a ha => ?_) fun q hq => ?_
  · exact (h.listed _ h.kern_live).congr (by rw [hc.vmas])
  · exact (hc.tables h.spaces hw _ (root_mem_tables x.mem 2 _)).blocks
  · rw [hc.live, hc.list]
    refine ⟨fun ha => ?_, fun ha => ha.elim (h.mem_live h.kern_live) And.left⟩
    by_cases hal : a ∈ x.list x.kernVma
    · exact .inl hal
    · exact .inr ⟨ha, hal⟩
  · rwa [hc.list] at ha
  · rw [hc.live] at ha
    rw [hc.areas]
    exact (h.areaOk a ha).mono fun q k _ hb => hb.untouched (hc.backs_untouched hb)
  · rw [hc.live, backed_congr fun a _ => congrFun hc.areas a]
    by_cases hqp : q = p
    · rw [hqp, hc.refCount]
      symm
      rw [Nat.cast_eq_zero, Finset.card_eq_zero, Finset.eq_empty_iff_forall_notMem]
      intro a ha
      obtain ⟨hal, ht, hap⟩ := Finset.mem_filter.1 ha
      obtain ⟨q', k, hq', hb, -⟩ := (h.areaOk a hal).backed ht
      rw [hap] at hq'
      cases hq'
      exact Spaces.backs_notMem_free hb (self_mem_pagesOf _ _) (hc.sub (self_mem_pagesOf _ _))
    · rw [hc.pages q hqp] at hq ⊢
      exact h.refCount q hq

theorem inTheWay (hc : x.Claimed z p o) : z.inTheWay v area = x.inTheWay v area := by
  unfold VmState.inTheWay
  rw [hc.vmas, hc.areas]

theorem collides (hc : x.Claimed z p o) (hsp : x.mem.Spaces (x.live .vma) x.root x.pin)
    (hv : v ∈ x.live .vma) (hz : z.Collides v area) : x.Collides v area := by
  obtain ⟨hway, w, hw, hcov, e, he, hve⟩ := hz
  have heq := hc.entry hsp hv hw
  unfold VmState.entry at heq
  rw [hc.inTheWay] at hway
  exact ⟨hway, w, hw, hcov, e, heq ▸ he, hve⟩

/-- The mapping was refused, and the block goes back. -/
theorem giveBack (hc : x.Claimed z p o) (h : x.VmInv) (hv : v ∈ x.live .vma)
    (hr : z.Refused x' v) (pg : Pageframe)
    (ht : pg.pgtype = .buddyAllocator) (hh : pg.buddyFlags = flagHead) :
    ∃ m, (x'.setPage p pg).mem.bkpFree p = some m ∧ x.Refused (x'.withMem m) v ∧
      pagesOf p o ⊆ m.freePages ∧ m.pages p = pg := by
  have hsp : x'.mem.Spaces (x.live .vma) x.root x.pin := by
    have := hr.kept.spaces
    rwa [hc.live, hc.root, hc.pin] at this
  have hb : x'.mem.BacksAreas p o := hc.backs.untouched (hr.kept.backs p o hc.backs)
  obtain ⟨m, hm, hsp', hfree, hpp, hother, hu⟩ := hsp.giveBack hb pg ht hh
  have hev := bkpFree_evolves hm
  have hlive : A.live m.buddy = A.live x'.mem.buddy := live_evolves hev
  -- what neither the mapping nor the block concerns is untouched from beginning to end
  have hkeep : ∀ q, q ∉ x.mem.freePages → z.mem.Untouched x'.mem q → x.mem.Untouched m q := by
    intro q hq hzx
    refine ((hc.untouched q hq).trans hzx).trans (hu q (fun hqp => hq (hc.sub hqp)) hzx.notMem)
  have hkept : Kept (x.live .vma) x.root x.pin v x.mem m := by
    refine ⟨hsp', fun w hw hne q hq => ?_, fun q k hq => ?_, fun q hq => ?_, ?_,
      fun b k hb q hq => ?_⟩
    · refine hkeep q ((h.spaces.table w hw).apart q hq) (hr.kept.others w ?_ hne q ?_)
      · rwa [hc.live]
      · rw [hc.root, tables_untouched (hc.tables h.spaces hw)]
        exact hq
    · refine hkeep q (Spaces.backs_notMem_free hq (self_mem_pagesOf q k)) ?_
      exact hr.kept.backs q k (hq.untouched (hc.backs_untouched hq))
    · by_cases hqp : q = p
      · rw [hqp, hpp, ht] at hq
        cases hq
      · rw [hother q hqp] at hq
        have := hr.kept.types q hq
        rwa [hc.pages q hqp] at this
    · have hrt := root_mem_tables x'.mem 2 (x.root v)
      rw [(hu _ (hsp.block_apart v hv p o hb _ hrt) ((hsp.table v hv).apart _ hrt)).blocks]
      have hroot := hr.kept.root
      rw [hc.root] at hroot
      rw [hroot, (hc.tables h.spaces hv _ (root_mem_tables x.mem 2 _)).blocks]
    · have hbz := hb.untouched (hc.backs_untouched hb)
      have hbx' := hbz.untouched (hr.kept.backs b k hbz)
      have hqx := Spaces.backs_notMem_free hb hq
      rw [(hu q (fun hqp => hqx (hc.sub hqp)) (Spaces.backs_notMem_free hbx' hq)).words,
        hr.kept.words b k hbz q hq, (hc.untouched q hqx).words]
  refine ⟨m, hm, ⟨.of_kept rfl hkept ?_ ?_ (fun w hw => ?_) ?_ ?_, ?_, ?_, ?_, fun b hb => ?_,
    hkept, ?_⟩, fun q hq => ?_, hpp⟩
  · exact hr.frame.kernVma.trans hc.kernVma
  · show A.live m.buddy .vma = _
    rw [hlive]
    exact hr.frame.liveVma.trans (by rw [hc.live])
  · exact (hr.frame.vmas w hw).trans (by rw [hc.vmas])
  · exact hr.frame.hwPgtable.trans (by rw [hc.vmas])
  · exact hr.frame.kernelVma.trans (by rw [hc.vmas])
  · exact hr.list.trans (by rw [hc.list])
  · exact hr.toList.trans (by rw [hc.vmas])
  · exact hlive.trans (hr.live.trans hc.live)
  · refine (hr.areas b ?_).trans (by rw [hc.areas])
    rwa [hc.live]
  · intro w hw e he
    have hent := hr.entries w hw e he
    rw [hc.entry h.spaces hv hw] at hent
    rw [← hent]
    have hleaf : m.leaf 2 (x'.root v) w = x'.mem.leaf 2 (x'.root v) w := by
      refine leaf_untouched (fun q hq => ?_) hw
      rw [hr.frame.root, hc.root] at hq
      exact hu q (hsp.block_apart v hv p o hb q hq) ((hsp.table v hv).apart q hq)
    show m.leaf 2 (x'.root v) w = some e ↔ x'.mem.leaf 2 (x'.root v) w = some e
    rw [hleaf]
  · rw [hfree]
    exact .inr hq

/-- The block backs an area. -/
theorem added (hc : x.Claimed z p o) (h : x.VmInv) (hv : v ∈ x.live .vma)
    (hr : z.Request area) (hm : z.Mapped x' v a area) (ht : area.vmarTyp = .memory)
    (hpa : area.pa = L.pg2pa p) (hway : x.inTheWay v area = none)
    (hout : ∀ w, area.Covers w → ¬ kernelPos L w) : x.Added x' v a area := by
  have hvz : v ∈ z.live .vma := by rw [hc.live]; exact hv
  have hz := hm.added (hc.inv h) hvz hr (by rw [hc.inTheWay]; exact hway) fun _ => hout
  refine ⟨hz.inv, fun href q hq => ?_, (hc.frame h.spaces).trans hz.frame, ?_, ?_, hway, ?_, ?_,
    hz.made, ?_, ?_, fun q k hq => hz.backs q k (hq.untouched (hc.backs_untouched hq)),
    fun b k hb q hq => ?_⟩
  · by_cases hqp : q = p
    · obtain ⟨p', o', hp', hb', -, hpa', -⟩ := hm.backed ht
      have hpp : p' = p := by
        rw [← VmLayout.pa2pg_pg2pa (A.block_lt hb'.block), ← hpa', hpa,
          VmLayout.pa2pg_pg2pa (A.block_lt hc.backs.block)]
      refine ⟨a, ?_, ?_, by rw [hqp, hp', hpp]⟩
      · rw [hz.live]
        exact Finset.mem_insert_self _ _
      · rw [hz.made]
        exact ht
    · have hqz := hm.types q hq
      rw [hc.pages q hqp] at hqz
      obtain ⟨b, hb, h1, h2⟩ := href q hqz
      have hbz : b ∈ z.live .vmaArea := by rw [hc.live]; exact hb
      refine ⟨b, ?_, ?_, ?_⟩
      · rw [hz.live]
        exact Finset.mem_insert_of_mem hbz
      · rw [hz.areas_live hbz, hc.areas]
        exact h1
      · rw [hz.areas_live hbz, hc.areas]
        exact h2
  · rw [← hc.live]
    exact hz.fresh
  · rw [hz.live, hc.live]
  · have hs := hz.split
    rwa [hc.list, hc.vmas, hc.areas] at hs
  · intro b hb
    rw [hz.areas b hb, hc.areas]
  · intro w hw hcov
    have := hz.wrote w hw hcov
    rwa [hc.entry h.spaces hv hw] at this
  · intro w hw hcov
    have := hz.rest w hw hcov
    rwa [hc.entry h.spaces hv hw] at this
  · rw [hz.words b k (hb.untouched (hc.backs_untouched hb)) q hq,
      (hc.untouched q (Spaces.backs_notMem_free hb hq)).words]

end Claimed

/-! ### `vm_mmap` -/

/-- The area of a block. -/
def memoryArea (L : VmLayout) (va p o prot : ℕ) : VmaArea :=
  ⟨.memory, va, 2 ^ o * pageSize, L.pg2pa p, none, prot⟩

theorem Claimed.request (hc : x.Claimed z p o) {va prot : ℕ} (hva : va % pageSize = 0)
    (hlt : va < 2 ^ 64) : z.Request (memoryArea L va p o prot) := by
  have hp : p < L.pageNums := A.block_lt hc.backs.block
  have ho : o < 31 := lt_of_lt_of_le ((A.wellFormed z.mem.buddy).order_lt p o hc.backs.block)
    L.maxOrder_le
  have hpow : 2 ^ o ≤ 2 ^ 30 := Nat.pow_le_pow_right (by norm_num) (by omega)
  have hpos := Nat.two_pow_pos o
  have hpa := VmLayout.pg2pa_lt hp
  refine ⟨hva, VmLayout.pg2pa_aligned hp, Nat.mul_mod_left _ _, ?_, hlt, ?_, ?_, rfl,
    fun _ => ⟨p, o, hc.backs, rfl, rfl⟩, fun h => (nomatch h)⟩
  · show 0 < 2 ^ o * pageSize
    exact Nat.mul_pos hpos (by decide)
  · show L.pg2pa p < _
    omega
  · show 2 ^ o * pageSize < _
    simp only [pageSize, pageOffset]
    omega

/-- `vm_mmap` with arguments that it accepts. -/
theorem vmMmap_cases (h : x.VmInv) (hv : v ∈ x.live .vma) {va : ℕ} {order : ℤ}
    (hva : va % pageSize = 0) (hlt : va < 2 ^ 64) (horder : 0 ≤ order ∧ order < L.maxOrder)
    (prot : ℕ) :
    (∃ x', (x.bkpAllocZero order).1 = none ∧ x.vmMmap v va order prot = .ok (-enomem, x') ∧
      x.Refused x' v) ∨
    ∃ p z, (x.bkpAllocZero order).1 = some p ∧ x.Claimed z p order.toNat ∧
      z.Request (memoryArea L va p order.toNat prot) ∧
      ((∃ e, x.vmMmap v va order prot = .error e ∧
        x.Stops v (memoryArea L va p order.toNat prot) e) ∨
      (∃ ret x', x.vmMmap v va order prot = .ok (ret, x') ∧
        (ret = -enobufs ∧ (z.objAlloc .vmaArea).1 = none ∨
          ret = -eexist ∧ x.inTheWay v (memoryArea L va p order.toNat prot) ≠ none ∨
          ret = -enomem ∧ x.inTheWay v (memoryArea L va p order.toNat prot) = none) ∧
        x.Refused x' v ∧ pagesOf p order.toNat ⊆ x'.mem.freePages ∧
        (x'.mem.pages p).pgtype = .buddyAllocator) ∨
      ∃ a x', x.vmMmap v va order prot = .ok (0, x') ∧
        x.inTheWay v (memoryArea L va p order.toNat prot) = none ∧
        z.Mapped x' v a (memoryArea L va p order.toNat prot)) := by
  have hargs : ¬ (v = 0 ∨ va % pageSize ≠ 0 ∨ ¬ (0 ≤ order ∧ order < L.maxOrder)) := by
    rintro (h0 | h0 | h0)
    · exact h.ne_zero hv h0
    · exact h0 hva
    · exact h0 horder
  unfold vmMmap
  rw [if_neg hargs]
  rcases hb : x.bkpAllocZero order with ⟨_ | p, y⟩
  · obtain ⟨hat, hlive⟩ := bkpAllocZero_none hb
    exact .inl ⟨y, rfl, rfl, .of_at h hat hlive⟩
  right
  obtain ⟨z, hz, hc⟩ := claimBlock_spec h.spaces hb
  have hr : z.Request (memoryArea L va p order.toNat prot) := hc.request hva hlt
  refine ⟨p, z, rfl, hc, hr, ?_⟩
  dsimp only
  rw [hz]
  have hvz : v ∈ z.live .vma := by rw [hc.live]; exact hv
  have hsize : 1 <<< order.toNat * pageSize = 2 ^ order.toNat * pageSize := by
    rw [Nat.one_shiftLeft]
  dsimp only
  rw [hsize]
  rcases vmMmapInternal_cases (hc.inv h) hvz hr with ⟨e, he, hst⟩ | ⟨ret, x', he, hwhy, href⟩ |
    ⟨a, x', he, -, hway, hm⟩
  · refine .inl ⟨e, ?_, hst.imp_right fun h' => ⟨h'.1, hc.collides h.spaces hv h'.2⟩⟩
    rw [show z.vmMmapInternal v va (L.pg2pa p) prot (2 ^ order.toNat * pageSize) .memory true =
      .error e from he]
  · have hwhy' : ret = -enobufs ∧ (z.objAlloc .vmaArea).1 = none ∨
        ret = -eexist ∧ x.inTheWay v (memoryArea L va p order.toNat prot) ≠ none ∨
        ret = -enomem ∧ x.inTheWay v (memoryArea L va p order.toNat prot) = none := by
      rw [← hc.inTheWay]
      exact hwhy.imp_right fun h' => h'.2.imp_right fun h' => ⟨h'.1, h'.2.1⟩
    have hne : ret ≠ 0 := by
      rcases hwhy' with ⟨rfl, -⟩ | ⟨rfl, -⟩ | ⟨rfl, -⟩ <;> decide
    rw [show z.vmMmapInternal v va (L.pg2pa p) prot (2 ^ order.toNat * pageSize) .memory true =
      .ok (ret, x') from he]
    dsimp only
    rw [if_pos hne]
    have hpages := hc.backs.untouched (href.kept.backs p _ hc.backs)
    obtain ⟨m, hm, href', hsub, hpg⟩ := hc.giveBack h hv href
      { x'.mem.pages p with pgtype := .buddyAllocator, refCount := 0 } rfl hpages.head
    have hret : x'.returnBlock p = .ok (x'.withMem m) := by
      unfold returnBlock
      rw [hm]
      rfl
    rw [hret]
    exact .inr (.inl ⟨ret, _, rfl, hwhy', href', hsub, congrArg Pageframe.pgtype hpg⟩)
  · rw [show z.vmMmapInternal v va (L.pg2pa p) prot (2 ^ order.toNat * pageSize) .memory true =
      .ok (0, x') from he]
    dsimp only
    rw [if_neg (not_not.2 rfl)]
    rw [hc.inTheWay] at hway
    exact .inr (.inr ⟨a, x', rfl, hway, hm⟩)

end VmState

end AcoOs
