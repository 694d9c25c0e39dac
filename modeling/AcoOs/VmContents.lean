/-
The bytes in a copied address space.

Between the calls, whoever uses an address space stores into the memory of its areas;
`vmStoreRuns` has these stores as steps.  `vma_dup` gives memory that may be written new blocks
from `bkp_alloc_zero`, and does not copy into them:

* **`vma_dup_contents_iff`** — the copy has the same bytes just when all bytes of the areas that
  may be written are zero;
* **`not_vma_dup_contents`** — a one in a page of the kernel is a zero in the copy.
-/
import AcoOs.VmCopy

namespace AcoOs

open Memory

variable {L : VmLayout} {A : VmEnv L}

/-- An address in a managed page names the page. -/
theorem VmLayout.pa2pg_add {q off : ℕ} (hq : q < L.pageNums) (hoff : off < pageSize) :
    L.pa2pg (L.pg2pa q + off) = q := by
  have h1 := L.paEnd_le
  unfold pa2pg
  rw [pg2pa_of_valid hq]
  simp only [pageSize, pageOffset] at *
  omega

namespace VmState

variable {x x' : VmState A} {v u a b c p o q j word va : ℕ}

/-! ### Stores -/

/-- A word is stored into a page. -/
def store (x : VmState A) (q j word : ℕ) : VmState A :=
  { x with mem := x.mem.setWord q j word }

end VmState

/-- What happens to the address spaces: a call, or a store into the memory of an area. -/
inductive VmEvent
  | call (c : VmCall)
  | store (q j word : ℕ)
  deriving DecidableEq, Repr

/-- The runs of calls and stores. -/
def vmStoreRuns (A : VmEnv L) : Machine.System (VmState A) VmEvent where
  init := (vmRuns A).init
  step s event s' :=
    match event with
    | .call c => (vmRuns A).step s c s'
    | .store q j word => (∃ p o, s.mem.BacksAreas p o ∧ q ∈ pagesOf p o) ∧ j < pteNums ∧
        word < 2 ^ 64 ∧ s' = s.store q j word

namespace VmState

variable {x x' : VmState A} {v u a b c p o q j word va : ℕ}

theorem store_untouched (h : x.Inv) (hb : x.mem.BacksAreas p o) (hq : q ∈ pagesOf p o)
    (hv : v ∈ x.live .vma) {t : ℕ} (ht : t ∈ x.mem.tables 2 (x.root v)) :
    x.mem.Untouched (x.store q j word).mem t := by
  have hne : t ≠ q := fun he => h.vm.spaces.block_apart v hv p o hb t ht (he ▸ hq)
  exact ⟨Function.update_of_ne hne _ _, rfl, rfl, (h.vm.spaces.table v hv).apart t ht⟩

/-- No page table sees a store into the memory of an area. -/
theorem store_entry (h : x.Inv) (hb : x.mem.BacksAreas p o) (hq : q ∈ pagesOf p o)
    (hv : v ∈ x.live .vma) {w : ℕ} (hw : w < tableSpan) :
    (x.store q j word).entry v w = x.entry v w :=
  leaf_untouched (fun _ ht => store_untouched h hb hq hv ht) hw

/-- A store into the memory of an area changes nothing else. -/
theorem Inv.store (h : x.Inv) (hb : x.mem.BacksAreas p o) (hq : q ∈ pagesOf p o) :
    (x.store q j word).Inv := by
  have hback : ∀ r k, x.mem.BacksAreas r k → (x.store q j word).mem.BacksAreas r k :=
    fun _ _ hr => ⟨hr.type, hr.block, hr.order, hr.head⟩
  have hspaces : (x.store q j word).mem.Spaces (x.live .vma) x.root x.pin :=
    h.vm.spaces.outside (fun v hv t ht => store_untouched h hb hq hv ht) fun r hr => by
      obtain ⟨k, hk⟩ := h.vm.spaces.backs r hr
      exact ⟨k, hback r k hk, .inl hk⟩
  have hsame : ∀ v ∈ x.live .vma, x.SameSpace (x.store q j word) v := fun v hv =>
    ⟨rfl, fun _ _ => rfl, .of_eq fun w hw => store_entry h hb hq hv hw⟩
  exact ⟨⟨h.vm.kern_live, h.vm.zero_notMem, h.vm.kernelVma, h.vm.hwPgtable, h.vm.dead,
    fun v hv => (h.vm.listed v hv).congr rfl, hspaces, h.vm.rootBlock, h.vm.live_iff, h.vm.owner,
    fun a ha => (h.vm.areaOk a ha).mono fun r k _ hr => hback r k hr, h.vm.refCount⟩,
    h.referenced, fun v hv => (h.kernel v hv).sameSpace (hsame v hv)⟩

theorem inv_store_reachable (h : (vmStoreRuns A).Reachable x) : x.Inv := by
  refine Machine.System.Reachable.invariant (M := vmStoreRuns A)
    (fun s hs => inv_reachable (.of_init hs)) (fun s event s' _ hs hstep => ?_) h
  cases event with
  | call c =>
    obtain ⟨hc, ret, heq⟩ := hstep
    rcases exec_effect hs hc with ⟨e, he, -⟩ | ⟨ret', s'', he, heff⟩
    · rw [heq] at he
      cases he
    · rw [heq] at he
      cases he
      exact heff.inv hs
  | store q j word =>
    obtain ⟨⟨p, o, hb, hq⟩, -, -, rfl⟩ := hstep
    exact hs.store hb hq

/-! ### Reading through a page table -/

/-- The byte at a physical address; a page holds words of 8 bytes. -/
def byteAt (x : VmState A) (pa : ℕ) : ℕ :=
  x.mem.words (L.pa2pg pa) (pa % pageSize / 8) / 256 ^ (pa % 8) % 256

/-- The byte at an address of an address space, unless its page is not mapped. -/
def readByte (x : VmState A) (vma va : ℕ) : Option ℕ :=
  (x.translate vma va).map fun frame => x.byteAt (frame.1 + va % pageSize)

/-- The page table has the entry of area `b` for an address of it. -/
structure Shows (x : VmState A) (vma b va : ℕ) : Prop where
  low : (x.areas b).va ≤ va
  high : va < (x.areas b).va + (x.areas b).size
  covers : (x.areas b).Covers (position 2 va)
  entry : x.entry vma (position 2 va) = some ((x.areas b).pte (position 2 va))
  valid : PteValid ((x.areas b).pte (position 2 va))

theorem byteAt_pg2pa (hq : q < L.pageNums) (va : ℕ) : x.byteAt (L.pg2pa q + va % pageSize) =
    x.mem.words q (va % pageSize / 8) / 256 ^ (va % 8) % 256 := by
  have hal := VmLayout.pg2pa_aligned hq
  have hlt : va % pageSize < pageSize := Nat.mod_lt _ (by decide)
  unfold byteAt
  rw [VmLayout.pa2pg_add hq hlt]
  have h1 : (L.pg2pa q + va % pageSize) % pageSize = va % pageSize := by
    rw [Nat.add_mod, hal, Nat.zero_add, Nat.mod_mod, Nat.mod_mod]
  have h2 : (L.pg2pa q + va % pageSize) % 8 = va % 8 := by
    simp only [pageSize, pageOffset] at *
    omega
  rw [h1, h2]

/-- The frame of a page of memory. -/
theorem frame_of_covers {area : VmaArea} {w : ℕ} (hb : x.mem.BacksAreas p o)
    (hpa : area.pa = L.pg2pa p) (hsize : area.size = 2 ^ o * pageSize) (hc : area.Covers w) :
    ∃ q ∈ pagesOf p o, q < L.pageNums ∧ (pteFrame (area.pte w)).1 = L.pg2pa q := by
  have hwf := A.wellFormed x.mem.buddy
  have hle := hwf.block_le p o hb.block
  have hp := A.block_lt hb.block
  have hend := L.paEnd_le
  have hcount : toInt32 (area.size / pageSize) = (2 ^ o : ℕ) := by
    have := Layout.two_pow_le_of_lt_maxOrder (hwf.order_lt p o hb.block)
    rw [hsize, Nat.mul_div_cancel _ (by decide), toInt32_of_lt (by omega)]
  have hpow := Nat.two_pow_pos o
  obtain ⟨hlow, hhigh⟩ := hc
  rw [hcount] at hhigh
  have hw := hhigh (by exact_mod_cast hpow)
  have hq : p + (w - position 2 area.va) < L.pageNums := by omega
  refine ⟨p + (w - position 2 area.va), mem_pagesOf.2 ⟨by omega, by omega⟩, hq, ?_⟩
  rw [pteFrame_pte (by rw [hpa]; exact VmLayout.pg2pa_aligned hp), hpa, VmLayout.pg2pa_of_valid hp,
    VmLayout.pg2pa_of_valid hq, Nat.add_mul, ← Nat.add_assoc]
  refine Nat.mod_eq_of_lt ?_
  simp only [pageSize, pageOffset] at *
  omega

/-- A byte of an area that the page table shows. -/
theorem Shows.readByte {area : VmaArea} {b : ℕ} (hs : x.Shows v b va) (h : x.areas b = area)
    (hb : x.mem.BacksAreas p o) (hpa : area.pa = L.pg2pa p) (hsize : area.size = 2 ^ o * pageSize) :
    ∃ q ∈ pagesOf p o, q < L.pageNums ∧
      (pteFrame (area.pte (position 2 va))).1 = L.pg2pa q ∧ x.readByte v va =
      some (x.mem.words q (va % pageSize / 8) / 256 ^ (va % 8) % 256) := by
  subst h
  obtain ⟨q, hq, hlt, hframe⟩ := frame_of_covers hb hpa hsize hs.covers
  refine ⟨q, hq, hlt, hframe, ?_⟩
  have htrans : x.translate v va = some (pteFrame ((x.areas b).pte (position 2 va))) :=
    translate_eq_some.2 ⟨_, hs.entry, hs.valid, rfl⟩
  unfold VmState.readByte
  rw [htrans, Option.map_some, hframe, byteAt_pg2pa hlt]

/-- The copy of an area is shown where the area was. -/
theorem Duplicated.shows (hd : x.Duplicated x' u v) (hs : x.Shows u b va) (hc : x.CopyOf x' b c)
    (hcl : c ∈ x'.list v) : x'.Shows v c va := by
  have hcov : (x'.areas c).Covers (position 2 va) := by
    have := hs.covers
    unfold VmaArea.Covers at *
    rwa [hc.va, hc.size]
  have hvalid : PteValid ((x'.areas c).pte (position 2 va)) := by
    have := hs.valid
    unfold VmaArea.pte at *
    rw [pteValid_pa2PTE] at *
    rwa [hc.prot]
  refine ⟨?_, ?_, hcov, ?_, hvalid⟩
  · rw [hc.va]
    exact hs.low
  · rw [hc.va, hc.size]
    exact hs.high
  · exact (hd.entry _ (position_lt 2 va) _ hvalid).2 ⟨c, hcl, hcov, rfl⟩

theorem inv_vmaDup (h : x.Inv) (hu : (VmCall.vmaDup u).Valid x) (hret : x.vmaDup u = .ok (v, x')) :
    x'.Inv := by
  have hexec : x.exec (.vmaDup u) = .ok ((v : ℤ), x') := congrArg (Except.map _) hret
  rcases exec_effect h hu with ⟨e, he, -⟩ | ⟨ret, y, he, heff⟩
  · rw [hexec] at he
    cases he
  · rw [hexec] at he
    cases he
    exact heff.inv h

/-- What is read from the copy: zero where the area may be written, and otherwise what is read
from the area. -/
theorem Duplicated.readByte (hd : x.Duplicated x' u v) (h : x.VmInv) (h' : x'.VmInv)
    (hu : u ∈ x.live .vma) (hb : b ∈ x.list u) (ht : (x.areas b).vmarTyp = .memory)
    (hs : x.Shows u b va) : ((x.areas b).Writable → x'.readByte v va = some 0) ∧
      (¬ (x.areas b).Writable → x'.readByte v va = x.readByte u va) := by
  obtain ⟨l, hperm, hcopies⟩ := hd.areas
  obtain ⟨c, hcl, hc⟩ := exists_of_forall₂ hcopies.flip hb
  have hcl' := hperm.mem_iff.1 hcl
  have hv : v ∈ x'.live .vma := by
    rw [hd.live]
    exact Finset.mem_insert_self v _
  have hsc := hd.shows hs hc hcl'
  have hokc := h'.list_ok hv hcl'
  obtain ⟨p, o, hp, hback, hpa, hsize⟩ := hokc.backed (by rw [hc.vmarTyp]; exact ht)
  obtain ⟨q, hq, hlt, hframe, hread⟩ := hsc.readByte rfl hback hpa hsize
  refine ⟨fun hw => ?_, fun hw => ?_⟩
  · obtain ⟨p', o', hp', hback', -, -, hzero⟩ := hc.own hw
    rw [hp] at hp'
    cases hp'
    rw [hback.order_unique hback'] at hq
    rw [hread, hzero q hq, Nat.zero_div, Nat.zero_mod]
  · obtain ⟨p', o', hp', hback', hpa', hsize'⟩ := (h.list_ok hu hb).backed ht
    obtain ⟨q', hq', hlt', hframe', hread'⟩ := hs.readByte rfl hback' hpa' hsize'
    have hpte : (x'.areas c).pte (position 2 va) = (x.areas b).pte (position 2 va) := by
      unfold VmaArea.pte
      rw [(hc.shared hw).1, hc.va, hc.prot]
    rw [hpte, hframe'] at hframe
    have hqq := VmLayout.pg2pa_inj hlt' hlt hframe
    rw [hread, hread', ← hqq, hd.words p' o' hback' q' hq']

/-- A word in a page does not change where an address space shows it. -/
theorem Shows.store (hs : x.Shows v a va) (h : x.Inv) (hb : x.mem.BacksAreas p o)
    (hq : q ∈ pagesOf p o) (hv : v ∈ x.live .vma) : (x.store q j word).Shows v a va where
  low := hs.low
  high := hs.high
  covers := hs.covers
  entry := by
    rw [store_entry h hb hq hv (position_lt 2 va)]
    exact hs.entry
  valid := hs.valid

end VmState

open VmState

/-- A copied address space has the same bytes as its source just when the areas of the source that
may be written hold nothing but zeros. -/
theorem vma_dup_contents_iff (x : VmState A) (h : (vmStoreRuns A).Reachable x) (u : ℕ)
    (hu : u ∈ x.live .vma) (v : ℕ) (x' : VmState A) (hret : x.vmaDup u = .ok (v, x'))
    (hv : v ≠ 0) :
    (∀ b ∈ x.list u, (x.areas b).vmarTyp = .memory → ∀ va, x.Shows u b va →
      x'.readByte v va = x.readByte u va) ↔
    ∀ b ∈ x.list u, (x.areas b).Writable → ∀ va, x.Shows u b va → x.readByte u va = some 0 := by
  have hinv := inv_store_reachable h
  have hd := (vmaDup_copies hinv ⟨trivial, .inr hu⟩ hret).1 hv
  have hinv' := inv_vmaDup hinv ⟨trivial, .inr hu⟩ hret
  constructor
  · intro hall b hb hw va hs
    rw [← hall b hb hw.1 va hs]
    exact (hd.readByte hinv.vm hinv'.vm hu hb hw.1 hs).1 hw
  · intro hall b hb ht va hs
    obtain ⟨hown, hshared⟩ := hd.readByte hinv.vm hinv'.vm hu hb ht hs
    by_cases hw : (x.areas b).Writable
    · rw [hown hw, hall b hb hw va hs]
    · exact hshared hw

/-! ### A word that is not copied -/

/-- The first address of that page shows it. -/
theorem vmMachine_page_shows {s x : VmState vmMachine} {r a : ℕ} {v : ℕ}
    (ha : s.Added x v a (memoryArea vmMachineLayout vmMachineLayout.vaEnd r 0 7)) :
    x.Shows v a vmMachineLayout.vaEnd := by
  have hcov := vmMachine_page_covers r
  have hvalid : PteValid ((x.areas a).pte (position 2 vmMachineLayout.vaEnd)) := by
    rw [ha.made]
    exact pteValid_pa2PTE.2 (show 7 % 2 = 1 from rfl)
  refine ⟨?_, ?_, ?_, ?_, hvalid⟩
  · rw [ha.made]
    exact le_rfl
  · rw [ha.made]
    exact Nat.lt_add_of_pos_right (show 0 < 4096 by decide)
  · rw [ha.made]
    exact hcov
  · rw [ha.entry_valid (position_lt 2 _) hvalid]
    refine .inr ⟨hcov, ?_⟩
    rw [ha.made]
    rfl

/-- A page of memory of the kernel with a word in it, in a state that `vma_dup` can copy. -/
theorem vmMachine_word (word : ℕ) (hword : word < 2 ^ 64) :
    ∃ (y x' : VmState vmMachine) (p a v : ℕ),
    (vmStoreRuns vmMachine).Reachable y ∧ y.Inv ∧ y.kernVma ∈ y.live .vma ∧
    a ∈ y.list y.kernVma ∧ (y.areas a).Writable ∧ y.Shows y.kernVma a vmMachineLayout.vaEnd ∧
    y.mem.BacksAreas p 0 ∧ (y.areas a).pa = vmMachineLayout.pg2pa p ∧
    (y.areas a).size = 2 ^ 0 * pageSize ∧ y.mem.words p 0 = word ∧
    y.vmaDup y.kernVma = .ok (v, x') ∧ v ≠ 0 := by
  obtain ⟨s, x, text, data, r, a, hs, hb, hx, ha, hreach, hn⟩ := vmMachine_mmap
  have hk := hb.vm.kern_live
  have hinv := inv_reachable hreach
  have hkern : x.kernVma = s.kernVma := ha.frame.kernVma
  have hkx : s.kernVma ∈ x.live .vma := by
    rw [ha.frame.liveVma]
    exact hk
  have hal : a ∈ x.list s.kernVma := ha.mem_list.2 (.inl rfl)
  have hw : (x.areas a).Writable := by
    rw [ha.made]
    exact ⟨rfl, show 7 &&& protW ≠ 0 by decide⟩
  obtain ⟨p, o, hp, hback, hpa, hsize⟩ := (hinv.vm.list_ok hkx hal).backed hw.1
  have hsize' : (x.areas a).size = 2 ^ 0 * pageSize := by
    rw [ha.made]
    rfl
  have ho : o = 0 :=
    Nat.pow_right_injective le_rfl
      (Nat.eq_of_mul_eq_mul_right (by decide) (hsize.symm.trans hsize'))
  rw [ho] at hback
  have hq : p ∈ pagesOf p 0 := self_mem_pagesOf p 0
  have hreach' : (vmStoreRuns vmMachine).Reachable (x.store p 0 word) := by
    have hcall : (vmStoreRuns vmMachine).step s
        (.call (.vmMmap s.kernVma vmMachineLayout.vaEnd 0 7)) x :=
      ⟨⟨show _ < _ by decide, .inr hk⟩, 0, hx⟩
    have hstore : (vmStoreRuns vmMachine).step x (.store p 0 word) (x.store p 0 word) :=
      ⟨⟨p, 0, hback, hq⟩, by decide, hword, rfl⟩
    exact .step (.step (.of_init hs) hcall) hstore
  have hinv' := inv_store_reachable hreach'
  obtain ⟨v, x', hdup, hv, -⟩ := vmMachine_dup hb ha hinv'.vm rfl rfl rfl hn
  refine ⟨x.store p 0 word, x', p, a, v, hreach', hinv', ?_, ?_, hw, ?_,
    ⟨hback.type, hback.block, hback.order, hback.head⟩, hpa, hsize', ?_, ?_, hv⟩
  · show x.kernVma ∈ x.live .vma
    rwa [hkern]
  · show a ∈ x.list x.kernVma
    rwa [hkern]
  · show (x.store p 0 word).Shows x.kernVma a _
    rw [hkern]
    exact (vmMachine_page_shows ha).store hinv hback hq hkx
  · show Function.update x.mem.words p _ p 0 = word
    rw [Function.update_self, Function.update_self]
  · show (x.store p 0 word).vmaDup x.kernVma = _
    rw [hkern]
    exact hdup

/-- A page of zeros is copied. -/
theorem vma_dup_contents_zero : ∃ (y x' : VmState vmMachine) (v : ℕ),
    (vmStoreRuns vmMachine).Reachable y ∧ y.vmaDup y.kernVma = .ok (v, x') ∧ v ≠ 0 ∧
    ((∀ b ∈ y.list y.kernVma, (y.areas b).vmarTyp = .memory → ∀ va, y.Shows y.kernVma b va →
        x'.readByte v va = y.readByte y.kernVma va) ↔
      ∀ b ∈ y.list y.kernVma, (y.areas b).Writable → ∀ va, y.Shows y.kernVma b va →
        y.readByte y.kernVma va = some 0) := by
  obtain ⟨y, x', p, a, v, hy, -, hk, -, -, -, -, -, -, -, hdup, hv⟩ :=
    vmMachine_word 0 (by norm_num)
  exact ⟨y, x', v, hy, hdup, hv, vma_dup_contents_iff y hy y.kernVma hk v x' hdup hv⟩

/-- A one in a page of the kernel is a zero in the copy. -/
theorem not_vma_dup_contents : ∃ (y x' : VmState vmMachine) (v a va : ℕ),
    (vmStoreRuns vmMachine).Reachable y ∧ y.vmaDup y.kernVma = .ok (v, x') ∧ v ≠ 0 ∧
    a ∈ y.list y.kernVma ∧ (y.areas a).vmarTyp = .memory ∧ y.Shows y.kernVma a va ∧
    y.readByte y.kernVma va = some 1 ∧ x'.readByte v va = some 0 := by
  obtain ⟨y, x', p, a, v, hy, hinv, hk, hal, hw, hshow, hback, hpa, hsize, hword, hdup, hv⟩ :=
    vmMachine_word 1 (by norm_num)
  have hvalid : (VmCall.vmaDup y.kernVma).Valid y := ⟨trivial, .inr hk⟩
  have hd := (vmaDup_copies hinv hvalid hdup).1 hv
  have hinv' := inv_vmaDup hinv hvalid hdup
  refine ⟨y, x', v, a, _, hy, hdup, hv, hal, hw.1, hshow, ?_,
    (hd.readByte hinv.vm hinv'.vm hk hal hw.1 hshow).1 hw⟩
  obtain ⟨q, hq, -, -, hread⟩ := hshow.readByte rfl hback hpa hsize
  have hqp : q = p := by
    rw [mem_pagesOf] at hq
    omega
  rw [hread, hqp, show vmMachineLayout.vaEnd % pageSize / 8 = 0 by decide, hword]
  rfl

end AcoOs
