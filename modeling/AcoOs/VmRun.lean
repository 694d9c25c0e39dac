/-
Runs of the calls of `mm/vm.h`.

A run starts in the state that `vm_module_init` leaves, and every argument is one the types
of the call allow; a `vma_t*` is `NULL` or an address space that is live.  `Effect` says
what a call that returns has done, and `Inv` is what every run keeps, whatever the
arguments are.
-/
import AcoOs.VmBoot

namespace AcoOs

open Memory

variable {L : VmLayout} {A : VmEnv L}

/-- A call with its arguments. -/
inductive VmCall
  | vmaAlloc
  | vmaDup (vma : ℕ)
  | vmaFree (vma : ℕ)
  | vmIomap (vma va pa prot size : ℕ)
  | vmIounmap (vma va size : ℕ)
  | vmMmap (vma va : ℕ) (order : ℤ) (prot : ℕ)
  | vmUnmap (vma va : ℕ) (order : ℤ)
  deriving DecidableEq, Repr

namespace VmCall

/-- The address space a call is about. -/
def vma : VmCall → ℕ
  | vmaAlloc => 0
  | vmaDup v => v
  | vmaFree v => v
  | vmIomap v _ _ _ _ => v
  | vmIounmap v _ _ => v
  | vmMmap v _ _ _ => v
  | vmUnmap v _ _ => v

/-- The addresses and the size have 64 bits. -/
def Words : VmCall → Prop
  | vmaAlloc => True
  | vmaDup _ => True
  | vmaFree _ => True
  | vmIomap _ va pa _ size => va < 2 ^ 64 ∧ pa < 2 ^ 64 ∧ size < 2 ^ 64
  | vmIounmap _ va size => va < 2 ^ 64 ∧ size < 2 ^ 64
  | vmMmap _ va _ _ => va < 2 ^ 64
  | vmUnmap _ va _ => va < 2 ^ 64

/-- What a call may be given in a state. -/
structure Valid (x : VmState A) (call : VmCall) : Prop where
  words : call.Words
  vma : call.vma = 0 ∨ call.vma ∈ x.live .vma

end VmCall

namespace VmState

/-- The result of a call and the state after it; a `void` call returns 0. -/
def exec (x : VmState A) : VmCall → Except VmAssert (ℤ × VmState A)
  | .vmaAlloc => x.vmaAlloc.map fun (ret, x) => ((ret : ℤ), x)
  | .vmaDup v => (x.vmaDup v).map fun (ret, x) => ((ret : ℤ), x)
  | .vmaFree v => (x.vmaFree v).map fun x => (0, x)
  | .vmIomap v va pa prot size => x.vmIomap v va pa prot size
  | .vmIounmap v va size => x.vmIounmap v va size
  | .vmMmap v va order prot => x.vmMmap v va order prot
  | .vmUnmap v va order => x.vmUnmap v va order

end VmState

/-- The runs of calls, from the state after `vm_module_init`. -/
def vmRuns (A : VmEnv L) : Machine.System (VmState A) VmCall where
  init s := ∃ (x : VmState A) (pgtable : ℕ), x.Boot pgtable ∧ x.vmModuleInit pgtable = .ok (0, s)
  step s call s' := call.Valid s ∧ ∃ ret, s.exec call = .ok (ret, s')

namespace VmState

variable {x x' y z s : VmState A} {v w u a : ℕ} {area : VmaArea}

/-- The area `vm_iomap` asks for. -/
def ioArea (va pa prot size : ℕ) : VmaArea := ⟨.io, va, pageUpperAlign size, pa, none, prot⟩

/-- The area a call asks for, and the address space it is for. -/
def Asks (x : VmState A) (v : ℕ) (area : VmaArea) : VmCall → Prop
  | .vmIomap vma va pa prot size => v = vma ∧ area = ioArea va pa prot size
  | .vmMmap vma va order prot => v = vma ∧ ∃ p, (x.bkpAllocZero order).1 = some p ∧
      area = memoryArea L va p order.toNat prot
  | _ => False

/-- What every run keeps. -/
structure Inv (x : VmState A) : Prop where
  vm : x.VmInv
  referenced : x.Referenced
  kernel : ∀ v ∈ x.live .vma, x.KernelMapped v

/-- What a call that returns has done. -/
inductive Effect (x : VmState A) (call : VmCall) : VmState A → Prop
  | same : Effect x call x
  | refused {x' : VmState A} {v : ℕ} (hv : v ∈ x.live .vma) (h : x.Refused x' v) :
      Effect x call x'
  | added {x' : VmState A} {v a : ℕ} {area : VmaArea} (hv : v ∈ x.live .vma)
      (hask : x.Asks v area call) (h : x.Added x' v a area) : Effect x call x'
  | removed {x' : VmState A} {v a : ℕ} (hv : v ∈ x.live .vma) (ha : a ∈ x.list v)
      (ht : (x.areas a).vmarTyp ≠ .kernel) (h : x.Removed x' v a) : Effect x call x'
  | released {x' : VmState A} {v : ℕ} (hv : v ∈ x.live .vma) (hne : v ≠ x.kernVma)
      (h : x.Released x' v) (hcall : call = .vmaFree v) : Effect x call x'
  | undone {s y x' : VmState A} {u v pg : ℕ} (hu : u ∈ x.live .vma) (ho : x.Opened s v pg)
      (hd : Dups v s (x.list u) false y) (hr : y.Released x' v) : Effect x call x'
  | done {s x' : VmState A} {u v pg : ℕ} (hu : u ∈ x.live .vma) (ho : x.Opened s v pg)
      (hd : Dups v s (x.list u) true x') : Effect x call x'

/-! ### `vm_iomap` and `vm_iounmap` -/

theorem pageUpperAlign_aligned (n : ℕ) : pageUpperAlign n % pageSize = 0 := Nat.mul_mod_left _ _

theorem pageUpperAlign_lt (n : ℕ) : pageUpperAlign n < 2 ^ 64 := by
  unfold pageUpperAlign
  have : (n + (pageSize - 1)) % 2 ^ 64 < 2 ^ 64 := Nat.mod_lt _ (by norm_num)
  exact lt_of_le_of_lt (Nat.div_mul_le_self _ _) this

/-- The tests of `vm_iomap`. -/
def IomapAccepts (L : VmLayout) (vma va pa size : ℕ) : Prop :=
  (L.vaEnd ≤ va ∨ (va + size) % 2 ^ 64 ≤ L.vaStart) ∧
  (L.paEnd ≤ pa ∨ (pa + size) % 2 ^ 64 ≤ L.paStart) ∧ vma ≠ 0 ∧
  va % pageSize = pa % pageSize ∧ size ≠ 0 ∧ va % pageSize = 0

theorem vmIomap_eq (x : VmState A) (v va pa prot size : ℕ) :
    (¬ IomapAccepts L v va pa size ∧ ∃ ret < 0, x.vmIomap v va pa prot size = .ok (ret, x)) ∨
    IomapAccepts L v va pa size ∧ x.vmIomap v va pa prot size =
      x.vmMmapInternal v va pa prot (pageUpperAlign size) .io true := by
  unfold vmIomap
  by_cases h1 : L.vaEnd ≤ va ∨ (va + size) % 2 ^ 64 ≤ L.vaStart
  swap
  · rw [if_pos h1]
    exact .inl ⟨fun h => h1 h.1, _, by decide, rfl⟩
  rw [if_neg (not_not.2 h1)]
  by_cases h2 : L.paEnd ≤ pa ∨ (pa + size) % 2 ^ 64 ≤ L.paStart
  swap
  · rw [if_pos h2]
    exact .inl ⟨fun h => h2 h.2.1, _, by decide, rfl⟩
  rw [if_neg (not_not.2 h2)]
  by_cases h3 : v = 0
  · rw [if_pos h3]
    exact .inl ⟨fun h => h.2.2.1 h3, _, by decide, rfl⟩
  rw [if_neg h3]
  by_cases h4 : va % pageSize = pa % pageSize ∧ size ≠ 0
  swap
  · rw [if_pos (by tauto)]
    exact .inl ⟨fun h => h4 ⟨h.2.2.2.1, h.2.2.2.2.1⟩, _, by decide, rfl⟩
  rw [if_neg (by tauto)]
  by_cases h5 : va % pageSize = 0
  swap
  · rw [if_pos h5]
    exact .inl ⟨fun h => h5 h.2.2.2.2.2, _, by decide, rfl⟩
  rw [if_neg (not_not.2 h5)]
  exact .inr ⟨⟨h1, h2, h3, h4.1, h4.2, h5⟩, rfl⟩

/-- The request of `vm_iomap`, unless the size became 0 when it was rounded up. -/
theorem ioArea_request {va pa size : ℕ} (hacc : IomapAccepts L v va pa size)
    (hva : va < 2 ^ 64) (hpa : pa < 2 ^ 64) (hpos : 0 < pageUpperAlign size) (prot : ℕ) :
    x.Request (ioArea va pa prot size) where
  va_aligned := hacc.2.2.2.2.2
  pa_aligned := hacc.2.2.2.1.symm.trans hacc.2.2.2.2.2
  size_aligned := pageUpperAlign_aligned size
  size_pos := hpos
  va_lt := hva
  pa_lt := hpa
  size_lt := pageUpperAlign_lt size
  pgfm := rfl
  backed h := (nomatch h)
  kernel h := (nomatch h)

/-- How a call that maps an area into `v` can end: an `ASSERT` that is not about blocks fails,
or an error is returned and nothing changed, or the area is there. -/
inductive MapEnd (x : VmState A) (v : ℕ) (area : VmaArea) : Except VmAssert (ℤ × VmState A) → Prop
  | stopped {e : VmAssert} (hne : e ≠ .block) (hex : e = .eexist → x.Collides v area) :
      MapEnd x v area (.error e)
  | refused {ret : ℤ} {x' : VmState A} (hret : ret < 0) (h : x.Refused x' v) :
      MapEnd x v area (.ok (ret, x'))
  | added {x' : VmState A} {a : ℕ} (h : x.Added x' v a area) : MapEnd x v area (.ok (0, x'))

theorem vmIomap_end (h : x.Inv) (hv : v ∈ x.live .vma) {va pa prot size : ℕ}
    (hacc : IomapAccepts L v va pa size) (hva : va < 2 ^ 64) (hpa : pa < 2 ^ 64) :
    x.MapEnd v (ioArea va pa prot size) (x.vmIomap v va pa prot size) := by
  rcases vmIomap_eq x v va pa prot size with ⟨hn, -⟩ | ⟨-, heq⟩
  · exact absurd hacc hn
  rw [heq]
  rcases Nat.eq_zero_or_pos (pageUpperAlign size) with h0 | hpos
  · unfold vmMmapInternal
    rw [if_neg fun hc => absurd hc.2.1 (by omega)]
    exact .stopped (by decide) fun he => (nomatch he)
  · have hr := ioArea_request (x := x) hacc hva hpa hpos prot
    rcases vmMmapInternal_cases h.vm hv hr with ⟨e, he, hst⟩ | ⟨ret, x', he, hwhy, href⟩ |
      ⟨a, x', he, -, hway, hm⟩
    · rw [show x.vmMmapInternal v va pa prot (pageUpperAlign size) .io true = _ from he]
      exact .stopped hst.ne_block hst.collides
    · rw [show x.vmMmapInternal v va pa prot (pageUpperAlign size) .io true = _ from he]
      refine .refused ?_ href
      rcases hwhy with ⟨rfl, -⟩ | ⟨-, ⟨rfl, -⟩ | ⟨rfl, -⟩⟩ <;> decide
    · rw [show x.vmMmapInternal v va pa prot (pageUpperAlign size) .io true = _ from he]
      exact .added (hm.added h.vm hv hr hway fun _ w hc => (h.kernel v hv).outside hm hc)

/-! ### `vm_mmap` -/

/-- The tests of `vm_mmap`. -/
def MmapAccepts (L : VmLayout) (vma va : ℕ) (order : ℤ) : Prop :=
  vma ≠ 0 ∧ va % pageSize = 0 ∧ 0 ≤ order ∧ order < L.maxOrder

theorem vmMmap_refuses {va prot : ℕ} {order : ℤ} (hn : ¬ MmapAccepts L v va order) :
    x.vmMmap v va order prot = .ok (-efault, x) := by
  unfold vmMmap
  rw [if_pos]
  by_contra hc
  rw [not_or, not_or, not_not, not_not] at hc
  exact hn ⟨hc.1, hc.2.1, hc.2.2⟩

theorem vmMmap_end (h : x.Inv) (hv : v ∈ x.live .vma) {va : ℕ} {order : ℤ}
    (hacc : MmapAccepts L v va order) (hlt : va < 2 ^ 64) (prot : ℕ) :
    (∃ x', (x.bkpAllocZero order).1 = none ∧ x.vmMmap v va order prot = .ok (-enomem, x') ∧
      x.Refused x' v) ∨
    ∃ p, (x.bkpAllocZero order).1 = some p ∧
      x.MapEnd v (memoryArea L va p order.toNat prot) (x.vmMmap v va order prot) := by
  obtain ⟨-, hva, horder⟩ := hacc
  rcases vmMmap_cases h.vm hv hva hlt horder prot with h1 | ⟨p, z, hp, hc, hr, hend⟩
  · exact .inl h1
  refine .inr ⟨p, hp, ?_⟩
  rcases hend with ⟨e, he, hst⟩ | ⟨ret, x', he, hwhy, href, -⟩ | ⟨a, x', he, hway, hm⟩
  · rw [he]
    exact .stopped hst.ne_block hst.collides
  · rw [he]
    refine .refused ?_ href
    rcases hwhy with ⟨rfl, -⟩ | ⟨rfl, -⟩ | ⟨rfl, -⟩ <;> decide
  · rw [he]
    refine .added (hc.added h.vm hv hr hm rfl rfl hway fun w hcov => ?_)
    exact ((h.kernel v hv).sameSpace (hc.sameSpace h.vm.spaces hv)).outside hm hcov

/-! ### `vm_iounmap` and `vm_unmap` -/

/-- How a call that removes an area from `v` can end: an `ASSERT` in a callee or on the size
fails, or an error is returned and nothing happened, or the area is gone. -/
inductive UnmapEnd (x : VmState A) (v : ℕ) : Except VmAssert (ℤ × VmState A) → Prop
  | stopped {e : VmAssert} (hne : e = .argument ∨ e = .callee) : UnmapEnd x v (.error e)
  | refused {ret : ℤ} (hret : ret < 0) : UnmapEnd x v (.ok (ret, x))
  | removed {x' : VmState A} {a : ℕ} (ha : a ∈ x.list v) (ht : (x.areas a).vmarTyp ≠ .kernel)
      (hr : x.Removed x' v a) : UnmapEnd x v (.ok (0, x'))

theorem vmUnmapInternal_end (h : x.VmInv) (hv : v ∈ x.live .vma) {va size : ℕ} {typ : VmarType}
    (hva : va % pageSize = 0) (hsize : size % pageSize = 0) (ht : typ ≠ .kernel) :
    x.UnmapEnd v (x.vmUnmapInternal v va size typ) := by
  rcases Nat.eq_zero_or_pos size with h0 | hpos
  · unfold vmUnmapInternal
    rw [if_neg fun hc => absurd hc.2.1 (by omega)]
    exact .stopped (.inl rfl)
  rcases vmUnmapInternal_cases h hv hva hsize hpos ht with ⟨-, he⟩ |
    ⟨a, ha, -, -, -, ⟨-, he⟩ | ⟨hty, ⟨he, -⟩ | ⟨x', he, hr⟩⟩⟩
  · rw [he]
    exact .refused (by decide)
  · rw [he]
    exact .refused (by decide)
  · rw [he]
    exact .stopped (.inr rfl)
  · rw [he]
    exact .removed ha (by rw [hty]; exact ht) hr

theorem vmIounmap_null (hv : v = 0) (va size : ℕ) :
    ∃ ret < 0, x.vmIounmap v va size = .ok (ret, x) := by
  unfold vmIounmap
  by_cases h1 : L.vaEnd ≤ va ∨ (va + size) % 2 ^ 64 ≤ L.vaStart
  · rw [if_neg (not_not.2 h1), if_pos hv]
    exact ⟨_, by decide, rfl⟩
  · rw [if_pos h1]
    exact ⟨_, by decide, rfl⟩

theorem vmIounmap_end (h : x.VmInv) (hv : v ∈ x.live .vma) (va size : ℕ) :
    x.UnmapEnd v (x.vmIounmap v va size) := by
  unfold vmIounmap
  by_cases h1 : L.vaEnd ≤ va ∨ (va + size) % 2 ^ 64 ≤ L.vaStart
  swap
  · rw [if_pos h1]
    exact .refused (by decide)
  rw [if_neg (not_not.2 h1), if_neg (h.ne_zero hv)]
  by_cases h2 : va % pageSize = 0
  swap
  · rw [if_pos h2]
    exact .refused (by decide)
  rw [if_neg (not_not.2 h2)]
  exact vmUnmapInternal_end h hv h2 (pageUpperAlign_aligned size) (by decide)

theorem vmUnmap_end (h : x.VmInv) (hv : v ∈ x.live .vma) (va : ℕ) (order : ℤ) :
    x.UnmapEnd v (x.vmUnmap v va order) := by
  unfold vmUnmap
  split_ifs with h1
  · exact .refused (by decide)
  · rw [not_or, not_or, not_not] at h1
    exact vmUnmapInternal_end h hv h1.2.1 (Nat.mul_mod_left _ _) (by decide)

/-! ### The kernel in a new address space -/

/-- Areas and valid entries that were copied stay while the rest is copied. -/
theorem Dups.keeps {l : List ℕ} {ok : Bool} (hd : Dups v x l ok x') (h : x.VmInv)
    (hv : v ∈ x.live .vma) : (∀ c ∈ x.list v, c ∈ x'.list v ∧ x'.areas c = x.areas c) ∧
    ∀ w < tableSpan, ∀ e, PteValid e → x.entry v w = some e → x'.entry v w = some e := by
  induction hd with
  | nil => exact ⟨fun c hc => ⟨hc, rfl⟩, fun _ _ _ _ he => he⟩
  | refused hr =>
    have hs := hr.sameSpace h hv
    exact ⟨fun c hc => ⟨by rw [hs.list]; exact hc, hs.areas c hc⟩,
      fun w hw e he hent => (hs.entries w hw e he).2 hent⟩
  | copied _ ha _ _ ih =>
    obtain ⟨h1, h2⟩ := ih ha.inv (by rw [ha.frame.liveVma]; exact hv)
    refine ⟨fun c hc => ?_, fun w hw e he hent => ?_⟩
    · obtain ⟨h3, h4⟩ := h1 c (ha.mem_list.2 (.inr hc))
      exact ⟨h3, h4.trans (ha.areas_live (h.mem_live hv hc))⟩
    · exact h2 w hw e he ((ha.entry_valid hw he).2 (.inl hent))

/-- An area of the kernel that was copied is in the list and in the page table. -/
theorem Dups.kernel {l : List ℕ} {ok : Bool} (hd : Dups v x l ok x') (hok : ok = true)
    (h : x.VmInv) (hv : v ∈ x.live .vma) {b : ℕ} (hl : ∀ b ∈ l, b ∈ x.live .vmaArea) (hb : b ∈ l)
    (ht : (x.areas b).vmarTyp = .kernel) : ∃ c ∈ x'.list v, x'.areas c = x.areas b ∧
      ∀ w < tableSpan, (x.areas b).Covers w → PteValid ((x.areas b).pte w) →
        x'.entry v w = some ((x.areas b).pte w) := by
  induction hd with
  | nil => cases hb
  | refused => cases hok
  | @copied x y x' a b' l ok area hc ha _ hd ih =>
    have hvy : v ∈ y.live .vma := by rw [ha.frame.liveVma]; exact hv
    rcases List.mem_cons.1 hb with rfl | hb
    · obtain ⟨h1, h2⟩ := hd.keeps ha.inv hvy
      have hsame : area = x.areas b := hc.shared (by rw [ht]; decide)
      obtain ⟨h3, h4⟩ := h1 a (ha.mem_list.2 (.inl rfl))
      have hnone : (y.areas a).pgfm = none := by
        refine (ha.inv.list_ok hvy (ha.mem_list.2 (.inl rfl))).unbacked ?_
        rw [ha.made, hc.vmarTyp, ht]
        decide
      have hpg : (x.areas b).pgfm = none :=
        (h.areaOk b (hl b List.mem_cons_self)).unbacked (by rw [ht]; decide)
      refine ⟨a, h3, ?_, fun w hw hcov hvalid => ?_⟩
      · rw [h4, ha.made, hnone, hsame, ← hpg]
      · rw [← hsame] at hcov hvalid ⊢
        exact h2 w hw _ hvalid (ha.wrote w hw hcov).2
    · have hbl := hl b (List.mem_cons_of_mem b' hb)
      have hby := ha.areas_live hbl
      have := ih hok ha.inv hvy (fun c hc' => ha.grown.live (hl c (List.mem_cons_of_mem b' hc')))
        hb (by rw [hby]; exact ht)
      rwa [hby] at this

theorem Dups.kernelMapped {l : List ℕ} (hd : Dups v x l true x') (h : x.VmInv)
    (hv : v ∈ x.live .vma) (hu : u ∈ x.live .vma) (hl : x.list u = l) (hk : x.KernelMapped u) :
    x'.KernelMapped v := by
  have hlive : ∀ b ∈ l, b ∈ x.live .vmaArea := by
    intro b hb
    rw [← hl] at hb
    exact h.mem_live hu hb
  obtain ⟨a, ha, hat⟩ := hk.text
  obtain ⟨b, hb, hbt⟩ := hk.data
  rw [hl] at ha hb
  obtain ⟨a', ha', haa, hent⟩ := hd.kernel rfl h hv hlive ha (by rw [hat]; rfl)
  obtain ⟨b', hb', hbb, hent'⟩ := hd.kernel rfl h hv hlive hb (by rw [hbt]; rfl)
  rw [hat] at haa hent
  rw [hbt] at hbb hent'
  refine ⟨⟨a', ha', haa⟩, ⟨b', hb', hbb⟩, fun w hw => ?_, fun w hw => ?_⟩
  · exact hent w (kernelPos_lt (kernelPos_iff.2 (.inl hw))) hw (kernelText_valid L w)
  · exact hent' w (kernelPos_lt (kernelPos_iff.2 (.inr hw))) hw (kernelData_valid L w)

/-! ### Every run keeps the invariant -/

theorem Released.sameSpace (hr : x.Released x' v) (h : x.VmInv) (hv : v ∈ x.live .vma)
    (hw : w ∈ x.live .vma) (hne : w ≠ v) : x.SameSpace x' w where
  list := by
    unfold list
    rw [hr.vmas w hne]
  areas a ha := hr.areas a fun hav => hne (h.owner w hw v hv a ha hav)
  entries := .of_eq fun u hu => hr.entry w hw hne u hu

theorem Booted.kernelMapped {text data : ℕ} (h : s.Booted text data) :
    s.KernelMapped s.kernVma := by
  refine ⟨⟨text, ?_, h.text⟩, ⟨data, ?_, h.data⟩, fun w hw => ?_, fun w hw => ?_⟩
  · rw [h.list]
    exact List.mem_cons_self
  · rw [h.list]
    exact List.mem_cons_of_mem _ List.mem_cons_self
  · exact (h.entries w (kernelPos_lt (kernelPos_iff.2 (.inl hw))) _ (kernelText_valid L w)).2
      (.inl ⟨hw, rfl⟩)
  · exact (h.entries w (kernelPos_lt (kernelPos_iff.2 (.inr hw))) _ (kernelData_valid L w)).2
      (.inr ⟨hw, rfl⟩)

theorem Booted.inv {text data : ℕ} (h : s.Booted text data) : s.Inv where
  vm := h.vm
  referenced := h.referenced
  kernel v hv := by
    rw [h.liveVma, Finset.mem_singleton] at hv
    rw [hv]
    exact h.kernelMapped

theorem Opened.live_iff {pg : ℕ} (ho : x.Opened s v pg) : w ∈ s.live .vma ↔
    w = v ∨ w ∈ x.live .vma := by
  rw [ho.live, Finset.mem_insert]

theorem Effect.inv {call : VmCall} (he : x.Effect call x') (h : x.Inv) : x'.Inv := by
  cases he with
  | same => exact h
  | refused hv hr =>
    refine ⟨hr.inv h.vm hv, hr.referenced h.referenced, fun w hw => ?_⟩
    rw [hr.frame.liveVma] at hw
    exact (h.kernel w hw).sameSpace (hr.sameSpace h.vm hw)
  | @added _ v a area hv _ ha =>
    refine ⟨ha.inv, ha.referenced h.referenced, fun w hw => ?_⟩
    rw [ha.frame.liveVma] at hw
    by_cases hwv : w = v
    · rw [hwv]
      exact (h.kernel v hv).added h.vm hv ha
    · exact (h.kernel w hw).sameSpace (ha.sameSpace h.vm hw hwv)
  | @removed _ v a hv ha ht hr =>
    refine ⟨hr.inv h.vm hv ha, hr.referenced h.vm hv ha h.referenced, fun w hw => ?_⟩
    rw [hr.frame.liveVma] at hw
    by_cases hwv : w = v
    · rw [hwv]
      exact (h.kernel v hv).removed h.vm hv ha ht hr
    · exact (h.kernel w hw).sameSpace (hr.sameSpace h.vm hv ha hw hwv)
  | @released _ v hv hne hr =>
    refine ⟨hr.inv, hr.referenced, fun w hw => ?_⟩
    rw [hr.live, Finset.mem_erase] at hw
    exact (h.kernel w hw.2).sameSpace (hr.sameSpace h.vm hv hw.2 hw.1)
  | @undone s y _ u v pg hu ho hd hr =>
    have hv : v ∈ s.live .vma := ho.live_iff.2 (.inl rfl)
    have hg := hd.grown ho.inv hv
    refine ⟨hr.inv, hr.referenced, fun w hw => ?_⟩
    rw [hr.live, Finset.mem_erase, hg.frame.liveVma, ho.live_iff] at hw
    have hwx : w ∈ x.live .vma := hw.2.resolve_left hw.1
    have hws : w ∈ s.live .vma := ho.live_iff.2 (.inr hwx)
    have hwy : w ∈ y.live .vma := by rw [hg.frame.liveVma]; exact hws
    have hvy : v ∈ y.live .vma := by rw [hg.frame.liveVma]; exact hv
    exact (((h.kernel w hwx).sameSpace (ho.sameSpace w hwx)).sameSpace
      (hg.sameSpace ho.inv hws hw.1)).sameSpace (hr.sameSpace hg.inv hvy hwy hw.1)
  | @done s _ u v pg hu ho hd =>
    have hv : v ∈ s.live .vma := ho.live_iff.2 (.inl rfl)
    have hg := hd.grown ho.inv hv
    have hus : u ∈ s.live .vma := ho.live_iff.2 (.inr hu)
    refine ⟨hg.inv, hg.referenced (ho.referenced h.referenced), fun w hw => ?_⟩
    rw [hg.frame.liveVma] at hw
    by_cases hwv : w = v
    · rw [hwv]
      exact hd.kernelMapped ho.inv hv hus (ho.sameSpace u hu).list
        ((h.kernel u hu).sameSpace (ho.sameSpace u hu))
    · have hwx := (ho.live_iff.1 hw).resolve_left hwv
      exact ((h.kernel w hwx).sameSpace (ho.sameSpace w hwx)).sameSpace
        (hg.sameSpace ho.inv hw hwv)

theorem MapEnd.effect {area : VmaArea} {r : Except VmAssert (ℤ × VmState A)} {call : VmCall}
    (he : x.MapEnd v area r) (hv : v ∈ x.live .vma) (hask : x.Asks v area call) :
    (∃ e, r = .error e ∧ e ≠ .block) ∨ ∃ ret x', r = .ok (ret, x') ∧ x.Effect call x' := by
  cases he with
  | stopped hne => exact .inl ⟨_, rfl, hne⟩
  | refused _ h => exact .inr ⟨_, _, rfl, .refused hv h⟩
  | added h => exact .inr ⟨_, _, rfl, .added hv hask h⟩

theorem UnmapEnd.effect {r : Except VmAssert (ℤ × VmState A)} {call : VmCall}
    (he : x.UnmapEnd v r) (hv : v ∈ x.live .vma) :
    (∃ e, r = .error e ∧ e ≠ .block) ∨ ∃ ret x', r = .ok (ret, x') ∧ x.Effect call x' := by
  cases he with
  | stopped hne =>
    refine .inl ⟨_, rfl, ?_⟩
    rcases hne with rfl | rfl <;> decide
  | refused => exact .inr ⟨_, _, rfl, .same⟩
  | removed ha ht hr => exact .inr ⟨_, _, rfl, .removed hv ha ht hr⟩

theorem vmaDup_effect {call : VmCall} (h : x.Inv) (hu : u = 0 ∨ u ∈ x.live .vma) :
    (∃ e, x.vmaDup u = .error e ∧ e ≠ .block) ∨
    ∃ ret x', x.vmaDup u = .ok (ret, x') ∧ x.Effect call x' := by
  rcases hu with rfl | hu
  · exact .inr ⟨0, x, if_pos (.inl rfl), .same⟩
  · have hend := vmaDup_end h.vm h.referenced hu
    generalize x.vmaDup u = r at hend
    cases hend with
    | stopped hne => exact .inl ⟨_, rfl, hne⟩
    | nothing hr => exact .inr ⟨_, _, rfl, .refused hu hr⟩
    | undone ho hd hr => exact .inr ⟨_, _, rfl, .undone hu ho hd hr⟩
    | done ho hd => exact .inr ⟨_, _, rfl, .done hu ho hd⟩

theorem vmaFree_effect (h : x.Inv) (hv : v = 0 ∨ v ∈ x.live .vma) :
    (∃ e, x.vmaFree v = .error e ∧ e ≠ .block) ∨
    ∃ x', x.vmaFree v = .ok x' ∧ x.Effect (.vmaFree v) x' := by
  rcases hv with rfl | hv
  · exact .inr ⟨x, if_pos rfl, .same⟩
  · by_cases hk : v = x.kernVma
    · refine .inr ⟨x, ?_, .same⟩
      unfold vmaFree
      rw [if_neg (h.vm.ne_zero hv), if_pos hk]
    · rcases vmaFree_cases h.vm h.referenced hv hk with
        ⟨he, -⟩ | ⟨x', he, hr⟩
      · exact .inl ⟨_, he, by decide⟩
      · exact .inr ⟨x', he, .released hv hk hr rfl⟩

/-- No call fails an `ASSERT` about a block, and a call that returns had one of the effects. -/
theorem exec_effect (h : x.Inv) {call : VmCall} (hc : call.Valid x) :
    (∃ e, x.exec call = .error e ∧ e ≠ .block) ∨
    ∃ ret x', x.exec call = .ok (ret, x') ∧ x.Effect call x' := by
  have hmap : ∀ {α : Type} {f : α × VmState A → ℤ × VmState A}
      (r : Except VmAssert (α × VmState A)),
      (∀ p, (f p).2 = p.2) →
      ((∃ e, r = .error e ∧ e ≠ .block) ∨ ∃ ret x', r = .ok (ret, x') ∧ x.Effect call x') →
      (∃ e, r.map f = .error e ∧ e ≠ .block) ∨
      ∃ ret x', r.map f = .ok (ret, x') ∧ x.Effect call x' := by
    rintro α f r hf (⟨e, rfl, hne⟩ | ⟨ret, x', rfl, he⟩)
    · exact .inl ⟨e, rfl, hne⟩
    · refine .inr ⟨(f (ret, x')).1, x', congrArg Except.ok (Prod.ext rfl (hf _)), he⟩
  obtain ⟨hwords, hvma⟩ := hc
  cases call with
  | vmaAlloc => exact hmap _ (fun _ => rfl) (vmaDup_effect h (.inr h.vm.kern_live))
  | vmaDup u => exact hmap _ (fun _ => rfl) (vmaDup_effect h hvma)
  | vmaFree v =>
    rcases vmaFree_effect h hvma with ⟨e, he, hne⟩ | ⟨x', he, heff⟩
    · exact .inl ⟨e, congrArg (Except.map _) he, hne⟩
    · exact .inr ⟨0, x', congrArg (Except.map _) he, heff⟩
  | vmIomap v va pa prot size =>
    rcases vmIomap_eq x v va pa prot size with ⟨-, ret, -, he⟩ | ⟨hacc, -⟩
    · exact .inr ⟨ret, x, he, .same⟩
    · have hv := hvma.resolve_left hacc.2.2.1
      exact (vmIomap_end h hv hacc hwords.1 hwords.2.1).effect hv ⟨rfl, rfl⟩
  | vmIounmap v va size =>
    rcases hvma with h0 | hv
    · obtain ⟨ret, -, he⟩ := vmIounmap_null (x := x) (show v = 0 from h0) va size
      exact .inr ⟨ret, x, he, .same⟩
    · exact (vmIounmap_end h.vm hv va size).effect hv
  | vmMmap v va order prot =>
    by_cases hacc : MmapAccepts L v va order
    · have hv := hvma.resolve_left hacc.1
      rcases vmMmap_end h hv hacc hwords prot with ⟨x', -, he, hr⟩ | ⟨p, hp, hend⟩
      · exact .inr ⟨_, x', he, .refused hv hr⟩
      · exact hend.effect hv ⟨rfl, p, hp, rfl⟩
    · exact .inr ⟨_, x, vmMmap_refuses hacc, .same⟩
  | vmUnmap v va order =>
    rcases hvma with h0 | hv
    · have h0 : v = 0 := h0
      exact .inr ⟨_, x, if_pos (.inl h0), .same⟩
    · exact (vmUnmap_end h.vm hv va order).effect hv

theorem inv_reachable (h : (vmRuns A).Reachable x) : x.Inv := by
  refine h.invariant ?_ ?_
  · rintro s ⟨x₀, pgtable, hboot, hinit⟩
    obtain ⟨text, data, hb⟩ := hboot.booted hinit
    exact hb.inv
  · rintro s call s' - hs ⟨hc, ret, heq⟩
    rcases exec_effect hs hc with ⟨e, he, -⟩ | ⟨ret', x', he, heff⟩
    · rw [heq] at he
      cases he
    · rw [heq] at he
      cases he
      exact heff.inv hs

end VmState

end AcoOs
