/-
Page tables of the boot code in memory that is not zero.

`freemem_alloc_pa` does not clear the page that it returns, and `vm_mmap` of the boot code takes it
for an empty table.

* **`stale_memory_iff`** — what `vm_mmap` makes of a request without a page table is the same for
  all contents of the free memory only if it takes no page;
* **`not_stale_memory`** — a root whose words are pages, and one whose words point to itself.
-/
import AcoOs.EarlyWalk

namespace AcoOs

/-! ### What the hardware reads -/

/-- The address and the permissions that the hardware finds for an address in a table with `d`
levels below it; `none` is a page fault. -/
def hwTranslate (words : ℕ → ℕ → ℕ) : ℕ → ℕ → ℕ → Option (ℕ × ℕ)
  | 0, pagetable, va =>
    let pte := words pagetable (sv39Index2Id va 2)
    if ¬ PteValid pte ∨ PteWriteable pte ∧ ¬ PteReadable pte ∨ PteNextpgt pte then none
    else some (sv39PTE2Pa pte + va % pageSize, pte &&& 0x3ff)
  | d + 1, pagetable, va =>
    let pte := words pagetable (sv39Index2Id va (1 - d))
    if ¬ PteValid pte ∨ PteWriteable pte ∧ ¬ PteReadable pte then none
    else if PteNextpgt pte then hwTranslate words d (sv39PTE2Pa pte) va
    else some (sv39PTE2Pa pte + va % (pageSize * 512 ^ (d + 1)), pte &&& 0x3ff)

namespace EarlyMemory

variable {x : EarlyMemory} {va pa size flags d t : ℕ}

/-- What a call of `vm_mmap` without a page table returns, with what the hardware then makes of an
address; without a root every access faults. -/
def bootMap (x : EarlyMemory) (va pa size flags : ℕ) : ℤ × (ℕ → Option (ℕ × ℕ)) :=
  let r := x.vmMmap 0 va pa size flags
  (r.1, fun a => if r.2.1 = 0 then none else hwTranslate r.2.2.words 2 r.2.1 a)

/-- The boot memory with other contents. -/
def withWords (x : EarlyMemory) (words : ℕ → ℕ → ℕ) : EarlyMemory := { x with words := words }

/-- Contents that are the same outside the free memory. -/
def SameUsed (x : EarlyMemory) (words words' : ℕ → ℕ → ℕ) : Prop :=
  ∀ p, ¬ x.Free p → words p = words' p

/-- The call does not depend on what is in the free memory. -/
def IgnoresStale (x : EarlyMemory) (va pa size flags : ℕ) : Prop :=
  ∀ words words', x.SameUsed words words' →
    (x.withWords words).bootMap va pa size flags = (x.withWords words').bootMap va pa size flags

/-- A call that takes no page. -/
def TakesNone (x : EarlyMemory) (va pa size : ℕ) : Prop :=
  va % pageSize ≠ pa % pageSize ∨ size % pageSize ≠ 0 ∨ x.sizeFree < pageSize

/-- A call that takes no page returns an error, and there is no root. -/
theorem TakesNone.bootMap (h : x.TakesNone va pa size) (words : ℕ → ℕ → ℕ) (flags : ℕ) :
    (x.withWords words).bootMap va pa size flags =
      (if va % pageSize ≠ pa % pageSize ∨ size % pageSize ≠ 0 then -einval else -enomem,
        fun _ => none) := by
  unfold EarlyMemory.bootMap vmMmap
  by_cases h1 : va % pageSize ≠ pa % pageSize
  · rw [if_pos h1, if_pos (.inl h1)]
    rfl
  by_cases h2 : size % pageSize ≠ 0
  · rw [if_neg h1, if_pos h2, if_pos (.inr h2)]
    rfl
  have hno : (x.withWords words).freememAllocPa = (0, { x.withWords words with refused := true }) :=
    if_pos (h.resolve_left h1 |>.resolve_left h2)
  rw [if_neg h1, if_neg h2, if_pos rfl, hno, if_neg (not_or.2 ⟨h1, h2⟩)]
  rfl

/-- All words of the first free page have the same contents. -/
def fillRoot (x : EarlyMemory) (pte : ℕ) : ℕ → ℕ → ℕ :=
  fun p i => if p = x.paStFree then pte else x.words p i

theorem fillRoot_root (x : EarlyMemory) (pte i : ℕ) : x.fillRoot pte x.paStFree i = pte :=
  if_pos rfl

/-- A call that takes a page for the root goes on in it. -/
theorem bootMap_eq (h : ¬ x.TakesNone va pa size) (hpos : 0 < x.paStFree) (words : ℕ → ℕ → ℕ)
    (flags : ℕ) : ∃ y : EarlyMemory, y.words = words ∧
    (x.withWords words).bootMap va pa size flags =
      let r := vmMmapLoop flags x.paStFree (size / pageSize) y (va / pageSize * pageSize)
        (pa / pageSize * pageSize)
      (r.1, hwTranslate r.2.words 2 x.paStFree) := by
  obtain ⟨h1, h2, h3⟩ : ¬ va % pageSize ≠ pa % pageSize ∧ ¬ size % pageSize ≠ 0 ∧
      ¬ x.sizeFree < pageSize := by
    unfold TakesNone at h
    tauto
  set y : EarlyMemory := { x.withWords words with
    paStFree := (x.paStFree + pageSize) % 2 ^ 64
    sizeFree := x.sizeFree - pageSize } with hy
  have halloc : (x.withWords words).freememAllocPa = (x.paStFree, y) := if_neg h3
  refine ⟨y, rfl, ?_⟩
  unfold bootMap vmMmap
  rw [if_neg h1, if_neg h2, if_pos rfl, halloc]
  dsimp only
  rw [if_neg hpos.ne']
  exact Prod.ext rfl (funext fun a => if_neg hpos.ne')

/-- In a root of pages a walk finds one on the first level. -/
theorem walk_page (hx : ∀ i, x.words t i = vmProtV ||| vmProtR) (ht : t ≠ 0 ∧ t % pageSize = 0)
    (hva : va % pageSize = 0) (hpa : pa % pageSize = 0) (flags : ℕ) :
    vmWalkthrough flags 2 x t va pa = (-efault, x) := by
  rw [vmWalkthrough, if_neg (not_not.2 ⟨ht, hva, hpa⟩), hx, if_neg (not_not.2 (by decide)),
    if_pos (by decide)]

/-- In a root that points to itself a walk comes to the last level, and finds a valid entry. -/
theorem walk_self (hx : ∀ i, x.words t i = sv39Pa2PTE t vmProtV) (ht : t ≠ 0 ∧ t % pageSize = 0)
    (hlt : t < 2 ^ 56) (hva : va % pageSize = 0) (hpa : pa % pageSize = 0) (flags d : ℕ) :
    vmWalkthrough flags d x t va pa = (-eexist, x) := by
  have hptr := pteNextpgt_pa2PTE t
  induction d with
  | zero => rw [vmWalkthrough, if_neg (not_not.2 ⟨ht, hva, hpa⟩), hx, if_neg (not_not.2 hptr.1)]
  | succ d ih =>
    rw [vmWalkthrough, if_neg (not_not.2 ⟨ht, hva, hpa⟩), hx, if_neg (not_not.2 hptr.1),
      if_neg (not_not.2 hptr), sv39PTE2Pa_pa2PTE hlt ht.2, ih]

theorem loop_of_walk {ret : ℤ} {n : ℕ} (hret : ret ≠ 0)
    (h : vmWalkthrough flags 2 x t va pa = (ret, x)) :
    vmMmapLoop flags t (n + 1) x va pa = (ret, x) := by
  rw [vmMmapLoop, h]
  exact if_pos hret

/-- The hardware finds a page of 1 GiB in a root of pages. -/
theorem hwTranslate_page {words : ℕ → ℕ → ℕ} (h : ∀ i, words t i = vmProtV ||| vmProtR) :
    hwTranslate words 2 t 0 = some (0, 3) := by
  rw [hwTranslate, h]
  rfl

/-- A root that points to itself translates nothing. -/
theorem hwTranslate_self {words : ℕ → ℕ → ℕ} (h : ∀ i, words t i = sv39Pa2PTE t vmProtV)
    (ht : t % pageSize = 0) (hlt : t < 2 ^ 56) (d va : ℕ) : hwTranslate words d t va = none := by
  have hptr := pteNextpgt_pa2PTE t
  have hnot : ¬ (¬ PteValid (sv39Pa2PTE t vmProtV) ∨
      PteWriteable (sv39Pa2PTE t vmProtV) ∧ ¬ PteReadable (sv39Pa2PTE t vmProtV)) := by
    rintro (hv | ⟨hw, -⟩)
    · exact hv hptr.1
    · exact hptr.2.1 hw
  induction d with
  | zero =>
    rw [hwTranslate, h]
    exact if_pos (.inr (.inr hptr))
  | succ d ih =>
    rw [hwTranslate, h, if_neg hnot, if_pos hptr, sv39PTE2Pa_pa2PTE hlt ht, ih]

/-- Whatever the layout and the request: the call is the same for all contents of the free memory
if and only if it takes no page. -/
theorem stale_memory_iff (x : EarlyMemory) (va pa size flags : ℕ)
    (haligned : x.paStFree % pageSize = 0) (hpos : 0 < x.paStFree)
    (hend : x.paStFree + x.sizeFree ≤ 2 ^ 56) :
    x.IgnoresStale va pa size flags ↔ x.TakesNone va pa size := by
  constructor
  swap
  · intro h words words' _
    rw [h.bootMap, h.bootMap]
  intro h
  by_contra htakes
  have hfree : ¬ x.sizeFree < pageSize := fun hlt => htakes (.inr (.inr hlt))
  have hlt : x.paStFree < 2 ^ 56 := by
    simp only [pageSize, pageOffset] at hfree
    omega
  have hroot : x.paStFree ≠ 0 ∧ x.paStFree % pageSize = 0 := ⟨hpos.ne', haligned⟩
  -- the two contents differ in the first free page only
  have hsame := h (x.fillRoot (vmProtV ||| vmProtR)) (x.fillRoot (sv39Pa2PTE x.paStFree vmProtV))
    (by
      intro p hp
      funext i
      have hne : p ≠ x.paStFree := by
        rintro rfl
        exact hp ⟨haligned, le_rfl, by omega⟩
      unfold fillRoot
      rw [if_neg hne, if_neg hne])
  obtain ⟨y, hy, heq⟩ := bootMap_eq htakes hpos (x.fillRoot (vmProtV ||| vmProtR)) flags
  obtain ⟨z, hz, heq'⟩ := bootMap_eq htakes hpos (x.fillRoot (sv39Pa2PTE x.paStFree vmProtV)) flags
  have hpage : ∀ i, y.words x.paStFree i = vmProtV ||| vmProtR := by
    rw [hy]
    exact x.fillRoot_root _
  have hself : ∀ i, z.words x.paStFree i = sv39Pa2PTE x.paStFree vmProtV := by
    rw [hz]
    exact x.fillRoot_root _
  rw [heq, heq'] at hsame
  rcases hn : size / pageSize with _ | n
  · -- nothing is mapped, but the roots are not the same
    rw [hn] at hsame
    have htrans : hwTranslate y.words 2 x.paStFree 0 = hwTranslate z.words 2 x.paStFree 0 :=
      congrFun (congrArg Prod.snd hsame) 0
    rw [hwTranslate_page hpage, hwTranslate_self hself haligned hlt] at htrans
    cases htrans
  · have hret := congrArg Prod.fst hsame
    rw [hn] at hret
    dsimp only at hret
    rw [loop_of_walk (by decide) (walk_page hpage hroot (Nat.mul_mod_left _ _)
        (Nat.mul_mod_left _ _) flags),
      loop_of_walk (by decide) (walk_self hself hroot hlt (Nat.mul_mod_left _ _)
        (Nat.mul_mod_left _ _) flags 2)] at hret
    have hne : -efault ≠ -eexist := by decide
    exact hne hret

/-- With three free pages a request of a page and a byte is refused, and one of a page is not. -/
theorem stale_memory_three_pages :
    let x : EarlyMemory := ⟨fun _ _ => 0, 4096, 3 * 4096, 0, false⟩
    x.IgnoresStale 0x3000000000 0x80200000 4097 11 ∧
      ¬ x.IgnoresStale 0x3000000000 0x80200000 4096 11 := by
  intro x
  constructor
  · exact (stale_memory_iff x _ _ _ _ (by decide) (by decide) (by decide)).2
      (.inr (.inl (by decide)))
  · rw [stale_memory_iff x _ _ _ _ (by decide) (by decide) (by decide), TakesNone]
    decide

/-- A page in three free ones: with zeros it is mapped, with stale bits the root is taken for a root
of pages. -/
theorem not_stale_memory : ¬ (⟨fun _ _ => 0, 4096, 3 * 4096, 0, false⟩ : EarlyMemory).IgnoresStale
    0x3000000000 0x80200000 4096 11 := by
  intro h
  have hret := congrArg Prod.fst (h (fun _ _ => 0) (fun p _ => if p = 4096 then 3 else 0) (by
    intro p hp
    have hne : p ≠ 4096 := by
      rintro rfl
      exact hp ⟨by decide, le_rfl, by decide⟩
    funext i
    exact (if_neg hne).symm))
  revert hret
  decide

end EarlyMemory

end AcoOs
