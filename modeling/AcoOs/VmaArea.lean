/-
The address spaces of `mm/vm.h` and the operations of `vma_area_ops.c`.

A `vma_t` keeps its areas twice: in a search tree and in a list.  Objects are named by
their addresses, so the tree and the list hold addresses of `vma_area_t` objects, and the
objects themselves are in the state.  The links of `l_node` and of `a_node` are modelled
by the list and by the tree.

`VmEnv` is what the address spaces take from elsewhere: pages, objects of the two slab
caches, and the rebalancing of the vendored tree, of which only the effect on the in-order
sequence matters.  The locks of an address space are left out: the calls modelled here run
one after the other.
-/
import AcoOs.PageTableFree
import AcoOs.SearchTree

namespace AcoOs

variable {L : VmLayout}

/-- `EPERM`. -/
def eperm : ℤ := 1

/-- `ENOBUFS`. -/
def enobufs : ℤ := 105

/-- `vmar_type_t`; `VMA_NOREACH` is the bound of the others. -/
inductive VmarType
  | kernel
  | io
  | memory
  deriving DecidableEq, Repr

/-- `vma_area_t`; a `pageframe_t*` is the id of the page. -/
structure VmaArea where
  vmarTyp : VmarType
  va : ℕ
  size : ℕ
  pa : ℕ
  pgfm : Option ℕ
  prot : ℕ
  deriving DecidableEq, Repr

/-- `vma_t`; a `pgt*` is the id of the page of the table. -/
structure Vma where
  hwPgtable : Option ℕ
  kernelVma : ℕ
  aRoot : SearchTree ℕ
  lList : List ℕ

/-- A `vma_t` of zeros. -/
def Vma.zero : Vma := ⟨none, 0, .nil, []⟩

/-- `vma_cache` and `vma_area_cache`. -/
inductive VmCache
  | vma
  | vmaArea
  deriving DecidableEq, Repr

/-- Where pages and objects come from, and how the tree is rebalanced.  `live` are the
objects that are handed out.  A cache may keep the pages it took for a slab; its own
blocks are no business of its clients and are not among `blocks`. -/
structure VmEnv (L : VmLayout) extends PageAllocator L.toLayout where
  objAlloc : State → VmCache → Option ℕ × State
  objFree : State → VmCache → ℕ → Option State
  live : State → VmCache → Finset ℕ
  postInsert : SearchTree ℕ → ℕ → SearchTree ℕ
  nodeErase : SearchTree ℕ → ℕ → SearchTree ℕ
  objAlloc_pages : ∀ s k, (pageSet (objAlloc s k).2).free ⊆ (pageSet s).free ∧
    (pageSet (objAlloc s k).2).blocks = (pageSet s).blocks
  objAlloc_none : ∀ s k, (objAlloc s k).1 = none → live (objAlloc s k).2 = live s
  objAlloc_some : ∀ s k a, (objAlloc s k).1 = some a → a ≠ 0 ∧ a ∉ live s k ∧
    live (objAlloc s k).2 = Function.update (live s) k (insert a (live s k))
  objFree_live : ∀ s k, ∀ a ∈ live s k, ∃ s', objFree s k a = some s' ∧
    pageSet s' = pageSet s ∧ live s' = Function.update (live s) k ((live s k).erase a)
  alloc_live : ∀ s k, live (alloc s k).2 = live s
  free_live : ∀ s p s', free s p = some s' → live s' = live s
  toList_postInsert : ∀ t a, (postInsert t a).toList = t.toList
  toList_nodeErase : ∀ t a, (nodeErase t a).toList = t.toList.erase a

/-- The memory, the objects of the two caches by address, and `kern_vma`. -/
structure VmState (A : VmEnv L) where
  mem : Memory A.toPageAllocator
  vmas : ℕ → Vma
  areas : ℕ → VmaArea
  kernVma : ℕ

namespace VmState

variable {A : VmEnv L}

/-- `kmem_obj_alloc`. -/
def objAlloc (x : VmState A) (k : VmCache) : Option ℕ × VmState A :=
  ((A.objAlloc x.mem.buddy k).1,
    { x with mem := { x.mem with buddy := (A.objAlloc x.mem.buddy k).2 } })

/-- `kmem_obj_free`. -/
def objFree (x : VmState A) (k : VmCache) (a : ℕ) : Option (VmState A) :=
  (A.objFree x.mem.buddy k a).map fun s => { x with mem := { x.mem with buddy := s } }

/-- The objects of a cache that are handed out. -/
def live (x : VmState A) (k : VmCache) : Finset ℕ := A.live x.mem.buddy k

/-- Change a `vma_t`. -/
def setVma (x : VmState A) (vma : ℕ) (v : Vma) : VmState A :=
  { x with vmas := Function.update x.vmas vma v }

/-- Change a `vma_area_t`. -/
def setArea (x : VmState A) (a : ℕ) (area : VmaArea) : VmState A :=
  { x with areas := Function.update x.areas a area }

end VmState

/-! ### `vma_area_ops.c` -/

/-- `va + size`, a `uintptr_t`. -/
def VmaArea.vaEnd (area : VmaArea) : ℕ := (area.va + area.size) % 2 ^ 64

/-- `insert_compare_vmarea`; the first of its three tests sets `ret` to the zero it has. -/
def insertCompareVmarea (wantNode haveNode : VmaArea) : ℤ :=
  let ret := if wantNode.vaEnd ≤ haveNode.va then -1 else 0
  if haveNode.vaEnd ≤ wantNode.va then 1 else ret

/-- `avl_node_prev`: the node before a node in the in-order sequence. -/
def avlNodePrev (root : SearchTree ℕ) (node : ℕ) : Option ℕ :=
  (root.toList.takeWhile (· ≠ node)).getLast?

/-- `node_add_aft`: put a node into a list behind another one. -/
def nodeAddAft (bef node : ℕ) : List ℕ → List ℕ
  | [] => []
  | n :: l => if n = bef then n :: node :: l else n :: nodeAddAft bef node l

namespace VmState

variable {A : VmEnv L}

/-- `vma_area_hang`. -/
def vmaAreaHang (x : VmState A) (vma vmaArea : ℕ) : ℤ × VmState A :=
  match (x.vmas vma).aRoot.add
      (fun node => insertCompareVmarea (x.areas vmaArea) (x.areas node)) vmaArea with
  | (some _, _) => (-eexist, x)
  | (none, root) =>
    let root := A.postInsert root vmaArea
    (0, x.setVma vma { x.vmas vma with
      aRoot := root
      lList := match avlNodePrev root vmaArea with
        | none => vmaArea :: (x.vmas vma).lList
        | some prevNode => nodeAddAft prevNode vmaArea (x.vmas vma).lList })

/-- `vma_area_unhang`. -/
def vmaAreaUnhang (x : VmState A) (vma vmaArea : ℕ) : VmState A :=
  x.setVma vma { x.vmas vma with
    lList := (x.vmas vma).lList.erase vmaArea
    aRoot := A.nodeErase (x.vmas vma).aRoot vmaArea }

end VmState

/-! ### The list follows the tree -/

theorem avlNodePrev_eq {root : SearchTree ℕ} {l r : List ℕ} {node : ℕ}
    (h : root.toList = l ++ node :: r) (hn : node ∉ l) : avlNodePrev root node = l.getLast? := by
  rw [avlNodePrev, h, List.takeWhile_append_of_pos]
  · rw [List.takeWhile_cons_of_neg (by simp), List.append_nil]
  · intro m hm
    rw [decide_eq_true_eq]
    rintro rfl
    exact hn hm

theorem nodeAddAft_append {bef node : ℕ} {l r : List ℕ} (hb : bef ∉ l) :
    nodeAddAft bef node (l ++ bef :: r) = l ++ bef :: node :: r := by
  induction l with
  | nil => rw [List.nil_append, List.nil_append, nodeAddAft, if_pos rfl]
  | cons n l ih =>
    rw [List.mem_cons, not_or] at hb
    rw [List.cons_append, nodeAddAft, if_neg (Ne.symm hb.1), ih hb.2, List.cons_append]

namespace VmState

variable {A : VmEnv L} {x x' : VmState A} {vma vmaArea : ℕ}

/-- The areas of an address space, in order. -/
def list (x : VmState A) (vma : ℕ) : List ℕ := (x.vmas vma).lList

/-- The list of an address space is the in-order sequence of its tree, and has no node
twice. -/
structure Listed (x : VmState A) (vma : ℕ) : Prop where
  toList : (x.vmas vma).aRoot.toList = x.list vma
  nodup : (x.list vma).Nodup

/-- The area that is in the way of a new one. -/
def inTheWay (x : VmState A) (vma : ℕ) (area : VmaArea) : Option ℕ :=
  (x.vmas vma).aRoot.find fun node => insertCompareVmarea area (x.areas node)

/-- An area is refused for the sake of one that compares as equal, and nothing changes. -/
theorem hang_refused (h : x.inTheWay vma (x.areas vmaArea) ≠ none) :
    x.vmaAreaHang vma vmaArea = (-eexist, x) := by
  unfold vmaAreaHang
  unfold inTheWay at h
  rw [← SearchTree.add_fst (a := vmaArea)] at h
  generalize (x.vmas vma).aRoot.add
    (fun node => insertCompareVmarea (x.areas vmaArea) (x.areas node)) vmaArea = res at h
  obtain ⟨_ | d, root⟩ := res
  · exact absurd rfl h
  · rfl

/-- Else it stands in the list where it stands in the tree. -/
theorem Listed.hang (h : x.Listed vma) (hn : vmaArea ∉ x.list vma)
    (hw : x.inTheWay vma (x.areas vmaArea) = none) : ∃ l r root, x.list vma = l ++ r ∧
    ((x.vmas vma).aRoot.add
      (fun node => insertCompareVmarea (x.areas vmaArea) (x.areas node)) vmaArea).2.toList =
        l ++ vmaArea :: r ∧
    root.toList = l ++ vmaArea :: r ∧ x.vmaAreaHang vma vmaArea =
      (0, x.setVma vma { x.vmas vma with aRoot := root, lList := l ++ vmaArea :: r }) := by
  obtain ⟨l, r, h1, h2⟩ := SearchTree.add_none (a := vmaArea) hw
  unfold inTheWay at hw
  rw [← SearchTree.add_fst (a := vmaArea)] at hw
  rw [h.toList] at h1
  refine ⟨l, r, A.postInsert ((x.vmas vma).aRoot.add
    (fun node => insertCompareVmarea (x.areas vmaArea) (x.areas node)) vmaArea).2 vmaArea, h1, h2,
    by rw [A.toList_postInsert, h2], ?_⟩
  unfold vmaAreaHang
  generalize (x.vmas vma).aRoot.add
    (fun node => insertCompareVmarea (x.areas vmaArea) (x.areas node)) vmaArea = res at hw h2
  obtain ⟨dup, root⟩ := res
  cases hw
  have hnl : vmaArea ∉ l := fun hl => hn (by rw [h1]; exact List.mem_append_left _ hl)
  have hprev : avlNodePrev (A.postInsert root vmaArea) vmaArea = l.getLast? :=
    avlNodePrev_eq (by rw [A.toList_postInsert]; exact h2) hnl
  have hlist : (x.vmas vma).lList = l ++ r := h1
  dsimp only
  rw [hprev, hlist]
  congr 3
  rcases List.eq_nil_or_concat l with rfl | ⟨l', p, rfl⟩
  · rfl
  · have hp : p ∉ l' := by
      have := h.nodup
      rw [h1, List.concat_eq_append, List.append_assoc] at this
      intro hp
      exact (List.nodup_append.1 this).2.2 p hp p (by simp) rfl
    rw [List.concat_eq_append, List.getLast?_append_of_ne_nil _ (by simp)]
    show nodeAddAft p vmaArea (l' ++ [p] ++ r) = _
    rw [List.append_assoc, List.singleton_append, nodeAddAft_append hp]
    simp

end VmState

end AcoOs
