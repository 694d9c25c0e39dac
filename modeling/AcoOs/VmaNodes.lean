/-
The nodes of the areas of an address space, as they lie in memory.

`VmaArea` takes an address space as a tree and a list, and the rebalancing of the tree as given.
Here a `vma_area_t` has the links of its `a_node` and of its `l_node`, and `vma_area_hang` and
`vma_area_unhang` write them.

* **`vmaAreaHang_holds`**, **`vmaAreaUnhang_holds`** — the two functions refine those of `VmaArea`,
  for all address spaces at once;
* **`run_holds`** — from boot on, so do all runs of them, and no loop takes more than 92 rounds.
-/
import AcoOs.AvlRuns
import AcoOs.ListHead
import AcoOs.VmMachine

namespace AcoOs

open LinkedTree

/-- Where an `l_node` or an `l_list` lies, or `NULL`. -/
inductive VmaCell
  | null
  | head (vma : ℕ)
  | area (vmaArea : ℕ)
  deriving DecidableEq

/-- The two nodes of each area, and the `a_root` and the `l_list` of each `vma_t`. -/
structure VmaNodes where
  left : ℕ → Option ℕ
  right : ℕ → Option ℕ
  parent : ℕ → Option ℕ
  height : ℕ → ℤ
  aRoot : ℕ → Option ℕ
  lNodes : LinkedRing.Links VmaCell

namespace VmaNodes

/-- The nodes with the root of one address space. -/
def tree (N : VmaNodes) (vma : ℕ) : AvlNodes ℕ where
  left := N.left
  right := N.right
  parent := N.parent
  height := N.height
  root := N.aRoot vma

/-- The nodes after a call for one address space. -/
def setTree (N : VmaNodes) (vma : ℕ) (M : AvlNodes ℕ) : VmaNodes where
  left := M.left
  right := M.right
  parent := M.parent
  height := M.height
  aRoot := Function.update N.aRoot vma M.root
  lNodes := N.lNodes

/-- Other links of the `l_node`s. -/
def setList (N : VmaNodes) (L : LinkedRing.Links VmaCell) : VmaNodes := { N with lNodes := L }

/-- `vma_area_hang`. -/
def vmaAreaHang (areas : ℕ → VmaArea) (n : ℕ) (N : VmaNodes) (vma vmaArea : ℕ) :
    Option (ℤ × VmaNodes) := do
  let (duplicated, M) ← (N.tree vma).avlNodeAdd
    (fun node => insertCompareVmarea (areas vmaArea) (areas node)) n vmaArea
  let N := N.setTree vma M
  match duplicated with
  | some _ => return (-eexist, N)
  | none =>
    match ← AvlNodes.avlNodePrev n M.toLinks (some vmaArea) with
    | none => return (0, N.setList (ListHead.listAdd N.lNodes (.area vmaArea) (.head vma)))
    | some prevNode =>
      return (0, N.setList (ListHead.nodeAddAft N.lNodes (.area prevNode) (.area vmaArea)))

/-- `vma_area_unhang`. -/
def vmaAreaUnhang (n : ℕ) (N : VmaNodes) (vma vmaArea : ℕ) : Option VmaNodes := do
  let N := N.setList (ListHead.listDel .null N.lNodes (.area vmaArea))
  let M ← (N.tree vma).avlNodeErase n vmaArea
  return N.setTree vma M

/-- `avl_root_init` and `INIT_LIST_HEAD`, for a new `vma_t`. -/
def vmaInit (N : VmaNodes) (vma : ℕ) : VmaNodes :=
  { N with
    aRoot := Function.update N.aRoot vma none
    lNodes := ListHead.initListHead N.lNodes (.head vma) }

/-- `vma_area_val_init`: `avl_node_init` and `INIT_NODE`. -/
def vmaAreaValInit (N : VmaNodes) (vmaArea : ℕ) : VmaNodes :=
  { N with
    parent := Function.update N.parent vmaArea (some vmaArea)
    lNodes := ListHead.initNode .null N.lNodes (.area vmaArea) }

/-- `vma_area_val_deinit`: all is zero. -/
def vmaAreaValDeinit (N : VmaNodes) (vmaArea : ℕ) : VmaNodes where
  left := Function.update N.left vmaArea none
  right := Function.update N.right vmaArea none
  parent := Function.update N.parent vmaArea none
  height := Function.update N.height vmaArea 0
  aRoot := N.aRoot
  lNodes := ListHead.initNode .null N.lNodes (.area vmaArea)

end VmaNodes

namespace VmaNodes

variable {L : VmLayout} {A : VmEnv L} {x : VmState A.withAvl} {N : VmaNodes} {V : Finset ℕ}
  {v w a b n : ℕ}

/-- The nodes of the list of an address space. -/
def cells (x : VmState A.withAvl) : VmaCell → List VmaCell
  | .head vma => (x.list vma).map .area
  | _ => []

/-- The nodes in memory are those of the trees and the lists of some address spaces. -/
structure Holds (N : VmaNodes) (V : Finset ℕ) (x : VmState A.withAvl) : Prop where
  tree : ∀ v ∈ V, (N.tree v).IsAvl (x.vmas v).aRoot
  lists : ListHead.Lists N.lNodes (V.image .head) (cells x)
  listed : ∀ v ∈ V, x.Listed v
  address : ∀ v ∈ V, ∀ a ∈ x.list v, 0 < a ∧ a < 2 ^ 64

/-- A balanced tree of objects is less than 92 nodes high. -/
theorem height_lt_of_address {t : SearchTree ℕ} (hb : t.Balanced) (hn : t.toList.Nodup)
    (ha : ∀ a ∈ t.toList, 0 < a ∧ a < 2 ^ 64) : t.height < 92 := by
  refine Nat.lt_succ_of_le (SearchTree.height_lt_of_length hb ?_)
  have hsub : t.toList.toFinset ⊆ Finset.Ioo 0 (2 ^ 64) := fun a hm => by
    rw [List.mem_toFinset] at hm
    exact Finset.mem_Ioo.2 (ha a hm)
  have hcard := Finset.card_le_card hsub
  rw [List.toFinset_card_of_nodup hn, Nat.card_Ioo] at hcard
  omega

theorem Holds.height_lt (h : N.Holds V x) (hv : v ∈ V) : (x.vmas v).aRoot.height < 92 := by
  have hlist := (h.listed v hv).toList
  refine height_lt_of_address (h.tree v hv).balanced ?_ ?_
  · rw [hlist]
    exact (h.listed v hv).nodup
  · rw [hlist]
    exact h.address v hv

/-- An area is in one list only. -/
theorem Holds.notMem (h : N.Holds V x) (hv : v ∈ V) (hw : w ∈ V) (hvw : v ≠ w)
    (ha : a ∈ x.list v) : a ∉ x.list w := by
  intro haw
  have hne : VmaCell.head v ≠ .head w := fun e => hvw (VmaCell.head.inj e)
  refine h.lists.apart _ (Finset.mem_image_of_mem _ hv) _ (Finset.mem_image_of_mem _ hw) hne
    (List.mem_cons_of_mem _ (List.mem_map_of_mem ha))
    (List.mem_cons_of_mem _ (List.mem_map_of_mem haw))

/-- The trees of the other address spaces do not notice a call. -/
theorem isAvl_frame {M M' : AvlNodes ℕ} {t : SearchTree ℕ} (h : M.IsAvl t)
    (hs : ∀ z ∈ t.toList, M.Same M'.toLinks z ∧ M'.height z = M.height z)
    (hroot : M'.root = M.root) : M'.IsAvl t :=
  ⟨⟨hroot.trans h.links.root, h.links.subtree.congr fun z hz => (hs z hz).1, h.links.nodup⟩,
    h.heights.congr fun z hz => (hs z hz).2, h.balanced⟩

theorem tree_setTree {M : AvlNodes ℕ} : ((N.setTree v M).tree v) = M := by
  show AvlNodes.mk ⟨M.left, M.right, M.parent, Function.update N.aRoot v M.root v⟩ M.height = M
  rw [Function.update_self]

theorem setTree_tree : N.setTree v (N.tree v) = N := by
  show VmaNodes.mk N.left N.right N.parent N.height (Function.update N.aRoot v (N.aRoot v))
    N.lNodes = N
  rw [Function.update_eq_self]

/-- A call for one address space, of which the others do not notice anything. -/
theorem Holds.set {M : AvlNodes ℕ} {t : SearchTree ℕ} {l : List ℕ}
    {K : LinkedRing.Links VmaCell} (h : N.Holds V x) (hM : M.IsAvl t)
    (hs : ∀ w ∈ V, w ≠ v → ∀ z ∈ x.list w, (N.tree v).Same M.toLinks z ∧ M.height z = N.height z)
    (hK : ListHead.Lists K (V.image .head) (Function.update (cells x) (.head v) (l.map .area)))
    (hl : t.toList = l) (hnodup : l.Nodup) (haddr : ∀ a ∈ l, 0 < a ∧ a < 2 ^ 64) :
    ((N.setList K).setTree v M).Holds V
      (x.setVma v { x.vmas v with aRoot := t, lList := l }) := by
  have hvma : ∀ w, w ≠ v → (x.setVma v { x.vmas v with aRoot := t, lList := l }).vmas w =
      x.vmas w := fun w hw => Function.update_of_ne hw ..
  have hself : (x.setVma v { x.vmas v with aRoot := t, lList := l }).vmas v =
      { x.vmas v with aRoot := t, lList := l } := Function.update_self ..
  refine ⟨fun w hw => ?_, ?_, fun w hw => ?_, fun w hw => ?_⟩
  · by_cases hwv : w = v
    · subst hwv
      rw [tree_setTree, hself]
      exact hM
    · rw [hvma w hwv]
      refine isAvl_frame (h.tree w hw) (fun z hz => ?_) (Function.update_of_ne hwv ..)
      rw [(h.listed w hw).toList] at hz
      obtain ⟨⟨h1, h2, h3⟩, h4⟩ := hs w hw hwv z hz
      exact ⟨⟨h1, h2, h3⟩, h4⟩
  · refine hK.congr fun c hc => ?_
    obtain ⟨w, hw, rfl⟩ := Finset.mem_image.1 hc
    by_cases hwv : w = v
    · subst hwv
      rw [Function.update_self, cells, VmState.list, hself]
    · rw [Function.update_of_ne fun e => hwv (VmaCell.head.inj e), cells, VmState.list, hvma w hwv]
      rfl
  · by_cases hwv : w = v
    · subst hwv
      refine ⟨?_, ?_⟩
      · rw [VmState.list, hself]
        exact hl
      · rw [VmState.list, hself]
        exact hnodup
    · refine ⟨?_, ?_⟩
      · rw [VmState.list, hvma w hwv]
        exact (h.listed w hw).toList
      · rw [VmState.list, hvma w hwv]
        exact (h.listed w hw).nodup
  · by_cases hwv : w = v
    · subst hwv
      rw [VmState.list, hself]
      exact haddr
    · rw [VmState.list, hvma w hwv]
      exact h.address w hw

theorem map_nodeAddAft (bef node : ℕ) (l : List ℕ) : (AcoOs.nodeAddAft bef node l).map .area =
    ListHead.insertBehind (VmaCell.area bef) (.area node) (l.map .area) := by
  induction l with
  | nil => rfl
  | cons c l ih =>
    rw [AcoOs.nodeAddAft, List.map_cons, ListHead.insertBehind]
    by_cases hc : c = bef
    · rw [if_pos hc, if_pos (by rw [hc])]
      rfl
    · rw [if_neg hc, if_neg fun e => hc (VmaCell.area.inj e), List.map_cons, ih]

/-- An area that is in no list is no cell of one. -/
theorem not_isCell (ha : ∀ w ∈ V, a ∉ x.list w) :
    ¬ ListHead.IsCell (V.image .head) (cells x) (.area a) := by
  rintro ⟨c, hc, hm⟩
  obtain ⟨w, hw, rfl⟩ := Finset.mem_image.1 hc
  rcases List.mem_cons.1 hm with h | h
  · cases h
  · obtain ⟨b, hb, he⟩ := List.mem_map.1 h
    cases he
    exact ha w hw hb

/-- The list with a new area behind another one, or at its head. -/
def hangList (prev : Option ℕ) (a : ℕ) (l : List ℕ) : List ℕ :=
  prev.elim (a :: l) fun prevNode => AcoOs.nodeAddAft prevNode a l

theorem hangList_getLast? {l r : List ℕ} (hn : (l ++ r).Nodup) :
    hangList l.getLast? a (l ++ r) = l ++ a :: r := by
  rcases List.eq_nil_or_concat l with rfl | ⟨l', b, rfl⟩
  · rfl
  · rw [List.concat_eq_append] at hn ⊢
    have hb : b ∉ l' := by
      have hl' := (List.nodup_append'.1 hn).1
      exact fun hm => (List.nodup_append'.1 hl').2.2 hm (List.mem_singleton_self b)
    rw [List.getLast?_concat, hangList, Option.elim_some, List.append_assoc,
      List.singleton_append, nodeAddAft_append hb, List.append_assoc, List.singleton_append]

/-- The new cell of the list. -/
theorem Holds.addAt_cells (h : N.Holds V x) (hv : v ∈ V) {prev : Option ℕ}
    (hp : ∀ b ∈ prev, b ∈ x.list v) {c : VmaCell} (hc : c ∈ V.image VmaCell.head) :
    ListHead.addAt (cells x) (.area a) (prev.elim (.head v) .area) c =
      Function.update (cells x) (.head v) ((hangList prev a (x.list v)).map .area) c := by
  obtain ⟨w, hw, rfl⟩ := Finset.mem_image.1 hc
  cases prev with
  | none =>
    rw [Option.elim_none, ListHead.addAt]
    by_cases hwv : w = v
    · subst hwv
      rw [Function.update_self, if_pos rfl]
      rfl
    · have hne : VmaCell.head w ≠ .head v := fun e => hwv (VmaCell.head.inj e)
      rw [Function.update_of_ne hne, if_neg hne]
      exact ListHead.insertBehind_notMem (by simp [cells])
  | some b =>
    rw [Option.elim_some, ListHead.addAt, if_neg (by simp)]
    by_cases hwv : w = v
    · subst hwv
      rw [Function.update_self, hangList, Option.elim_some, map_nodeAddAft]
      rfl
    · have hne : VmaCell.head w ≠ .head v := fun e => hwv (VmaCell.head.inj e)
      have hbw : b ∉ x.list w := h.notMem hv hw (Ne.symm hwv) (hp b rfl)
      rw [Function.update_of_ne hne]
      exact ListHead.insertBehind_notMem (by simpa [cells] using hbw)

/-- The two loops of `vma_area_hang` have ended. -/
theorem vmaAreaHang_eq {areas : ℕ → VmaArea} {M : AvlNodes ℕ} {prev : Option ℕ}
    (hM : (N.tree v).avlNodeAdd
      (fun node => insertCompareVmarea (areas a) (areas node)) n a = some (none, M))
    (hp : AvlNodes.avlNodePrev n M.toLinks (some a) = some prev) :
    N.vmaAreaHang areas n v a = some (0, (N.setList
      (ListHead.listAdd N.lNodes (.area a) (prev.elim (.head v) .area))).setTree v M) := by
  rw [vmaAreaHang, hM, Option.bind_eq_bind, Option.bind_some]
  dsimp only
  rw [hp, Option.bind_eq_bind, Option.bind_some]
  cases prev <;> rfl

theorem vmState_vmaAreaHang_eq {root : SearchTree ℕ} (hres : (x.vmas v).aRoot.add
      (fun node => insertCompareVmarea (x.areas a) (x.areas node)) a = (none, root)) :
    x.vmaAreaHang v a = (0, x.setVma v { x.vmas v with
      aRoot := SearchTree.avlNodePostInsert a root
      lList := hangList (avlNodePrev (SearchTree.avlNodePostInsert a root) a) a (x.list v) }) := by
  unfold VmState.vmaAreaHang
  rw [hres]
  dsimp only
  rw [show A.withAvl.postInsert root a = SearchTree.avlNodePostInsert a root from rfl]
  cases avlNodePrev (SearchTree.avlNodePostInsert a root) a <;> rfl

/-- `vma_area_hang`, of an area that is in no list. -/
theorem vmaAreaHang_holds (h : N.Holds V x) (hv : v ∈ V) (ha : ∀ w ∈ V, a ∉ x.list w)
    (haddr : 0 < a ∧ a < 2 ^ 64) (hn : 92 ≤ n) : ∃ N',
    N.vmaAreaHang x.areas n v a = some ((x.vmaAreaHang v a).1, N') ∧
      N'.Holds V (x.vmaAreaHang v a).2 := by
  have htree := h.tree v hv
  have hheight := (h.height_lt hv).trans_le hn
  have hlist := (h.listed v hv).toList
  cases hf : x.inTheWay v (x.areas a) with
  | some b =>
    have hrefused : x.vmaAreaHang v a = (-eexist, x) :=
      x.hang_refused (by rw [hf]; exact Option.some_ne_none b)
    rw [hrefused]
    refine ⟨N, ?_, h⟩
    simp only [vmaAreaHang, AvlNodes.avlNodeAdd_found htree hheight hf, Option.bind_eq_bind,
      Option.bind_some, setTree_tree]
    rfl
  | none =>
    have hat : a ∉ (x.vmas v).aRoot.toList := by
      rw [hlist]
      exact ha v hv
    obtain ⟨l, r, hlr, hadd⟩ := SearchTree.add_none (a := a) hf
    obtain ⟨M, hM, havl, hframe⟩ := AvlNodes.avlNodeAdd_spec htree hheight hat hf
    obtain ⟨root, hres⟩ : ∃ root, (x.vmas v).aRoot.add
        (fun node => insertCompareVmarea (x.areas a) (x.areas node)) a = (none, root) :=
      ⟨_, Prod.ext (SearchTree.add_fst.trans hf) rfl⟩
    rw [hres] at hadd havl
    rw [hlist] at hlr
    have hnodup := (h.listed v hv).nodup
    rw [hlr] at hnodup
    have hal : a ∉ l ++ r := hlr ▸ ha v hv
    have hnodup' : (l ++ a :: r).Nodup := List.nodup_middle.2 (List.nodup_cons.2 ⟨hal, hnodup⟩)
    have haddr' : ∀ b ∈ l ++ a :: r, 0 < b ∧ b < 2 ^ 64 := fun b hb => by
      rcases List.mem_cons.1 (List.perm_middle.mem_iff.1 hb) with rfl | hb
      · exact haddr
      · exact h.address v hv b (hlr ▸ hb)
    have hnew : (SearchTree.avlNodePostInsert a root).toList = l ++ a :: r := by
      rw [SearchTree.toList_avlNodePostInsert, hadd]
    have hprev := avlNodePrev_eq hnew fun hm => hal (List.mem_append_left r hm)
    have hheight' := height_lt_of_address havl.balanced (hnew ▸ hnodup') (hnew ▸ haddr')
    have hprev' := AvlNodes.avlNodePrev_spec havl.links hnew (hheight'.le.trans hn)
    have hmem : ∀ b ∈ l.getLast?, b ∈ x.list v := fun b hb => by
      rw [hlr]
      exact List.mem_append_left r (List.mem_of_getLast? hb)
    have hlist' : hangList l.getLast? a (x.list v) = l ++ a :: r := by
      rw [hlr, hangList_getLast? hnodup]
    rw [vmState_vmaAreaHang_eq hres, hprev]
    refine ⟨_, vmaAreaHang_eq hM hprev', h.set havl (fun w hw hwv z hz => ?_)
      ((ListHead.listAdd_lists h.lists (not_isCell ha) ?_).congr fun c hc =>
        (h.addAt_cells hv hmem hc).symm) ?_ ?_ ?_⟩
    · have hza : z ≠ a := fun e => ha w hw (e ▸ hz)
      have hzv : z ∉ (x.vmas v).aRoot.toList := by
        rw [hlist]
        exact h.notMem hw hv hwv hz
      exact hframe z hza hzv
    · refine ⟨.head v, Finset.mem_image_of_mem _ hv, ?_⟩
      cases hlast : l.getLast? with
      | none => exact List.mem_cons_self
      | some b => exact List.mem_cons_of_mem _ (List.mem_map_of_mem (hmem b hlast))
    · rw [hlist', hnew]
    · rw [hlist']
      exact hnodup'
    · rw [hlist']
      exact haddr'

/-- `vma_area_unhang`, of an area that is in the list. -/
theorem vmaAreaUnhang_holds (h : N.Holds V x) (hv : v ∈ V) (ha : a ∈ x.list v) (hn : 92 ≤ n) :
    ∃ N', N.vmaAreaUnhang n v a = some N' ∧ N'.Holds V (x.vmaAreaUnhang v a) := by
  have hlist := (h.listed v hv).toList
  have hat : a ∈ (x.vmas v).aRoot.toList := hlist.symm ▸ ha
  obtain ⟨M, hM, havl, herase, hframe⟩ :=
    AvlNodes.avlNodeErase_spec (h.tree v hv) hat ((h.height_lt hv).le.trans hn)
  rw [hlist] at herase
  have hlinked : ListHead.IsLinked (V.image .head) (cells x) (.area a) :=
    ⟨.head v, Finset.mem_image_of_mem _ hv, List.mem_map_of_mem ha⟩
  have hcells : ∀ c ∈ V.image VmaCell.head, Function.update (cells x) (.head v)
      (((x.list v).erase a).map .area) c = ListHead.delFrom (cells x) (.area a) c := by
    intro c hc
    obtain ⟨w, hw, rfl⟩ := Finset.mem_image.1 hc
    have hmap : ((x.list w).erase a).map VmaCell.area = (cells x (.head w)).erase (.area a) :=
      List.map_erase (fun _ _ e => VmaCell.area.inj e) (x.list w)
    by_cases hwv : w = v
    · subst hwv
      rw [Function.update_self, hmap]
      rfl
    · rw [Function.update_of_ne fun e => hwv (VmaCell.head.inj e), ListHead.delFrom, ← hmap,
        List.erase_of_not_mem (h.notMem hv hw (Ne.symm hwv) ha)]
      rfl
  have hdel : ListHead.Lists (ListHead.listDel .null N.lNodes (.area a)) (V.image .head) _ :=
    (ListHead.listDel_lists h.lists hlinked).1
  refine ⟨_, ?_, h.set havl (fun w hw hwv z hz => hframe z ?_) (hdel.congr hcells) herase
    ((h.listed v hv).nodup.erase a) fun b hb => h.address v hv b (List.mem_of_mem_erase hb)⟩
  · show ((N.tree v).avlNodeErase n a).bind _ = _
    rw [hM]
    rfl
  · rw [hlist]
    exact h.notMem hw hv hwv hz

/-! ### Runs -/

/-- A node that is in no list is written. -/
theorem Holds.write (h : N.Holds V x) (ha : ∀ w ∈ V, a ∉ x.list w) {N' : VmaNodes}
    {y : VmState A.withAvl} (hs : ∀ z, z ≠ a → N'.left z = N.left z ∧ N'.right z = N.right z ∧
      N'.parent z = N.parent z ∧ N'.height z = N.height z)
    (hroot : N'.aRoot = N.aRoot) (hl : N'.lNodes = ListHead.initNode .null N.lNodes (.area a))
    (hy : y.vmas = x.vmas) : N'.Holds V y := by
  have hlist : y.list = x.list := funext fun w => by rw [VmState.list, hy, VmState.list]
  refine ⟨fun w hw => ?_, ?_, fun w hw => ⟨?_, ?_⟩, ?_⟩
  · rw [hy]
    refine isAvl_frame (h.tree w hw) (fun z hz => ?_) (congrFun hroot w)
    rw [(h.listed w hw).toList] at hz
    obtain ⟨h1, h2, h3, h4⟩ := hs z fun e => ha w hw (e ▸ hz)
    exact ⟨⟨h1, h2, h3⟩, h4⟩
  · rw [hl, show cells y = cells x from funext fun c => by cases c <;> simp [cells, hlist]]
    exact h.lists.write (not_isCell ha)
  · rw [hy, hlist]
    exact (h.listed w hw).toList
  · rw [hlist]
    exact (h.listed w hw).nodup
  · rw [hlist]
    exact h.address

theorem Holds.mono {W : Finset ℕ} (h : N.Holds V x) (hW : W ⊆ V) : N.Holds W x where
  tree v hv := h.tree v (hW hv)
  lists := h.lists.mono (Finset.image_subset_image hW)
  listed v hv := h.listed v (hW hv)
  address v hv := h.address v (hW hv)

theorem vmaInit_holds_new (h : N.Holds V x) (hv : v ∉ V) : (N.vmaInit v).Holds (insert v V)
    (x.setVma v { x.vmas v with aRoot := .nil, lList := [] }) := by
  have hne : ∀ w ∈ V, w ≠ v := fun w hw e => hv (e ▸ hw)
  have hvma : ∀ w ∈ V, (x.setVma v { x.vmas v with aRoot := .nil, lList := [] }).vmas w =
      x.vmas w := fun w hw => Function.update_of_ne (hne w hw) ..
  have hself : (x.setVma v { x.vmas v with aRoot := .nil, lList := [] }).vmas v =
      { x.vmas v with aRoot := .nil, lList := [] } := Function.update_self ..
  have hcell : ¬ ListHead.IsCell (V.image .head) (cells x) (.head v) := by
    rintro ⟨c, hc, hm⟩
    obtain ⟨w, hw, rfl⟩ := Finset.mem_image.1 hc
    rcases List.mem_cons.1 hm with e | hm
    · exact hne w hw (VmaCell.head.inj e).symm
    · simp [cells] at hm
  refine ⟨fun w hw => ?_, ?_, fun w hw => ?_, fun w hw => ?_⟩
  · rcases Finset.mem_insert.1 hw with rfl | hw
    · rw [hself]
      exact ⟨⟨Function.update_self .., trivial, List.nodup_nil⟩, trivial, trivial⟩
    · rw [hvma w hw]
      exact isAvl_frame (h.tree w hw) (fun z _ => ⟨⟨rfl, rfl, rfl⟩, rfl⟩)
        (Function.update_of_ne (hne w hw) ..)
  · rw [Finset.image_insert]
    have hring : (N.vmaInit v).lNodes.Ring (VmaCell.head v) [] :=
      LinkedRing.Links.ring_nil LinkedRing.Links.joined_join.next LinkedRing.Links.joined_join.prev
    have hframe : ∀ c ∈ V.image VmaCell.head, (N.vmaInit v).lNodes.Ring c (cells x c) := by
      intro c hc
      have hgk : VmaCell.head v ∉ c :: cells x c := fun hm => hcell ⟨c, hc, hm⟩
      exact (h.lists.ring c hc).frame hgk hgk
    refine (h.lists.addHead hring hframe fun z hz => List.mem_singleton.1 hz ▸ hcell).congr
      fun c hc => ?_
    rcases Finset.mem_insert.1 hc with rfl | hc
    · rw [Function.update_self, cells, VmState.list, hself]
      rfl
    · obtain ⟨w, hw, rfl⟩ := Finset.mem_image.1 hc
      rw [Function.update_of_ne fun e => hne w hw (VmaCell.head.inj e), cells, VmState.list,
        hvma w hw]
      rfl
  · rcases Finset.mem_insert.1 hw with rfl | hw
    · constructor
      · rw [VmState.list, hself]
        rfl
      · rw [VmState.list, hself]
        exact List.nodup_nil
    · constructor
      · rw [VmState.list, hvma w hw]
        exact (h.listed w hw).toList
      · rw [VmState.list, hvma w hw]
        exact (h.listed w hw).nodup
  · rcases Finset.mem_insert.1 hw with rfl | hw
    · rw [VmState.list, hself]
      exact fun a ha => absurd ha List.not_mem_nil
    · rw [VmState.list, hvma w hw]
      exact h.address w hw

/-- A `vma_t` gets an empty tree and an empty list. -/
theorem vmaInit_holds (h : N.Holds V x) (v : ℕ) : (N.vmaInit v).Holds (insert v V)
    (x.setVma v { x.vmas v with aRoot := .nil, lList := [] }) := by
  by_cases hv : v ∈ V
  · -- the areas that it had are in no list any more
    have hnew := vmaInit_holds_new (h.mono (Finset.erase_subset v V)) (Finset.notMem_erase v V)
    rwa [Finset.insert_erase hv, ← Finset.insert_eq_self.2 hv] at hnew
  · exact vmaInit_holds_new h hv

/-- The calls that write nodes. -/
inductive Call
  | vmaInit (vma : ℕ)
  | areaInit (vmaArea : ℕ) (area : VmaArea)
  | areaDeinit (vmaArea : ℕ)
  | hang (vma vmaArea : ℕ)
  | unhang (vma vmaArea : ℕ)

/-- A `vma_area_t` of zeros. -/
def zeroArea : VmaArea := ⟨.kernel, 0, 0, 0, none, 0⟩

/-- A call, and its return value, for address spaces that are trees and lists. -/
def Call.exec (x : VmState A) : Call → ℤ × VmState A
  | .vmaInit vma => (0, x.setVma vma { x.vmas vma with aRoot := .nil, lList := [] })
  | .areaInit vmaArea area => (0, x.setArea vmaArea area)
  | .areaDeinit vmaArea => (0, x.setArea vmaArea zeroArea)
  | .hang vma vmaArea => x.vmaAreaHang vma vmaArea
  | .unhang vma vmaArea => (0, x.vmaAreaUnhang vma vmaArea)

/-- The same call for the objects in memory; no loop of it takes more than `n` rounds. -/
def Call.write (n : ℕ) (areas : ℕ → VmaArea) (N : VmaNodes) :
    Call → Option (ℤ × (ℕ → VmaArea) × VmaNodes)
  | .vmaInit vma => some (0, areas, N.vmaInit vma)
  | .areaInit vmaArea area =>
      some (0, Function.update areas vmaArea area, N.vmaAreaValInit vmaArea)
  | .areaDeinit vmaArea =>
      some (0, Function.update areas vmaArea zeroArea, N.vmaAreaValDeinit vmaArea)
  | .hang vma vmaArea => (N.vmaAreaHang areas n vma vmaArea).map fun r => (r.1, areas, r.2)
  | .unhang vma vmaArea => (N.vmaAreaUnhang n vma vmaArea).map fun N => (0, areas, N)

/-- What a program may call.  A `vma_t` is set up at any time, when it is new or when it is used
again; an area is written only while it is in no list. -/
def Call.Legal (V : Finset ℕ) (x : VmState A) : Call → Prop
  | .vmaInit _ => True
  | .areaInit vmaArea _ => ∀ w ∈ V, vmaArea ∉ x.list w
  | .areaDeinit vmaArea => ∀ w ∈ V, vmaArea ∉ x.list w
  | .hang vma vmaArea => vma ∈ V ∧ (∀ w ∈ V, vmaArea ∉ x.list w) ∧ 0 < vmaArea ∧ vmaArea < 2 ^ 64
  | .unhang vma vmaArea => vma ∈ V ∧ vmaArea ∈ x.list vma

/-- The address spaces there are after a call. -/
def Call.vmas (V : Finset ℕ) : Call → Finset ℕ
  | .vmaInit vma => insert vma V
  | _ => V

/-- The return values of some calls, and the address spaces after them. -/
def runCalls (x : VmState A) : List Call → List ℤ × VmState A
  | [] => ([], x)
  | c :: cs => ((c.exec x).1 :: (runCalls (c.exec x).2 cs).1, (runCalls (c.exec x).2 cs).2)

/-- The same calls for the objects in memory. -/
def runWrites (n : ℕ) (areas : ℕ → VmaArea) (N : VmaNodes) :
    List Call → Option (List ℤ × (ℕ → VmaArea) × VmaNodes)
  | [] => some ([], areas, N)
  | c :: cs => do
    let (ret, areas, N) ← c.write n areas N
    let (rets, areas, N) ← runWrites n areas N cs
    return (ret :: rets, areas, N)

/-- Each call is legal where it is made. -/
def LegalCalls (V : Finset ℕ) (x : VmState A) : List Call → Prop
  | [] => True
  | c :: cs => c.Legal V x ∧ LegalCalls (c.vmas V) (c.exec x).2 cs

instance Call.Legal.decidable (V : Finset ℕ) (x : VmState A) :
    (c : Call) → Decidable (c.Legal V x)
  | .vmaInit _ => inferInstanceAs (Decidable True)
  | .areaInit vmaArea _ => inferInstanceAs (Decidable (∀ w ∈ V, vmaArea ∉ x.list w))
  | .areaDeinit vmaArea => inferInstanceAs (Decidable (∀ w ∈ V, vmaArea ∉ x.list w))
  | .hang vma vmaArea => inferInstanceAs (Decidable
      (vma ∈ V ∧ (∀ w ∈ V, vmaArea ∉ x.list w) ∧ 0 < vmaArea ∧ vmaArea < 2 ^ 64))
  | .unhang vma vmaArea => inferInstanceAs (Decidable (vma ∈ V ∧ vmaArea ∈ x.list vma))

instance LegalCalls.decidable (V : Finset ℕ) (x : VmState A) :
    (cs : List Call) → Decidable (LegalCalls V x cs)
  | [] => inferInstanceAs (Decidable True)
  | c :: cs =>
    have := LegalCalls.decidable (c.vmas V) (c.exec x).2 cs
    inferInstanceAs (Decidable (c.Legal V x ∧ LegalCalls (c.vmas V) (c.exec x).2 cs))

/-- The address spaces there are after some calls. -/
def vmasAfter (V : Finset ℕ) : List Call → Finset ℕ
  | [] => V
  | c :: cs => vmasAfter (c.vmas V) cs

/-- A legal call writes the nodes as it should. -/
theorem write_holds (h : N.Holds V x) {c : Call} (hc : c.Legal V x) (hn : 92 ≤ n) :
    ∃ N', c.write n x.areas N = some ((c.exec x).1, (c.exec x).2.areas, N') ∧
      N'.Holds (c.vmas V) (c.exec x).2 := by
  cases c with
  | vmaInit v => exact ⟨_, rfl, vmaInit_holds h v⟩
  | areaInit a area =>
    refine ⟨_, rfl, h.write hc (fun z hz => ⟨rfl, rfl, ?_, rfl⟩) rfl rfl rfl⟩
    exact Function.update_of_ne hz ..
  | areaDeinit a =>
    refine ⟨_, rfl, h.write hc (fun z hz => ?_) rfl rfl rfl⟩
    exact ⟨Function.update_of_ne hz .., Function.update_of_ne hz .., Function.update_of_ne hz ..,
      Function.update_of_ne hz ..⟩
  | hang v a =>
    obtain ⟨N', hN, hholds⟩ := vmaAreaHang_holds h hc.1 hc.2.1 hc.2.2 hn
    refine ⟨N', ?_, hholds⟩
    rw [Call.write, hN]
    have hareas : (x.vmaAreaHang v a).2.areas = x.areas := by
      unfold VmState.vmaAreaHang
      split <;> rfl
    rw [Call.exec, hareas]
    rfl
  | unhang v a =>
    obtain ⟨N', hN, hholds⟩ := vmaAreaUnhang_holds h hc.1 hc.2 hn
    refine ⟨N', ?_, hholds⟩
    rw [Call.write, hN]
    rfl

/-- So does a run of legal calls. -/
theorem runWrites_holds (h : N.Holds V x) {cs : List Call} (hcs : LegalCalls V x cs)
    (hn : 92 ≤ n) : ∃ N',
    runWrites n x.areas N cs = some ((runCalls x cs).1, (runCalls x cs).2.areas, N') ∧
      N'.Holds (vmasAfter V cs) (runCalls x cs).2 := by
  induction cs generalizing V x N with
  | nil => exact ⟨N, rfl, h⟩
  | cons c cs ih =>
    obtain ⟨N1, h1, hN1⟩ := write_holds h hcs.1 hn
    obtain ⟨N2, h2, hN2⟩ := ih hN1 hcs.2
    refine ⟨N2, ?_, hN2⟩
    rw [runWrites, h1]
    show (runWrites n _ N1 cs >>= _) = _
    rw [h2]
    rfl

/-- At boot there is no address space, whatever is in memory. -/
theorem holds_boot (N : VmaNodes) (x : VmState A.withAvl) : N.Holds ∅ x := by
  refine ⟨fun v hv => absurd hv (Finset.notMem_empty v), ⟨fun c hc => ?_, fun c hc => ?_⟩,
    fun v hv => absurd hv (Finset.notMem_empty v), fun v hv => absurd hv (Finset.notMem_empty v)⟩
  · simp at hc
  · simp at hc

/-- From boot on, the nodes in memory are those of the trees and the lists. -/
theorem run_holds (N : VmaNodes) (x : VmState A.withAvl) {cs : List Call}
    (hcs : LegalCalls ∅ x cs) (hn : 92 ≤ n) : ∃ N',
    runWrites n x.areas N cs = some ((runCalls x cs).1, (runCalls x cs).2.areas, N') ∧
      N'.Holds (vmasAfter ∅ cs) (runCalls x cs).2 :=
  runWrites_holds (holds_boot N x) hcs hn

/-- Memory before boot. -/
def reset : VmaNodes := ⟨fun _ => none, fun _ => none, fun _ => none, fun _ => 0, fun _ => none,
  ⟨fun _ => .null, fun _ => .null⟩⟩

/-- Two areas are hung into an address space, the second before the first.  Both are taken out and
one is written anew, and the `vma_t` is used again. -/
def twoAreas : List Call :=
  [.vmaInit 1, .areaInit 64 ⟨.io, 4096, 4096, 0, none, 0⟩, .hang 1 64,
    .areaInit 128 ⟨.io, 0, 4096, 0, none, 0⟩, .hang 1 128, .unhang 1 64, .areaDeinit 64,
    .unhang 1 128, .vmaInit 1, .areaInit 64 ⟨.io, 8192, 4096, 0, none, 0⟩, .hang 1 64]

theorem run_holds_two_areas : LegalCalls ∅ avlMachineReset twoAreas ∧
    (runCalls avlMachineReset (twoAreas.take 5)).2.list 1 = [128, 64] ∧
    (runCalls avlMachineReset twoAreas).2.list 1 = [64] ∧
    ∃ N', runWrites 92 avlMachineReset.areas reset twoAreas =
      some ((runCalls avlMachineReset twoAreas).1,
        (runCalls avlMachineReset twoAreas).2.areas, N') ∧
      N'.Holds (vmasAfter ∅ twoAreas) (runCalls avlMachineReset twoAreas).2 :=
  ⟨by decide, by decide, by decide, run_holds reset avlMachineReset (by decide) (Nat.le_refl 92)⟩

end VmaNodes

end AcoOs
