/-
The nodes of `avlmini.c`.

A node keeps its height beside its links.  A function that reads through a `NULL` pointer, or whose
`ASSERTION` fails, has no result, and neither has a loop that does not end in the given number of
rounds.  The loops go up from the node that was linked or taken out; what they make of the tree is
`Path.climb`.

* **`avlNodeRebalance_spec`** — the loop after a removal, for a subtree whose height may have
  changed by one in either direction;
* **`avlNodePostInsertLoop_spec`** — the loop after an insertion, for a subtree that may be higher
  by one.
-/
import AcoOs.AvlBalance
import AcoOs.LinkedTree

open LinkedTree

/-- The nodes: their links and their heights. -/
structure AvlNodes (ι : Type*) extends Links ι where
  height : ι → ℤ

namespace AvlNodes

variable {ι : Type*} [DecidableEq ι]

/-- `_avl_node_rotate_left`. -/
def avlNodeRotateLeft (L : Links ι) (node : ι) : Option (Links ι × ι) := do
  -- `right` is read through before the assertion that it is not `NULL`
  let right ← L.right node
  let parent := L.parent node
  let L := L.setRight node (L.left right)
  let L := L.setParentOf (L.left right) (some node)
  let L := L.setLeft right (some node)
  let L := L.setParent right parent
  let L := L.replaceChild node (some right) parent
  let L := L.setParent node (some right)
  return (L, right)

/-- `_avl_node_rotate_right`. -/
def avlNodeRotateRight (L : Links ι) (node : ι) : Option (Links ι × ι) := do
  let left ← L.left node
  let parent := L.parent node
  let L := L.setLeft node (L.right left)
  let L := L.setParentOf (L.right left) (some node)
  let L := L.setRight left (some node)
  let L := L.setParent left parent
  let L := L.replaceChild node (some left) parent
  let L := L.setParent node (some left)
  return (L, left)

/-- Other links and the same heights. -/
def withLinks (M : AvlNodes ι) (L : Links ι) : AvlNodes ι := { M with toLinks := L }

/-- Write the height of a node. -/
def setHeight (M : AvlNodes ι) (x : ι) (v : ℤ) : AvlNodes ι :=
  { M with height := Function.update M.height x v }

/-- The height that a pointer to a child stands for. -/
def childHeight (h : ι → ℤ) : Option ι → ℤ
  | none => 0
  | some x => h x

/-- `AVL_LEFT_HEIGHT`. -/
def leftHeight (M : AvlNodes ι) (node : ι) : ℤ := childHeight M.height (M.left node)

/-- `AVL_RIGHT_HEIGHT`. -/
def rightHeight (M : AvlNodes ι) (node : ι) : ℤ := childHeight M.height (M.right node)

/-- `_avl_node_height_update`. -/
def avlNodeHeightUpdate (M : AvlNodes ι) (node : ι) : AvlNodes ι :=
  M.setHeight node (max (M.leftHeight node) (M.rightHeight node) + 1)

/-- `_avl_node_fix_l`. -/
def avlNodeFixL (M : AvlNodes ι) (node : ι) : Option (AvlNodes ι × ι) := do
  let right ← M.right node
  let rh0 := M.leftHeight right
  let rh1 := M.rightHeight right
  let M ←
    if rh1 < rh0 then do
      let (L, right) ← avlNodeRotateRight M.toLinks right
      let M := M.withLinks L
      let M := M.avlNodeHeightUpdate (← M.right right)
      pure (M.avlNodeHeightUpdate right)
    else pure M
  let (L, node) ← avlNodeRotateLeft M.toLinks node
  let M := M.withLinks L
  let M := M.avlNodeHeightUpdate (← M.left node)
  let M := M.avlNodeHeightUpdate node
  return (M, node)

/-- `_avl_node_fix_r`. -/
def avlNodeFixR (M : AvlNodes ι) (node : ι) : Option (AvlNodes ι × ι) := do
  let left ← M.left node
  let rh0 := M.leftHeight left
  let rh1 := M.rightHeight left
  let M ←
    if rh0 < rh1 then do
      let (L, left) ← avlNodeRotateLeft M.toLinks left
      let M := M.withLinks L
      let M := M.avlNodeHeightUpdate (← M.left left)
      pure (M.avlNodeHeightUpdate left)
    else pure M
  let (L, node) ← avlNodeRotateRight M.toLinks node
  let M := M.withLinks L
  let M := M.avlNodeHeightUpdate (← M.right node)
  let M := M.avlNodeHeightUpdate node
  return (M, node)

/-- The end of the body of both loops: fix a node whose children differ by `diff`. -/
def avlNodeFix (M : AvlNodes ι) (node : ι) (diff : ℤ) : Option (AvlNodes ι × ι) :=
  if diff ≤ -2 then M.avlNodeFixL node
  else if 2 ≤ diff then M.avlNodeFixR node
  else some (M, node)

/-- `_avl_node_rebalance`, in at most `n` rounds. -/
def avlNodeRebalance : ℕ → AvlNodes ι → Option ι → Option (AvlNodes ι)
  | _, M, none => some M
  | 0, _, some _ => none
  | n + 1, M, some node =>
    let h0 := M.leftHeight node
    let h1 := M.rightHeight node
    let diff := h0 - h1
    let height := max h0 h1 + 1
    if M.height node ≠ height then do
      let (M, node) ← (M.setHeight node height).avlNodeFix node diff
      avlNodeRebalance n M (M.parent node)
    else if -1 ≤ diff ∧ diff ≤ 1 then some M
    else do
      let (M, node) ← M.avlNodeFix node diff
      avlNodeRebalance n M (M.parent node)

/-- The loop of `avl_node_post_insert`. -/
def avlNodePostInsertLoop : ℕ → AvlNodes ι → Option ι → Option (AvlNodes ι)
  | _, M, none => some M
  | 0, _, some _ => none
  | n + 1, M, some node =>
    let h0 := M.leftHeight node
    let h1 := M.rightHeight node
    let height := max h0 h1 + 1
    let diff := h0 - h1
    if M.height node = height then some M
    else do
      let (M, node) ← (M.setHeight node height).avlNodeFix node diff
      avlNodePostInsertLoop n M (M.parent node)

/-- `avl_node_post_insert`. -/
def avlNodePostInsert (n : ℕ) (M : AvlNodes ι) (node : ι) : Option (AvlNodes ι) :=
  avlNodePostInsertLoop n (M.setHeight node 1) (M.parent node)

/-- The part of `avl_node_erase` that puts `node` in the place of `old`. -/
def avlNodeTakePlace (M : AvlNodes ι) (old node : ι) : Option (AvlNodes ι) := do
  let L := M.toLinks.setLeft node (M.left old)
  let L := L.setRight node (L.right old)
  let L := L.setParent node (L.parent old)
  let M := (M.withLinks L).setHeight node (M.height old)
  let L := M.toLinks.replaceChild old (some node) (M.parent old)
  -- `old->left` is asserted
  let left ← L.left old
  let L := L.setParent left (some node)
  let L := L.setParentOf (L.right old) (some node)
  return M.withLinks L

/-- `avl_node_erase` up to its loop: take out the node, or the next one behind it, which is put in
its place.  The result is the node from which on the heights have changed. -/
def avlNodeUnlink (n : ℕ) (M : AvlNodes ι) (node : ι) : Option (AvlNodes ι × Option ι) :=
  match M.left node, M.right node with
  | some _, some right => do
    let old := node
    let node ← Links.sink M.left n right
    let child := M.right node
    let parent := M.parent node
    let L := M.toLinks.setParentOf child parent
    let L := L.replaceChild node child parent
    let parent := if L.parent node = some old then some node else parent
    let M ← (M.withLinks L).avlNodeTakePlace old node
    return (M, parent)
  | left, right =>
    let child := if left = none then right else left
    let parent := M.parent node
    let L := M.toLinks.replaceChild node child parent
    let L := L.setParentOf child parent
    some (M.withLinks L, parent)

/-- `avl_node_erase`. -/
def avlNodeErase (n : ℕ) (M : AvlNodes ι) (node : ι) : Option (AvlNodes ι) := do
  let (M, parent) ← M.avlNodeUnlink n node
  avlNodeRebalance n M parent

/-- `avl_node_replace`. -/
def avlNodeReplace (M : AvlNodes ι) (victim newnode : ι) : AvlNodes ι :=
  let parent := M.parent victim
  let L := M.toLinks.replaceChild victim (some newnode) parent
  let L := L.setParentOf (L.left victim) (some newnode)
  let L := L.setParentOf (L.right victim) (some newnode)
  let L := L.setLeft newnode (L.left victim)
  let L := L.setRight newnode (L.right victim)
  let L := L.setParent newnode (L.parent victim)
  (M.withLinks L).setHeight newnode (M.height victim)

end AvlNodes

open SearchTree

namespace AvlNodes

section Heights

variable {ι : Type*}

/-- The heights of a subtree are right. -/
def HeightsOk (h : ι → ℤ) : SearchTree ι → Prop
  | .nil => True
  | .node l x r => h x = (SearchTree.node l x r).height ∧ HeightsOk h l ∧ HeightsOk h r

/-- The heights around a hole are right for a subtree of height `k`. -/
def HeightsAround (h : ι → ℤ) : Path ι → ℕ → Prop
  | .root, _ => True
  | .left x r up, k => h x = (max k r.height + 1 : ℕ) ∧ HeightsOk h r ∧
      HeightsAround h up (max k r.height + 1)
  | .right l x up, k => h x = (max l.height k + 1 : ℕ) ∧ HeightsOk h l ∧
      HeightsAround h up (max l.height k + 1)

variable {h h' : ι → ℤ} {p : Path ι} {t : SearchTree ι} {k : ℕ}

theorem heightsOk_plug : HeightsOk h (p.plug t) ↔ HeightsAround h p t.height ∧ HeightsOk h t := by
  induction p generalizing t with
  | root => simp [HeightsAround]
  | left x r up ih =>
    rw [Path.plug, ih, HeightsAround, HeightsOk, SearchTree.height]
    tauto
  | right l x up ih =>
    rw [Path.plug, ih, HeightsAround, HeightsOk, SearchTree.height]
    tauto

theorem HeightsOk.congr (hk : HeightsOk h t) (hs : ∀ z ∈ t.toList, h' z = h z) :
    HeightsOk h' t := by
  induction t with
  | nil => trivial
  | node l x r ihl ihr =>
    simp only [mem_node] at hs
    exact ⟨(hs x (.inr (.inl rfl))).trans hk.1, ihl hk.2.1 fun z hz => hs z (.inl hz),
      ihr hk.2.2 fun z hz => hs z (.inr (.inr hz))⟩

theorem HeightsOk.unique (hk : HeightsOk h t) (hk' : HeightsOk h' t) :
    ∀ z ∈ t.toList, h' z = h z := by
  induction t with
  | nil => exact fun z hz => absurd hz List.not_mem_nil
  | node l x r ihl ihr =>
    intro z hz
    rw [mem_node] at hz
    rcases hz with hz | rfl | hz
    · exact ihl hk.2.1 hk'.2.1 z hz
    · exact hk'.1.trans hk.1.symm
    · exact ihr hk.2.2 hk'.2.2 z hz

theorem HeightsAround.congr (hk : HeightsAround h p k) (hs : ∀ z, p.Mem z → h' z = h z) :
    HeightsAround h' p k := by
  induction p generalizing k with
  | root => trivial
  | left x r up ih =>
    simp only [Path.mem_left] at hs
    exact ⟨(hs x (.inl rfl)).trans hk.1, hk.2.1.congr fun z hz => hs z (.inr (.inl hz)),
      ih hk.2.2 fun z hz => hs z (.inr (.inr hz))⟩
  | right l x up ih =>
    simp only [Path.mem_right] at hs
    exact ⟨(hs x (.inl rfl)).trans hk.1, hk.2.1.congr fun z hz => hs z (.inr (.inl hz)),
      ih hk.2.2 fun z hz => hs z (.inr (.inr hz))⟩

theorem HeightsOk.childHeight (hk : HeightsOk h t) : childHeight h t.top = t.height := by
  cases t with
  | nil => rfl
  | node l x r => exact hk.1

end Heights

variable {ι : Type*} [DecidableEq ι] {M M' M'' : AvlNodes ι} {L : Links ι} {p : Path ι}
  {l m r t t' : SearchTree ι} {x y z : ι} {k n : ℕ} {c : Option ι}

section Fields

variable {v : ℤ}

omit [DecidableEq ι] in
@[simp] theorem withLinks_toLinks : (M.withLinks L).toLinks = L := by rw [withLinks]

omit [DecidableEq ι] in
@[simp] theorem withLinks_height : (M.withLinks L).height = M.height := rfl

@[simp] theorem setHeight_height : (M.setHeight x v).height z = if z = x then v else M.height z :=
  Function.update_apply ..

@[simp] theorem avlNodeHeightUpdate_toLinks : (M.avlNodeHeightUpdate x).toLinks = M.toLinks := by
  rw [avlNodeHeightUpdate, setHeight]

end Fields

/-! ### Rotations -/

theorem avlNodeRotateLeft_eq (h : L.right x = some y) :
    avlNodeRotateLeft L x = some (L.rotateLeft x y, y) := by
  rw [avlNodeRotateLeft, h]
  rfl

theorem avlNodeRotateRight_eq (h : L.left x = some y) :
    avlNodeRotateRight L x = some (L.rotateRight x y, y) := by
  rw [avlNodeRotateRight, h]
  rfl

/-- A subtree is rebuilt: the links around it and the heights outside of it stay. -/
structure Turns (M M' : AvlNodes ι) (p : Path ι) (t t' : SearchTree ι) : Prop where
  links : M'.toLinks.At p t'
  heights : HeightsOk M'.height t'
  sameHeight : ∀ z ∉ t.toList, M'.height z = M.height z
  same : ∀ z ∉ (p.plug t).toList, M.Same M'.toLinks z

theorem avlNodeHeightUpdate_eq (h : M.Subtree (.node l x r) c) (hl : HeightsOk M.height l)
    (hr : HeightsOk M.height r) :
    M.avlNodeHeightUpdate x = M.setHeight x (SearchTree.node l x r).height := by
  obtain ⟨-, h2, h3, -⟩ := h
  rw [avlNodeHeightUpdate, leftHeight, rightHeight, h2, h3, hl.childHeight, hr.childHeight,
    SearchTree.height]
  norm_cast

theorem heightsOk_setHeight (hn : (SearchTree.node l x r).toList.Nodup)
    (hl : HeightsOk M.height l) (hr : HeightsOk M.height r) :
    HeightsOk (M.setHeight x (SearchTree.node l x r).height).height (.node l x r) := by
  obtain ⟨-, -, hxl, hxr, -⟩ := nodup_node.1 hn
  refine ⟨by simp, hl.congr fun z hz => ?_, hr.congr fun z hz => ?_⟩
  · have hzx : z ≠ x := fun e => hxl (e ▸ hz)
    rw [setHeight_height, if_neg hzx]
  · have hzx : z ≠ x := fun e => hxr (e ▸ hz)
    rw [setHeight_height, if_neg hzx]

/-- The children of a rebuilt subtree have their heights, and the last height is written. -/
theorem turns_update (hM : M'.At p (.node l x r)) (hl : HeightsOk M'.height l)
    (hr : HeightsOk M'.height r) (hmem : x ∈ t.toList)
    (hh : ∀ z ∉ t.toList, M'.height z = M.height z)
    (hs : ∀ z ∉ (p.plug t).toList, M.Same M'.toLinks z) :
    M.Turns (M'.avlNodeHeightUpdate x) p t (.node l x r) := by
  rw [avlNodeHeightUpdate_eq hM.subtree hl hr]
  refine ⟨hM, heightsOk_setHeight (Path.nodup_plug.1 hM.nodup).2.1 hl hr, fun z hz => ?_, hs⟩
  have hzx : z ≠ x := fun e => hz (e ▸ hmem)
  rw [setHeight_height, if_neg hzx, hh z hz]

omit [DecidableEq ι] in
/-- The right subtree of a node is rebuilt, and then the subtree of that node. -/
theorem Turns.trans_right (h : M.Turns M' (.right l x p) t t')
    (h' : M'.Turns M'' p (.node l x t') m) (ht : ∀ z ∈ t'.toList, z ∈ t.toList) :
    M.Turns M'' p (.node l x t) m := by
  refine ⟨h'.links, h'.heights, fun z hz => ?_, fun z hz => ?_⟩
  · rw [mem_node, not_or, not_or] at hz
    refine (h'.sameHeight z ?_).trans (h.sameHeight z hz.2.2)
    rw [mem_node]
    tauto
  · refine (h.same z hz).trans (h'.same z fun hm => hz ?_)
    rw [Path.mem_plug, mem_node] at hm ⊢
    tauto

omit [DecidableEq ι] in
theorem Turns.trans_left (h : M.Turns M' (.left x r p) t t')
    (h' : M'.Turns M'' p (.node t' x r) m) (ht : ∀ z ∈ t'.toList, z ∈ t.toList) :
    M.Turns M'' p (.node t x r) m := by
  refine ⟨h'.links, h'.heights, fun z hz => ?_, fun z hz => ?_⟩
  · rw [mem_node, not_or, not_or] at hz
    refine (h'.sameHeight z ?_).trans (h.sameHeight z hz.1)
    rw [mem_node]
    tauto
  · refine (h.same z hz).trans (h'.same z fun hm => hz ?_)
    rw [Path.mem_plug, mem_node] at hm ⊢
    tauto

/-- The end of a fix to the left: rotate, and update the heights of the two nodes. -/
theorem turns_rotateLeft (h : M.At p (.node l x (.node m y r))) (hl : HeightsOk M.height l)
    (hm : HeightsOk M.height m) (hr : HeightsOk M.height r) :
    M.Turns (((M.withLinks (M.toLinks.rotateLeft x y)).avlNodeHeightUpdate x).avlNodeHeightUpdate y)
      p (.node l x (.node m y r)) (.node (.node l x m) y r) := by
  have hrot := h.rotateLeft
  have hn := nodup_node.1 (Path.nodup_plug.1 hrot.nodup).2.1
  have hx := avlNodeHeightUpdate_eq (M := M.withLinks (M.toLinks.rotateLeft x y))
    hrot.subtree.2.2.2.1 hl hm
  rw [hx]
  refine turns_update hrot (heightsOk_setHeight hn.1 hl hm) (hr.congr fun z hz => ?_) ?_
    (fun z hz => ?_) fun z hz => h.same_rotateLeft hz
  · have hzx : z ≠ x := fun e => hn.2.2.2.2 x (mem_node.2 (.inr (.inl rfl))) (e ▸ hz)
    rw [setHeight_height, if_neg hzx]
    rfl
  · exact mem_node.2 (.inr (.inr (mem_node.2 (.inr (.inl rfl)))))
  · have hzx : z ≠ x := fun e => hz (mem_node.2 (.inr (.inl e)))
    rw [setHeight_height, if_neg hzx]
    rfl

/-- The end of a fix to the right. -/
theorem turns_rotateRight (h : M.At p (.node (.node l y m) x r)) (hl : HeightsOk M.height l)
    (hm : HeightsOk M.height m) (hr : HeightsOk M.height r) :
    M.Turns (((M.withLinks (M.toLinks.rotateRight x y)).avlNodeHeightUpdate x).avlNodeHeightUpdate
      y) p (.node (.node l y m) x r) (.node l y (.node m x r)) := by
  have hrot := h.rotateRight
  have hn := nodup_node.1 (Path.nodup_plug.1 hrot.nodup).2.1
  have hx := avlNodeHeightUpdate_eq (M := M.withLinks (M.toLinks.rotateRight x y))
    hrot.subtree.2.2.2.2 hm hr
  rw [hx]
  refine turns_update hrot (hl.congr fun z hz => ?_) (heightsOk_setHeight hn.2.1 hm hr) ?_
    (fun z hz => ?_) fun z hz => h.same_rotateRight hz
  · have hzx : z ≠ x := fun e => hn.2.2.2.2 z hz (e ▸ mem_node.2 (.inr (.inl rfl)))
    rw [setHeight_height, if_neg hzx]
    rfl
  · exact mem_node.2 (.inl (mem_node.2 (.inr (.inl rfl))))
  · have hzx : z ≠ x := fun e => hz (mem_node.2 (.inr (.inl e)))
    rw [setHeight_height, if_neg hzx]
    rfl

/-! ### One node is fixed -/

/-- `_avl_node_fix_l` of a node whose right child is the higher one. -/
theorem avlNodeFixL_spec (h : M.At p (.node l x r)) (hl : HeightsOk M.height l)
    (hr : HeightsOk M.height r) (hlt : l.height < r.height) : ∃ M' y,
    M.avlNodeFixL x = some (M', y) ∧ (SearchTree.avlNodeFixL l x r).top = some y ∧
      M.Turns M' p (.node l x r) (SearchTree.avlNodeFixL l x r) := by
  cases r with
  | nil => simp [SearchTree.height] at hlt
  | node rl y rr =>
    obtain ⟨-, hrl, hrr⟩ := hr
    obtain ⟨-, hx2, hx3, hls, hy1, hy2, hy3, hrls, hrrs⟩ := h.subtree
    have hlh : M.leftHeight y = rl.height := by rw [leftHeight, hy2, hrl.childHeight]
    have hrh : M.rightHeight y = rr.height := by rw [rightHeight, hy3, hrr.childHeight]
    rw [avlNodeFixL, hx3, SearchTree.avlNodeFixL]
    simp only [top_node, Option.bind_eq_bind, Option.bind_some, Option.pure_def, hlh, hrh,
      Nat.cast_lt]
    split_ifs with hd
    · -- the right child leans to the left
      cases rl with
      | nil => simp [SearchTree.height] at hd
      | node m z m' =>
        obtain ⟨-, hm, hm'⟩ := hrl
        have ht1 := turns_rotateRight (Links.at_right.2 h) hm hm' hrr
        have hat1 := Links.at_right.1 ht1.links
        have hdis := (nodup_node.1 (Path.nodup_plug.1 h.nodup).2.1).2.2.2.2
        have hl1 := hl.congr fun w hw => ht1.sameHeight w (hdis w hw)
        have ht2 := turns_rotateLeft hat1 hl1 ht1.heights.2.1 ht1.heights.2.2
        refine ⟨_, z, ?_, rfl, ht1.trans_right ht2 fun w hw => ?_⟩
        · have hz : (M.toLinks.rotateRight y z).right z = some y := ht1.links.subtree.2.2.1
          have hxz : (M.toLinks.rotateRight y z).right x = some z := hat1.subtree.2.2.1
          have hzx : ((M.toLinks.rotateRight y z).rotateLeft x z).left z = some x :=
            ht2.links.subtree.2.1
          simp only [avlNodeRotateRight_eq hy2, Option.bind_some, withLinks_toLinks, hz,
            avlNodeHeightUpdate_toLinks, avlNodeRotateLeft_eq hxz, hzx]
        · simp only [mem_node] at hw ⊢
          tauto
    · have ht := turns_rotateLeft h hl hrl hrr
      have hy : (M.toLinks.rotateLeft x y).left y = some x := ht.links.subtree.2.1
      refine ⟨_, y, ?_, rfl, ht⟩
      rw [avlNodeRotateLeft_eq hx3]
      simp only [Option.bind_some, withLinks_toLinks, hy]

/-- `_avl_node_fix_r` of a node whose left child is the higher one. -/
theorem avlNodeFixR_spec (h : M.At p (.node l x r)) (hl : HeightsOk M.height l)
    (hr : HeightsOk M.height r) (hlt : r.height < l.height) : ∃ M' y,
    M.avlNodeFixR x = some (M', y) ∧ (SearchTree.avlNodeFixR l x r).top = some y ∧
      M.Turns M' p (.node l x r) (SearchTree.avlNodeFixR l x r) := by
  cases l with
  | nil => simp [SearchTree.height] at hlt
  | node ll y lr =>
    obtain ⟨-, hll, hlr⟩ := hl
    obtain ⟨-, hx2, hx3, ⟨hy1, hy2, hy3, hlls, hlrs⟩, hrs⟩ := h.subtree
    have hlh : M.leftHeight y = ll.height := by rw [leftHeight, hy2, hll.childHeight]
    have hrh : M.rightHeight y = lr.height := by rw [rightHeight, hy3, hlr.childHeight]
    rw [avlNodeFixR, hx2, SearchTree.avlNodeFixR]
    simp only [top_node, Option.bind_eq_bind, Option.bind_some, Option.pure_def, hlh, hrh,
      Nat.cast_lt]
    split_ifs with hd
    · -- the left child leans to the right
      cases lr with
      | nil => simp [SearchTree.height] at hd
      | node m z m' =>
        obtain ⟨-, hm, hm'⟩ := hlr
        have ht1 := turns_rotateLeft (Links.at_left.2 h) hll hm hm'
        have hat1 := Links.at_left.1 ht1.links
        have hdis := (nodup_node.1 (Path.nodup_plug.1 h.nodup).2.1).2.2.2.2
        have hr1 := hr.congr fun w hw => ht1.sameHeight w fun hw' => hdis w hw' hw
        have ht2 := turns_rotateRight hat1 ht1.heights.2.1 ht1.heights.2.2 hr1
        refine ⟨_, z, ?_, rfl, ht1.trans_left ht2 fun w hw => ?_⟩
        · have hz : (M.toLinks.rotateLeft y z).left z = some y := ht1.links.subtree.2.1
          have hxz : (M.toLinks.rotateLeft y z).left x = some z := hat1.subtree.2.1
          have hzx : ((M.toLinks.rotateLeft y z).rotateRight x z).right z = some x :=
            ht2.links.subtree.2.2.1
          simp only [avlNodeRotateLeft_eq hy3, Option.bind_some, withLinks_toLinks, hz,
            avlNodeHeightUpdate_toLinks, avlNodeRotateRight_eq hxz, hzx]
        · simp only [mem_node] at hw ⊢
          tauto
    · have ht := turns_rotateRight h hll hlr hr
      have hy : (M.toLinks.rotateRight x y).right y = some x := ht.links.subtree.2.2.1
      refine ⟨_, y, ?_, rfl, ht⟩
      rw [avlNodeRotateRight_eq hx2]
      simp only [Option.bind_some, withLinks_toLinks, hy]

/-- The fix at the end of a round, for the difference of the heights. -/
theorem avlNodeFix_spec (h : M.At p (.node l x r)) (hk : HeightsOk M.height (.node l x r)) :
    ∃ M' y, M.avlNodeFix x (l.height - r.height) = some (M', y) ∧
      (SearchTree.avlNodeFix l x r).top = some y ∧
      M.Turns M' p (.node l x r) (SearchTree.avlNodeFix l x r) := by
  obtain ⟨-, hl, hr⟩ := id hk
  rw [avlNodeFix, SearchTree.avlNodeFix]
  split_ifs
  · exact avlNodeFixL_spec h hl hr (by omega)
  · omega
  · omega
  · omega
  · exact avlNodeFixR_spec h hl hr (by omega)
  · omega
  · omega
  · omega
  · exact ⟨M, x, rfl, rfl, h, hk, fun _ _ => rfl, fun z _ => Links.Same.refl _ z⟩

/-! ### The loops -/

/-- One round of a loop that does not stop at the node `x`. -/
theorem round_spec (h : M.At p (.node l x r)) (hl : HeightsOk M.height l)
    (hr : HeightsOk M.height r) (ha : HeightsAround M.height p k) : ∃ M' y,
    (M.setHeight x (max (l.height : ℤ) r.height + 1)).avlNodeFix x (l.height - r.height) =
      some (M', y) ∧
      M'.parent y = p.top ∧ HeightsAround M'.height p k ∧
      M.Turns M' p (.node l x r) (SearchTree.avlNodeFix l x r) := by
  obtain ⟨-, hnode, hout⟩ := Path.nodup_plug.1 h.nodup
  have hk := heightsOk_setHeight hnode hl hr
  have hcast : ((SearchTree.node l x r).height : ℤ) = max (l.height : ℤ) r.height + 1 := by
    rw [SearchTree.height]
    norm_cast
  rw [hcast] at hk
  obtain ⟨M', y, h1, h2, h3⟩ := avlNodeFix_spec (M := M.setHeight x _) h hk
  have hsame : ∀ z ∉ (SearchTree.node l x r).toList, M'.height z = M.height z := by
    intro z hz
    have hzx : z ≠ x := fun e => hz (mem_node.2 (.inr (.inl e)))
    rw [h3.sameHeight z hz, setHeight_height, if_neg hzx]
  refine ⟨M', y, h1, h3.links.subtree.parent_top h2, ha.congr fun z hz => hsame z fun hm => ?_,
    h3.links, h3.heights, hsame, h3.same⟩
  exact hout z hm hz

omit [DecidableEq ι] in
/-- A loop may stop when the height has not changed and nothing is to be fixed. -/
theorem turns_stop (h : M.At p (.node l x r)) (hk : HeightsOk M.height (.node l x r))
    (ha : HeightsAround M.height p (SearchTree.node l x r).height)
    (hb : p.Balanced (SearchTree.node l x r).height) (h1 : l.height ≤ r.height + 1)
    (h2 : r.height ≤ l.height + 1) :
    M.Turns M .root (p.plug (.node l x r)) (p.climb (SearchTree.avlNodeFix l x r)) := by
  rw [avlNodeFix_of_near h1 h2, climb_of_balanced hb]
  exact ⟨Links.at_root.2 (Links.holds_plug.2 h), heightsOk_plug.2 ⟨ha, hk⟩, fun _ _ => rfl,
    fun z _ => Links.Same.refl _ z⟩

omit [DecidableEq ι] in
/-- The rounds above a node that was fixed, and the node itself. -/
theorem Turns.climb (h : M.Turns M' p t t') (h' : M'.Turns M'' .root (p.plug t') m)
    (ht : ∀ z, z ∈ t'.toList ↔ z ∈ t.toList) : M.Turns M'' .root (p.plug t) m := by
  refine ⟨h'.links, h'.heights, fun z hz => ?_, fun z hz => ?_⟩
  · have hz' : z ∉ (p.plug t').toList := by rwa [Path.mem_plug, ht, ← Path.mem_plug]
    rw [Path.mem_plug, not_or] at hz
    exact (h'.sameHeight z hz').trans (h.sameHeight z hz.2)
  · have hz' : z ∉ (p.plug t').toList := by rwa [Path.mem_plug, ht, ← Path.mem_plug]
    exact (h.same z hz).trans (h'.same z hz')

/-- One round of `_avl_node_rebalance`, when the rounds above are known. -/
theorem avlNodeRebalance_round (h : M.At p (.node l x r)) (hx : M.height x = k)
    (hl : HeightsOk M.height l) (hr : HeightsOk M.height r) (ha : HeightsAround M.height p k)
    (hb : p.Balanced k)
    (hrec : ∀ M', M'.At p (SearchTree.avlNodeFix l x r) → HeightsAround M'.height p k →
      HeightsOk M'.height (SearchTree.avlNodeFix l x r) →
      ∃ M'', avlNodeRebalance n M' p.top = some M'' ∧
        M'.Turns M'' .root (p.plug (SearchTree.avlNodeFix l x r))
          (p.climb (SearchTree.avlNodeFix l x r))) :
    ∃ M', avlNodeRebalance (n + 1) M (some x) = some M' ∧
      M.Turns M' .root (p.plug (.node l x r)) (p.climb (SearchTree.avlNodeFix l x r)) := by
  obtain ⟨-, h2, h3, -⟩ := h.subtree
  have hlh : M.leftHeight x = l.height := by rw [leftHeight, h2, hl.childHeight]
  have hrh : M.rightHeight x = r.height := by rw [rightHeight, h3, hr.childHeight]
  obtain ⟨M1, y, hfix, hpar, ha1, ht1⟩ := round_spec h hl hr ha
  obtain ⟨M2, hloop, ht2⟩ := hrec M1 ht1.links ha1 ht1.heights
  have hdone := ht1.climb ht2 fun z => by rw [toList_avlNodeFix]; rfl
  rw [avlNodeRebalance, hlh, hrh]
  dsimp only
  split_ifs with hne hnear
  · refine ⟨M2, ?_, hdone⟩
    rw [hfix, Option.bind_eq_bind, Option.bind_some, hpar]
    exact hloop
  · -- the height is the old one and the node is balanced
    have hk : k = (SearchTree.node l x r).height := by
      rw [SearchTree.height]
      omega
    subst hk
    exact ⟨M, rfl, turns_stop h ⟨hx, hl, hr⟩ ha hb (by omega) (by omega)⟩
  · rw [not_not] at hne
    have hset : M.setHeight x (max (l.height : ℤ) r.height + 1) = M := by
      rw [setHeight, ← hne, Function.update_eq_self]
    rw [hset] at hfix
    refine ⟨M2, ?_, hdone⟩
    rw [hfix, Option.bind_eq_bind, Option.bind_some, hpar]
    exact hloop

/-- `_avl_node_rebalance` above a subtree whose height has changed by at most one. -/
theorem avlNodeRebalance_spec (h : M.At p t) (ht : t.Balanced) (hk : HeightsOk M.height t)
    (ha : HeightsAround M.height p k) (hb : p.Balanced k) (h1 : t.height ≤ k + 1)
    (h2 : k ≤ t.height + 1) (hn : p.depth ≤ n) :
    ∃ M', avlNodeRebalance n M p.top = some M' ∧ M.Turns M' .root (p.plug t) (p.climb t) := by
  induction p generalizing M t k n with
  | root =>
    refine ⟨M, by cases n <;> rfl, h, hk, fun _ _ => rfl, fun z _ => Links.Same.refl _ z⟩
  | left x r up ih =>
    obtain ⟨hx, hr, hup⟩ := ha
    obtain ⟨h3, h4, hbr, hbup⟩ := hb
    obtain ⟨h5, h6, h7, h8⟩ := balanced_avlNodeFix (x := x) ht hbr (by omega) (by omega)
    obtain ⟨n, rfl⟩ : ∃ i, n = i + 1 := ⟨n - 1, by rw [Path.depth] at hn; omega⟩
    refine avlNodeRebalance_round (Links.at_left.1 h) hx hk hr hup hbup fun M' i1 i2 i3 => ?_
    exact ih i1 h5 i3 i2 hbup (by omega) (by omega) (Nat.le_of_succ_le_succ hn)
  | right l x up ih =>
    obtain ⟨hx, hl, hup⟩ := ha
    obtain ⟨h3, h4, hbl, hbup⟩ := hb
    obtain ⟨h5, h6, h7, h8⟩ := balanced_avlNodeFix (x := x) hbl ht (by omega) (by omega)
    obtain ⟨n, rfl⟩ : ∃ i, n = i + 1 := ⟨n - 1, by rw [Path.depth] at hn; omega⟩
    refine avlNodeRebalance_round (Links.at_right.1 h) hx hl hk hup hbup fun M' i1 i2 i3 => ?_
    exact ih i1 h5 i3 i2 hbup (by omega) (by omega) (Nat.le_of_succ_le_succ hn)

/-- One round of `avl_node_post_insert`, where the old height tells that nothing is to be fixed. -/
theorem avlNodePostInsert_round (h : M.At p (.node l x r)) (hx : M.height x = k)
    (hl : HeightsOk M.height l) (hr : HeightsOk M.height r) (ha : HeightsAround M.height p k)
    (hb : p.Balanced k) (hold : k = (SearchTree.node l x r).height →
      l.height ≤ r.height + 1 ∧ r.height ≤ l.height + 1)
    (hrec : ∀ M', M'.At p (SearchTree.avlNodeFix l x r) → HeightsAround M'.height p k →
      HeightsOk M'.height (SearchTree.avlNodeFix l x r) →
      ∃ M'', avlNodePostInsertLoop n M' p.top = some M'' ∧
        M'.Turns M'' .root (p.plug (SearchTree.avlNodeFix l x r))
          (p.climb (SearchTree.avlNodeFix l x r))) :
    ∃ M', avlNodePostInsertLoop (n + 1) M (some x) = some M' ∧
      M.Turns M' .root (p.plug (.node l x r)) (p.climb (SearchTree.avlNodeFix l x r)) := by
  obtain ⟨-, h2, h3, -⟩ := h.subtree
  have hlh : M.leftHeight x = l.height := by rw [leftHeight, h2, hl.childHeight]
  have hrh : M.rightHeight x = r.height := by rw [rightHeight, h3, hr.childHeight]
  rw [avlNodePostInsertLoop, hlh, hrh]
  dsimp only
  split_ifs with heq
  · have hk : k = (SearchTree.node l x r).height := by
      rw [SearchTree.height]
      omega
    obtain ⟨h4, h5⟩ := hold hk
    subst hk
    exact ⟨M, rfl, turns_stop h ⟨hx, hl, hr⟩ ha hb h4 h5⟩
  · obtain ⟨M1, y, hfix, hpar, ha1, ht1⟩ := round_spec h hl hr ha
    obtain ⟨M2, hloop, ht2⟩ := hrec M1 ht1.links ha1 ht1.heights
    refine ⟨M2, ?_, ht1.climb ht2 fun z => by rw [toList_avlNodeFix]; rfl⟩
    rw [hfix, Option.bind_eq_bind, Option.bind_some, hpar]
    exact hloop

/-- The loop of `avl_node_post_insert` above a subtree that may be higher by one. -/
theorem avlNodePostInsertLoop_spec (h : M.At p t) (ht : t.Balanced) (hk : HeightsOk M.height t)
    (ha : HeightsAround M.height p k) (hb : p.Balanced k) (h1 : t.height ≤ k + 1)
    (h2 : k ≤ t.height) (hn : p.depth ≤ n) :
    ∃ M', avlNodePostInsertLoop n M p.top = some M' ∧
      M.Turns M' .root (p.plug t) (p.climb t) := by
  induction p generalizing M t k n with
  | root =>
    refine ⟨M, by cases n <;> rfl, h, hk, fun _ _ => rfl, fun z _ => Links.Same.refl _ z⟩
  | left x r up ih =>
    obtain ⟨hx, hr, hup⟩ := ha
    obtain ⟨h3, h4, hbr, hbup⟩ := hb
    obtain ⟨h5, h6, h7, h8⟩ := balanced_avlNodeFix (x := x) ht hbr (by omega) (by omega)
    obtain ⟨n, rfl⟩ : ∃ i, n = i + 1 := ⟨n - 1, by rw [Path.depth] at hn; omega⟩
    refine avlNodePostInsert_round (Links.at_left.1 h) hx hk hr hup hbup (fun he => ?_)
      fun M' i1 i2 i3 => ?_
    · rw [SearchTree.height] at he
      omega
    · exact ih i1 h5 i3 i2 hbup (by omega) (by omega) (Nat.le_of_succ_le_succ hn)
  | right l x up ih =>
    obtain ⟨hx, hl, hup⟩ := ha
    obtain ⟨h3, h4, hbl, hbup⟩ := hb
    obtain ⟨h5, h6, h7, h8⟩ := balanced_avlNodeFix (x := x) hbl ht (by omega) (by omega)
    obtain ⟨n, rfl⟩ : ∃ i, n = i + 1 := ⟨n - 1, by rw [Path.depth] at hn; omega⟩
    refine avlNodePostInsert_round (Links.at_right.1 h) hx hl hk hup hbup (fun he => ?_)
      fun M' i1 i2 i3 => ?_
    · rw [SearchTree.height] at he
      omega
    · exact ih i1 h5 i3 i2 hbup (by omega) (by omega) (Nat.le_of_succ_le_succ hn)

end AvlNodes
