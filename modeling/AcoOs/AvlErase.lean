/-
Nodes are linked into a tree of `avlmini.c`, taken out, and replaced.

* **`avlNodeErase_spec`** — a node is taken out of a tree, which stays balanced;
* **`avlNodeReplace_spec`** — another node takes the place of a node;
* **`avlNodeAdd_spec`** — a search, and the link of a new node where it ends, refine the insertion
  of the tree without links;
* **`postInsert_rebalances`** — the loop that comes after an insertion does what the one that comes
  after a deletion would do.
-/
import AcoOs.AvlNode

open SearchTree LinkedTree

namespace AvlNodes

variable {ι : Type*} [DecidableEq ι] {M M' M'' : AvlNodes ι} {L : Links ι} {p : Path ι}
  {l m r t t' : SearchTree ι} {x y z : ι} {k n : ℕ} {c : Option ι}

/-- The links, heights and balance of a whole tree. -/
structure IsAvl (M : AvlNodes ι) (t : SearchTree ι) : Prop where
  links : M.Holds t
  heights : HeightsOk M.height t
  balanced : t.Balanced

/-- A write to a node that is not in the tree. -/
theorem IsAvl.setParent {v : Option ι} (h : M.IsAvl t)
    (hx : x ∉ t.toList) : (M.withLinks (M.toLinks.setParent x v)).IsAvl t := by
  have hsame : ∀ z ∈ t.toList, M.Same (M.toLinks.setParent x v) z := fun z hz =>
    Links.same_setParent fun e => hx (e ▸ hz)
  exact ⟨⟨h.links.root, h.links.subtree.congr hsame, h.links.nodup⟩, h.heights, h.balanced⟩

/-! ### A node is taken out -/

section Relabel

variable {w : Path ι} {h h' : ι → ℤ}

omit [DecidableEq ι] in
/-- Another node in the place of `x` gets its height. -/
theorem HeightsAround.relabel (hk : HeightsAround h (w.append (.right l x p)) k)
    (hx : h' y = h x) (hs : ∀ z, w.Mem z ∨ z ∈ l.toList ∨ p.Mem z → h' z = h z) :
    HeightsAround h' (w.append (.right l y p)) k := by
  induction w generalizing k with
  | root =>
    exact ⟨hx.trans hk.1, hk.2.1.congr fun z hz => hs z (.inr (.inl hz)),
      hk.2.2.congr fun z hz => hs z (.inr (.inr hz))⟩
  | left v r up ih =>
    simp only [Path.mem_left] at hs
    exact ⟨(hs v (.inl (.inl rfl))).trans hk.1,
      hk.2.1.congr fun z hz => hs z (.inl (.inr (.inl hz))),
      ih hk.2.2 fun z hz => hs z (hz.imp_left fun hz => .inr (.inr hz))⟩
  | right r v up ih =>
    simp only [Path.mem_right] at hs
    exact ⟨(hs v (.inl (.inl rfl))).trans hk.1,
      hk.2.1.congr fun z hz => hs z (.inl (.inr (.inl hz))),
      ih hk.2.2 fun z hz => hs z (hz.imp_left fun hz => .inr (.inr hz))⟩

omit [DecidableEq ι] in
theorem balanced_relabel (hb : (w.append (.right l x p)).Balanced k) :
    (w.append (.right l y p)).Balanced k := by
  induction w generalizing k with
  | root => exact hb
  | left v r up ih => exact ⟨hb.1, hb.2.1, hb.2.2.1, ih hb.2.2.2⟩
  | right r v up ih => exact ⟨hb.1, hb.2.1, hb.2.2.1, ih hb.2.2.2⟩

end Relabel

/-- A subtree is lower by one than the heights around it say. -/
structure Lowered (M M' : AvlNodes ι) (t : SearchTree ι) (p : Path ι) (m : SearchTree ι) :
    Prop where
  links : M'.At p m
  heights : HeightsOk M'.height m
  around : HeightsAround M'.height p (m.height + 1)
  balanced : p.Balanced (m.height + 1)
  subtree : m.Balanced
  sameHeight : ∀ z ∉ t.toList, M'.height z = M.height z
  same : ∀ z ∉ t.toList, M.Same M'.toLinks z

/-- A node with at most one child is taken out. -/
theorem lowered_cut (h : M.IsAvl (p.plug (.node l x r)))
    (ht : l = .nil ∧ t = r ∨ r = .nil ∧ t = l) :
    M.Lowered (M.withLinks (M.toLinks.cut x t.top)) (p.plug (.node l x r)) p t := by
  have hat := Links.holds_plug.1 h.links
  obtain ⟨ha, -, hl, hr⟩ := heightsOk_plug.1 h.heights
  obtain ⟨hb, hlr, hrl, hbl, hbr⟩ := balanced_plug.1 h.balanced
  have hk : (SearchTree.node l x r).height = t.height + 1 := by
    rw [SearchTree.height]
    rcases ht with ⟨rfl, rfl⟩ | ⟨rfl, rfl⟩ <;> simp [SearchTree.height]
  rw [hk] at ha hb
  refine ⟨hat.cut (ht.symm.imp And.right And.right), ?_, ha, hb, ?_, fun _ _ => rfl, fun z hz => ?_⟩
  · rcases ht with ⟨-, rfl⟩ | ⟨-, rfl⟩
    · exact hr
    · exact hl
  · rcases ht with ⟨-, rfl⟩ | ⟨-, rfl⟩
    · exact hbr
    · exact hbl
  · rw [Path.mem_plug, mem_node, not_or, not_or, not_or] at hz
    refine Links.same_cut (fun he => ?_) fun he => ?_
    · rcases ht with ⟨-, rfl⟩ | ⟨-, rfl⟩
      · exact hz.2.2.2 (mem_of_top he)
      · exact hz.2.1 (mem_of_top he)
    · exact hz.1 (Path.mem_top (hat.subtree.1.symm.trans he))

/-- The node `y` is put in the place of `x`. -/
theorem avlNodeTakePlace_spec {a : ι} (h : M.At p (.node l x r))
    (hy : y ∉ (p.plug (.node l x r)).toList) (hl : l.top = some a) : ∃ M',
    M.avlNodeTakePlace x y = some M' ∧ M'.At p (.node l y r) ∧
      (∀ z, M'.height z = if z = y then M.height x else M.height z) ∧
      ∀ z, z ≠ y → z ∉ (p.plug (.node l x r)).toList → M.Same M'.toLinks z := by
  have hnew := h.replaceNode_first hy
  obtain ⟨hx1, hx2, hx3, -, -⟩ := h.subtree
  have hpx : M.parent x ≠ some x := fun he =>
    (Path.nodup_plug.1 h.nodup).2.2 x (mem_node.2 (.inr (.inl rfl)))
      (Path.mem_top (hx1.symm.trans he))
  have hxy : x ≠ y := by
    rintro rfl
    exact hy (Path.mem_plug.2 (.inr (mem_node.2 (.inr (.inl rfl)))))
  have hsame : M.Same ((M.toLinks.setLinks y (M.left x) (M.right x) (M.parent x)).replaceChild x
      (some y) (M.parent x)) x :=
    (Links.same_setLinks hxy).trans (Links.same_replaceChild hpx)
  have hpar : (M.toLinks.setLinks y (M.left x) (M.right x) (M.parent x)).parent x = M.parent x :=
    (Links.same_setLinks hxy).parent
  refine ⟨(M.setHeight y (M.height x)).withLinks _, ?_, hnew, fun z => setHeight_height, ?_⟩
  · set E := M.toLinks.setLinks y (M.left x) (M.right x) (M.parent x) with hE
    show ((E.replaceChild x (some y) (E.parent x)).left x).bind (fun left =>
      some ((M.setHeight y (M.height x)).withLinks (((E.replaceChild x (some y)
        (E.parent x)).setParent left (some y)).setParentOf ((E.replaceChild x (some y)
          (E.parent x)).right x) (some y)))) = _
    rw [hpar, hsame.left, hsame.right, hx2, hl]
    rfl
  · intro z hzy hz
    rw [Path.mem_plug, mem_node, not_or, not_or, not_or] at hz
    refine (Links.same_setLinks hzy).trans ((Links.same_replaceChild fun he => ?_).trans
      ((Links.same_setParentOf fun he => ?_).trans (Links.same_setParentOf fun he => ?_)))
    · exact hz.1 (Path.mem_top (hx1.symm.trans he))
    · exact hz.2.1 (mem_of_top (hx2.symm.trans he))
    · exact hz.2.2.2 (mem_of_top (hx3.symm.trans he))

/-- The first node `y` behind a node with two children is taken out, and put in its place. -/
theorem avlNodeUnlink_two {w : Path ι} {a b : ι} {r' : SearchTree ι}
    (h : M.IsAvl (p.plug (.node l x r'))) (hr' : r' = w.plug (.node .nil y m))
    (hl : l.top = some a) (hr : r'.top = some b) (hy : r'.toList.head? = some y)
    (hn : r'.height ≤ n) : ∃ M',
    M.avlNodeUnlink n x = some (M', (w.append (.right l y p)).top) ∧
      M.Lowered M' (p.plug (.node l x r')) (w.append (.right l y p)) m := by
  subst hr'
  have hplug : (w.append (.right l x p)).plug (.node .nil y m) =
      p.plug (.node l x (w.plug (.node .nil y m))) := Path.plug_append ..
  have hat := Links.holds_plug.1 h.links
  rw [← hplug] at h
  have hat' := Links.holds_plug.1 h.links
  obtain ⟨hx1, hx2, hx3, -, hrs⟩ := hat.subtree
  obtain ⟨hy1, -, hy3, -, -⟩ := hat'.subtree
  obtain ⟨-, -, -, hxr, -⟩ := nodup_node.1 (Path.nodup_plug.1 hat.nodup).2.1
  obtain ⟨-, hny, hout⟩ := Path.nodup_plug.1 hat'.nodup
  have hym := (nodup_node.1 hny).2.2.2.1
  have hyQ : ¬ (w.append (.right l x p)).Mem y := hout y (mem_node.2 (.inr (.inl rfl)))
  have hymem : y ∈ (w.plug (SearchTree.node .nil y m)).toList :=
    Path.mem_plug.2 (.inr (mem_node.2 (.inr (.inl rfl))))
  have hxy : x ≠ y := fun e => hxr (e ▸ hymem)
  -- the node `y` is cut off, and then takes the place of `x`
  have hcut : (M.toLinks.cut y m.top).At p (.node l x (w.plug m)) :=
    Links.at_right.1 (Links.at_append.1 (hat'.cut (.inr rfl)))
  have hfree : y ∉ (p.plug (.node l x (w.plug m))).toList := by
    rw [show p.plug (.node l x (w.plug m)) = (w.append (.right l x p)).plug m from
      (Path.plug_append w (.right l x p) m).symm, Path.mem_plug, not_or]
    exact ⟨hyQ, hym⟩
  obtain ⟨M', htake, hplace, hheight, hsame⟩ :=
    avlNodeTakePlace_spec (M := M.withLinks (M.toLinks.cut y m.top)) hcut hfree hl
  have hother : ∀ z, z ≠ y → M'.height z = M.height z := fun z hz => by
    rw [hheight z, if_neg hz]
    rfl
  have hcutsame : ∀ z, ¬ (w.append (.right l x p)).Mem z → z ∉ m.toList →
      M.Same (M.toLinks.cut y m.top) z := by
    intro z hz hzm
    refine Links.same_cut (fun he => hzm (mem_of_top he)) fun he => hz (Path.mem_top ?_)
    exact hy1.symm.trans he
  refine ⟨M', ?_, ?_⟩
  · have hlink : M.right y = m.top := hy3
    have hpar : (M.toLinks.cut y m.top).parent y = M.parent y := (hcutsame y hyQ hym).parent
    have hcond : (if (M.toLinks.cut y m.top).parent y = some x then some y else M.parent y) =
        (w.append (.right l y p)).top := by
      rw [hpar, hy1, Path.append_top, Path.append_top, Path.top_right, Path.top_right]
      cases hw : w.top with
      | none => exact if_pos rfl
      | some v =>
        have hv : v ≠ x := fun e => hxr (e ▸ Path.mem_plug.2 (.inl (Path.mem_top hw)))
        rw [Option.some_or, Option.some_or, if_neg fun e => hv (Option.some.inj e)]
    rw [avlNodeUnlink, hx2, hl, hx3, hr]
    dsimp only
    rw [hrs.sink_left hr hn, hy]
    simp only [Option.bind_eq_bind, Option.bind_some, Option.pure_def,
      Links.replaceChild_setParentOf]
    rw [hlink]
    show ((M.withLinks (M.toLinks.cut y m.top)).avlNodeTakePlace x y).bind (fun M_1 =>
      some (M_1, if (M.toLinks.cut y m.top).parent y = some x then some y else M.parent y)) = _
    rw [htake, hcond]
    rfl
  · obtain ⟨ha, -, -, hm⟩ := heightsOk_plug.1 h.heights
    obtain ⟨hb, -, -, -, hbm⟩ := balanced_plug.1 h.balanced
    have hk : (SearchTree.node .nil y m).height = m.height + 1 := by
      simp [SearchTree.height]
    rw [hk] at ha hb
    refine ⟨Links.at_append.2 (Links.at_right.2 hplace), hm.congr fun z hz => hother z ?_, ?_,
      balanced_relabel hb, hbm, fun z hz => hother z ?_, fun z hz => ?_⟩
    · exact fun e => hym (e ▸ hz)
    · refine ha.relabel ?_ fun z hz => hother z ?_
      · rw [hheight y, if_pos rfl]
        rfl
      · rintro rfl
        refine hyQ (Path.mem_append.2 (hz.imp_right fun hz => ?_))
        exact Path.mem_right.2 (.inr hz)
    · rintro rfl
      exact hz (hplug ▸ Path.mem_plug.2 (.inr (mem_node.2 (.inr (.inl rfl)))))
    · rw [← hplug, Path.mem_plug, mem_node, not_or, not_or, not_or] at hz
      obtain ⟨hzQ, -, hzy, hzm⟩ := hz
      refine (hcutsame z hzQ hzm).trans (hsame z hzy ?_)
      rw [show p.plug (.node l x (w.plug m)) = (w.append (.right l x p)).plug m from
        (Path.plug_append w (.right l x p) m).symm, Path.mem_plug, not_or]
      exact ⟨hzQ, hzm⟩

theorem avlNodeUnlink_one (h : M.IsAvl (p.plug (.node l x r)))
    (ht : l = .nil ∧ t = r ∨ r = .nil ∧ t = l) :
    M.avlNodeUnlink n x = some (M.withLinks (M.toLinks.cut x t.top), p.top) := by
  obtain ⟨hx1, hx2, hx3, -, -⟩ := (Links.holds_plug.1 h.links).subtree
  rw [avlNodeUnlink, hx2, hx3]
  rcases ht with ⟨rfl, rfl⟩ | ⟨rfl, rfl⟩
  · rw [← hx1]
    rfl
  · rw [← hx1]
    cases t <;> rfl

theorem avlNodeUnlink_spec (h : M.IsAvl t) (hx : x ∈ t.toList) (hn : t.height ≤ n) :
    ∃ M' q m, M.avlNodeUnlink n x = some (M', q.top) ∧ M.Lowered M' t q m ∧
      (q.plug m).toList = t.toList.erase x ∧ q.climb m = SearchTree.avlNodeErase x t ∧
      q.depth ≤ t.height := by
  obtain ⟨p, l, r, rfl⟩ := Path.exists_plug hx
  have hdepth := p.depth_add_height (.node l x r)
  have hxout : x ∉ p.before ++ l.toList := by
    obtain ⟨-, hnode, hout⟩ := Path.nodup_plug.1 h.links.nodup
    rw [List.mem_append, not_or]
    exact ⟨fun hm => hout x (mem_node.2 (.inr (.inl rfl))) (.inl hm), (nodup_node.1 hnode).2.2.1⟩
  have hxl : x ∉ l.toList := fun hm => hxout (List.mem_append_right _ hm)
  have herase : (p.plug (.node l x r)).toList.erase x =
      p.before ++ l.toList ++ (r.toList ++ p.after) := by
    rw [Path.toList_plug, toList, List.append_assoc, ← List.append_assoc, List.cons_append,
      List.erase_append_right _ hxout, List.erase_cons_head]
  have hclimb := avlNodeErase_plug (mem_node.2 (.inr (.inl rfl))) h.links.nodup
  cases l with
  | nil =>
    refine ⟨_, p, r, avlNodeUnlink_one h (.inl ⟨rfl, rfl⟩), lowered_cut h (.inl ⟨rfl, rfl⟩), ?_,
      ?_, by omega⟩
    · rw [herase, Path.toList_plug, toList, List.append_nil]
    · rw [hclimb, avlNodeErase_one hxl (.inl ⟨rfl, rfl⟩)]
  | node ll a lr =>
    cases r with
    | nil =>
      refine ⟨_, p, _, avlNodeUnlink_one h (.inr ⟨rfl, rfl⟩), lowered_cut h (.inr ⟨rfl, rfl⟩), ?_,
        ?_, by omega⟩
      · rw [herase, Path.toList_plug, toList, List.nil_append, List.append_assoc]
      · rw [hclimb, avlNodeErase_one hxl (.inr ⟨rfl, rfl⟩)]
    | node rl b rr =>
      obtain ⟨w, y, m, hr', hw, hy⟩ := Path.exists_first (t := .node rl b rr) rfl
      have hrn : (SearchTree.node rl b rr).height ≤ n := by
        rw [SearchTree.height] at hdepth
        omega
      obtain ⟨M', h1, h2⟩ := avlNodeUnlink_two h hr' rfl rfl hy hrn
      refine ⟨M', _, m, h1, h2, ?_, ?_, ?_⟩
      · rw [herase, hr', Path.toList_plug, Path.toList_plug, Path.before_append,
          Path.after_append, hw, Path.before, Path.after]
        simp [toList]
      · rw [hclimb, hr', avlNodeErase_two hxl (by rintro ⟨⟩) hw, climb_append]
        rfl
      · have hwd := w.depth_add_height (.node .nil y m)
        rw [← hr'] at hwd
        rw [SearchTree.height] at hdepth
        rw [Path.depth_append, Path.depth]
        omega

/-- `avl_node_erase` takes the node out of the tree. -/
theorem avlNodeErase_spec (h : M.IsAvl t) (hx : x ∈ t.toList) (hn : t.height ≤ n) :
    ∃ M', M.avlNodeErase n x = some M' ∧ M'.IsAvl (SearchTree.avlNodeErase x t) ∧
      (SearchTree.avlNodeErase x t).toList = t.toList.erase x ∧
      ∀ z ∉ t.toList, M.Same M'.toLinks z ∧ M'.height z = M.height z := by
  obtain ⟨M1, q, m, h1, h2, h3, hclimb, h4⟩ := avlNodeUnlink_spec h hx hn
  rw [← hclimb]
  obtain ⟨M2, h5, h6⟩ := avlNodeRebalance_spec h2.links h2.subtree h2.heights h2.around
    h2.balanced (by omega) (by omega) (h4.trans hn)
  have hlist : (q.climb m).toList = t.toList.erase x := by rw [toList_climb, h3]
  refine ⟨M2, ?_, ⟨Links.at_root.1 h6.links, h6.heights,
    balanced_climb h2.balanced h2.subtree (by omega) (by omega)⟩, hlist, fun z hz => ?_⟩
  · rw [avlNodeErase, h1]
    exact h5
  · have hz' : z ∉ (q.plug m).toList := fun hm => hz (List.mem_of_mem_erase (h3 ▸ hm))
    exact ⟨(h2.same z hz).trans (h6.same z hz'), (h6.sameHeight z hz').trans (h2.sameHeight z hz)⟩

/-! ### A node takes the place of another one -/

/-- `avl_node_replace`, for a node that is not in the tree. -/
theorem avlNodeReplace_spec (h : M.IsAvl (p.plug (.node l x r)))
    (hy : y ∉ (p.plug (.node l x r)).toList) :
    (M.avlNodeReplace x y).IsAvl (p.plug (.node l y r)) ∧
      ∀ z, z ≠ y → z ∉ (p.plug (.node l x r)).toList →
        M.Same (M.avlNodeReplace x y).toLinks z ∧ (M.avlNodeReplace x y).height z = M.height z := by
  have hat := Links.holds_plug.1 h.links
  have hnew := hat.replaceNode_last hy
  obtain ⟨hx1, hx2, hx3, -, -⟩ := hat.subtree
  obtain ⟨-, hnode, hout⟩ := Path.nodup_plug.1 hat.nodup
  obtain ⟨-, -, hxl, hxr, -⟩ := nodup_node.1 hnode
  have hpx : M.parent x ≠ some x := fun he =>
    hout x (mem_node.2 (.inr (.inl rfl))) (Path.mem_top (hx1.symm.trans he))
  have hlx : M.left x ≠ some x := fun he => hxl (mem_of_top (hx2.symm.trans he))
  have hrx : M.right x ≠ some x := fun he => hxr (mem_of_top (hx3.symm.trans he))
  have hsame := Links.same_replaceChild (L := M.toLinks) (x := x) (v := some y) hpx
  have heq : M.avlNodeReplace x y = (M.withLinks ((((M.toLinks.replaceChild x (some y)
      (M.parent x)).setParentOf (M.left x) (some y)).setParentOf (M.right x) (some y)).setLinks y
        (M.left x) (M.right x) (M.parent x))).setHeight y (M.height x) := by
    unfold avlNodeReplace Links.setLinks
    simp only [hsame.left, hsame.right, Links.setParentOf_left, Links.setParentOf_right,
      Links.setLeft_right, Links.setLeft_parent, Links.setRight_parent, Links.setParentOf_parent,
      if_neg hlx, if_neg hrx, Links.replaceChild_parent]
  have hother : ∀ z, z ≠ y → (M.avlNodeReplace x y).height z = M.height z := fun z hz => by
    rw [heq, setHeight_height, if_neg hz]
    rfl
  simp only [Path.mem_plug, mem_node, not_or] at hy
  obtain ⟨hyp, hyl, -, hyr⟩ := hy
  obtain ⟨ha, hhx, hhl, hhr⟩ := heightsOk_plug.1 h.heights
  have hb := balanced_plug.1 h.balanced
  refine ⟨⟨Links.holds_plug.2 ?_, heightsOk_plug.2 ⟨ha.congr fun z hz => hother z ?_, ?_,
    hhl.congr fun z hz => hother z ?_, hhr.congr fun z hz => hother z ?_⟩,
    balanced_plug.2 hb⟩, fun z hzy hz => ⟨?_, hother z hzy⟩⟩
  · rw [heq]
    exact hnew
  · exact fun e => hyp (e ▸ hz)
  · rw [heq, setHeight_height, if_pos rfl]
    exact hhx
  · exact fun e => hyl (e ▸ hz)
  · exact fun e => hyr (e ▸ hz)
  · rw [Path.mem_plug, mem_node, not_or, not_or, not_or] at hz
    rw [heq]
    refine (Links.same_replaceChild fun he => ?_).trans ((Links.same_setParentOf fun he => ?_).trans
      ((Links.same_setParentOf fun he => ?_).trans (Links.same_setLinks hzy)))
    · exact hz.1 (Path.mem_top (hx1.symm.trans he))
    · exact hz.2.1 (mem_of_top (hx2.symm.trans he))
    · exact hz.2.2.2 (mem_of_top (hx3.symm.trans he))

/-! ### A new node -/

/-- `avl_node_link`. -/
def avlNodeLink (M : AvlNodes ι) (node : ι) (parent : Option ι) (link : Slot ι) : AvlNodes ι :=
  (M.setHeight node 0).withLinks (M.toLinks.link node parent link)

/-- `avl_node_add`: the node with the same key, if there is one; else the new node is linked. -/
def avlNodeAdd (compare : ι → ℤ) (n : ℕ) (M : AvlNodes ι) (newnode : ι) :
    Option (Option ι × AvlNodes ι) := do
  match ← M.descend compare n none .root with
  | .inl duplicate => return (some duplicate, M)
  | .inr (parent, link) =>
    let M ← (M.avlNodeLink newnode parent link).avlNodePostInsert n newnode
    return (none, M)

variable {compare : ι → ℤ} {a : ι}

/-- A node with the same key is in the way. -/
theorem avlNodeAdd_found (h : M.IsAvl t) (hn : t.height < n) (hx : t.find compare = some x) :
    avlNodeAdd compare n M a = some (some x, M) := by
  have hd : M.descend compare n none .root = _ := (Links.at_root.2 h.links).descend hn
  rw [way_inl hx] at hd
  rw [avlNodeAdd, show M.descend compare n none .root = _ from hd]
  rfl

/-- Where the search ends the new node is linked as a tree of its own. -/
theorem IsAvl.link (h : M.IsAvl t) (hn : t.height < n) (ha : a ∉ t.toList)
    (hx : t.find compare = none) : ∃ q : Path ι, t = q.plug .nil ∧
    q.plug (.node .nil a .nil) = (t.add compare a).2 ∧
    M.descend compare n none .root = some (.inr (q.top, slot q)) ∧ q.depth ≤ t.height ∧
    ((M.avlNodeLink a q.top (slot q)).setHeight a 1).At q (.node .nil a .nil) ∧
    HeightsAround ((M.avlNodeLink a q.top (slot q)).setHeight a 1).height q 0 ∧ q.Balanced 0 ∧
    ∀ z, z ≠ a → z ∉ t.toList →
      M.Same ((M.avlNodeLink a q.top (slot q)).setHeight a 1).toLinks z ∧
      ((M.avlNodeLink a q.top (slot q)).setHeight a 1).height z = M.height z := by
  obtain ⟨q, hway, hq, hadd⟩ := way_inr (p := .root) (a := a) hx
  rw [Path.plug_root] at hq hadd
  subst hq
  have hd : M.descend compare n none .root = _ := (Links.at_root.2 h.links).descend hn
  rw [hway] at hd
  obtain ⟨hh, -⟩ := heightsOk_plug.1 h.heights
  have hqa : ¬ q.Mem a := fun hm => ha (Path.mem_plug.2 (.inl hm))
  have hother : ∀ z, z ≠ a → ((M.avlNodeLink a q.top (slot q)).setHeight a 1).height z =
      M.height z := fun z hz => by
    rw [setHeight_height, if_neg hz, avlNodeLink, withLinks_height, setHeight_height, if_neg hz]
  refine ⟨q, rfl, hadd, hd, ?_, (Links.holds_plug.1 h.links).link ha,
    hh.congr fun z hz => hother z fun e => hqa (e ▸ hz), (balanced_plug.1 h.balanced).1,
    fun z hz hzt => ⟨?_, hother z hz⟩⟩
  · have hdepth := q.depth_add_height .nil
    omega
  · have hset : ∀ L' : Links ι, L'.Same (L'.set (some a) (slot q)) z := fun L' =>
      Links.same_set (fun he => hzt (Path.mem_plug.2 (.inl (Path.mem_top he)))) rfl
    exact (Links.same_setParent hz).trans ((Links.same_setRight hz).trans
      ((Links.same_setLeft hz).trans (hset _)))

/-- The new node is linked where the search ends, and the tree is balanced again. -/
theorem avlNodeAdd_spec (h : M.IsAvl t) (hn : t.height < n) (ha : a ∉ t.toList)
    (hx : t.find compare = none) : ∃ M',
    avlNodeAdd compare n M a = some (none, M') ∧
      M'.IsAvl (SearchTree.avlNodePostInsert a (t.add compare a).2) ∧
      ∀ z, z ≠ a → z ∉ t.toList → M.Same M'.toLinks z ∧ M'.height z = M.height z := by
  obtain ⟨q, rfl, hadd, hd, hdepth, hlink, hh, hb, hother⟩ := h.link hn ha hx
  obtain ⟨M', hloop, hturn⟩ := avlNodePostInsertLoop_spec (n := n) (k := 0) hlink
    balanced_leaf ⟨by simp [SearchTree.height], trivial, trivial⟩ hh hb
    (by simp [SearchTree.height]) (Nat.zero_le _) (by omega)
  have htree : SearchTree.avlNodePostInsert a ((q.plug .nil).add compare a).2 =
      q.climb (.node .nil a .nil) := by
    rw [← hadd, avlNodePostInsert_plug (List.mem_singleton_self a) (hlink.nodup),
      SearchTree.avlNodePostInsert, if_pos rfl]
  refine ⟨M', ?_, ?_, fun z hz hzt => ?_⟩
  · rw [avlNodeAdd, hd]
    have hpar : (M.avlNodeLink a q.top (slot q)).parent a = q.top := hlink.subtree.1
    have hpost : (M.avlNodeLink a q.top (slot q)).avlNodePostInsert n a = some M' := by
      rw [avlNodePostInsert, hpar]
      exact hloop
    show ((M.avlNodeLink a q.top (slot q)).avlNodePostInsert n a).bind _ = _
    rw [hpost]
    rfl
  · rw [htree]
    exact ⟨Links.at_root.1 hturn.links, hturn.heights, balanced_climb hb balanced_leaf
      (by simp [SearchTree.height]) (Nat.zero_le _)⟩
  · have hzq : z ∉ (q.plug (.node .nil a .nil)).toList := by
      rw [Path.mem_plug, not_or] at hzt ⊢
      exact ⟨hzt.1, fun hm => hz (List.mem_singleton.1 hm)⟩
    obtain ⟨h1, h2⟩ := hother z hz hzt
    exact ⟨h1.trans (hturn.same z hzq), (hturn.sameHeight z hzq).trans h2⟩

/-! ### The early exit -/

omit [DecidableEq ι] in
theorem Turns.unique (h : M.Turns M' .root t t') (h' : M.Turns M'' .root t t')
    (ht : t'.toList = t.toList) : M' = M'' := by
  have hsame : ∀ z, M'.Same M''.toLinks z := fun z => by
    by_cases hz : z ∈ t.toList
    · exact h.links.subtree.unique h'.links.subtree z (ht ▸ hz)
    · exact Links.Same.trans (h.same z hz).symm (h'.same z hz)
  have hheight : M''.height = M'.height := funext fun z => by
    by_cases hz : z ∈ t.toList
    · exact h.heights.unique h'.heights z (ht ▸ hz)
    · rw [h.sameHeight z hz, h'.sameHeight z hz]
  have hroot : M''.root = M'.root := h'.links.around.trans h.links.around.symm
  obtain ⟨⟨l, r, q, b⟩, k⟩ := M'
  obtain ⟨⟨l', r', q', b'⟩, k'⟩ := M''
  obtain rfl : l' = l := funext fun z => (hsame z).left
  obtain rfl : r' = r := funext fun z => (hsame z).right
  obtain rfl : q' = q := funext fun z => (hsame z).parent
  cases hheight
  cases hroot
  rfl

/-- `avl_node_post_insert` stops where a height has not changed, and leaves the same nodes as the
call of `_avl_node_rebalance` that stands beside it in the source. -/
theorem postInsert_rebalances (h : M.IsAvl t) (hn : t.height < n) (ha : a ∉ t.toList)
    (hx : t.find compare = none) : ∃ parent link M',
    M.descend compare n none .root = some (.inr (parent, link)) ∧
      (M.avlNodeLink a parent link).avlNodePostInsert n a = some M' ∧
      avlNodeRebalance n ((M.avlNodeLink a parent link).setHeight a 1) parent = some M' := by
  obtain ⟨q, rfl, hadd, hd, hdepth, hlink, hh, hb, -⟩ := h.link hn ha hx
  have hk : HeightsOk ((M.avlNodeLink a q.top (slot q)).setHeight a 1).height
      (.node .nil a .nil) := ⟨by simp [SearchTree.height], trivial, trivial⟩
  obtain ⟨M', h1, h2⟩ := avlNodePostInsertLoop_spec (n := n) hlink balanced_leaf hk hh hb
    (by simp [SearchTree.height]) (Nat.zero_le _) (by omega)
  obtain ⟨M'', h3, h4⟩ := avlNodeRebalance_spec (n := n) hlink balanced_leaf hk hh hb
    (by simp [SearchTree.height]) (Nat.zero_le _) (by omega)
  obtain rfl := h2.unique h4 (toList_climb ..)
  have hpar : (M.avlNodeLink a q.top (slot q)).parent a = q.top := hlink.subtree.1
  refine ⟨q.top, slot q, M', hd, ?_, h3⟩
  rw [avlNodePostInsert, hpar]
  exact h1

/-- The node 1 and its right child 3. -/
def twoNodes : AvlNodes ℕ where
  left _ := none
  right x := if x = 1 then some 3 else none
  parent x := if x = 3 then some 1 else none
  root := some 1
  height x := if x = 1 then 2 else 1

theorem postInsert_rebalances_twoNodes : ∃ parent link M',
    twoNodes.descend (fun x => (5 : ℤ) - x) 3 none .root = some (.inr (parent, link)) ∧
      (twoNodes.avlNodeLink 5 parent link).avlNodePostInsert 3 5 = some M' ∧
      avlNodeRebalance 3 ((twoNodes.avlNodeLink 5 parent link).setHeight 5 1) parent = some M' :=
  postInsert_rebalances (t := .node .nil 1 (.node .nil 3 .nil))
    ⟨⟨rfl, ⟨rfl, rfl, rfl, trivial, ⟨rfl, rfl, rfl, trivial, trivial⟩⟩, by decide⟩,
      ⟨by decide, trivial, ⟨by decide, trivial, trivial⟩⟩,
      ⟨by decide, by decide, trivial, ⟨by decide, by decide, trivial, trivial⟩⟩⟩
    (by decide) (by decide) (by decide)

end AvlNodes
