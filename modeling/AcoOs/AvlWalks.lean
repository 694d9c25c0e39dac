/-
Walks over a tree of `avlmini.c`: the first, the last, the next and the previous node, the node
nearest to a key, and the removal of all nodes one by one.

* **`avlNodeFirst_spec`**, **`avlNodeNext_spec`**, **`avlNodeLast_spec`**, **`avlNodePrev_spec`** —
  the walks follow the in-order sequence;
* **`findLoop_spec`**, **`nearestLoop_spec`** — a search, and the last node on its way;
* **`avlNodeTear_spec`** — the nodes are torn off in postorder.
-/
import AcoOs.AvlErase

open LinkedTree

namespace AvlNodes

variable {ι : Type*} [DecidableEq ι]

/-- `avl_node_first`, in at most `n` rounds. -/
def avlNodeFirst (n : ℕ) (L : Links ι) : Option (Option ι) :=
  match L.root with
  | none => some none
  | some node => (Links.sink L.left n node).map some

/-- `avl_node_last`. -/
def avlNodeLast (n : ℕ) (L : Links ι) : Option (Option ι) :=
  match L.root with
  | none => some none
  | some node => (Links.sink L.right n node).map some

/-- `avl_node_next`. -/
def avlNodeNext (n : ℕ) (L : Links ι) : Option ι → Option (Option ι)
  | none => some none
  | some node =>
    match L.right node with
    | some node => (Links.sink L.left n node).map some
    | none => L.climb (fun node last => L.left node = some last) n node

/-- `avl_node_prev`. -/
def avlNodePrev (n : ℕ) (L : Links ι) : Option ι → Option (Option ι)
  | none => some none
  | some node =>
    match L.left node with
    | some node => (Links.sink L.right n node).map some
    | none => L.climb (fun node last => L.right node = some last) n node

/-- The loop of `avl_tree_find`. -/
def findLoop (L : Links ι) (compare : ι → ℤ) : ℕ → Option ι → Option (Option ι)
  | _, none => some none
  | 0, some _ => none
  | n + 1, some x =>
    if compare x = 0 then some (some x)
    else if compare x < 0 then findLoop L compare n (L.left x)
    else findLoop L compare n (L.right x)

/-- The loop of `avl_tree_nearest`, with the node `p` it has come from. -/
def nearestLoop (L : Links ι) (compare : ι → ℤ) :
    ℕ → Option ι → Option ι → Option (Option ι)
  | _, none, p => some p
  | 0, some _, _ => none
  | n + 1, some x, _ =>
    if compare x = 0 then some (some x)
    else if compare x < 0 then nearestLoop L compare n (L.left x) (some x)
    else nearestLoop L compare n (L.right x) (some x)

/-- The loop of `avl_node_tear` that sinks down to a leaf. -/
def tearSink (L : Links ι) : ℕ → ι → Option ι
  | 0, _ => none
  | n + 1, node =>
    match L.left node with
    | some left => tearSink L n left
    | none =>
      match L.right node with
      | some right => tearSink L n right
      | none => some node

/-- `avl_node_tear`: the node that is torn off, and the pointer `next` for the next call. -/
def avlNodeTear (n : ℕ) (M : AvlNodes ι) (next : Option ι) :
    Option (Option ι × Option ι × AvlNodes ι) :=
  match next.or M.root with
  | none => some (none, next, M)
  | some node => do
    let node ← tearSink M.toLinks n node
    match M.parent node with
    | none => return (some node, none, M.withLinks { M.toLinks with root := none })
    | some parent =>
      let L :=
        if M.left parent = some node then M.toLinks.setLeft parent none
        else M.toLinks.setRight parent none
      return (some node, some parent, (M.withLinks L).setHeight node 0)

end AvlNodes

open SearchTree

namespace SearchTree

variable {α : Type*}

/-- The postorder sequence. -/
def post : SearchTree α → List α
  | nil => []
  | node l x r => l.post ++ (r.post ++ [x])

/-- What comes behind a subtree in postorder, when its way up is walked and what is left beside it
comes first. -/
def Path.post : Path α → List α
  | .root => []
  | .left x r up => r.post ++ x :: up.post
  | .right l x up => l.post ++ x :: up.post

/-- The last node on the way of a search. -/
def nearest (compare : α → ℤ) : SearchTree α → Option α → Option α
  | nil, p => p
  | node l x r, _ =>
    if compare x = 0 then some x
    else if compare x < 0 then nearest compare l (some x)
    else nearest compare r (some x)

theorem post_perm (t : SearchTree α) : t.post.Perm t.toList := by
  induction t with
  | nil => exact .nil
  | node l x r ihl ihr =>
    rw [post, toList]
    refine ihl.append ?_
    exact (List.perm_append_singleton x r.post).trans (ihr.cons x)

theorem Path.mem_post (p : Path α) (z : α) : z ∈ p.post ↔ p.Mem z := by
  induction p with
  | root => simp [Path.post, Path.Mem, Path.before, Path.after]
  | left x r up ih =>
    rw [Path.post, List.mem_append, List.mem_cons, ih, r.post_perm.mem_iff, Path.mem_left]
    tauto
  | right l x up ih =>
    rw [Path.post, List.mem_append, List.mem_cons, ih, l.post_perm.mem_iff, Path.mem_right]
    tauto

theorem post_nil : (nil : SearchTree α).post = [] := rfl

theorem post_node (l r : SearchTree α) (x : α) :
    (node l x r).post = l.post ++ (r.post ++ [x]) := rfl

end SearchTree

namespace AvlNodes

variable {ι : Type*} {M : AvlNodes ι} {L : Links ι} {p : Path ι} {l r t : SearchTree ι}
  {x y z : ι} {n : ℕ} {c d : Option ι} {compare : ι → ℤ}

/-! ### In order -/

theorem avlNodeFirst_spec (h : L.Holds t) (hn : t.height ≤ n) :
    avlNodeFirst n L = some t.toList.head? := by
  rw [avlNodeFirst, h.root]
  cases t with
  | nil => rfl
  | node l x r =>
    dsimp only [top_node]
    rw [h.subtree.sink_left rfl hn]
    cases hhead : (SearchTree.node l x r).toList.head? with
    | none => simp [toList] at hhead
    | some y => rfl

theorem avlNodeLast_spec (h : L.Holds t) (hn : t.height ≤ n) :
    avlNodeLast n L = some t.toList.getLast? := by
  have hfirst := avlNodeFirst_spec (Links.holds_mirror h) (t.height_mirror.trans_le hn)
  rw [toList_mirror, List.head?_reverse] at hfirst
  exact hfirst

/-- The next node is the one behind the node in the in-order sequence. -/
theorem avlNodeNext_spec [DecidableEq ι] {A B : List ι} (h : L.Holds t)
    (ht : t.toList = A ++ x :: B) (hn : t.height ≤ n) :
    avlNodeNext n L (some x) = some B.head? := by
  obtain ⟨p, l, r, rfl⟩ := Path.exists_plug (t := t) (x := x) (by simp [ht])
  have hdepth := p.depth_add_height (.node l x r)
  rw [SearchTree.height] at hdepth
  have hat := Links.holds_plug.1 h
  have hnext := hat.next (n := n) (by omega)
    (by omega) (fun _ _ hl _ => hl) fun _ _ _ hl => hl
  rw [← (Path.split_plug h.nodup ht).2, ← hnext]
  cases hr : L.right x <;> simp only [avlNodeNext, hr]

theorem avlNodePrev_spec [DecidableEq ι] {A B : List ι} (h : L.Holds t)
    (ht : t.toList = A ++ x :: B) (hn : t.height ≤ n) :
    avlNodePrev n L (some x) = some A.getLast? := by
  have hrev : t.mirror.toList = B.reverse ++ x :: A.reverse := by
    rw [toList_mirror, ht, List.reverse_append, List.reverse_cons, List.append_assoc]
    rfl
  have hnext := avlNodeNext_spec (Links.holds_mirror h) hrev (t.height_mirror.trans_le hn)
  rw [List.head?_reverse, avlNodeNext, Links.climb_mirror] at hnext
  exact hnext

/-! ### Searches -/

theorem findLoop_spec (h : L.Subtree t c) (hn : t.height ≤ n) :
    findLoop L compare n t.top = some (t.find compare) := by
  induction t generalizing n c with
  | nil => cases n <;> rfl
  | node l x r ihl ihr =>
    obtain ⟨-, h2, h3, h4, h5⟩ := h
    rw [SearchTree.height] at hn
    obtain ⟨n, rfl⟩ : ∃ k, n = k + 1 := ⟨n - 1, by omega⟩
    rw [top_node, findLoop, find, h2, h3]
    split_ifs
    · rfl
    · exact ihl h4 (by omega)
    · exact ihr h5 (by omega)

theorem nearestLoop_spec (h : L.Subtree t c) (hn : t.height ≤ n) :
    nearestLoop L compare n t.top d = some (t.nearest compare d) := by
  induction t generalizing n c d with
  | nil => cases n <;> rfl
  | node l x r ihl ihr =>
    obtain ⟨-, h2, h3, h4, h5⟩ := h
    rw [SearchTree.height] at hn
    obtain ⟨n, rfl⟩ : ∃ k, n = k + 1 := ⟨n - 1, by omega⟩
    rw [top_node, nearestLoop, nearest, h2, h3]
    split_ifs
    · rfl
    · exact ihl h4 (by omega)
    · exact ihr h5 (by omega)

/-! ### Tearing down -/

theorem post_plug (p : Path ι) (t : SearchTree ι) :
    ∃ A B, (p.plug t).post = A ++ (t.post ++ B) := by
  induction p generalizing t with
  | root => exact ⟨[], [], (List.append_nil _).symm⟩
  | left x r up ih =>
    obtain ⟨A, B, h⟩ := ih (.node t x r)
    refine ⟨A, (r.post ++ [x]) ++ B, ?_⟩
    rw [Path.plug, h, post_node, List.append_assoc]
  | right l x up ih =>
    obtain ⟨A, B, h⟩ := ih (.node l x t)
    refine ⟨A ++ l.post, [x] ++ B, ?_⟩
    rw [Path.plug, h, post_node]
    simp only [List.append_assoc]

/-- In postorder a node comes before its parent. -/
theorem post_of_parent {y : ι} (h : L.Holds t) (hy : y ∈ t.toList) (hp : L.parent y = some x) :
    ∃ A B C, t.post = A ++ y :: (B ++ x :: C) := by
  obtain ⟨p, l, r, rfl⟩ := Path.exists_plug hy
  have htop : p.top = some x := (Links.holds_plug.1 h).subtree.1.symm.trans hp
  cases p with
  | root => cases htop
  | left z r' up =>
    cases htop
    obtain ⟨A, B, hpost⟩ := post_plug up (.node (.node l y r) x r')
    refine ⟨A ++ (l.post ++ r.post), r'.post, B, ?_⟩
    rw [Path.plug, hpost]
    simp only [post_node, List.append_assoc, List.cons_append, List.nil_append]
  | right l' z up =>
    cases htop
    obtain ⟨A, B, hpost⟩ := post_plug up (.node l' x (.node l y r))
    refine ⟨A ++ (l'.post ++ (l.post ++ r.post)), [], B, ?_⟩
    rw [Path.plug, hpost]
    simp only [post_node, List.append_assoc, List.cons_append, List.nil_append]

theorem tearSink_spec (h : L.At p t) (hx : t.top = some x) (hn : t.height ≤ n) : ∃ q a,
    tearSink L n x = some a ∧ L.At q (.node .nil a .nil) ∧ q.plug (.node .nil a .nil) = p.plug t ∧
      t.post ++ p.post = a :: q.post := by
  induction t generalizing p x n with
  | nil => cases hx
  | node l y r ihl ihr =>
    cases hx
    obtain ⟨-, h2, h3, -, -⟩ := h.subtree
    rw [SearchTree.height] at hn
    obtain ⟨n, rfl⟩ : ∃ k, n = k + 1 := ⟨n - 1, by omega⟩
    rw [tearSink, h2]
    cases l with
    | node ll z lr =>
      obtain ⟨q, a, h4, h5, h6, h7⟩ := ihl (n := n) (Links.at_left.2 h) rfl (by omega)
      refine ⟨q, a, h4, h5, h6, ?_⟩
      rw [← h7, post_node, Path.post]
      simp only [List.append_assoc, List.singleton_append]
    | nil =>
      rw [h3]
      cases r with
      | nil => exact ⟨p, y, rfl, h, rfl, rfl⟩
      | node rl z rr =>
        obtain ⟨q, a, h4, h5, h6, h7⟩ := ihr (n := n) (Links.at_right.2 h) rfl (by omega)
        refine ⟨q, a, h4, h5, h6, ?_⟩
        rw [← h7, post_node, Path.post]
        simp only [post_nil, List.nil_append, List.append_assoc, List.singleton_append]

/-- What is still to be torn off: nothing, or a subtree and what comes behind it. -/
inductive Tearing (M : AvlNodes ι) (n : ℕ) : Option ι → List ι → Prop
  | done (h : M.root = none) : Tearing M n none []
  | tree {p : Path ι} {t : SearchTree ι} {next : Option ι} {x : ι} (h : M.At p t)
    (hx : t.top = some x) (hnext : next.or M.root = some x) (hn : (p.plug t).height ≤ n) :
    Tearing M n next (t.post ++ p.post)

variable [DecidableEq ι]

omit [DecidableEq ι] in
/-- Writes to nodes that are torn off already. -/
theorem Tearing.congr {M' : AvlNodes ι} {next : Option ι} {rest : List ι}
    (h : M.Tearing n next rest) (hs : ∀ z ∈ rest, M.Same M'.toLinks z)
    (hroot : M'.root = M.root) : M'.Tearing n next rest := by
  cases h with
  | done h => exact .done (hroot.trans h)
  | @tree p t next y h hy hnext hn =>
    have hsame : ∀ z ∈ (p.plug t).toList, M.Same M'.toLinks z := fun z hz => hs z <| by
      rwa [List.mem_append, t.post_perm.mem_iff, p.mem_post, or_comm, ← Path.mem_plug]
    have hwhole := Links.holds_plug.2 h
    exact .tree (Links.holds_plug.1 ⟨hroot.trans hwhole.root, hwhole.subtree.congr hsame,
      hwhole.nodup⟩) hy (hroot ▸ hnext) hn

/-- `avl_node_tear` when nothing is left. -/
theorem avlNodeTear_done {next : Option ι} (h : M.Tearing n next []) :
    M.root = none ∧ avlNodeTear n M next = some (none, none, M) := by
  generalize hrest : ([] : List ι) = rest at h
  cases h with
  | done h =>
    refine ⟨h, ?_⟩
    rw [avlNodeTear, h]
    rfl
  | @tree p t next x h hx =>
    cases t with
    | nil => cases hx
    | node l y r => simp [post] at hrest

/-- `avl_node_tear` tears off the next node in postorder, and the rest is still a tree. -/
theorem avlNodeTear_spec {next : Option ι} {a : ι} {rest : List ι}
    (h : M.Tearing n next (a :: rest)) : ∃ next' M',
    avlNodeTear n M next = some (some a, next', M') ∧ M'.Tearing n next' rest ∧
      ∀ z, M'.parent z = M.parent z := by
  generalize hrest : a :: rest = list at h
  cases h with
  | done h => cases hrest
  | @tree p t next x h hx hnext hn =>
    have ht : t.height ≤ n := by
      have := p.depth_add_height t
      omega
    obtain ⟨q, b, h1, h2, h3, h4⟩ := tearSink_spec h hx ht
    rw [h4] at hrest
    obtain ⟨rfl, rfl⟩ := List.cons.inj hrest
    have hcut := h2.cut (t := .nil) (.inl rfl)
    have hpar : M.parent a = q.top := h2.subtree.1
    have hheight : (q.plug .nil).height ≤ n := by
      refine le_trans (q.height_plug_mono (Nat.zero_le _)) (h3 ▸ hn)
    rw [avlNodeTear, hnext]
    simp only [h1, Option.bind_eq_bind, Option.bind_some, Option.pure_def]
    rw [hpar]
    cases q with
    | root => exact ⟨none, _, rfl, .done rfl, fun _ => rfl⟩
    | left y r up =>
      have hrest : (Path.left y r up).post = (SearchTree.node .nil y r).post ++ up.post := by
        simp only [Path.post, post_node, post_nil, List.nil_append, List.append_assoc,
          List.singleton_append]
      rw [hrest]
      refine ⟨some y, _, rfl, .tree ?_ rfl rfl hheight, fun z => ?_⟩
      · rw [Links.cut, hpar] at hcut
        exact Links.at_left.1 hcut
      · show (if M.left y = some a then M.toLinks.setLeft y none
          else M.toLinks.setRight y none).parent z = M.parent z
        split_ifs <;> rfl
    | right l y up =>
      have hrest : (Path.right l y up).post = (SearchTree.node l y .nil).post ++ up.post := by
        simp only [Path.post, post_node, post_nil, List.nil_append, List.append_assoc,
          List.singleton_append]
      rw [hrest]
      refine ⟨some y, _, rfl, .tree ?_ rfl rfl hheight, fun z => ?_⟩
      · rw [Links.cut, hpar] at hcut
        exact Links.at_right.1 hcut
      · show (if M.left y = some a then M.toLinks.setLeft y none
          else M.toLinks.setRight y none).parent z = M.parent z
        split_ifs <;> rfl

end AvlNodes
