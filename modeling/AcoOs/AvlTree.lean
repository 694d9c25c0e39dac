/-
The rebalancing of `avlmini.c` after an insertion.

Heights are computed from the tree and not kept in its nodes.  The loop of `avl_node_post_insert`
stops at the first node whose height has not changed; the nodes above it are balanced as before, so
that to go on up to the root changes nothing.

* **`toList_avlNodePostInsert`** — the in-order sequence stays.
-/
import AcoOs.SearchTree

namespace SearchTree

variable {α : Type*}

/-- `_avl_node_rotate_left` of the node `x`. -/
def avlNodeRotateLeft (l : SearchTree α) (x : α) : SearchTree α → SearchTree α
  | nil => node l x nil
  | node m y r => node (node l x m) y r

/-- `_avl_node_rotate_right` of the node `y`. -/
def avlNodeRotateRight (y : α) (r : SearchTree α) : SearchTree α → SearchTree α
  | nil => node nil y r
  | node l x m => node l x (node m y r)

/-- `_avl_node_fix_l` of the node `x`. -/
def avlNodeFixL (l : SearchTree α) (x : α) (right : SearchTree α) : SearchTree α :=
  avlNodeRotateLeft l x <|
    match right with
    | nil => nil
    | node rl y rr => if rr.height < rl.height then avlNodeRotateRight y rr rl else node rl y rr

/-- `_avl_node_fix_r` of the node `x`. -/
def avlNodeFixR (left : SearchTree α) (x : α) (r : SearchTree α) : SearchTree α :=
  avlNodeRotateRight x r <|
    match left with
    | nil => nil
    | node ll y lr => if ll.height < lr.height then avlNodeRotateLeft ll y lr else node ll y lr

/-- The body of the loop of `avl_node_post_insert`, for the node `x`. -/
def avlNodeFix (l : SearchTree α) (x : α) (r : SearchTree α) : SearchTree α :=
  if l.height + 2 ≤ r.height then avlNodeFixL l x r
  else if r.height + 2 ≤ l.height then avlNodeFixR l x r
  else node l x r

/-- `avl_node_post_insert`: from the node `a` up to the root. -/
def avlNodePostInsert [DecidableEq α] (a : α) : SearchTree α → SearchTree α
  | nil => nil
  | node l x r =>
    if x = a then node l x r
    else if a ∈ l.toList then avlNodeFix (avlNodePostInsert a l) x r
    else avlNodeFix l x (avlNodePostInsert a r)

/-! ### The in-order sequence -/

variable {l r t : SearchTree α} {x a : α}

theorem toList_avlNodeRotateLeft :
    (avlNodeRotateLeft l x r).toList = l.toList ++ x :: r.toList := by
  cases r with
  | nil => rfl
  | node m y r => simp only [avlNodeRotateLeft, toList, List.append_assoc, List.cons_append]

theorem toList_avlNodeRotateRight :
    (avlNodeRotateRight x r l).toList = l.toList ++ x :: r.toList := by
  cases l with
  | nil => rfl
  | node l y m => simp only [avlNodeRotateRight, toList, List.append_assoc, List.cons_append]

theorem toList_avlNodeFixL : (avlNodeFixL l x r).toList = l.toList ++ x :: r.toList := by
  unfold avlNodeFixL
  rw [toList_avlNodeRotateLeft]
  cases r with
  | nil => rfl
  | node m y r =>
    dsimp only
    split
    · rw [toList_avlNodeRotateRight, toList]
    · rfl

theorem toList_avlNodeFixR : (avlNodeFixR l x r).toList = l.toList ++ x :: r.toList := by
  unfold avlNodeFixR
  rw [toList_avlNodeRotateRight]
  cases l with
  | nil => rfl
  | node l y m =>
    dsimp only
    split
    · rw [toList_avlNodeRotateLeft, toList]
    · rfl

theorem toList_avlNodeFix : (avlNodeFix l x r).toList = l.toList ++ x :: r.toList := by
  unfold avlNodeFix
  split
  · exact toList_avlNodeFixL
  · split
    · exact toList_avlNodeFixR
    · rfl

theorem toList_avlNodePostInsert [DecidableEq α] :
    (avlNodePostInsert a t).toList = t.toList := by
  induction t with
  | nil => rfl
  | node l x r ihl ihr =>
    rw [avlNodePostInsert]
    split
    · rfl
    · split
      · rw [toList_avlNodeFix, ihl, toList]
      · rw [toList_avlNodeFix, ihr, toList]

/-! ### Nodes in a row -/

variable {compare : α → ℤ} {y : α}

/-- A new node that the search sends to the right. -/
theorem add_right (hx : 0 < compare x) :
    ((node l x r).add compare a).2 = node l x (r.add compare a).2 := by
  rw [add, if_neg (by omega), if_neg (by omega)]

theorem find_right (hx : 0 < compare x) : (node l x r).find compare = r.find compare := by
  rw [find, if_neg (by omega), if_neg (by omega)]

theorem avlNodePostInsert_right [DecidableEq α] (hx : x ≠ a) (hl : a ∉ l.toList) :
    avlNodePostInsert a (node l x r) = avlNodeFix l x (avlNodePostInsert a r) := by
  rw [avlNodePostInsert, if_neg hx, if_neg hl]

theorem eq_nil_of_toList (h : t.toList = []) : t = nil := by
  cases t with
  | nil => rfl
  | node l z r =>
    rw [toList, List.append_eq_nil_iff] at h
    cases h.2

theorem eq_node_of_toList (h : t.toList = [x]) : t = node nil x nil := by
  cases t with
  | nil => cases h
  | node l z r =>
    rw [toList, List.append_eq_singleton_iff] at h
    rcases h with ⟨hl, hr⟩ | ⟨-, hr⟩
    · obtain ⟨rfl, hnil⟩ := List.cons.inj hr
      rw [eq_nil_of_toList hl, eq_nil_of_toList hnil]
    · cases hr

/-- A tree of two nodes leans to one side. -/
theorem eq_pair_of_toList (h : t.toList = [x, y]) :
    t = node nil x (node nil y nil) ∨ t = node (node nil x nil) y nil := by
  cases t with
  | nil => cases h
  | node l z r =>
    rw [toList] at h
    rcases List.append_eq_cons_iff.1 h with ⟨hl, hr⟩ | ⟨u, hl, hr⟩
    · obtain ⟨rfl, hnil⟩ := List.cons.inj hr
      rw [eq_nil_of_toList hl, eq_node_of_toList hnil]
      exact .inl rfl
    · rcases List.append_eq_singleton_iff.1 hr.symm with ⟨rfl, hr⟩ | ⟨-, hr⟩
      · obtain ⟨rfl, hnil⟩ := List.cons.inj hr
        rw [eq_node_of_toList hl, eq_nil_of_toList hnil.symm]
        exact .inr rfl
      · cases hr

/-- A second node behind a first one. -/
theorem avlNodePostInsert_second [DecidableEq α] (hx : 0 < compare x) (hne : x ≠ a) :
    avlNodePostInsert a ((node nil x nil).add compare a).2 = node nil x (node nil a nil) := by
  rw [add_right hx, add, avlNodePostInsert_right hne List.not_mem_nil, avlNodePostInsert,
    if_pos rfl]
  rfl

/-- The third of three nodes makes the second one the root. -/
theorem avlNodePostInsert_third [DecidableEq α] (h : t.toList = [x, y]) (hx : 0 < compare x)
    (hy : 0 < compare y) (hxa : x ≠ a) (hya : y ≠ a) :
    avlNodePostInsert a (t.add compare a).2 = node (node nil x nil) y (node nil a nil) := by
  rcases eq_pair_of_toList h with rfl | rfl
  · rw [add_right hx, avlNodePostInsert_right hxa List.not_mem_nil, avlNodePostInsert_second hy hya]
    rfl
  · have hax : a ∉ (node nil x nil).toList := fun ha => hxa (List.mem_singleton.1 ha).symm
    rw [add_right hy, add, avlNodePostInsert_right hya hax, avlNodePostInsert, if_pos rfl]
    rfl

end SearchTree
