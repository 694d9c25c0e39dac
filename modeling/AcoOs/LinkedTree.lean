/-
Trees of nodes that are linked with their children and with their parent.

A node has a link to its left child, one to its right child and one to its parent; `none` is
`NULL`.  `Links.Holds` says that the links below the root are those of a tree, whose nodes are
all different.  `Links.At` says the same with a subtree in focus: an operation changes the subtree
and the pointer to the hole it stands in, and the rest of the tree follows from `Same`.

* **`Links.holds_plug`** — the two views of one tree;
* **`Links.At.next`** — the walk to the node behind a node;
* **`Links.At.descend`** — a search;
* **`Links.At.rotateLeft`**, **`Links.At.rotateRight`**, **`Links.At.link`**, **`Links.At.cut`**,
  **`Links.At.replaceNode`** — what the writes of an operation make of the tree.
-/
import AcoOs.TreePath

namespace LinkedTree

open SearchTree

/-- The links of all nodes, and the pointer to the root. -/
structure Links (ι : Type*) where
  left : ι → Option ι
  right : ι → Option ι
  parent : ι → Option ι
  root : Option ι

/-- Where a pointer to a node stands. -/
inductive Slot (ι : Type*)
  | root
  | left (x : ι)
  | right (x : ι)

/-- The place of the pointer to a hole. -/
def slot {ι : Type*} : Path ι → Slot ι
  | .root => .root
  | .left x _ _ => .left x
  | .right _ x _ => .right x

namespace Links

variable {ι : Type*}

/-- The pointer in a place. -/
def get (L : Links ι) : Slot ι → Option ι
  | .root => L.root
  | .left x => L.left x
  | .right x => L.right x

/-- The links of a subtree whose parent is `q`. -/
def Subtree (L : Links ι) : SearchTree ι → Option ι → Prop
  | .nil, _ => True
  | .node l x r, q => L.parent x = q ∧ L.left x = l.top ∧ L.right x = r.top ∧
      L.Subtree l (some x) ∧ L.Subtree r (some x)

/-- The links of the tree around a hole, in which the pointer `c` is. -/
def Around (L : Links ι) : Path ι → Option ι → Prop
  | .root, c => L.root = c
  | .left x r up, c => L.parent x = up.top ∧ L.left x = c ∧ L.right x = r.top ∧
      L.Subtree r (some x) ∧ L.Around up (some x)
  | .right l x up, c => L.parent x = up.top ∧ L.left x = l.top ∧ L.right x = c ∧
      L.Subtree l (some x) ∧ L.Around up (some x)

/-- The links are those of a tree. -/
structure Holds (L : Links ι) (t : SearchTree ι) : Prop where
  root : L.root = t.top
  subtree : L.Subtree t none
  nodup : t.toList.Nodup

/-- The links are those of a tree, with a subtree in focus. -/
structure At (L : Links ι) (p : Path ι) (t : SearchTree ι) : Prop where
  around : L.Around p t.top
  subtree : L.Subtree t p.top
  nodup : (p.plug t).toList.Nodup

/-- The links of one node are the same. -/
structure Same (L L' : Links ι) (z : ι) : Prop where
  left : L'.left z = L.left z
  right : L'.right z = L.right z
  parent : L'.parent z = L.parent z

variable {L L' L'' : Links ι} {p q : Path ι} {l m r t : SearchTree ι} {x y z : ι}
  {c d : Option ι}

theorem Same.refl (L : Links ι) (z : ι) : L.Same L z := ⟨rfl, rfl, rfl⟩

theorem Same.symm (h : L.Same L' z) : L'.Same L z :=
  ⟨h.left.symm, h.right.symm, h.parent.symm⟩

theorem Same.trans (h : L.Same L' z) (h' : L'.Same L'' z) : L.Same L'' z :=
  ⟨h'.left.trans h.left, h'.right.trans h.right, h'.parent.trans h.parent⟩

/-! ### Two views of a tree -/

theorem holds_plug : L.Holds (p.plug t) ↔ L.At p t := by
  have hiff : (L.root = (p.plug t).top ∧ L.Subtree (p.plug t) none) ↔
      L.Around p t.top ∧ L.Subtree t p.top := by
    induction p generalizing t with
    | root => exact Iff.rfl
    | left x r up ih =>
      rw [Path.plug, ih, Around, Subtree, top_node, Path.top_left]
      tauto
    | right l x up ih =>
      rw [Path.plug, ih, Around, Subtree, top_node, Path.top_right]
      tauto
  constructor
  · rintro ⟨h1, h2, h3⟩
    obtain ⟨h4, h5⟩ := hiff.1 ⟨h1, h2⟩
    exact ⟨h4, h5, h3⟩
  · rintro ⟨h1, h2, h3⟩
    obtain ⟨h4, h5⟩ := hiff.2 ⟨h1, h2⟩
    exact ⟨h4, h5, h3⟩

theorem at_root : L.At .root t ↔ L.Holds t := (holds_plug (p := .root)).symm

theorem at_left : L.At (.left x r p) t ↔ L.At p (.node t x r) := by
  rw [← holds_plug, ← holds_plug, Path.plug_left]

theorem at_right : L.At (.right l x p) t ↔ L.At p (.node l x t) := by
  rw [← holds_plug, ← holds_plug, Path.plug_right]

theorem at_append : L.At (q.append p) t ↔ L.At p (q.plug t) := by
  rw [← holds_plug, ← holds_plug, Path.plug_append]

/-! ### Left and right exchanged -/

/-- The links with left and right exchanged. -/
def mirror (L : Links ι) : Links ι := ⟨L.right, L.left, L.parent, L.root⟩

@[simp] theorem mirror_left : L.mirror.left = L.right := rfl

@[simp] theorem mirror_right : L.mirror.right = L.left := rfl

@[simp] theorem mirror_parent : L.mirror.parent = L.parent := rfl

@[simp] theorem mirror_root : L.mirror.root = L.root := rfl

theorem mirror_mirror (L : Links ι) : L.mirror.mirror = L := rfl

theorem subtree_mirror : L.mirror.Subtree t.mirror c ↔ L.Subtree t c := by
  induction t generalizing c with
  | nil => exact Iff.rfl
  | node l x r ihl ihr =>
    rw [SearchTree.mirror, Subtree, Subtree, ihl, ihr, top_mirror, top_mirror]
    simp only [mirror_left, mirror_right, mirror_parent]
    tauto

theorem around_mirror : L.mirror.Around p.mirror c ↔ L.Around p c := by
  induction p generalizing c with
  | root => exact Iff.rfl
  | left x r up ih =>
    rw [Path.mirror, Around, Around, ih, subtree_mirror, top_mirror, Path.top_mirror]
    simp only [mirror_left, mirror_right, mirror_parent]
    tauto
  | right l x up ih =>
    rw [Path.mirror, Around, Around, ih, subtree_mirror, top_mirror, Path.top_mirror]
    simp only [mirror_left, mirror_right, mirror_parent]
    tauto

theorem at_mirror : L.mirror.At p.mirror t.mirror ↔ L.At p t := by
  constructor
  · rintro ⟨h1, h2, h3⟩
    rw [top_mirror, around_mirror] at h1
    rw [Path.top_mirror, subtree_mirror] at h2
    rw [← Path.mirror_plug, toList_mirror, List.nodup_reverse] at h3
    exact ⟨h1, h2, h3⟩
  · rintro ⟨h1, h2, h3⟩
    refine ⟨?_, ?_, ?_⟩
    · rwa [top_mirror, around_mirror]
    · rwa [Path.top_mirror, subtree_mirror]
    · rwa [← Path.mirror_plug, toList_mirror, List.nodup_reverse]

theorem holds_mirror (h : L.Holds t) : L.mirror.Holds t.mirror :=
  at_root.1 (at_mirror.2 (at_root.2 h))

/-! ### What the same links keep -/

/-- Only the links of the nodes matter. -/
theorem Subtree.congr (h : L.Subtree t c) (hs : ∀ z ∈ t.toList, L.Same L' z) :
    L'.Subtree t c := by
  induction t generalizing c with
  | nil => trivial
  | node l x r ihl ihr =>
    obtain ⟨h1, h2, h3, h4, h5⟩ := h
    simp only [toList, List.mem_append, List.mem_cons] at hs
    have hx := hs x (.inr (.inl rfl))
    exact ⟨hx.parent.trans h1, hx.left.trans h2, hx.right.trans h3,
      ihl h4 fun z hz => hs z (.inl hz), ihr h5 fun z hz => hs z (.inr (.inr hz))⟩

/-- The links of the nodes of a tree are determined by the tree. -/
theorem Subtree.unique (h : L.Subtree t c) (h' : L'.Subtree t c) :
    ∀ z ∈ t.toList, L.Same L' z := by
  induction t generalizing c with
  | nil => exact fun z hz => absurd hz List.not_mem_nil
  | node l x r ihl ihr =>
    obtain ⟨h1, h2, h3, h4, h5⟩ := h
    obtain ⟨h1', h2', h3', h4', h5'⟩ := h'
    intro z hz
    simp only [toList, List.mem_append, List.mem_cons] at hz
    rcases hz with hz | rfl | hz
    · exact ihl h4 h4' z hz
    · exact ⟨h2'.trans h2.symm, h3'.trans h3.symm, h1'.trans h1.symm⟩
    · exact ihr h5 h5' z hz

/-- A subtree gets another parent. -/
theorem Subtree.reparent (h : L.Subtree t c) (hn : t.toList.Nodup)
    (hs : ∀ z ∈ t.toList, t.top ≠ some z → L.Same L' z)
    (htop : ∀ z, t.top = some z → L'.left z = L.left z ∧ L'.right z = L.right z ∧
      L'.parent z = d) : L'.Subtree t d := by
  cases t with
  | nil => trivial
  | node l x r =>
    obtain ⟨-, h2, h3, h4, h5⟩ := h
    obtain ⟨k1, k2, k3⟩ := htop x rfl
    simp only [toList] at hn
    rw [List.nodup_append', List.nodup_cons] at hn
    obtain ⟨-, ⟨hxr, -⟩, hdis⟩ := hn
    simp only [toList, List.mem_append, List.mem_cons, top_node, ne_eq, Option.some.injEq] at hs
    refine ⟨k3, k1.trans h2, k2.trans h3, h4.congr fun z hz => hs z (.inl hz) ?_,
      h5.congr fun z hz => hs z (.inr (.inr hz)) ?_⟩
    · rintro rfl
      exact hdis hz List.mem_cons_self
    · rintro rfl
      exact hxr hz

theorem Around.congr (h : L.Around p c) (hs : ∀ z, p.Mem z → L.Same L' z)
    (hroot : L'.root = L.root) : L'.Around p c := by
  induction p generalizing c with
  | root => exact hroot.trans h
  | left x r up ih =>
    obtain ⟨h1, h2, h3, h4, h5⟩ := h
    simp only [Path.mem_left] at hs
    have hx := hs x (.inl rfl)
    exact ⟨hx.parent.trans h1, hx.left.trans h2, hx.right.trans h3,
      h4.congr fun z hz => hs z (.inr (.inl hz)), ih h5 fun z hz => hs z (.inr (.inr hz))⟩
  | right l x up ih =>
    obtain ⟨h1, h2, h3, h4, h5⟩ := h
    simp only [Path.mem_right] at hs
    have hx := hs x (.inl rfl)
    exact ⟨hx.parent.trans h1, hx.left.trans h2, hx.right.trans h3,
      h4.congr fun z hz => hs z (.inr (.inl hz)), ih h5 fun z hz => hs z (.inr (.inr hz))⟩

/-! ### Walks -/

section Walks

variable {stop : ι → ι → Prop} [DecidableRel stop]

/-- Follow one link of the nodes down to the node where it ends. -/
def sink (next : ι → Option ι) : ℕ → ι → Option ι
  | 0, _ => none
  | n + 1, x =>
    match next x with
    | none => some x
    | some y => sink next n y

/-- Go up from a node until the walk stops at a parent. -/
def climb (L : Links ι) (stop : ι → ι → Prop) [DecidableRel stop] : ℕ → ι → Option (Option ι)
  | 0, _ => none
  | n + 1, last =>
    match L.parent last with
    | none => some none
    | some x => if stop x last then some (some x) else climb L stop n x

theorem climb_mirror {n : ℕ} : L.mirror.climb stop n x = L.climb stop n x := by
  induction n generalizing x with
  | zero => rfl
  | succ n ih =>
    rw [climb, climb, mirror_parent]
    cases L.parent x with
    | none => rfl
    | some y =>
      dsimp only
      rw [ih]

/-- Down to the left is the first node of a subtree. -/
theorem Subtree.sink_left {n : ℕ} (h : L.Subtree t c) (ht : t.top = some x)
    (hn : t.height ≤ n) : sink L.left n x = t.toList.head? := by
  induction t generalizing x c n with
  | nil => cases ht
  | node l y r ih _ =>
    cases ht
    obtain ⟨-, h2, -, h4, -⟩ := h
    rw [height] at hn
    obtain ⟨n, rfl⟩ : ∃ k, n = k + 1 := ⟨n - 1, by omega⟩
    rw [sink, h2]
    cases l with
    | nil => rfl
    | node l z m =>
      rw [top_node]
      dsimp only
      have hne : (SearchTree.node l z m).toList ≠ [] := by simp [toList]
      rw [ih h4 rfl (by omega), toList.eq_2 (SearchTree.node l z m),
        List.head?_append_of_ne_nil _ hne]

theorem Subtree.parent_top (h : L.Subtree t c) (hx : t.top = some x) : L.parent x = c := by
  cases t with
  | nil => cases hx
  | node l y r =>
    cases hx
    exact h.1

/-- Up from a subtree, to the first parent whose left child the walk comes from, is the first
node behind it. -/
theorem At.climb {n : ℕ} (h : L.At p t) (hx : t.top = some x) (hn : p.depth < n)
    (hl : ∀ x y, L.left x = some y → L.right x ≠ some y → stop x y)
    (hr : ∀ x y, L.right x = some y → L.left x ≠ some y → ¬ stop x y) :
    L.climb stop n x = some p.after.head? := by
  induction p generalizing t x n with
  | root =>
    obtain ⟨n, rfl⟩ : ∃ k, n = k + 1 := ⟨n - 1, by omega⟩
    rw [Links.climb, h.subtree.parent_top hx]
    rfl
  | left y r up ih =>
    obtain ⟨n, rfl⟩ : ∃ k, n = k + 1 := ⟨n - 1, by omega⟩
    have h' := at_left.1 h
    have hdis := (nodup_node.1 (Path.nodup_plug.1 h'.nodup).2.1).2.2.2.2
    obtain ⟨-, h2, h3, -⟩ := h'.subtree
    have hstop : stop y x := by
      refine hl y x (h2.trans hx) ?_
      rw [h3]
      exact fun he => hdis x (mem_of_top hx) (mem_of_top he)
    rw [Links.climb, h.subtree.parent_top hx, Path.top_left]
    dsimp only
    rw [if_pos hstop]
    rfl
  | right l y up ih =>
    obtain ⟨n, rfl⟩ : ∃ k, n = k + 1 := ⟨n - 1, by omega⟩
    have h' := at_right.1 h
    have hdis := (nodup_node.1 (Path.nodup_plug.1 h'.nodup).2.1).2.2.2.2
    obtain ⟨-, h2, h3, -⟩ := h'.subtree
    have hstop : ¬ stop y x := by
      refine hr y x (h3.trans hx) ?_
      rw [h2]
      exact fun he => hdis x (mem_of_top he) (mem_of_top hx)
    rw [Links.climb, h.subtree.parent_top hx, Path.top_right]
    dsimp only
    rw [if_neg hstop]
    rw [Path.depth] at hn
    exact ih h' rfl (by omega)

/-- The first node behind `x` is the first one below it to the right, or above it. -/
theorem At.next {n : ℕ} (h : L.At p (.node l x r)) (hn : p.depth < n) (hm : r.height ≤ n)
    (hl : ∀ x y, L.left x = some y → L.right x ≠ some y → stop x y)
    (hr : ∀ x y, L.right x = some y → L.left x ≠ some y → ¬ stop x y) :
    (match L.right x with
      | some y => (sink L.left n y).map some
      | none => L.climb stop n x) = some (r.toList ++ p.after).head? := by
  obtain ⟨-, -, h3, -, h5⟩ := h.subtree
  rw [h3]
  cases r with
  | nil => exact h.climb rfl hn hl hr
  | node m y r =>
    rw [top_node]
    dsimp only
    rw [h5.sink_left rfl hm, List.head?_append]
    cases h6 : (SearchTree.node m y r).toList.head? with
    | none => simp [toList] at h6
    | some z => rfl

end Walks

/-! ### Searches -/

/-- Search from a place on for a node that compares as zero, or for the place of a new node and
its parent. -/
def descend (L : Links ι) (compare : ι → ℤ) :
    ℕ → Option ι → Slot ι → Option (ι ⊕ Option ι × Slot ι)
  | 0, _, _ => none
  | n + 1, parent, link =>
    match L.get link with
    | none => some (.inr (parent, link))
    | some x =>
      if compare x = 0 then some (.inl x)
      else if compare x < 0 then descend L compare n (some x) (.left x)
      else descend L compare n (some x) (.right x)

theorem Around.get_slot (h : L.Around p c) : L.get (slot p) = c := by
  cases p with
  | root => exact h
  | left x r up => exact h.2.1
  | right l x up => exact h.2.2.1

theorem At.descend {compare : ι → ℤ} {n : ℕ} (h : L.At p t) (hn : t.height < n) :
    L.descend compare n p.top (slot p) =
      some ((way compare p t).map id fun q => (q.top, slot q)) := by
  induction t generalizing p n with
  | nil =>
    obtain ⟨n, rfl⟩ : ∃ k, n = k + 1 := ⟨n - 1, by omega⟩
    rw [Links.descend, h.around.get_slot]
    rfl
  | node l x r ihl ihr =>
    obtain ⟨n, rfl⟩ : ∃ k, n = k + 1 := ⟨n - 1, by omega⟩
    rw [height] at hn
    rw [Links.descend, h.around.get_slot, way, top_node]
    dsimp only
    split_ifs
    · rfl
    · exact ihl (at_left.2 h) (by omega)
    · exact ihr (at_right.2 h) (by omega)

/-! ### Another node in the place of a node -/

/-- What is written when the node `y` takes the place of `x`, below the link that leads to it. -/
structure Placed (L L' : Links ι) (x y : ι) : Prop where
  left : L'.left y = L.left x
  right : L'.right y = L.right x
  parent : L'.parent y = L.parent x
  child : ∀ z, z ≠ y → L.left x = some z ∨ L.right x = some z → L.parent x ≠ some z →
    L'.left z = L.left z ∧ L'.right z = L.right z ∧ L'.parent z = some y
  same : ∀ z, z ≠ y → L.left x ≠ some z → L.right x ≠ some z → L.parent x ≠ some z →
    L.Same L' z

/-- Another node takes the place of a node. -/
theorem At.replaceNode (h : L.At p (.node l x r)) (hy : y ∉ (p.plug (.node l x r)).toList)
    (ha : L'.Around p (some y)) (hL : L.Placed L' x y) : L'.At p (.node l y r) := by
  obtain ⟨-, ⟨hx1, hx2, hx3, hl, hr⟩, hn⟩ := h
  obtain ⟨hp, hnode, hout⟩ := Path.nodup_plug.1 hn
  obtain ⟨hln, hrn, hxl, hxr, hlr⟩ := nodup_node.1 hnode
  simp only [Path.mem_plug, mem_node, not_or] at hy hout
  have hpz : ∀ z, z ∈ l.toList ∨ z ∈ r.toList → L.parent x ≠ some z := fun z hz he =>
    hout z (by tauto) (Path.mem_top (hx1.symm.trans he))
  refine ⟨ha, ⟨hL.parent.trans hx1, hL.left.trans hx2, hL.right.trans hx3, ?_, ?_⟩, ?_⟩
  · have hne : ∀ z ∈ l.toList, z ≠ y ∧ L.right x ≠ some z := by
      refine fun z hz => ⟨?_, fun he => ?_⟩
      · rintro rfl
        exact hy.2.1 hz
      · exact hlr z hz (mem_of_top (hx3.symm.trans he))
    refine hl.reparent hln (fun z hz hzt => ?_) fun z hz => ?_
    · exact hL.same z (hne z hz).1 (hx2 ▸ hzt) (hne z hz).2 (hpz z (.inl hz))
    · have hzl := mem_of_top hz
      exact hL.child z (hne z hzl).1 (.inl (hx2.trans hz)) (hpz z (.inl hzl))
  · have hne : ∀ z ∈ r.toList, z ≠ y ∧ L.left x ≠ some z := by
      refine fun z hz => ⟨?_, fun he => ?_⟩
      · rintro rfl
        exact hy.2.2.2 hz
      · exact hlr z (mem_of_top (hx2.symm.trans he)) hz
    refine hr.reparent hrn (fun z hz hzt => ?_) fun z hz => ?_
    · exact hL.same z (hne z hz).1 (hne z hz).2 (hx3 ▸ hzt) (hpz z (.inr hz))
    · have hzr := mem_of_top hz
      exact hL.child z (hne z hzr).1 (.inr (hx3.trans hz)) (hpz z (.inr hzr))
  · rw [Path.nodup_plug, nodup_node]
    simp only [mem_node]
    refine ⟨hp, ⟨hln, hrn, hy.2.1, hy.2.2.2, hlr⟩, ?_⟩
    rintro z (hz | rfl | hz)
    · exact hout z (.inl hz)
    · exact hy.1
    · exact hout z (.inr (.inr hz))

/-! ### Writing links -/

variable [DecidableEq ι]

/-- Write the link to the left child. -/
def setLeft (L : Links ι) (x : ι) (v : Option ι) : Links ι :=
  { L with left := Function.update L.left x v }

/-- Write the link to the right child. -/
def setRight (L : Links ι) (x : ι) (v : Option ι) : Links ι :=
  { L with right := Function.update L.right x v }

/-- Write the link to the parent. -/
def setParent (L : Links ι) (x : ι) (v : Option ι) : Links ι :=
  { L with parent := Function.update L.parent x v }

/-- Write the link to the parent of the node a pointer leads to, if it leads to one. -/
def setParentOf (L : Links ι) : Option ι → Option ι → Links ι
  | none, _ => L
  | some x, v => L.setParent x v

/-- Write the pointer in a place. -/
def set (L : Links ι) (v : Option ι) : Slot ι → Links ι
  | .root => { L with root := v }
  | .left x => L.setLeft x v
  | .right x => L.setRight x v

/-- Write the link, or the pointer to the root, that leads to the child `old` of a parent. -/
def replaceChild (L : Links ι) (old : ι) (new : Option ι) : Option ι → Links ι
  | none => { L with root := new }
  | some x => if L.left x = some old then L.setLeft x new else L.setRight x new

section Fields

variable {v w : Option ι}

@[simp] theorem setLeft_left : (L.setLeft x v).left z = if z = x then v else L.left z :=
  Function.update_apply ..

@[simp] theorem setLeft_right : (L.setLeft x v).right = L.right := rfl

@[simp] theorem setLeft_parent : (L.setLeft x v).parent = L.parent := rfl

@[simp] theorem setLeft_root : (L.setLeft x v).root = L.root := rfl

@[simp] theorem setRight_left : (L.setRight x v).left = L.left := rfl

@[simp] theorem setRight_right : (L.setRight x v).right z = if z = x then v else L.right z :=
  Function.update_apply ..

@[simp] theorem setRight_parent : (L.setRight x v).parent = L.parent := rfl

@[simp] theorem setRight_root : (L.setRight x v).root = L.root := rfl

@[simp] theorem setParent_left : (L.setParent x v).left = L.left := rfl

@[simp] theorem setParent_right : (L.setParent x v).right = L.right := rfl

@[simp] theorem setParent_parent :
    (L.setParent x v).parent z = if z = x then v else L.parent z :=
  Function.update_apply ..

@[simp] theorem setParent_root : (L.setParent x v).root = L.root := rfl

@[simp] theorem setParentOf_left : (L.setParentOf c v).left = L.left := by cases c <;> rfl

@[simp] theorem setParentOf_right : (L.setParentOf c v).right = L.right := by cases c <;> rfl

@[simp] theorem setParentOf_parent :
    (L.setParentOf c v).parent z = if c = some z then v else L.parent z := by
  cases c with
  | none => rfl
  | some x =>
    rw [setParentOf, setParent_parent]
    refine if_congr ?_ rfl rfl
    rw [Option.some.injEq, eq_comm]

@[simp] theorem setParentOf_root : (L.setParentOf c v).root = L.root := by cases c <;> rfl

@[simp] theorem replaceChild_parent : (L.replaceChild x v c).parent = L.parent := by
  cases c with
  | none => rfl
  | some y => rw [replaceChild]; split <;> rfl

theorem replaceChild_left (h : c ≠ some z) : (L.replaceChild x v c).left z = L.left z := by
  cases c with
  | none => rfl
  | some y =>
    have hy : z ≠ y := fun e => h (by rw [e])
    rw [replaceChild]
    split
    · rw [setLeft_left, if_neg hy]
    · rfl

theorem replaceChild_right (h : c ≠ some z) : (L.replaceChild x v c).right z = L.right z := by
  cases c with
  | none => rfl
  | some y =>
    have hy : z ≠ y := fun e => h (by rw [e])
    rw [replaceChild]
    split
    · rfl
    · rw [setRight_right, if_neg hy]

/-- Writing parents and replacing a child touch different links. -/
theorem replaceChild_setParentOf :
    (L.setParentOf d w).replaceChild x v c = (L.replaceChild x v c).setParentOf d w := by
  cases d with
  | none => rfl
  | some y =>
    cases c with
    | none => rfl
    | some q =>
      rw [replaceChild, replaceChild]
      by_cases h : L.left q = some x
      · rw [if_pos h, if_pos (show (L.setParentOf (some y) w).left q = some x from h)]
        rfl
      · rw [if_neg h, if_neg (show (L.setParentOf (some y) w).left q ≠ some x from h)]
        rfl

end Fields

theorem same_setLeft {v : Option ι} (h : z ≠ x) : L.Same (L.setLeft x v) z :=
  ⟨by rw [setLeft_left, if_neg h], rfl, rfl⟩

theorem same_setRight {v : Option ι} (h : z ≠ x) : L.Same (L.setRight x v) z :=
  ⟨rfl, by rw [setRight_right, if_neg h], rfl⟩

theorem same_setParent {v : Option ι} (h : z ≠ x) : L.Same (L.setParent x v) z :=
  ⟨rfl, rfl, by rw [setParent_parent, if_neg h]⟩

theorem same_setParentOf {v : Option ι} (h : c ≠ some z) : L.Same (L.setParentOf c v) z :=
  ⟨by rw [setParentOf_left], by rw [setParentOf_right], by rw [setParentOf_parent, if_neg h]⟩

theorem same_replaceChild {v : Option ι} (h : c ≠ some z) : L.Same (L.replaceChild x v c) z :=
  ⟨replaceChild_left h, replaceChild_right h, by rw [replaceChild_parent]⟩

/-- The pointer to the hole is changed, and the rest of the way stays. -/
theorem Around.set (h : L.Around p c) (hn : (p.plug .nil).toList.Nodup) :
    (L.set d (slot p)).Around p d := by
  cases p with
  | root => rfl
  | left y r up =>
    obtain ⟨h1, h2, h3, h4, h5⟩ := h
    rw [Path.plug_left, Path.nodup_plug] at hn
    obtain ⟨-, hnode, hup⟩ := hn
    simp only [toList, List.nil_append, List.nodup_cons, List.mem_cons] at hnode hup
    refine ⟨h1, by rw [slot, Links.set, setLeft_left, if_pos rfl], h3,
      h4.congr fun z hz => same_setLeft ?_, h5.congr (fun z hz => same_setLeft ?_) rfl⟩
    · rintro rfl
      exact hnode.1 hz
    · rintro rfl
      exact hup z (.inl rfl) hz
  | right l y up =>
    obtain ⟨h1, h2, h3, h4, h5⟩ := h
    rw [Path.plug_right, Path.nodup_plug] at hn
    obtain ⟨-, hnode, hup⟩ := hn
    simp only [toList, List.nodup_append', List.mem_append, List.mem_singleton] at hnode hup
    refine ⟨h1, h2, by rw [slot, Links.set, setRight_right, if_pos rfl],
      h4.congr fun z hz => same_setRight ?_, h5.congr (fun z hz => same_setRight ?_) rfl⟩
    · rintro rfl
      exact hnode.2.2 hz (List.mem_singleton_self z)
    · rintro rfl
      exact hup z (.inr rfl) hz

/-- What is replaced is the pointer to the hole. -/
theorem Around.replaceChild_eq (h : L.Around p (some x)) (hx : ¬ p.Mem x) :
    L.replaceChild x c p.top = L.set c (slot p) := by
  cases p with
  | root => rfl
  | left y r up => exact if_pos h.2.1
  | right l y up =>
    refine if_neg fun he => hx (Path.mem_right.2 (.inr (.inl (mem_of_top ?_))))
    exact h.2.1.symm.trans he

/-- Between writes of nodes that are not on the way, the link to the hole is changed. -/
theorem Around.relink {K : Links ι} (h : L.Around p (some x)) (hx : ¬ p.Mem x)
    (hn : (p.plug t).toList.Nodup) (h1 : ∀ z, p.Mem z → L.Same K z) (hr1 : K.root = L.root)
    (h2 : ∀ z, p.Mem z → (K.replaceChild x c p.top).Same L' z)
    (hr2 : L'.root = (K.replaceChild x c p.top).root) : L'.Around p c := by
  have hmid := h.congr h1 hr1
  refine Around.congr ?_ h2 hr2
  rw [hmid.replaceChild_eq hx]
  exact hmid.set (Path.nodup_of_sublist hn (List.nil_sublist _))

/-- In the mirror the other child of the parent is looked at. -/
theorem Around.replaceChild_mirror (h : L.Around p (some x)) (hx : ¬ p.Mem x) :
    L.mirror.replaceChild x c p.top = (L.replaceChild x c p.top).mirror := by
  have h' := (around_mirror.2 h).replaceChild_eq (c := c) (Path.mem_mirror.not.2 hx)
  rw [Path.top_mirror] at h'
  rw [h', h.replaceChild_eq hx]
  cases p <;> rfl

/-! ### Rotations -/

/-- The children that change in a rotation of `x` to the left, below the link that leads to it. -/
def turnLeft (L : Links ι) (x y : ι) : Links ι :=
  (((L.setRight x (L.left y)).setParentOf (L.left y) (some x)).setLeft y (some x)).setParent y
    (L.parent x)

/-- Rotate the node `x` to the left: its right child `y` takes its place. -/
def rotateLeft (L : Links ι) (x y : ι) : Links ι :=
  ((L.turnLeft x y).replaceChild x (some y) (L.parent x)).setParent x (some y)

/-- The children that change in a rotation of `x` to the right. -/
def turnRight (L : Links ι) (x y : ι) : Links ι :=
  (((L.setLeft x (L.right y)).setParentOf (L.right y) (some x)).setRight y (some x)).setParent y
    (L.parent x)

/-- Rotate the node `x` to the right: its left child `y` takes its place. -/
def rotateRight (L : Links ι) (x y : ι) : Links ι :=
  ((L.turnRight x y).replaceChild x (some y) (L.parent x)).setParent x (some y)

theorem same_turnLeft (hx : z ≠ x) (hy : z ≠ y) (hm : L.left y ≠ some z) :
    L.Same (L.turnLeft x y) z :=
  ((same_setRight hx).trans (same_setParentOf hm)).trans
    ((same_setLeft hy).trans (same_setParent hy))

theorem same_rotateLeft (hx : z ≠ x) (hy : z ≠ y) (hm : L.left y ≠ some z)
    (hp : L.parent x ≠ some z) : L.Same (L.rotateLeft x y) z :=
  (same_turnLeft hx hy hm).trans ((same_replaceChild hp).trans (same_setParent hx))

/-- The way does not notice the children that change. -/
theorem At.around_turnLeft (h : L.At p (.node l x (.node m y r))) :
    (L.turnLeft x y).Around p (some x) := by
  obtain ⟨ha, ⟨-, -, -, -, -, hy2, -⟩, hn⟩ := h
  have hout := (Path.nodup_plug.1 hn).2.2
  simp only [mem_node] at hout
  refine ha.congr (fun z hz => ?_) (by simp [turnLeft])
  refine same_turnLeft ?_ ?_ fun he => ?_
  · rintro rfl
    exact hout z (.inr (.inl rfl)) hz
  · rintro rfl
    exact hout z (.inr (.inr (.inr (.inl rfl)))) hz
  · exact hout z (.inr (.inr (.inl (mem_of_top (hy2.symm.trans he))))) hz

theorem At.rotateLeft (h : L.At p (.node l x (.node m y r))) :
    (L.rotateLeft x y).At p (.node (.node l x m) y r) := by
  have hturn := h.around_turnLeft
  obtain ⟨ha, ⟨hx1, hx2, hx3, hl, hy1, hy2, hy3, hm, hr⟩, hn⟩ := h
  have hn' : (p.plug (.node (.node l x m) y r)).toList.Nodup :=
    Path.nodup_of_perm hn (by simp only [toList, List.append_assoc, List.cons_append]; rfl)
  obtain ⟨hp, ht, hout⟩ := Path.nodup_plug.1 hn
  simp only [nodup_node, mem_node, not_or] at ht hout
  obtain ⟨hln, ⟨hmn, hrn, hym, hyr, hmr⟩, hxl, ⟨hxm, hxy, hxr⟩, hlr⟩ := ht
  have hpx : ¬ p.Mem x := hout x (.inr (.inl rfl))
  have hpy : ¬ p.Mem y := hout y (.inr (.inr (.inr (.inl rfl))))
  have hpz : ∀ z, ¬ p.Mem z → L.parent x ≠ some z := fun z hz he =>
    hz (Path.mem_top (hx1.symm.trans he))
  refine ⟨?_, ?_, hn'⟩
  · refine hturn.relink hpx hn (fun z _ => Same.refl _ z) rfl (fun z hz => ?_) ?_
    · rw [← hx1]
      exact same_setParent fun e => hpx (e ▸ hz)
    · rw [← hx1]
      rfl
  · -- outside of `x`, `y` and the root of the middle tree no link of the subtree is written
    have hsame : ∀ z, z ∈ l.toList ∨ z ∈ m.toList ∨ z ∈ r.toList → L.left y ≠ some z →
        L.Same (L.rotateLeft x y) z := by
      intro z hz hne
      refine same_rotateLeft ?_ ?_ hne (hpz z (hout z (by tauto)))
      · rintro rfl
        tauto
      · rintro rfl
        have := hlr z
        tauto
    refine ⟨?_, ?_, ?_, ⟨?_, ?_, ?_, ?_, ?_⟩, ?_⟩
    · simp [Links.rotateLeft, turnLeft, Ne.symm hxy, hx1]
    · simp [Links.rotateLeft, turnLeft, replaceChild_left (hpz y hpy)]
    · simp [Links.rotateLeft, turnLeft, replaceChild_right (hpz y hpy), Ne.symm hxy, hy3]
    · simp [Links.rotateLeft]
    · simp [Links.rotateLeft, turnLeft, replaceChild_left (hpz x hpx), hxy, hx2]
    · simp [Links.rotateLeft, turnLeft, replaceChild_right (hpz x hpx), hy2]
    · refine hl.congr fun z hz => hsame z (.inl hz) fun he => ?_
      exact (hlr z hz).1 (mem_of_top (hy2.symm.trans he))
    · refine hm.reparent hmn (fun z hz hne => hsame z (.inr (.inl hz)) (hy2 ▸ hne)) ?_
      intro z hz
      have hzm := mem_of_top hz
      have hzx : z ≠ x := fun e => hxm (e ▸ hzm)
      have hzy : z ≠ y := fun e => hym (e ▸ hzm)
      have hpz' := hpz z (hout z (.inr (.inr (.inl hzm))))
      refine ⟨?_, ?_, ?_⟩
      · simp [Links.rotateLeft, turnLeft, replaceChild_left hpz', hzy]
      · simp [Links.rotateLeft, turnLeft, replaceChild_right hpz', hzx]
      · simp [Links.rotateLeft, turnLeft, hzx, hzy, hy2, hz]
    · refine hr.congr fun z hz => hsame z (.inr (.inr hz)) fun he => ?_
      exact hmr z (mem_of_top (hy2.symm.trans he)) hz

/-- Nodes that are not in the tree stay as they are. -/
theorem At.same_rotateLeft (h : L.At p (.node l x (.node m y r)))
    (hz : z ∉ (p.plug (.node l x (.node m y r))).toList) : L.Same (L.rotateLeft x y) z := by
  obtain ⟨-, ⟨hx1, -, -, -, -, hy2, -⟩, -⟩ := h
  simp only [Path.mem_plug, mem_node, not_or] at hz
  obtain ⟨hzp, -, hzx, hzm, hzy, -⟩ := hz
  refine Links.same_rotateLeft hzx hzy (fun he => ?_) fun he => ?_
  · exact hzm (mem_of_top (hy2.symm.trans he))
  · exact hzp (Path.mem_top (hx1.symm.trans he))

theorem mirror_turnLeft : (L.mirror.turnLeft x y).mirror = L.turnRight x y := by
  unfold turnLeft turnRight
  rw [mirror_left]
  cases L.right y <;> rfl

/-- In the mirror a rotation to the left is one to the right. -/
theorem At.mirror_rotateLeft (h : L.At p (.node (.node l y m) x r)) :
    (L.mirror.rotateLeft x y).mirror = L.rotateRight x y := by
  have hpx : ¬ p.mirror.Mem x := (Path.nodup_plug.1 (at_mirror.2 h).nodup).2.2 x
    (mem_node.2 (.inr (.inl rfl)))
  have hx1 : L.mirror.parent x = p.mirror.top := by
    rw [Path.top_mirror]
    exact h.subtree.1
  have hmid := (at_mirror.2 h).around_turnLeft.replaceChild_mirror (c := some y) hpx
  rw [mirror_turnLeft, ← hx1] at hmid
  exact congrArg (fun L' : Links ι => L'.setParent x (some y)) hmid.symm

theorem At.rotateRight (h : L.At p (.node (.node l y m) x r)) :
    (L.rotateRight x y).At p (.node l y (.node m x r)) := by
  rw [← h.mirror_rotateLeft, ← at_mirror]
  exact (at_mirror.2 h).rotateLeft

theorem At.same_rotateRight (h : L.At p (.node (.node l y m) x r))
    (hz : z ∉ (p.plug (.node (.node l y m) x r)).toList) : L.Same (L.rotateRight x y) z := by
  rw [← List.mem_reverse, ← toList_mirror, Path.mirror_plug] at hz
  have hmir := (at_mirror.2 h).same_rotateLeft hz
  rw [← h.mirror_rotateLeft]
  exact ⟨hmir.right, hmir.left, hmir.parent⟩

/-! ### A new node -/

/-- Link a new node in a place. -/
def link (L : Links ι) (x : ι) (parent : Option ι) (place : Slot ι) : Links ι :=
  (((L.setParent x parent).setRight x none).setLeft x none).set (some x) place

theorem same_set {v : Option ι} (h : c ≠ some z) (hc : p.top = c) :
    L.Same (L.set v (slot p)) z := by
  subst hc
  cases p with
  | root => exact ⟨rfl, rfl, rfl⟩
  | left y r up => exact same_setLeft fun e => h (by rw [e]; rfl)
  | right l y up => exact same_setRight fun e => h (by rw [e]; rfl)

theorem At.link (h : L.At p .nil) (hx : x ∉ (p.plug .nil).toList) :
    (L.link x p.top (slot p)).At p (.node .nil x .nil) := by
  have hpx : ¬ p.Mem x := fun hm => hx (Path.mem_plug.2 (.inl hm))
  have hsame : (((L.setParent x p.top).setRight x none).setLeft x none).Same
      (L.link x p.top (slot p)) x :=
    same_set (fun he => hpx (Path.mem_top he)) rfl
  refine ⟨Around.set (h.around.congr (fun z hz => ?_) rfl) h.nodup, ⟨?_, ?_, ?_, trivial, trivial⟩,
    ?_⟩
  · have hzx : z ≠ x := fun e => hpx (e ▸ hz)
    exact (same_setParent hzx).trans ((same_setRight hzx).trans (same_setLeft hzx))
  · simp [hsame.parent]
  · simp [hsame.left]
  · simp [hsame.right]
  · obtain ⟨hp, -, -⟩ := Path.nodup_plug.1 h.nodup
    refine Path.nodup_plug.2 ⟨hp, List.nodup_singleton x, fun z hz => ?_⟩
    rwa [List.mem_singleton.1 hz]

/-! ### A node is taken out, or another one takes its place -/

/-- Put a child in the place of the node `x`. -/
def cut (L : Links ι) (x : ι) (child : Option ι) : Links ι :=
  (L.replaceChild x child (L.parent x)).setParentOf child (L.parent x)

theorem same_cut (hc : c ≠ some z) (hp : L.parent x ≠ some z) : L.Same (L.cut x c) z :=
  (same_replaceChild hp).trans (same_setParentOf hc)

theorem At.cut (h : L.At p (.node l x r)) (ht : t = l ∨ t = r) :
    (L.cut x t.top).At p t := by
  obtain ⟨ha, ⟨hx1, -, -, hl, hr⟩, hn⟩ := h
  obtain ⟨-, hnode, hout⟩ := Path.nodup_plug.1 hn
  obtain ⟨hln, hrn, hxl, hxr, -⟩ := nodup_node.1 hnode
  have hmem : ∀ z ∈ t.toList, z ∈ (SearchTree.node l x r).toList := by
    rintro z hz
    rcases ht with rfl | rfl
    · exact mem_node.2 (.inl hz)
    · exact mem_node.2 (.inr (.inr hz))
  have htn : t.toList.Nodup ∧ L.Subtree t (some x) := by
    rcases ht with rfl | rfl
    · exact ⟨hln, hl⟩
    · exact ⟨hrn, hr⟩
  have hpx : ¬ p.Mem x := hout x (mem_node.2 (.inr (.inl rfl)))
  have hpz : ∀ z ∈ t.toList, L.parent x ≠ some z := fun z hz he =>
    hout z (hmem z hz) (Path.mem_top (hx1.symm.trans he))
  refine ⟨?_, ?_, ?_⟩
  · refine ha.relink hpx hn (fun z _ => Same.refl L z) rfl (fun z hz => ?_) ?_
    · rw [← hx1]
      exact same_setParentOf fun he => hout z (hmem z (mem_of_top he)) hz
    · rw [← hx1]
      simp [Links.cut]
  · refine htn.2.reparent htn.1 (fun z hz hne => same_cut hne (hpz z hz)) fun z hz => ?_
    have hz' := hpz z (mem_of_top hz)
    refine ⟨?_, ?_, ?_⟩
    · simp [Links.cut, replaceChild_left hz']
    · simp [Links.cut, replaceChild_right hz']
    · simp [Links.cut, hz, hx1]
  · refine Path.nodup_of_sublist hn ?_
    rcases ht with rfl | rfl
    · exact List.sublist_append_left ..
    · exact (List.sublist_cons_self ..).trans (List.sublist_append_right ..)

/-- Write all links of a node. -/
def setLinks (L : Links ι) (y : ι) (left right parent : Option ι) : Links ι :=
  ((L.setLeft y left).setRight y right).setParent y parent

theorem same_setLinks {a b : Option ι} (h : z ≠ y) : L.Same (L.setLinks y a b c) z :=
  (same_setLeft h).trans ((same_setRight h).trans (same_setParent h))

/-- The node `y` gets the links of `x`, then the pointer to `x`, and then the children of `x`. -/
theorem At.replaceNode_first (h : L.At p (.node l x r))
    (hy : y ∉ (p.plug (.node l x r)).toList) :
    ((((L.setLinks y (L.left x) (L.right x) (L.parent x)).replaceChild x (some y)
      (L.parent x)).setParentOf (L.left x) (some y)).setParentOf (L.right x) (some y)).At p
        (.node l y r) := by
  obtain ⟨ha, ⟨hx1, hx2, hx3, -, -⟩, hn⟩ := id h
  obtain ⟨-, -, hout⟩ := Path.nodup_plug.1 hn
  simp only [Path.mem_plug, mem_node, not_or] at hy hout
  obtain ⟨hyp, hyl, hyx, hyr⟩ := hy
  have hpx : ¬ p.Mem x := hout x (.inr (.inl rfl))
  have hpy : L.parent x ≠ some y := fun he => hyp (Path.mem_top (hx1.symm.trans he))
  have hly : L.left x ≠ some y := fun he => hyl (mem_of_top (hx2.symm.trans he))
  have hry : L.right x ≠ some y := fun he => hyr (mem_of_top (hx3.symm.trans he))
  refine h.replaceNode (by simp [Path.mem_plug, mem_node, hyp, hyl, hyx, hyr]) ?_
    ⟨?_, ?_, ?_, fun z hz hc hp => ⟨?_, ?_, ?_⟩, fun z hz hl hr hp => ?_⟩
  · refine ha.relink (K := L.setLinks y (L.left x) (L.right x) (L.parent x)) hpx hn
      (fun z hz => same_setLinks fun e => hyp (e ▸ hz)) rfl (fun z hz => ?_) ?_
    · rw [← hx1]
      refine (same_setParentOf fun he => ?_).trans (same_setParentOf fun he => ?_)
      · exact hout z (.inl (mem_of_top (hx2.symm.trans he))) hz
      · exact hout z (.inr (.inr (mem_of_top (hx3.symm.trans he)))) hz
    · rw [← hx1]
      simp
  · simp [replaceChild_left hpy, setLinks]
  · simp [replaceChild_right hpy, setLinks]
  · simp [hly, hry, setLinks]
  · simp [replaceChild_left hp, setLinks, hz]
  · simp [replaceChild_right hp, setLinks, hz]
  · rcases hc with hc | hc <;> simp [hc]
  · exact (same_setLinks hz).trans ((same_replaceChild hp).trans
      ((same_setParentOf hl).trans (same_setParentOf hr)))

theorem replaceChild_setLinks {a b v : Option ι} (h : d ≠ some y) :
    (L.setLinks y a b c).replaceChild x v d = (L.replaceChild x v d).setLinks y a b c := by
  cases d with
  | none => rfl
  | some q =>
    have hq : q ≠ y := fun e => h (by rw [e])
    have hleft : (L.setLinks y a b c).left q = L.left q := (same_setLinks hq).left
    rw [replaceChild, replaceChild, hleft]
    split_ifs
    · simp only [setLinks, setLeft, setRight, setParent, Function.update_comm hq]
    · simp only [setLinks, setLeft, setRight, setParent, Function.update_comm hq]

theorem setParentOf_setLinks {a b w : Option ι} (h : d ≠ some y) :
    (L.setLinks y a b c).setParentOf d w = (L.setParentOf d w).setLinks y a b c := by
  cases d with
  | none => rfl
  | some q =>
    have hq : q ≠ y := fun e => h (by rw [e])
    simp only [setLinks, setLeft, setRight, setParentOf, setParent, Function.update_comm hq]

/-- The node `y` gets the pointer to `x`, then the children of `x`, and then its links. -/
theorem At.replaceNode_last (h : L.At p (.node l x r))
    (hy : y ∉ (p.plug (.node l x r)).toList) :
    ((((L.replaceChild x (some y) (L.parent x)).setParentOf (L.left x) (some y)).setParentOf
      (L.right x) (some y)).setLinks y (L.left x) (L.right x) (L.parent x)).At p (.node l y r) := by
  have hfirst := h.replaceNode_first hy
  obtain ⟨hx1, hx2, hx3, -, -⟩ := h.subtree
  simp only [Path.mem_plug, mem_node, not_or] at hy
  obtain ⟨hyp, hyl, -, hyr⟩ := hy
  have hpy : L.parent x ≠ some y := fun he => hyp (Path.mem_top (hx1.symm.trans he))
  have hly : L.left x ≠ some y := fun he => hyl (mem_of_top (hx2.symm.trans he))
  have hry : L.right x ≠ some y := fun he => hyr (mem_of_top (hx3.symm.trans he))
  rwa [replaceChild_setLinks hpy, setParentOf_setLinks hly, setParentOf_setLinks hry] at hfirst

end Links

end LinkedTree
