/-
The balance of the trees of `avlmini.c`.

A tree is balanced when the heights of the two children of a node differ by at most one.  After an
insertion or a removal one subtree has another height than before; `Path.climb` goes from it up to
the root and fixes each node on the way.

* **`balanced_climb`** — the tree is balanced again if the height has changed by one;
* **`climb_of_balanced`** — nothing is changed above a subtree with the old height;
* **`avlNodePostInsert_plug`** — `avl_node_post_insert` climbs from the new node;
* **`avlNodeErase_plug`**, **`avlNodeErase_two`** — `avl_node_erase` climbs from the node that is
  taken out, or from the first node behind it;
* **`fib_height`** — a balanced tree of height `h` has at least `fib (h + 2) - 1` nodes.
-/
import AcoOs.AvlTree
import AcoOs.TreePath

namespace SearchTree

variable {α : Type*} {l r t : SearchTree α} {x a : α} {p : Path α} {k : ℕ}

/-- The heights of children differ by at most one. -/
def Balanced : SearchTree α → Prop
  | nil => True
  | node l _ r => l.height ≤ r.height + 1 ∧ r.height ≤ l.height + 1 ∧ l.Balanced ∧ r.Balanced

/-- The same of the nodes above a hole for a subtree of height `k`. -/
def Path.Balanced : Path α → ℕ → Prop
  | .root, _ => True
  | .left _ r up, k => k ≤ r.height + 1 ∧ r.height ≤ k + 1 ∧ r.Balanced ∧
      up.Balanced (max k r.height + 1)
  | .right l _ up, k => l.height ≤ k + 1 ∧ k ≤ l.height + 1 ∧ l.Balanced ∧
      up.Balanced (max l.height k + 1)

/-- Go up to the root and fix each node. -/
def Path.climb : Path α → SearchTree α → SearchTree α
  | .root, t => t
  | .left x r up, t => up.climb (avlNodeFix t x r)
  | .right l x up, t => up.climb (avlNodeFix l x t)

theorem balanced_leaf : (node nil a nil).Balanced :=
  ⟨Nat.zero_le _, Nat.zero_le _, trivial, trivial⟩

theorem balanced_plug : (p.plug t).Balanced ↔ p.Balanced t.height ∧ t.Balanced := by
  induction p generalizing t with
  | root => exact (true_and _).symm ▸ Iff.rfl
  | left x r up ih =>
    rw [Path.plug, ih, Path.Balanced, Balanced, height]
    tauto
  | right l x up ih =>
    rw [Path.plug, ih, Path.Balanced, Balanced, height]
    tauto

theorem toList_climb : (p.climb t).toList = (p.plug t).toList := by
  induction p generalizing t with
  | root => rfl
  | left x r up ih =>
    rw [Path.climb, ih, Path.plug, Path.toList_plug, Path.toList_plug, toList_avlNodeFix, toList]
  | right l x up ih =>
    rw [Path.climb, ih, Path.plug, Path.toList_plug, Path.toList_plug, toList_avlNodeFix, toList]

/-! ### One node is fixed -/

theorem avlNodeFix_of_near (hl : l.height ≤ r.height + 1) (hr : r.height ≤ l.height + 1) :
    avlNodeFix l x r = node l x r := by
  rw [avlNodeFix, if_neg (by omega), if_neg (by omega)]

/-- The right child is too high by one. -/
theorem balanced_avlNodeFixL (hl : l.Balanced) (hr : r.Balanced)
    (h : r.height = l.height + 2) : (avlNodeFixL l x r).Balanced ∧
      (avlNodeFixL l x r).height ≤ r.height + 1 ∧ r.height ≤ (avlNodeFixL l x r).height := by
  cases r with
  | nil => simp [height] at h
  | node rl y rr =>
    obtain ⟨h1, h2, hrl, hrr⟩ := hr
    rw [height] at h
    rw [avlNodeFixL]
    split_ifs with hlt
    · cases rl with
      | nil => simp [height] at hlt
      | node m z m' =>
        obtain ⟨h3, h4, hm, hm'⟩ := hrl
        simp only [height] at *
        simp only [avlNodeRotateRight, avlNodeRotateLeft, Balanced, height]
        refine ⟨⟨?_, ?_, ⟨?_, ?_, hl, hm⟩, ?_, ?_, hm', hrr⟩, ?_, ?_⟩ <;> omega
    · simp only [height] at *
      simp only [avlNodeRotateLeft, Balanced, height]
      refine ⟨⟨?_, ?_, ⟨?_, ?_, hl, hrl⟩, hrr⟩, ?_, ?_⟩ <;> omega

/-- The left child is too high by one. -/
theorem balanced_avlNodeFixR (hl : l.Balanced) (hr : r.Balanced)
    (h : l.height = r.height + 2) : (avlNodeFixR l x r).Balanced ∧
      (avlNodeFixR l x r).height ≤ l.height + 1 ∧ l.height ≤ (avlNodeFixR l x r).height := by
  cases l with
  | nil => simp [height] at h
  | node ll y lr =>
    obtain ⟨h1, h2, hll, hlr⟩ := hl
    rw [height] at h
    rw [avlNodeFixR]
    split_ifs with hlt
    · cases lr with
      | nil => simp [height] at hlt
      | node m z m' =>
        obtain ⟨h3, h4, hm, hm'⟩ := hlr
        simp only [height] at *
        simp only [avlNodeRotateRight, avlNodeRotateLeft, Balanced, height]
        refine ⟨⟨?_, ?_, ⟨?_, ?_, hll, hm⟩, ?_, ?_, hm', hr⟩, ?_, ?_⟩ <;> omega
    · simp only [height] at *
      simp only [avlNodeRotateRight, Balanced, height]
      refine ⟨⟨?_, ?_, hll, ?_, ?_, hlr, hr⟩, ?_, ?_⟩ <;> omega

/-- A node is fixed without a change of more than one to its height. -/
theorem balanced_avlNodeFix (hl : l.Balanced) (hr : r.Balanced) (h1 : l.height ≤ r.height + 2)
    (h2 : r.height ≤ l.height + 2) : (avlNodeFix l x r).Balanced ∧
      (avlNodeFix l x r).height ≤ max l.height r.height + 1 ∧
      max l.height r.height ≤ (avlNodeFix l x r).height ∧
      (l.height ≤ r.height + 1 → r.height ≤ l.height + 1 →
        (avlNodeFix l x r).height = max l.height r.height + 1) := by
  rw [avlNodeFix]
  split_ifs with h3 h4
  · obtain ⟨h5, h6, h7⟩ := balanced_avlNodeFixL (x := x) hl hr (by omega)
    exact ⟨h5, by omega, by omega, by omega⟩
  · obtain ⟨h5, h6, h7⟩ := balanced_avlNodeFixR (x := x) hl hr (by omega)
    exact ⟨h5, by omega, by omega, by omega⟩
  · refine ⟨⟨by omega, by omega, hl, hr⟩, ?_⟩
    rw [height]
    omega

/-! ### The way up -/

/-- The height of a subtree has changed by at most one, and all nodes above it are fixed. -/
theorem balanced_climb (hp : p.Balanced k) (ht : t.Balanced) (h1 : t.height ≤ k + 1)
    (h2 : k ≤ t.height + 1) : (p.climb t).Balanced := by
  induction p generalizing t k with
  | root => exact ht
  | left x r up ih =>
    obtain ⟨h3, h4, hr, hup⟩ := hp
    obtain ⟨h5, h6, h7, h8⟩ := balanced_avlNodeFix (x := x) ht hr (by omega) (by omega)
    exact ih hup h5 (by omega) (by omega)
  | right l x up ih =>
    obtain ⟨h3, h4, hl, hup⟩ := hp
    obtain ⟨h5, h6, h7, h8⟩ := balanced_avlNodeFix (x := x) hl ht (by omega) (by omega)
    exact ih hup h5 (by omega) (by omega)

/-- Above a subtree with the old height nothing has to be fixed. -/
theorem climb_of_balanced (hp : p.Balanced t.height) : p.climb t = p.plug t := by
  induction p generalizing t with
  | root => rfl
  | left x r up ih =>
    obtain ⟨h1, h2, -, hup⟩ := hp
    rw [Path.climb, avlNodeFix_of_near h1 h2]
    exact ih hup
  | right l x up ih =>
    obtain ⟨h1, h2, -, hup⟩ := hp
    rw [Path.climb, avlNodeFix_of_near h1 h2]
    exact ih hup

/-- `avl_node_post_insert` of the new node fixes the nodes on the way up from it. -/
theorem avlNodePostInsert_plug [DecidableEq α] (ha : a ∈ t.toList)
    (hn : (p.plug t).toList.Nodup) :
    avlNodePostInsert a (p.plug t) = p.climb (avlNodePostInsert a t) := by
  induction p generalizing t with
  | root => rfl
  | left x r up ih =>
    rw [Path.plug_left] at hn
    have hxl := (nodup_node.1 (Path.nodup_plug.1 hn).2.1).2.2.1
    have hne : x ≠ a := fun e => hxl (e ▸ ha)
    rw [Path.plug, ih (mem_node.2 (.inl ha)) hn, avlNodePostInsert, if_neg hne, if_pos ha,
      Path.climb]
  | right l x up ih =>
    rw [Path.plug_right] at hn
    obtain ⟨-, -, -, hxr, hdis⟩ := nodup_node.1 (Path.nodup_plug.1 hn).2.1
    have hne : x ≠ a := fun e => hxr (e ▸ ha)
    rw [Path.plug, ih (mem_node.2 (.inr (.inr ha))) hn, avlNodePostInsert, if_neg hne,
      if_neg fun hl => hdis a hl ha, Path.climb]

/-! ### A node is taken out -/

/-- The first node of a tree, and the tree without it, fixed on the way up. -/
def avlNodeEraseFirst : SearchTree α → Option (α × SearchTree α)
  | nil => none
  | node l x r =>
    match avlNodeEraseFirst l with
    | none => some (x, r)
    | some (y, l) => some (y, avlNodeFix l x r)

/-- `avl_node_erase` of the root: the first node behind it takes its place, if it has two
children. -/
def avlNodeEraseRoot (l r : SearchTree α) : SearchTree α :=
  match l, avlNodeEraseFirst r with
  | nil, _ => r
  | l, none => l
  | l, some (y, r) => avlNodeFix l y r

/-- `avl_node_erase`. -/
def avlNodeErase [DecidableEq α] (a : α) : SearchTree α → SearchTree α
  | nil => nil
  | node l x r =>
    if a ∈ l.toList then avlNodeFix (avlNodeErase a l) x r
    else if x = a then avlNodeEraseRoot l r
    else avlNodeFix l x (avlNodeErase a r)

theorem toList_avlNodeEraseFirst : (avlNodeEraseFirst t = none → t = nil) ∧
    ∀ y u, avlNodeEraseFirst t = some (y, u) → t.toList = y :: u.toList := by
  induction t with
  | nil => exact ⟨fun _ => rfl, fun y u h => (by cases h)⟩
  | node l x r ih _ =>
    rw [avlNodeEraseFirst]
    cases hl : avlNodeEraseFirst l with
    | none =>
      refine ⟨fun h => (by cases h), fun y u h => ?_⟩
      cases h
      rw [ih.1 hl]
      rfl
    | some q =>
      refine ⟨fun h => (by cases h), fun y u h => ?_⟩
      cases h
      rw [toList_avlNodeFix, toList, ih.2 _ _ hl]
      rfl

theorem toList_avlNodeEraseRoot : (avlNodeEraseRoot l r).toList = l.toList ++ r.toList := by
  rw [avlNodeEraseRoot.eq_def]
  cases hr : avlNodeEraseFirst r with
  | none =>
    rw [toList_avlNodeEraseFirst.1 hr]
    cases l with
    | nil => rfl
    | node => exact (List.append_nil _).symm
  | some q =>
    cases l with
    | nil => rfl
    | node ll x lr =>
      rw [toList_avlNodeEraseFirst.2 _ _ hr]
      exact toList_avlNodeFix

theorem toList_avlNodeErase [DecidableEq α] : (avlNodeErase a t).toList = t.toList.erase a := by
  induction t with
  | nil => rfl
  | node l x r ihl ihr =>
    rw [avlNodeErase, toList]
    split_ifs with h1 h2
    · rw [toList_avlNodeFix, ihl, List.erase_append_left _ h1]
    · rw [toList_avlNodeEraseRoot, List.erase_append_right _ h1, h2, List.erase_cons_head]
    · rw [toList_avlNodeFix, ihr, List.erase_append_right _ h1,
        List.erase_cons_tail (by simpa using h2)]

theorem climb_append {q : Path α} : (q.append p).climb t = p.climb (q.climb t) := by
  induction q generalizing t with
  | root => rfl
  | left x r up ih => exact ih
  | right l x up ih => exact ih

/-- A node below a hole is taken out, and the nodes above the hole are fixed. -/
theorem avlNodeErase_plug [DecidableEq α] (ha : a ∈ t.toList) (hn : (p.plug t).toList.Nodup) :
    avlNodeErase a (p.plug t) = p.climb (avlNodeErase a t) := by
  induction p generalizing t with
  | root => rfl
  | left x r up ih =>
    rw [Path.plug_left] at hn
    rw [Path.plug, ih (mem_node.2 (.inl ha)) hn, avlNodeErase, if_pos ha, Path.climb]
  | right l x up ih =>
    rw [Path.plug_right] at hn
    obtain ⟨-, -, -, hxr, hdis⟩ := nodup_node.1 (Path.nodup_plug.1 hn).2.1
    have hne : x ≠ a := fun e => hxr (e ▸ ha)
    rw [Path.plug, ih (mem_node.2 (.inr (.inr ha))) hn, avlNodeErase,
      if_neg fun hl => hdis a hl ha, if_neg hne, Path.climb]

theorem avlNodeEraseFirst_plug {w : Path α} {y : α} {m : SearchTree α} (hw : w.before = []) :
    avlNodeEraseFirst (w.plug (node nil y m)) = some (y, w.climb m) := by
  have hgen : ∀ t u : SearchTree α, avlNodeEraseFirst t = some (y, u) →
      avlNodeEraseFirst (w.plug t) = some (y, w.climb u) := by
    induction w with
    | root => exact fun t u ht => ht
    | left x r up ih =>
      intro t u ht
      refine ih hw _ _ ?_
      rw [avlNodeEraseFirst, ht]
    | right l x up ih => simp [Path.before] at hw
  exact hgen _ _ rfl

/-- The first node `y` behind a node with two children is taken out. -/
theorem avlNodeErase_two [DecidableEq α] {w : Path α} {y : α} {m : SearchTree α}
    (ha : a ∉ l.toList) (hl : l ≠ nil) (hw : w.before = []) :
    avlNodeErase a (node l a (w.plug (node nil y m))) = avlNodeFix l y (w.climb m) := by
  rw [avlNodeErase, if_neg ha, if_pos rfl, avlNodeEraseRoot.eq_def, avlNodeEraseFirst_plug hw]
  cases l with
  | nil => exact absurd rfl hl
  | node => rfl

/-- A node with at most one child is taken out. -/
theorem avlNodeErase_one [DecidableEq α] (ha : a ∉ l.toList)
    (ht : l = nil ∧ t = r ∨ r = nil ∧ t = l) : avlNodeErase a (node l a r) = t := by
  rw [avlNodeErase, if_neg ha, if_pos rfl, avlNodeEraseRoot.eq_def]
  rcases ht with ⟨rfl, rfl⟩ | ⟨rfl, rfl⟩
  · rfl
  · cases t <;> rfl

/-! ### How high a tree is -/

/-- The smallest balanced tree of a height has as many nodes as the Fibonacci numbers say. -/
theorem fib_height (h : t.Balanced) : Nat.fib (t.height + 2) ≤ t.toList.length + 1 := by
  induction t with
  | nil => exact Nat.le_refl 1
  | node l x r ihl ihr =>
    obtain ⟨h1, h2, hl, hr⟩ := h
    have hlen : (node l x r).toList.length = l.toList.length + r.toList.length + 1 := by
      rw [toList, List.length_append, List.length_cons, Nat.add_assoc]
    have hfib : Nat.fib ((node l x r).height + 2) ≤
        Nat.fib (l.height + 2) + Nat.fib (r.height + 2) := by
      rw [height, Nat.fib_add_two]
      rcases Nat.le_total l.height r.height with hle | hle
      · rw [Nat.max_eq_right hle]
        exact Nat.add_le_add (Nat.fib_mono (by omega)) le_rfl
      · rw [Nat.max_eq_left hle, Nat.add_comm]
        exact Nat.add_le_add le_rfl (Nat.fib_mono (by omega))
    have hl' := ihl hl
    have hr' := ihr hr
    omega

/-- With less than `2 ^ 64` nodes. -/
theorem height_lt_of_length (h : t.Balanced) (ht : t.toList.length < 2 ^ 64) : t.height ≤ 91 := by
  by_contra hlt
  have hfib : Nat.fib 94 ≤ Nat.fib (t.height + 2) := Nat.fib_mono (by omega)
  have hval : Nat.fib 94 = 19740274219868223167 := by norm_num [Nat.fib_add_two]
  have := fib_height h
  omega

end SearchTree
