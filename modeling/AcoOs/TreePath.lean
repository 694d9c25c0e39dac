/-
Trees with a hole.

A `Path` leads from the root of a tree down to a hole, and `Path.plug` is the whole tree with a
subtree in the hole.

* **`Path.toList_plug`** — the in-order sequence is what stands before the hole, the subtree and
  what stands behind it;
* **`way_inr`** — a search that finds nothing ends at the hole in which a new node is added.
-/
import AcoOs.SearchTree

namespace SearchTree

variable {α : Type*}

/-- The root of a tree. -/
def top : SearchTree α → Option α
  | nil => none
  | node _ x _ => some x

@[simp] theorem top_nil : (nil : SearchTree α).top = none := rfl

@[simp] theorem top_node (l r : SearchTree α) (x : α) : (node l x r).top = some x := rfl

theorem mem_of_top {t : SearchTree α} {x : α} (h : t.top = some x) : x ∈ t.toList := by
  cases t with
  | nil => cases h
  | node l y r =>
    cases h
    exact List.mem_append_right _ List.mem_cons_self

/-- The tree with left and right exchanged. -/
def mirror : SearchTree α → SearchTree α
  | nil => nil
  | node l x r => node r.mirror x l.mirror

@[simp] theorem top_mirror (t : SearchTree α) : t.mirror.top = t.top := by cases t <;> rfl

theorem mirror_mirror (t : SearchTree α) : t.mirror.mirror = t := by
  induction t with
  | nil => rfl
  | node l x r ihl ihr => rw [mirror, mirror, ihl, ihr]

theorem toList_mirror (t : SearchTree α) : t.mirror.toList = t.toList.reverse := by
  induction t with
  | nil => rfl
  | node l x r ihl ihr =>
    rw [mirror, toList, toList, ihl, ihr]
    simp only [List.reverse_append, List.reverse_cons, List.append_assoc, List.singleton_append]

theorem height_mirror (t : SearchTree α) : t.mirror.height = t.height := by
  induction t with
  | nil => rfl
  | node l x r ihl ihr => rw [mirror, height, height, ihl, ihr, max_comm]

theorem mem_node {l r : SearchTree α} {x z : α} :
    z ∈ (node l x r).toList ↔ z ∈ l.toList ∨ z = x ∨ z ∈ r.toList := by
  rw [toList, List.mem_append, List.mem_cons]

theorem nodup_node {l r : SearchTree α} {x : α} : (node l x r).toList.Nodup ↔
    l.toList.Nodup ∧ r.toList.Nodup ∧ x ∉ l.toList ∧ x ∉ r.toList ∧
      ∀ z ∈ l.toList, z ∉ r.toList := by
  rw [toList, List.nodup_append', List.nodup_cons, List.disjoint_cons_right]
  constructor
  · rintro ⟨h1, ⟨h2, h3⟩, h4, h5⟩
    exact ⟨h1, h3, h4, h2, fun z hl hr => h5 hl hr⟩
  · rintro ⟨h1, h2, h3, h4, h5⟩
    exact ⟨h1, ⟨h4, h2⟩, h3, fun z hl hr => h5 z hl hr⟩

/-- The way from the root of a tree down to a hole. -/
inductive Path (α : Type*)
  | root
  | left (x : α) (r : SearchTree α) (up : Path α)
  | right (l : SearchTree α) (x : α) (up : Path α)

namespace Path

/-- The tree with a subtree in the hole. -/
def plug : Path α → SearchTree α → SearchTree α
  | root, t => t
  | left x r up, t => up.plug (node t x r)
  | right l x up, t => up.plug (node l x t)

/-- The parent of the hole. -/
def top : Path α → Option α
  | root => none
  | left x _ _ => some x
  | right _ x _ => some x

/-- The number of nodes above the hole. -/
def depth : Path α → ℕ
  | root => 0
  | left _ _ up => up.depth + 1
  | right _ _ up => up.depth + 1

/-- What stands before the hole in the in-order sequence. -/
def before : Path α → List α
  | root => []
  | left _ _ up => up.before
  | right l x up => up.before ++ (l.toList ++ [x])

/-- What stands behind it. -/
def after : Path α → List α
  | root => []
  | left x r up => x :: (r.toList ++ up.after)
  | right _ _ up => up.after

/-- One way and then another. -/
def append : Path α → Path α → Path α
  | root, p => p
  | left x r up, p => left x r (up.append p)
  | right l x up, p => right l x (up.append p)

@[simp] theorem plug_root (t : SearchTree α) : root.plug t = t := rfl

@[simp] theorem plug_left (x : α) (r t : SearchTree α) (up : Path α) :
    (left x r up).plug t = up.plug (node t x r) := rfl

@[simp] theorem plug_right (x : α) (l t : SearchTree α) (up : Path α) :
    (right l x up).plug t = up.plug (node l x t) := rfl

@[simp] theorem top_root : (root : Path α).top = none := rfl

@[simp] theorem top_left (x : α) (r : SearchTree α) (up : Path α) :
    (left x r up).top = some x := rfl

@[simp] theorem top_right (x : α) (l : SearchTree α) (up : Path α) :
    (right l x up).top = some x := rfl

variable {p q : Path α} {t t' : SearchTree α} {x : α}

theorem toList_plug (p : Path α) (t : SearchTree α) :
    (p.plug t).toList = p.before ++ (t.toList ++ p.after) := by
  induction p generalizing t with
  | root => exact (List.append_nil _).symm
  | left x r up ih =>
    rw [plug, ih, toList, before, after, List.append_assoc, List.cons_append]
  | right l x up ih =>
    rw [plug, ih, toList, before, after]
    simp only [List.append_assoc, List.cons_append, List.nil_append]

theorem plug_append (q p : Path α) (t : SearchTree α) :
    (q.append p).plug t = p.plug (q.plug t) := by
  induction q generalizing t with
  | root => rfl
  | left x r up ih => exact ih (node t x r)
  | right l x up ih => exact ih (node l x t)

/-- The way to a node. -/
theorem exists_plug (h : x ∈ t.toList) : ∃ p l r, t = plug p (node l x r) := by
  induction t with
  | nil => cases h
  | node l y r ihl ihr =>
    rw [toList, List.mem_append, List.mem_cons] at h
    rcases h with h | rfl | h
    · obtain ⟨p, l', r', rfl⟩ := ihl h
      exact ⟨p.append (left y r root), l', r', by rw [plug_append]; rfl⟩
    · exact ⟨root, l, r, rfl⟩
    · obtain ⟨p, l', r', rfl⟩ := ihr h
      exact ⟨p.append (right l y root), l', r', by rw [plug_append]; rfl⟩

theorem before_append (q p : Path α) : (q.append p).before = p.before ++ q.before := by
  induction q with
  | root => exact (List.append_nil _).symm
  | left y r up ih => exact ih
  | right l y up ih => rw [append, before, ih, before, List.append_assoc]

theorem after_append (q p : Path α) : (q.append p).after = q.after ++ p.after := by
  induction q with
  | root => rfl
  | left y r up ih =>
    rw [append, after, ih, after, List.cons_append, List.append_assoc]
  | right l y up ih => exact ih

theorem depth_append (q p : Path α) : (q.append p).depth = q.depth + p.depth := by
  induction q with
  | root => exact (Nat.zero_add _).symm
  | left y r up ih => rw [append, depth, ih, depth, Nat.add_right_comm]
  | right l y up ih => rw [append, depth, ih, depth, Nat.add_right_comm]

theorem append_top (q p : Path α) : (q.append p).top = q.top.or p.top := by
  cases q <;> rfl

theorem depth_add_height (p : Path α) (t : SearchTree α) :
    p.depth + t.height ≤ (p.plug t).height := by
  induction p generalizing t with
  | root => rw [plug, depth, Nat.zero_add]
  | left y r up ih =>
    have hup := ih (node t y r)
    rw [height] at hup
    rw [plug, depth]
    omega
  | right l y up ih =>
    have hup := ih (node l y t)
    rw [height] at hup
    rw [plug, depth]
    omega

theorem height_plug_mono (p : Path α) (h : t.height ≤ t'.height) :
    (p.plug t).height ≤ (p.plug t').height := by
  induction p generalizing t t' with
  | root => exact h
  | left y r up ih =>
    refine ih ?_
    rw [height, height]
    omega
  | right l y up ih =>
    refine ih ?_
    rw [height, height]
    omega

/-- The nodes before and behind a node tell its place. -/
theorem split_plug {l r : SearchTree α} {A B : List α} (hn : (p.plug (node l x r)).toList.Nodup)
    (h : (p.plug (node l x r)).toList = A ++ x :: B) :
    p.before ++ l.toList = A ∧ r.toList ++ p.after = B := by
  have hlist : (p.plug (node l x r)).toList =
      (p.before ++ l.toList) ++ x :: (r.toList ++ p.after) := by
    rw [toList_plug, toList, List.append_assoc, ← List.append_assoc, List.cons_append]
  rw [hlist] at h hn
  rw [List.nodup_append', List.nodup_cons] at hn
  obtain ⟨-, ⟨hr, -⟩, hdis⟩ := hn
  have hl : x ∉ p.before ++ l.toList := fun hx => hdis hx List.mem_cons_self
  obtain ⟨h1, -, h2⟩ := (List.append_cons_inj_of_notMem hl hr).1 h
  exact ⟨h1, h2⟩

/-- The way to the first node. -/
theorem exists_first (h : t.top = some x) : ∃ p y m, t = plug p (node nil y m) ∧
    p.before = [] ∧ t.toList.head? = some y := by
  induction t generalizing x with
  | nil => cases h
  | node l z r ih _ =>
    cases hl : l.top with
    | none =>
      obtain rfl : l = nil := by
        cases l with
        | nil => rfl
        | node => cases hl
      exact ⟨root, z, r, rfl, rfl, rfl⟩
    | some w =>
      obtain ⟨p, y, m, rfl, hp, hhead⟩ := ih hl
      refine ⟨p.append (left z r root), y, m, by rw [plug_append]; rfl, ?_, ?_⟩
      · rw [before_append, hp]
        rfl
      · rw [toList, List.head?_append, hhead]
        rfl

/-- The way in the mirrored tree. -/
def mirror : Path α → Path α
  | root => root
  | left x r up => right r.mirror x up.mirror
  | right l x up => left x l.mirror up.mirror

@[simp] theorem top_mirror (p : Path α) : p.mirror.top = p.top := by cases p <;> rfl

theorem mirror_mirror (p : Path α) : p.mirror.mirror = p := by
  induction p with
  | root => rfl
  | left x r up ih => rw [mirror, mirror, ih, SearchTree.mirror_mirror]
  | right l x up ih => rw [mirror, mirror, ih, SearchTree.mirror_mirror]

theorem mirror_plug (p : Path α) (t : SearchTree α) :
    (p.plug t).mirror = p.mirror.plug t.mirror := by
  induction p generalizing t with
  | root => rfl
  | left x r up ih => exact ih (node t x r)
  | right l x up ih => exact ih (node l x t)

theorem before_mirror (p : Path α) : p.mirror.before = p.after.reverse := by
  induction p with
  | root => rfl
  | left x r up ih =>
    rw [mirror, before, ih, after, toList_mirror]
    simp only [List.reverse_cons, List.reverse_append, List.append_assoc]
  | right l x up ih => exact ih

theorem after_mirror (p : Path α) : p.mirror.after = p.before.reverse := by
  rw [← List.reverse_eq_iff, ← before_mirror, mirror_mirror]

/-- The nodes of the way and of the trees beside it. -/
def Mem (p : Path α) (x : α) : Prop := x ∈ p.before ∨ x ∈ p.after

theorem mem_plug : x ∈ (p.plug t).toList ↔ p.Mem x ∨ x ∈ t.toList := by
  rw [toList_plug, List.mem_append, List.mem_append, Mem]
  tauto

theorem mem_top (h : p.top = some x) : p.Mem x := by
  cases p with
  | root => cases h
  | left y r up =>
    cases h
    exact .inr List.mem_cons_self
  | right l y up =>
    cases h
    exact .inl (List.mem_append_right _ (List.mem_append_right _ (List.mem_singleton_self x)))

theorem mem_left {y : α} {r : SearchTree α} :
    (left y r p).Mem x ↔ x = y ∨ x ∈ r.toList ∨ p.Mem x := by
  unfold Mem
  rw [before, after, List.mem_cons, List.mem_append]
  tauto

theorem mem_right {y : α} {l : SearchTree α} :
    (right l y p).Mem x ↔ x = y ∨ x ∈ l.toList ∨ p.Mem x := by
  unfold Mem
  rw [before, after, List.mem_append, List.mem_append, List.mem_singleton]
  tauto

theorem mem_append : (q.append p).Mem x ↔ q.Mem x ∨ p.Mem x := by
  rw [Mem, before_append, after_append, List.mem_append, List.mem_append, Mem, Mem]
  tauto

theorem mem_mirror : p.mirror.Mem x ↔ p.Mem x := by
  rw [Mem, before_mirror, after_mirror, List.mem_reverse, List.mem_reverse, or_comm, Mem]

/-- Different nodes in the whole tree are different in the subtree, and not on the way. -/
theorem nodup_plug : (p.plug t).toList.Nodup ↔
    (p.before ++ p.after).Nodup ∧ t.toList.Nodup ∧ ∀ x ∈ t.toList, ¬ p.Mem x := by
  have hperm : (p.before ++ (t.toList ++ p.after)).Perm (t.toList ++ (p.before ++ p.after)) :=
    List.perm_append_comm_assoc ..
  rw [toList_plug, hperm.nodup_iff, List.nodup_append']
  constructor
  · rintro ⟨h1, h2, h3⟩
    refine ⟨h2, h1, fun x hx hm => h3 hx ?_⟩
    rwa [List.mem_append]
  · rintro ⟨h1, h2, h3⟩
    refine ⟨h2, h1, fun x hx hm => h3 x hx ?_⟩
    rwa [List.mem_append] at hm

/-- A subtree with some of the nodes, in any order, keeps the nodes different. -/
theorem nodup_of_perm (h : (p.plug t).toList.Nodup) (ht : t'.toList.Perm t.toList) :
    (p.plug t').toList.Nodup := by
  rw [nodup_plug] at h ⊢
  exact ⟨h.1, ht.nodup_iff.2 h.2.1, fun x hx => h.2.2 x (ht.mem_iff.1 hx)⟩

theorem nodup_of_sublist (h : (p.plug t).toList.Nodup) (ht : t'.toList.Sublist t.toList) :
    (p.plug t').toList.Nodup := by
  rw [nodup_plug] at h ⊢
  exact ⟨h.1, ht.nodup h.2.1, fun x hx => h.2.2 x (ht.subset hx)⟩

end Path

section Way

variable {compare : α → ℤ} {a x : α} {t : SearchTree α} {p : Path α}

/-- The way a search goes on from a hole: to an element, or to a new hole. -/
def way (compare : α → ℤ) : Path α → SearchTree α → α ⊕ Path α
  | p, nil => .inr p
  | p, node l x r =>
    if compare x = 0 then .inl x
    else if compare x < 0 then way compare (.left x r p) l
    else way compare (.right l x p) r

theorem way_inl (h : t.find compare = some x) : way compare p t = .inl x := by
  induction t generalizing p with
  | nil => cases h
  | node l y r ihl ihr =>
    rw [find] at h
    rw [way]
    split_ifs at h ⊢
    · cases h
      rfl
    · exact ihl h
    · exact ihr h

theorem way_inr (h : t.find compare = none) : ∃ q, way compare p t = .inr q ∧
    q.plug nil = p.plug t ∧ q.plug (node nil a nil) = p.plug (t.add compare a).2 := by
  induction t generalizing p with
  | nil => exact ⟨p, rfl, rfl, rfl⟩
  | node l y r ihl ihr =>
    rw [find] at h
    rw [way, add]
    split_ifs at h ⊢
    · exact ihl h
    · exact ihr h

end Way

end SearchTree
