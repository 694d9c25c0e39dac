/-
Runs of the interface `avl_tree` of `avlmini.c`.

The data of a program is ordered by keys.  A tree stands for a finite set of data with different
keys, and each call is described by what it makes of the set and what it returns.  A program must
not add data that is in the tree already, and it replaces data only by data with the same key that
is not in the tree; it may remove data at any time, because the node of data that is not in the tree
is its own parent.

* **`exec_spec`** — a legal call succeeds, returns what it should, and leaves a tree of the new set;
* **`run_answers`** — so does each call of a run that begins with an empty tree, and with less than
  `2 ^ 64` nodes no loop but the one of `avl_tree_clear` takes more than 92 rounds.
-/
import AcoOs.AvlWalks

open LinkedTree

/-- `struct avl_tree`.  A node stands for its data, so that `offset` is left out. -/
structure AvlTree (ι : Type*) where
  nodes : AvlNodes ι
  count : BitVec 64

/-- The calls of the interface. -/
inductive AvlCall (ι : Type*)
  | add (data : ι)
  | remove (data : ι)
  | replace (victim newdata : ι)
  | find (data : ι)
  | nearest (data : ι)
  | first
  | last
  | next (data : ι)
  | prev (data : ι)
  | clear

namespace AvlTree

variable {ι : Type*} [DecidableEq ι]

/-- `avl_tree_init`. -/
def avlTreeInit (M : AvlNodes ι) : AvlTree ι where
  nodes := M.withLinks { M.toLinks with root := none }
  count := 0

/-- `avl_tree_add`. -/
def avlTreeAdd (compare : ι → ι → ℤ) (n : ℕ) (tree : AvlTree ι) (data : ι) :
    Option (Option ι × AvlTree ι) := do
  match ← tree.nodes.avlNodeAdd (compare data) n data with
  | (some pd, M) => return (some pd, { tree with nodes := M })
  | (none, M) => return (none, { nodes := M, count := tree.count + 1 })

/-- `avl_tree_remove`. -/
def avlTreeRemove (n : ℕ) (tree : AvlTree ι) (data : ι) : Option (AvlTree ι) :=
  if tree.nodes.parent data = some data then some tree
  else do
    let M ← tree.nodes.avlNodeErase n data
    let M := M.withLinks (M.toLinks.setParent data (some data))
    return { nodes := M, count := tree.count - 1 }

/-- `avl_tree_replace`. -/
def avlTreeReplace (tree : AvlTree ι) (victim newdata : ι) : AvlTree ι :=
  let M := tree.nodes.avlNodeReplace victim newdata
  { tree with nodes := M.withLinks (M.toLinks.setParent victim (some victim)) }

/-- The loop of `avl_tree_clear`, in at most `m` rounds, with the data that `destroy` gets, which
may write to the nodes. -/
def clearLoop (destroy : ι → AvlNodes ι → AvlNodes ι) (n : ℕ) :
    ℕ → AvlTree ι → Option ι → Option (List ι × AvlTree ι)
  | 0, _, _ => none
  | m + 1, tree, next => do
    match ← tree.nodes.avlNodeTear n next with
    | (none, _, M) => return ([], { tree with nodes := M })
    | (some node, next, M) =>
      let M := M.withLinks (M.toLinks.setParent node (some node))
      let tree := { nodes := destroy node M, count := tree.count - 1 }
      let (data, tree) ← clearLoop destroy n m tree next
      return (node :: data, tree)

/-- `avl_tree_clear`. -/
def avlTreeClear (destroy : ι → AvlNodes ι → AvlNodes ι) (n m : ℕ) (tree : AvlTree ι) :
    Option (List ι × AvlTree ι) := do
  let (data, tree) ← clearLoop destroy n m tree none
  if tree.count = 0 then return (data, tree) else none

/-- A call, and the data that it returns or destroys; `destroy` writes no node. -/
def exec (compare : ι → ι → ℤ) (n m : ℕ) (tree : AvlTree ι) :
    AvlCall ι → Option (List ι × AvlTree ι)
  | .add data => (avlTreeAdd compare n tree data).map fun r => (r.1.toList, r.2)
  | .remove data => (avlTreeRemove n tree data).map fun tree => ([], tree)
  | .replace victim newdata => some ([], avlTreeReplace tree victim newdata)
  | .find data => (AvlNodes.findLoop tree.nodes.toLinks (compare data) n tree.nodes.root).map
      fun r => (r.toList, tree)
  | .nearest data =>
      (AvlNodes.nearestLoop tree.nodes.toLinks (compare data) n tree.nodes.root none).map
        fun r => (r.toList, tree)
  | .first => (AvlNodes.avlNodeFirst n tree.nodes.toLinks).map fun r => (r.toList, tree)
  | .last => (AvlNodes.avlNodeLast n tree.nodes.toLinks).map fun r => (r.toList, tree)
  | .next data => (AvlNodes.avlNodeNext n tree.nodes.toLinks (some data)).map
      fun r => (r.toList, tree)
  | .prev data => (AvlNodes.avlNodePrev n tree.nodes.toLinks (some data)).map
      fun r => (r.toList, tree)
  | .clear => avlTreeClear (fun _ M => M) n m tree

/-- The calls of a run, and what each of them returns. -/
def run (compare : ι → ι → ℤ) (n m : ℕ) :
    AvlTree ι → List (AvlCall ι) → Option (List (List ι) × AvlTree ι)
  | tree, [] => some ([], tree)
  | tree, call :: calls => do
    let (answer, tree) ← exec compare n m tree call
    let (answers, tree) ← run compare n m tree calls
    return (answer :: answers, tree)

/-! ### What the calls are for -/

variable {κ : Type*} [LinearOrder κ]

/-- The sign of the comparison is the order of the keys. -/
structure Compares (compare : ι → ι → ℤ) (key : ι → κ) : Prop where
  neg : ∀ x y, compare x y < 0 ↔ key x < key y
  zero : ∀ x y, compare x y = 0 ↔ key x = key y

/-- What a program may call. -/
def Legal (key : ι → κ) (S : Finset ι) : AvlCall ι → Prop
  | .add data => data ∉ S
  | .replace victim newdata => victim ∈ S ∧ newdata ∉ S ∧ key newdata = key victim
  | .next data => data ∈ S
  | .prev data => data ∈ S
  | _ => True

instance Legal.decidable (key : ι → κ) (S : Finset ι) :
    (call : AvlCall ι) → Decidable (Legal key S call)
  | .add data => inferInstanceAs (Decidable (data ∉ S))
  | .remove _ => inferInstanceAs (Decidable True)
  | .replace victim newdata => inferInstanceAs
      (Decidable (victim ∈ S ∧ newdata ∉ S ∧ key newdata = key victim))
  | .find _ => inferInstanceAs (Decidable True)
  | .nearest _ => inferInstanceAs (Decidable True)
  | .first => inferInstanceAs (Decidable True)
  | .last => inferInstanceAs (Decidable True)
  | .next data => inferInstanceAs (Decidable (data ∈ S))
  | .prev data => inferInstanceAs (Decidable (data ∈ S))
  | .clear => inferInstanceAs (Decidable True)

/-- What a call makes of the set. -/
def after (key : ι → κ) (S : Finset ι) : AvlCall ι → Finset ι
  | .add data => if ∃ y ∈ S, key y = key data then S else insert data S
  | .remove data => S.erase data
  | .replace victim newdata => insert newdata (S.erase victim)
  | .clear => ∅
  | _ => S

/-- The answer is an element with the least key, or nothing if there is no element. -/
def IsFirst (key : ι → κ) (P : ι → Prop) (answer : List ι) : Prop :=
  (∃ y, answer = [y] ∧ P y ∧ ∀ z, P z → key y ≤ key z) ∨ answer = [] ∧ ∀ z, ¬ P z

/-- The answer is an element with the greatest key, or nothing. -/
def IsLast (key : ι → κ) (P : ι → Prop) (answer : List ι) : Prop :=
  (∃ y, answer = [y] ∧ P y ∧ ∀ z, P z → key z ≤ key y) ∨ answer = [] ∧ ∀ z, ¬ P z

/-- What a call returns. -/
def Answers (key : ι → κ) (S : Finset ι) : AvlCall ι → List ι → Prop
  | .add data, answer => IsFirst key (fun y => y ∈ S ∧ key y = key data) answer
  | .remove _, answer => answer = []
  | .replace _ _, answer => answer = []
  | .find data, answer => IsFirst key (fun y => y ∈ S ∧ key y = key data) answer
  | .nearest data, answer =>
      (∃ y ∈ S, answer = [y] ∧ ∀ z ∈ S, ¬ (key data ≤ key z ∧ key z < key y) ∧
        ¬ (key y < key z ∧ key z ≤ key data)) ∨ answer = [] ∧ S = ∅
  | .first, answer => IsFirst key (fun y => y ∈ S) answer
  | .last, answer => IsLast key (fun y => y ∈ S) answer
  | .next data, answer => IsFirst key (fun y => y ∈ S ∧ key data < key y) answer
  | .prev data, answer => IsLast key (fun y => y ∈ S ∧ key y < key data) answer
  | .clear, answer => answer.Nodup ∧ answer.toFinset = S

/-- A run whose calls are all legal. -/
def LegalRun (key : ι → κ) : Finset ι → List (AvlCall ι) → Prop
  | _, [] => True
  | S, call :: calls => Legal key S call ∧ LegalRun key (after key S call) calls

instance LegalRun.decidable (key : ι → κ) :
    (S : Finset ι) → (calls : List (AvlCall ι)) → Decidable (LegalRun key S calls)
  | _, [] => inferInstanceAs (Decidable True)
  | S, call :: calls =>
    have := LegalRun.decidable key (after key S call) calls
    inferInstanceAs (Decidable (Legal key S call ∧ LegalRun key (after key S call) calls))

/-- What the calls of a run return. -/
def AnswersRun (key : ι → κ) : Finset ι → List (AvlCall ι) → List (List ι) → Prop
  | _, [], answers => answers = []
  | _, _ :: _, [] => False
  | S, call :: calls, answer :: answers =>
      Answers key S call answer ∧ AnswersRun key (after key S call) calls answers

end AvlTree

open SearchTree

namespace SearchTree

variable {ι κ : Type*} [LinearOrder κ] {key : ι → κ} {compare : ι → ι → ℤ} {t : SearchTree ι}
  {a d x y : ι}

/-- The keys of a tree grow along the in-order sequence. -/
def Sorted (key : ι → κ) (t : SearchTree ι) : Prop :=
  t.toList.Pairwise fun x y => key x < key y

end SearchTree

namespace AvlTree.Compares

variable {ι κ : Type*} [LinearOrder κ] {key : ι → κ} {compare : ι → ι → ℤ} {t : SearchTree ι}
  {a d x y z : ι}

theorem pos (h : Compares compare key) : 0 < compare x y ↔ key y < key x := by
  have h1 := h.neg x y
  have h2 := h.zero x y
  rw [← not_le, le_iff_lt_or_eq, h1, h2, ← le_iff_lt_or_eq, not_le]

theorem directs (h : Compares compare key) (ht : t.Sorted key) :
    Directs (compare d) t.toList := by
  refine ht.imp fun {x y} hxy => ⟨fun hx => ?_, fun hy => ?_⟩
  · exact (h.neg d y).2 (((h.neg d x).1 hx).trans hxy)
  · exact h.pos.2 (hxy.trans (h.pos.1 hy))

theorem find_none (h : Compares compare key) (ht : t.Sorted key)
    (hf : t.find (compare d) = none) : ∀ y ∈ t.toList, key y ≠ key d := by
  intro y hy he
  obtain ⟨l, r, hlist⟩ := List.append_of_mem hy
  rw [Sorted, hlist, List.pairwise_append, List.pairwise_cons] at ht
  have hfind := find_eq_of_split hlist ((h.zero d y).2 he.symm)
    (fun z hz => h.pos.2 (he ▸ ht.2.2 z hz y List.mem_cons_self))
    (fun z hz => (h.neg d z).2 (he ▸ ht.2.1.1 z hz))
  rw [hf] at hfind
  cases hfind

theorem find_some (h : Compares compare key) (hf : t.find (compare d) = some x) :
    x ∈ t.toList ∧ key x = key d :=
  ⟨(SearchTree.find_some hf).1, ((h.zero d x).1 (SearchTree.find_some hf).2).symm⟩

/-- New data stands where its key belongs. -/
theorem add (h : Compares compare key) (ht : t.Sorted key)
    (hf : t.find (compare a) = none) : (t.add (compare a) a).2.Sorted key ∧
      ∀ z, z ∈ (t.add (compare a) a).2.toList ↔ z = a ∨ z ∈ t.toList := by
  obtain ⟨l, r, h1, h2, h3, h4⟩ := add_none_of_directs (a := a) hf (h.directs ht)
  rw [Sorted, h1, List.pairwise_append] at ht
  obtain ⟨h5, h6, h7⟩ := ht
  constructor
  · rw [Sorted, h2, List.pairwise_append, List.pairwise_cons]
    refine ⟨h5, ⟨fun z hz => (h.neg a z).1 (h4 z hz), h6⟩, fun z hz w hw => ?_⟩
    rcases List.mem_cons.1 hw with rfl | hw
    · exact h.pos.1 (h3 z hz)
    · exact h7 z hz w hw
  · intro z
    rw [h2, h1, List.mem_append, List.mem_append, List.mem_cons]
    tauto

/-- No element is closer to a key, on the same side, than the nearest one. -/
theorem nearest (h : Compares compare key) (ht : t.Sorted key) (hx : t.top = some x)
    (c : Option ι) : ∃ y ∈ t.toList, t.nearest (compare d) c = some y ∧
      ∀ z ∈ t.toList, ¬ (key d ≤ key z ∧ key z < key y) ∧ ¬ (key y < key z ∧ key z ≤ key d) := by
  induction t generalizing x c with
  | nil => cases hx
  | node l w r ihl ihr =>
    rw [Sorted, toList, List.pairwise_append, List.pairwise_cons] at ht
    obtain ⟨hl, ⟨hwr, hr⟩, hcross⟩ := ht
    simp only [mem_node]
    rw [SearchTree.nearest]
    split_ifs with h0 h1
    · have hd := (h.zero d w).1 h0
      refine ⟨w, .inr (.inl rfl), rfl, fun z _ => ⟨?_, ?_⟩⟩
      · rintro ⟨h2, h3⟩
        exact absurd (hd ▸ h2) (not_le.2 h3)
      · rintro ⟨h2, h3⟩
        exact absurd (hd ▸ h3) (not_le.2 h2)
    · have hd := (h.neg d w).1 h1
      have hbig : ∀ z, z = w ∨ z ∈ r.toList → key w ≤ key z := by
        rintro z (rfl | hz)
        · exact le_rfl
        · exact (hwr z hz).le
      cases l with
      | nil =>
        refine ⟨w, .inr (.inl rfl), rfl, fun z hz => ⟨?_, ?_⟩⟩
        · rintro ⟨-, h3⟩
          exact absurd h3 (not_lt.2 (hbig z (hz.resolve_left List.not_mem_nil)))
        · rintro ⟨h2, h3⟩
          exact absurd (h2.trans_le h3) (not_lt.2 hd.le)
      | node ll v lr =>
        obtain ⟨y, hy, hnear, hclose⟩ := ihl hl rfl (some w)
        refine ⟨y, .inl hy, hnear, fun z hz => ?_⟩
        rcases hz with hz | hz
        · exact hclose z hz
        · have hyw := hcross y hy w List.mem_cons_self
          refine ⟨?_, ?_⟩
          · rintro ⟨-, h3⟩
            exact absurd (hyw.trans_le (hbig z hz)) (not_lt.2 h3.le)
          · rintro ⟨-, h3⟩
            exact absurd (hd.trans_le (hbig z hz)) (not_lt.2 h3)
    · have hd : key w < key d := h.pos.1 (by omega)
      have hsmall : ∀ z, z ∈ l.toList ∨ z = w → key z ≤ key w := by
        rintro z (hz | rfl)
        · exact (hcross z hz w List.mem_cons_self).le
        · exact le_rfl
      cases r with
      | nil =>
        refine ⟨w, .inr (.inl rfl), rfl, fun z hz => ⟨?_, ?_⟩⟩
        · rintro ⟨h2, h3⟩
          exact absurd (h2.trans_lt h3) (not_lt.2 hd.le)
        · rintro ⟨h2, -⟩
          refine absurd h2 (not_lt.2 (hsmall z ?_))
          exact hz.imp_right fun hz => hz.resolve_right List.not_mem_nil
      | node rl v rr =>
        obtain ⟨y, hy, hnear, hclose⟩ := ihr hr rfl (some w)
        refine ⟨y, .inr (.inr hy), hnear, fun z hz => ?_⟩
        rcases or_assoc.2 hz with hz | hz
        · have hwy := hwr y hy
          refine ⟨?_, ?_⟩
          · rintro ⟨h2, -⟩
            exact absurd (h2.trans (hsmall z hz)) (not_le.2 hd)
          · rintro ⟨h2, -⟩
            exact absurd (h2.trans_le (hsmall z hz)) (not_lt.2 hwy.le)
        · exact hclose z hz

end AvlTree.Compares

namespace AvlTree

variable {ι κ : Type*} [DecidableEq ι] [LinearOrder κ] {key : ι → κ} {compare : ι → ι → ℤ}
  {T T' : AvlTree ι} {t t' : SearchTree ι} {S : Finset ι} {n m : ℕ} {x y : ι}

/-- The tree in memory is balanced, ordered and counted, and all other nodes are empty. -/
structure Represents (key : ι → κ) (T : AvlTree ι) (S : Finset ι) (t : SearchTree ι) : Prop where
  avl : T.nodes.IsAvl t
  sorted : t.Sorted key
  mem : ∀ x, x ∈ t.toList ↔ x ∈ S
  count : T.count = BitVec.ofNat 64 S.card
  free : ∀ x ∉ S, T.nodes.parent x = some x

/-- A call does what it is for. -/
def Does (key : ι → κ) (S : Finset ι) (call : AvlCall ι) (r : Option (List ι × AvlTree ι)) : Prop :=
  ∃ answer T t, r = some (answer, T) ∧ T.Represents key (after key S call) t ∧
    Answers key S call answer

omit [DecidableEq ι] in
theorem Represents.parent_ne (h : T.Represents key S t) (hx : x ∈ S) :
    T.nodes.parent x ≠ some x := by
  obtain ⟨p, l, r, rfl⟩ := Path.exists_plug ((h.mem x).2 hx)
  have hat := Links.holds_plug.1 h.avl.links
  intro he
  exact (Path.nodup_plug.1 hat.nodup).2.2 x (mem_node.2 (.inr (.inl rfl)))
    (Path.mem_top (hat.subtree.1.symm.trans he))

theorem add_does (hc : Compares compare key) (h : T.Represents key S t) (hn : t.height < n)
    (hx : x ∉ S) : Does key S (.add x) (exec compare n m T (.add x)) := by
  cases hf : t.find (compare x) with
  | some y =>
    obtain ⟨hy, hkey⟩ := hc.find_some hf
    have hyS := (h.mem y).1 hy
    refine ⟨[y], T, t, ?_, ?_, .inl ⟨y, rfl, ⟨hyS, hkey⟩, fun z hz => (hkey.trans hz.2.symm).le⟩⟩
    · rw [exec, avlTreeAdd, AvlNodes.avlNodeAdd_found h.avl hn hf]
      rfl
    · rw [after, if_pos ⟨y, hyS, hkey⟩]
      exact h
  | none =>
    have hxt : x ∉ t.toList := fun hm => hx ((h.mem x).1 hm)
    obtain ⟨M, h1, h2, h3⟩ := AvlNodes.avlNodeAdd_spec h.avl hn hxt hf
    obtain ⟨h4, h5⟩ := hc.add h.sorted hf
    have hnone : ∀ y ∈ S, key y ≠ key x := fun y hy => hc.find_none h.sorted hf y ((h.mem y).2 hy)
    have hafter : after key S (.add x) = insert x S := by
      rw [after, if_neg]
      rintro ⟨y, hy, hk⟩
      exact hnone y hy hk
    refine ⟨[], ⟨M, T.count + 1⟩, _, ?_, ⟨h2, ?_, ?_, ?_, ?_⟩,
      .inr ⟨rfl, fun z hz => hnone z hz.1 hz.2⟩⟩
    · rw [exec, avlTreeAdd, h1]
      rfl
    · rw [Sorted, toList_avlNodePostInsert]
      exact h4
    · intro z
      rw [toList_avlNodePostInsert, h5, h.mem, hafter, Finset.mem_insert]
    · rw [hafter, Finset.card_insert_of_notMem hx, BitVec.ofNat_add, ← h.count]
      rfl
    · intro z hz
      rw [hafter, Finset.mem_insert, not_or] at hz
      have hzt : z ∉ t.toList := fun hm => hz.2 ((h.mem z).1 hm)
      exact (h3 z hz.1 hzt).1.parent.trans (h.free z hz.2)

theorem remove_does (h : T.Represents key S t) (hn : t.height ≤ n) (x : ι) :
    Does key S (.remove x) (exec compare n m T (.remove x)) := by
  by_cases hx : x ∈ S
  · have hxt := (h.mem x).2 hx
    obtain ⟨M, h1, h2, h3, h4⟩ := AvlNodes.avlNodeErase_spec h.avl hxt hn
    have hmem : ∀ z, z ∈ (avlNodeErase x t).toList ↔ z ∈ S.erase x := fun z => by
      rw [h3, h.avl.links.nodup.mem_erase_iff, h.mem, Finset.mem_erase]
    have hxt' : x ∉ (avlNodeErase x t).toList := fun hm => Finset.notMem_erase x S ((hmem x).1 hm)
    refine ⟨[], ⟨M.withLinks (M.toLinks.setParent x (some x)), T.count - 1⟩, avlNodeErase x t, ?_,
      ⟨h2.setParent hxt', ?_, hmem, ?_, fun z hz => ?_⟩, rfl⟩
    · rw [exec, avlTreeRemove, if_neg (h.parent_ne hx), h1]
      rfl
    · rw [Sorted, h3]
      exact h.sorted.sublist List.erase_sublist
    · have hcard := Finset.card_erase_add_one hx
      rw [h.count, after, ← hcard, BitVec.ofNat_add]
      exact BitVec.add_sub_cancel ..
    · show (M.toLinks.setParent x (some x)).parent z = some z
      rw [Links.setParent_parent]
      split_ifs with hzx
      · rw [hzx]
      · have hzS : z ∉ S := fun hm => hz (Finset.mem_erase.2 ⟨hzx, hm⟩)
        exact (h4 z fun hm => hzS ((h.mem z).1 hm)).1.parent.trans (h.free z hzS)
  · -- the node of data that is not in the tree is empty
    refine ⟨[], T, t, ?_, ?_, rfl⟩
    · rw [exec, avlTreeRemove, if_pos (h.free x hx)]
      rfl
    · rw [after, Finset.erase_eq_of_notMem hx]
      exact h

theorem replace_does (h : T.Represents key S t) (hx : x ∈ S) (hy : y ∉ S)
    (hkey : key y = key x) : Does key S (.replace x y) (exec compare n m T (.replace x y)) := by
  obtain ⟨p, l, r, rfl⟩ := Path.exists_plug ((h.mem x).2 hx)
  have hyt : y ∉ (p.plug (.node l x r)).toList := fun hm => hy ((h.mem y).1 hm)
  obtain ⟨h1, h2⟩ := AvlNodes.avlNodeReplace_spec h.avl hyt
  obtain ⟨-, hnode, hout⟩ := Path.nodup_plug.1 h.avl.links.nodup
  obtain ⟨-, -, hxl, hxr, -⟩ := nodup_node.1 hnode
  have hxp := hout x (mem_node.2 (.inr (.inl rfl)))
  have hmem : ∀ z, z ∈ (p.plug (.node l y r)).toList ↔ z ∈ insert y (S.erase x) := by
    intro z
    rw [Finset.mem_insert, Finset.mem_erase, ← h.mem, Path.mem_plug, Path.mem_plug, mem_node,
      mem_node]
    by_cases hzx : z = x
    · subst hzx
      tauto
    · tauto
  have hxy : x ≠ y := fun e => hy (e ▸ hx)
  have hxt : x ∉ (p.plug (.node l y r)).toList := by
    rw [hmem, Finset.mem_insert, not_or]
    exact ⟨hxy, Finset.notMem_erase x S⟩
  refine ⟨[], _, p.plug (.node l y r), rfl, ⟨h1.setParent hxt, ?_, hmem, ?_, fun z hz => ?_⟩, rfl⟩
  · have hsorted := h.sorted
    unfold Sorted at hsorted ⊢
    simp only [Path.toList_plug, toList, List.pairwise_append, List.pairwise_cons, List.mem_append,
      List.mem_cons, or_imp, forall_and, forall_eq, List.append_assoc, List.cons_append] at *
    rw [hkey]
    exact hsorted
  · rw [after, Finset.card_insert_of_notMem (fun hm => hy (Finset.mem_of_mem_erase hm)),
      Finset.card_erase_add_one hx]
    exact h.count
  · show ((T.nodes.avlNodeReplace x y).toLinks.setParent x (some x)).parent z = some z
    rw [Links.setParent_parent]
    split_ifs with hzx
    · rw [hzx]
    · rw [after, Finset.mem_insert, not_or] at hz
      have hzS : z ∉ S := fun hm => hz.2 (Finset.mem_erase.2 ⟨hzx, hm⟩)
      exact (h2 z hz.1 fun hm => hzS ((h.mem z).1 hm)).1.parent.trans (h.free z hzS)

omit [DecidableEq ι] in
/-- The answer is the first node of a list that holds the elements in order. -/
theorem isFirst_head {P : ι → Prop} {l : List ι} (hl : l.Pairwise fun x y => key x < key y)
    (hP : ∀ z, z ∈ l ↔ P z) : IsFirst key P l.head?.toList := by
  cases l with
  | nil => exact .inr ⟨rfl, fun z hz => List.not_mem_nil ((hP z).2 hz)⟩
  | cons y l =>
    refine .inl ⟨y, rfl, (hP y).1 List.mem_cons_self, fun z hz => ?_⟩
    rcases List.mem_cons.1 ((hP z).2 hz) with rfl | hz
    · exact le_rfl
    · exact ((List.pairwise_cons.1 hl).1 z hz).le

omit [DecidableEq ι] in
theorem isLast_getLast {P : ι → Prop} {l : List ι} (hl : l.Pairwise fun x y => key x < key y)
    (hP : ∀ z, z ∈ l ↔ P z) : IsLast key P l.getLast?.toList := by
  have hrev : l.reverse.Pairwise fun x y =>
      OrderDual.toDual (key x) < OrderDual.toDual (key y) := by
    rw [List.pairwise_reverse]
    exact hl
  have hfirst := isFirst_head (P := P) hrev fun z => by rw [List.mem_reverse, hP]
  rw [List.head?_reverse] at hfirst
  exact hfirst

theorem search_does (hc : Compares compare key) (h : T.Represents key S t) (hn : t.height ≤ n)
    (x : ι) : Does key S (.find x) (exec compare n m T (.find x)) ∧
      Does key S (.nearest x) (exec compare n m T (.nearest x)) := by
  have hroot := h.avl.links.root
  constructor
  · refine ⟨(t.find (compare x)).toList, T, t, ?_, h, ?_⟩
    · rw [exec, hroot, AvlNodes.findLoop_spec h.avl.links.subtree hn]
      rfl
    · cases hf : t.find (compare x) with
      | some y =>
        obtain ⟨hy, hkey⟩ := hc.find_some hf
        exact .inl ⟨y, rfl, ⟨(h.mem y).1 hy, hkey⟩, fun z hz => (hkey.trans hz.2.symm).le⟩
      | none =>
        exact .inr ⟨rfl, fun z hz => hc.find_none h.sorted hf z ((h.mem z).2 hz.1) hz.2⟩
  · refine ⟨(t.nearest (compare x) none).toList, T, t, ?_, h, ?_⟩
    · rw [exec, hroot, AvlNodes.nearestLoop_spec h.avl.links.subtree hn]
      rfl
    · cases htop : t.top with
      | none =>
        have ht : t = .nil := by
          cases t with
          | nil => rfl
          | node => cases htop
        subst ht
        refine .inr ⟨rfl, Finset.eq_empty_of_forall_notMem fun z hz => ?_⟩
        exact List.not_mem_nil ((h.mem z).2 hz)
      | some w =>
        obtain ⟨y, hy, hnear, hclose⟩ := hc.nearest (d := x) h.sorted htop none
        refine .inl ⟨y, (h.mem y).1 hy, by rw [hnear]; rfl, fun z hz => ?_⟩
        exact hclose z ((h.mem z).2 hz)

theorem ends_does (h : T.Represents key S t) (hn : t.height ≤ n) :
    Does key S .first (exec compare n m T .first) ∧
      Does key S .last (exec compare n m T .last) := by
  constructor
  · refine ⟨_, T, t, ?_, h, isFirst_head h.sorted h.mem⟩
    rw [exec, AvlNodes.avlNodeFirst_spec h.avl.links hn]
    rfl
  · refine ⟨_, T, t, ?_, h, isLast_getLast h.sorted h.mem⟩
    rw [exec, AvlNodes.avlNodeLast_spec h.avl.links hn]
    rfl

theorem neighbours_does (h : T.Represents key S t) (hn : t.height ≤ n) (hx : x ∈ S) :
    Does key S (.next x) (exec compare n m T (.next x)) ∧
      Does key S (.prev x) (exec compare n m T (.prev x)) := by
  obtain ⟨A, B, hlist⟩ := List.append_of_mem ((h.mem x).2 hx)
  have hsorted := h.sorted
  rw [Sorted, hlist, List.pairwise_append, List.pairwise_cons] at hsorted
  obtain ⟨hA, ⟨hxB, hB⟩, hAB⟩ := hsorted
  have hmem : ∀ z, z ∈ S ↔ z ∈ A ∨ z = x ∨ z ∈ B := fun z => by
    rw [← h.mem, hlist, List.mem_append, List.mem_cons]
  have hAx : ∀ z ∈ A, key z < key x := fun z hz => hAB z hz x List.mem_cons_self
  constructor
  · refine ⟨_, T, t, ?_, h, isFirst_head hB fun z => ?_⟩
    · rw [exec, AvlNodes.avlNodeNext_spec h.avl.links hlist hn]
      rfl
    · rw [hmem]
      constructor
      · exact fun hz => ⟨.inr (.inr hz), hxB z hz⟩
      · rintro ⟨hz | rfl | hz, hlt⟩
        · exact absurd hlt (not_lt.2 (hAx z hz).le)
        · exact absurd hlt (lt_irrefl _)
        · exact hz
  · refine ⟨_, T, t, ?_, h, isLast_getLast hA fun z => ?_⟩
    · rw [exec, AvlNodes.avlNodePrev_spec h.avl.links hlist hn]
      rfl
    · rw [hmem]
      constructor
      · exact fun hz => ⟨.inl hz, hAx z hz⟩
      · rintro ⟨hz | rfl | hz, hlt⟩
        · exact hz
        · exact absurd hlt (lt_irrefl _)
        · exact absurd hlt (not_lt.2 (hxB z hz).le)

/-- A `destroy` that writes to nothing but the node of the data it gets. -/
structure WritesOwn (destroy : ι → AvlNodes ι → AvlNodes ι) : Prop where
  same : ∀ a (M : AvlNodes ι) z, z ≠ a → M.Same (destroy a M).toLinks z
  root : ∀ a (M : AvlNodes ι), (destroy a M).root = M.root

/-- The loop of `avl_tree_clear` destroys the rest in postorder and empties the nodes. -/
theorem clearLoop_spec {destroy : ι → AvlNodes ι → AvlNodes ι} (hd : WritesOwn destroy)
    {M : AvlNodes ι} {next : Option ι} {rest : List ι} {c : BitVec 64}
    (h : M.Tearing n next rest) (hn : rest.Nodup) (hm : rest.length < m) : ∃ T,
    clearLoop destroy n m ⟨M, c⟩ next = some (rest, T) ∧ T.nodes.root = none ∧
      T.count = c - BitVec.ofNat 64 rest.length ∧
      ((∀ a M z, (destroy a M).parent z = M.parent z) →
        ∀ z, T.nodes.parent z = if z ∈ rest then some z else M.parent z) := by
  induction rest generalizing M next c m with
  | nil =>
    obtain ⟨h1, h2⟩ := AvlNodes.avlNodeTear_done h
    obtain ⟨m, rfl⟩ : ∃ k, m = k + 1 := ⟨m - 1, by omega⟩
    refine ⟨⟨M, c⟩, ?_, h1, (BitVec.sub_zero c).symm, fun _ z => (if_neg List.not_mem_nil).symm⟩
    rw [clearLoop, h2]
    rfl
  | cons a rest ih =>
    obtain ⟨next', M', h1, h2, h3⟩ := AvlNodes.avlNodeTear_spec h
    obtain ⟨ha, hn⟩ := List.nodup_cons.1 hn
    rw [List.length_cons] at hm
    obtain ⟨m, rfl⟩ : ∃ k, m = k + 1 := ⟨m - 1, by omega⟩
    set M'' := destroy a (M'.withLinks (M'.toLinks.setParent a (some a)))
    have h2' : M''.Tearing n next' rest := by
      refine h2.congr (fun z hz => ?_) (hd.root ..)
      have hza : z ≠ a := fun e => ha (e ▸ hz)
      have hown := hd.same a (M'.withLinks (M'.toLinks.setParent a (some a))) z hza
      exact Links.Same.trans (Links.same_setParent hza) hown
    obtain ⟨T, h4, h5, h6, h7⟩ := ih (c := c - 1) h2' hn (Nat.lt_of_succ_lt_succ hm)
    refine ⟨T, ?_, h5, ?_, fun hpar z => ?_⟩
    · rw [clearLoop, h1]
      show (clearLoop destroy n m ⟨M'', c - 1⟩ next').bind _ = _
      rw [h4]
      rfl
    · rw [h6, List.length_cons, BitVec.ofNat_add, BitVec.sub_sub, BitVec.add_comm]
      rfl
    · have hpar' : M''.parent z = if z = a then some a else M.parent z := by
        rw [← h3 z, hpar]
        exact Links.setParent_parent
      rw [h7 hpar, hpar']
      by_cases hza : z = a
      · subst hza
        rw [if_neg ha, if_pos rfl, if_pos List.mem_cons_self]
      · simp only [List.mem_cons, hza, false_or, if_false]

/-- `avl_tree_clear` destroys the data in postorder. -/
theorem avlTreeClear_spec (h : T.Represents key S t) (hn : t.height ≤ n) (hm : S.card < m)
    {destroy : ι → AvlNodes ι → AvlNodes ι} (hd : WritesOwn destroy) :
    t.post.Nodup ∧ t.post.toFinset = S ∧ ∃ T', avlTreeClear destroy n m T = some (t.post, T') ∧
      T'.nodes.root = none ∧ T'.count = 0 ∧
      ((∀ a M z, (destroy a M).parent z = M.parent z) →
        ∀ z, T'.nodes.parent z = if z ∈ t.post then some z else T.nodes.parent z) := by
  have hnodup : t.post.Nodup := t.post_perm.nodup_iff.2 h.avl.links.nodup
  have hset : t.post.toFinset = S := by
    ext z
    rw [List.mem_toFinset, t.post_perm.mem_iff, h.mem]
  have hlen : t.post.length = S.card := by rw [← hset, List.toFinset_card_of_nodup hnodup]
  have htear : T.nodes.Tearing n none t.post := by
    cases htop : t.top with
    | none =>
      have hroot := h.avl.links.root
      cases t with
      | nil => exact .done hroot
      | node => cases htop
    | some x =>
      rw [← List.append_nil t.post]
      exact .tree (p := .root) (Links.at_root.2 h.avl.links) htop
        (h.avl.links.root.trans htop) hn
  obtain ⟨T', h1, h2, h3, h4⟩ := clearLoop_spec (c := T.count) hd htear hnodup (hlen.trans_lt hm)
  have hcount : T'.count = 0 := by
    rw [h3, h.count, hlen]
    exact BitVec.sub_self _
  refine ⟨hnodup, hset, T', ?_, h2, hcount, h4⟩
  rw [avlTreeClear, h1]
  show (if T'.count = 0 then some (t.post, T') else none) = _
  rw [if_pos hcount]

theorem clear_does (h : T.Represents key S t) (hn : t.height ≤ n) (hm : S.card < m) :
    Does key S .clear (exec compare n m T .clear) := by
  obtain ⟨hnodup, hset, T', h1, h2, h3, h4⟩ := avlTreeClear_spec h hn hm
    (show WritesOwn fun _ M => M from
      ⟨fun _ M z _ => Links.Same.refl M.toLinks z, fun _ _ => rfl⟩)
  refine ⟨t.post, T', .nil, h1, ⟨⟨⟨h2, trivial, List.nodup_nil⟩, trivial, trivial⟩,
    List.Pairwise.nil, fun z => by simp [toList, after], h3, fun z _ => ?_⟩, hnodup, hset⟩
  rw [h4 fun _ _ _ => rfl]
  split_ifs with hz
  · rfl
  · refine h.free z fun hzS => hz ?_
    rwa [← List.mem_toFinset, hset]

/-! ### Runs -/

/-- A legal call succeeds, returns what it should, and leaves a tree of the new set. -/
theorem exec_spec (hc : Compares compare key) (h : T.Represents key S t) (hn : t.height < n)
    (hm : S.card < m) {call : AvlCall ι} (hl : Legal key S call) :
    Does key S call (exec compare n m T call) := by
  cases call with
  | add x => exact add_does hc h hn hl
  | remove x => exact remove_does h hn.le x
  | replace x y => exact replace_does h hl.1 hl.2.1 hl.2.2
  | find x => exact (search_does hc h hn.le x).1
  | nearest x => exact (search_does hc h hn.le x).2
  | first => exact (ends_does h hn.le).1
  | last => exact (ends_does h hn.le).2
  | next x => exact (neighbours_does h hn.le hl).1
  | prev x => exact (neighbours_does h hn.le hl).2
  | clear => exact clear_does h hn.le hm

omit [DecidableEq ι] in
/-- With less than `2 ^ 64` nodes a tree is less than 92 nodes high. -/
theorem Represents.height_lt [Fintype ι] (h : T.Represents key S t)
    (hι : Fintype.card ι < 2 ^ 64) : t.height < 92 := by
  refine Nat.lt_succ_of_le (height_lt_of_length h.avl.balanced (lt_of_le_of_lt ?_ hι))
  exact h.avl.links.nodup.length_le_card

/-- The set after a run. -/
def afterRun (key : ι → κ) : Finset ι → List (AvlCall ι) → Finset ι
  | S, [] => S
  | S, call :: calls => afterRun key (after key S call) calls

theorem run_represents [Fintype ι] (hι : Fintype.card ι < 2 ^ 64) (hc : Compares compare key)
    (hn : 92 ≤ n) (hm : Fintype.card ι < m) (calls : List (AvlCall ι))
    (h : T.Represents key S t) (hl : LegalRun key S calls) : ∃ answers T' t',
    run compare n m T calls = some (answers, T') ∧ AnswersRun key S calls answers ∧
      T'.Represents key (afterRun key S calls) t' := by
  induction calls generalizing T S t with
  | nil => exact ⟨[], T, t, rfl, rfl, h⟩
  | cons call calls ih =>
    obtain ⟨answer, T1, t1, h1, h2, h3⟩ := exec_spec (m := m) hc h ((h.height_lt hι).trans_le hn)
      (S.card_le_univ.trans_lt hm) hl.1
    obtain ⟨answers, T2, t2, h4, h5, h6⟩ := ih h2 hl.2
    refine ⟨answer :: answers, T2, t2, ?_, ⟨h3, h5⟩, h6⟩
    rw [run, h1]
    show (run compare n m T1 calls).bind _ = _
    rw [h4]
    rfl

omit [DecidableEq ι] in
/-- An empty tree. -/
theorem init_represents {M : AvlNodes ι} (hM : ∀ x, M.parent x = some x) :
    (avlTreeInit M).Represents key ∅ .nil :=
  ⟨⟨⟨rfl, trivial, List.nodup_nil⟩, trivial, trivial⟩, List.Pairwise.nil,
    fun x => by simp [toList], rfl, fun x _ => hM x⟩

/-- Every legal run of calls that begins with an empty tree succeeds, each call returns what it
should, and no loop but the one of `avl_tree_clear` takes more than 92 rounds. -/
theorem run_answers [Fintype ι] (hι : Fintype.card ι < 2 ^ 64) (hc : Compares compare key)
    (M : AvlNodes ι) (hM : ∀ x, M.parent x = some x) (hn : 92 ≤ n) (hm : Fintype.card ι < m)
    (calls : List (AvlCall ι)) (hl : LegalRun key ∅ calls) : ∃ answers T t,
    run compare n m (avlTreeInit M) calls = some (answers, T) ∧ AnswersRun key ∅ calls answers ∧
      T.Represents key (afterRun key ∅ calls) t :=
  run_represents hι hc hn hm calls (init_represents hM) hl

/-- After any legal run `avl_tree_clear` destroys each data once, children before their parents, and
nothing it does depends on what is in the nodes of data that is destroyed already. -/
theorem clear_after_run [Fintype ι] (hι : Fintype.card ι < 2 ^ 64) (hc : Compares compare key)
    (M : AvlNodes ι) (hM : ∀ x, M.parent x = some x) (hn : 92 ≤ n) (hm : Fintype.card ι < m)
    (calls : List (AvlCall ι)) (hl : LegalRun key ∅ calls)
    {destroy : ι → AvlNodes ι → AvlNodes ι} (hd : WritesOwn destroy) : ∃ answers T data T',
    run compare n m (avlTreeInit M) calls = some (answers, T) ∧
      avlTreeClear destroy n m T = some (data, T') ∧ T'.nodes.root = none ∧ T'.count = 0 ∧
      data.Nodup ∧ data.toFinset = afterRun key ∅ calls ∧
      ∀ x y, y ∈ afterRun key ∅ calls → T.nodes.parent y = some x →
        ∃ A B C, data = A ++ y :: (B ++ x :: C) := by
  obtain ⟨answers, T, t, hrun, -, h⟩ := run_represents hι hc hn hm calls (init_represents hM) hl
  obtain ⟨hnodup, hset, T', h1, h2, h3, -⟩ := avlTreeClear_spec h
    ((h.height_lt hι).le.trans hn) ((afterRun key ∅ calls).card_le_univ.trans_lt hm) hd
  refine ⟨answers, T, t.post, T', hrun, h1, h2, h3, hnodup, hset, fun x y hy hp => ?_⟩
  exact AvlNodes.post_of_parent h.avl.links ((h.mem y).2 hy) hp

/-- Numbers that are compared as such; the nodes are made by `avl_node_init`. -/
def numbers : AvlNodes (Fin 6) := ⟨⟨fun _ => none, fun _ => none, some, none⟩, fun _ => 0⟩

/-- Some of them are added, one comes twice under its key, one is replaced, and all go. -/
def nineCalls : List (AvlCall (Fin 6)) :=
  [.add 3, .add 1, .add 0, .nearest 5, .remove 3, .remove 3, .replace 1 4, .next 4, .clear]

theorem run_answers_nine_calls : ∃ answers T t,
    run (fun x y : Fin 6 => ((x % 3 : ℕ) : ℤ) - (y % 3 : ℕ)) 92 7 (avlTreeInit numbers) nineCalls =
      some (answers, T) ∧ AnswersRun (fun x : Fin 6 => x % 3) ∅ nineCalls answers ∧
      T.Represents (fun x : Fin 6 => x % 3) (afterRun (fun x : Fin 6 => x % 3) ∅ nineCalls) t :=
  run_answers (by decide) ⟨by decide, by decide⟩ numbers (fun _ => rfl) (Nat.le_refl 92)
    (by decide) nineCalls (by decide)

/-- A `destroy` that overwrites the node of its data. -/
def overwrite (a : Fin 6) (M : AvlNodes (Fin 6)) : AvlNodes (Fin 6) :=
  M.withLinks (((M.toLinks.setLeft a (some 5)).setRight a (some 5)).setParent a none)

theorem clear_after_run_overwrite : ∃ answers T data T',
    run (fun x y : Fin 6 => (x : ℤ) - y) 92 7 (avlTreeInit numbers)
      [.add 3, .add 1, .add 2, .add 0] = some (answers, T) ∧
      avlTreeClear overwrite 92 7 T = some (data, T') ∧ T'.nodes.root = none ∧ T'.count = 0 ∧
      data.Nodup ∧ data.toFinset = {3, 1, 2, 0} := by
  have hc : Compares (fun x y : Fin 6 => (x : ℤ) - y) fun x => x := ⟨by decide, by decide⟩
  have hd : WritesOwn overwrite := ⟨fun a M z hz => ⟨Function.update_of_ne hz ..,
    Function.update_of_ne hz .., Function.update_of_ne hz ..⟩, fun _ _ => rfl⟩
  obtain ⟨answers, T, data, T', h1, h2, h3, h4, h5, h6, -⟩ := clear_after_run (n := 92) (m := 7)
    (by decide) hc numbers (fun _ => rfl) (Nat.le_refl 92) (by decide)
    [.add 3, .add 1, .add 2, .add 0] (by decide) hd
  exact ⟨answers, T, data, T', h1, h2, h3, h4, h5, h6.trans (by decide)⟩

end AvlTree
