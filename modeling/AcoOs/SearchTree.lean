/-
Binary search trees whose comparison is given by the caller.

A key is compared with the elements of the tree by a function to the integers: zero ends
the search, a negative value sends it to the left and a positive one to the right.  No
order on the elements is assumed, so the lemmas say what a search needs of the in-order
sequence `toList` for its answer to be right, and what holds without it.
-/
import Mathlib

/-- A binary tree. -/
inductive SearchTree (α : Type*)
  | nil
  | node (left : SearchTree α) (x : α) (right : SearchTree α)

namespace SearchTree

variable {α : Type*}

/-- The in-order sequence. -/
def toList : SearchTree α → List α
  | nil => []
  | node l x r => l.toList ++ x :: r.toList

/-- The height of the root; it is 0 for no node. -/
def height : SearchTree α → ℕ
  | nil => 0
  | node l _ r => max l.height r.height + 1

/-- Search for an element that compares as zero. -/
def find (compare : α → ℤ) : SearchTree α → Option α
  | nil => none
  | node l x r =>
    if compare x = 0 then some x
    else if compare x < 0 then find compare l
    else find compare r

/-- Link a new node where the search for it ends, or return the element in its way. -/
def add (compare : α → ℤ) (a : α) : SearchTree α → Option α × SearchTree α
  | nil => (none, node nil a nil)
  | node l x r =>
    if compare x = 0 then (some x, node l x r)
    else if compare x < 0 then ((add compare a l).1, node (add compare a l).2 x r)
    else ((add compare a r).1, node l x (add compare a r).2)

/-- A tree with a given in-order sequence. -/
def ofList : List α → SearchTree α
  | [] => nil
  | a :: l => node nil a (ofList l)

theorem toList_ofList (l : List α) : (ofList l).toList = l := by
  induction l with
  | nil => rfl
  | cons a l ih => rw [ofList, toList, ih, toList, List.nil_append]

variable {compare : α → ℤ} {a x : α} {t : SearchTree α}

/-- Only the comparisons with elements of the tree matter. -/
theorem find_congr {compare' : α → ℤ} (h : ∀ y ∈ t.toList, compare' y = compare y) :
    t.find compare' = t.find compare := by
  induction t with
  | nil => rfl
  | node l y r ihl ihr =>
    simp only [toList, List.mem_append, List.mem_cons] at h
    rw [find, find, h y (.inr (.inl rfl)), ihl fun z hz => h z (.inl hz),
      ihr fun z hz => h z (.inr (.inr hz))]

theorem add_congr {compare' : α → ℤ} (h : ∀ y ∈ t.toList, compare' y = compare y) :
    t.add compare' a = t.add compare a := by
  induction t with
  | nil => rfl
  | node l y r ihl ihr =>
    simp only [toList, List.mem_append, List.mem_cons] at h
    rw [add, add, h y (.inr (.inl rfl)), ihl fun z hz => h z (.inl hz),
      ihr fun z hz => h z (.inr (.inr hz))]

theorem find_some (h : t.find compare = some x) : x ∈ t.toList ∧ compare x = 0 := by
  induction t with
  | nil => cases h
  | node l y r ihl ihr =>
    rw [find] at h
    rw [toList, List.mem_append, List.mem_cons]
    split_ifs at h with h0 h1
    · cases h
      exact ⟨.inr (.inl rfl), h0⟩
    · exact ⟨.inl (ihl h).1, (ihl h).2⟩
    · exact ⟨.inr (.inr (ihr h).1), (ihr h).2⟩

/-- A search finds the element when it is sent to the right before it and to the left
behind it. -/
theorem find_eq_of_split {l r : List α} (h : t.toList = l ++ x :: r) (hx : compare x = 0)
    (hl : ∀ y ∈ l, 0 < compare y) (hr : ∀ y ∈ r, compare y < 0) : t.find compare = some x := by
  induction t generalizing l r with
  | nil => simp [toList] at h
  | node tl y tr ihl ihr =>
    rw [toList] at h
    rw [find]
    rcases List.append_eq_append_iff.1 h with ⟨u, h1, h2⟩ | ⟨u, h1, h2⟩
    · -- the root stands before or at the element
      cases u with
      | nil =>
        cases h2
        rw [if_pos hx]
      | cons z u =>
        obtain ⟨rfl, h3⟩ := List.cons.inj h2
        have hy := hl y (by rw [h1]; simp)
        rw [if_neg (by omega), if_neg (by omega)]
        exact ihr h3 (fun w hw => hl w (by rw [h1]; simp [hw])) hr
    · cases u with
      | nil =>
        cases h2
        rw [if_pos hx]
      | cons z u =>
        obtain ⟨rfl, h3⟩ := List.cons.inj h2
        have hy := hr y (by rw [h3]; simp)
        rw [if_neg (by omega), if_pos hy]
        exact ihl h1 hl fun w hw => hr w (by rw [h3]; simp [hw])

/-- What is in the way of a new node is what a search finds. -/
theorem add_fst : (t.add compare a).1 = t.find compare := by
  induction t with
  | nil => rfl
  | node l y r ihl ihr =>
    rw [add, find]
    split_ifs
    · rfl
    · exact ihl
    · exact ihr

/-- The new node stands somewhere in the in-order sequence. -/
theorem add_none (h : t.find compare = none) : ∃ l r,
    t.toList = l ++ r ∧ (t.add compare a).2.toList = l ++ a :: r := by
  induction t with
  | nil => exact ⟨[], [], rfl, rfl⟩
  | node tl y tr ihl ihr =>
    rw [find] at h
    rw [add]
    split_ifs at h ⊢ with h0 h1
    · obtain ⟨l, r, h2, h3⟩ := ihl h
      refine ⟨l, r ++ y :: tr.toList, ?_, ?_⟩
      · rw [toList, h2, List.append_assoc]
      · rw [toList, h3, List.append_assoc, List.cons_append]
    · obtain ⟨l, r, h2, h3⟩ := ihr h
      refine ⟨tl.toList ++ y :: l, r, ?_, ?_⟩
      · rw [toList, h2, List.append_assoc, List.cons_append]
      · rw [toList, h3, List.append_assoc, List.cons_append]

/-- A new node that every comparison sends to the right becomes the last. -/
theorem toList_add_last (h : ∀ y ∈ t.toList, 0 < compare y) :
    (t.add compare a).2.toList = t.toList ++ [a] := by
  induction t with
  | nil => rfl
  | node tl y tr _ ihr =>
    simp only [toList, List.mem_append, List.mem_cons] at h
    have hy := h y (.inr (.inl rfl))
    rw [add, if_neg (by omega), if_neg (by omega), toList, toList,
      ihr fun z hz => h z (.inr (.inr hz)), List.append_assoc, List.cons_append]

/-- What sends a search to the left does so for every later element, and what sends it to
the right for every earlier one. -/
def Directs (compare : α → ℤ) (l : List α) : Prop :=
  l.Pairwise fun x y => (compare x < 0 → compare y < 0) ∧ (0 < compare y → 0 < compare x)

/-- In a sequence that directs the search, the new node stands behind what is smaller and
before what is larger, and nothing is in its way. -/
theorem add_none_of_directs (h : t.find compare = none) (hd : Directs compare t.toList) :
    ∃ l r, t.toList = l ++ r ∧ (t.add compare a).2.toList = l ++ a :: r ∧
      (∀ y ∈ l, 0 < compare y) ∧ ∀ y ∈ r, compare y < 0 := by
  induction t with
  | nil => exact ⟨[], [], rfl, rfl, by simp, by simp⟩
  | node tl y tr ihl ihr =>
    rw [toList, Directs, List.pairwise_append, List.pairwise_cons] at hd
    obtain ⟨hdl, ⟨hdy, hdr⟩, hcross⟩ := hd
    rw [find] at h
    rw [add]
    split_ifs at h ⊢ with h0 h1
    · obtain ⟨l, r, h2, h3, h4, h5⟩ := ihl h hdl
      refine ⟨l, r ++ y :: tr.toList, ?_, ?_, h4, fun z hz => ?_⟩
      · rw [toList, h2, List.append_assoc]
      · rw [toList, h3, List.append_assoc, List.cons_append]
      · rcases List.mem_append.1 hz with hz | hz
        · exact h5 z hz
        · rcases List.mem_cons.1 hz with rfl | hz
          · exact h1
          · exact (hdy z hz).1 h1
    · have hpos : 0 < compare y := by omega
      obtain ⟨l, r, h2, h3, h4, h5⟩ := ihr h hdr
      refine ⟨tl.toList ++ y :: l, r, ?_, ?_, fun z hz => ?_, h5⟩
      · rw [toList, h2, List.append_assoc, List.cons_append]
      · rw [toList, h3, List.append_assoc, List.cons_append]
      · rcases List.mem_append.1 hz with hz | hz
        · exact (hcross z hz y List.mem_cons_self).2 hpos
        · rcases List.mem_cons.1 hz with rfl | hz
          · exact hpos
          · exact h4 z hz

end SearchTree
