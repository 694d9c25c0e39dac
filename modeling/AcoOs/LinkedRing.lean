/-
Circular doubly linked lists.

A node has a link to the next node and one to the previous node, and the head is a node as well.
`Links.Ring` says that the links run from the head through the nodes of a list and back.

* **`Links.Ring.addTail`** — a new node in front of the head is the new last node;
* **`Links.Ring.delFirst`** — taking the first node out leaves the others.
-/
import Mathlib

namespace LinkedRing

variable {ι : Type*}

/-- The links of all nodes. -/
structure Links (ι : Type*) where
  next : ι → ι
  prev : ι → ι

namespace Links

/-- One node is followed by another. -/
structure Joined (L : Links ι) (x y : ι) : Prop where
  next : L.next x = y
  prev : L.prev y = x

/-- The links run from `x` through the nodes of a list to `y`. -/
def Chain (L : Links ι) : ι → List ι → ι → Prop
  | x, [], y => L.Joined x y
  | x, a :: l, y => L.Joined x a ∧ Chain L a l y

/-- The links run from the head through the nodes of a list and back, and all are different. -/
structure Ring (L : Links ι) (h : ι) (l : List ι) : Prop where
  chain : L.Chain h l h
  nodup : (h :: l).Nodup

variable {L L' : Links ι} {h n x y a : ι} {l : List ι}

theorem chain_append {l' : List ι} :
    L.Chain x (l ++ a :: l') y ↔ L.Chain x l a ∧ L.Chain a l' y := by
  induction l generalizing x with
  | nil => exact Iff.rfl
  | cons b l ih =>
    show L.Joined x b ∧ L.Chain b (l ++ a :: l') y ↔ (L.Joined x b ∧ L.Chain b l a) ∧ _
    rw [ih, and_assoc]

/-- Only the links between the nodes matter. -/
theorem Chain.congr (hc : L.Chain x l y) (hnext : ∀ b ∈ x :: l, L'.next b = L.next b)
    (hprev : ∀ b ∈ y :: l, L'.prev b = L.prev b) : L'.Chain x l y := by
  induction l generalizing x with
  | nil =>
    exact ⟨(hnext x (List.mem_singleton_self x)).trans hc.next,
      (hprev y (List.mem_singleton_self y)).trans hc.prev⟩
  | cons b l ih =>
    refine ⟨⟨(hnext x List.mem_cons_self).trans hc.1.next,
      (hprev b (by simp)).trans hc.1.prev⟩, ih hc.2 (fun c hc' => ?_) fun c hc' => ?_⟩
    · exact hnext c (List.mem_cons_of_mem _ hc')
    · refine hprev c ?_
      rw [List.mem_cons] at hc' ⊢
      exact hc'.imp id (List.mem_cons_of_mem b)

/-- The previous node of the head is the last one. -/
theorem Ring.eq_nil_or_last (hr : L.Ring h l) :
    l = [] ∧ L.prev h = h ∨ ∃ l' z, l = l' ++ [z] ∧ L.Chain h l' z ∧ L.prev h = z := by
  rcases List.eq_nil_or_concat l with rfl | ⟨l', z, rfl⟩
  · exact .inl ⟨rfl, hr.chain.prev⟩
  · obtain ⟨h1, h2⟩ := chain_append.1 (List.concat_eq_append ▸ hr.chain)
    exact .inr ⟨l', z, List.concat_eq_append, h1, h2.prev⟩

theorem ring_nil (hnext : L.next h = h) (hprev : L.prev h = h) : L.Ring h [] :=
  ⟨⟨hnext, hprev⟩, List.nodup_singleton h⟩

variable [DecidableEq ι]

/-- Write the link to the next node. -/
def setNext (L : Links ι) (x v : ι) : Links ι := { L with next := Function.update L.next x v }

/-- Write the link to the previous node. -/
def setPrev (L : Links ι) (x v : ι) : Links ι := { L with prev := Function.update L.prev x v }

/-- Put a node in front of another one. -/
def addTail (L : Links ι) (n h : ι) : Links ι :=
  (((L.setNext (L.prev h) n).setNext n h).setPrev n (L.prev h)).setPrev h n

/-- Take a node out, and link it with itself. -/
def delInit (L : Links ι) (n : ι) : Links ι :=
  (((L.setPrev (L.next n) (L.prev n)).setNext (L.prev n) (L.next n)).setNext n n).setPrev n n

theorem addTail_next (L : Links ι) (n h x : ι) :
    (L.addTail n h).next x = if x = n then h else if x = L.prev h then n else L.next x := by
  show Function.update (Function.update L.next (L.prev h) n) n h x = _
  rw [Function.update_apply, Function.update_apply]

theorem addTail_prev (L : Links ι) (n h x : ι) :
    (L.addTail n h).prev x = if x = h then n else if x = n then L.prev h else L.prev x := by
  show Function.update (Function.update L.prev n (L.prev h)) h n x = _
  rw [Function.update_apply, Function.update_apply]

theorem delInit_next (L : Links ι) (n x : ι) :
    (L.delInit n).next x = if x = n then n else if x = L.prev n then L.next n else L.next x := by
  show Function.update (Function.update L.next (L.prev n) (L.next n)) n n x = _
  rw [Function.update_apply, Function.update_apply]

theorem delInit_prev (L : Links ι) (n x : ι) :
    (L.delInit n).prev x = if x = n then n else if x = L.next n then L.prev n else L.prev x := by
  show Function.update (Function.update L.prev (L.next n) (L.prev n)) n n x = _
  rw [Function.update_apply, Function.update_apply]

/-- A new node in front of the head is the new last node. -/
theorem Ring.addTail (hr : L.Ring h l) (hn : n ∉ h :: l) : (L.addTail n h).Ring h (l ++ [n]) := by
  have hnh : n ≠ h := fun hc => hn (hc ▸ List.mem_cons_self)
  have hnl : n ∉ l := fun hc => hn (List.mem_cons_of_mem h hc)
  have hnodup : (h :: (l ++ [n])).Nodup := by
    rw [← List.cons_append]
    exact List.nodup_append'.2 ⟨hr.nodup, List.nodup_singleton n, by simpa using hn⟩
  refine ⟨?_, hnodup⟩
  have hlast : (L.addTail n h).Joined n h := ⟨by simp [addTail_next], by simp [addTail_prev]⟩
  have hnew : (L.addTail n h).Joined (L.prev h) n → (L.addTail n h).Chain (L.prev h) [n] h :=
    fun hj => ⟨hj, hlast⟩
  rcases hr.eq_nil_or_last with ⟨rfl, hprev⟩ | ⟨l', z, rfl, hchain, hprev⟩
  · rw [hprev] at hnew
    refine hnew ⟨?_, ?_⟩
    · simp [addTail_next, hprev, Ne.symm hnh]
    · simp [addTail_prev, hprev, hnh]
  · -- the links up to the last node stay
    rw [hprev] at hnew
    have hnd := hr.nodup
    simp only [List.nodup_cons, List.nodup_append', List.mem_append, List.mem_singleton,
      not_or] at hnd
    have hzn : z ≠ n := fun hc => hnl (by simp [hc])
    rw [List.append_assoc]
    refine chain_append.2 ⟨hchain.congr (fun b hb => ?_) fun b hb => ?_, hnew ⟨?_, ?_⟩⟩
    · have hbn : b ≠ n := by
        rintro rfl
        refine hn ?_
        rw [List.mem_cons] at hb ⊢
        exact hb.imp id (List.mem_append_left _)
      have hbz : b ≠ z := by
        rintro rfl
        rcases List.mem_cons.1 hb with rfl | hb
        · exact hnd.1.2 rfl
        · exact hnd.2.2.2 hb (List.mem_singleton_self b)
      rw [addTail_next, if_neg hbn, hprev, if_neg hbz]
    · have hbn : b ≠ n := by
        rintro rfl
        rcases List.mem_cons.1 hb with rfl | hb
        · exact hzn rfl
        · exact hnl (List.mem_append_left _ hb)
      have hbh : b ≠ h := by
        rintro rfl
        rcases List.mem_cons.1 hb with rfl | hb
        · exact hnd.1.2 rfl
        · exact hnd.1.1 hb
      rw [addTail_prev, if_neg hbh, if_neg hbn]
    · rw [addTail_next, if_neg hzn, hprev, if_pos rfl]
    · rw [addTail_prev, if_neg hnh, if_pos rfl, hprev]

/-- Taking the first node out leaves the others. -/
theorem Ring.delFirst (hr : L.Ring h (a :: l)) : L.next h = a ∧ (L.delInit a).Ring h l := by
  obtain ⟨hjoin, hchain⟩ := hr.chain
  have hnd := hr.nodup
  simp only [List.nodup_cons, List.mem_cons, not_or] at hnd
  obtain ⟨⟨hha, hhl⟩, hal, hl⟩ := hnd
  refine ⟨hjoin.next, ?_, List.nodup_cons.2 ⟨hhl, hl⟩⟩
  have hprev : L.prev a = h := hjoin.prev
  cases l with
  | nil =>
    refine ⟨?_, ?_⟩
    · rw [delInit_next, if_neg hha, hprev, if_pos rfl]
      exact hchain.next
    · rw [delInit_prev, if_neg hha, hchain.next, if_pos rfl]
      exact hprev
  | cons b l =>
    have hnext : L.next a = b := hchain.1.next
    simp only [List.mem_cons, not_or] at hhl hal
    have hb : b ∉ l := (List.nodup_cons.1 hl).1
    refine ⟨⟨?_, ?_⟩, hchain.2.congr (fun c hc => ?_) fun c hc => ?_⟩
    · rw [delInit_next, if_neg hha, hprev, if_pos rfl, hnext]
    · rw [delInit_prev, if_neg (Ne.symm hal.1), hnext, if_pos rfl, hprev]
    · have hca : c ≠ a := by
        rintro rfl
        rcases List.mem_cons.1 hc with rfl | hc
        · exact hal.1 rfl
        · exact hal.2 hc
      have hch : c ≠ h := by
        rintro rfl
        rcases List.mem_cons.1 hc with rfl | hc
        · exact hhl.1 rfl
        · exact hhl.2 hc
      rw [delInit_next, if_neg hca, hprev, if_neg hch]
    · have hca : c ≠ a := by
        rintro rfl
        rcases List.mem_cons.1 hc with rfl | hc
        · exact hha rfl
        · exact hal.2 hc
      have hcb : c ≠ b := by
        rintro rfl
        rcases List.mem_cons.1 hc with rfl | hc
        · exact hhl.1 rfl
        · exact hb hc
      rw [delInit_prev, if_neg hca, hnext, if_neg hcb]

end Links

end LinkedRing
