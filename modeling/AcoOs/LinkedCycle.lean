/-
Cells of doubly linked lists are joined.

To join two cells is to write the link of one to the next cell and of the other to the previous one.
`Cycle` is a ring written as the sequence from the head back to the head, so that an operation cuts
the sequence in two and puts something else between the parts.

* **`Cycle.splice`** — linked cells are put between the parts;
* **`Cycle.unsplice`** — what stands between the parts is taken out, and stays linked in itself;
* **`cycle_close`** — linked cells get a head.
-/
import AcoOs.LinkedRing

namespace LinkedRing.Links

variable {ι : Type*} [DecidableEq ι] {L L' : Links ι} {x y v w z : ι} {p q m z' : List ι}

/-- Make `y` the next cell of `x`, and `x` the previous cell of `y`. -/
def join (L : Links ι) (x y : ι) : Links ι := (L.setNext x y).setPrev y x

theorem join_next : (L.join x y).next z = if z = x then y else L.next z :=
  Function.update_apply ..

theorem join_prev : (L.join x y).prev z = if z = y then x else L.prev z :=
  Function.update_apply ..

theorem joined_join : (L.join x y).Joined x y :=
  ⟨by rw [join_next, if_pos rfl], by rw [join_prev, if_pos rfl]⟩

theorem Joined.join (h : L.Joined v w) (hx : v ≠ x) (hy : w ≠ y) : (L.join x y).Joined v w :=
  ⟨by rw [join_next, if_neg hx, h.next], by rw [join_prev, if_neg hy, h.prev]⟩

theorem join_comm (hx : v ≠ x) (hy : w ≠ y) :
    (L.join x y).join v w = (L.join v w).join x y := by
  simp only [Links.join, setNext, setPrev, Function.update_comm hx, Function.update_comm hy]

/-- A part of a list in which no link of `x` to the next and of `y` to the previous cell is used. -/
theorem isChain_join (h : p.IsChain L.Joined) (hx : x ∉ p.dropLast) (hy : y ∉ p.tail) :
    p.IsChain (L.join x y).Joined := by
  induction p with
  | nil => exact .nil
  | cons a p ih =>
    cases p with
    | nil => exact .singleton a
    | cons b p =>
      rw [List.isChain_cons_cons] at h ⊢
      rw [List.dropLast_cons_cons, List.mem_cons, not_or] at hx
      rw [List.tail_cons, List.mem_cons, not_or] at hy
      exact ⟨h.1.join (Ne.symm hx.1) (Ne.symm hy.1), ih h.2 hx.2 hy.2⟩

/-- A sequence whose cells are linked, and in which only the first one comes twice, as the last. -/
structure Cycle (L : Links ι) (z : List ι) : Prop where
  chain : z.IsChain L.Joined
  front : z.dropLast.Nodup
  back : z.tail.Nodup

/-! ### A sequence is cut in two -/

omit [DecidableEq ι] in
/-- The two cells at which a sequence is cut. -/
structure Seam (p q : List ι) (x y : ι) : Prop where
  last : p.getLast? = some x
  head : q.head? = some y

section Seam

omit [DecidableEq ι]

theorem notMem_dropLast (hn : p.Nodup) (hx : p.getLast? = some x) : x ∉ p.dropLast := by
  obtain ⟨p, rfl⟩ := List.getLast?_eq_some_iff.1 hx
  rw [List.dropLast_concat]
  exact fun hm => (List.nodup_append.1 hn).2.2 x hm x (List.mem_singleton_self x) rfl

theorem notMem_tail (hn : p.Nodup) (hx : p.head? = some x) : x ∉ p.tail := by
  cases p with
  | nil => cases hx
  | cons a p =>
    cases hx
    exact (List.nodup_cons.1 hn).1

theorem nodup_between (h : (p ++ q).Nodup) (hm : m.Nodup) (hd : ∀ z ∈ m, z ∉ p ++ q) :
    (p ++ (m ++ q)).Nodup := by
  have hperm : (p ++ (m ++ q)).Perm (m ++ (p ++ q)) := List.perm_append_comm_assoc ..
  rw [hperm.nodup_iff]
  exact List.nodup_append'.2 ⟨hm, h, fun z hz hz' => hd z hz hz'⟩

variable (hs : Seam p q x y)
include hs

theorem Seam.mem_left : x ∈ p := List.mem_of_getLast? hs.last

theorem Seam.mem_right : y ∈ q := List.mem_of_head? hs.head

theorem Seam.dropLast : (p ++ (m ++ q)).dropLast = p ++ (m ++ q.dropLast) := by
  have hq : q ≠ [] := List.ne_nil_of_mem hs.mem_right
  rw [List.dropLast_append_of_ne_nil (by simp [hq]), List.dropLast_append_of_ne_nil hq]

theorem Seam.tail : (p ++ (m ++ q)).tail = p.tail ++ (m ++ q) :=
  List.tail_append_of_ne_nil (List.ne_nil_of_mem hs.mem_left)

/-- The parts of a sequence are linked, and a cell at the cut is nowhere else. -/
theorem Seam.parts (h : L.Cycle (p ++ (m ++ q))) : p.IsChain L.Joined ∧ m.IsChain L.Joined ∧
    q.IsChain L.Joined ∧ x ∉ p.dropLast ∧ x ∉ m ∧ x ∉ q.dropLast ∧ y ∉ p.tail ∧ y ∉ m ∧
      y ∉ q.tail := by
  obtain ⟨hc, hf, hb⟩ := h
  rw [hs.dropLast, List.nodup_append', List.nodup_append'] at hf
  rw [hs.tail, List.nodup_append', List.nodup_append'] at hb
  obtain ⟨hp, -, hpq⟩ := hf
  obtain ⟨-, ⟨-, hq, hmq⟩, hpq'⟩ := hb
  rw [List.isChain_append, List.isChain_append] at hc
  refine ⟨hc.1, hc.2.1.1, hc.2.1.2.1, notMem_dropLast hp hs.last, fun hm => ?_, fun hm => ?_,
    fun hm => ?_, fun hm => ?_, notMem_tail hq hs.head⟩
  · exact hpq hs.mem_left (List.mem_append_left _ hm)
  · exact hpq hs.mem_left (List.mem_append_right _ hm)
  · exact hpq' hm (List.mem_append_right _ hs.mem_right)
  · exact hmq hm hs.mem_right

end Seam

/-- Something else is put between the parts. -/
theorem Cycle.splice (h : L.Cycle (p ++ q)) (hs : Seam p q x y) (hm : m.IsChain L.Joined)
    (hmn : m.Nodup) (hv : m.head? = some v) (hw : m.getLast? = some w)
    (hd : ∀ z ∈ m, z ∉ p ++ q) : ((L.join x v).join w y).Cycle (p ++ (m ++ q)) := by
  have hvm : v ∉ p ++ q := hd v (List.mem_of_head? hv)
  have hwm : w ∉ p ++ q := hd w (List.mem_of_getLast? hw)
  rw [List.mem_append, not_or] at hvm hwm
  obtain ⟨hpc, -, hqc, h1, -, h2, h3, -, h4⟩ := hs.parts (m := []) h
  have hxm : x ∉ m := fun hx => hd x hx (List.mem_append_left _ hs.mem_left)
  have hym : y ∉ m := fun hy => hd y hy (List.mem_append_right _ hs.mem_right)
  have hfront := h.front
  have hback := h.back
  rw [← List.nil_append q, hs.dropLast, List.nil_append] at hfront
  rw [← List.nil_append q, hs.tail, List.nil_append] at hback
  refine ⟨?_, ?_, ?_⟩
  · rw [List.isChain_append, List.isChain_append]
    refine ⟨?_, ⟨?_, ?_, ?_⟩, ?_⟩
    · refine isChain_join (isChain_join hpc h1 fun hm => ?_) (fun hm => ?_) h3
      · exact hvm.1 (List.mem_of_mem_tail hm)
      · exact hwm.1 (List.mem_of_mem_dropLast hm)
    · refine isChain_join (isChain_join hm (fun hm => ?_) (notMem_tail hmn hv))
        (notMem_dropLast hmn hw) fun hm => ?_
      · exact hxm (List.mem_of_mem_dropLast hm)
      · exact hym (List.mem_of_mem_tail hm)
    · refine isChain_join (isChain_join hqc h2 fun hm => ?_) (fun hm => ?_) h4
      · exact hvm.2 (List.mem_of_mem_tail hm)
      · exact hwm.2 (List.mem_of_mem_dropLast hm)
    · intro a ha b hb
      rw [hw] at ha
      rw [hs.head] at hb
      cases ha
      cases hb
      exact joined_join
    · intro a ha b hb
      rw [hs.last] at ha
      rw [List.head?_append, hv] at hb
      cases ha
      cases hb
      exact joined_join.join (fun e => hwm.1 (e ▸ hs.mem_left)) fun e => hvm.2 (e ▸ hs.mem_right)
  · rw [hs.dropLast]
    refine nodup_between hfront hmn fun z hz hz' => hd z hz ?_
    exact List.mem_append.2 ((List.mem_append.1 hz').imp_right List.mem_of_mem_dropLast)
  · rw [hs.tail]
    refine nodup_between hback hmn fun z hz hz' => hd z hz ?_
    exact List.mem_append.2 ((List.mem_append.1 hz').imp_left List.mem_of_mem_tail)

/-- What stands between the parts is taken out, and stays linked in itself. -/
theorem Cycle.unsplice (h : L.Cycle (p ++ (m ++ q))) (hs : Seam p q x y) :
    (L.join x y).Cycle (p ++ q) ∧ m.IsChain (L.join x y).Joined := by
  obtain ⟨hpc, hmc, hqc, h1, h2, h3, h4, h5, h6⟩ := hs.parts h
  have hsub : (p ++ q).Sublist (p ++ (m ++ q)) := by simp
  have hfront := h.front
  have hback := h.back
  rw [hs.dropLast] at hfront
  rw [hs.tail] at hback
  refine ⟨⟨?_, ?_, ?_⟩, isChain_join hmc (fun hm => h2 (List.mem_of_mem_dropLast hm))
    fun hm => h5 (List.mem_of_mem_tail hm)⟩
  · rw [List.isChain_append]
    refine ⟨isChain_join hpc h1 h4, isChain_join hqc h3 h6, fun a ha b hb => ?_⟩
    rw [hs.last] at ha
    rw [hs.head] at hb
    cases ha
    cases hb
    exact joined_join
  · rw [← List.nil_append q, hs.dropLast, List.nil_append]
    exact hfront.sublist (by simp)
  · rw [← List.nil_append q, hs.tail, List.nil_append]
    exact hback.sublist (by simp)

/-- Linked cells are closed by a head. -/
theorem cycle_close (hm : m.IsChain L.Joined) (hmn : m.Nodup) (hv : m.head? = some v)
    (hw : m.getLast? = some w) (hx : x ∉ m) :
    ((L.join w x).join x v).Cycle (x :: (m ++ [x])) := by
  have hxw : x ≠ w := fun e => hx (e ▸ List.mem_of_getLast? hw)
  have hxv : x ≠ v := fun e => hx (e ▸ List.mem_of_head? hv)
  have hchain : m.IsChain ((L.join w x).join x v).Joined := by
    refine isChain_join (isChain_join hm (notMem_dropLast hmn hw) fun hm => ?_) (fun hm => ?_)
      (notMem_tail hmn hv)
    · exact hx (List.mem_of_mem_tail hm)
    · exact hx (List.mem_of_mem_dropLast hm)
  refine ⟨?_, ?_, ?_⟩
  · rw [List.isChain_cons, List.isChain_append]
    refine ⟨fun a ha => ?_, hchain, .singleton x, fun a ha b hb => ?_⟩
    · rw [List.head?_append, hv] at ha
      cases ha
      exact joined_join
    · rw [hw] at ha
      cases ha
      cases hb
      exact joined_join.join (Ne.symm hxw) hxv
  · rw [← List.cons_append, List.dropLast_concat]
    exact List.nodup_cons.2 ⟨hx, hmn⟩
  · rw [List.tail_cons]
    refine List.nodup_append'.2 ⟨hmn, List.nodup_singleton x, fun z hz hz' => hx ?_⟩
    rwa [← List.mem_singleton.1 hz']

omit [DecidableEq ι] in
theorem chain_iff {l : List ι} : L.Chain x l y ↔ (x :: (l ++ [y])).IsChain L.Joined := by
  induction l generalizing x with
  | nil => exact List.isChain_pair.symm
  | cons a l ih =>
    rw [Chain, ih, List.cons_append, List.isChain_cons_cons]

omit [DecidableEq ι] in
/-- A ring is a cycle from the head back to the head. -/
theorem ring_iff {l : List ι} : L.Ring x l ↔ L.Cycle (x :: (l ++ [x])) := by
  have hperm : (l ++ [x]).Perm (x :: l) := List.perm_append_singleton x l
  constructor
  · rintro ⟨h1, h2⟩
    refine ⟨chain_iff.1 h1, ?_, hperm.nodup_iff.2 h2⟩
    rw [← List.cons_append, List.dropLast_concat]
    exact h2
  · rintro ⟨h1, -, h3⟩
    exact ⟨chain_iff.2 h1, hperm.nodup_iff.1 h3⟩

/-- Other cells are joined. -/
theorem Cycle.frame (h : L.Cycle z') (hx : x ∉ z') (hy : y ∉ z') : (L.join x y).Cycle z' :=
  ⟨isChain_join h.chain (fun hm => hx (List.mem_of_mem_dropLast hm))
    fun hm => hy (List.mem_of_mem_tail hm), h.front, h.back⟩

theorem Ring.frame {l : List ι} {h : ι} (hr : L.Ring h l) (hx : x ∉ h :: l) (hy : y ∉ h :: l) :
    (L.join x y).Ring h l := by
  have hmem : ∀ z ∉ h :: l, z ∉ h :: (l ++ [h]) := fun z hz hz' => hz (by
    rw [List.mem_cons, List.mem_append, List.mem_singleton] at hz'
    rw [List.mem_cons]
    tauto)
  exact ring_iff.2 ((ring_iff.1 hr).frame (hmem x hx) (hmem y hy))

end LinkedRing.Links
