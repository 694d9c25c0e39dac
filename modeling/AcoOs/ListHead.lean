/-
The lists of `list.h`.

Every function of `list.h` that changes a list joins cells.  A program has several lists.  `Lists`
says which nodes each of them holds; `ListCall.after` is what a call makes of them, and a program
may only add nodes that are in no list, and only take out nodes that are in one.

* **`exec_lists`** — a legal call makes of the lists what it is for;
* **`run_lists`** — so do all calls of a run;
* **`forEachSafe_spec`** — a loop over a list that takes out some of the nodes it comes to comes to
  all of them in order, and leaves the others in the list.
-/
import AcoOs.LinkedCycle

namespace ListHead

open LinkedRing

variable {ι : Type*} [DecidableEq ι]

/-- `INIT_LIST_HEAD`. -/
def initListHead (L : Links ι) (head : ι) : Links ι :=
  (L.setNext head head).setPrev head head

/-- `INIT_NODE`. -/
def initNode (null : ι) (L : Links ι) (node : ι) : Links ι :=
  (L.setNext node null).setPrev node null

/-- `list_add`. -/
def listAdd (L : Links ι) (node head : ι) : Links ι :=
  let next := L.next head
  let L := L.setPrev next node
  let L := L.setNext node next
  let L := L.setPrev node head
  L.setNext head node

/-- `node_add_aft`. -/
def nodeAddAft (L : Links ι) (listNode joinNode : ι) : Links ι := listAdd L joinNode listNode

/-- `list_add_tail`. -/
def listAddTail (L : Links ι) (node head : ι) : Links ι :=
  let prev := L.prev head
  let L := L.setNext prev node
  let L := L.setNext node head
  let L := L.setPrev node prev
  L.setPrev head node

/-- `node_add_bef`. -/
def nodeAddBef (L : Links ι) (listNode joinNode : ι) : Links ι := listAddTail L joinNode listNode

/-- `list_del`, without `LIST_POISONING`. -/
def listDel (null : ι) (L : Links ι) (node : ι) : Links ι :=
  let next := L.next node
  let prev := L.prev node
  let L := L.setPrev next prev
  let L := L.setNext prev next
  let L := L.setPrev node null
  L.setNext node null

/-- `list_del_init`. -/
def listDelInit (null : ι) (L : Links ι) (node : ι) : Links ι :=
  initListHead (listDel null L node) node

/-- `list_empty`. -/
def listEmpty (L : Links ι) (head : ι) : Bool := L.next head = head

/-- `list_is_singular`. -/
def listIsSingular (L : Links ι) (head : ι) : Bool :=
  !listEmpty L head && L.prev head = L.next head

/-- `list_splice`. -/
def listSplice (L : Links ι) (list head : ι) : Links ι :=
  let headFirst := L.next head
  let listFirst := L.next list
  let listLast := L.prev list
  if listEmpty L list then L
  else
    let L := L.setNext head listFirst
    let L := L.setPrev listFirst head
    let L := L.setNext listLast headFirst
    L.setPrev headFirst listLast

/-- `list_splice_tail`. -/
def listSpliceTail (L : Links ι) (list head : ι) : Links ι :=
  let headLast := L.prev head
  let listFirst := L.next list
  let listLast := L.prev list
  if listEmpty L list then L
  else
    let L := L.setPrev head listLast
    let L := L.setNext listLast head
    let L := L.setPrev listFirst headLast
    L.setNext headLast listFirst

/-- `list_splice_init`. -/
def listSpliceInit (L : Links ι) (list head : ι) : Links ι :=
  initListHead (listSplice L list head) list

/-- `list_splice_tail_init`. -/
def listSpliceTailInit (L : Links ι) (list head : ι) : Links ι :=
  initListHead (listSpliceTail L list head) list

/-- `list_cut_position`. -/
def listCutPosition (L : Links ι) (headTo headFrom node : ι) : Links ι :=
  let headFromFirst := L.next headFrom
  if listEmpty L headFrom then L
  else if headFrom = node then initListHead L headTo
  else
    let L := L.setNext headFrom (L.next node)
    let L := L.setPrev (L.next headFrom) headFrom
    let L := L.setPrev headTo node
    let L := L.setNext node headTo
    let L := L.setNext headTo headFromFirst
    L.setPrev (L.next headTo) headTo

/-- `list_move`. -/
def listMove (null : ι) (L : Links ι) (node head : ι) : Links ι :=
  listAdd (listDel null L node) node head

/-- `list_move_tail`. -/
def listMoveTail (null : ι) (L : Links ι) (node head : ι) : Links ι :=
  listAddTail (listDel null L node) node head

/-- The calls that change lists; a cell is a node or a head. -/
inductive ListCall (ι : Type*)
  | add (node cell : ι)
  | addTail (node cell : ι)
  | del (node : ι)
  | move (node cell : ι)
  | moveTail (node cell : ι)
  | spliceInit (list head : ι)
  | spliceTailInit (list head : ι)
  | cutPosition (headTo headFrom node : ι)

/-- A call. -/
def exec (null : ι) (L : Links ι) : ListCall ι → Links ι
  | .add node cell => listAdd L node cell
  | .addTail node cell => listAddTail L node cell
  | .del node => listDel null L node
  | .move node cell => listMove null L node cell
  | .moveTail node cell => listMoveTail null L node cell
  | .spliceInit list head => listSpliceInit L list head
  | .spliceTailInit list head => listSpliceTailInit L list head
  | .cutPosition headTo headFrom node => listCutPosition L headTo headFrom node

/-! ### What the calls are for -/

/-- Put a node into a list behind another one. -/
def insertBehind (x n : ι) : List ι → List ι
  | [] => []
  | a :: l => if a = x then a :: n :: l else a :: insertBehind x n l

/-- Put a node into a list before another one. -/
def insertBefore (x n : ι) : List ι → List ι
  | [] => []
  | a :: l => if a = x then n :: a :: l else a :: insertBefore x n l

/-- Put a node behind a cell; behind the head is the beginning of its list. -/
def addAt (ls : ι → List ι) (n x : ι) : ι → List ι := fun h =>
  if h = x then n :: ls h else insertBehind x n (ls h)

/-- Put a node before a cell; before the head is the end of its list. -/
def addTailAt (ls : ι → List ι) (n x : ι) : ι → List ι := fun h =>
  if h = x then ls h ++ [n] else insertBefore x n (ls h)

/-- Take a node out of the list it is in. -/
def delFrom (ls : ι → List ι) (n : ι) : ι → List ι := fun h => (ls h).erase n

/-- What a call makes of the lists. -/
def ListCall.after (ls : ι → List ι) : ListCall ι → ι → List ι
  | .add n x => addAt ls n x
  | .addTail n x => addTailAt ls n x
  | .del n => delFrom ls n
  | .move n x => addAt (delFrom ls n) n x
  | .moveTail n x => addTailAt (delFrom ls n) n x
  | .spliceInit g h => Function.update (Function.update ls h (ls g ++ ls h)) g []
  | .spliceTailInit g h => Function.update (Function.update ls h (ls h ++ ls g)) g []
  | .cutPosition t f n =>
      if ls f = [] then ls
      else if f = n then Function.update ls t []
      else Function.update (Function.update ls t ((ls f).takeWhile (· ≠ n) ++ [n])) f
        ((ls f).dropWhile (· ≠ n)).tail

/-- A node or a head. -/
def IsCell (H : Finset ι) (ls : ι → List ι) (x : ι) : Prop := ∃ h ∈ H, x ∈ h :: ls h

/-- A node that is in a list. -/
def IsLinked (H : Finset ι) (ls : ι → List ι) (x : ι) : Prop := ∃ h ∈ H, x ∈ ls h

instance IsCell.decidable (H : Finset ι) (ls : ι → List ι) (x : ι) : Decidable (IsCell H ls x) :=
  inferInstanceAs (Decidable (∃ h ∈ H, x ∈ h :: ls h))

instance IsLinked.decidable (H : Finset ι) (ls : ι → List ι) (x : ι) :
    Decidable (IsLinked H ls x) := inferInstanceAs (Decidable (∃ h ∈ H, x ∈ ls h))

/-- What a program may call. -/
def ListCall.Legal (H : Finset ι) (ls : ι → List ι) : ListCall ι → Prop
  | .add n x => ¬ IsCell H ls n ∧ IsCell H ls x
  | .addTail n x => ¬ IsCell H ls n ∧ IsCell H ls x
  | .del n => IsLinked H ls n
  | .move n x => IsLinked H ls n ∧ IsCell H ls x ∧ n ≠ x
  | .moveTail n x => IsLinked H ls n ∧ IsCell H ls x ∧ n ≠ x
  | .spliceInit g h => g ∈ H ∧ h ∈ H ∧ g ≠ h
  | .spliceTailInit g h => g ∈ H ∧ h ∈ H ∧ g ≠ h
  | .cutPosition t f n => t ∈ H ∧ f ∈ H ∧ t ≠ f ∧ n ∈ f :: ls f

instance ListCall.Legal.decidable (H : Finset ι) (ls : ι → List ι) :
    (call : ListCall ι) → Decidable (call.Legal H ls)
  | .add n x => inferInstanceAs (Decidable (¬ IsCell H ls n ∧ IsCell H ls x))
  | .addTail n x => inferInstanceAs (Decidable (¬ IsCell H ls n ∧ IsCell H ls x))
  | .del n => inferInstanceAs (Decidable (IsLinked H ls n))
  | .move n x => inferInstanceAs (Decidable (IsLinked H ls n ∧ IsCell H ls x ∧ n ≠ x))
  | .moveTail n x => inferInstanceAs (Decidable (IsLinked H ls n ∧ IsCell H ls x ∧ n ≠ x))
  | .spliceInit g h => inferInstanceAs (Decidable (g ∈ H ∧ h ∈ H ∧ g ≠ h))
  | .spliceTailInit g h => inferInstanceAs (Decidable (g ∈ H ∧ h ∈ H ∧ g ≠ h))
  | .cutPosition t f n => inferInstanceAs (Decidable (t ∈ H ∧ f ∈ H ∧ t ≠ f ∧ n ∈ f :: ls f))

/-- The cells of the lists are linked, and no two lists share one. -/
structure Lists (L : Links ι) (H : Finset ι) (ls : ι → List ι) : Prop where
  ring : ∀ h ∈ H, L.Ring h (ls h)
  apart : ∀ h ∈ H, ∀ g ∈ H, h ≠ g → (h :: ls h).Disjoint (g :: ls g)

variable {null : ι} {L L' : Links ι} {H : Finset ι} {ls : ι → List ι} {h g n x y v w : ι}
  {a b l m : List ι}

omit [DecidableEq ι] in
theorem Lists.mono {G : Finset ι} (hL : Lists L H ls) (hG : G ⊆ H) : Lists L G ls where
  ring h hh := hL.ring h (hG hh)
  apart h hh g hg := hL.apart h (hG hh) g (hG hg)

/-! ### One list changes -/

/-- The list of one head changes, by nodes it had before or nodes that are in no list. -/
theorem Lists.update (hL : Lists L H ls) (hh : h ∈ H) (hnew : L'.Ring h l)
    (hframe : ∀ g ∈ H, g ≠ h → L'.Ring g (ls g)) (hcells : ∀ z ∈ l, z ∈ ls h ∨ ¬ IsCell H ls z) :
    Lists L' H (Function.update ls h l) := by
  have hdis : ∀ g ∈ H, g ≠ h → (h :: l).Disjoint (g :: ls g) := by
    intro g hg hgh z hz hz'
    rcases List.mem_cons.1 hz with rfl | hz
    · exact hL.apart z hh g hg (Ne.symm hgh) List.mem_cons_self hz'
    · rcases hcells z hz with hz | hz
      · exact hL.apart h hh g hg (Ne.symm hgh) (List.mem_cons_of_mem h hz) hz'
      · exact hz ⟨g, hg, hz'⟩
  refine ⟨fun g hg => ?_, fun g hg k hk hgk => ?_⟩
  · by_cases hgh : g = h
    · subst hgh
      rwa [Function.update_self]
    · rw [Function.update_of_ne hgh]
      exact hframe g hg hgh
  · by_cases hgh : g = h
    · subst hgh
      rw [Function.update_self, Function.update_of_ne (Ne.symm hgk)]
      exact hdis k hk (Ne.symm hgk)
    · rw [Function.update_of_ne hgh]
      by_cases hkh : k = h
      · subst hkh
        rw [Function.update_self]
        exact (hdis g hg hgh).symm
      · rw [Function.update_of_ne hkh]
        exact hL.apart g hg k hk hgk

omit [DecidableEq ι] in
/-- A cell of one list is not in another. -/
theorem Lists.notMem (hL : Lists L H ls) (hh : h ∈ H) (hx : x ∈ h :: ls h) (hg : g ∈ H)
    (hgh : g ≠ h) : x ∉ g :: ls g :=
  fun hx' => hL.apart h hh g hg (Ne.symm hgh) hx hx'

omit [DecidableEq ι] in
/-- The cells around a place of a list. -/
theorem seam_of (hx : (h :: a).getLast? = some x) (hy : (b ++ [h]).head? = some y) :
    Links.Seam (h :: a) (b ++ [h]) x y ∧ x ∈ h :: (a ++ b) ∧ y ∈ h :: (a ++ b) := by
  refine ⟨⟨hx, hy⟩, ?_, ?_⟩
  · have := List.mem_of_getLast? hx
    rw [List.mem_cons, List.mem_append]
    rw [List.mem_cons] at this
    tauto
  · have := List.mem_of_head? hy
    rw [List.mem_append, List.mem_singleton] at this
    rw [List.mem_cons, List.mem_append]
    tauto

/-- Linked nodes that are in no list are put into a list. -/
theorem Lists.splice (hL : Lists L H ls) (hh : h ∈ H) (hl : ls h = a ++ b)
    (hx : (h :: a).getLast? = some x) (hy : (b ++ [h]).head? = some y)
    (hm : m.IsChain L.Joined) (hmn : m.Nodup) (hv : m.head? = some v) (hw : m.getLast? = some w)
    (hd : ∀ z ∈ m, ¬ IsCell H ls z) :
    Lists ((L.join x v).join w y) H (Function.update ls h (a ++ (m ++ b))) := by
  obtain ⟨hs, hxm, hym⟩ := seam_of hx hy
  rw [← hl] at hxm hym
  have hcyc := Links.ring_iff.1 (hL.ring h hh)
  rw [hl, List.append_assoc, ← List.cons_append] at hcyc
  have hcells : ∀ z, z ∈ (h :: a) ++ (b ++ [h]) → z ∈ h :: ls h := by
    intro z hz
    rw [hl, List.mem_cons, List.mem_append]
    simp only [List.mem_append, List.mem_cons, List.not_mem_nil, or_false] at hz
    tauto
  have hnew := hcyc.splice hs hm hmn hv hw fun z hz hz' => hd z hz ⟨h, hh, hcells z hz'⟩
  refine hL.update hh (Links.ring_iff.2 ?_) (fun g hg hgh => ?_) fun z hz => ?_
  · rw [List.append_assoc, List.append_assoc]
    exact hnew
  · have hvg : v ∉ g :: ls g := fun hm => hd v (List.mem_of_head? hv) ⟨g, hg, hm⟩
    have hwg : w ∉ g :: ls g := fun hm => hd w (List.mem_of_getLast? hw) ⟨g, hg, hm⟩
    exact ((hL.ring g hg).frame (hL.notMem hh hxm hg hgh) hvg).frame hwg
      (hL.notMem hh hym hg hgh)
  · rw [List.mem_append, List.mem_append] at hz
    rw [hl, List.mem_append]
    rcases hz with hz | hz | hz
    · exact .inl (.inl hz)
    · exact .inr (hd z hz)
    · exact .inl (.inr hz)

/-- A head is added, with a list of nodes that are in no list. -/
theorem Lists.addHead {K : Links ι} (hL : Lists L H ls) (hring : K.Ring g m)
    (hframe : ∀ h ∈ H, K.Ring h (ls h)) (hd : ∀ z ∈ g :: m, ¬ IsCell H ls z) :
    Lists K (insert g H) (Function.update ls g m) := by
  have hne : ∀ h ∈ H, h ≠ g := fun h hh e =>
    hd g List.mem_cons_self ⟨h, hh, e ▸ List.mem_cons_self⟩
  refine ⟨fun h hh => ?_, fun h hh k hk hhk => ?_⟩
  · rcases Finset.mem_insert.1 hh with rfl | hh
    · rwa [Function.update_self]
    · rw [Function.update_of_ne (hne h hh)]
      exact hframe h hh
  · rcases Finset.mem_insert.1 hh with rfl | hh'
    · rcases Finset.mem_insert.1 hk with rfl | hk'
      · exact absurd rfl hhk
      · rw [Function.update_self, Function.update_of_ne (hne k hk')]
        exact fun z hz hz' => hd z hz ⟨k, hk', hz'⟩
    · rw [Function.update_of_ne (hne h hh')]
      rcases Finset.mem_insert.1 hk with rfl | hk'
      · rw [Function.update_self]
        exact fun z hz hz' => hd z hz' ⟨h, hh', hz⟩
      · rw [Function.update_of_ne (hne k hk')]
        exact hL.apart h hh' k hk' hhk

/-- Without one of the heads its cells are in no list. -/
theorem Lists.erase (hL : Lists L H ls) (hg : g ∈ H) :
    Lists L (H.erase g) ls ∧ ∀ z ∈ g :: ls g, ¬ IsCell (H.erase g) ls z := by
  refine ⟨⟨fun h hh => hL.ring h (Finset.mem_of_mem_erase hh), fun h hh k hk =>
    hL.apart h (Finset.mem_of_mem_erase hh) k (Finset.mem_of_mem_erase hk)⟩, ?_⟩
  rintro z hz ⟨h, hh, hz'⟩
  exact hL.apart g hg h (Finset.mem_of_mem_erase hh) (Ne.symm (Finset.ne_of_mem_erase hh)) hz hz'

omit [DecidableEq ι] in
theorem Lists.congr {ls' : ι → List ι} (hL : Lists L H ls) (hs : ∀ h ∈ H, ls' h = ls h) :
    Lists L H ls' := by
  refine ⟨fun h hh => hs h hh ▸ hL.ring h hh, fun h hh g hg hhg => ?_⟩
  rw [hs h hh, hs g hg]
  exact hL.apart h hh g hg hhg

omit [DecidableEq ι] in
/-- The cells around a place are joined. -/
theorem joined_of (hr : L.Ring h (a ++ b)) (hx : (h :: a).getLast? = some x)
    (hy : (b ++ [h]).head? = some y) : L.Joined x y := by
  have hcyc := (Links.ring_iff.1 hr).chain
  rw [List.append_assoc, ← List.cons_append, List.isChain_append] at hcyc
  exact hcyc.2.2 x hx y hy

/-- Nodes are taken out of their list; they stay linked, and are in no list. -/
theorem Lists.unsplice (hL : Lists L H ls) (hh : h ∈ H) (hl : ls h = a ++ (m ++ b))
    (hx : (h :: a).getLast? = some x) (hy : (b ++ [h]).head? = some y) :
    Lists (L.join x y) H (Function.update ls h (a ++ b)) ∧ m.IsChain (L.join x y).Joined ∧
      ∀ z ∈ m, ¬ IsCell H (Function.update ls h (a ++ b)) z := by
  obtain ⟨hs, hxm, hym⟩ := seam_of hx hy
  have hsub : ∀ z, z ∈ h :: (a ++ b) ∨ z ∈ m → z ∈ h :: ls h := by
    intro z hz
    simp only [List.mem_cons, List.mem_append] at hz
    rw [hl]
    simp only [List.mem_cons, List.mem_append]
    tauto
  have hcyc : L.Cycle ((h :: a) ++ (m ++ (b ++ [h]))) := by
    have := Links.ring_iff.1 (hL.ring h hh)
    rwa [hl, List.append_assoc, List.append_assoc] at this
  obtain ⟨hnew, hchain⟩ := hcyc.unsplice hs
  rw [List.cons_append, ← List.append_assoc, ← Links.ring_iff] at hnew
  refine ⟨hL.update hh hnew (fun g hg hgh => ?_) fun z hz => .inl ?_, hchain, ?_⟩
  · exact (hL.ring g hg).frame (hL.notMem hh (hsub x (.inl hxm)) hg hgh)
      (hL.notMem hh (hsub y (.inl hym)) hg hgh)
  · rw [hl]
    rw [List.mem_append] at hz
    exact List.mem_append.2 (hz.imp_right fun hz => List.mem_append_right _ hz)
  · rintro z hz ⟨g, hg, hm⟩
    by_cases hgh : g = h
    · subst hgh
      have hnodup := (hL.ring g hh).nodup
      rw [hl] at hnodup
      rw [Function.update_self] at hm
      have hperm : (g :: (a ++ (m ++ b))).Perm (m ++ (g :: (a ++ b))) := by
        rw [← List.cons_append, ← List.cons_append]
        exact List.perm_append_comm_assoc ..
      exact (List.nodup_append'.1 (hperm.nodup_iff.1 hnodup)).2.2 hz hm
    · rw [Function.update_of_ne hgh] at hm
      exact hL.notMem hh (hsub z (.inr hz)) hg hgh hm

/-- The links of a node that is in no list are written. -/
theorem Lists.write (hL : Lists L H ls) (hn : ¬ IsCell H ls n) :
    Lists ((L.setPrev n v).setNext n w) H ls := by
  refine ⟨fun g hg => ?_, hL.apart⟩
  have hr := hL.ring g hg
  refine ⟨hr.chain.congr (fun z hz => ?_) (fun z hz => ?_), hr.nodup⟩
  · have hzn : z ≠ n := fun e => hn ⟨g, hg, e ▸ hz⟩
    exact Function.update_of_ne hzn ..
  · have hzn : z ≠ n := fun e => hn ⟨g, hg, e ▸ hz⟩
    exact Function.update_of_ne hzn ..

/-! ### The calls -/

theorem insertBehind_notMem (hx : x ∉ l) : insertBehind x n l = l := by
  induction l with
  | nil => rfl
  | cons z l ih =>
    rw [List.mem_cons, not_or] at hx
    rw [insertBehind, if_neg (Ne.symm hx.1), ih hx.2]

theorem insertBehind_append (hx : x ∉ a) : insertBehind x n (a ++ x :: b) = a ++ x :: n :: b := by
  induction a with
  | nil => rw [List.nil_append, insertBehind, if_pos rfl, List.nil_append]
  | cons z a ih =>
    rw [List.mem_cons, not_or] at hx
    rw [List.cons_append, insertBehind, if_neg (Ne.symm hx.1), ih hx.2, List.cons_append]

theorem insertBefore_notMem (hx : x ∉ l) : insertBefore x n l = l := by
  induction l with
  | nil => rfl
  | cons z l ih =>
    rw [List.mem_cons, not_or] at hx
    rw [insertBefore, if_neg (Ne.symm hx.1), ih hx.2]

theorem insertBefore_append (hx : x ∉ a) : insertBefore x n (a ++ x :: b) = a ++ n :: x :: b := by
  induction a with
  | nil => rw [List.nil_append, insertBefore, if_pos rfl, List.nil_append]
  | cons z a ih =>
    rw [List.mem_cons, not_or] at hx
    rw [List.cons_append, insertBefore, if_neg (Ne.symm hx.1), ih hx.2, List.cons_append]

/-- The place behind a cell. -/
theorem exists_behind (hn : (h :: ls h).Nodup) (hx : x ∈ h :: ls h) : ∃ a b, ls h = a ++ b ∧
    (h :: a).getLast? = some x ∧ addAt ls n x h = a ++ n :: b := by
  rw [List.nodup_cons] at hn
  rcases List.mem_cons.1 hx with rfl | hx
  · exact ⟨[], ls x, rfl, rfl, if_pos rfl⟩
  · obtain ⟨a, b, hl⟩ := List.append_of_mem hx
    have hhx : h ≠ x := fun e => hn.1 (e ▸ hx)
    have hxa : x ∉ a := by
      rw [hl, List.nodup_append'] at hn
      exact fun hm => hn.2.2.2 hm List.mem_cons_self
    refine ⟨a ++ [x], b, by rw [hl, List.append_assoc]; rfl, ?_, ?_⟩
    · rw [← List.cons_append, List.getLast?_concat]
    · rw [addAt, if_neg hhx, hl, insertBehind_append hxa, List.append_assoc]
      rfl

/-- The place before a cell. -/
theorem exists_before (hn : (h :: ls h).Nodup) (hx : x ∈ h :: ls h) : ∃ a b, ls h = a ++ b ∧
    (b ++ [h]).head? = some x ∧ addTailAt ls n x h = a ++ n :: b := by
  rw [List.nodup_cons] at hn
  rcases List.mem_cons.1 hx with rfl | hx
  · exact ⟨ls x, [], (List.append_nil _).symm, rfl, if_pos rfl⟩
  · obtain ⟨a, b, hl⟩ := List.append_of_mem hx
    have hhx : h ≠ x := fun e => hn.1 (e ▸ hx)
    have hxa : x ∉ a := by
      rw [hl, List.nodup_append'] at hn
      exact fun hm => hn.2.2.2 hm List.mem_cons_self
    exact ⟨a, x :: b, hl, rfl, by rw [addTailAt, if_neg hhx, hl, insertBefore_append hxa]⟩

omit [DecidableEq ι] in
theorem exists_last (h : ι) (a : List ι) : ∃ x, (h :: a).getLast? = some x :=
  ⟨_, List.getLast?_eq_some_getLast (List.cons_ne_nil h a)⟩

omit [DecidableEq ι] in
theorem exists_head (h : ι) (b : List ι) : ∃ y, (b ++ [h]).head? = some y := by
  cases b <;> exact ⟨_, rfl⟩

/-- `list_add` and `node_add_aft`. -/
theorem listAdd_lists (hL : Lists L H ls) (hn : ¬ IsCell H ls n) (hx : IsCell H ls x) :
    Lists (listAdd L n x) H (addAt ls n x) := by
  obtain ⟨h, hh, hxm⟩ := hx
  obtain ⟨a, b, hl, hlast, hadd⟩ := exists_behind (n := n) (hL.ring h hh).nodup hxm
  obtain ⟨y, hy⟩ := exists_head h b
  have hj := joined_of (hl ▸ hL.ring h hh) hlast hy
  have hxn : n ≠ x := fun e => hn ⟨h, hh, e ▸ hxm⟩
  have hyn : y ≠ n := fun e => hn ⟨h, hh, by rw [hl, ← e]; exact (seam_of hlast hy).2.2⟩
  have hjoin : listAdd L n x = (L.join x n).join n y := by
    rw [Links.join_comm hxn hyn, ← hj.next]
    rfl
  rw [hjoin]
  refine (hL.splice hh hl hlast hy (.singleton n) (List.nodup_singleton n) rfl rfl
    fun z hz => List.mem_singleton.1 hz ▸ hn).congr fun g hg => ?_
  by_cases hgh : g = h
  · rw [hgh, hadd, Function.update_self]
    rfl
  · have hxg := hL.notMem hh hxm hg hgh
    rw [List.mem_cons, not_or] at hxg
    rw [Function.update_of_ne hgh, addAt, if_neg (Ne.symm hxg.1), insertBehind_notMem hxg.2]

/-- `list_add_tail` and `node_add_bef`. -/
theorem listAddTail_lists (hL : Lists L H ls) (hn : ¬ IsCell H ls n) (hx : IsCell H ls x) :
    Lists (listAddTail L n x) H (addTailAt ls n x) := by
  obtain ⟨h, hh, hxm⟩ := hx
  obtain ⟨a, b, hl, hhead, hadd⟩ := exists_before (n := n) (hL.ring h hh).nodup hxm
  obtain ⟨w, hw⟩ := exists_last h a
  have hj := joined_of (hl ▸ hL.ring h hh) hw hhead
  have hjoin : listAddTail L n x = (L.join w n).join n x := by
    rw [← hj.prev]
    rfl
  rw [hjoin]
  refine (hL.splice hh hl hw hhead (.singleton n) (List.nodup_singleton n) rfl rfl
    fun z hz => List.mem_singleton.1 hz ▸ hn).congr fun g hg => ?_
  by_cases hgh : g = h
  · rw [hgh, hadd, Function.update_self]
    rfl
  · have hxg := hL.notMem hh hxm hg hgh
    rw [List.mem_cons, not_or] at hxg
    rw [Function.update_of_ne hgh, addTailAt, if_neg (Ne.symm hxg.1), insertBefore_notMem hxg.2]

/-- `list_del`. -/
theorem listDel_lists (hL : Lists L H ls) (hn : IsLinked H ls n) :
    Lists (listDel null L n) H (delFrom ls n) ∧ ¬ IsCell H (delFrom ls n) n := by
  obtain ⟨h, hh, hnm⟩ := hn
  obtain ⟨a, b, hl⟩ := List.append_of_mem hnm
  obtain ⟨x, hx⟩ := exists_last h a
  obtain ⟨y, hy⟩ := exists_head h b
  have hring := hL.ring h hh
  rw [hl] at hring
  have hna : n ∉ a := by
    have hnodup := hring.nodup
    rw [List.nodup_cons, List.nodup_append'] at hnodup
    exact fun hm => hnodup.2.2.2 hm List.mem_cons_self
  have hjx : L.Joined x n := joined_of hring hx rfl
  have hjy : L.Joined n y := by
    have hring' : L.Ring h ((a ++ [n]) ++ b) := by rwa [List.append_assoc]
    exact joined_of hring' (by rw [← List.cons_append, List.getLast?_concat]) hy
  have hdel : listDel null L n = ((L.join x y).setPrev n null).setNext n null := by
    rw [← hjx.prev, ← hjy.next]
    rfl
  have hdelFrom : ∀ g ∈ H, delFrom ls n g = Function.update ls h (a ++ b) g := by
    intro g hg
    by_cases hgh : g = h
    · rw [hgh, delFrom, Function.update_self, hl, List.erase_append_right _ hna,
        List.erase_cons_head]
    · have hng := hL.notMem hh (List.mem_cons_of_mem h hnm) hg hgh
      rw [Function.update_of_ne hgh, delFrom,
        List.erase_of_not_mem fun hm => hng (List.mem_cons_of_mem g hm)]
  obtain ⟨hnew, -, hout⟩ := hL.unsplice (m := [n]) hh hl hx hy
  have hcell := hout n (List.mem_singleton_self n)
  constructor
  · rw [hdel]
    exact (hnew.write hcell).congr hdelFrom
  · rintro ⟨g, hg, hm⟩
    rw [hdelFrom g hg] at hm
    exact hcell ⟨g, hg, hm⟩

/-- After `list_del` the other cells are cells as before. -/
theorem isCell_delFrom (hx : IsCell H ls x) (hxn : n ≠ x) : IsCell H (delFrom ls n) x := by
  obtain ⟨h, hh, hm⟩ := hx
  refine ⟨h, hh, ?_⟩
  rcases List.mem_cons.1 hm with rfl | hm
  · exact List.mem_cons_self
  · exact List.mem_cons_of_mem h ((List.mem_erase_of_ne (Ne.symm hxn)).2 hm)

omit [DecidableEq ι] in
theorem next_head (hr : L.Ring h l) : (l ++ [h]).head? = some (L.next h) := by
  obtain ⟨y, hy⟩ := exists_head h l
  rw [hy, (joined_of (a := []) (x := h) hr rfl hy).next]

omit [DecidableEq ι] in
theorem prev_head (hr : L.Ring h l) : (h :: l).getLast? = some (L.prev h) := by
  obtain ⟨x, hx⟩ := exists_last h l
  have hr' : L.Ring h (l ++ []) := by rwa [List.append_nil]
  rw [(joined_of hr' hx rfl).prev, hx]

theorem listEmpty_iff (hr : L.Ring h l) : listEmpty L h = true ↔ l = [] := by
  have hnext := next_head hr
  rw [listEmpty, decide_eq_true_iff]
  cases l with
  | nil => exact ⟨fun _ => rfl, fun _ => (Option.some.inj hnext).symm⟩
  | cons a l =>
    refine ⟨fun he => absurd ?_ (List.nodup_cons.1 hr.nodup).1, fun he => (nomatch he)⟩
    rw [← he, ← Option.some.inj hnext]
    exact List.mem_cons_self

/-- The nodes of a list are put between two cells of another one, and the list is emptied. -/
theorem spliceInit_lists (hL : Lists L H ls) (hg : g ∈ H) (hh : h ∈ H) (hgh : g ≠ h)
    (hne : ls g ≠ []) (hl : ls h = a ++ b) (hx : (h :: a).getLast? = some x)
    (hy : (b ++ [h]).head? = some y) :
    Lists (((L.join x (L.next g)).join (L.prev g) y).join g g) H
      (Function.update (Function.update ls h (a ++ (ls g ++ b))) g []) := by
  obtain ⟨h1, h2⟩ := hL.erase hg
  have hring := hL.ring g hg
  have hchain := (Links.ring_iff.1 hring).chain
  rw [List.isChain_cons, List.isChain_append] at hchain
  have hfirst : (ls g).head? = some (L.next g) := by
    rw [← next_head hring, List.head?_append_of_ne_nil _ hne]
  have hlast : (ls g).getLast? = some (L.prev g) := by
    rw [← prev_head hring, ← List.singleton_append, List.getLast?_append_of_ne_nil _ hne]
  have hhg : h ∈ H.erase g := Finset.mem_erase.2 ⟨Ne.symm hgh, hh⟩
  have hnew := h1.splice hhg hl hx hy hchain.2.1 (List.nodup_cons.1 hring.nodup).2 hfirst hlast
    fun z hz => h2 z (List.mem_cons_of_mem g hz)
  have hgc : ¬ IsCell (H.erase g) (Function.update ls h (a ++ (ls g ++ b))) g := by
    rintro ⟨k, hk, hm⟩
    by_cases hkh : k = h
    · subst hkh
      rw [Function.update_self, List.mem_cons, List.mem_append, List.mem_append] at hm
      have hout := h2 g List.mem_cons_self
      rcases hm with hm | hm | hm | hm
      · exact hgh hm
      · exact hout ⟨k, hk, by rw [hl]; simp [hm]⟩
      · exact (List.nodup_cons.1 hring.nodup).1 hm
      · exact hout ⟨k, hk, by rw [hl]; simp [hm]⟩
    · rw [Function.update_of_ne hkh] at hm
      exact h2 g List.mem_cons_self ⟨k, hk, hm⟩
  rw [← Finset.insert_erase hg]
  refine hnew.addHead (Links.ring_nil Links.joined_join.next Links.joined_join.prev)
    (fun k hk => ?_) fun z hz => List.mem_singleton.1 hz ▸ hgc
  have hgk : g ∉ k :: Function.update ls h (a ++ (ls g ++ b)) k := fun hm => hgc ⟨k, hk, hm⟩
  exact (hnew.ring k hk).frame hgk hgk

/-- A head is made the head of an empty list. -/
theorem initListHead_lists (hL : Lists L H ls) (hg : g ∈ H) :
    Lists (initListHead L g) H (Function.update ls g []) := by
  refine hL.update hg (Links.ring_nil Links.joined_join.next Links.joined_join.prev)
    (fun k hk hkg => ?_) fun z hz => absurd hz List.not_mem_nil
  have hgk := hL.notMem hg List.mem_cons_self hk hkg
  exact (hL.ring k hk).frame hgk hgk

/-- `list_splice_init`. -/
theorem listSpliceInit_lists (hL : Lists L H ls) (hg : g ∈ H) (hh : h ∈ H) (hgh : g ≠ h) :
    Lists (listSpliceInit L g h) H
      (Function.update (Function.update ls h (ls g ++ ls h)) g []) := by
  by_cases hne : ls g = []
  · rw [listSpliceInit, listSplice, if_pos ((listEmpty_iff (hL.ring g hg)).2 hne), hne,
      List.nil_append, Function.update_eq_self]
    exact initListHead_lists hL hg
  · have hempty : ¬ listEmpty L g = true := fun he => hne ((listEmpty_iff (hL.ring g hg)).1 he)
    rw [listSpliceInit, listSplice, if_neg hempty]
    exact spliceInit_lists hL hg hh hgh hne (a := []) rfl rfl (next_head (hL.ring h hh))

/-- `list_splice_tail_init`. -/
theorem listSpliceTailInit_lists (hL : Lists L H ls) (hg : g ∈ H) (hh : h ∈ H) (hgh : g ≠ h) :
    Lists (listSpliceTailInit L g h) H
      (Function.update (Function.update ls h (ls h ++ ls g)) g []) := by
  by_cases hne : ls g = []
  · rw [listSpliceTailInit, listSpliceTail, if_pos ((listEmpty_iff (hL.ring g hg)).2 hne), hne,
      List.append_nil, Function.update_eq_self]
    exact initListHead_lists hL hg
  · have hempty : ¬ listEmpty L g = true := fun he => hne ((listEmpty_iff (hL.ring g hg)).1 he)
    have hfirst := List.mem_of_head? (next_head (hL.ring g hg))
    have hprev : L.prev g ∈ g :: ls g := List.mem_of_getLast? (prev_head (hL.ring g hg))
    have hlast : L.prev h ∈ h :: ls h := List.mem_of_getLast? (prev_head (hL.ring h hh))
    have hcomm : (L.join (L.prev h) (L.next g)).join (L.prev g) h =
        (L.join (L.prev g) h).join (L.prev h) (L.next g) := by
      refine Links.join_comm (fun e => ?_) fun e => ?_
      · exact hL.apart g hg h hh hgh hprev (e ▸ hlast)
      · refine hL.apart g hg h hh hgh (?_ : L.next g ∈ g :: ls g) (e ▸ List.mem_cons_self)
        rw [List.mem_append, List.mem_singleton] at hfirst
        exact List.mem_cons.2 hfirst.symm
    have hnew := spliceInit_lists hL hg hh hgh hne (b := []) (List.append_nil _).symm
      (prev_head (hL.ring h hh)) rfl
    rw [List.append_nil, hcomm] at hnew
    rw [listSpliceTailInit, listSpliceTail, if_neg hempty]
    exact hnew

/-- `list_cut_position`. -/
theorem listCutPosition_lists {t f : ι} (hL : Lists L H ls) (ht : t ∈ H) (hf : f ∈ H)
    (htf : t ≠ f) (hn : n ∈ f :: ls f) :
    Lists (listCutPosition L t f n) H (ListCall.after ls (.cutPosition t f n)) := by
  have hring := hL.ring f hf
  rw [ListCall.after, listCutPosition]
  by_cases hne : ls f = []
  · rw [if_pos ((listEmpty_iff hring).2 hne), if_pos hne]
    exact hL
  · have hempty : ¬ listEmpty L f = true := fun he => hne ((listEmpty_iff hring).1 he)
    rw [if_neg hempty, if_neg hne]
    by_cases hfn : f = n
    · rw [if_pos hfn, if_pos hfn]
      exact initListHead_lists hL ht
    · rw [if_neg hfn, if_neg hfn]
      obtain ⟨a, b, hl⟩ := List.append_of_mem ((List.mem_cons.1 hn).resolve_left (Ne.symm hfn))
      have hfirst := next_head hring
      rw [hl] at hring hfirst
      have hnodup := hring.nodup
      rw [List.nodup_cons, List.nodup_append'] at hnodup
      have hna : n ∉ a := fun hm => hnodup.2.2.2 hm List.mem_cons_self
      have hcut : (ls f).takeWhile (· ≠ n) = a ∧ ((ls f).dropWhile (· ≠ n)).tail = b := by
        have hall : ∀ z ∈ a, decide (z ≠ n) = true := fun z hz =>
          decide_eq_true fun e => hna (e ▸ hz)
        rw [hl, List.takeWhile_append_of_pos hall, List.dropWhile_append_of_pos hall]
        simp
      rw [hcut.1, hcut.2]
      obtain ⟨y, hy⟩ := exists_head f b
      have hjy : L.Joined n y := by
        have hring' : L.Ring f ((a ++ [n]) ++ b) := by rwa [List.append_assoc]
        exact joined_of hring' (by rw [← List.cons_append, List.getLast?_concat]) hy
      -- the front of the list is taken out, while `t` is no head
      obtain ⟨h1, h2⟩ := hL.erase ht
      have hft : f ∈ H.erase t := Finset.mem_erase.2 ⟨Ne.symm htf, hf⟩
      obtain ⟨h3, h4, h5⟩ := h1.unsplice (m := a ++ [n]) (a := []) hft
        (by rw [hl, List.nil_append, List.append_assoc]; rfl) rfl hy
      have hmls : ∀ z ∈ a ++ [n], z ∈ ls f := by
        intro z hz
        rw [hl, List.mem_append, List.mem_cons]
        rw [List.mem_append, List.mem_singleton] at hz
        tauto
      have htm : t ∉ a ++ [n] := fun hm =>
        hL.notMem hf (List.mem_cons_of_mem f (hmls t hm)) ht htf List.mem_cons_self
      have hmn : (a ++ [n]).Nodup := by
        refine List.nodup_append'.2 ⟨hnodup.2.1, List.nodup_singleton n, fun z hz hz' => hna ?_⟩
        rwa [← List.mem_singleton.1 hz']
      have hv : (a ++ [n]).head? = some (L.next f) := by
        rw [← hfirst]
        cases a <;> rfl
      have hclose := Links.cycle_close h4 hmn hv (List.getLast?_concat ..) htm
      have htc : ¬ IsCell (H.erase t) (Function.update ls f ([] ++ b)) t := by
        rintro ⟨k, hk, hm⟩
        refine h2 t List.mem_cons_self ⟨k, hk, ?_⟩
        by_cases hkf : k = f
        · subst hkf
          rw [Function.update_self, List.nil_append] at hm
          rw [hl, List.mem_cons, List.mem_append, List.mem_cons]
          rw [List.mem_cons] at hm
          tauto
        · rwa [Function.update_of_ne hkf] at hm
      have hvc := h5 (L.next f) (List.mem_of_head? hv)
      have hnc := h5 n (by simp)
      have hnew := h3.addHead (K := ((L.join f y).join n t).join t (L.next f))
        (Links.ring_iff.2 hclose) (fun k hk => ?_) fun z hz => ?_
      · rw [Finset.insert_erase ht, Function.update_comm (Ne.symm htf), List.nil_append] at hnew
        have hset : ∀ (K : Links ι) (i j : ι), (K.setNext i j).next i = j :=
          fun K i j => Function.update_self ..
        simp only [hset, hjy.next]
        exact hnew
      · have hno : ∀ z, ¬ IsCell (H.erase t) (Function.update ls f ([] ++ b)) z →
            z ∉ k :: Function.update ls f ([] ++ b) k := fun z hz hm => hz ⟨k, hk, hm⟩
        exact ((h3.ring k hk).frame (hno n hnc) (hno t htc)).frame (hno t htc) (hno _ hvc)
      · rcases List.mem_cons.1 hz with rfl | hz
        · exact htc
        · exact h5 z hz

/-! ### Runs -/

/-- A legal call makes of the lists what it is for. -/
theorem exec_lists (hL : Lists L H ls) {call : ListCall ι} (hl : call.Legal H ls) :
    Lists (exec null L call) H (call.after ls) := by
  cases call with
  | add n x => exact listAdd_lists hL hl.1 hl.2
  | addTail n x => exact listAddTail_lists hL hl.1 hl.2
  | del n => exact (listDel_lists hL hl).1
  | move n x =>
    obtain ⟨h1, h2⟩ : Lists (listDel null L n) H _ ∧ _ := listDel_lists hL hl.1
    exact listAdd_lists h1 h2 (isCell_delFrom hl.2.1 hl.2.2)
  | moveTail n x =>
    obtain ⟨h1, h2⟩ : Lists (listDel null L n) H _ ∧ _ := listDel_lists hL hl.1
    exact listAddTail_lists h1 h2 (isCell_delFrom hl.2.1 hl.2.2)
  | spliceInit g h => exact listSpliceInit_lists hL hl.1 hl.2.1 hl.2.2
  | spliceTailInit g h => exact listSpliceTailInit_lists hL hl.1 hl.2.1 hl.2.2
  | cutPosition t f n => exact listCutPosition_lists hL hl.1 hl.2.1 hl.2.2.1 hl.2.2.2

/-- What the calls of a run make of the lists. -/
def afterRun (ls : ι → List ι) : List (ListCall ι) → ι → List ι
  | [] => ls
  | call :: calls => afterRun (call.after ls) calls

/-- A run whose calls are all legal. -/
def LegalRun (H : Finset ι) (ls : ι → List ι) : List (ListCall ι) → Prop
  | [] => True
  | call :: calls => call.Legal H ls ∧ LegalRun H (call.after ls) calls

/-- All calls of a legal run make of the lists what they are for. -/
theorem run_lists (hL : Lists L H ls) {calls : List (ListCall ι)} (hl : LegalRun H ls calls) :
    Lists (calls.foldl (exec null) L) H (afterRun ls calls) := by
  induction calls generalizing L ls with
  | nil => exact hL
  | cons call calls ih => exact ih (exec_lists hL hl.1) hl.2

instance LegalRun.decidable (H : Finset ι) (ls : ι → List ι) :
    (calls : List (ListCall ι)) → Decidable (LegalRun H ls calls)
  | [] => inferInstanceAs (Decidable True)
  | call :: calls =>
    have := LegalRun.decidable H (call.after ls) calls
    inferInstanceAs (Decidable (call.Legal H ls ∧ LegalRun H (call.after ls) calls))

/-- Heads that are made are heads of empty lists, whatever was in memory. -/
theorem initHeads_lists (L : Links ι) {heads : List ι} (hn : heads.Nodup) :
    Lists (heads.foldl initListHead L) heads.toFinset fun _ => [] := by
  induction heads using List.reverseRecOn with
  | nil => exact ⟨fun h hh => by simp at hh, fun h hh => by simp at hh⟩
  | append_singleton heads g ih =>
    have hg : g ∉ heads := fun hm => (List.nodup_append'.1 hn).2.2 hm (List.mem_singleton_self g)
    have hcell : ¬ IsCell heads.toFinset (fun _ => []) g := by
      rintro ⟨h, hh, hm⟩
      exact hg (List.mem_singleton.1 hm ▸ List.mem_toFinset.1 hh)
    have hL := ih (List.nodup_append'.1 hn).1
    have hset : (heads ++ [g]).toFinset = insert g heads.toFinset := by
      rw [List.toFinset_append, Finset.union_comm]
      rfl
    rw [List.foldl_append, hset]
    refine (hL.addHead (m := []) (Links.ring_nil Links.joined_join.next Links.joined_join.prev)
      (fun k hk => ?_) fun z hz => List.mem_singleton.1 hz ▸ hcell).congr fun k _ => ?_
    · have hgk : g ∉ [k] := fun hm => hcell ⟨k, hk, hm⟩
      exact (hL.ring k hk).frame hgk hgk
    · by_cases hkg : k = g
      · rw [hkg, Function.update_self]
      · rw [Function.update_of_ne hkg]

theorem listIsSingular_iff (hr : L.Ring h l) : listIsSingular L h = true ↔ l.length = 1 := by
  have hnext := next_head hr
  have hprev := prev_head hr
  have hempty := listEmpty_iff hr
  rw [listIsSingular, Bool.and_eq_true, Bool.not_eq_true', decide_eq_true_iff]
  rcases l with - | ⟨a, - | ⟨b, l⟩⟩
  · simp [hempty.2 rfl]
  · simp only [List.singleton_append, List.head?_cons, Option.some.injEq] at hnext
    simp only [List.getLast?_cons_cons, List.getLast?_singleton, Option.some.injEq] at hprev
    have hne : listEmpty L h = false := by
      rw [← Bool.not_eq_true, hempty]
      exact List.cons_ne_nil a []
    simp [hne, ← hnext, ← hprev]
  · have hnodup := (List.nodup_cons.1 (List.nodup_cons.1 hr.nodup).2).1
    simp only [List.cons_append, List.head?_cons, Option.some.injEq] at hnext
    rw [List.getLast?_cons_cons, List.getLast?_cons_cons] at hprev
    have hne : L.prev h ≠ L.next h := fun e =>
      hnodup (by rw [hnext, ← e]; exact List.mem_of_getLast? hprev)
    simp [hne]

/-- After any legal run of calls from the moment the heads are made, the links are those of the
lists the calls are for, and `list_empty` and `list_is_singular` tell their lengths. -/
theorem lists_after_calls (L : Links ι) (heads : List ι) (hn : heads.Nodup)
    (calls : List (ListCall ι)) (hl : LegalRun heads.toFinset (fun _ => []) calls) :
    Lists (calls.foldl (exec null) (heads.foldl initListHead L)) heads.toFinset
        (afterRun (fun _ => []) calls) ∧
      ∀ h ∈ heads,
        (listEmpty (calls.foldl (exec null) (heads.foldl initListHead L)) h = true ↔
          afterRun (fun _ => []) calls h = []) ∧
        (listIsSingular (calls.foldl (exec null) (heads.foldl initListHead L)) h = true ↔
          (afterRun (fun _ => []) calls h).length = 1) := by
  have hL : Lists (calls.foldl (exec null) _) heads.toFinset _ :=
    run_lists (initHeads_lists L hn) hl
  refine ⟨hL, fun h hh => ?_⟩
  have hr := hL.ring h (List.mem_toFinset.2 hh)
  exact ⟨listEmpty_iff hr, listIsSingular_iff hr⟩

/-- Nodes are added to two lists, moved and taken out; one list is joined to the other, and cut. -/
def twoLists : List (ListCall ℕ) :=
  [.add 1 100, .addTail 2 100, .addTail 3 200, .add 4 3, .move 1 200, .spliceTailInit 200 100,
    .cutPosition 200 100 1, .moveTail 4 100, .del 3]

theorem lists_after_calls_two_lists :
    Lists (twoLists.foldl (exec 0) ([100, 200].foldl initListHead ⟨id, id⟩)) {100, 200}
      (afterRun (fun _ => []) twoLists) ∧ afterRun (fun _ => []) twoLists 100 = [4] :=
  ⟨(lists_after_calls _ _ (by decide) _ (by decide)).1, by decide⟩

/-! ### Loops -/

/-- `list_for_each_safe` with a body that takes out the nodes of one kind, in at most `k` rounds;
the nodes it has come to, and the links. -/
def forEachSafe (null : ι) (P : ι → Bool) (head : ι) :
    ℕ → Links ι → ι → ι → Option (List ι × Links ι)
  | 0, _, _, _ => none
  | k + 1, L, node, safe =>
    if node = head then some ([], L)
    else
      let L := if P node then listDel null L node else L
      (forEachSafe null P head k L safe (L.next safe)).map fun r => (node :: r.1, r.2)

theorem forEachSafe_from {P : ι → Bool} {k : ℕ} (hh : h ∈ H)
    (hL : Lists L H (Function.update ls h (a ++ l))) (hk : l.length < k)
    (hx : (l ++ [h]).head? = some x) : ∃ L',
    forEachSafe null P h k L x (L.next x) = some (l, L') ∧
      Lists L' H (Function.update ls h (a ++ l.filter fun z => !P z)) := by
  induction l generalizing L a k x with
  | nil =>
    obtain ⟨k, rfl⟩ : ∃ i, k = i + 1 := ⟨k - 1, by omega⟩
    cases hx
    exact ⟨L, if_pos rfl, hL⟩
  | cons z l ih =>
    cases hx
    rw [List.length_cons] at hk
    obtain ⟨k, rfl⟩ : ∃ i, k = i + 1 := ⟨k - 1, by omega⟩
    have hring := hL.ring h hh
    rw [Function.update_self] at hring
    have hnodup := hring.nodup
    rw [List.nodup_cons, List.nodup_append', List.nodup_cons] at hnodup
    obtain ⟨hhz, -, ⟨hzl, -⟩, hdis⟩ := hnodup
    have hne : z ≠ h := fun e => hhz (by rw [← e]; simp)
    have hza : z ∉ a := fun hm => hdis hm List.mem_cons_self
    obtain ⟨y, hy⟩ := exists_head h l
    have hj : L.Joined z y := by
      have hring' : L.Ring h ((a ++ [z]) ++ l) := by rwa [List.append_assoc]
      exact joined_of hring' (by rw [← List.cons_append, List.getLast?_concat]) hy
    rw [forEachSafe, if_neg hne, hj.next]
    cases hP : P z with
    | false =>
      have hL' : Lists L H (Function.update ls h ((a ++ [z]) ++ l)) := by
        rwa [List.append_assoc]
      obtain ⟨L', h1, h2⟩ := ih hL' (Nat.lt_of_succ_lt_succ hk) hy
      refine ⟨L', ?_, ?_⟩
      · rw [if_neg Bool.false_ne_true]
        dsimp only
        rw [h1]
        rfl
      · rw [List.filter_cons_of_pos (by rw [hP]; rfl)]
        rwa [List.append_assoc] at h2
    | true =>
      have hlink : IsLinked H (Function.update ls h (a ++ z :: l)) z :=
        ⟨h, hh, by rw [Function.update_self]; simp⟩
      have hdel : Lists (listDel null L z) H _ := (listDel_lists hL hlink).1
      have hL' : Lists (listDel null L z) H (Function.update ls h (a ++ l)) := by
        refine hdel.congr fun g hg => ?_
        by_cases hgh : g = h
        · rw [hgh, delFrom, Function.update_self, Function.update_self,
            List.erase_append_right _ hza, List.erase_cons_head]
        · have hzg := hL.notMem hh (x := z) (by rw [Function.update_self]; simp) hg hgh
          rw [Function.update_of_ne hgh] at hzg
          rw [delFrom, Function.update_of_ne hgh, Function.update_of_ne hgh,
            List.erase_of_not_mem fun hm => hzg (List.mem_cons_of_mem g hm)]
      obtain ⟨L', h1, h2⟩ := ih hL' (Nat.lt_of_succ_lt_succ hk) hy
      refine ⟨L', ?_, ?_⟩
      · rw [if_pos rfl]
        dsimp only
        rw [h1]
        rfl
      · rw [List.filter_cons_of_neg (by rw [hP]; exact Bool.false_ne_true)]
        exact h2

/-- The loop comes to all nodes of the list in order, and leaves the others in it. -/
theorem forEachSafe_spec {P : ι → Bool} {k : ℕ} (hL : Lists L H ls) (hh : h ∈ H)
    (hk : (ls h).length < k) : ∃ L',
    forEachSafe null P h k L (L.next h) (L.next (L.next h)) = some (ls h, L') ∧
      Lists L' H (Function.update ls h ((ls h).filter fun z => !P z)) := by
  refine forEachSafe_from (a := []) hh ?_ hk (next_head (hL.ring h hh))
  rwa [List.nil_append, Function.update_eq_self]

/-- A loop over a list that takes out some of the nodes it comes to comes to all of them in order,
whatever the list was made by, and leaves the others in it. -/
theorem forEachSafe_after_calls (L : Links ι) (heads : List ι) (hn : heads.Nodup)
    (calls : List (ListCall ι)) (hl : LegalRun heads.toFinset (fun _ => []) calls)
    {K : Links ι} (hK : K = calls.foldl (exec null) (heads.foldl initListHead L)) {P : ι → Bool}
    {k : ℕ} (hh : h ∈ heads) (hk : (afterRun (fun _ => []) calls h).length < k) : ∃ L',
    forEachSafe null P h k K (K.next h) (K.next (K.next h)) =
        some (afterRun (fun _ => []) calls h, L') ∧
      Lists L' heads.toFinset (Function.update (afterRun (fun _ => []) calls) h
        ((afterRun (fun _ => []) calls h).filter fun z => !P z)) :=
  hK ▸ forEachSafe_spec (run_lists (initHeads_lists L hn) hl) (List.mem_toFinset.2 hh) hk

theorem forEachSafe_after_calls_two_lists : ∃ L', forEachSafe 0 (fun z => z % 2 = 1) 200 4
      ((twoLists.take 5).foldl (exec 0) ([100, 200].foldl initListHead ⟨id, id⟩)) 1 3 =
        some ([1, 3, 4], L') ∧
      Lists L' {100, 200} (Function.update (afterRun (fun _ => []) (twoLists.take 5)) 200 [4]) :=
  forEachSafe_after_calls (P := fun z => z % 2 = 1) (k := 4) (h := 200) ⟨id, id⟩ [100, 200]
    (by decide) (twoLists.take 5) (by decide) rfl (by decide) (by decide)

end ListHead
