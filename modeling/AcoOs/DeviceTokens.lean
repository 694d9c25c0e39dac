/-
The tokens of a device tree.

The structure block is a sequence of tokens.  The layout says which bytes they are; on a block that
holds the tokens of a well-formed tree the functions of libfdt find what the tokens say.

* **`LaidOut.fdtNextTag_spec`** — a step over one token;
* **`fdtGetprop_some`**, **`fdtGetprop_none`** — a property of a node;
* **`nodeByPropValue_spec`** — the first node that has a property with a given value.
-/
import AcoOs.DeviceTree

namespace AcoOs

/-! ### The tokens of the structure block -/

/-- A token, with what belongs to it. -/
inductive FdtToken where
  | beginNode (name : List (BitVec 8))
  | endNode
  | prop (nameoff : ℕ) (value : List (BitVec 8))
  | nop
  | fdtEnd
  deriving DecidableEq

/-- `l` with zeros up to a whole number of cells. -/
def padCells (l : List (BitVec 8)) : List (BitVec 8) := l ++ .replicate ((4 - l.length % 4) % 4) 0

namespace FdtToken

/-- The tag of a token. -/
def tag : FdtToken → ℕ
  | beginNode _ => fdtBeginNode
  | endNode => fdtEndNode
  | prop _ _ => fdtProp
  | nop => fdtNop
  | fdtEnd => AcoOs.fdtEnd

/-- What stands behind the tag. -/
def body : FdtToken → List (BitVec 8)
  | beginNode name => padCells (name ++ [0])
  | prop nameoff value => cellBytes value.length ++ (cellBytes nameoff ++ padCells value)
  | _ => []

/-- The bytes of a token. -/
def bytes (x : FdtToken) : List (BitVec 8) := cellBytes x.tag ++ x.body

/-- No byte of a name is zero, and the place of a string is a word. -/
def Valid : FdtToken → Prop
  | beginNode name => 0 ∉ name
  | prop nameoff _ => nameoff < 2 ^ 32
  | _ => True

end FdtToken

/-- The bytes of the tokens. -/
def tokenBytes (l : List FdtToken) : List (BitVec 8) := l.flatMap FdtToken.bytes

theorem length_padCells (l : List (BitVec 8)) : (padCells l).length = fdtTagalign l.length := by
  unfold padCells fdtTagalign
  rw [List.length_append, List.length_replicate]
  omega

theorem FdtToken.length_bytes (x : FdtToken) : x.bytes.length = 4 + x.body.length :=
  List.length_append ..

theorem FdtToken.tag_ne_zero (x : FdtToken) : x.tag ≠ 0 := by
  cases x <;> exact Nat.succ_ne_zero _

/-- A token is a whole number of cells. -/
theorem FdtToken.length_bytes_mod (x : FdtToken) : x.bytes.length % 4 = 0 := by
  rw [length_bytes]
  cases x with
  | beginNode name =>
    rw [body, length_padCells, fdtTagalign]
    omega
  | prop nameoff value =>
    rw [body, List.length_append, List.length_append, length_padCells, fdtTagalign]
    show (4 + (4 + (4 + _))) % 4 = 0
    omega
  | endNode => rfl
  | nop => rfl
  | fdtEnd => rfl

theorem length_le_tokenBytes (l : List FdtToken) : l.length ≤ (tokenBytes l).length := by
  induction l with
  | nil => exact le_rfl
  | cons x l ih =>
    have hx := x.length_bytes
    rw [tokenBytes, List.flatMap_cons, List.length_append, List.length_cons]
    rw [tokenBytes] at ih
    omega

namespace Fdt

/-- The tokens lie in the structure block from an offset on, in a tree of version 16 or later. -/
structure LaidOut (t : Fdt) (o : ℕ) (l : List FdtToken) : Prop where
  aligned : o % 4 = 0
  version : 16 ≤ t.version
  totalsize : t.totalsize < intMax
  room : t.offDtStruct + o + (tokenBytes l).length ≤ t.totalsize
  size : 17 ≤ t.version → o + (tokenBytes l).length ≤ t.sizeDtStruct
  reads : t.structBlock.Reads o (tokenBytes l)
  valid : ∀ x ∈ l, x.Valid

namespace LaidOut

variable {t : Fdt} {o : ℕ} {x : FdtToken} {l : List FdtToken}

theorem length_lt (h : t.LaidOut o l) : l.length < t.totalsize + 1 := by
  have hl := length_le_tokenBytes l
  have hroom := h.room
  omega

/-- What the first token takes. -/
theorem head (h : t.LaidOut o (x :: l)) : t.structBlock.Reads o x.bytes :=
  (Bytes.reads_append.1 h.reads).1

theorem tail (h : t.LaidOut o (x :: l)) : t.LaidOut (o + x.bytes.length) l := by
  have hlen : (tokenBytes (x :: l)).length = x.bytes.length + (tokenBytes l).length :=
    List.length_append ..
  have hx := x.length_bytes_mod
  have hroom := h.room
  exact
    { aligned := by
        have := h.aligned
        omega
      version := h.version
      totalsize := h.totalsize
      room := by omega
      size := fun hv => by
        have := h.size hv
        omega
      reads := (Bytes.reads_append.1 h.reads).2
      valid := fun y hy => h.valid y (List.mem_cons_of_mem _ hy) }

/-- There are pointers into the first token. -/
theorem fdtOffsetPtr {k n : ℕ} (h : t.LaidOut o (x :: l)) (hk : k + n ≤ x.bytes.length) :
    t.fdtOffsetPtr (o + k) n = true := by
  have hlen : (tokenBytes (x :: l)).length = x.bytes.length + (tokenBytes l).length :=
    List.length_append ..
  have hroom := h.room
  have hsize := h.size
  have htotal := h.totalsize
  unfold intMax at htotal
  unfold Fdt.fdtOffsetPtr
  dsimp only
  rw [if_neg (by omega), if_neg (by omega)]

end LaidOut

/-- The loop over a name finds its end. -/
theorem skipName_spec {t : Fdt} {name : List (BitVec 8)} {o n : ℕ} (hname : 0 ∉ name)
    (hptr : ∀ k ≤ name.length, t.fdtOffsetPtr (o + k) 1 = true)
    (hreads : t.structBlock.Reads o (name ++ [0])) (hn : name.length < n) :
    t.skipName n o = some (o + name.length + 1) := by
  induction name generalizing o n with
  | nil =>
    obtain ⟨n, rfl⟩ : ∃ k, n = k + 1 := ⟨n - 1, by simp at hn; omega⟩
    have hzero : t.structBlock o = 0 := (Bytes.reads_cons.1 hreads).1
    have hp : t.fdtOffsetPtr o 1 = true := hptr 0 le_rfl
    rw [skipName, hp, if_neg (by decide), if_neg (not_not.2 hzero)]
    rfl
  | cons c name ih =>
    obtain ⟨n, rfl⟩ : ∃ k, n = k + 1 := ⟨n - 1, by simp at hn; omega⟩
    rw [List.length_cons] at hn hptr
    obtain ⟨hc, hrest⟩ := Bytes.reads_cons.1 hreads
    have hne : t.structBlock o ≠ 0 := fun h0 => hname (hc.symm.trans h0 ▸ List.mem_cons_self ..)
    have hp : t.fdtOffsetPtr o 1 = true := hptr 0 (Nat.zero_le _)
    rw [skipName, hp, if_neg (by decide), if_pos hne,
      ih (fun h0 => hname (List.mem_cons_of_mem _ h0)) (fun k hk => ?_) hrest (by omega),
      List.length_cons, Nat.add_assoc o 1, Nat.add_comm 1]
    have hk' := hptr (k + 1) (by omega)
    rwa [Nat.add_comm k, ← Nat.add_assoc] at hk'

namespace LaidOut

variable {t : Fdt} {o : ℕ} {x : FdtToken} {l : List FdtToken}

theorem fdt32_tag (h : t.LaidOut o (x :: l)) : t.fdt32 o = x.tag := by
  have htag := fdt32ToCpu_load (Bytes.reads_append.1 h.head).1
  rw [fdt32, htag]
  cases x <;> rfl

/-- The end of the body, as `fdt_next_tag` finds it. -/
theorem skipTag_spec (h : t.LaidOut o (x :: l)) :
    ∃ e, t.skipTag x.tag (o + 4) = some e ∧ e ≤ o + x.bytes.length ∧ o + 4 ≤ e ∧
      fdtTagalign e = o + x.bytes.length := by
  have hbody : t.structBlock.Reads (o + 4) x.body := (Bytes.reads_append.1 h.head).2
  have hlen := x.length_bytes
  have halign := h.aligned
  have hroom := h.room
  have hlens : (tokenBytes (x :: l)).length = x.bytes.length + (tokenBytes l).length :=
    List.length_append ..
  -- a token of one cell
  have halone : fdtTagalign (o + 4) = o + 4 := by
    unfold fdtTagalign
    omega
  cases x with
  | beginNode name =>
    have hname : 0 ∉ name := h.valid _ (List.mem_cons_self ..)
    have hbytes : (FdtToken.beginNode name).bytes.length = 4 + fdtTagalign (name.length + 1) := by
      rw [hlen, FdtToken.body, length_padCells, List.length_append, List.length_singleton]
    unfold fdtTagalign at hbytes ⊢
    refine ⟨o + 4 + name.length + 1, ?_, by omega, by omega, by omega⟩
    refine (if_pos rfl).trans (skipName_spec hname (fun k hk => ?_)
      (Bytes.reads_append.1 hbody).1 (by omega))
    rw [Nat.add_assoc]
    exact h.fdtOffsetPtr (by omega)
  | prop nameoff value =>
    have hvalue : t.fdt32 (o + 4) = value.length % 2 ^ 32 :=
      fdt32ToCpu_load (Bytes.reads_append.1 hbody).1
    have hbytes : (FdtToken.prop nameoff value).bytes.length = 12 + fdtTagalign value.length := by
      rw [hlen, FdtToken.body, List.length_append, List.length_append, length_padCells]
      show 4 + (4 + (4 + _)) = _
      omega
    have hptr : t.fdtOffsetPtr (o + 4) 4 = true := h.fdtOffsetPtr (by omega)
    have htotal := h.totalsize
    have hversion := h.version
    unfold fdtTagalign at hbytes ⊢
    unfold intMax at htotal
    refine ⟨o + 12 + value.length, ?_, by omega, by omega, by omega⟩
    show t.skipTag fdtProp (o + 4) = _
    unfold skipTag
    dsimp only
    rw [if_neg (by decide), if_pos rfl, hptr, if_neg (by decide), hvalue,
      Nat.mod_eq_of_lt (a := value.length) (by omega), if_neg (by unfold intMax; omega),
      if_neg (by omega)]
  | endNode => exact ⟨o + 4, rfl, le_rfl, le_rfl, halone⟩
  | nop => exact ⟨o + 4, rfl, le_rfl, le_rfl, halone⟩
  | fdtEnd => exact ⟨o + 4, rfl, le_rfl, le_rfl, halone⟩

/-- `fdt_next_tag` finds a token. -/
theorem fdtNextTag_spec (h : t.LaidOut o (x :: l)) :
    t.fdtNextTag o = (x.tag, .ok (o + x.bytes.length)) := by
  obtain ⟨e, he, hle, hge, halign⟩ := h.skipTag_spec
  have hlen := x.length_bytes
  have hptr : t.fdtOffsetPtr o 4 = true := h.fdtOffsetPtr (k := 0) (by omega)
  have hptr' : t.fdtOffsetPtr o (e - o) = true := h.fdtOffsetPtr (k := 0) (by omega)
  unfold fdtNextTag
  rw [hptr, if_neg (by decide)]
  dsimp only
  rw [h.fdt32_tag, he]
  dsimp only
  rw [hptr', if_neg (by decide), halign]

theorem checkOffset_spec (h : t.LaidOut o (x :: l)) :
    t.checkOffset x.tag o = .ok (o + x.bytes.length) := by
  unfold checkOffset
  rw [h.fdtNextTag_spec, if_neg (not_not.2 h.aligned), if_neg (not_not.2 rfl)]

theorem nextNode_cons (h : t.LaidOut o (x :: l)) (n : ℕ) : t.nextNode (n + 1) o =
    if x.tag = fdtBeginNode then .ok o
    else if x.tag = AcoOs.fdtEnd then .error (-fdtErrNotfound)
    else t.nextNode n (o + x.bytes.length) := by
  rw [nextNode, h.fdtNextTag_spec]

theorem nextProp_cons (h : t.LaidOut o (x :: l)) (n : ℕ) : t.nextProp (n + 1) o =
    if x.tag = AcoOs.fdtEnd then .error (-fdtErrBadstructure)
    else if x.tag = fdtProp then .ok o
    else if x.tag = fdtNop then t.nextProp n (o + x.bytes.length)
    else .error (-fdtErrNotfound) := by
  rw [nextProp, h.fdtNextTag_spec]

end LaidOut

end Fdt

/-! ### What the tokens say -/

/-- Each node is closed, the properties of a node stand before its nodes, and there is one root:
`depth` nodes are open, and `props` as long as a property may follow, or the root. -/
def WellFormed : List FdtToken → ℕ → Bool → Prop
  | [], _, _ => False
  | .fdtEnd :: l, depth, props => l = [] ∧ depth = 0 ∧ props = false
  | .nop :: l, depth, props => WellFormed l depth props
  | .beginNode _ :: l, depth, props => (0 < depth ∨ props = true) ∧ WellFormed l (depth + 1) true
  | .endNode :: l, depth, _ => 0 < depth ∧ WellFormed l (depth - 1) false
  | .prop _ _ :: l, depth, props => 0 < depth ∧ props = true ∧ WellFormed l depth true

namespace Fdt

variable (t : Fdt)

/-- A property of the node whose tokens, behind its first one, are the list. -/
def property (name : String) : List FdtToken → Option (List (BitVec 8))
  | .prop nameoff value :: l =>
    if t.fdtStringEq nameoff name then some value else property name l
  | .nop :: l => property name l
  | _ => none

variable {t : Fdt} {o depth n m : ℕ} {name : String} {v : List (BitVec 8)} {l : List FdtToken}

theorem nextProp_nop (h : t.LaidOut o (.nop :: l)) :
    t.nextProp (m + 1) o = t.nextProp m (o + FdtToken.nop.bytes.length) := h.nextProp_cons m

/-- One step of the loop over the properties. -/
theorem getProperty_prop {nameoff : ℕ} (h : t.LaidOut o (.prop nameoff v :: l)) :
    t.getProperty name (n + 1) (t.nextProp (m + 1) o) =
      if t.fdtStringEq nameoff name then .ok o
      else t.getProperty name n (t.nextProp (t.totalsize + 1)
        (o + (FdtToken.prop nameoff v).bytes.length)) := by
  have hcheck : t.fdtCheckPropOffset o = .ok (o + (FdtToken.prop nameoff v).bytes.length) :=
    h.checkOffset_spec
  have hname : t.fdt32 (o + 8) = nameoff := by
    have hbody := (Bytes.reads_append.1 h.head).2
    have hload := fdt32ToCpu_load (Bytes.reads_append.1 (Bytes.reads_append.1 hbody).2).1
    have hlt : nameoff < 2 ^ 32 := h.valid _ (List.mem_cons_self ..)
    exact hload.trans (Nat.mod_eq_of_lt hlt)
  have hnext : t.nextProp (m + 1) o = .ok o := h.nextProp_cons m
  rw [hnext, getProperty, hcheck]
  dsimp only
  rw [hname, fdtNextPropertyOffset, hcheck]
  rfl

/-- The loop finds a property that the node has. -/
theorem getProperty_some (h : t.LaidOut o l) (hwf : WellFormed l (depth + 1) true)
    (hv : t.property name l = some v) (hn : l.length < n) (hm : l.length < m) :
    ∃ e nameoff x rest, t.getProperty name n (t.nextProp m o) = .ok e ∧
      t.LaidOut e (.prop nameoff v :: x :: rest) := by
  induction l generalizing o n m with
  | nil => exact hwf.elim
  | cons x l ih =>
    obtain ⟨n, rfl⟩ : ∃ k, n = k + 1 := ⟨n - 1, by omega⟩
    obtain ⟨m, rfl⟩ : ∃ k, m = k + 1 := ⟨m - 1, by omega⟩
    rw [List.length_cons] at hn hm
    cases x with
    | prop nameoff value =>
      obtain ⟨-, -, hwf⟩ := hwf
      rw [getProperty_prop h]
      unfold property at hv
      by_cases hs : t.fdtStringEq nameoff name
      · rw [if_pos hs] at hv ⊢
        cases hv
        cases l with
        | nil => exact hwf.elim
        | cons x rest => exact ⟨o, nameoff, x, rest, rfl, h⟩
      · rw [if_neg hs] at hv ⊢
        exact ih h.tail hwf hv (by omega) h.tail.length_lt
    | nop =>
      rw [nextProp_nop h]
      exact ih h.tail hwf hv (by omega) (by omega)
    | beginNode nm => exact nomatch hv
    | endNode => exact nomatch hv
    | fdtEnd => exact nomatch hv

/-- The loop finds no property that the node does not have. -/
theorem getProperty_none (h : t.LaidOut o l) (hwf : WellFormed l (depth + 1) true)
    (hv : t.property name l = none) (hn : l.length < n) (hm : l.length < m) :
    t.getProperty name n (t.nextProp m o) = .error (-fdtErrNotfound) := by
  induction l generalizing o n m with
  | nil => exact hwf.elim
  | cons x l ih =>
    obtain ⟨n, rfl⟩ : ∃ k, n = k + 1 := ⟨n - 1, by omega⟩
    obtain ⟨m, rfl⟩ : ∃ k, m = k + 1 := ⟨m - 1, by omega⟩
    rw [List.length_cons] at hn hm
    cases x with
    | prop nameoff value =>
      obtain ⟨-, -, hwf⟩ := hwf
      rw [getProperty_prop h]
      unfold property at hv
      by_cases hs : t.fdtStringEq nameoff name
      · rw [if_pos hs] at hv
        exact nomatch hv
      · rw [if_neg hs] at hv ⊢
        exact ih h.tail hwf hv (by omega) h.tail.length_lt
    | nop =>
      rw [nextProp_nop h]
      exact ih h.tail hwf hv (by omega) (by omega)
    | beginNode nm =>
      rw [h.nextProp_cons]
      rfl
    | endNode =>
      rw [h.nextProp_cons]
      rfl
    | fdtEnd => exact absurd hwf.2.1 (Nat.succ_ne_zero depth)

/-! ### A node in the block -/

variable {nm : List (BitVec 8)}

theorem fdtFirstPropertyOffset_spec (h : t.LaidOut o (.beginNode nm :: l)) :
    t.fdtFirstPropertyOffset o =
      t.nextProp (t.totalsize + 1) (o + (FdtToken.beginNode nm).bytes.length) := by
  have hcheck : t.fdtCheckNodeOffset o = .ok (o + (FdtToken.beginNode nm).bytes.length) :=
    h.checkOffset_spec
  rw [fdtFirstPropertyOffset, hcheck]
  rfl

/-- `fdt_getprop` finds a property that the node has, and another token behind it. -/
theorem fdtGetprop_some (h : t.LaidOut o (.beginNode nm :: l)) (hwf : WellFormed l (depth + 1) true)
    (hv : t.property name l = some v) :
    ∃ d x rest, t.fdtGetprop o name = .ok (v.length, d) ∧ t.structBlock.Reads d v ∧
      t.LaidOut (d + fdtTagalign v.length) (x :: rest) := by
  obtain ⟨e, nameoff, x, rest, he, hat⟩ :=
    getProperty_some h.tail hwf hv h.tail.length_lt h.tail.length_lt
  have hbody := (Bytes.reads_append.1 hat.head).2
  have hroom := hat.room
  have htotal := hat.totalsize
  have hlens : (tokenBytes (.prop nameoff v :: x :: rest)).length =
      (FdtToken.prop nameoff v).bytes.length + (tokenBytes (x :: rest)).length :=
    List.length_append ..
  have hbytes : (FdtToken.prop nameoff v).bytes.length = 12 + fdtTagalign v.length := by
    rw [FdtToken.length_bytes, FdtToken.body, List.length_append, List.length_append,
      length_padCells]
    show 4 + (4 + (4 + _)) = _
    omega
  have hlen : t.fdt32 (e + 4) = v.length := by
    refine (fdt32ToCpu_load (Bytes.reads_append.1 hbody).1).trans (Nat.mod_eq_of_lt ?_)
    unfold fdtTagalign at hbytes
    unfold intMax at htotal
    omega
  have hvalue : t.structBlock.Reads (e + 12) v :=
    (Bytes.reads_append.1 (Bytes.reads_append.1 (Bytes.reads_append.1 hbody).2).2).1
  have hversion := h.version
  refine ⟨e + 12, x, rest, ?_, hvalue, ?_⟩
  · rw [fdtGetprop, fdtFirstPropertyOffset_spec h, he]
    show Except.ok (if _ then _ else _) = _
    rw [hlen, if_neg (by omega)]
  · have htail := hat.tail
    rwa [hbytes, ← Nat.add_assoc] at htail

/-- `fdt_getprop` finds no property that the node does not have. -/
theorem fdtGetprop_none (h : t.LaidOut o (.beginNode nm :: l)) (hwf : WellFormed l (depth + 1) true)
    (hv : t.property name l = none) : t.fdtGetprop o name = .error (-fdtErrNotfound) := by
  rw [fdtGetprop, fdtFirstPropertyOffset_spec h,
    getProperty_none h.tail hwf hv h.tail.length_lt h.tail.length_lt]
  rfl

/-- The search goes on to the next node. -/
theorem nodeByPropValue_next (h : t.LaidOut o (.beginNode nm :: l))
    (hwf : WellFormed l (depth + 1) true) (hne : t.property name l ≠ some v) :
    t.nodeByPropValue name v (n + 1) (t.nextNode (m + 1) o) = t.nodeByPropValue name v n
      (t.nextNode (t.totalsize + 1) (o + (FdtToken.beginNode nm).bytes.length)) := by
  have hnode : t.nextNode (m + 1) o = .ok o := h.nextNode_cons m
  have hcheck : t.fdtCheckNodeOffset o = .ok (o + (FdtToken.beginNode nm).bytes.length) :=
    h.checkOffset_spec
  have hnext : t.fdtNextNode (some o) =
      t.nextNode (t.totalsize + 1) (o + (FdtToken.beginNode nm).bytes.length) := by
    rw [fdtNextNode, hcheck]
    rfl
  rw [hnode, nodeByPropValue]
  cases hp : t.property name l with
  | none =>
    rw [fdtGetprop_none h hwf hp]
    exact congrArg _ hnext
  | some w =>
    obtain ⟨d, -, -, hd, hreads, -⟩ := fdtGetprop_some h hwf hp
    rw [hd]
    refine (if_neg fun hc => hne ?_).trans (congrArg _ hnext)
    rw [hp, ← hc.2]
    exact congrArg some hreads.symm

/-- The search ends at a node that has the value. -/
theorem nodeByPropValue_found (h : t.LaidOut o (.beginNode nm :: l))
    (hwf : WellFormed l (depth + 1) true) (hv : t.property name l = some v) :
    t.nodeByPropValue name v (n + 1) (t.nextNode (m + 1) o) = .ok o := by
  have hnode : t.nextNode (m + 1) o = .ok o := h.nextNode_cons m
  obtain ⟨d, -, -, hd, hreads, -⟩ := fdtGetprop_some h hwf hv
  rw [hnode, nodeByPropValue, hd]
  exact if_pos ⟨rfl, hreads⟩

/-- The search finds the first node that has the value. -/
theorem nodeByPropValue_spec {before after : List FdtToken} {props : Bool}
    (h : t.LaidOut o (before ++ .beginNode nm :: after))
    (hwf : WellFormed (before ++ .beginNode nm :: after) depth props)
    (hv : t.property name after = some v)
    (hfirst : ∀ pre nm' post, before = pre ++ .beginNode nm' :: post →
      t.property name (post ++ .beginNode nm :: after) ≠ some v)
    (hn : before.length < n) (hm : before.length < m) :
    t.nodeByPropValue name v n (t.nextNode m o) = .ok (o + (tokenBytes before).length) ∧
      t.LaidOut (o + (tokenBytes before).length) (.beginNode nm :: after) ∧
      ∃ d, WellFormed after (d + 1) true := by
  induction before generalizing o depth props n m with
  | nil =>
    obtain ⟨n, rfl⟩ : ∃ k, n = k + 1 := ⟨n - 1, by omega⟩
    obtain ⟨m, rfl⟩ : ∃ k, m = k + 1 := ⟨m - 1, by omega⟩
    exact ⟨nodeByPropValue_found h hwf.2 hv, h, depth, hwf.2⟩
  | cons x before ih =>
    obtain ⟨n, rfl⟩ : ∃ k, n = k + 1 := ⟨n - 1, by omega⟩
    obtain ⟨m, rfl⟩ : ∃ k, m = k + 1 := ⟨m - 1, by omega⟩
    rw [List.length_cons] at hn hm
    have hlen : o + (tokenBytes (x :: before)).length =
        o + x.bytes.length + (tokenBytes before).length := by
      rw [Nat.add_assoc]
      exact congrArg _ (List.length_append ..)
    have hfirst' : ∀ pre nm' post, before = pre ++ .beginNode nm' :: post →
        t.property name (post ++ .beginNode nm :: after) ≠ some v := fun pre nm' post hb =>
      hfirst (x :: pre) nm' post (hb ▸ rfl)
    have htotal := h.length_lt
    rw [List.length_append, List.length_cons] at htotal
    rw [hlen]
    -- a token that begins no node is passed over
    have hskip : x.tag ≠ fdtBeginNode → x.tag ≠ AcoOs.fdtEnd →
        t.nextNode (m + 1) o = t.nextNode m (o + x.bytes.length) := fun h1 h2 => by
      rw [LaidOut.nextNode_cons h, if_neg h1, if_neg h2]
    cases x with
    | beginNode nm' =>
      rw [nodeByPropValue_next h hwf.2 (hfirst [] nm' before rfl)]
      exact ih h.tail hwf.2 hfirst' (by omega) (by omega)
    | endNode =>
      rw [hskip (by decide) (by decide)]
      exact ih h.tail hwf.2 hfirst' (by omega) (by omega)
    | prop nameoff value =>
      have htag : (FdtToken.prop nameoff value).tag = fdtProp := rfl
      rw [hskip (by rw [htag]; decide) (by rw [htag]; decide)]
      exact ih h.tail hwf.2.2 hfirst' (by omega) (by omega)
    | nop =>
      rw [hskip (by decide) (by decide)]
      exact ih h.tail hwf hfirst' (by omega) (by omega)
    | fdtEnd => exact absurd hwf.1 (List.append_ne_nil_of_right_ne_nil _ (List.cons_ne_nil _ _))

/-! ### The counts of cells -/

/-- The count of cells that a node has in a property, or `default` where it has no such property. -/
def Cells (t : Fdt) (name : String) (default : ℕ) (l : List FdtToken) (c : ℕ) : Prop :=
  t.property name l = none ∧ c = default ∨ t.property name l = some (cellBytes c) ∧ c ≤ 4

theorem exists_cellBytes (hv : v.length = 4) : ∃ k < 2 ^ 32, v = cellBytes k := by
  obtain ⟨a, b, c, d, rfl⟩ := List.length_eq_four.1 hv
  have ha := a.isLt
  have hb := b.isLt
  have hc := c.isLt
  have hd := d.isLt
  refine ⟨a.toNat * 2 ^ 24 + b.toNat * 2 ^ 16 + c.toNat * 2 ^ 8 + d.toNat, by omega, ?_⟩
  have hbyte : ∀ (x : BitVec 8) (k : ℕ), k % 2 ^ 8 = x.toNat → BitVec.ofNat 8 k = x := fun x k hk =>
    BitVec.eq_of_toNat_eq ((BitVec.toNat_ofNat ..).trans hk)
  unfold cellBytes
  rw [hbyte a _ (by omega), hbyte b _ (by omega), hbyte c _ (by omega), hbyte d _ (by omega)]

theorem fdtCells_none (h : t.LaidOut o (.beginNode nm :: l)) (hwf : WellFormed l (depth + 1) true)
    (hv : t.property name l = none) : t.fdtCells o name = -fdtErrNotfound := by
  rw [fdtCells, fdtGetprop_none h hwf hv]

theorem fdtCells_some (h : t.LaidOut o (.beginNode nm :: l)) (hwf : WellFormed l (depth + 1) true)
    (hv : t.property name l = some v) :
    t.fdtCells o name = -fdtErrBadncells ∧ (∀ k ≤ 4, v ≠ cellBytes k) ∨
      ∃ k : ℕ, k ≤ 4 ∧ t.fdtCells o name = k ∧ v = cellBytes k := by
  obtain ⟨d, -, -, hd, hreads, -⟩ := fdtGetprop_some h hwf hv
  have hcells : t.fdtCells o name = if v.length ≠ 4 then -fdtErrBadncells
      else if 4 < t.fdt32 d then -fdtErrBadncells else (t.fdt32 d : ℤ) := by
    rw [fdtCells, hd]
  by_cases hlen : v.length = 4
  · obtain ⟨k, hk, rfl⟩ := exists_cellBytes hlen
    have hword : t.fdt32 d = k := (fdt32ToCpu_load hreads).trans (Nat.mod_eq_of_lt hk)
    rw [if_neg (not_not.2 hlen), hword] at hcells
    by_cases h4 : 4 < k
    · refine Or.inl ⟨hcells.trans (if_pos h4), fun c hc heq => ?_⟩
      have hsame : t.fdt32 d = c % 2 ^ 32 := fdt32ToCpu_load (heq ▸ hreads)
      omega
    · exact Or.inr ⟨k, not_lt.1 h4, hcells.trans (if_neg h4), rfl⟩
  · exact Or.inl ⟨hcells.trans (if_pos hlen), fun c _ heq => hlen (heq ▸ rfl)⟩

theorem cellBytes_inj {a b : ℕ} (ha : a ≤ 4) (hb : b ≤ 4) (h : cellBytes a = cellBytes b) :
    a = b := by
  have hlast : BitVec.ofNat 8 a = BitVec.ofNat 8 b := by
    injection h with _ h
    injection h with _ h
    injection h with _ h
    injection h
  have := congrArg BitVec.toNat hlast
  rw [BitVec.toNat_ofNat, BitVec.toNat_ofNat] at this
  omega

/-- What `fdt_size_cells` and, but for zero, `fdt_address_cells` make of `fdt_cells`. -/
theorem cells_iff (h : t.LaidOut o (.beginNode nm :: l)) (hwf : WellFormed l (depth + 1) true)
    (default c : ℕ) :
    (if t.fdtCells o name = -fdtErrNotfound then (default : ℤ) else t.fdtCells o name) = c ↔
      t.Cells name default l c := by
  unfold Cells
  cases hp : t.property name l with
  | none =>
    rw [if_pos (fdtCells_none h hwf hp)]
    constructor
    · exact fun hc => .inl ⟨rfl, (Int.ofNat.inj hc).symm⟩
    · rintro (⟨-, rfl⟩ | ⟨hc, -⟩)
      · rfl
      · exact nomatch hc
  | some v =>
    rcases fdtCells_some h hwf hp with ⟨hbad, hno⟩ | ⟨k, hk, hcells, rfl⟩
    · rw [hbad, if_neg (by decide)]
      constructor
      · intro hc
        unfold fdtErrBadncells at hc
        omega
      · rintro (⟨hc, -⟩ | ⟨hc, h4⟩)
        · exact nomatch hc
        · exact absurd (Option.some.inj hc) (hno c h4)
    · have hne : (k : ℤ) ≠ -fdtErrNotfound := by
        unfold fdtErrNotfound
        omega
      rw [hcells, if_neg hne]
      constructor
      · intro hc
        cases Int.ofNat.inj hc
        exact .inr ⟨rfl, hk⟩
      · rintro (⟨hc, -⟩ | ⟨hc, h4⟩)
        · exact nomatch hc
        · rw [cellBytes_inj hk h4 (Option.some.inj hc)]

theorem fdtSizeCells_iff (h : t.LaidOut o (.beginNode nm :: l))
    (hwf : WellFormed l (depth + 1) true) (c : ℕ) :
    t.fdtSizeCells o = c ↔ t.Cells "#size-cells" 1 l c := cells_iff h hwf 1 c

theorem fdtAddressCells_iff (h : t.LaidOut o (.beginNode nm :: l))
    (hwf : WellFormed l (depth + 1) true) (c : ℕ) :
    t.fdtAddressCells o = c ↔ t.Cells "#address-cells" 2 l c ∧ c ≠ 0 := by
  have hiff : (if t.fdtCells o "#address-cells" = -fdtErrNotfound then ((2 : ℕ) : ℤ)
      else t.fdtCells o "#address-cells") = c ↔ t.Cells "#address-cells" 2 l c :=
    cells_iff h hwf 2 c
  rw [← hiff]
  show (if t.fdtCells o "#address-cells" = 0 then -fdtErrBadncells else _) = (c : ℤ) ↔ _
  by_cases h0 : t.fdtCells o "#address-cells" = 0
  · rw [if_pos h0, if_neg (by rw [h0]; decide), h0]
    unfold fdtErrBadncells
    omega
  · rw [if_neg h0]
    constructor
    · refine fun hc => ⟨hc, ?_⟩
      rintro rfl
      by_cases h1 : t.fdtCells o "#address-cells" = -fdtErrNotfound
      · rw [if_pos h1] at hc
        exact absurd hc (by decide)
      · rw [if_neg h1] at hc
        exact h0 hc
    · exact And.left

end Fdt

end AcoOs
