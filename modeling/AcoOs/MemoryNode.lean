/-
The memory node of the device tree.

`kernel_map_init` finds the node whose `device_type` is `memory` and reads two numbers from its
`reg`.  It takes as many cells for both: the greater one of the counts that libfdt finds in the
memory node.  These counts are those for the children of a node; the ones for its own `reg` are in
its parent.

The model follows `kernel_map.c`.

* **`memory_node_iff`** — exactly when the two numbers are the base and the size of the memory;
* **`memory_node_two`** — a tree whose root has two cells for each;
* **`not_memory_node`** — a tree whose root has one cell for each.
-/
import AcoOs.DeviceTokens

namespace AcoOs

/-! ### `kernel_map.c` -/

/-- The bytes of `"memory"`. -/
def memoryBytes : List (BitVec 8) := [0x6d, 0x65, 0x6d, 0x6f, 0x72, 0x79, 0]

/-- A variable of eight bytes with the contents `old` after a `memcpy` of `n` bytes from `p`;
`none` where they do not fit. -/
def copyVariable (m : Bytes) (p n : ℕ) (old : Bytes) : Option ℕ :=
  if 8 < n then none else some (Bytes.load (fun i => if i < n then m (p + i) else old i) 0 8)

/-- `fdt64_to_cpu` or `fdt32_to_cpu`. -/
def cellsToCpu (cells : ℤ) (x : ℕ) : ℕ := if cells = 2 then fdt64ToCpu x else fdt32ToCpu x

namespace Fdt

/-- `kernel_map_init`, where `address` and `size` have some contents at first; `none` after an
assertion that fails, and where a `memcpy` is out of bounds. -/
def kernelMapInit (t : Fdt) (kernelStart kernelEnd : ℕ) (address size : Bytes) :
    Option KernelMapping :=
  if t.fdtCheckHeader ≠ 0 then none
  else
    match t.fdtNodeOffsetByPropValue "device_type" memoryBytes with
    | .error _ => none
    | .ok offset =>
      let addressCells := t.fdtAddressCells offset
      if addressCells < 0 then none
      else
        let sizeCells := t.fdtSizeCells offset
        if sizeCells < 0 then none
        else
          let addressCells := if addressCells > sizeCells then addressCells else sizeCells
          let sizeCells := addressCells
          match t.fdtGetprop offset "reg" with
          | .error _ => none
          | .ok (_, prop) =>
            (copyVariable t.structBlock prop (4 * addressCells.toNat) address).bind fun address =>
              (copyVariable t.structBlock (prop + 4 * addressCells.toNat) (4 * sizeCells.toNat)
                size).bind fun size =>
                some (AcoOs.kernelMapInit kernelStart kernelEnd (cellsToCpu addressCells address)
                  (cellsToCpu sizeCells size))

/-- The tokens are those of a well-formed tree, in a structure block that libfdt accepts. -/
structure Valid (t : Fdt) (l : List FdtToken) : Prop where
  header : t.fdtCheckHeader = 0
  laidOut : t.LaidOut 0 l
  wellFormed : WellFormed l 0 true

end Fdt

/-- The nodes that are open behind the first tokens, the innermost one first. -/
def openNodes (l : List FdtToken) : ℕ → List ℕ
  | 0 => []
  | n + 1 =>
    match l[n]? with
    | some (.beginNode _) => n :: openNodes l n
    | some .endNode => (openNodes l n).tail
    | _ => openNodes l n

/-- A number in `n` cells, the highest one first. -/
def encodeCells : ℕ → ℕ → List (BitVec 8)
  | 0, _ => []
  | n + 1, v => encodeCells n (v / 2 ^ 32) ++ cellBytes v

theorem length_encodeCells (n v : ℕ) : (encodeCells n v).length = 4 * n := by
  induction n generalizing v with
  | zero => rfl
  | succ n ih =>
    rw [encodeCells, List.length_append, ih]
    rfl

/-- Token `i` begins a node whose `device_type` is `memory`. -/
def IsMemory (t : Fdt) (l : List FdtToken) (i : ℕ) : Prop :=
  (∃ name, l[i]? = some (.beginNode name)) ∧
    t.property "device_type" (l.drop (i + 1)) = some memoryBytes

/-- A valid tree and its memory node, whose parent has `addressCells` and `sizeCells`; in so many
cells, the `reg` of the node is `base` and `size`. -/
structure MemoryTree where
  fdt : Fdt
  tokens : List FdtToken
  valid : fdt.Valid tokens
  node : ℕ
  parent : ℕ
  addressCells : ℕ
  sizeCells : ℕ
  base : ℕ
  size : ℕ
  isMemory : IsMemory fdt tokens node
  first : ∀ i < node, ¬ IsMemory fdt tokens i
  parent_eq : (openNodes tokens node).head? = some parent
  parent_addressCells :
    fdt.property "#address-cells" (tokens.drop (parent + 1)) = some (cellBytes addressCells)
  parent_sizeCells :
    fdt.property "#size-cells" (tokens.drop (parent + 1)) = some (cellBytes sizeCells)
  addressCells_eq : addressCells = 1 ∨ addressCells = 2
  sizeCells_eq : sizeCells = 1 ∨ sizeCells = 2
  base_lt : base < 2 ^ (32 * addressCells)
  size_lt : size < 2 ^ (32 * sizeCells)
  reg : fdt.property "reg" (tokens.drop (node + 1)) =
    some (encodeCells addressCells base ++ encodeCells sizeCells size)

/-! ### The copies -/

section Copies

variable {m old : Bytes} {p n v : ℕ}

/-- One cell. -/
theorem copyVariable_four (m old : Bytes) (p : ℕ) :
    ∃ x, copyVariable m p 4 old = some x ∧ cellsToCpu 1 x = fdt32ToCpu (m.load p 4) := by
  refine ⟨_, rfl, ?_⟩
  show fdt32ToCpu _ = _
  have hlow : Bytes.load (fun i => if i < 4 then m (p + i) else old i) 0 4 = m.load p 4 := rfl
  rw [Bytes.load_add _ 0 4 4, hlow, fdt32ToCpu, fdt32ToCpu, Nat.add_mul_mod_self_left]

theorem load_four_lt : m.load p 4 < 2 ^ 32 := by
  have h0 := (m p).isLt
  have h1 := (m (p + 1)).isLt
  have h2 := (m (p + 1 + 1)).isLt
  have h3 := (m (p + 1 + 1 + 1)).isLt
  unfold Bytes.load Bytes.load Bytes.load Bytes.load Bytes.load
  omega

/-- Two cells. -/
theorem copyVariable_eight (m old : Bytes) (p : ℕ) : ∃ x, copyVariable m p 8 old = some x ∧
    cellsToCpu 2 x = fdt32ToCpu (m.load p 4) * 2 ^ 32 + fdt32ToCpu (m.load (p + 4) 4) := by
  refine ⟨_, rfl, ?_⟩
  show fdt64ToCpu (m.load p (4 + 4)) = _
  have hlow : m.load p 4 < 2 ^ 32 := load_four_lt
  have hhigh : m.load (p + 4) 4 < 2 ^ 32 := load_four_lt
  rw [Bytes.load_add, fdt64ToCpu, Nat.mod_eq_of_lt (by omega), constantSwab64_eq,
    ← constantSwab32_mod, Nat.add_mul_mod_self_left, Nat.add_mul_div_left _ _ (by decide),
    Nat.div_eq_of_lt hlow, Nat.zero_add, ← constantSwab32_mod (m.load (p + 4) 4)]
  rfl

theorem copyVariable_of_lt (h : 8 < n) : copyVariable m p n old = none := if_pos h

theorem reads_one (hv : v < 2 ^ 32) (h : m.Reads p (encodeCells 1 v)) :
    fdt32ToCpu (m.load p 4) = v := (fdt32ToCpu_load h).trans (Nat.mod_eq_of_lt hv)

theorem reads_two (hv : v < 2 ^ 64) (h : m.Reads p (encodeCells 2 v)) :
    fdt32ToCpu (m.load p 4) = v / 2 ^ 32 ∧ fdt32ToCpu (m.load (p + 4) 4) = v % 2 ^ 32 := by
  obtain ⟨h1, h2⟩ := Bytes.reads_append.1 h
  exact ⟨(fdt32ToCpu_load h1).trans (Nat.mod_eq_of_lt (by omega)), fdt32ToCpu_load h2⟩

end Copies

namespace MemoryTree

variable (d : MemoryTree)

/-- The offset of the node. -/
def offset : ℕ := (tokenBytes (d.tokens.take d.node)).length

/-- The tokens behind the first one of the node. -/
def rest : List FdtToken := d.tokens.drop (d.node + 1)

/-- What libfdt finds: the node, and its place in the block. -/
theorem found : d.fdt.fdtNodeOffsetByPropValue "device_type" memoryBytes = .ok d.offset ∧
    ∃ name depth, d.fdt.LaidOut d.offset (.beginNode name :: d.rest) ∧
      WellFormed d.rest (depth + 1) true := by
  obtain ⟨⟨name, hname⟩, hmem⟩ := d.isMemory
  obtain ⟨hlt, hget⟩ := List.getElem?_eq_some_iff.1 hname
  have hdrop : d.tokens.drop d.node = .beginNode name :: d.rest := by
    rw [← hget]
    exact List.drop_eq_getElem_cons hlt
  have hsplit : d.tokens.take d.node ++ .beginNode name :: d.rest = d.tokens := by
    rw [← hdrop, List.take_append_drop]
  have hlaid := d.valid.laidOut
  have hlen := hlaid.length_lt
  have hshort : (d.tokens.take d.node).length < d.fdt.totalsize + 1 :=
    (List.length_take_le _ _).trans_lt (hlt.trans hlen)
  have hprobe := Fdt.fdtRoProbe_nonneg d.valid.header hlaid.totalsize
  have hspec := Fdt.nodeByPropValue_spec (hsplit.symm ▸ hlaid) (hsplit.symm ▸ d.valid.wellFormed)
    hmem (fun pre nm' post hpre => ?_) hshort hshort
  · rw [Nat.zero_add] at hspec
    obtain ⟨h1, h2, depth, h3⟩ := hspec
    exact ⟨(if_neg (not_lt.2 hprobe)).trans h1, name, depth, h2, h3⟩
  · -- a node before this one with the same value would be the first one
    intro hp
    have htokens : d.tokens = pre ++ .beginNode nm' :: (post ++ .beginNode name :: d.rest) := by
      rw [← hsplit, hpre, List.append_assoc, List.cons_append]
    have hbefore : pre.length < d.node := by
      have := List.length_take_le d.node d.tokens
      rw [hpre, List.length_append, List.length_cons] at this
      omega
    refine d.first pre.length hbefore ⟨⟨nm', ?_⟩, ?_⟩
    · rw [htokens, List.getElem?_append_right le_rfl, Nat.sub_self]
      rfl
    · rw [htokens, ← List.drop_drop, List.drop_left]
      exact hp

/-- The `reg` of the node in the block, and the word behind it, which is a tag. -/
theorem reg_at : ∃ n p, d.fdt.fdtGetprop d.offset "reg" = .ok (n, p) ∧
    d.fdt.structBlock.Reads p (encodeCells d.addressCells d.base) ∧
    d.fdt.structBlock.Reads (p + 4 * d.addressCells) (encodeCells d.sizeCells d.size) ∧
    d.fdt.fdt32 (p + 4 * d.addressCells + 4 * d.sizeCells) ≠ 0 := by
  obtain ⟨-, name, depth, hlaid, hwf⟩ := d.found
  obtain ⟨p, x, rest, hp, hreads, hbehind⟩ := Fdt.fdtGetprop_some hlaid hwf d.reg
  obtain ⟨hbase, hsize⟩ := Bytes.reads_append.1 hreads
  rw [List.length_append, length_encodeCells, length_encodeCells] at hbehind
  rw [length_encodeCells] at hsize
  refine ⟨_, p, hp, hbase, hsize, ?_⟩
  rw [show p + 4 * d.addressCells + 4 * d.sizeCells =
    p + fdtTagalign (4 * d.addressCells + 4 * d.sizeCells) by unfold fdtTagalign; omega,
    hbehind.fdt32_tag]
  exact x.tag_ne_zero

/-- The greater one of the counts that libfdt finds in the node itself. -/
def OwnCells (c : ℕ) : Prop :=
  ∃ a s, d.fdt.Cells "#address-cells" 2 d.rest a ∧ a ≠ 0 ∧ d.fdt.Cells "#size-cells" 1 d.rest s ∧
    c = max a s

/-- The count of the node itself is that of its parent for the address and for the size, or it is
one and what is lost is zero. -/
def Decodes : Prop :=
  ∃ c, d.OwnCells c ∧ (c = d.addressCells ∧ c = d.sizeCells ∨
    c = 1 ∧ d.size = 0 ∧ (d.addressCells = 1 ∨ d.base = 0))

section Words

variable {d} {p : ℕ}

/-- The first two cells of the `reg` are its base and its size. -/
theorem one_cell_iff (hbase : d.fdt.structBlock.Reads p (encodeCells d.addressCells d.base))
    (hsize : d.fdt.structBlock.Reads (p + 4 * d.addressCells) (encodeCells d.sizeCells d.size)) :
    d.fdt.fdt32 p = d.base ∧ d.fdt.fdt32 (p + 4) = d.size ↔
      1 = d.addressCells ∧ 1 = d.sizeCells ∨ d.size = 0 ∧ (d.addressCells = 1 ∨ d.base = 0) := by
  have hb := d.base_lt
  have hs := d.size_lt
  rcases d.addressCells_eq with ha | ha <;> rw [ha] at hbase hsize hb ⊢
  · have h0 : d.fdt.fdt32 p = d.base := reads_one hb hbase
    rcases d.sizeCells_eq with hc | hc <;> rw [hc] at hsize hs ⊢
    · have h1 : d.fdt.fdt32 (p + 4) = d.size := reads_one hs hsize
      omega
    · have h1 : d.fdt.fdt32 (p + 4) = d.size / 2 ^ 32 := (reads_two hs hsize).1
      omega
  · have h0 : d.fdt.fdt32 p = d.base / 2 ^ 32 := (reads_two hb hbase).1
    have h1 : d.fdt.fdt32 (p + 4) = d.base % 2 ^ 32 := (reads_two hb hbase).2
    omega

/-- The first four cells are the base and the size, two for each. -/
theorem two_cells_iff (hbase : d.fdt.structBlock.Reads p (encodeCells d.addressCells d.base))
    (hsize : d.fdt.structBlock.Reads (p + 4 * d.addressCells) (encodeCells d.sizeCells d.size))
    (htag : d.fdt.fdt32 (p + 4 * d.addressCells + 4 * d.sizeCells) ≠ 0) :
    d.fdt.fdt32 p * 2 ^ 32 + d.fdt.fdt32 (p + 4) = d.base ∧
        d.fdt.fdt32 (p + 8) * 2 ^ 32 + d.fdt.fdt32 (p + 12) = d.size ↔
      2 = d.addressCells ∧ 2 = d.sizeCells := by
  have hb := d.base_lt
  have hs := d.size_lt
  -- with fewer cells the last ones are read from the tag behind the property
  rcases d.addressCells_eq with ha | ha <;> rw [ha] at hbase hsize hb htag ⊢
  · have h0 : d.fdt.fdt32 p = d.base := reads_one hb hbase
    rcases d.sizeCells_eq with hc | hc <;> rw [hc] at hsize hs htag ⊢
    · have h1 : d.fdt.fdt32 (p + 4) = d.size := reads_one hs hsize
      replace htag : d.fdt.fdt32 (p + 8) ≠ 0 := htag
      omega
    · have h1 : d.fdt.fdt32 (p + 4) = d.size / 2 ^ 32 := (reads_two hs hsize).1
      have h2 : d.fdt.fdt32 (p + 8) = d.size % 2 ^ 32 := (reads_two hs hsize).2
      replace htag : d.fdt.fdt32 (p + 12) ≠ 0 := htag
      omega
  · have h0 : d.fdt.fdt32 p = d.base / 2 ^ 32 := (reads_two hb hbase).1
    have h1 : d.fdt.fdt32 (p + 4) = d.base % 2 ^ 32 := (reads_two hb hbase).2
    rcases d.sizeCells_eq with hc | hc <;> rw [hc] at hsize hs htag ⊢
    · have h2 : d.fdt.fdt32 (p + 8) = d.size := reads_one hs hsize
      replace htag : d.fdt.fdt32 (p + 12) ≠ 0 := htag
      omega
    · have h2 : d.fdt.fdt32 (p + 8) = d.size / 2 ^ 32 := (reads_two hs hsize).1
      have h3 : d.fdt.fdt32 (p + 12) = d.size % 2 ^ 32 := (reads_two hs hsize).2
      omega

end Words

section Init

variable {d} {kernelStart kernelEnd n p c : ℕ} {address size : Bytes} {m : KernelMapping}

/-- The counts are not negative where `kernel_map_init` comes to its end. -/
theorem cells_of_init (h : d.fdt.kernelMapInit kernelStart kernelEnd address size = some m) :
    ∃ a s : ℕ, d.fdt.fdtAddressCells d.offset = a ∧ d.fdt.fdtSizeCells d.offset = s := by
  unfold Fdt.kernelMapInit at h
  rw [if_neg (not_not.2 d.valid.header), d.found.1] at h
  dsimp only at h
  by_cases ha : d.fdt.fdtAddressCells d.offset < 0
  · rw [if_pos ha] at h
    exact nomatch h
  · by_cases hs : d.fdt.fdtSizeCells d.offset < 0
    · rw [if_neg ha, if_pos hs] at h
      exact nomatch h
    · obtain ⟨a, ha⟩ := Int.eq_ofNat_of_zero_le (not_lt.1 ha)
      obtain ⟨s, hs⟩ := Int.eq_ofNat_of_zero_le (not_lt.1 hs)
      exact ⟨a, s, ha, hs⟩

/-- With the counts, what remains are the copies. -/
theorem init_eq {a s : ℕ} (ha : d.fdt.fdtAddressCells d.offset = a)
    (hs : d.fdt.fdtSizeCells d.offset = s) (hc : c = max a s)
    (hp : d.fdt.fdtGetprop d.offset "reg" = .ok (n, p)) :
    d.fdt.kernelMapInit kernelStart kernelEnd address size =
      (copyVariable d.fdt.structBlock p (4 * c) address).bind fun address =>
        (copyVariable d.fdt.structBlock (p + 4 * c) (4 * c) size).bind fun size =>
          some (kernelMapInit kernelStart kernelEnd (cellsToCpu c address)
            (cellsToCpu c size)) := by
  have hmax : (if (a : ℤ) > s then (a : ℤ) else s) = c := by
    subst hc
    split_ifs <;> omega
  unfold Fdt.kernelMapInit
  rw [if_neg (not_not.2 d.valid.header), d.found.1]
  dsimp only
  rw [ha, hs, if_neg (by omega), if_neg (by omega), hp, hmax]
  rfl

/-- One cell for each. -/
theorem init_one {a s : ℕ} (ha : d.fdt.fdtAddressCells d.offset = a)
    (hs : d.fdt.fdtSizeCells d.offset = s) (hc : 1 = max a s)
    (hp : d.fdt.fdtGetprop d.offset "reg" = .ok (n, p)) :
    d.fdt.kernelMapInit kernelStart kernelEnd address size =
      some (kernelMapInit kernelStart kernelEnd (d.fdt.fdt32 p) (d.fdt.fdt32 (p + 4))) := by
  obtain ⟨x, hx, hxval⟩ := copyVariable_four d.fdt.structBlock address p
  obtain ⟨y, hy, hyval⟩ := copyVariable_four d.fdt.structBlock size (p + 4)
  rw [init_eq ha hs hc hp, Nat.mul_one, hx, Option.bind_some, hy, Option.bind_some, Nat.cast_one,
    hxval, hyval]
  simp only [Fdt.fdt32]

/-- Two cells for each. -/
theorem init_two {a s : ℕ} (ha : d.fdt.fdtAddressCells d.offset = a)
    (hs : d.fdt.fdtSizeCells d.offset = s) (hc : 2 = max a s)
    (hp : d.fdt.fdtGetprop d.offset "reg" = .ok (n, p)) :
    d.fdt.kernelMapInit kernelStart kernelEnd address size =
      some (kernelMapInit kernelStart kernelEnd
        (d.fdt.fdt32 p * 2 ^ 32 + d.fdt.fdt32 (p + 4))
        (d.fdt.fdt32 (p + 8) * 2 ^ 32 + d.fdt.fdt32 (p + 12))) := by
  obtain ⟨x, hx, hxval⟩ := copyVariable_eight d.fdt.structBlock address p
  obtain ⟨y, hy, hyval⟩ := copyVariable_eight d.fdt.structBlock size (p + 8)
  rw [init_eq ha hs hc hp, show 4 * 2 = 8 from rfl, hx, Option.bind_some, hy, Option.bind_some,
    Nat.cast_ofNat, hxval, hyval]
  simp only [Fdt.fdt32, Nat.add_assoc, Nat.reduceAdd]

end Init

/-- `kernel_map_init` stores the base and the size of the memory exactly where the counts of the
memory node itself are those of its parent, both the same, or nothing but zeros is lost. -/
theorem memory_node_iff (kernelStart kernelEnd : ℕ) (address size : Bytes) :
    (∃ m, d.fdt.kernelMapInit kernelStart kernelEnd address size = some m ∧
      m.paStMemory = d.base ∧ m.sizeMemory = d.size) ↔ d.Decodes := by
  obtain ⟨-, name, depth, hlaid, hwf⟩ := d.found
  obtain ⟨n, p, hp, hbase, hsize, htag⟩ := d.reg_at
  have haddr := Fdt.fdtAddressCells_iff hlaid hwf
  have hsz := Fdt.fdtSizeCells_iff hlaid hwf
  constructor
  · rintro ⟨m, hm, hmbase, hmsize⟩
    obtain ⟨a, s, ha, hs⟩ := cells_of_init hm
    obtain ⟨hca, ha0⟩ := (haddr a).1 ha
    refine ⟨max a s, ⟨a, s, hca, ha0, (hsz s).1 hs, rfl⟩, ?_⟩
    obtain hc | hc | hc : 1 = max a s ∨ 2 = max a s ∨ 2 < max a s := by omega
    · rw [init_one ha hs hc hp] at hm
      cases hm
      rw [← hc]
      have hiff := (one_cell_iff hbase hsize).1 ⟨hmbase, hmsize⟩
      omega
    · rw [init_two ha hs hc hp] at hm
      cases hm
      rw [← hc]
      exact .inl ((two_cells_iff hbase hsize htag).1 ⟨hmbase, hmsize⟩)
    · -- the first copy is out of bounds
      rw [init_eq ha hs rfl hp, copyVariable_of_lt (by omega)] at hm
      exact nomatch hm
  · rintro ⟨c, ⟨a, s, hca, ha0, hcs, hc⟩, hcond⟩
    have ha := (haddr a).2 ⟨hca, ha0⟩
    have hs := (hsz s).2 hcs
    have h12 : c = 1 ∨ c = 2 := by
      have := d.addressCells_eq
      omega
    rcases h12 with rfl | rfl
    · refine ⟨_, init_one ha hs hc hp, (one_cell_iff hbase hsize).2 ?_⟩
      omega
    · refine ⟨_, init_two ha hs hc hp, (two_cells_iff hbase hsize htag).2 ?_⟩
      omega

/-! ### A machine with one memory node -/

/-- A tree whose root has `k` cells for each, and below it the memory at `0x80000000`. -/
def machineTokens (k : ℕ) : List FdtToken :=
  [.beginNode [], .prop 0 (cellBytes k), .prop 15 (cellBytes k), .beginNode memoryBytes.dropLast,
    .prop 27 memoryBytes, .prop 39 (encodeCells k 0x80000000 ++ encodeCells k 0x8000000), .endNode,
    .endNode, .fdtEnd]

/-- The strings of this tree. -/
def machineStrings : List (BitVec 8) :=
  stringBytes "#address-cells" ++ 0 :: stringBytes "#size-cells" ++ 0 ::
    stringBytes "device_type" ++ 0 :: stringBytes "reg" ++ [0]

/-- The tree in memory. -/
def machineFdt (k : ℕ) : Fdt where
  address := 0x87000000
  magic := fdtMagic
  totalsize := 99 + (tokenBytes (machineTokens k)).length
  offDtStruct := 56
  offDtStrings := 56 + (tokenBytes (machineTokens k)).length
  offMemRsvmap := 40
  version := 17
  lastCompVersion := 16
  sizeDtStrings := 43
  sizeDtStruct := (tokenBytes (machineTokens k)).length
  blob := fun i =>
    if i < 56 then 0 else (tokenBytes (machineTokens k) ++ machineStrings).getD (i - 56) 0

section Machine

variable {k : ℕ}

theorem machine_laidOut (hk : k = 1 ∨ k = 2) : (machineFdt k).LaidOut 0 (machineTokens k) where
  aligned := rfl
  version := Nat.le_succ 16
  totalsize := by rcases hk with rfl | rfl <;> decide
  room := by rcases hk with rfl | rfl <;> decide
  size := fun _ => (Nat.zero_add _).le
  reads := by
    unfold Bytes.Reads
    rcases hk with rfl | rfl <;> decide +kernel
  valid := by simp [machineTokens, FdtToken.Valid, memoryBytes]

theorem machine_valid (hk : k = 1 ∨ k = 2) : (machineFdt k).Valid (machineTokens k) where
  header := by rcases hk with rfl | rfl <;> decide
  laidOut := machine_laidOut hk
  wellFormed := by simp [machineTokens, WellFormed]

theorem machine_isMemory (hk : k = 1 ∨ k = 2) : IsMemory (machineFdt k) (machineTokens k) 3 :=
  ⟨⟨_, rfl⟩, by rcases hk with rfl | rfl <;> decide +kernel⟩

theorem machine_first (hk : k = 1 ∨ k = 2) :
    ∀ i < 3, ¬ IsMemory (machineFdt k) (machineTokens k) i := by
  rintro i hi ⟨-, hp⟩
  have hno : ∀ i < 3,
      (machineFdt k).property "device_type" ((machineTokens k).drop (i + 1)) = none := by
    rcases hk with rfl | rfl <;> decide +kernel
  rw [hno i hi] at hp
  cases hp

theorem machine_lt (hk : k = 1 ∨ k = 2) : 0x80000000 < 2 ^ (32 * k) := by
  rcases hk with rfl | rfl <;> decide

/-- The tree as one whose memory node is known. -/
def machineTree (hk : k = 1 ∨ k = 2) : MemoryTree where
  fdt := machineFdt k
  tokens := machineTokens k
  valid := machine_valid hk
  node := 3
  parent := 0
  addressCells := k
  sizeCells := k
  base := 0x80000000
  size := 0x8000000
  isMemory := machine_isMemory hk
  first := machine_first hk
  parent_eq := rfl
  parent_addressCells := by rcases hk with rfl | rfl <;> decide +kernel
  parent_sizeCells := by rcases hk with rfl | rfl <;> decide +kernel
  addressCells_eq := hk
  sizeCells_eq := hk
  base_lt := machine_lt hk
  size_lt := (show 0x8000000 < 0x80000000 by decide).trans (machine_lt hk)
  reg := by rcases hk with rfl | rfl <;> decide +kernel

/-- The memory node has no counts of its own: two cells and one, so two for each. -/
theorem machineTree_ownCells (hk : k = 1 ∨ k = 2) : (machineTree hk).OwnCells 2 := by
  refine ⟨2, 1, .inl ⟨?_, rfl⟩, by decide, .inl ⟨?_, rfl⟩, rfl⟩
  · rcases hk with rfl | rfl <;> decide +kernel
  · rcases hk with rfl | rfl <;> decide +kernel

end Machine

/-- A root with two cells for each. -/
theorem memory_node_two : ∃ m, (machineTree (.inr rfl)).fdt.kernelMapInit 0x80200000 0x80400000
    (fun _ => 0) (fun _ => 0) = some m ∧ m.paStMemory = 0x80000000 ∧ m.sizeMemory = 0x8000000 :=
  ((machineTree (.inr rfl)).memory_node_iff ..).2
    ⟨2, machineTree_ownCells _, .inl ⟨rfl, rfl⟩⟩

/-- With one cell for each, the base that is stored is base and size together. -/
theorem not_memory_node : ¬ ∀ (d : MemoryTree) (kernelStart kernelEnd : ℕ) (address size : Bytes),
    ∃ m, d.fdt.kernelMapInit kernelStart kernelEnd address size = some m ∧
      m.paStMemory = d.base ∧ m.sizeMemory = d.size := fun h => by
  obtain ⟨m, hm, hbase, -⟩ :=
    h (machineTree (.inl rfl)) 0x80200000 0x80400000 (fun _ => 0) (fun _ => 0)
  have hrun : ((machineTree (.inl rfl)).fdt.kernelMapInit 0x80200000 0x80400000 (fun _ => 0)
      (fun _ => 0)).map KernelMapping.paStMemory = some 0x8000000008000000 := by decide +kernel
  rw [hm, Option.map_some, hbase] at hrun
  exact absurd hrun (by decide)

end MemoryTree

end AcoOs
