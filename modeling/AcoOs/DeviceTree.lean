/-
The device tree, as libfdt reads it.

The functions here are those that `kernel_map_init` calls, with every look at the bytes of the
structure block and every check on the way.

The model follows `byteorder.h` and, in libfdt, `fdt.c`, `fdt_ro.c` and `fdt_addresses.c`.
-/
import AcoOs.Memblock
import AcoOs.EarlyKernel

namespace AcoOs

/-! ### `byteorder.h` -/

/-- `___constant_swab32`. -/
def constantSwab32 (x : ℕ) : ℕ :=
  ((x &&& 0x000000ff) <<< 24) ||| ((x &&& 0x0000ff00) <<< 8) |||
    ((x &&& 0x00ff0000) >>> 8) ||| ((x &&& 0xff000000) >>> 24)

/-- `___constant_swab64`. -/
def constantSwab64 (x : ℕ) : ℕ :=
  ((x &&& 0x00000000000000ff) <<< 56) ||| ((x &&& 0x000000000000ff00) <<< 40) |||
    ((x &&& 0x0000000000ff0000) <<< 24) ||| ((x &&& 0x00000000ff000000) <<< 8) |||
    ((x &&& 0x000000ff00000000) >>> 8) ||| ((x &&& 0x0000ff0000000000) >>> 24) |||
    ((x &&& 0x00ff000000000000) >>> 40) ||| ((x &&& 0xff00000000000000) >>> 56)

/-- `fdt32_to_cpu`. -/
def fdt32ToCpu (x : ℕ) : ℕ := constantSwab32 (x % 2 ^ 32)

/-- `fdt64_to_cpu`. -/
def fdt64ToCpu (x : ℕ) : ℕ := constantSwab64 (x % 2 ^ 64)

/-- One byte of a word. -/
theorem and_byte (x k : ℕ) : x &&& 255 * 2 ^ k = x / 2 ^ k % 256 * 2 ^ k := by
  have h : (x >>> k) &&& 255 = x / 2 ^ k % 256 := by
    rw [Nat.shiftRight_eq_div_pow]
    exact Nat.and_two_pow_sub_one_eq_mod _ 8
  rw [← h, ← Nat.shiftLeft_eq, ← Nat.shiftLeft_eq]
  refine Nat.eq_of_testBit_eq fun i => ?_
  rw [Nat.testBit_and, Nat.testBit_shiftLeft, Nat.testBit_shiftLeft, Nat.testBit_and,
    Nat.testBit_shiftRight]
  by_cases hi : k ≤ i
  · rw [show k + (i - k) = i by omega]
    simp [hi]
  · simp [hi]

theorem or_eq_add {a b : ℕ} (k : ℕ) (ha : 2 ^ k ∣ a) (hb : b < 2 ^ k) : a ||| b = a + b := by
  obtain ⟨c, rfl⟩ := ha
  rw [← Nat.two_pow_add_eq_or_of_lt hb]

theorem constantSwab32_eq (x : ℕ) : constantSwab32 x =
    x % 256 * 2 ^ 24 + x / 2 ^ 8 % 256 * 2 ^ 16 + x / 2 ^ 16 % 256 * 2 ^ 8 +
      x / 2 ^ 24 % 256 := by
  unfold constantSwab32
  have h0 : x &&& 0x000000ff = x % 256 := Nat.and_two_pow_sub_one_eq_mod x 8
  have h1 : x &&& 0x0000ff00 = x / 2 ^ 8 % 256 * 2 ^ 8 := and_byte x 8
  have h2 : x &&& 0x00ff0000 = x / 2 ^ 16 % 256 * 2 ^ 16 := and_byte x 16
  have h3 : x &&& 0xff000000 = x / 2 ^ 24 % 256 * 2 ^ 24 := and_byte x 24
  rw [h0, h1, h2, h3]
  simp only [Nat.shiftLeft_eq, Nat.shiftRight_eq_div_pow]
  rw [or_eq_add (a := _ * _) 24 (by omega) (by omega),
    or_eq_add (a := _ + _) 16 (by omega) (by omega), or_eq_add (a := _ + _) 8 (by omega) (by omega)]
  omega

/-- The words change their places too. -/
theorem constantSwab64_eq (x : ℕ) : constantSwab64 x =
    constantSwab32 x * 2 ^ 32 + constantSwab32 (x / 2 ^ 32) := by
  rw [constantSwab32_eq, constantSwab32_eq]
  simp only [Nat.div_div_eq_div_mul, ← pow_add, Nat.reduceAdd]
  unfold constantSwab64
  have h0 : x &&& 0x00000000000000ff = x % 256 := Nat.and_two_pow_sub_one_eq_mod x 8
  have h1 : x &&& 0x000000000000ff00 = x / 2 ^ 8 % 256 * 2 ^ 8 := and_byte x 8
  have h2 : x &&& 0x0000000000ff0000 = x / 2 ^ 16 % 256 * 2 ^ 16 := and_byte x 16
  have h3 : x &&& 0x00000000ff000000 = x / 2 ^ 24 % 256 * 2 ^ 24 := and_byte x 24
  have h4 : x &&& 0x000000ff00000000 = x / 2 ^ 32 % 256 * 2 ^ 32 := and_byte x 32
  have h5 : x &&& 0x0000ff0000000000 = x / 2 ^ 40 % 256 * 2 ^ 40 := and_byte x 40
  have h6 : x &&& 0x00ff000000000000 = x / 2 ^ 48 % 256 * 2 ^ 48 := and_byte x 48
  have h7 : x &&& 0xff00000000000000 = x / 2 ^ 56 % 256 * 2 ^ 56 := and_byte x 56
  rw [h0, h1, h2, h3, h4, h5, h6, h7]
  simp only [Nat.shiftLeft_eq, Nat.shiftRight_eq_div_pow]
  rw [or_eq_add (a := _ * _) 56 (by omega) (by omega),
    or_eq_add (a := _ + _) 48 (by omega) (by omega),
    or_eq_add (a := _ + _) 40 (by omega) (by omega),
    or_eq_add (a := _ + _) 32 (by omega) (by omega),
    or_eq_add (a := _ + _) 24 (by omega) (by omega),
    or_eq_add (a := _ + _) 16 (by omega) (by omega), or_eq_add (a := _ + _) 8 (by omega) (by omega)]
  omega

/-- The bytes of a word in the other order. -/
theorem constantSwab32_bytes {a b c d : ℕ} (ha : a < 2 ^ 8) (hb : b < 2 ^ 8) (hc : c < 2 ^ 8)
    (hd : d < 2 ^ 8) : constantSwab32 (a + 2 ^ 8 * (b + 2 ^ 8 * (c + 2 ^ 8 * (d + 2 ^ 8 * 0)))) =
      a * 2 ^ 24 + b * 2 ^ 16 + c * 2 ^ 8 + d := by
  rw [constantSwab32_eq]
  omega

theorem constantSwab32_mod (x : ℕ) : constantSwab32 (x % 2 ^ 32) = constantSwab32 x := by
  rw [constantSwab32_eq, constantSwab32_eq]
  omega

/-! ### Sequences of bytes -/

namespace Bytes

/-- The `n` bytes at `a`. -/
def bytesAt (m : Bytes) (a : ℕ) : ℕ → List (BitVec 8)
  | 0 => []
  | n + 1 => m a :: bytesAt m (a + 1) n

/-- The bytes at `a` are `l`. -/
def Reads (m : Bytes) (a : ℕ) (l : List (BitVec 8)) : Prop := m.bytesAt a l.length = l

/-- The bytes at `a` up to a NUL that `memchr` finds among `n` bytes. -/
def untilNul (m : Bytes) (a : ℕ) : ℕ → Option (List (BitVec 8))
  | 0 => none
  | n + 1 => if m a = 0 then some [] else (untilNul m (a + 1) n).map (m a :: ·)

section Reads

variable {m : Bytes} {a n k : ℕ} {b : BitVec 8} {l l' : List (BitVec 8)}

theorem bytesAt_add (m : Bytes) (a n k : ℕ) :
    m.bytesAt a (n + k) = m.bytesAt a n ++ m.bytesAt (a + n) k := by
  induction n generalizing a with
  | zero => rw [Nat.zero_add, Nat.add_zero, bytesAt, List.nil_append]
  | succ n ih =>
    rw [Nat.succ_add, bytesAt, bytesAt, ih, List.cons_append, Nat.add_right_comm, Nat.add_assoc]

theorem length_bytesAt (m : Bytes) (a n : ℕ) : (m.bytesAt a n).length = n := by
  induction n generalizing a with
  | zero => rfl
  | succ n ih => rw [bytesAt, List.length_cons, ih]

theorem reads_append :
    m.Reads a (l ++ l') ↔ m.Reads a l ∧ m.Reads (a + l.length) l' := by
  unfold Reads
  rw [List.length_append, bytesAt_add]
  constructor
  · exact fun h => List.append_inj h (length_bytesAt m a l.length)
  · rintro ⟨h1, h2⟩
    rw [h1, h2]

theorem reads_cons : m.Reads a (b :: l) ↔ m a = b ∧ m.Reads (a + 1) l :=
  List.cons.injEq .. ▸ Iff.rfl

theorem load_add (m : Bytes) (a n k : ℕ) :
    m.load a (n + k) = m.load a n + 2 ^ (8 * n) * m.load (a + n) k := by
  induction n generalizing a with
  | zero => rw [Nat.zero_add, Nat.add_zero, load, Nat.mul_zero, pow_zero, Nat.one_mul, Nat.zero_add]
  | succ n ih =>
    rw [Nat.succ_add, load, load, ih, Nat.add_right_comm a 1 n, Nat.add_assoc a n 1, Nat.mul_add,
      Nat.add_assoc, ← Nat.mul_assoc, ← pow_add, show 8 + 8 * n = 8 * (n + 1) by omega]

end Reads

end Bytes

/-- The bytes of a string without its NUL. -/
def stringBytes (s : String) : List (BitVec 8) := s.toList.map fun ch => .ofNat 8 ch.toNat

/-- A cell: four bytes, the highest one first. -/
def cellBytes (n : ℕ) : List (BitVec 8) :=
  [.ofNat 8 (n / 2 ^ 24), .ofNat 8 (n / 2 ^ 16), .ofNat 8 (n / 2 ^ 8), .ofNat 8 n]

/-- What `fdt32_to_cpu` makes of a cell. -/
theorem fdt32ToCpu_load {m : Bytes} {a n : ℕ} (h : m.Reads a (cellBytes n)) :
    fdt32ToCpu (m.load a 4) = n % 2 ^ 32 := by
  obtain ⟨h0, h⟩ := Bytes.reads_cons.1 h
  obtain ⟨h1, h⟩ := Bytes.reads_cons.1 h
  obtain ⟨h2, h⟩ := Bytes.reads_cons.1 h
  obtain ⟨h3, -⟩ := Bytes.reads_cons.1 h
  rw [fdt32ToCpu, constantSwab32_mod]
  simp only [Bytes.load, h0, h1, h2, h3, BitVec.toNat_ofNat]
  rw [constantSwab32_bytes (Nat.mod_lt _ (by decide)) (Nat.mod_lt _ (by decide))
    (Nat.mod_lt _ (by decide)) (Nat.mod_lt _ (by decide))]
  omega

/-! ### The header -/

/-- `FDT_MAGIC`. -/
def fdtMagic : ℕ := 0xd00dfeed

/-- `FDT_ERR_NOTFOUND`. -/
def fdtErrNotfound : ℤ := 1

/-- `FDT_ERR_BADOFFSET`. -/
def fdtErrBadoffset : ℤ := 4

/-- `FDT_ERR_BADSTATE`. -/
def fdtErrBadstate : ℤ := 7

/-- `FDT_ERR_TRUNCATED`. -/
def fdtErrTruncated : ℤ := 8

/-- `FDT_ERR_BADMAGIC`. -/
def fdtErrBadmagic : ℤ := 9

/-- `FDT_ERR_BADVERSION`. -/
def fdtErrBadversion : ℤ := 10

/-- `FDT_ERR_BADSTRUCTURE`. -/
def fdtErrBadstructure : ℤ := 11

/-- `FDT_ERR_INTERNAL`. -/
def fdtErrInternal : ℤ := 13

/-- `FDT_ERR_BADNCELLS`. -/
def fdtErrBadncells : ℤ := 14

/-- `FDT_ERR_ALIGNMENT`. -/
def fdtErrAlignment : ℤ := 19

/-- `INT_MAX`. -/
def intMax : ℕ := 2 ^ 31 - 1

/-- A device tree at an address: the words of its header, and the memory from there on. -/
structure Fdt where
  address : ℕ
  magic : ℕ
  totalsize : ℕ
  offDtStruct : ℕ
  offDtStrings : ℕ
  offMemRsvmap : ℕ
  version : ℕ
  lastCompVersion : ℕ
  sizeDtStrings : ℕ
  sizeDtStruct : ℕ
  blob : Bytes

/-- `check_off_`. -/
def checkOff (hdrsize totalsize off : ℕ) : Bool := hdrsize ≤ off ∧ off ≤ totalsize

/-- `check_block_`. -/
def checkBlock (hdrsize totalsize base size : ℕ) : Bool :=
  if !checkOff hdrsize totalsize base then false
  else if (base + size) % 2 ^ 32 < base then false
  else checkOff hdrsize totalsize ((base + size) % 2 ^ 32)

/-- `fdt_header_size_`. -/
def fdtHeaderSize (version : ℕ) : ℕ :=
  if version ≤ 1 then 28
  else if version ≤ 2 then 32
  else if version ≤ 3 then 36
  else if version ≤ 16 then 36
  else 40

namespace Fdt

variable (t : Fdt)

/-- `fdt_check_header`. -/
def fdtCheckHeader : ℤ :=
  let hdrsize := fdtHeaderSize t.version
  if t.address % 8 ≠ 0 then -fdtErrAlignment
  else if t.magic ≠ fdtMagic then -fdtErrBadmagic
  else if t.version < 0x02 ∨ 0x11 < t.lastCompVersion then -fdtErrBadversion
  else if t.version < t.lastCompVersion then -fdtErrBadversion
  else if t.totalsize < hdrsize ∨ intMax < t.totalsize then -fdtErrTruncated
  else if !checkOff hdrsize t.totalsize t.offMemRsvmap then -fdtErrTruncated
  else if t.version < 17 ∧ !checkOff hdrsize t.totalsize t.offDtStruct then -fdtErrTruncated
  else if ¬ t.version < 17 ∧ !checkBlock hdrsize t.totalsize t.offDtStruct t.sizeDtStruct then
    -fdtErrTruncated
  else if !checkBlock hdrsize t.totalsize t.offDtStrings t.sizeDtStrings then -fdtErrTruncated
  else 0

/-- `fdt_ro_probe_`. -/
def fdtRoProbe : ℤ :=
  if t.address % 8 ≠ 0 then -fdtErrAlignment
  else if t.magic = fdtMagic then
    if t.version < 0x02 ∨ 0x11 < t.lastCompVersion then -fdtErrBadversion
    else if t.totalsize < intMax then t.totalsize else -fdtErrTruncated
  else if t.magic = 2 ^ 32 - 1 - fdtMagic then
    if t.sizeDtStruct = 0 then -fdtErrBadstate
    else if t.totalsize < intMax then t.totalsize else -fdtErrTruncated
  else -fdtErrBadmagic

variable {t} in
theorem fdtRoProbe_nonneg (h : t.fdtCheckHeader = 0) (ht : t.totalsize < intMax) :
    0 ≤ t.fdtRoProbe := by
  unfold fdtCheckHeader at h
  split_ifs at h with haddress hmagic hversion
  all_goals try exact absurd h (by decide)
  unfold fdtRoProbe
  rw [if_neg haddress, if_pos (not_not.1 hmagic), if_neg hversion, if_pos ht]
  exact Int.natCast_nonneg _

/-! ### The tags -/

/-- Whether `fdt_offset_ptr` gives a pointer. -/
def fdtOffsetPtr (offset len : ℕ) : Bool :=
  let absoffset := (offset + t.offDtStruct) % 2 ^ 32
  if absoffset < offset ∨ (absoffset + len) % 2 ^ 32 < absoffset ∨
      t.totalsize < (absoffset + len) % 2 ^ 32 then false
  else if 0x11 ≤ t.version ∧
      ((offset + len) % 2 ^ 32 < offset ∨ t.sizeDtStruct < (offset + len) % 2 ^ 32) then false
  else true

/-- The memory from the structure block on. -/
def structBlock : Bytes := fun i => t.blob (t.offDtStruct + i)

/-- `fdt32_to_cpu` of the word at an offset of the structure block. -/
def fdt32 (offset : ℕ) : ℕ := fdt32ToCpu (t.structBlock.load offset 4)

end Fdt

/-- `FDT_BEGIN_NODE`. -/
def fdtBeginNode : ℕ := 0x1

/-- `FDT_END_NODE`. -/
def fdtEndNode : ℕ := 0x2

/-- `FDT_PROP`. -/
def fdtProp : ℕ := 0x3

/-- `FDT_NOP`. -/
def fdtNop : ℕ := 0x4

/-- `FDT_END`. -/
def fdtEnd : ℕ := 0x9

/-- `FDT_TAGALIGN`. -/
def fdtTagalign (x : ℕ) : ℕ := (x + 3) / 4 * 4

namespace Fdt

variable (t : Fdt)

/-- The loop of `fdt_next_tag` over a name: the offset behind its last byte.  The first argument
bounds its length. -/
def skipName : ℕ → ℕ → Option ℕ
  | 0, _ => none
  | n + 1, offset =>
    if !t.fdtOffsetPtr offset 1 then none
    else if t.structBlock offset ≠ 0 then skipName n (offset + 1)
    else some (offset + 1)

/-- The `switch` of `fdt_next_tag`: the offset behind what belongs to the tag. -/
def skipTag (tag offset : ℕ) : Option ℕ :=
  if tag = fdtBeginNode then t.skipName (t.totalsize + 1) offset
  else if tag = fdtProp then
    if !t.fdtOffsetPtr offset 4 then none
    else
      let len := t.fdt32 offset
      let sum := (len + offset) % 2 ^ 32
      if intMax ≤ sum ∨ sum < offset then none
      else
        let offset := offset + 8 + len
        if t.version < 0x10 ∧ 8 ≤ len ∧ (offset - len) % 8 ≠ 0 then some (offset + 4)
        else some offset
  else if tag = fdtEnd ∨ tag = fdtEndNode ∨ tag = fdtNop then some offset
  else none

/-- `fdt_next_tag`: the tag, and the next offset or an error. -/
def fdtNextTag (startoffset : ℕ) : ℕ × Except ℤ ℕ :=
  if !t.fdtOffsetPtr startoffset 4 then (fdtEnd, .error (-fdtErrTruncated))
  else
    let tag := t.fdt32 startoffset
    match t.skipTag tag (startoffset + 4) with
    | none => (fdtEnd, .error (-fdtErrBadstructure))
    | some offset =>
      if !t.fdtOffsetPtr startoffset (offset - startoffset) then
        (fdtEnd, .error (-fdtErrBadstructure))
      else (tag, .ok (fdtTagalign offset))

/-- `fdt_check_node_offset_` and `fdt_check_prop_offset_`. -/
def checkOffset (tag offset : ℕ) : Except ℤ ℕ :=
  if offset % 4 ≠ 0 then .error (-fdtErrBadoffset)
  else if (t.fdtNextTag offset).1 ≠ tag then .error (-fdtErrBadoffset)
  else (t.fdtNextTag offset).2

/-- `fdt_check_node_offset_`. -/
def fdtCheckNodeOffset (offset : ℕ) : Except ℤ ℕ := t.checkOffset fdtBeginNode offset

/-- `fdt_check_prop_offset_`. -/
def fdtCheckPropOffset (offset : ℕ) : Except ℤ ℕ := t.checkOffset fdtProp offset

/-! ### The nodes

The first argument of a loop bounds its steps: each one is over a tag within `totalsize`. -/

/-- The loop of `fdt_next_node`, without `depth`. -/
def nextNode : ℕ → ℕ → Except ℤ ℕ
  | 0, _ => .error (-fdtErrInternal)
  | n + 1, offset =>
    let tag := (t.fdtNextTag offset).1
    match (t.fdtNextTag offset).2 with
    | .ok nextoffset =>
      if tag = fdtBeginNode then .ok offset
      else if tag = fdtEnd then .error (-fdtErrNotfound)
      else nextNode n nextoffset
    | .error e => if e = -fdtErrTruncated then .error (-fdtErrNotfound) else .error e

/-- `fdt_next_node` without `depth`, from a node on or, with `none`, from the beginning on. -/
def fdtNextNode : Option ℕ → Except ℤ ℕ
  | none => t.nextNode (t.totalsize + 1) 0
  | some offset => (t.fdtCheckNodeOffset offset).bind fun nextoffset =>
    t.nextNode (t.totalsize + 1) nextoffset

/-! ### The strings -/

/-- `fdt_get_string`. -/
def fdtGetString (stroffset : ℕ) : Option (List (BitVec 8)) :=
  if t.fdtRoProbe < 0 then none
  else
    let absoffset : ℕ := (stroffset + t.offDtStrings) % 2 ^ 32
    if t.fdtRoProbe ≤ absoffset then none
    else
      let len := t.fdtRoProbe.toNat - absoffset
      if t.magic = fdtMagic then
        -- `stroffset` is an `int`
        if 2 ^ 31 ≤ stroffset then none
        else if 17 ≤ t.version then
          if t.sizeDtStrings ≤ stroffset then none
          else t.blob.untilNul absoffset (min len (t.sizeDtStrings - stroffset))
        else t.blob.untilNul absoffset len
      else
        let swStroffset := (2 ^ 32 - stroffset) % 2 ^ 32
        if stroffset < 2 ^ 31 ∨ t.sizeDtStrings < swStroffset then none
        else t.blob.untilNul absoffset (min len swStroffset)

/-- `fdt_string_eq_`. -/
def fdtStringEq (stroffset : ℕ) (s : String) : Bool :=
  t.fdtGetString stroffset = some (stringBytes s)

/-! ### The properties of a node -/

/-- The loop of `nextprop_`. -/
def nextProp : ℕ → ℕ → Except ℤ ℕ
  | 0, _ => .error (-fdtErrInternal)
  | n + 1, offset =>
    let tag := (t.fdtNextTag offset).1
    match (t.fdtNextTag offset).2 with
    | .ok nextoffset =>
      if tag = fdtEnd then .error (-fdtErrBadstructure)
      else if tag = fdtProp then .ok offset
      else if tag = fdtNop then nextProp n nextoffset
      else .error (-fdtErrNotfound)
    | .error e => .error e

/-- `fdt_first_property_offset`. -/
def fdtFirstPropertyOffset (nodeoffset : ℕ) : Except ℤ ℕ :=
  (t.fdtCheckNodeOffset nodeoffset).bind (t.nextProp (t.totalsize + 1))

/-- `fdt_next_property_offset`. -/
def fdtNextPropertyOffset (offset : ℕ) : Except ℤ ℕ :=
  (t.fdtCheckPropOffset offset).bind (t.nextProp (t.totalsize + 1))

/-- The loop of `fdt_get_property_namelen_`. -/
def getProperty (name : String) : ℕ → Except ℤ ℕ → Except ℤ ℕ
  | _, .error e => .error e
  | 0, .ok _ => .error (-fdtErrInternal)
  | n + 1, .ok offset =>
    match t.fdtCheckPropOffset offset with
    | .error _ => .error (-fdtErrInternal)
    | .ok _ =>
      if t.fdtStringEq (t.fdt32 (offset + 8)) name then .ok offset
      else getProperty name n (t.fdtNextPropertyOffset offset)

/-- `fdt_getprop`: the length of the property and the offset of its bytes. -/
def fdtGetprop (nodeoffset : ℕ) (name : String) : Except ℤ (ℕ × ℕ) :=
  (t.getProperty name (t.totalsize + 1) (t.fdtFirstPropertyOffset nodeoffset)).map fun poffset =>
    let len := t.fdt32 (poffset + 4)
    if t.version < 0x10 ∧ (poffset + 12) % 8 ≠ 0 ∧ 8 ≤ len then (len, poffset + 16)
    else (len, poffset + 12)

/-- The loop of `fdt_node_offset_by_prop_value`. -/
def nodeByPropValue (propname : String) (propval : List (BitVec 8)) :
    ℕ → Except ℤ ℕ → Except ℤ ℕ
  | _, .error e => .error e
  | 0, .ok _ => .error (-fdtErrInternal)
  | n + 1, .ok offset =>
    match t.fdtGetprop offset propname with
    | .error _ => nodeByPropValue propname propval n (t.fdtNextNode (some offset))
    | .ok (len, val) =>
      if len = propval.length ∧ t.structBlock.bytesAt val len = propval then .ok offset
      else nodeByPropValue propname propval n (t.fdtNextNode (some offset))

/-- `fdt_node_offset_by_prop_value` from the beginning on. -/
def fdtNodeOffsetByPropValue (propname : String) (propval : List (BitVec 8)) : Except ℤ ℕ :=
  if t.fdtRoProbe < 0 then .error t.fdtRoProbe
  else t.nodeByPropValue propname propval (t.totalsize + 1) (t.fdtNextNode none)

/-! ### `fdt_addresses.c` -/

/-- `fdt_cells`. -/
def fdtCells (nodeoffset : ℕ) (name : String) : ℤ :=
  match t.fdtGetprop nodeoffset name with
  | .error e => e
  | .ok (len, c) =>
    if len ≠ 4 then -fdtErrBadncells
    else if 4 < t.fdt32 c then -fdtErrBadncells
    else t.fdt32 c

/-- `fdt_address_cells`. -/
def fdtAddressCells (nodeoffset : ℕ) : ℤ :=
  let val := t.fdtCells nodeoffset "#address-cells"
  if val = 0 then -fdtErrBadncells
  else if val = -fdtErrNotfound then 2
  else val

/-- `fdt_size_cells`. -/
def fdtSizeCells (nodeoffset : ℕ) : ℤ :=
  let val := t.fdtCells nodeoffset "#size-cells"
  if val = -fdtErrNotfound then 1
  else val

end Fdt

end AcoOs
