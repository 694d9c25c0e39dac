/-
The allocator of blocks of one size.

Each free block begins with a header: a magic number, and a node of the list of the free blocks.
The header of the allocator has the counts and the head of that list.  All of this lies in memory,
and nothing but the addresses keeps it apart.

The model follows `memblock.c` and `list.h`, with every load and every store.
-/
import AcoOs.StringCopy
import AcoOs.EarlyVm
import AcoOs.LinkedRing

namespace AcoOs

/-- `MAGIC_NUMBER`. -/
def magicNumber : ℕ := 0x2371

/-- `sizeof(block_hdr_t)`. -/
def sizeofBlockHdr : ℕ := 24

/-- `sizeof(mmblock_hdr_t)`. -/
def sizeofMmblockHdr : ℕ := 48

namespace Bytes

/-! ### `list.h`

`prev` is the first word of a node and `next` the second one. -/

/-- `node->next`. -/
def next (m : Bytes) (node : ℕ) : ℕ := m.load (node + 8) 8

/-- `node->prev`. -/
def prev (m : Bytes) (node : ℕ) : ℕ := m.load node 8

/-- The links of all nodes. -/
def links (m : Bytes) : LinkedRing.Links ℕ := ⟨m.next, m.prev⟩

/-- `node->next = p`. -/
def setNext (m : Bytes) (node p : ℕ) : Bytes := m.store (node + 8) 8 p

/-- `node->prev = p`. -/
def setPrev (m : Bytes) (node p : ℕ) : Bytes := m.store node 8 p

/-- `INIT_LIST_HEAD`. -/
def initListHead (m : Bytes) (head : ℕ) : Bytes := (m.setNext head head).setPrev head head

/-- `INIT_NODE`. -/
def initNode (m : Bytes) (node : ℕ) : Bytes := (m.setNext node 0).setPrev node 0

/-- `list_add_tail`. -/
def listAddTail (m : Bytes) (node head : ℕ) : Bytes :=
  let prev := m.prev head
  (((m.setNext prev node).setNext node head).setPrev node prev).setPrev head node

/-- `list_del`. -/
def listDel (m : Bytes) (node : ℕ) : Bytes :=
  let next := m.next node
  let prev := m.prev node
  (((m.setPrev next prev).setNext prev next).setPrev node 0).setNext node 0

/-- `list_del_init`. -/
def listDelInit (m : Bytes) (node : ℕ) : Bytes := (m.listDel node).initListHead node

/-! ### `memblock.c` -/

/-- `&(blk->_node)`. -/
def blockNode (blk : ℕ) : ℕ := blk + 8

/-- `list_entry(node, block_hdr_t, _node)`. -/
def nodeBlock (node : ℕ) : ℕ := (node + (2 ^ 64 - 8)) % 2 ^ 64

/-- `mem_aloc_hdr->magic_number`, and `blk->magic_number`. -/
def magic (m : Bytes) (hdr : ℕ) : ℕ := m.load hdr 2

/-- `mem_aloc_hdr->total_block`. -/
def totalBlock (m : Bytes) (hdr : ℕ) : ℕ := m.load (hdr + 20) 4

/-- `mem_aloc_hdr->rest_block`. -/
def restBlock (m : Bytes) (hdr : ℕ) : ℕ := m.load (hdr + 24) 4

/-- `mem_aloc_hdr->rest_block = n`. -/
def setRestBlock (m : Bytes) (hdr n : ℕ) : Bytes := m.store (hdr + 24) 4 n

/-- `&(mem_aloc_hdr->_list_block)`. -/
def listBlock (hdr : ℕ) : ℕ := hdr + 32

/-- `init_blk_hdr`. -/
def initBlkHdr (m : Bytes) (blk : ℕ) : Bytes := (m.store blk 2 magicNumber).initNode (blockNode blk)

/-- The loop of `memblock_allocator_init` at index `i`, with `n` values of the `int` left; `none`
when it overflows. -/
def initBlocks (hdr pa blockSize : ℕ) : ℕ → ℕ → Bytes → Option Bytes
  | 0, _, _ => none
  | n + 1, i, m =>
    if i < m.totalBlock hdr then
      let blk := (pa + blockSize * i % 2 ^ 32) % 2 ^ 64
      initBlocks hdr pa blockSize n (i + 1)
        ((m.initBlkHdr blk).listAddTail (blockNode blk) (listBlock hdr))
    else some m

/-- `memblock_allocator_init`. -/
def memblockAllocatorInit (m : Bytes) (hdr pa size blockSize : ℕ) : Option (ℤ × Bytes) :=
  if hdr = 0 ∨ pa = 0 ∨ size = 0 ∨ blockSize = 0 then some (-einval, m)
  else if size % blockSize ≠ 0 then some (-einval, m)
  else
    let m := m.store hdr 2 magicNumber
    let m := m.store (hdr + 8) 8 pa
    let m := m.store (hdr + 16) 4 blockSize
    let m := m.store (hdr + 20) 4 (size / blockSize : ℕ)
    let m := m.setRestBlock hdr (size / blockSize)
    (initBlocks hdr pa blockSize intEnd 0 (m.initListHead (listBlock hdr))).map fun m => (0, m)

/-- `memblock_alloc`. -/
def memblockAlloc (m : Bytes) (hdr : ℕ) : ℕ × Bytes :=
  if hdr = 0 ∨ m.magic hdr ≠ magicNumber then (0, m)
  else if m.restBlock hdr = 0 then (0, m)
  else
    let blk := nodeBlock (m.next (listBlock hdr))
    let m := m.listDelInit (blockNode blk)
    (blk, m.setRestBlock hdr ((m.restBlock hdr + (2 ^ 32 - 1)) % 2 ^ 32))

/-- `memblock_free`. -/
def memblockFree (m : Bytes) (hdr address : ℕ) : Bytes :=
  if hdr = 0 ∨ address = 0 ∨ m.magic hdr ≠ magicNumber then m
  else if m.totalBlock hdr ≤ m.restBlock hdr then m
  else
    let m := (m.initBlkHdr address).listAddTail (blockNode address) (listBlock hdr)
    m.setRestBlock hdr ((m.restBlock hdr + 1) % 2 ^ 32)

/-- The loop of `__memblock_self_check` at a node, with `n` values of the `int` left: the number of
nodes, or `-EFAULT`. -/
def checkBlocks (m : Bytes) (head : ℕ) : ℕ → ℕ → ℕ → Option (Option ℕ)
  | 0, _, _ => none
  | n + 1, i, node =>
    if node = head then some (some i)
    else if m.magic (nodeBlock node) ≠ magicNumber then some none
    else checkBlocks m head n (i + 1) (m.next node)

/-- `memblock_self_check`; `none` when the `int` overflows. -/
def memblockSelfCheck (m : Bytes) (hdr : ℕ) : Option ℤ :=
  if hdr = 0 ∨ m.magic hdr ≠ magicNumber then some (-einval)
  else if m.totalBlock hdr < m.restBlock hdr then some (-efault)
  else
    (checkBlocks m (listBlock hdr) intEnd 0 (m.next (listBlock hdr))).map fun
      | none => -efault
      | some i => if i ≠ m.restBlock hdr then -efault else 0

end Bytes

end AcoOs
