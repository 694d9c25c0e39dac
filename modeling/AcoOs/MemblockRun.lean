/-
What the allocator of blocks keeps.

The blocks are apart when a header fits into one, and their addresses are right when all offsets
fit into 32 bits; the code tests neither.  Under these conditions (`BlockRegion`) the free blocks
form a ring with the allocator's header (`BlockRegion.Inv`), which all calls keep.

* **`memblock_intact`** — under the conditions no block is lost or overlaps another one, in every
  run;
* **`not_memblock_intact`** — two blocks of 16 bytes.
-/
import AcoOs.Memblock

namespace AcoOs

open Machine LinkedRing Bytes

/-! ### The region -/

/-- The conditions on an allocator with `num` blocks. -/
structure BlockRegion where
  hdr : ℕ
  pa : ℕ
  blockSize : ℕ
  num : ℕ
  hdr_pos : 0 < hdr
  pa_pos : 0 < pa
  blockSize_pos : 0 < blockSize
  num_pos : 0 < num
  /-- A header fits into a block. -/
  room : num = 1 ∨ sizeofBlockHdr ≤ blockSize
  /-- The offsets fit into an `uint32`. -/
  offset : (num - 1) * blockSize < 2 ^ 32
  /-- The blocks, and the header of the last one, are memory. -/
  fits : pa + (num - 1) * blockSize + max blockSize sizeofBlockHdr ≤ 2 ^ 64
  hdr_fits : hdr + sizeofMmblockHdr ≤ 2 ^ 64
  /-- The header of the allocator is somewhere else. -/
  hdr_apart : hdr + sizeofMmblockHdr ≤ pa ∨
    pa + (num - 1) * blockSize + max blockSize sizeofBlockHdr ≤ hdr

namespace BlockRegion

variable {R : BlockRegion} {m m' : Bytes} {a b c i j k n p x y : ℕ} {allocated : Finset ℕ}

/-- The address of a block. -/
def block (R : BlockRegion) (i : ℕ) : ℕ := R.pa + i * R.blockSize

/-- The address is that of a block. -/
def IsBlock (R : BlockRegion) (a : ℕ) : Prop := ∃ i < R.num, a = R.block i

/-- The head of the list. -/
def head (R : BlockRegion) : ℕ := listBlock R.hdr

/-- The head of the list, or the node of a block. -/
def IsNode (R : BlockRegion) (x : ℕ) : Prop := x = R.head ∨ ∃ a, R.IsBlock a ∧ x = blockNode a

theorem block_le (hi : i < R.num) : R.block i ≤ R.pa + (R.num - 1) * R.blockSize :=
  Nat.add_le_add_left (Nat.mul_le_mul_right _ (Nat.le_sub_one_of_lt hi)) _

theorem IsBlock.le (h : R.IsBlock a) : R.pa ≤ a ∧ a ≤ R.pa + (R.num - 1) * R.blockSize := by
  obtain ⟨i, hi, rfl⟩ := h
  exact ⟨Nat.le_add_right _ _, block_le hi⟩

theorem IsBlock.pos (h : R.IsBlock a) : 0 < a := R.pa_pos.trans_le h.le.1

/-- Of two blocks one ends before the other one begins. -/
theorem IsBlock.apart (ha : R.IsBlock a) (hb : R.IsBlock b) (hne : a ≠ b) :
    sizeofBlockHdr ≤ R.blockSize ∧ (a + R.blockSize ≤ b ∨ b + R.blockSize ≤ a) := by
  obtain ⟨i, hi, rfl⟩ := ha
  obtain ⟨j, hj, rfl⟩ := hb
  have hij : i ≠ j := fun h => hne (by rw [h])
  have hsize : sizeofBlockHdr ≤ R.blockSize := R.room.resolve_left (by omega)
  refine ⟨hsize, ?_⟩
  unfold block
  rcases Nat.lt_or_gt_of_ne hij with hlt | hlt
  · have hmul : (i + 1) * R.blockSize ≤ j * R.blockSize := Nat.mul_le_mul_right _ hlt
    rw [Nat.succ_mul] at hmul
    omega
  · have hmul : (j + 1) * R.blockSize ≤ i * R.blockSize := Nat.mul_le_mul_right _ hlt
    rw [Nat.succ_mul] at hmul
    omega

/-- The header of a block is behind or before that of the allocator. -/
theorem IsBlock.hdr (h : R.IsBlock a) :
    R.hdr + 48 ≤ a ∨ a + max R.blockSize 24 ≤ R.hdr := by
  have hle := h.le
  have hapart := R.hdr_apart
  simp only [sizeofMmblockHdr, sizeofBlockHdr] at hapart
  omega

theorem IsBlock.lt (h : R.IsBlock a) : a + 24 ≤ 2 ^ 64 := by
  have hle := h.le
  have hfits := R.fits
  simp only [sizeofBlockHdr] at hfits
  omega

theorem num_lt (R : BlockRegion) : R.num < intEnd := by
  unfold intEnd
  rcases R.room with h | h
  · omega
  · have hmul := Nat.mul_le_mul_left (R.num - 1) h
    have hoff := R.offset
    simp only [sizeofBlockHdr] at hmul
    omega

theorem isNode_head (R : BlockRegion) : R.IsNode R.head := .inl rfl

theorem IsBlock.node (h : R.IsBlock a) : R.IsNode (blockNode a) := .inr ⟨a, h, rfl⟩

theorem IsNode.lt (h : R.IsNode x) : x + 16 ≤ 2 ^ 64 := by
  rcases h with rfl | ⟨a, ha, rfl⟩
  · have := R.hdr_fits
    simp only [head, listBlock, sizeofMmblockHdr] at *
    omega
  · have := ha.lt
    simp only [blockNode]
    omega

theorem IsNode.apart (hx : R.IsNode x) (hy : R.IsNode y) (hne : x ≠ y) :
    x + 16 ≤ y ∨ y + 16 ≤ x := by
  rcases hx with rfl | ⟨a, ha, rfl⟩ <;> rcases hy with rfl | ⟨b, hb, rfl⟩
  · exact absurd rfl hne
  · have := hb.hdr
    simp only [head, listBlock, blockNode]
    omega
  · have := ha.hdr
    simp only [head, listBlock, blockNode]
    omega
  · obtain ⟨hsize, hor⟩ := ha.apart hb fun h => hne (by rw [h])
    simp only [sizeofBlockHdr, blockNode] at *
    omega

/-- A node is apart from the words of the allocator before the list. -/
theorem IsNode.hdr (h : R.IsNode x) : x + 16 ≤ R.hdr ∨ R.hdr + 32 ≤ x := by
  rcases h with rfl | ⟨a, ha, rfl⟩
  · exact .inr le_rfl
  · have := ha.hdr
    simp only [blockNode]
    omega

/-- A node is apart from the magic numbers of the blocks. -/
theorem IsNode.magic (h : R.IsNode x) (ha : R.IsBlock a) : x + 16 ≤ a ∨ a + 8 ≤ x := by
  rcases h with rfl | ⟨b, hb, rfl⟩
  · have := ha.hdr
    simp only [head, listBlock]
    omega
  · simp only [blockNode]
    by_cases hab : a = b
    · omega
    · obtain ⟨hsize, hor⟩ := ha.apart hb hab
      simp only [sizeofBlockHdr] at hsize
      omega

/-! ### The links in memory -/

/-- The nodes are linked as in `L`. -/
def Reads (R : BlockRegion) (m : Bytes) (L : Links ℕ) : Prop :=
  ∀ x, R.IsNode x → m.next x = L.next x ∧ m.prev x = L.prev x

/-- The words of the allocator before the list, and the magic numbers of the blocks, are the
same. -/
structure SameRest (R : BlockRegion) (m m' : Bytes) : Prop where
  hdr : ∀ k n, k + n ≤ 32 → m'.load (R.hdr + k) n = m.load (R.hdr + k) n
  magic : ∀ a, R.IsBlock a → m'.magic a = m.magic a

theorem SameRest.trans {m'' : Bytes} (h : R.SameRest m m') (h' : R.SameRest m' m'') :
    R.SameRest m m'' :=
  ⟨fun k n hk => (h'.hdr k n hk).trans (h.hdr k n hk),
    fun a ha => (h'.magic a ha).trans (h.magic a ha)⟩

theorem SameRest.store (hx : R.IsNode x) (h : x ≤ c) (hc : c + 8 ≤ x + 16) (v : ℤ) :
    R.SameRest m (m.store c 8 v) where
  hdr k n hk := load_store_apart v (by
    have := hx.hdr
    omega)
  magic a ha := load_store_apart v (by
    have := hx.magic ha
    omega)

variable {L L' : Links ℕ}

theorem Reads.setNext (h : R.Reads m L) (hx : R.IsNode x) (hp : p < 2 ^ 64) :
    R.Reads (m.setNext x p) (L.setNext x p) := by
  intro y hy
  show (m.store (x + 8) 8 p).load (y + 8) 8 = Function.update L.next x p y ∧
    (m.store (x + 8) 8 p).load y 8 = L.prev y
  by_cases hyx : y = x
  · subst hyx
    rw [Function.update_self, load_store_of_lt (by omega), load_store_apart _ (.inl le_rfl)]
    exact ⟨rfl, (h y hy).2⟩
  · have hapart := hx.apart hy (Ne.symm hyx)
    rw [Function.update_of_ne hyx, load_store_apart _ (by omega), load_store_apart _ (by omega)]
    exact h y hy

theorem Reads.setPrev (h : R.Reads m L) (hx : R.IsNode x) (hp : p < 2 ^ 64) :
    R.Reads (m.setPrev x p) (L.setPrev x p) := by
  intro y hy
  show (m.store x 8 p).load (y + 8) 8 = L.next y ∧
    (m.store x 8 p).load y 8 = Function.update L.prev x p y
  by_cases hyx : y = x
  · subst hyx
    rw [Function.update_self, load_store_of_lt (by omega), load_store_apart _ (.inr le_rfl)]
    exact ⟨(h y hy).1, rfl⟩
  · have hapart := hx.apart hy (Ne.symm hyx)
    rw [Function.update_of_ne hyx, load_store_apart _ (by omega), load_store_apart _ (by omega)]
    exact h y hy

theorem sameRest_setNext (hx : R.IsNode x) (p : ℕ) : R.SameRest m (m.setNext x p) :=
  .store hx (Nat.le_add_right x 8) le_rfl p

theorem sameRest_setPrev (hx : R.IsNode x) (p : ℕ) : R.SameRest m (m.setPrev x p) :=
  .store hx le_rfl (by omega) p

/-- `list_add_tail` does to the memory what it does to the links. -/
theorem Reads.listAddTail (h : R.Reads m L) (hn : R.IsNode n) (hx : R.IsNode x)
    (hp : R.IsNode (L.prev x)) :
    R.Reads (m.listAddTail n x) (L.addTail n x) ∧ R.SameRest m (m.listAddTail n x) := by
  have hprev := (h x hx).2
  unfold Bytes.listAddTail
  rw [hprev]
  have hn' := hn.lt
  have hx' := hx.lt
  have hp' := hp.lt
  exact ⟨(((h.setNext hp (by omega)).setNext hn (by omega)).setPrev hn (by omega)).setPrev hx
    (by omega), (((sameRest_setNext hp n).trans (sameRest_setNext hn x)).trans
      (sameRest_setPrev hn _)).trans (sameRest_setPrev hx n)⟩

/-- `list_del_init` too. -/
theorem Reads.listDelInit (h : R.Reads m L) (hn : R.IsNode n) (hp : R.IsNode (L.prev n))
    (hnext : R.IsNode (L.next n)) :
    R.Reads (m.listDelInit n) (L.delInit n) ∧ R.SameRest m (m.listDelInit n) := by
  have hlinks := h n hn
  unfold Bytes.listDelInit Bytes.listDel Bytes.initListHead
  dsimp only
  rw [hlinks.1, hlinks.2]
  have hn' := hn.lt
  have hp' := hp.lt
  have hnext' := hnext.lt
  constructor
  · have hreads := (((((h.setPrev hnext (show L.prev n < _ by omega)).setNext hp
      (show L.next n < _ by omega)).setPrev hn (p := 0) (by omega)).setNext hn (p := 0)
      (by omega)).setNext hn (show n < _ by omega)).setPrev hn (show n < _ by omega)
    have heq : (((((L.setPrev (L.next n) (L.prev n)).setNext (L.prev n) (L.next n)).setPrev n
        0).setNext n 0).setNext n n).setPrev n n = L.delInit n := by
      simp [Links.setPrev, Links.setNext, Links.delInit]
    rwa [heq] at hreads
  · exact (((((sameRest_setPrev hnext _).trans (sameRest_setNext hp _)).trans
      (sameRest_setPrev hn _)).trans (sameRest_setNext hn _)).trans
      (sameRest_setNext hn _)).trans (sameRest_setPrev hn _)

theorem reads_links (R : BlockRegion) (m : Bytes) : R.Reads m (links m) := fun _ _ => ⟨rfl, rfl⟩

/-- A ring of nodes is one in memory. -/
theorem Reads.ring {l : List ℕ} (h : R.Reads m L) (hr : L.Ring R.head (l.map blockNode))
    (hl : ∀ a ∈ l, R.IsBlock a) : (links m).Ring R.head (l.map blockNode) := by
  have hnode : ∀ b ∈ R.head :: l.map blockNode, R.IsNode b := by
    intro b hb
    rcases List.mem_cons.1 hb with rfl | hb
    · exact R.isNode_head
    · obtain ⟨a, ha, rfl⟩ := List.mem_map.1 hb
      exact (hl a ha).node
  exact ⟨hr.chain.congr (fun b hb => (h b (hnode b hb)).1) fun b hb => (h b (hnode b hb)).2,
    hr.nodup⟩

/-! ### The invariant -/

/-- What the calls keep, but for the count of the free blocks. -/
structure Inv (R : BlockRegion) (m : Bytes) (allocated : Finset ℕ) (free : List ℕ) : Prop where
  magic : m.magic R.hdr = magicNumber
  total : m.totalBlock R.hdr = R.num
  ring : (links m).Ring R.head (free.map blockNode)
  blkMagic : ∀ a ∈ free, m.magic a = magicNumber
  blocks : ∀ a, a ∈ free ∨ a ∈ allocated ↔ R.IsBlock a
  disjoint : ∀ a ∈ free, a ∉ allocated

variable {free : List ℕ}

theorem blockNode_injective : Function.Injective blockNode := fun _ _ h => Nat.add_right_cancel h

theorem SameRest.magic_hdr (h : R.SameRest m m') : m'.magic R.hdr = m.magic R.hdr :=
  h.hdr 0 2 (by norm_num)

theorem SameRest.total (h : R.SameRest m m') : m'.totalBlock R.hdr = m.totalBlock R.hdr :=
  h.hdr 20 4 (by norm_num)

theorem SameRest.rest (h : R.SameRest m m') : m'.restBlock R.hdr = m.restBlock R.hdr :=
  h.hdr 24 4 (by norm_num)

/-! Writing the magic number of a block `a` changes no node, no field of the header and no other
block. -/

theorem reads_magic (ha : R.IsBlock a) : R.Reads (m.store a 2 magicNumber) (links m) := by
  intro x hx
  have := hx.magic ha
  exact ⟨load_store_apart _ (by omega), load_store_apart _ (by omega)⟩

theorem magic_of_ne (ha : R.IsBlock a) {b : ℕ} (hb : R.IsBlock b) (hne : b ≠ a) :
    (m.store a 2 magicNumber).magic b = m.magic b := by
  obtain ⟨hsize, hor⟩ := hb.apart ha hne
  simp only [sizeofBlockHdr] at hsize
  exact load_store_apart _ (by omega)

theorem hdr_magic (ha : R.IsBlock a) {k n : ℕ} (hk : k + n ≤ 32) :
    (m.store a 2 magicNumber).load (R.hdr + k) n = m.load (R.hdr + k) n := by
  have := ha.hdr
  exact load_store_apart _ (by omega)

namespace Inv

theorem isBlock (h : R.Inv m allocated free) (ha : a ∈ free) : R.IsBlock a :=
  (h.blocks a).1 (.inl ha)

theorem nodup (h : R.Inv m allocated free) : free.Nodup :=
  (List.nodup_cons.1 h.ring.nodup).2.of_map blockNode

/-- The last node is a node. -/
theorem isNode_prev (h : R.Inv m allocated free) : R.IsNode (m.prev R.head) := by
  rcases h.ring.eq_nil_or_last with ⟨-, hprev⟩ | ⟨l', z, hl, -, hprev⟩
  · rw [show m.prev R.head = R.head from hprev]
    exact R.isNode_head
  · rw [show m.prev R.head = z from hprev]
    obtain ⟨a, ha, rfl⟩ :=
      List.mem_map.1 (hl ▸ List.mem_append_right l' (List.mem_singleton_self z))
    exact (h.isBlock ha).node

/-- The node of an allocated block is in no list. -/
theorem blockNode_notMem (h : R.Inv m allocated free) (ha : a ∈ allocated) :
    blockNode a ∉ R.head :: free.map blockNode := by
  have hblk : R.IsBlock a := (h.blocks a).1 (.inr ha)
  rw [List.mem_cons, not_or]
  refine ⟨fun hc => ?_, fun hc => ?_⟩
  · have := hblk.hdr
    simp only [head, listBlock, blockNode] at hc
    omega
  · obtain ⟨b, hb, he⟩ := List.mem_map.1 hc
    exact h.disjoint b hb (blockNode_injective he ▸ ha)

/-- The header of an allocated block is set up, and its node goes behind the others. -/
theorem ring_add (h : R.Inv m allocated free) (ha : a ∈ allocated) :
    (∃ L : Links ℕ, R.Reads ((m.initBlkHdr a).listAddTail (blockNode a) R.head) L ∧
      L.Ring R.head ((free ++ [a]).map blockNode)) ∧
    R.SameRest (m.store a 2 magicNumber)
      ((m.initBlkHdr a).listAddTail (blockNode a) R.head) := by
  have hblk : R.IsBlock a := (h.blocks a).1 (.inr ha)
  have hnode := hblk.node
  have hnew := h.blockNode_notMem ha
  have hreads := ((reads_magic (m := m) hblk).setNext hnode (p := 0) (by norm_num)).setPrev hnode
    (p := 0) (by norm_num)
  have hring : (((links m).setNext (blockNode a) 0).setPrev (blockNode a) 0).Ring R.head
      (free.map blockNode) := by
    refine ⟨h.ring.chain.congr (fun b hb => ?_) fun b hb => ?_, h.ring.nodup⟩
    · exact Function.update_of_ne (ne_of_mem_of_not_mem hb hnew) _ _
    · exact Function.update_of_ne (ne_of_mem_of_not_mem hb hnew) _ _
  have hlast : (((links m).setNext (blockNode a) 0).setPrev (blockNode a) 0).prev R.head =
      m.prev R.head :=
    Function.update_of_ne (fun hc => hnew (List.mem_cons.2 (.inl hc.symm))) _ _
  obtain ⟨hadd, hsame⟩ := hreads.listAddTail hnode R.isNode_head (hlast ▸ h.isNode_prev)
  have hring' := hring.addTail hnew
  rw [show free.map blockNode ++ [blockNode a] = (free ++ [a]).map blockNode by simp] at hring'
  exact ⟨⟨_, hadd, hring'⟩,
    ((sameRest_setNext hnode 0).trans (sameRest_setPrev hnode 0)).trans hsame⟩

/-- An allocated block goes behind the free ones. -/
theorem add (h : R.Inv m allocated free) (ha : a ∈ allocated) :
    R.Inv ((m.initBlkHdr a).listAddTail (blockNode a) R.head) (allocated.erase a) (free ++ [a]) ∧
      ((m.initBlkHdr a).listAddTail (blockNode a) R.head).restBlock R.hdr =
        m.restBlock R.hdr := by
  have hblk : R.IsBlock a := (h.blocks a).1 (.inr ha)
  have hnot : a ∉ free := fun hf => h.disjoint a hf ha
  obtain ⟨⟨L, hreads, hring⟩, hrest⟩ := h.ring_add ha
  have hself : (m.store a 2 magicNumber).magic a = magicNumber := load_store_of_lt (by decide)
  have hblocks : ∀ b, b ∈ free ++ [a] ∨ b ∈ allocated.erase a ↔ R.IsBlock b := by
    intro b
    rw [← h.blocks b, List.mem_append, List.mem_singleton, Finset.mem_erase]
    by_cases hb : b = a
    · subst hb
      exact iff_of_true (.inl (.inr rfl)) (.inr ha)
    · simp [hb]
  refine ⟨⟨?_, ?_, ?_, fun b hb => ?_, hblocks, fun b hb => ?_⟩,
    hrest.rest.trans (hdr_magic hblk (k := 24) (n := 4) (by norm_num))⟩
  · exact hrest.magic_hdr.trans ((hdr_magic hblk (k := 0) (n := 2) (by norm_num)).trans h.magic)
  · exact hrest.total.trans ((hdr_magic hblk (k := 20) (n := 4) (by norm_num)).trans h.total)
  · exact Reads.ring hreads hring fun b hb => (hblocks b).1 (.inl hb)
  · rw [hrest.magic b ((hblocks b).1 (.inl hb))]
    rcases List.mem_append.1 hb with hb | hb
    · rw [magic_of_ne hblk (h.isBlock hb) fun hc => hnot (hc ▸ hb)]
      exact h.blkMagic b hb
    · rw [List.mem_singleton.1 hb]
      exact hself
  · rw [Finset.mem_erase, not_and]
    intro hne
    rcases List.mem_append.1 hb with hb | hb
    · exact h.disjoint b hb
    · exact absurd (List.mem_singleton.1 hb) hne

/-- The first free block is taken out. -/
theorem take (h : R.Inv m allocated (a :: free)) :
    m.next R.head = blockNode a ∧
      R.Inv (m.listDelInit (blockNode a)) (insert a allocated) free ∧
      (m.listDelInit (blockNode a)).restBlock R.hdr = m.restBlock R.hdr := by
  obtain ⟨hfirst, hring⟩ := h.ring.delFirst
  have hblk := h.isBlock List.mem_cons_self
  obtain ⟨hjoin, hchain⟩ := h.ring.chain
  have hprev : R.IsNode ((links m).prev (blockNode a)) := by
    rw [hjoin.prev]
    exact R.isNode_head
  have hnext : R.IsNode ((links m).next (blockNode a)) := by
    cases free with
    | nil =>
      rw [hchain.next]
      exact R.isNode_head
    | cons b l =>
      rw [hchain.1.next]
      exact (h.isBlock (List.mem_cons_of_mem a List.mem_cons_self)).node
  obtain ⟨hreads, hsame⟩ := (R.reads_links m).listDelInit hblk.node hprev hnext
  generalize m.listDelInit (blockNode a) = m' at hreads hsame ⊢
  have hnd := List.nodup_cons.1 h.nodup
  have hisBlock : ∀ b ∈ free, R.IsBlock b := fun b hb => h.isBlock (List.mem_cons_of_mem a hb)
  refine ⟨hfirst, ⟨hsame.magic_hdr.trans h.magic, hsame.total.trans h.total,
    hreads.ring hring hisBlock, fun b hb => ?_, fun b => ?_, fun b hb => ?_⟩, hsame.rest⟩
  · rw [hsame.magic b (hisBlock b hb)]
    exact h.blkMagic b (List.mem_cons_of_mem a hb)
  · rw [← h.blocks b, List.mem_cons, Finset.mem_insert]
    exact or_left_comm.trans or_assoc.symm
  · rw [Finset.mem_insert, not_or]
    exact ⟨fun hc => hnd.1 (hc ▸ hb), h.disjoint b (List.mem_cons_of_mem a hb)⟩

/-- Only the header of the allocator and those of the free blocks matter. -/
theorem congr (h : R.Inv m allocated free)
    (hhdr : ∀ c, R.hdr ≤ c → c < R.hdr + 48 → m' c = m c)
    (hblk : ∀ a ∈ free, ∀ c, a ≤ c → c < a + 24 → m' c = m c) :
    R.Inv m' allocated free ∧ m'.restBlock R.hdr = m.restBlock R.hdr := by
  have hload : ∀ k n, k + n ≤ 48 → m'.load (R.hdr + k) n = m.load (R.hdr + k) n :=
    fun k n hk => load_congr fun c h1 h2 => hhdr c (by omega) (by omega)
  have hnode : ∀ b ∈ R.head :: free.map blockNode, m'.next b = m.next b ∧ m'.prev b = m.prev b := by
    intro b hb
    rcases List.mem_cons.1 hb with rfl | hb
    · exact ⟨hload 40 8 (by norm_num), hload 32 8 (by norm_num)⟩
    · obtain ⟨a, ha, rfl⟩ := List.mem_map.1 hb
      simp only [blockNode]
      exact ⟨load_congr fun c h1 h2 => hblk a ha c (by omega) (by omega),
        load_congr fun c h1 h2 => hblk a ha c (by omega) (by omega)⟩
  refine ⟨⟨(hload 0 2 (by norm_num)).trans h.magic, (hload 20 4 (by norm_num)).trans h.total,
    ⟨h.ring.chain.congr (fun b hb => (hnode b hb).1) fun b hb => (hnode b hb).2, h.ring.nodup⟩,
    fun a ha => ?_, h.blocks, h.disjoint⟩, hload 24 4 (by norm_num)⟩
  rw [← h.blkMagic a ha]
  exact load_congr fun c h1 h2 => hblk a ha c (by omega) (by omega)

theorem length_le (h : R.Inv m allocated free) : free.length ≤ R.num := by
  have hsub : free.toFinset ⊆ (Finset.range R.num).image R.block := by
    intro a ha
    obtain ⟨i, hi, rfl⟩ := h.isBlock (List.mem_toFinset.1 ha)
    exact Finset.mem_image_of_mem _ (Finset.mem_range.2 hi)
  have hle := (Finset.card_le_card hsub).trans Finset.card_image_le
  rwa [List.toFinset_card_of_nodup h.nodup, Finset.card_range] at hle

/-- With an allocated block there are fewer free blocks than blocks. -/
theorem length_lt (h : R.Inv m allocated free) (ha : a ∈ allocated) : free.length < R.num := by
  have hle := (h.add ha).1.length_le
  rwa [List.length_append, List.length_singleton] at hle

end Inv

/-! ### The calls -/

theorem nodeBlock_blockNode (ha : a < 2 ^ 64) : nodeBlock (blockNode a) = a := by
  simp only [nodeBlock, blockNode]
  omega

/-- Counting the free blocks changes the count only. -/
theorem Inv.setRestBlock (h : R.Inv m allocated free) (hn : n < 2 ^ 32) :
    R.Inv (m.setRestBlock R.hdr n) allocated free ∧
      (m.setRestBlock R.hdr n).restBlock R.hdr = n := by
  have hnode : ∀ x, R.IsNode x → (m.setRestBlock R.hdr n).next x = m.next x ∧
      (m.setRestBlock R.hdr n).prev x = m.prev x := by
    intro x hx
    have := hx.hdr
    exact ⟨load_store_apart _ (by omega), load_store_apart _ (by omega)⟩
  refine ⟨⟨(load_store_apart _ (by omega)).trans h.magic,
    (load_store_apart _ (by omega)).trans h.total,
    Reads.ring (L := links m) hnode h.ring fun a ha => h.isBlock ha, fun a ha => ?_, h.blocks,
    h.disjoint⟩, load_store_of_lt hn⟩
  have := (h.isBlock ha).hdr
  exact (load_store_apart _ (by omega)).trans (h.blkMagic a ha)

theorem memblockAlloc_nil (hrest : m.restBlock R.hdr = 0) : m.memblockAlloc R.hdr = (0, m) := by
  unfold memblockAlloc
  rw [if_pos hrest]
  split <;> rfl

theorem memblockAlloc_cons (h : R.Inv m allocated (a :: free))
    (hrest : m.restBlock R.hdr = (a :: free).length) :
    (m.memblockAlloc R.hdr).1 = a ∧ R.Inv (m.memblockAlloc R.hdr).2 (insert a allocated) free ∧
      (m.memblockAlloc R.hdr).2.restBlock R.hdr = free.length := by
  have hlt := (h.isBlock List.mem_cons_self).lt
  have hlen := h.length_le
  have hnum := R.num_lt
  obtain ⟨hfirst, hinv, hrest'⟩ := h.take
  have hblk : nodeBlock (m.next (listBlock R.hdr)) = a := by
    rw [show m.next (listBlock R.hdr) = _ from hfirst, nodeBlock_blockNode (by omega)]
  simp only [List.length_cons, intEnd] at *
  unfold memblockAlloc
  rw [if_neg (by rw [h.magic]; simpa using R.hdr_pos.ne'), if_neg (by omega)]
  dsimp only
  rw [hblk, hrest', hrest]
  rw [show (free.length + 1 + (2 ^ 32 - 1)) % 2 ^ 32 = free.length by omega]
  exact ⟨rfl, hinv.setRestBlock (by omega)⟩

theorem memblockFree_inv (h : R.Inv m allocated free) (ha : a ∈ allocated)
    (hrest : m.restBlock R.hdr = free.length) :
    R.Inv (m.memblockFree R.hdr a) (allocated.erase a) (free ++ [a]) ∧
      (m.memblockFree R.hdr a).restBlock R.hdr = (free ++ [a]).length := by
  have hpos := ((h.blocks a).1 (.inr ha)).pos
  have hlt := h.length_lt ha
  have hnum := R.num_lt
  obtain ⟨hinv, hrest'⟩ := h.add ha
  simp only [intEnd] at hnum
  rw [List.length_append, List.length_singleton]
  unfold memblockFree
  rw [if_neg (by
      rw [h.magic]
      simp only [not_or]
      exact ⟨R.hdr_pos.ne', hpos.ne', fun hc => hc rfl⟩),
    if_neg (by rw [h.total, hrest]; omega)]
  dsimp only
  rw [show listBlock R.hdr = R.head from rfl, hrest', hrest, Nat.mod_eq_of_lt (by omega)]
  exact hinv.setRestBlock (by omega)

theorem block_ne (hj : j < i) : R.block j ≠ R.block i := by
  unfold block
  have hmul := Nat.mul_lt_mul_of_pos_right hj R.blockSize_pos
  omega

/-- The loop of `memblock_allocator_init` takes one block after the other. -/
theorem initBlocks_inv (hi : i ≤ R.num) (hn : R.num - i < n)
    (h : R.Inv m allocated ((List.range i).map R.block)) :
    ∃ m', initBlocks R.hdr R.pa R.blockSize n i m = some m' ∧
      R.Inv m' ∅ ((List.range R.num).map R.block) ∧ m'.restBlock R.hdr = m.restBlock R.hdr := by
  induction n generalizing i m allocated with
  | zero => exact absurd hn (Nat.not_lt_zero _)
  | succ n ih =>
    rw [initBlocks, h.total]
    by_cases hlt : i < R.num
    · have hblk : (R.pa + R.blockSize * i % 2 ^ 32) % 2 ^ 64 = R.block i := by
        have hle := block_le hlt
        have hoff := R.offset
        have hfits := R.fits
        unfold block at hle ⊢
        simp only [sizeofBlockHdr] at hfits
        rw [Nat.mul_comm R.blockSize i, Nat.mod_eq_of_lt (by omega), Nat.mod_eq_of_lt (by omega)]
      have hmem : R.block i ∈ allocated := by
        refine ((h.blocks _).2 ⟨i, hlt, rfl⟩).resolve_left fun hc => ?_
        obtain ⟨j, hj, he⟩ := List.mem_map.1 hc
        exact block_ne (List.mem_range.1 hj) he
      obtain ⟨hinv, hrest⟩ := h.add hmem
      rw [if_pos hlt]
      dsimp only
      rw [hblk]
      obtain ⟨m', hm', hinv', hrest'⟩ := ih (i := i + 1) hlt (by omega) (by
        rw [List.range_succ, List.map_append]
        exact hinv)
      exact ⟨m', hm', hinv', hrest'.trans hrest⟩
    · obtain rfl : i = R.num := by omega
      have hempty : allocated = ∅ := by
        refine Finset.eq_empty_of_forall_notMem fun a ha => ?_
        obtain ⟨j, hj, rfl⟩ := (h.blocks a).1 (.inr ha)
        exact h.disjoint _ (List.mem_map.2 ⟨j, List.mem_range.2 hj, rfl⟩) ha
      rw [if_neg hlt]
      exact ⟨m, rfl, hempty ▸ h, rfl⟩

theorem memblockAllocatorInit_inv (R : BlockRegion) (m : Bytes) :
    ∃ m', m.memblockAllocatorInit R.hdr R.pa (R.num * R.blockSize) R.blockSize = some (0, m') ∧
      R.Inv m' ∅ ((List.range R.num).map R.block) ∧ m'.restBlock R.hdr = R.num := by
  have hnum := R.num_lt
  have hhdr := R.hdr_fits
  simp only [sizeofMmblockHdr] at hhdr
  simp only [intEnd] at hnum
  have hsize : R.num * R.blockSize ≠ 0 := (Nat.mul_pos R.num_pos R.blockSize_pos).ne'
  have h0 := R.hdr_pos.ne'
  have h1 := R.pa_pos.ne'
  have h2 := R.blockSize_pos.ne'
  unfold memblockAllocatorInit
  rw [if_neg (by simp only [not_or]; exact ⟨h0, h1, hsize, h2⟩),
    if_neg (by rw [Nat.mul_mod_left]; exact fun h => h rfl), Nat.mul_div_cancel _ R.blockSize_pos]
  dsimp only
  generalize hm₀ : (((m.store R.hdr 2 magicNumber).store (R.hdr + 8) 8 R.pa).store (R.hdr + 16) 4
    R.blockSize).store (R.hdr + 20) 4 R.num = m₀
  -- the words before the list, and the empty list
  have hmagic : m₀.magic R.hdr = magicNumber := by
    rw [← hm₀]
    unfold Bytes.magic
    rw [load_store_apart _ (by omega), load_store_apart _ (by omega),
      load_store_apart _ (by omega)]
    exact load_store_of_lt (by decide)
  have htotal : m₀.totalBlock R.hdr = R.num := by
    rw [← hm₀]
    exact load_store_of_lt (by omega)
  have hinv : R.Inv ((m₀.setRestBlock R.hdr R.num).initListHead (listBlock R.hdr))
      ((Finset.range R.num).image R.block) [] := by
    refine ⟨?_, ?_, Links.ring_nil ?_ ?_, fun a ha => absurd ha List.not_mem_nil, fun a => ?_,
      fun a ha => absurd ha List.not_mem_nil⟩
    · refine Eq.trans ?_ hmagic
      unfold Bytes.magic initListHead setPrev setNext setRestBlock listBlock
      rw [load_store_apart _ (by omega), load_store_apart _ (by omega),
        load_store_apart _ (by omega)]
    · refine Eq.trans ?_ htotal
      unfold totalBlock initListHead setPrev setNext setRestBlock listBlock
      rw [load_store_apart _ (by omega), load_store_apart _ (by omega),
        load_store_apart _ (by omega)]
    · show ((((m₀.setRestBlock R.hdr R.num).store (listBlock R.hdr + 8) 8 (listBlock R.hdr)).store
        (listBlock R.hdr) 8 (listBlock R.hdr)).load (listBlock R.hdr + 8) 8) = listBlock R.hdr
      rw [load_store_apart _ (by omega)]
      refine load_store_of_lt ?_
      unfold listBlock
      omega
    · refine load_store_of_lt ?_
      unfold listBlock
      omega
    · simp only [List.not_mem_nil, false_or, Finset.mem_image, Finset.mem_range]
      exact exists_congr fun i => and_congr_right fun _ => eq_comm
  have hrest : ((m₀.setRestBlock R.hdr R.num).initListHead (listBlock R.hdr)).restBlock R.hdr =
      R.num := by
    unfold restBlock initListHead setPrev setNext setRestBlock listBlock
    rw [load_store_apart _ (by omega), load_store_apart _ (by omega)]
    exact load_store_of_lt (by omega)
  obtain ⟨m', hm', hinv', hrest'⟩ := initBlocks_inv (n := intEnd) (Nat.zero_le _)
    (by rw [Nat.sub_zero]; exact R.num_lt) hinv
  refine ⟨m', ?_, hinv', hrest'.trans hrest⟩
  rw [hm']
  rfl

theorem checkBlocks_chain {l : List ℕ} (hc : (links m).Chain x (l.map blockNode) R.head)
    (hl : ∀ a ∈ l, R.IsBlock a ∧ m.magic a = magicNumber) (hn : l.length < n) :
    checkBlocks m R.head n i (m.next x) = some (some (i + l.length)) := by
  induction l generalizing x n i with
  | nil =>
    cases n with
    | zero => exact absurd hn (Nat.not_lt_zero _)
    | succ n =>
      rw [checkBlocks, if_pos (show m.next x = R.head from hc.next)]
      rfl
  | cons a l ih =>
    obtain ⟨hblk, hmagic⟩ := hl a List.mem_cons_self
    have hlt := hblk.lt
    have hne : blockNode a ≠ R.head := by
      have := hblk.hdr
      simp only [head, listBlock, blockNode]
      omega
    cases n with
    | zero => exact absurd hn (Nat.not_lt_zero _)
    | succ n =>
      rw [checkBlocks, show m.next x = blockNode a from hc.1.next, if_neg hne,
        nodeBlock_blockNode (by omega), hmagic, if_neg fun h => h rfl,
        ih hc.2 (fun b hb => hl b (List.mem_cons_of_mem a hb)) (Nat.lt_of_succ_lt_succ hn),
        List.length_cons, Nat.add_assoc, Nat.add_comm 1]

theorem Inv.selfCheck (h : R.Inv m allocated free) (hrest : m.restBlock R.hdr = free.length) :
    m.memblockSelfCheck R.hdr = some 0 := by
  have hle := h.length_le
  unfold memblockSelfCheck
  rw [if_neg (by rw [h.magic]; simpa using R.hdr_pos.ne'), if_neg (by rw [h.total, hrest]; omega),
    show listBlock R.hdr = R.head from rfl, checkBlocks_chain h.ring.chain
      (fun a ha => ⟨h.isBlock ha, h.blkMagic a ha⟩) (hle.trans_lt R.num_lt), Nat.zero_add, hrest]
  show some (if free.length ≠ free.length then -efault else 0) = some 0
  rw [if_neg fun hc => hc rfl]

end BlockRegion

/-! ### Runs -/

/-- The memory, and the blocks that are given out. -/
structure MemblockState where
  mem : Bytes
  allocated : Finset ℕ

/-- The calls, and a store in a block that is given out. -/
inductive MemblockAct
  | alloc
  | free (address : ℕ)
  | write (address b : ℕ) (v : BitVec 8)

namespace MemblockState

/-- One step; only blocks that are given out are freed or written. -/
def exec (hdr blockSize : ℕ) (s : MemblockState) : MemblockAct → Option MemblockState
  | .alloc =>
    let (blk, m) := s.mem.memblockAlloc hdr
    some ⟨m, if blk = 0 then s.allocated else insert blk s.allocated⟩
  | .free address =>
    if address ∈ s.allocated then
      some ⟨s.mem.memblockFree hdr address, s.allocated.erase address⟩
    else none
  | .write address b v =>
    if address ∈ s.allocated ∧ address ≤ b ∧ b < address + blockSize then
      some ⟨s.mem.set b v, s.allocated⟩
    else none

/-- No block is lost, and none overlaps another one. -/
structure Intact (s : MemblockState) (hdr pa size blockSize : ℕ) : Prop where
  /-- The free list is a ring of `rest_block` different blocks; with those that are given out they
  are all blocks. -/
  list : ∃ free : List ℕ, s.mem.links.Ring (listBlock hdr) (free.map blockNode) ∧
    free.length = s.mem.restBlock hdr ∧
    (∀ a, a ∈ free ∨ a ∈ s.allocated ↔ ∃ i < size / blockSize, a = pa + i * blockSize) ∧
    ∀ a ∈ free, a ∉ s.allocated
  /-- The header of a block is in no other block. -/
  apart : ∀ i < size / blockSize, ∀ j < size / blockSize, i ≠ j →
    pa + i * blockSize + sizeofBlockHdr ≤ pa + j * blockSize ∨
      pa + j * blockSize + blockSize ≤ pa + i * blockSize
  check : s.mem.memblockSelfCheck hdr = some 0

end MemblockState

/-- The runs of an allocator that `memblock_allocator_init` has accepted. -/
def memblockRuns (hdr pa size blockSize : ℕ) : System MemblockState MemblockAct where
  init s := s.allocated = ∅ ∧
    ∃ m : Bytes, m.memblockAllocatorInit hdr pa size blockSize = some (0, s.mem)
  step s a t := s.exec hdr blockSize a = some t

/-- The region is memory, the header of the allocator is somewhere else, a header fits into a
block, and all offsets fit into 32 bits. -/
structure MemblockFits (hdr pa size blockSize : ℕ) : Prop where
  room : size / blockSize = 1 ∨ sizeofBlockHdr ≤ blockSize
  offset : (size / blockSize - 1) * blockSize < 2 ^ 32
  fits : pa + (size / blockSize - 1) * blockSize + max blockSize sizeofBlockHdr ≤ 2 ^ 64
  hdr_fits : hdr + sizeofMmblockHdr ≤ 2 ^ 64
  hdr_apart : hdr + sizeofMmblockHdr ≤ pa ∨
    pa + (size / blockSize - 1) * blockSize + max blockSize sizeofBlockHdr ≤ hdr

variable {hdr pa size blockSize : ℕ} {s t : MemblockState}

/-- What `memblock_allocator_init` tests. -/
theorem memblockAllocatorInit_accepts {m m' : Bytes}
    (h : m.memblockAllocatorInit hdr pa size blockSize = some (0, m')) :
    (hdr ≠ 0 ∧ pa ≠ 0 ∧ size ≠ 0 ∧ blockSize ≠ 0) ∧ size % blockSize = 0 := by
  have hne : (-einval : ℤ) ≠ 0 := by decide
  unfold memblockAllocatorInit at h
  by_cases h0 : hdr = 0 ∨ pa = 0 ∨ size = 0 ∨ blockSize = 0
  · rw [if_pos h0] at h
    exact absurd (congrArg Prod.fst (Option.some.inj h)) hne
  · rw [if_neg h0] at h
    by_cases h1 : size % blockSize ≠ 0
    · rw [if_pos h1] at h
      exact absurd (congrArg Prod.fst (Option.some.inj h)) hne
    · exact ⟨by simpa only [not_or] using h0, not_not.1 h1⟩

/-- The region of an allocator that was accepted. -/
def MemblockFits.region (h : MemblockFits hdr pa size blockSize)
    (h0 : hdr ≠ 0 ∧ pa ≠ 0 ∧ size ≠ 0 ∧ blockSize ≠ 0) (h1 : size % blockSize = 0) :
    BlockRegion where
  hdr := hdr
  pa := pa
  blockSize := blockSize
  num := size / blockSize
  hdr_pos := Nat.pos_of_ne_zero h0.1
  pa_pos := Nat.pos_of_ne_zero h0.2.1
  blockSize_pos := Nat.pos_of_ne_zero h0.2.2.2
  num_pos := Nat.div_pos (Nat.le_of_dvd (Nat.pos_of_ne_zero h0.2.2.1) (Nat.dvd_of_mod_eq_zero h1))
    (Nat.pos_of_ne_zero h0.2.2.2)
  room := h.room
  offset := h.offset
  fits := h.fits
  hdr_fits := h.hdr_fits
  hdr_apart := h.hdr_apart

namespace BlockRegion

variable {R : BlockRegion}

/-- The free blocks of a state, and their number. -/
def Holds (R : BlockRegion) (s : MemblockState) : Prop :=
  ∃ free, R.Inv s.mem s.allocated free ∧ s.mem.restBlock R.hdr = free.length

theorem Holds.exec {a : MemblockAct} (h : R.Holds s) (hs : s.exec R.hdr R.blockSize a = some t) :
    R.Holds t := by
  obtain ⟨free, hinv, hrest⟩ := h
  cases a with
  | alloc =>
    have ht : (⟨(s.mem.memblockAlloc R.hdr).2, if (s.mem.memblockAlloc R.hdr).1 = 0 then s.allocated
      else insert (s.mem.memblockAlloc R.hdr).1 s.allocated⟩ : MemblockState) = t :=
      Option.some.inj hs
    rw [← ht]
    cases free with
    | nil =>
      rw [memblockAlloc_nil hrest]
      exact ⟨[], hinv, hrest⟩
    | cons a free =>
      have hpos := (hinv.isBlock List.mem_cons_self).pos
      obtain ⟨hfst, hinv', hrest'⟩ := memblockAlloc_cons hinv hrest
      rw [hfst, if_neg hpos.ne']
      exact ⟨free, hinv', hrest'⟩
  | free a =>
    rw [MemblockState.exec] at hs
    by_cases ha : a ∈ s.allocated
    · rw [if_pos ha] at hs
      cases hs
      exact ⟨free ++ [a], memblockFree_inv hinv ha hrest⟩
    · rw [if_neg ha] at hs
      cases hs
  | write a b v =>
    rw [MemblockState.exec] at hs
    by_cases hw : a ∈ s.allocated ∧ a ≤ b ∧ b < a + R.blockSize
    swap
    · rw [if_neg hw] at hs
      cases hs
    rw [if_pos hw] at hs
    cases hs
    obtain ⟨ha, hlo, hhi⟩ := hw
    have hblk := (hinv.blocks a).1 (.inr ha)
    -- the byte is neither in the header of the allocator nor in that of a free block
    have hhdr : ∀ c, R.hdr ≤ c → c < R.hdr + 48 → s.mem.set b v c = s.mem c := fun c h1 h2 =>
      Bytes.set_of_ne _ _ (by
        have := hblk.hdr
        omega)
    have hfree : ∀ f ∈ free, ∀ c, f ≤ c → c < f + 24 → s.mem.set b v c = s.mem c :=
      fun f hf c h1 h2 => Bytes.set_of_ne _ _ (by
        have hne : f ≠ a := fun hc => hinv.disjoint f hf (hc ▸ ha)
        obtain ⟨hsize, hor⟩ := (hinv.isBlock hf).apart hblk hne
        simp only [sizeofBlockHdr] at hsize
        omega)
    obtain ⟨hinv', hrest'⟩ := hinv.congr hhdr hfree
    exact ⟨free, hinv', hrest'.trans hrest⟩

theorem Holds.intact (h : R.Holds s) (hnum : R.num = size / R.blockSize) :
    s.Intact R.hdr R.pa size R.blockSize := by
  obtain ⟨free, hinv, hrest⟩ := h
  refine ⟨⟨free, hinv.ring, hrest.symm, fun a => ?_, hinv.disjoint⟩, fun i hi j hj hij => ?_,
    hinv.selfCheck hrest⟩
  · rw [hinv.blocks a, ← hnum]
    exact Iff.rfl
  · rw [← hnum] at hi hj
    have hne : R.block i ≠ R.block j := by
      rcases Nat.lt_or_gt_of_ne hij with hlt | hlt
      · exact block_ne hlt
      · exact (block_ne hlt).symm
    obtain ⟨hsize, hor⟩ := IsBlock.apart ⟨i, hi, rfl⟩ ⟨j, hj, rfl⟩ hne
    unfold block at hor
    omega

end BlockRegion

theorem MemblockFits.holds (hfits : MemblockFits hdr pa size blockSize) {m : Bytes}
    (hm : m.memblockAllocatorInit hdr pa size blockSize = some (0, s.mem))
    (hempty : s.allocated = ∅) : ∃ R : BlockRegion, (R.hdr = hdr ∧ R.pa = pa ∧
      R.blockSize = blockSize ∧ R.num = size / blockSize) ∧ R.Holds s := by
  obtain ⟨h0, h1⟩ := memblockAllocatorInit_accepts hm
  refine ⟨hfits.region h0 h1, ⟨rfl, rfl, rfl, rfl⟩, ?_⟩
  obtain ⟨m', hm', hinv, hrest⟩ := BlockRegion.memblockAllocatorInit_inv (hfits.region h0 h1) m
  have hsize : (hfits.region h0 h1).num * (hfits.region h0 h1).blockSize = size :=
    Nat.div_mul_cancel (Nat.dvd_of_mod_eq_zero h1)
  have heq : s.mem = m' := by
    rw [hsize] at hm'
    exact congrArg Prod.snd (Option.some.inj (hm.symm.trans hm'))
  refine ⟨(List.range (hfits.region h0 h1).num).map (hfits.region h0 h1).block, ?_, ?_⟩
  · rw [heq, hempty]
    exact hinv
  · rw [heq, hrest, List.length_map, List.length_range]

/-- **No block is lost and none overlaps another one**, in every run, when the blocks have room for
a header and their offsets for 32 bits. -/
theorem memblock_intact (hfits : MemblockFits hdr pa size blockSize)
    (h : (memblockRuns hdr pa size blockSize).Reachable s) : s.Intact hdr pa size blockSize := by
  -- the region stays the one that the initialization has cut into blocks
  have hreg : ∃ R : BlockRegion, (R.hdr = hdr ∧ R.pa = pa ∧ R.blockSize = blockSize ∧
      R.num = size / blockSize) ∧ R.Holds s := by
    refine h.invariant (P := fun s => ∃ R : BlockRegion, (R.hdr = hdr ∧ R.pa = pa ∧
      R.blockSize = blockSize ∧ R.num = size / blockSize) ∧ R.Holds s) ?_ ?_
    · rintro s ⟨hempty, m, hm⟩
      exact hfits.holds hm hempty
    · rintro s a t - ⟨R, ⟨rfl, hpa, rfl, hnum⟩, hold⟩ hs
      exact ⟨R, ⟨rfl, hpa, rfl, hnum⟩, hold.exec hs⟩
  obtain ⟨R, ⟨rfl, rfl, rfl, hnum⟩, hold⟩ := hreg
  exact hold.intact hnum

/-- Two blocks of 24 bytes.  The first one is taken, written and given back, and then both are
taken. -/
theorem memblock_intact_two : ∃ (s t : MemblockState), (memblockRuns 8192 4096 48 24).init s ∧
    (memblockRuns 8192 4096 48 24).Run s
      [.alloc, .write 4096 4119 255, .free 4096, .alloc, .alloc] t ∧
    t.allocated = {4096, 4120} ∧ t.Intact 8192 4096 48 24 := by
  have hok : ((Bytes.memblockAllocatorInit (fun _ => 0) 8192 4096 48 24).bind fun r =>
      (System.execAll (MemblockState.exec 8192 24)
        [.alloc, .write 4096 4119 255, .free 4096, .alloc, .alloc] ⟨r.2, ∅⟩).map fun s =>
          (r.1, s.allocated)) = some (0, {4096, 4120}) := by decide +kernel
  obtain ⟨⟨ret, m⟩, hm, hok⟩ := Option.bind_eq_some_iff.1 hok
  obtain ⟨t, ht, heq⟩ := Option.map_eq_some_iff.1 hok
  obtain ⟨rfl, hall⟩ := Prod.mk.inj heq
  have hinit : (memblockRuns 8192 4096 48 24).init ⟨m, ∅⟩ := ⟨rfl, _, hm⟩
  have hrun := System.Run.of_execAll (M := memblockRuns 8192 4096 48 24) (fun _ _ _ h => h) ht
  exact ⟨_, t, hinit, hrun, hall, memblock_intact ⟨.inr (by decide), by decide, by decide,
    by decide, .inr (by decide)⟩ ((System.Reachable.of_init hinit).run hrun)⟩

/-- Two blocks of 16 bytes are accepted, and the header of the first one is in both. -/
theorem not_memblock_intact : ∃ s, (memblockRuns 8192 4096 32 16).Reachable s ∧
    ¬ s.Intact 8192 4096 32 16 := by
  have hok : (Bytes.memblockAllocatorInit (fun _ => 0) 8192 4096 32 16).map Prod.fst =
      some 0 := by decide +kernel
  obtain ⟨⟨ret, m⟩, hm, rfl⟩ := Option.map_eq_some_iff.1 hok
  refine ⟨⟨m, ∅⟩, .of_init ⟨rfl, _, hm⟩, fun h => ?_⟩
  exact absurd (h.apart 0 (by decide) 1 (by decide) (by decide)) (by decide)

end AcoOs
