import Mathlib.Data.List.Chain
import SRos.Lib.Tiling
import SRos.Heap.Model

/-!
# Block lists in memory

The heap is a list of blocks that are laid out from `heapStart` to `heapEnd`. `Rep m bs` says
that the tags of the memory `m` describe the list `bs` and that the epilogue stands behind it.
The macros of the source read the tags of such a memory off its list.
-/

namespace SRos.Heap

open Bytes Tiling

/-- A block, header and footer included. -/
structure Block where
  size : Nat
  alloc : Bool
  dvd : 8 ∣ size
  minBlock_le : minBlock ≤ size
  deriving DecidableEq

namespace Block

/-- The word in the header and in the footer. -/
def tag (b : Block) : Nat := b.size + b.alloc.toNat

def mark (b : Block) (alloc : Bool) : Block := { b with alloc := alloc }

/-- Two neighbours made one free block. -/
def join (b c : Block) : Block where
  size := b.size + c.size
  alloc := false
  dvd := Nat.dvd_add b.dvd c.dvd
  minBlock_le := Nat.le_add_right_of_le b.minBlock_le

theorem sixteen_le (b : Block) : 16 ≤ b.size := b.minBlock_le

theorem tag_of_free {b : Block} (h : b.alloc = false) : b.tag = b.size := by
  simp [tag, h]

end Block

variable {m m' : Mem} {a : Nat} {b c : Block} {bs pre post : List Block}

theorem and_size {n : Nat} (h : n < 2 ^ 32) : n &&& 0xFFFFFFF8 = n / 8 * 8 := by
  exact and_highMask (show n < 2 ^ (3 + 29) from h)

theorem and_clear {n : Nat} (h : n < 2 ^ 32) : n &&& 0xFFFFFFFE = n / 2 * 2 := by
  exact and_highMask (show n < 2 ^ (1 + 31) from h)

/-- Header and footer of the block `b` at the address `a`. -/
structure Tagged (m : Mem) (a : Nat) (b : Block) : Prop where
  header : load32 m a = b.tag
  footer : load32 m (a + b.size - headerSize) = b.tag

namespace Tagged

/-- A block keeps its tags when nothing but the bytes between them changes. -/
theorem congr_tags (h : Tagged m a b)
    (heq : ∀ i, a ≤ i → i < a + b.size → (i < a + headerSize ∨ a + b.size ≤ i + headerSize) →
      m' i = m i) : Tagged m' a b := by
  have hsize := b.sixteen_le
  unfold headerSize at heq
  constructor
  · rw [← h.header]
    apply load32_congr
    intro i hi hi'
    exact heq i hi (by omega) (.inl hi')
  · rw [← h.footer]
    apply load32_congr
    unfold headerSize
    intro i hi hi'
    exact heq i (by omega) (by omega) (.inr (by omega))

theorem congr (h : Tagged m a b)
    (heq : ∀ i, a ≤ i → i < a + b.size → m' i = m i) : Tagged m' a b :=
  h.congr_tags fun i hi hi' _ => heq i hi hi'

theorem tag_lt (h : Tagged m a b) : b.tag < 2 ^ 32 := by
  rw [← h.header]
  exact load32_lt m a

end Tagged

theorem blockSize_of_load (h : load32 m a = b.tag) : blockSize m a = b.size := by
  have hlt : b.tag < 2 ^ 32 := by
    rw [← h]
    exact load32_lt m a
  obtain ⟨k, hk⟩ := b.dvd
  have hflag := b.alloc.toNat_lt
  unfold blockSize
  rw [h, and_size hlt]
  unfold Block.tag
  omega

theorem blockIsAlloc_of_load (h : load32 m a = b.tag) : blockIsAlloc m a = b.alloc := by
  obtain ⟨k, hk⟩ := b.dvd
  unfold blockIsAlloc
  rw [h, Nat.and_one_is_mod]
  unfold Block.tag
  cases b.alloc
  · simp only [Bool.toNat_false, bne_eq_false_iff_eq]
    omega
  · simp only [Bool.toNat_true, bne_iff_ne]
    omega

/-- The memory `m` holds the blocks `bs`, and the epilogue behind them. -/
structure Rep (m : Mem) (bs : List Block) : Prop where
  tags : ∀ x ∈ placed Block.size heapStart bs, Tagged m x.1 x.2
  filled : total Block.size bs = heapSize
  epilogue : load32 m heapEnd = 1

namespace Rep

theorem tagged (h : Rep m (pre ++ b :: post)) :
    Tagged m (heapStart + total Block.size pre) b :=
  h.tags (_, b) (by simp)

theorem room (h : Rep m (pre ++ b :: post)) :
    total Block.size pre + b.size + total Block.size post = heapSize := by
  have hfilled := h.filled
  simp only [total_append, total_cons] at hfilled
  omega

theorem blockSize_eq (h : Rep m (pre ++ b :: post)) :
    blockSize m (heapStart + total Block.size pre) = b.size :=
  blockSize_of_load h.tagged.header

theorem blockIsAlloc_eq (h : Rep m (pre ++ b :: post)) :
    blockIsAlloc m (heapStart + total Block.size pre) = b.alloc :=
  blockIsAlloc_of_load h.tagged.header

theorem nextBlock_eq (h : Rep m (pre ++ b :: post)) :
    nextBlock m (heapStart + total Block.size pre) =
      heapStart + total Block.size (pre ++ [b]) := by
  have hroom := h.room
  unfold nextBlock
  rw [h.blockSize_eq]
  unfold u32 heapStart
  unfold heapSize at hroom
  simp only [total_append, total_cons, total_nil]
  omega

/-- The walk ends at the epilogue. -/
theorem blockSize_end (h : Rep m bs) : blockSize m (heapStart + total Block.size bs) = 0 := by
  unfold blockSize
  rw [h.filled, show heapStart + heapSize = heapEnd from rfl, h.epilogue]
  decide

/-- Rewriting the tags of a run of blocks inside their own room. -/
theorem replace {mid mid' : List Block} (h : Rep m (pre ++ mid ++ post))
    (htotal : total Block.size mid' = total Block.size mid)
    (heq : ∀ i, i < heapStart + total Block.size pre ∨
      heapStart + total Block.size (pre ++ mid) ≤ i → m' i = m i)
    (hnew : ∀ x ∈ placed Block.size (heapStart + total Block.size pre) mid',
      Tagged m' x.1 x.2) :
    Rep m' (pre ++ mid' ++ post) := by
  have hfilled := h.filled
  constructor
  · refine forall_placed_replace h.tags htotal ?_ hnew
    intro c b hcb htag
    apply htag.congr
    intro i hi hi'
    apply heq
    omega
  · simpa only [total_append, htotal] using hfilled
  · rw [← h.epilogue]
    apply load32_congr
    intro i hi hi'
    apply heq
    simp only [total_append] at hfilled ⊢
    unfold heapEnd at hi
    omega

end Rep

/-- The footer of a block whose header has been written. -/
theorem blockFooter_eq (h : load32 m a = b.tag) (hroom : a + b.size < 2 ^ 32) :
    blockFooter m a = a + b.size - headerSize := by
  have hsize := b.sixteen_le
  unfold blockFooter
  rw [blockSize_of_load h, u32_of_lt hroom]
  apply u32Sub_of_le hroom
  unfold headerSize
  omega

/-- The header and the footer of the block `b` written at the address `a`. -/
def writeTags (m : Mem) (a : Nat) (b : Block) : Mem :=
  store32 (store32 m a b.tag) (a + b.size - headerSize) b.tag

theorem writeTags_tagged (htag : b.tag < 2 ^ 32) : Tagged (writeTags m a b) a b := by
  have hsize := b.sixteen_le
  unfold writeTags
  constructor
  · rw [load32_store32_ne, load32_store32_same m a htag]
    unfold headerSize
    omega
  · exact load32_store32_same _ _ htag

theorem writeTags_outside {i : Nat} (hi : i < a ∨ a + b.size ≤ i) : writeTags m a b i = m i := by
  have hsize := b.sixteen_le
  unfold writeTags headerSize
  rw [store32_of_outside (by omega), store32_of_outside (by omega)]

/-- The source finds the footer through the header it has just written. -/
theorem store_header_footer (hroom : a + b.size < 2 ^ 32) (htag : b.tag < 2 ^ 32) :
    store32 (store32 m a b.tag) (blockFooter (store32 m a b.tag) a) b.tag =
      writeTags m a b := by
  rw [blockFooter_eq (load32_store32_same m a htag) hroom]
  rfl

/-- Tags that are written to one block in the room of a run of blocks. -/
theorem Rep.writeTags_replace {mid : List Block} (h : Rep m (pre ++ mid ++ post))
    (htotal : b.size = total Block.size mid) (htag : b.tag < 2 ^ 32) :
    Rep (writeTags m (heapStart + total Block.size pre) b) (pre ++ [b] ++ post) := by
  apply h.replace
  · simp [htotal]
  · intro i hi
    apply writeTags_outside
    simp only [total_append] at hi
    omega
  · intro x hx
    rw [placed_cons, placed_nil, List.mem_singleton] at hx
    subst hx
    exact writeTags_tagged htag

end SRos.Heap
