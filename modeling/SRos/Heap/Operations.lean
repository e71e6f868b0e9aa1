import SRos.Heap.Layout

/-!
# What the heap functions do to the block list

`kmalloc` takes the first free block that is large enough and cuts off what it does not need.
`kfree` marks a block free and joins it with a free block behind it and a free block in front
of it.
-/

namespace SRos.Heap

open Bytes Tiling

variable {m : Mem} {a need size : Nat} {b : Block} {bs pre post : List Block}

theorem needSize_dvd (size : Nat) : 8 ∣ needSize size := by
  unfold needSize u32 headerSize minBlock align
  rw [and_size (Nat.mod_lt _ (by decide))]
  simp only
  split
  · decide
  · omega

theorem minBlock_le_needSize (size : Nat) : minBlock ≤ needSize size := by
  unfold needSize
  simp only
  split
  · exact le_rfl
  · next h => exact Nat.le_of_not_lt h

/-- The block that serves a request. -/
def Block.served (size : Nat) : Block where
  size := needSize size
  alloc := true
  dvd := needSize_dvd size
  minBlock_le := minBlock_le_needSize size

/-- The free block that is left of `b` behind `need`. -/
def Block.rest (b need : Block) (h : minBlock ≤ b.size - need.size) : Block where
  size := b.size - need.size
  alloc := false
  dvd := Nat.dvd_sub b.dvd need.dvd
  minBlock_le := h

/-- The blocks that a free block `b` becomes when the block `need` is taken from it. -/
def Block.carve (b need : Block) : List Block :=
  if h : minBlock ≤ b.size - need.size then [need, b.rest need h] else [b.mark true]

def Block.Fits (need b : Block) : Prop := b.alloc = false ∧ need.size ≤ b.size

instance (need b : Block) : Decidable (need.Fits b) :=
  inferInstanceAs (Decidable (_ ∧ _))

theorem total_carve {need : Block} (h : need.Fits b) :
    total Block.size (b.carve need) = b.size := by
  unfold Block.carve
  have hle := h.2
  split
  · simp only [total_cons, total_nil, Block.rest]
    omega
  · simp [Block.mark]

/-- `setTags` writes the tags of an allocated block. -/
theorem setTags_eq (halloc : b.alloc = true) (hroom : a + b.size < 2 ^ 32) :
    setTags m a b.size = writeTags m a b := by
  have hsize : b.size < 2 ^ 32 := by omega
  have htag : b.tag = b.size + 1 := by simp [Block.tag, halloc]
  have hor : b.size ||| 1 = b.tag := by
    obtain ⟨k, hk⟩ := b.dvd
    rw [htag]
    exact or_one_of_even (by omega)
  have htag_lt : b.tag < 2 ^ 32 := by
    obtain ⟨k, hk⟩ := b.dvd
    omega
  have hhead : blockSetAlloc (store32 m a b.size) a = store32 m a b.tag := by
    unfold blockSetAlloc
    rw [load32_store32_same m a hsize, hor, store32_store32_same]
  have hfooter := blockFooter_eq (load32_store32_same m a htag_lt) hroom
  have hfooter' : blockFooter (store32 (store32 m a b.tag) (a + b.size - headerSize) b.size) a =
      a + b.size - headerSize := by
    have h16 := b.sixteen_le
    apply blockFooter_eq _ hroom
    rw [load32_store32_ne, load32_store32_same m a htag_lt]
    unfold headerSize
    omega
  unfold setTags
  simp only [hhead, hfooter, hfooter']
  unfold blockSetAlloc
  rw [load32_store32_same _ _ hsize, hor, store32_store32_same]
  rfl

/-- The memory after a free block has been cut. -/
theorem Rep.carve {need : Block} (h : Rep m (pre ++ b :: post)) (hfits : need.Fits b)
    (halloc : need.alloc = true) :
    Rep (Heap.carve m (heapStart + total Block.size pre) need.size)
      (pre ++ b.carve need ++ post) := by
  have hroom := h.room
  have hle := hfits.2
  have h' : Rep m (pre ++ [b] ++ post) := by simpa using h
  have hconst : heapStart + heapSize + 1 < 2 ^ 32 := by decide
  unfold Heap.carve Block.carve
  simp only [h.blockSize_eq]
  split
  · next hrest =>
      rw [setTags_eq halloc (by omega)]
      have hnew : u32 (heapStart + total Block.size pre + need.size) =
          heapStart + total Block.size pre + need.size := u32_of_lt (by omega)
      have hsize : (b.rest need hrest).size = b.size - need.size := rfl
      have htag : (b.rest need hrest).tag = b.size - need.size := Block.tag_of_free rfl
      have hstore := @store_header_footer (writeTags m (heapStart + total Block.size pre) need)
        (heapStart + total Block.size pre + need.size) (b.rest need hrest) (by omega) (by omega)
      rw [htag] at hstore
      rw [hnew, hstore]
      apply h'.replace
      · simp only [total_cons, total_nil]
        omega
      · intro i hi
        simp only [total_append, total_cons, total_nil] at hi
        rw [writeTags_outside (by omega), writeTags_outside (by omega)]
      · intro x hx
        simp only [placed_cons, placed_nil, List.mem_cons, List.not_mem_nil, or_false] at hx
        have htagNeed : need.tag < 2 ^ 32 := by
          unfold Block.tag
          rw [halloc, Bool.toNat_true]
          omega
        rcases hx with rfl | rfl
        · apply (writeTags_tagged htagNeed).congr
          intro i _ hi
          exact writeTags_outside (.inl hi)
        · exact writeTags_tagged (by omega)
  · next hrest =>
      have hmark : (b.mark true).size = b.size := rfl
      rw [← hmark, setTags_eq rfl (by omega)]
      apply h'.writeTags_replace
      · simp [hmark]
      · simp only [Block.tag, Block.mark, Bool.toNat_true]
        omega

/-- One step of the walk in `kmalloc`. -/
theorem Rep.kmallocWalk_cons (h : Rep m (pre ++ b :: post)) (need : Block) (fuel : Nat) :
    kmallocWalk m need.size (fuel + 1) (heapStart + total Block.size pre) =
      if need.Fits b then
        some (heapStart + total Block.size pre + headerSize,
          Heap.carve m (heapStart + total Block.size pre) need.size)
      else kmallocWalk m need.size fuel (heapStart + total Block.size (pre ++ [b])) := by
  have hroom := h.room
  have hsize := b.sixteen_le
  have hptr : u32 (heapStart + total Block.size pre + headerSize) =
      heapStart + total Block.size pre + headerSize := by
    apply u32_of_lt
    unfold heapStart headerSize
    unfold heapSize at hroom
    omega
  rw [kmallocWalk, h.blockSize_eq, h.blockIsAlloc_eq, h.nextBlock_eq, hptr,
    if_neg (by omega)]
  rfl

/-- The walk ends at the epilogue when no block fits. -/
theorem Rep.kmallocWalk_none {need : Block} (h : Rep m (pre ++ post))
    (hpost : ∀ c ∈ post, ¬ need.Fits c) {fuel : Nat} (hfuel : post.length < fuel) :
    kmallocWalk m need.size fuel (heapStart + total Block.size pre) = some (0, m) := by
  induction post generalizing pre fuel with
  | nil =>
      obtain ⟨fuel, rfl⟩ := Nat.exists_eq_add_of_lt hfuel
      rw [List.append_nil] at h
      simp [kmallocWalk, h.blockSize_end]
  | cons c post ih =>
      obtain ⟨fuel, rfl⟩ := Nat.exists_eq_add_of_lt hfuel
      rw [h.kmallocWalk_cons, if_neg (hpost c (by simp))]
      apply ih
      · simpa using h
      · intro d hd
        exact hpost d (by simp [hd])
      · simp only [List.length_cons]
        omega

/-- The walk stops at the first block that fits. -/
theorem Rep.kmallocWalk_some {need : Block} {mid : List Block}
    (h : Rep m (pre ++ mid ++ b :: post)) (hmid : ∀ c ∈ mid, ¬ need.Fits c)
    (hfits : need.Fits b) {fuel : Nat} (hfuel : mid.length < fuel) :
    kmallocWalk m need.size fuel (heapStart + total Block.size pre) =
      some (heapStart + total Block.size (pre ++ mid) + headerSize,
        Heap.carve m (heapStart + total Block.size (pre ++ mid)) need.size) := by
  induction mid generalizing pre fuel with
  | nil =>
      obtain ⟨fuel, rfl⟩ := Nat.exists_eq_add_of_lt hfuel
      rw [List.append_nil] at h ⊢
      rw [h.kmallocWalk_cons, if_pos hfits]
  | cons c mid ih =>
      obtain ⟨fuel, rfl⟩ := Nat.exists_eq_add_of_lt hfuel
      have hcons : Rep m (pre ++ c :: (mid ++ b :: post)) := by simpa using h
      rw [hcons.kmallocWalk_cons, if_neg (hmid c (by simp))]
      have happend : pre ++ c :: mid = pre ++ [c] ++ mid := by simp
      rw [happend] at h ⊢
      apply ih h
      · intro d hd
        exact hmid d (by simp [hd])
      · simp only [List.length_cons]
        omega

theorem Rep.length_lt_walkFuel (h : Rep m bs) : bs.length < walkFuel := by
  have hlen := mul_length_le_total fun (b : Block) (_ : b ∈ bs) => b.sixteen_le
  rw [h.filled] at hlen
  unfold heapSize at hlen
  unfold walkFuel
  omega

/-- What `kmalloc` does to a heap of blocks: it returns `NULL` when no block fits, and
otherwise the first block that does. -/
theorem Rep.kmalloc (h : Rep m bs) (hsize : size ≠ 0) :
    ((∀ c ∈ bs, ¬ (Block.served size).Fits c) ∧ Heap.kmalloc m size = some (0, m)) ∨
    ∃ pre b post m', bs = pre ++ b :: post ∧ (∀ c ∈ pre, ¬ (Block.served size).Fits c) ∧
      (Block.served size).Fits b ∧
      Heap.kmalloc m size = some (heapStart + total Block.size pre + headerSize, m') ∧
      Rep m' (pre ++ b.carve (Block.served size) ++ post) := by
  have hfuel := h.length_lt_walkFuel
  unfold Heap.kmalloc
  rw [if_neg hsize]
  cases hfind : bs.find? (fun c => decide ((Block.served size).Fits c)) with
  | none =>
      left
      have hnone : ∀ c ∈ bs, ¬ (Block.served size).Fits c := by
        intro c hc
        simpa using List.find?_eq_none.mp hfind c hc
      have hnil : Rep m ([] ++ bs) := h
      exact ⟨hnone, hnil.kmallocWalk_none hnone hfuel⟩
  | some b =>
      right
      obtain ⟨hb, pre, post, rfl, hpre⟩ := List.find?_eq_some_iff_append.mp hfind
      have hfits : (Block.served size).Fits b := of_decide_eq_true hb
      have hnone : ∀ c ∈ pre, ¬ (Block.served size).Fits c := by
        intro c hc
        simpa using hpre c hc
      refine ⟨pre, b, post, _, rfl, hnone, hfits, ?_, h.carve hfits rfl⟩
      have hnil : Rep m ([] ++ pre ++ b :: post) := h
      apply hnil.kmallocWalk_some hnone hfits
      simp only [List.length_append, List.length_cons] at hfuel
      omega

/-- A free block joined with a free block behind it. -/
def absorbNext (b : Block) : List Block → Block × List Block
  | [] => (b, [])
  | c :: cs => if c.alloc then (b, c :: cs) else (b.join c, cs)

/-- A free block joined with a free block in front of it. -/
def absorbPrev (pre : List Block) (b : Block) : List Block :=
  match pre.getLast? with
  | none => [b]
  | some p => if p.alloc then pre ++ [b] else pre.dropLast ++ [p.join b]

theorem absorbNext_alloc {c : Block} (h : c.alloc = true) :
    absorbNext b (c :: post) = (b, c :: post) := by
  simp [absorbNext, h]

theorem absorbNext_free {c : Block} (h : c.alloc = false) :
    absorbNext b (c :: post) = (b.join c, post) := by
  simp [absorbNext, h]

theorem absorbPrev_alloc {p : Block} (h : p.alloc = true) :
    absorbPrev (pre ++ [p]) b = pre ++ [p] ++ [b] := by
  simp [absorbPrev, h]

theorem absorbPrev_free {p : Block} (h : p.alloc = false) :
    absorbPrev (pre ++ [p]) b = pre ++ [p.join b] := by
  simp [absorbPrev, h]

theorem Rep.kfreeRelease (h : Rep m (pre ++ b :: post)) :
    Rep (Heap.kfreeRelease m (heapStart + total Block.size pre))
      (pre ++ b.mark false :: post) := by
  have hroom := h.room
  have hconst : heapStart + heapSize + 1 < 2 ^ 32 := by decide
  have hlt := h.tagged.tag_lt
  have htag : (b.mark false).tag = b.size := Block.tag_of_free rfl
  have hclear : load32 m (heapStart + total Block.size pre) &&& 0xFFFFFFFE =
      (b.mark false).tag := by
    obtain ⟨k, hk⟩ := b.dvd
    have hflag := b.alloc.toNat_lt
    rw [h.tagged.header, and_clear hlt, htag]
    unfold Block.tag
    omega
  have hload : load32 (store32 m (heapStart + total Block.size pre) (b.mark false).tag)
      (heapStart + total Block.size pre) = (b.mark false).tag :=
    load32_store32_same _ _ (by omega)
  have hsize : (b.mark false).size = b.size := rfl
  have heq : Heap.kfreeRelease m (heapStart + total Block.size pre) =
      writeTags m (heapStart + total Block.size pre) (b.mark false) := by
    unfold Heap.kfreeRelease blockSetFree
    simp only [hclear, hload]
    exact store_header_footer (by omega) (by omega)
  have h' : Rep m (pre ++ [b] ++ post) := by simpa using h
  rw [heq]
  have hrep := h'.writeTags_replace (b := b.mark false) (by simp [hsize]) (by omega)
  simpa using hrep

/-- Two neighbours become one free block when its tags are written over them. -/
theorem Rep.writeTags_join {c : Block} (h : Rep m (pre ++ b :: c :: post)) :
    store32 (store32 m (heapStart + total Block.size pre) (u32 (b.size + c.size)))
        (blockFooter (store32 m (heapStart + total Block.size pre) (u32 (b.size + c.size)))
          (heapStart + total Block.size pre)) (u32 (b.size + c.size)) =
      writeTags m (heapStart + total Block.size pre) (b.join c) ∧
    Rep (writeTags m (heapStart + total Block.size pre) (b.join c))
      (pre ++ b.join c :: post) := by
  have hroom := h.room
  simp only [total_cons] at hroom
  have hconst : heapStart + heapSize + 1 < 2 ^ 32 := by decide
  have hsize : (b.join c).size = b.size + c.size := rfl
  have htag : (b.join c).tag = b.size + c.size := Block.tag_of_free rfl
  constructor
  · rw [u32_of_lt (by omega), ← htag]
    exact store_header_footer (by omega) (by omega)
  · have h' : Rep m (pre ++ [b, c] ++ post) := by simpa using h
    have hrep := h'.writeTags_replace (b := b.join c) (by simp [hsize]) (by omega)
    simpa using hrep

theorem Rep.kfreeMergeNext (h : Rep m (pre ++ b :: post)) :
    Rep (Heap.kfreeMergeNext m (heapStart + total Block.size pre))
      (pre ++ (absorbNext b post).1 :: (absorbNext b post).2) := by
  unfold Heap.kfreeMergeNext
  simp only [h.nextBlock_eq]
  cases post with
  | nil =>
      have hend : blockSize m (heapStart + total Block.size (pre ++ [b])) = 0 := h.blockSize_end
      rw [if_neg (by omega)]
      exact h
  | cons c post =>
      have hc : Rep m (pre ++ [b] ++ c :: post) := by simpa using h
      have hsize := c.sixteen_le
      rw [hc.blockSize_eq, hc.blockIsAlloc_eq, h.blockSize_eq]
      cases halloc : c.alloc with
      | true => simpa [absorbNext_alloc halloc] using h
      | false =>
          rw [if_pos ⟨by omega, rfl⟩, h.writeTags_join.1, absorbNext_free halloc]
          exact h.writeTags_join.2

theorem Rep.prevBlock_eq {p : Block} (h : Rep m (pre ++ p :: b :: post)) :
    prevBlock m (heapStart + total Block.size (pre ++ [p])) =
      heapStart + total Block.size pre := by
  have hroom := h.room
  have hsize := p.sixteen_le
  have hconst : heapStart + heapSize < 2 ^ 32 := by decide
  have hfooter := blockSize_of_load h.tagged.footer
  have hlast : u32Sub (heapStart + total Block.size pre + p.size) headerSize =
      heapStart + total Block.size pre + p.size - headerSize := by
    apply u32Sub_of_le (by omega)
    unfold headerSize
    omega
  simp only [total_append, total_cons, total_nil, Nat.add_zero, ← Nat.add_assoc]
  unfold prevBlock
  rw [hlast, hfooter, u32Sub_of_le (by omega) (by omega)]
  omega

theorem Rep.kfreeMergePrev (h : Rep m (pre ++ b :: post)) :
    Rep (Heap.kfreeMergePrev m (heapStart + total Block.size pre))
      (absorbPrev pre b ++ post) := by
  rcases List.eq_nil_or_concat pre with rfl | ⟨pre, p, rfl⟩
  · simpa [Heap.kfreeMergePrev, absorbPrev] using h
  · rw [List.concat_eq_append] at h ⊢
    have hp : Rep m (pre ++ p :: b :: post) := by simpa using h
    have hsize := p.sixteen_le
    have hlt : heapStart < heapStart + total Block.size (pre ++ [p]) := by
      simp only [total_append, total_cons, total_nil]
      omega
    unfold Heap.kfreeMergePrev
    simp only [hp.prevBlock_eq, hp.blockIsAlloc_eq, hp.blockSize_eq, h.blockSize_eq, if_pos hlt]
    cases halloc : p.alloc with
    | true => simpa [absorbPrev_alloc halloc] using h
    | false =>
        rw [if_pos rfl, hp.writeTags_join.1, absorbPrev_free halloc]
        simpa using hp.writeTags_join.2

/-- The blocks after a block between `pre` and `post` has been freed. -/
def release (pre : List Block) (b : Block) (post : List Block) : List Block :=
  absorbPrev pre (absorbNext (b.mark false) post).1 ++ (absorbNext (b.mark false) post).2

/-- What `kfree` does to a heap of blocks. -/
theorem Rep.kfree (h : Rep m (pre ++ b :: post)) :
    Rep (Heap.kfree m (heapStart + total Block.size pre + headerSize))
      (release pre b post) := by
  have hroom := h.room
  have hconst : heapStart + heapSize + headerSize < 2 ^ 32 := by decide
  have hhdr : u32Sub (heapStart + total Block.size pre + headerSize) headerSize =
      heapStart + total Block.size pre := by
    rw [u32Sub_of_le (by omega) (by omega)]
    omega
  have hne : heapStart + total Block.size pre + headerSize ≠ 0 := by
    unfold heapStart
    omega
  unfold Heap.kfree release
  simp only [if_neg hne, hhdr]
  exact h.kfreeRelease.kfreeMergeNext.kfreeMergePrev

end SRos.Heap
