import SRos.Fs.Model

/-!
# What a disk holds

`image` reads a disk as two bitmaps, a table of inodes and the data blocks. On a file system
with the super block of `sfs_format` each primitive operation changes one entry of one of them.
-/

namespace SRos.Fs

open Bytes

/-- The contents of a disk. -/
structure Image where
  inodeUsed : Nat → Bool
  blockUsed : Nat → Bool
  inode : Nat → Inode
  data : Nat → Buf

/-- An inode number that has a place in the inode table. -/
def IsIno (ino : Nat) : Prop := ino ≠ 0 ∧ ino < maxInodes

instance (ino : Nat) : Decidable (IsIno ino) := inferInstanceAs (Decidable (_ ∧ _))

/-- A block number of the data area. -/
def IsData (b : Nat) : Prop := dataBlockStart ≤ b ∧ b < diskBlocks

instance (b : Nat) : Decidable (IsData b) := inferInstanceAs (Decidable (_ ∧ _))

def image (d : Disk) : Image where
  inodeUsed := Bitmap.bit (d inodeBitmapBlock)
  blockUsed := Bitmap.bit (d blockBitmapBlock)
  inode := fun ino =>
    if IsIno ino then
      Inode.decode (d (inodeTableStart + (ino - 1) / inodesPerBlock)) (inodeOffset ino)
    else Inode.zero
  data := fun b => if IsData b then d b else zeros

namespace Image

def setInode (g : Image) (ino : Nat) (inode : Inode) : Image :=
  { g with inode := Function.update g.inode ino inode }

def setData (g : Image) (b : Nat) (buf : Buf) : Image :=
  { g with data := Function.update g.data b buf }

def markInode (g : Image) (ino : Nat) (used : Bool) : Image :=
  { g with inodeUsed := Function.update g.inodeUsed ino used }

def useBlock (g : Image) (b : Nat) : Image :=
  { g with blockUsed := Function.update g.blockUsed b true }

end Image

theorem setInode_self (g : Image) (ino : Nat) (inode : Inode) :
    (g.setInode ino inode).inode ino = inode := by
  simp [Image.setInode]

theorem setInode_other (g : Image) {ino i : Nat} (inode : Inode) (h : i ≠ ino) :
    (g.setInode ino inode).inode i = g.inode i := by
  simp [Image.setInode, h]

/-- The inode fits the packed structure. -/
structure Inode.Packed (inode : Inode) : Prop where
  ino_lt : inode.ino < 2 ^ 32
  size_lt : inode.size < 2 ^ 32
  type_lt : inode.type < 2 ^ 8
  blockCount_lt : inode.blockCount < 2 ^ 32
  blocks_lt : ∀ i, inode.blocks i < 2 ^ 32
  blocks_end : ∀ i, sfsDirectBlocks ≤ i → inode.blocks i = 0

theorem Inode.packed_decode (buf : Buf) (off : Nat) : (Inode.decode buf off).Packed where
  ino_lt := load32_lt _ _
  size_lt := load32_lt _ _
  type_lt := UInt8.toNat_lt _
  blockCount_lt := load32_lt _ _
  blocks_lt := by
    intro i
    simp only [decode]
    split
    · exact load32_lt _ _
    · decide
  blocks_end := by
    intro i hi
    exact if_neg (by omega)

/-- An inode that is written is read back. -/
theorem Inode.decode_splice {inode : Inode} (h : inode.Packed) (buf : Buf) (off : Nat) :
    Inode.decode (splice buf off inodeBytes inode.encode) off = inode := by
  have hbyte : ∀ i, i < inodeBytes →
      splice buf off inodeBytes inode.encode (off + i) = inode.encode i := by
    intro i hi
    exact splice_inside hi
  have hword : ∀ a v, a + 4 ≤ inodeBytes → v < 2 ^ 32 →
      (∀ k, k < 4 → inode.encode (a + k) = byte32 v k) →
      load32 (splice buf off inodeBytes inode.encode) (off + a) = v := by
    intro a v ha hv hk
    apply load32_of_bytes hv
    intro k hk'
    rw [Nat.add_assoc, hbyte (a + k) (by omega), hk k hk']
  have hino := hword 0 inode.ino (by decide) h.ino_lt (by
    intro k hk
    simp [encode, hk])
  have hsize := hword 4 inode.size (by decide) h.size_lt (by
    intro k hk
    unfold encode
    rw [if_neg (by omega), if_pos (by omega), Nat.add_sub_cancel_left])
  have htype : splice buf off inodeBytes inode.encode (off + 8) = UInt8.ofNat inode.type := by
    rw [hbyte 8 (by decide)]
    simp [encode]
  have hcount := hword 9 inode.blockCount (by decide) h.blockCount_lt (by
    intro k hk
    unfold encode
    rw [if_neg (by omega), if_neg (by omega), if_neg (by omega), if_pos (by omega),
      Nat.add_sub_cancel_left])
  have hblocks : (fun i => if i < sfsDirectBlocks then
      load32 (splice buf off inodeBytes inode.encode) (off + 13 + 4 * i) else 0) =
      inode.blocks := by
    funext i
    split
    · next hi =>
        unfold sfsDirectBlocks at hi
        rw [Nat.add_assoc]
        apply hword (13 + 4 * i) _ (by unfold inodeBytes; omega) (h.blocks_lt i)
        intro k hk
        unfold encode
        rw [if_neg (by omega), if_neg (by omega), if_neg (by omega), if_neg (by omega)]
        congr 2 <;> omega
    · next hi => exact (h.blocks_end i (by omega)).symm
  have htypeNat : (UInt8.ofNat inode.type).toNat = inode.type := by
    rw [UInt8.toNat_ofNat']
    exact Nat.mod_eq_of_lt h.type_lt
  unfold decode
  rw [hsize, htype, hcount, hblocks, htypeNat]
  rw [Nat.add_zero] at hino
  rw [hino]

theorem Inode.decode_congr {buf buf' : Buf} {off : Nat}
    (h : ∀ i, off ≤ i → i < off + inodeBytes → buf' i = buf i) :
    Inode.decode buf' off = Inode.decode buf off := by
  have hword : ∀ a, a + 4 ≤ inodeBytes → load32 buf' (off + a) = load32 buf (off + a) := by
    intro a ha
    apply load32_congr
    intro i hi hi'
    exact h i (by omega) (by omega)
  have hblocks : (fun i => if i < sfsDirectBlocks then load32 buf' (off + 13 + 4 * i) else 0) =
      fun i => if i < sfsDirectBlocks then load32 buf (off + 13 + 4 * i) else 0 := by
    funext i
    split
    · next hi =>
        unfold sfsDirectBlocks at hi
        rw [Nat.add_assoc]
        exact hword _ (by unfold inodeBytes; omega)
    · rfl
  have hino := hword 0 (by decide)
  rw [Nat.add_zero] at hino
  unfold decode
  rw [hblocks, hino, hword 4 (by decide), hword 9 (by decide),
    h (off + 8) (by omega) (by unfold inodeBytes; omega)]

variable {s s' : FsState}

@[simp] theorem write_sb (b : Nat) (buf : Buf) : (s.write b buf).sb = s.sb := rfl

@[simp] theorem write_mounted (b : Nat) (buf : Buf) : (s.write b buf).mounted = s.mounted := rfl

@[simp] theorem write_files (b : Nat) (buf : Buf) : (s.write b buf).files = s.files := rfl

theorem write_disk {b : Nat} (hb : b < diskBlocks) (buf : Buf) :
    (s.write b buf).disk = Function.update s.disk b buf :=
  if_neg (by omega)

theorem inodeTable_lt {ino : Nat} (h : IsIno ino) : (ino - 1) / inodesPerBlock < 2 := by
  have hlt : ino < 134 := h.2
  have hper : inodesPerBlock = 67 := rfl
  rw [hper]
  omega

/-- Two inodes of one block of the table lie apart in it. -/
theorem inodeOffset_disjoint {i j : Nat} (hi : IsIno i) (hj : IsIno j) (hne : j ≠ i)
    (hblock : (j - 1) / inodesPerBlock = (i - 1) / inodesPerBlock) :
    inodeOffset j + inodeBytes ≤ inodeOffset i ∨ inodeOffset i + inodeBytes ≤ inodeOffset j := by
  have hi0 := hi.1
  have hj0 := hj.1
  have hper : inodesPerBlock = 67 := rfl
  unfold inodeOffset inodeBytes
  rw [hper] at hblock ⊢
  omega

theorem image_write_data {b : Nat} (hb : IsData b) (buf : Buf) :
    image (s.write b buf).disk = (image s.disk).setData b buf := by
  have hb' : 5 ≤ b := hb.1
  rw [write_disk hb.2]
  unfold image Image.setData inodeBitmapBlock blockBitmapBlock inodeTableStart
  simp only [Image.mk.injEq]
  refine ⟨?_, ?_, ?_, ?_⟩
  · rw [Function.update_of_ne (by omega)]
  · rw [Function.update_of_ne (by omega)]
  · funext ino
    split
    · next h =>
        have := inodeTable_lt h
        rw [Function.update_of_ne (by omega)]
    · rfl
  · funext c
    by_cases hc : c = b
    · subst hc
      rw [Function.update_self, Function.update_self, if_pos hb]
    · rw [Function.update_of_ne hc, Function.update_of_ne hc]

theorem image_write_inodeBitmap (buf : Buf) :
    image (s.write inodeBitmapBlock buf).disk =
      { image s.disk with inodeUsed := Bitmap.bit buf } := by
  rw [write_disk (by decide)]
  unfold image inodeBitmapBlock blockBitmapBlock inodeTableStart
  simp only [Image.mk.injEq]
  refine ⟨?_, ?_, ?_, ?_⟩
  · rw [Function.update_self]
  · rw [Function.update_of_ne (by decide)]
  · funext ino
    have hnonneg := Nat.zero_le ((ino - 1) / inodesPerBlock)
    rw [Function.update_of_ne (by omega)]
  · funext c
    split
    · next h =>
        have : 5 ≤ c := h.1
        rw [Function.update_of_ne (by omega)]
    · rfl

theorem image_write_blockBitmap (buf : Buf) :
    image (s.write blockBitmapBlock buf).disk =
      { image s.disk with blockUsed := Bitmap.bit buf } := by
  rw [write_disk (by decide)]
  unfold image inodeBitmapBlock blockBitmapBlock inodeTableStart
  simp only [Image.mk.injEq]
  refine ⟨?_, ?_, ?_, ?_⟩
  · rw [Function.update_of_ne (by decide)]
  · rw [Function.update_self]
  · funext ino
    have hnonneg := Nat.zero_le ((ino - 1) / inodesPerBlock)
    rw [Function.update_of_ne (by omega)]
  · funext c
    split
    · next h =>
        have : 5 ≤ c := h.1
        rw [Function.update_of_ne (by omega)]
    · rfl

theorem blockRead_lt {d : Disk} {b : Nat} (h : b < diskBlocks) (buf : Buf) :
    blockRead d b buf = d b :=
  if_neg (by omega)

/-- The blocks of an inode are data blocks. -/
def Inode.OnData (inode : Inode) : Prop := ∀ i < inode.blockCount, IsData (inode.blocks i)

theorem blockRead_data {b : Nat} (hb : IsData b) (buf : Buf) :
    blockRead s.disk b buf = (image s.disk).data b := by
  rw [blockRead_lt hb.2]
  simp [image, hb]

theorem image_packed (d : Disk) (ino : Nat) : ((image d).inode ino).Packed := by
  simp only [image]
  split
  · exact Inode.packed_decode _ _
  · exact ⟨by decide, by decide, by decide, by decide, fun _ => (by decide : 0 < 2 ^ 32),
      fun _ _ => rfl⟩

/-- The inode holds the blocks in its list: they are used data blocks, each listed once. -/
structure Held (g : Image) (inode : Inode) : Prop where
  count_le : inode.blockCount ≤ sfsDirectBlocks
  onData : inode.OnData
  used : ∀ k < inode.blockCount, g.blockUsed (inode.blocks k) = true
  inj : ∀ a < inode.blockCount, ∀ b < inode.blockCount,
    inode.blocks a = inode.blocks b → a = b

section Mounted

variable (hsb : s.sb = SuperBlock.new)

include hsb

theorem inodeBlock_eq {ino : Nat} (h : IsIno ino) :
    inodeBlock s ino = inodeTableStart + (ino - 1) / inodesPerBlock := by
  have := inodeTable_lt h
  unfold inodeBlock
  rw [hsb]
  apply u32_of_lt
  simp only [SuperBlock.new, inodeTableStart]
  omega

theorem sfsReadInode_eq (ino : Nat) :
    sfsReadInode s ino = if IsIno ino then some ((image s.disk).inode ino) else none := by
  have hcount : s.sb.inodeCount = maxInodes := by rw [hsb]; rfl
  unfold sfsReadInode
  rw [hcount]
  by_cases h : IsIno ino
  · have := inodeTable_lt h
    rw [if_pos h, if_neg (by have := h.1; have := h.2; omega), inodeBlock_eq hsb h,
      blockRead_lt (by unfold inodeTableStart diskBlocks; omega)]
    simp [image, h]
  · rw [if_neg h, if_pos]
    unfold IsIno at h
    omega

theorem image_sfsWriteInode {inode : Inode} {ino : Nat} (hpacked : inode.Packed)
    (heq : inode.ino = ino) (hino : IsIno ino) :
    image (sfsWriteInode s inode).disk = (image s.disk).setInode ino inode := by
  subst heq
  have hcount : s.sb.inodeCount = maxInodes := by rw [hsb]; rfl
  have htable := inodeTable_lt hino
  have hnonneg := Nat.zero_le ((inode.ino - 1) / inodesPerBlock)
  have hlt : inodeTableStart + (inode.ino - 1) / inodesPerBlock < diskBlocks := by
    unfold inodeTableStart diskBlocks
    omega
  unfold sfsWriteInode
  rw [hcount, if_neg (by have := hino.1; have := hino.2; omega), inodeBlock_eq hsb hino,
    write_disk hlt, blockRead_lt hlt]
  unfold image Image.setInode inodeBitmapBlock blockBitmapBlock inodeTableStart
  simp only [Image.mk.injEq]
  refine ⟨?_, ?_, ?_, ?_⟩
  · rw [Function.update_of_ne (by omega)]
  · rw [Function.update_of_ne (by omega)]
  · funext j
    by_cases hj : j = inode.ino
    · subst hj
      rw [Function.update_self, Function.update_self, if_pos hino,
        Inode.decode_splice hpacked]
    · rw [Function.update_of_ne hj]
      split
      · next hjIno =>
          by_cases hblock : (j - 1) / inodesPerBlock = (inode.ino - 1) / inodesPerBlock
          · rw [hblock, Function.update_self]
            apply Inode.decode_congr
            intro i hi hi'
            apply splice_outside
            have hdisjoint := inodeOffset_disjoint hino hjIno hj hblock
            omega
          · rw [Function.update_of_ne (by omega)]
      · rfl
  · funext c
    split
    · next h =>
        have : 5 ≤ c := h.1
        rw [Function.update_of_ne (by omega)]
    · rfl

/-- What `sfs_alloc_inode` does: it takes the first inode number that is not used. -/
theorem sfsAllocInode_some {ino : Nat} (h : sfsAllocInode s = some (ino, s')) :
    ino < maxInodes ∧ (image s.disk).inodeUsed ino = false ∧
      (∀ j < ino, (image s.disk).inodeUsed j = true) ∧
      (∃ buf, s' = s.write inodeBitmapBlock buf) ∧
      image s'.disk = (image s.disk).markInode ino true := by
  unfold sfsAllocInode at h
  rw [hsb] at h
  simp only [SuperBlock.new, blockRead_lt (show inodeBitmapBlock < diskBlocks by decide)] at h
  split at h
  · cases h
  · next i hfind =>
      simp only [Option.some.injEq, Prod.mk.injEq] at h
      obtain ⟨rfl, rfl⟩ := h
      obtain ⟨hlt, hzero, hbelow⟩ := Bitmap.findFirstZero_eq_some hfind
      refine ⟨hlt, hzero, hbelow, ⟨_, rfl⟩, ?_⟩
      rw [image_write_inodeBitmap, Bitmap.bit_set]
      rfl

theorem sfsAllocInode_none (h : sfsAllocInode s = none) {ino : Nat} (hino : ino < maxInodes) :
    (image s.disk).inodeUsed ino = true := by
  unfold sfsAllocInode at h
  rw [hsb] at h
  simp only [SuperBlock.new, blockRead_lt (show inodeBitmapBlock < diskBlocks by decide)] at h
  split at h
  · next hfind => exact Bitmap.findFirstZero_eq_none hfind hino
  · cases h

theorem sfsFreeInode_eq {ino : Nat} (hino : IsIno ino) :
    (∃ buf, sfsFreeInode s ino = s.write inodeBitmapBlock buf) ∧
      image (sfsFreeInode s ino).disk = (image s.disk).markInode ino false := by
  have hcount : s.sb.inodeCount = maxInodes := by rw [hsb]; rfl
  have hstart : s.sb.inodeBitmapStart = inodeBitmapBlock := by rw [hsb]; rfl
  unfold sfsFreeInode
  rw [hcount, hstart, if_neg (by have := hino.1; have := hino.2; omega),
    blockRead_lt (by decide)]
  refine ⟨⟨_, rfl⟩, ?_⟩
  rw [image_write_inodeBitmap, Bitmap.bit_clear]
  rfl

/-- What `sfs_alloc_block` does: it takes the first block that is not used. -/
theorem sfsAllocBlock_some {b : Nat} (h : sfsAllocBlock s = some (b, s')) :
    IsData b ∧ (image s.disk).blockUsed b = false ∧
      (∀ j < b, (image s.disk).blockUsed j = true) ∧
      (∃ buf, s' = s.write blockBitmapBlock buf) ∧
      image s'.disk = (image s.disk).useBlock b := by
  unfold sfsAllocBlock at h
  rw [hsb] at h
  simp only [SuperBlock.new, blockRead_lt (show blockBitmapBlock < diskBlocks by decide)] at h
  split at h
  · cases h
  · next i hfind =>
      split at h
      · cases h
      · next hstart =>
          simp only [Option.some.injEq, Prod.mk.injEq] at h
          obtain ⟨rfl, rfl⟩ := h
          obtain ⟨hlt, hzero, hbelow⟩ := Bitmap.findFirstZero_eq_some hfind
          have hge : dataBlockStart ≤ i := by
            rw [int32_of_lt (by decide)] at hstart
            omega
          refine ⟨⟨hge, hlt⟩, hzero, hbelow, ⟨_, rfl⟩, ?_⟩
          rw [image_write_blockBitmap, Bitmap.bit_set]
          rfl

theorem sfsAllocBlock_none (h : sfsAllocBlock s = none)
    (hlow : ∀ b < dataBlockStart, (image s.disk).blockUsed b = true) {b : Nat}
    (hb : b < diskBlocks) : (image s.disk).blockUsed b = true := by
  unfold sfsAllocBlock at h
  rw [hsb] at h
  simp only [SuperBlock.new, blockRead_lt (show blockBitmapBlock < diskBlocks by decide)] at h
  split at h
  · next hfind => exact Bitmap.findFirstZero_eq_none hfind hb
  · next i hfind =>
      split at h
      · next hstart =>
          rw [int32_of_lt (by decide)] at hstart
          have hused := hlow i (by omega)
          have hfree := (Bitmap.findFirstZero_eq_some hfind).2.1
          exact absurd hused (by simpa [image] using hfree)
      · cases h

end Mounted

end SRos.Fs
