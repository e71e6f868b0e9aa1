import SRos.Fs.Create

/-!
# Reading and writing file data

The bytes of a file are numbered through its blocks. `readLoop` copies them up to the end of the
last block. `writeLoop` overwrites them and gives the file new blocks at its end, as long as the
inode has room for them and the disk has free ones.
-/

namespace SRos.Fs

open Bytes

/-- The byte of a file at a position. -/
def fileByte (g : Image) (inode : Inode) (p : Nat) : UInt8 :=
  g.data (inode.blocks (p / blockSize)) (p % blockSize)

/-- The bytes that the blocks of an inode have room for. -/
def Inode.room (inode : Inode) : Nat := blockSize * inode.blockCount

theorem blockSize_pos : 0 < blockSize := by decide

variable {s s' : FsState} {g g' g'' : Image} {inode inode' inode'' : Inode}

theorem Inode.div_lt {p : Nat} (h : p < inode.room) : p / blockSize < inode.blockCount :=
  Nat.div_lt_of_lt_mul h

theorem Held.room_le (h : Held g inode) : inode.room ≤ 49152 := by
  have hcount : inode.blockCount ≤ 12 := h.count_le
  have hsize : blockSize = 4096 := rfl
  unfold Inode.room
  rw [hsize]
  omega

/-- The byte of a file at a position, on the disk. -/
def diskByte (d : Disk) (inode : Inode) (p : Nat) : UInt8 :=
  d (inode.blocks (p / blockSize)) (p % blockSize)

theorem fileByte_image {d : Disk} (honData : inode.OnData) {p : Nat} (hp : p < inode.room) :
    fileByte (image d) inode p = diskByte d inode p := by
  have hdata : (image d).data (inode.blocks (p / blockSize)) = d (inode.blocks (p / blockSize)) :=
    if_pos (honData _ (Inode.div_lt hp))
  rw [fileByte, hdata, diskByte]

/-- The loop of `sfs_read_file` fills the buffer from `bytesRead` on with the bytes of the file,
up to `size` or to the end of its blocks. -/
theorem readLoop_spec {d : Disk} (hblocks : ∀ i < inode.blockCount, inode.blocks i < diskBlocks)
    (hroom : inode.room ≤ 49152) {size offset : Nat} {fuel bytesRead : Nat} {block buf : Buf}
    (hle : bytesRead ≤ size) (hfuel : size ≤ bytesRead + fuel)
    (hpos : offset + bytesRead ≤ inode.room) :
    (readLoop d inode size offset fuel bytesRead block buf).1 = min size (inode.room - offset) ∧
      ∀ j, (readLoop d inode size offset fuel bytesRead block buf).2 j =
        if bytesRead ≤ j ∧ j < min size (inode.room - offset) then diskByte d inode (offset + j)
        else buf j := by
  have hsize : blockSize = 4096 := rfl
  induction fuel generalizing bytesRead block buf with
  | zero =>
      rw [readLoop]
      refine ⟨by simp only; omega, ?_⟩
      intro j
      rw [if_neg (by omega)]
  | succ fuel ih =>
      rw [readLoop]
      by_cases hdone : size ≤ bytesRead
      · rw [if_pos hdone]
        refine ⟨by simp only; omega, ?_⟩
        intro j
        rw [if_neg (by omega)]
      · rw [if_neg hdone, u32_of_lt (by omega)]
        by_cases hend : inode.blockCount ≤ (offset + bytesRead) / blockSize
        · have hfull : inode.room ≤ offset + bytesRead := by
            unfold Inode.room
            rw [hsize] at hend ⊢
            omega
          simp only [if_pos hend]
          refine ⟨by omega, ?_⟩
          intro j
          rw [if_neg (by omega)]
        · simp only [if_neg hend]
          have hidx : (offset + bytesRead) / blockSize < inode.blockCount := by omega
          have hcopy : 0 < min (blockSize - (offset + bytesRead) % blockSize)
              (size - bytesRead) := by
            rw [hsize]
            omega
          have hnext : offset + (bytesRead + min (blockSize - (offset + bytesRead) % blockSize)
              (size - bytesRead)) ≤ inode.room := by
            unfold Inode.room
            rw [hsize] at hidx ⊢
            omega
          obtain ⟨hn, hbuf⟩ := ih (by omega) (by omega) hnext
          refine ⟨hn, ?_⟩
          intro j
          rw [hbuf j, blockRead_lt (hblocks _ hidx)]
          by_cases hlater : bytesRead + min (blockSize - (offset + bytesRead) % blockSize)
              (size - bytesRead) ≤ j
          · rw [splice_outside (.inr hlater)]
            congr 1
            simp only [eq_iff_iff]
            omega
          · rw [if_neg (by omega)]
            by_cases hnow : bytesRead ≤ j
            · obtain ⟨i, rfl⟩ := Nat.exists_eq_add_of_le hnow
              rw [splice_inside (by omega), if_pos (by omega)]
              unfold diskByte
              have hdiv : (offset + (bytesRead + i)) / blockSize =
                  (offset + bytesRead) / blockSize := by
                rw [hsize] at hlater ⊢
                omega
              have hmod : (offset + (bytesRead + i)) % blockSize =
                  (offset + bytesRead) % blockSize + i := by
                rw [hsize] at hlater ⊢
                omega
              rw [hdiv, hmod]
            · rw [splice_outside (by omega), if_neg (by omega)]

/-- What `sfs_read_file` returns at a position inside the blocks of the file. -/
theorem sfsReadFile_spec (honData : inode.OnData) (hroom : inode.room ≤ 49152)
    {size offset : Nat} {buf : Buf} (hpos : offset ≤ inode.room) :
    ∃ n, (sfsReadFile s.disk inode buf size offset).1 = n ∧ offset + n ≤ inode.room ∧
      (∀ j, (sfsReadFile s.disk inode buf size offset).2 j =
        if j < n then fileByte (image s.disk) inode (offset + j) else buf j) ∧
      (inode.size ≤ inode.room → offset ≤ inode.size → size < 2 ^ 31 →
        n = min size (inode.size - offset)) := by
  unfold sfsReadFile
  by_cases hend : inode.size ≤ offset
  · refine ⟨0, by rw [if_pos hend], by omega, ?_, by omega⟩
    intro j
    rw [if_pos hend, if_neg (by omega)]
  · simp only [if_neg hend]
    generalize hsize' : (if inode.size < u32 (offset + size) then inode.size - offset else size) =
      size'
    obtain ⟨hn, hbuf⟩ := @readLoop_spec inode s.disk (fun i hi => (honData i hi).2) hroom size' offset
      size' 0 uninit buf (Nat.zero_le size') (by omega) hpos
    refine ⟨_, hn, by omega, ?_, ?_⟩
    · intro j
      rw [hbuf j]
      by_cases hj : j < min size' (inode.room - offset)
      · rw [if_pos ⟨Nat.zero_le j, hj⟩, if_pos hj, fileByte_image honData (by omega)]
      · rw [if_neg (fun hin => hj hin.2), if_neg hj]
    · intro hle hlt hsmall
      rw [u32_of_lt (by omega)] at hsize'
      split at hsize' <;> omega

/-- The blocks that an inode has and gets while data is written. -/
structure Grows (g : Image) (inode : Inode) (g' : Image) (inode' : Inode) : Prop where
  inodeUsed_eq : g'.inodeUsed = g.inodeUsed
  inode_eq : g'.inode = g.inode
  ino_eq : inode'.ino = inode.ino
  size_eq : inode'.size = inode.size
  type_eq : inode'.type = inode.type
  count_le : inode.blockCount ≤ inode'.blockCount
  blocks_eq : ∀ k < inode.blockCount, inode'.blocks k = inode.blocks k
  tail_eq : ∀ k, inode'.blockCount ≤ k → inode'.blocks k = inode.blocks k
  fresh : ∀ k < inode'.blockCount, inode.blockCount ≤ k → g.blockUsed (inode'.blocks k) = false
  used_mono : ∀ b, g.blockUsed b = true → g'.blockUsed b = true
  used_new : ∀ b, g'.blockUsed b = true → g.blockUsed b = true ∨
    ∃ k < inode'.blockCount, inode.blockCount ≤ k ∧ inode'.blocks k = b
  data_eq : ∀ b, (∀ k < inode'.blockCount, inode'.blocks k ≠ b) → g'.data b = g.data b

theorem Grows.refl (g : Image) (inode : Inode) : Grows g inode g inode where
  inodeUsed_eq := rfl
  inode_eq := rfl
  ino_eq := rfl
  size_eq := rfl
  type_eq := rfl
  count_le := le_rfl
  blocks_eq := fun _ _ => rfl
  tail_eq := fun _ _ => rfl
  fresh := fun _ _ _ => by omega
  used_mono := fun _ h => h
  used_new := fun _ h => .inl h
  data_eq := fun _ _ => rfl

theorem Grows.trans (h : Grows g inode g' inode') (h' : Grows g' inode' g'' inode'') :
    Grows g inode g'' inode'' where
  inodeUsed_eq := h'.inodeUsed_eq.trans h.inodeUsed_eq
  inode_eq := h'.inode_eq.trans h.inode_eq
  ino_eq := h'.ino_eq.trans h.ino_eq
  size_eq := h'.size_eq.trans h.size_eq
  type_eq := h'.type_eq.trans h.type_eq
  count_le := h.count_le.trans h'.count_le
  blocks_eq := by
    intro k hk
    rw [h'.blocks_eq k (by have := h.count_le; omega), h.blocks_eq k hk]
  tail_eq := by
    intro k hk
    rw [h'.tail_eq k hk, h.tail_eq k (h'.count_le.trans hk)]
  fresh := by
    intro k hk hk'
    by_cases hmid : k < inode'.blockCount
    · rw [h'.blocks_eq k hmid]
      exact h.fresh k hmid hk'
    · have hfree := h'.fresh k hk (by omega)
      cases hused : g.blockUsed (inode''.blocks k) with
      | false => rfl
      | true =>
          have := h.used_mono _ hused
          rw [hfree] at this
          cases this
  used_mono := fun b hb => h'.used_mono b (h.used_mono b hb)
  used_new := by
    intro b hb
    have hcount := h.count_le
    have hcount' := h'.count_le
    rcases h'.used_new b hb with hold | ⟨k, hk, hlow, heq⟩
    · rcases h.used_new b hold with hold | ⟨k, hk, hlow, heq⟩
      · exact .inl hold
      · exact .inr ⟨k, by omega, hlow, by rw [h'.blocks_eq k hk, heq]⟩
    · exact .inr ⟨k, hk, by omega, heq⟩
  data_eq := by
    intro b hb
    rw [h'.data_eq b hb]
    apply h.data_eq
    intro k hk
    rw [← h'.blocks_eq k hk]
    exact hb k (by have := h'.count_le; omega)

/-- Data that is written to a block of the inode. -/
theorem Grows.setData (g : Image) {k : Nat} (hk : k < inode.blockCount) (buf : Buf) :
    Grows g inode (g.setData (inode.blocks k) buf) inode :=
  { Grows.refl g inode with
    data_eq := by
      intro b hb
      exact Function.update_of_ne (hb k hk).symm _ _ }

theorem Held.setData (h : Held g inode) (b : Nat) (buf : Buf) : Held (g.setData b buf) inode :=
  { h with }

/-- The inode after `sfs_write_file` has given it the block `b`. -/
def Inode.push (inode : Inode) (b : Nat) : Inode :=
  { inode with
    blocks := Function.update inode.blocks inode.blockCount b
    blockCount := inode.blockCount + 1 }

theorem Inode.push_blocks_old (inode : Inode) (b : Nat) {k : Nat} (hk : k < inode.blockCount) :
    (inode.push b).blocks k = inode.blocks k :=
  Function.update_of_ne (by omega) _ _

theorem Inode.push_blocks_new (inode : Inode) (b : Nat) :
    (inode.push b).blocks inode.blockCount = b := by
  simp [Inode.push]

theorem Held.push (h : Held g inode) {b : Nat} (hcount : inode.blockCount < sfsDirectBlocks)
    (hb : IsData b) (hfree : g.blockUsed b = false) :
    Held (g.useBlock b) (inode.push b) := by
  have hsplit : ∀ k < (inode.push b).blockCount, k < inode.blockCount ∨ k = inode.blockCount := by
    intro k hk
    change k < inode.blockCount + 1 at hk
    omega
  have hne : ∀ k < inode.blockCount, inode.blocks k ≠ b := by
    intro k hk heq
    have := h.used k hk
    rw [heq, hfree] at this
    cases this
  refine ⟨hcount, ?_, ?_, ?_⟩
  · intro k hk
    rcases hsplit k hk with hold | rfl
    · rw [inode.push_blocks_old b hold]
      exact h.onData k hold
    · rwa [inode.push_blocks_new b]
  · intro k hk
    rcases hsplit k hk with hold | rfl
    · rw [inode.push_blocks_old b hold]
      simp [Image.useBlock, hne k hold, h.used k hold]
    · rw [inode.push_blocks_new b]
      simp [Image.useBlock]
  · intro i hi j hj heq
    rcases hsplit i hi with hi' | rfl
    · rcases hsplit j hj with hj' | rfl
      · rw [inode.push_blocks_old b hi', inode.push_blocks_old b hj'] at heq
        exact h.inj i hi' j hj' heq
      · rw [inode.push_blocks_old b hi', inode.push_blocks_new b] at heq
        exact absurd heq (hne i hi')
    · rcases hsplit j hj with hj' | rfl
      · rw [inode.push_blocks_old b hj', inode.push_blocks_new b] at heq
        exact absurd heq.symm (hne j hj')
      · rfl

theorem Grows.push (g : Image) {b : Nat} (hfree : g.blockUsed b = false) :
    Grows g inode (g.useBlock b) (inode.push b) where
  inodeUsed_eq := rfl
  inode_eq := rfl
  ino_eq := rfl
  size_eq := rfl
  type_eq := rfl
  count_le := Nat.le_succ _
  blocks_eq := fun k hk => inode.push_blocks_old b hk
  tail_eq := by
    intro k hk
    change inode.blockCount + 1 ≤ k at hk
    exact Function.update_of_ne (by omega) _ _
  fresh := by
    intro k hk hk'
    change k < inode.blockCount + 1 at hk
    obtain rfl : k = inode.blockCount := by omega
    rwa [inode.push_blocks_new b]
  used_mono := by
    intro c hc
    by_cases hcb : c = b
    · simp [Image.useBlock, hcb]
    · simp [Image.useBlock, hcb, hc]
  used_new := by
    intro c hc
    by_cases hcb : c = b
    · exact .inr ⟨inode.blockCount, Nat.lt_succ_self _, le_rfl, by rw [inode.push_blocks_new b, hcb]⟩
    · exact .inl (by simpa [Image.useBlock, hcb] using hc)
  data_eq := fun _ _ => rfl

/-- The bytes `buf[w..n)` have been written at `offset + w`, and no other byte of the file has
changed. -/
structure Wrote (buf : Buf) (offset w : Nat) (g : Image) (inode : Inode) (g' : Image)
    (inode' : Inode) (n : Nat) : Prop where
  grows : Grows g inode g' inode'
  held : Held g' inode'
  le : w ≤ n
  room : offset + n ≤ inode'.room
  new : ∀ j, w ≤ j → j < n → fileByte g' inode' (offset + j) = buf j
  old : ∀ p < inode.room, p < offset + w ∨ offset + n ≤ p →
    fileByte g' inode' p = fileByte g inode p

variable {buf : Buf} {offset size w w' n : Nat}

theorem Grows.room_le (h : Grows g inode g' inode') : inode.room ≤ inode'.room :=
  Nat.mul_le_mul_left _ h.count_le

theorem Wrote.trans (h : Wrote buf offset w g inode g' inode' w')
    (h' : Wrote buf offset w' g' inode' g'' inode'' n) :
    Wrote buf offset w g inode g'' inode'' n where
  grows := h.grows.trans h'.grows
  held := h'.held
  le := h.le.trans h'.le
  room := h'.room
  new := by
    intro j hlo hhi
    by_cases hj : j < w'
    · have hroom := h.room
      rw [h'.old (offset + j) (by omega) (.inl (by omega))]
      exact h.new j hlo hj
    · exact h'.new j (by omega) hhi
  old := by
    intro p hp hout
    have hle := h.le
    have hle' := h'.le
    have hroom := h.grows.room_le
    rw [h'.old p (by omega) (by omega)]
    exact h.old p hp (by omega)

theorem Wrote.refl (h : Held g inode) (hpos : offset + w ≤ inode.room) :
    Wrote buf offset w g inode g inode w where
  grows := Grows.refl g inode
  held := h
  le := le_rfl
  room := hpos
  new := fun _ _ _ => by omega
  old := fun _ _ _ => rfl

/-- Giving the file a new block writes nothing yet. -/
theorem Wrote.push (h : Held g inode) (hpos : offset + w ≤ inode.room) {b : Nat}
    (hcount : inode.blockCount < sfsDirectBlocks) (hb : IsData b)
    (hfree : g.blockUsed b = false) :
    Wrote buf offset w g inode (g.useBlock b) (inode.push b) w where
  grows := Grows.push g hfree
  held := h.push hcount hb hfree
  le := le_rfl
  room := hpos.trans (Grows.push g hfree).room_le
  new := fun _ _ _ => by omega
  old := by
    intro p hp _
    unfold fileByte
    rw [inode.push_blocks_old b (Inode.div_lt hp)]
    rfl

/-- One pass of the loop writes to the block of the file at the current position. -/
theorem Wrote.pass (h : Held g inode) (hidx : (offset + w) / blockSize < inode.blockCount)
    (hlt : w < size) :
    Wrote buf offset w g inode
      (g.setData (inode.blocks ((offset + w) / blockSize))
        (splice (g.data (inode.blocks ((offset + w) / blockSize))) ((offset + w) % blockSize)
          (min (blockSize - (offset + w) % blockSize) (size - w)) fun i => buf (w + i)))
      inode (w + min (blockSize - (offset + w) % blockSize) (size - w)) := by
  have hsize : blockSize = 4096 := rfl
  generalize hcopy : min (blockSize - (offset + w) % blockSize) (size - w) = toCopy
  refine ⟨Grows.setData g hidx _, h.setData _ _, Nat.le_add_right _ _, ?_, ?_, ?_⟩
  · unfold Inode.room
    rw [hsize] at hidx hcopy ⊢
    omega
  · intro j hlo hhi
    obtain ⟨i, rfl⟩ := Nat.exists_eq_add_of_le hlo
    have hdiv : (offset + (w + i)) / blockSize = (offset + w) / blockSize := by
      rw [hsize] at hcopy ⊢
      omega
    have hmod : (offset + (w + i)) % blockSize = (offset + w) % blockSize + i := by
      rw [hsize] at hcopy ⊢
      omega
    unfold fileByte Image.setData
    rw [hdiv, hmod]
    simp only [Function.update_self]
    exact splice_inside (by omega)
  · intro p hp hout
    unfold fileByte Image.setData
    simp only
    by_cases hblock : p / blockSize = (offset + w) / blockSize
    · rw [hblock, Function.update_self]
      apply splice_outside
      rw [hsize] at hcopy hblock ⊢
      omega
    · rw [Function.update_of_ne]
      intro heq
      exact hblock (h.inj _ (Inode.div_lt hp) _ hidx heq)

/-- The blocks in front of the data area are as they were, up to the block bitmap. -/
def SystemKept (s s' : FsState) : Prop :=
  ∀ b, ¬ IsData b → b ≠ blockBitmapBlock → s'.disk b = s.disk b

theorem SystemKept.refl (s : FsState) : SystemKept s s := fun _ _ _ => rfl

theorem SystemKept.trans {s'' : FsState} (h : SystemKept s s') (h' : SystemKept s' s'') :
    SystemKept s s'' :=
  fun b hb hne => (h' b hb hne).trans (h b hb hne)

theorem SystemKept.write (s : FsState) {b : Nat} (hb : IsData b ∨ b = blockBitmapBlock) (buf : Buf) :
    SystemKept s (s.write b buf) := by
  intro c hc hne
  unfold FsState.write blockWrite
  dsimp only
  split
  · rfl
  · apply Function.update_of_ne
    rintro rfl
    rcases hb with hb | hb
    · exact hc hb
    · exact hne hb

/-- The block at the current position is there, or it is pushed, or there is no room for it. -/
theorem ensureBlock_cases (hsb : s.sb = SuperBlock.new)
    (hsystem : ∀ b < dataBlockStart, (image s.disk).blockUsed b = true)
    (h : Held (image s.disk) inode) (hpos : offset + w ≤ inode.room) :
    (ensureBlock s inode ((offset + w) / blockSize) = none ∧
      (inode.blockCount = sfsDirectBlocks ∨
        ∀ b < diskBlocks, (image s.disk).blockUsed b = true)) ∨
    ∃ s' inode', ensureBlock s inode ((offset + w) / blockSize) = some (s', inode') ∧
      SameTables s s' ∧ SystemKept s s' ∧ (offset + w) / blockSize < inode'.blockCount ∧
      Wrote buf offset w (image s.disk) inode (image s'.disk) inode' w := by
  have hsize : blockSize = 4096 := rfl
  unfold ensureBlock
  by_cases hend : inode.blockCount ≤ (offset + w) / blockSize
  · have hidx : (offset + w) / blockSize = inode.blockCount := by
      unfold Inode.room at hpos
      rw [hsize] at hend hpos ⊢
      omega
    rw [if_pos hend, hidx]
    by_cases hcount : sfsDirectBlocks ≤ inode.blockCount
    · left
      rw [if_pos hcount]
      exact ⟨rfl, .inl (le_antisymm h.count_le hcount)⟩
    · rw [if_neg hcount]
      cases halloc : sfsAllocBlock s with
      | none =>
          left
          exact ⟨rfl, .inr fun b hb => sfsAllocBlock_none hsb halloc hsystem hb⟩
      | some r =>
          obtain ⟨b, s₁⟩ := r
          right
          obtain ⟨hb, hfree, -, ⟨buf', rfl⟩, himage⟩ := sfsAllocBlock_some hsb halloc
          have hsucc : u32 (inode.blockCount + 1) = inode.blockCount + 1 := by
            apply u32_of_lt
            have : sfsDirectBlocks < 2 ^ 32 - 1 := by decide
            omega
          refine ⟨s.write blockBitmapBlock buf', inode.push b, ?_, sameTables_write _ _ _,
            .write s (.inr rfl) _, Nat.lt_succ_self _, ?_⟩
          · simp only [hsucc]
            rfl
          · rw [himage]
            exact Wrote.push h hpos (by omega) hb hfree
  · right
    rw [if_neg hend]
    exact ⟨s, inode, rfl, sameTables_refl s, .refl s, by omega, Wrote.refl h hpos⟩

/-- The loop of `sfs_write_file` writes all of the buffer, unless the file is at its last block
or the disk is full. -/
theorem writeLoop_spec {fuel : Nat} {block : Buf} (hsb : s.sb = SuperBlock.new)
    (hsystem : ∀ b < dataBlockStart, (image s.disk).blockUsed b = true)
    (h : Held (image s.disk) inode) (hpos : offset + w ≤ inode.room) (hle : w ≤ size)
    (hfuel : size ≤ w + fuel) :
    ∃ s' inode' n, writeLoop buf size offset fuel s inode w block = (s', inode', n) ∧
      SameTables s s' ∧ SystemKept s s' ∧ n ≤ size ∧
      Wrote buf offset w (image s.disk) inode (image s'.disk) inode' n ∧
      (n < size → inode'.blockCount = sfsDirectBlocks ∨
        ∀ b < diskBlocks, (image s'.disk).blockUsed b = true) := by
  induction fuel generalizing s inode w block with
  | zero =>
      rw [writeLoop]
      exact ⟨s, inode, w, rfl, sameTables_refl s, .refl s, hle, Wrote.refl h hpos, by omega⟩
  | succ fuel ih =>
      rw [writeLoop]
      by_cases hdone : size ≤ w
      · rw [if_pos hdone]
        exact ⟨s, inode, w, rfl, sameTables_refl s, .refl s, hle, Wrote.refl h hpos, by omega⟩
      · have hroom := h.room_le
        rw [if_neg hdone, u32_of_lt (by omega)]
        rcases @ensureBlock_cases s inode buf offset w hsb hsystem h hpos with
          ⟨hnone, hwhy⟩ | ⟨s₁, inode₁, hsome, htables, hkept, hidx, hwrote⟩
        · simp only [hnone]
          exact ⟨s, inode, w, rfl, sameTables_refl s, .refl s, hle, Wrote.refl h hpos, fun _ => hwhy⟩
        · simp only [hsome]
          have hdata := hwrote.held.onData _ hidx
          have hpass := @Wrote.pass (image s₁.disk) inode₁ buf offset size w hwrote.held hidx
            (by omega)
          rw [← image_write_data hdata] at hpass
          rw [blockRead_data hdata]
          generalize splice ((image s₁.disk).data (inode₁.blocks ((offset + w) / blockSize)))
            ((offset + w) % blockSize) _ _ = block₁ at hpass ⊢
          have htables₁ := htables.trans
            (sameTables_write s₁ (inode₁.blocks ((offset + w) / blockSize)) block₁)
          have hsystem₁ : ∀ b < dataBlockStart, (image (s₁.write
              (inode₁.blocks ((offset + w) / blockSize)) block₁).disk).blockUsed b = true := by
            intro b hb
            exact hpass.grows.used_mono b (hwrote.grows.used_mono b (hsystem b hb))
          have hcopy : 0 < min (blockSize - (offset + w) % blockSize) (size - w) := by
            have := Nat.mod_lt (offset + w) blockSize_pos
            omega
          have hkept₁ := hkept.trans (SystemKept.write s₁ (.inl hdata) block₁)
          obtain ⟨s', inode', n, heq, htab, hkept₂, hn, hrest, hwhy⟩ := ih (htables₁.sb.trans hsb)
            hsystem₁ hpass.held hpass.room (by omega) (by omega)
          exact ⟨s', inode', n, heq, htables₁.trans htab, hkept₁.trans hkept₂, hn,
            (hwrote.trans hpass).trans hrest, hwhy⟩

theorem Grows.packed (h : Grows g inode g' inode') (hheld : Held g' inode')
    (hpacked : inode.Packed) : inode'.Packed where
  ino_lt := h.ino_eq ▸ hpacked.ino_lt
  size_lt := h.size_eq ▸ hpacked.size_lt
  type_lt := h.type_eq ▸ hpacked.type_lt
  blockCount_lt := lt_of_le_of_lt hheld.count_le (by decide)
  blocks_lt := by
    intro k
    by_cases hk : k < inode'.blockCount
    · exact (hheld.onData k hk).lt_u32
    · rw [h.tail_eq k (by omega)]
      exact hpacked.blocks_lt k
  blocks_end := by
    intro k hk
    rw [h.tail_eq k (hheld.count_le.trans hk)]
    exact hpacked.blocks_end k hk

/-- What `sfs_write_file` does at a position inside the blocks of the file. -/
theorem sfsWriteFile_spec (hsb : s.sb = SuperBlock.new)
    (hsystem : ∀ b < dataBlockStart, (image s.disk).blockUsed b = true)
    (h : Held (image s.disk) inode) (hpos : offset ≤ inode.room) :
    ∃ s' inode' n, sfsWriteFile s inode buf size offset =
        (s', { inode' with size := max inode.size (offset + n) }, n) ∧
      SameTables s s' ∧ SystemKept s s' ∧ n ≤ size ∧
      Wrote buf offset 0 (image s.disk) inode (image s'.disk) inode' n ∧
      (n < size → inode'.blockCount = sfsDirectBlocks ∨
        ∀ b < diskBlocks, (image s'.disk).blockUsed b = true) := by
  obtain ⟨s', inode', n, heq, htables, hkept, hn, hwrote, hwhy⟩ :=
    @writeLoop_spec s inode buf offset size 0 size uninit hsb hsystem h hpos (Nat.zero_le _)
      (by omega)
  have hroom := hwrote.held.room_le
  have hroom' := hwrote.room
  refine ⟨s', inode', n, ?_, htables, hkept, hn, hwrote, hwhy⟩
  unfold sfsWriteFile
  rw [heq]
  simp only
  rw [u32_of_lt (by omega), hwrote.grows.size_eq]
  split
  · next hlt => rw [max_eq_right hlt.le]
  · next hge =>
      rw [max_eq_left (by omega), ← hwrote.grows.size_eq]

end SRos.Fs
