import Mathlib.Order.Interval.Finset.Nat
import SRos.Fs.Invariant

/-!
# Reading and writing at any position

`sfs_read_file` clamps a count with a sum that can wrap around, and `sfs_write_file` takes
positions behind the end of a file. What they do is described here for all arguments.
-/

namespace SRos.Fs

open Bytes

/-- The numbers in the inode are consistent, and its blocks are on the disk. -/
structure Readable (inode : Inode) : Prop where
  size_le : inode.size ≤ inode.blockCount * 4096
  count_le : inode.blockCount ≤ 12
  blocks : ∀ i < inode.blockCount, inode.blocks i < diskBlocks

/-- The bytes that are to be read. -/
def readCount (inode : Inode) (size offset : Nat) : Nat :=
  if inode.size ≤ offset then 0 else min size (inode.size - offset)

/-- The call reads the bytes that are to be read, and no others. -/
structure ReadsFile (d : Disk) (inode : Inode) (buf : Buf) (size offset : Nat) : Prop where
  count : (sfsReadFile d inode buf size offset).1 = readCount inode size offset
  bytes : ∀ j, (sfsReadFile d inode buf size offset).2 j =
    if j < readCount inode size offset then diskByte d inode (offset + j) else buf j

section Read

variable {d : Disk} {inode : Inode} {buf : Buf} {size offset : Nat}

theorem Readable.room_le (h : Readable inode) : inode.room ≤ 49152 := by
  have hcount := h.count_le
  unfold Inode.room blockSize
  omega

/-- What is read when the count has been clamped to `size'`. -/
theorem Readable.loop_eq (h : Readable inode) (hoff : offset < inode.size) (size' : Nat) :
    (readLoop d inode size' offset size' 0 uninit buf).1 = min size' (inode.room - offset) ∧
      ∀ j, (readLoop d inode size' offset size' 0 uninit buf).2 j =
        if j < min size' (inode.room - offset) then diskByte d inode (offset + j) else buf j := by
  have hsize := h.size_le
  have hpos : offset + 0 ≤ inode.room := by
    unfold Inode.room blockSize
    omega
  obtain ⟨hn, hbytes⟩ := @readLoop_spec inode d h.blocks h.room_le size' offset size' 0 uninit buf
    (Nat.zero_le size') (by omega) hpos
  refine ⟨hn, fun j => ?_⟩
  rw [hbytes j]
  exact if_congr (by omega) rfl rfl

theorem Readable.readsFile (h : Readable inode)
    (hcond : inode.size ≤ offset ∨ offset + size < 2 ^ 32 ∨ inode.size = inode.blockCount * 4096)
    (hsize : size < 2 ^ 32) : ReadsFile d inode buf size offset := by
  have hle := h.size_le
  have hroom : inode.room = inode.blockCount * 4096 := by
    unfold Inode.room blockSize
    omega
  have hroom_le := h.room_le
  by_cases hend : inode.size ≤ offset
  · have hcall : sfsReadFile d inode buf size offset = (0, buf) := by
      unfold sfsReadFile
      rw [if_pos hend]
    have hcount : readCount inode size offset = 0 := if_pos hend
    exact ⟨by rw [hcall, hcount], fun j => by rw [hcall, hcount]; rfl⟩
  · have hcount : readCount inode size offset = min size (inode.size - offset) := if_neg hend
    have hclamp : ∃ size', sfsReadFile d inode buf size offset =
        readLoop d inode size' offset size' 0 uninit buf ∧
        min size' (inode.room - offset) = min size (inode.size - offset) := by
      unfold sfsReadFile
      rw [if_neg hend]
      refine ⟨_, rfl, ?_⟩
      by_cases hwrap : offset + size < 2 ^ 32
      · rw [u32_of_lt hwrap]
        split
        · omega
        · omega
      · have hfull : inode.size = inode.room := by omega
        split
        · omega
        · rw [hfull]
    obtain ⟨size', hcall, hmin⟩ := hclamp
    obtain ⟨hn, hbytes⟩ := @Readable.loop_eq d inode buf offset h (by omega) size'
    rw [hmin, ← hcount] at hn hbytes
    exact ⟨by rw [hcall, hn], fun j => by rw [hcall, hbytes j]⟩

/-- For every inode whose blocks are on the disk, every count and every offset: the bytes of the
file from the offset on are read, as many as there are up to the count, if and only if the offset
is at the end or behind it, or the sum of offset and count does not wrap around, or the file fills
its last block. -/
theorem reads_file_iff (h : Readable inode) (hsize : size < 2 ^ 32) (hoffset : offset < 2 ^ 32) :
    ReadsFile d inode buf size offset ↔
      inode.size ≤ offset ∨ offset + size < 2 ^ 32 ∨ inode.size = inode.blockCount * 4096 := by
  refine ⟨fun hreads => ?_, fun hcond => h.readsFile hcond hsize⟩
  by_contra hnot
  obtain ⟨hoff, hwrap, hpart⟩ : ¬ inode.size ≤ offset ∧ ¬ offset + size < 2 ^ 32 ∧
      ¬ inode.size = inode.blockCount * 4096 := by
    simpa only [not_or] using hnot
  have hle := h.size_le
  have hcount_le := h.count_le
  -- the sum wraps around to less than the offset, so that nothing is clamped
  have hsum : ¬ inode.size < u32 (offset + size) := by
    unfold u32
    omega
  have hcount := hreads.count
  obtain ⟨hn, -⟩ := @Readable.loop_eq d inode buf offset h (by omega) size
  unfold sfsReadFile readCount at hcount
  rw [if_neg hoff, if_neg hoff] at hcount
  simp only [if_neg hsum] at hcount
  rw [hn] at hcount
  unfold Inode.room blockSize at hcount
  omega

end Read

/-- A file that is shorter than its block can be read past its end. -/
def shortFileTest (s : FsState) : Bool :=
  (s.files 1).offset == 1 && (s.files 1).ino == 2 && decide (openFile s 1 = some (s.files 1)) &&
    (match sfsReadInode s 2 with
    | none => false
    | some inode =>
        inode.size == 5 && inode.blockCount == 1 && decide (inode.blocks 0 < diskBlocks) &&
          (sfsReadFile s.disk inode zeros 10 1).1 == 4 &&
          (sfsReadFile s.disk inode zeros 0xFFFFFFFF 1).1 == 4095) &&
    (sysRead s 1 zeros (-1)).2.2 == 4095

theorem exists_short_file : ∃ s inode, Reach fsStep fsOk (fsBoot .blank) s ∧
    openFile s 1 = some (s.files 1) ∧ (s.files 1).offset = 1 ∧
    sfsReadInode s (s.files 1).ino = some inode ∧ inode.size = 5 ∧ Readable inode ∧
    (sfsReadFile s.disk inode zeros 0xFFFFFFFF 1).1 = 4095 ∧
    (sysRead s 1 zeros (-1)).2.2 = 4095 := by
  have hrun : ((some (fsBoot .blank)).bind (runList fsStep fsOkTest
      [.create ⟨[0x61], by decide⟩, .open (some ⟨[0x61], by decide⟩),
        .open (some ⟨[0x61], by decide⟩), .write 0 (fun i => UInt8.ofNat i) 5,
        .read 1 zeros 1])).any shortFileTest = true := by
    decide +kernel
  obtain ⟨s₀, s, hs₀, hreach, htest⟩ := Reach.exists_of_runList hrun
  obtain rfl := Option.some.inj hs₀
  have hok := hreach.mono fun s a => fsOk_of_test
  unfold shortFileTest at htest
  cases hinode : sfsReadInode s 2 with
  | none => simp [hinode] at htest
  | some inode =>
      simp only [hinode, Bool.and_eq_true, beq_iff_eq, decide_eq_true_eq] at htest
      obtain ⟨⟨⟨⟨hoff, hino⟩, hopen⟩, ⟨⟨⟨hsize, hcount⟩, hblock⟩, -⟩, hread⟩, hsys⟩ := htest
      refine ⟨s, inode, hok, hopen, hoff, by rw [hino, hinode], hsize, ⟨?_, ?_, ?_⟩, hread, hsys⟩
      · rw [hsize, hcount]
        decide
      · rw [hcount]
        decide
      · intro i hi
        obtain rfl : i = 0 := by omega
        exact hblock

/-- A count that does not wrap around is read up to the end of the file. -/
theorem reads_file_four : ∃ s inode, Reach fsStep fsOk (fsBoot .blank) s ∧ inode.size = 5 ∧
    ReadsFile s.disk inode zeros 10 1 ∧ (sfsReadFile s.disk inode zeros 10 1).1 = 4 := by
  obtain ⟨s, inode, hreach, -, -, -, hsize, hreadable, -⟩ := exists_short_file
  have hreads : ReadsFile s.disk inode zeros 10 1 :=
    (reads_file_iff hreadable (by decide) (by decide)).mpr (.inr (.inl (by decide)))
  refine ⟨s, inode, hreach, hsize, hreads, ?_⟩
  rw [hreads.count, readCount, hsize]
  decide

/-- `sys_read` with a count of -1 returns bytes behind the end of the file. -/
theorem not_reads_file : ∃ s inode, Reach fsStep fsOk (fsBoot .blank) s ∧
    openFile s 1 = some (s.files 1) ∧ sfsReadInode s (s.files 1).ino = some inode ∧
    inode.size = 5 ∧ Readable inode ∧
    ¬ ReadsFile s.disk inode zeros (u32OfInt (-1)) (s.files 1).offset ∧
    (sysRead s 1 zeros (-1)).2.2 = 4095 := by
  obtain ⟨s, inode, hreach, hopen, hoff, hinode, hsize, hreadable, hread, hsys⟩ := exists_short_file
  refine ⟨s, inode, hreach, hopen, hinode, hsize, hreadable, fun hreads => ?_, hsys⟩
  have hcount := hreads.count
  rw [hoff, show u32OfInt (-1) = 0xFFFFFFFF by decide, hread, readCount, hsize] at hcount
  exact absurd hcount (by decide)

/-- A mounted disk with a regular file whose numbers and blocks are consistent. -/
structure FileOk (s : FsState) (inode : Inode) : Prop where
  sb : s.sb = SuperBlock.new
  system : ∀ b < dataBlockStart, (image s.disk).blockUsed b = true
  held : Held (image s.disk) inode
  type_eq : inode.type = sfsFile
  size_le : inode.size ≤ inode.room

/-- The blocks that are not in use. -/
def Image.freeBlocks (g : Image) : Finset Nat :=
  (Finset.range diskBlocks).filter fun b => g.blockUsed b = false

/-- A write, the read of what it wrote, and the inode and the disk after it. -/
structure WriteRead (s : FsState) (inode : Inode) (buf : Buf) (size offset : Nat) (s' : FsState)
    (inode' : Inode) (n : Nat) : Prop where
  call : sfsWriteFile s inode buf size offset = (s', inode', n)
  count : ∀ out, (sfsReadFile s'.disk inode' out n offset).1 = n
  bytes : ∀ out, ∀ j < n, (sfsReadFile s'.disk inode' out n offset).2 j = buf j
  fileOk : FileOk s' inode'
  changed : ∀ b, s'.disk b ≠ s.disk b →
    b = blockBitmapBlock ∨ IsData b ∧ ∃ k < inode'.blockCount, inode'.blocks k = b

/-- The position is inside the blocks of the file, or the first byte goes to the next block. -/
def NoGap (inode : Inode) (size offset : Nat) : Prop :=
  offset ≤ inode.room ∨ 0 < size ∧ offset < inode.room + blockSize

section Write

variable {s s' : FsState} {g g' : Image} {inode inode' : Inode} {buf : Buf} {size offset n : Nat}

theorem Grows.freeBlocks_card (h : Grows g inode g' inode') :
    g.freeBlocks.card + inode.blockCount ≤ g'.freeBlocks.card + inode'.blockCount := by
  have hsub : g.freeBlocks ⊆ g'.freeBlocks ∪
      (Finset.Ico inode.blockCount inode'.blockCount).image inode'.blocks := by
    intro b hb
    obtain ⟨hlt, hfree⟩ := Finset.mem_filter.mp hb
    rw [Finset.mem_union]
    cases hused : g'.blockUsed b with
    | false => exact .inl (Finset.mem_filter.mpr ⟨hlt, hused⟩)
    | true =>
        right
        rcases h.used_new b hused with hold | ⟨k, hk, hlow, heq⟩
        · rw [hfree] at hold
          cases hold
        · exact Finset.mem_image.mpr ⟨k, Finset.mem_Ico.mpr ⟨hlow, hk⟩, heq⟩
  have hcard := (Finset.card_le_card hsub).trans (Finset.card_union_le _ _)
  have himage : ((Finset.Ico inode.blockCount inode'.blockCount).image inode'.blocks).card ≤
      inode'.blockCount - inode.blockCount :=
    Finset.card_image_le.trans_eq (Nat.card_Ico _ _)
  have hcount := h.count_le
  omega

/-- The blocks that the file has or can still get. -/
def FsState.capacity (s : FsState) (inode : Inode) : Nat :=
  (image s.disk).freeBlocks.card + inode.blockCount

/-- A write that begins inside the blocks of the file. -/
theorem FileOk.write_inside (h : FileOk s inode) (hpos : offset ≤ inode.room) :
    ∃ s' inode' n, WriteRead s inode buf size offset s' inode' n ∧
      s.capacity inode ≤ s'.capacity inode' := by
  obtain ⟨s', inode', n, hcall, htables, hkept, -, hwrote, -⟩ :=
    @sfsWriteFile_spec s inode buf offset size h.sb h.system h.held hpos
  have hheld := hwrote.held
  have hroom := hheld.room_le
  have hend := hwrote.room
  have hsize : max inode.size (offset + n) ≤ inode'.room :=
    max_le (h.size_le.trans hwrote.grows.room_le) hend
  -- the read is inside the file, which has been written from the offset on
  have hread (out : Buf) : (sfsReadFile s'.disk
      { inode' with size := max inode.size (offset + n) } out n offset).1 = n ∧
      ∀ j < n, (sfsReadFile s'.disk
        { inode' with size := max inode.size (offset + n) } out n offset).2 j = buf j := by
    obtain ⟨m, hm, -, hbytes, hcount⟩ := @sfsReadFile_spec s'
      { inode' with size := max inode.size (offset + n) } hheld.onData hroom n offset out
      (show offset ≤ inode'.room by omega)
    have hmn : m = min n (max inode.size (offset + n) - offset) :=
      hcount hsize (by simp only; omega) (by omega)
    obtain rfl : m = n := by omega
    refine ⟨hm, fun j hj => ?_⟩
    rw [hbytes j, if_pos hj]
    exact hwrote.new j (Nat.zero_le j) hj
  refine ⟨s', { inode' with size := max inode.size (offset + n) }, n, ?_,
    hwrote.grows.freeBlocks_card⟩
  refine ⟨hcall, fun out => (hread out).1, fun out => (hread out).2, ?_, ?_⟩
  · exact ⟨htables.sb.trans h.sb, fun b hb => hwrote.grows.used_mono b (h.system b hb),
      ⟨hheld.count_le, hheld.onData, hheld.used, hheld.inj⟩,
      hwrote.grows.type_eq.trans h.type_eq, hsize⟩
  · intro b hb
    by_contra hnot
    obtain ⟨hbitmap, hown⟩ := not_or.mp hnot
    by_cases hdata : IsData b
    · have hkeep := hwrote.grows.data_eq b fun k hk heq => hown ⟨hdata, k, hk, heq⟩
      unfold image at hkeep
      simp only [if_pos hdata] at hkeep
      exact hb hkeep
    · exact hb (hkept b hdata hbitmap)

/-- In front of a write to the block behind the last one, that block is pushed. -/
theorem FileOk.push (h : FileOk s inode) (hfree : sfsDirectBlocks ≤ s.capacity inode)
    (hcount : inode.blockCount < sfsDirectBlocks) :
    ∃ b bitmap, sfsAllocBlock s = some (b, s.write blockBitmapBlock bitmap) ∧
      FileOk (s.write blockBitmapBlock bitmap) (inode.push b) ∧
      s.capacity inode ≤ (s.write blockBitmapBlock bitmap).capacity (inode.push b) := by
  cases halloc : sfsAllocBlock s with
  | none =>
      -- some block is free
      have hpos : 0 < (image s.disk).freeBlocks.card := by
        unfold FsState.capacity at hfree
        omega
      obtain ⟨b, hb⟩ := Finset.card_pos.mp hpos
      obtain ⟨hlt, hunused⟩ := Finset.mem_filter.mp hb
      rw [sfsAllocBlock_none h.sb halloc h.system (Finset.mem_range.mp hlt)] at hunused
      cases hunused
  | some r =>
      obtain ⟨b, s₁⟩ := r
      obtain ⟨hb, hunused, -, ⟨bitmap, rfl⟩, himage⟩ := sfsAllocBlock_some h.sb halloc
      have hgrows : Grows (image s.disk) inode ((image s.disk).useBlock b) (inode.push b) :=
        Grows.push (image s.disk) hunused
      refine ⟨b, bitmap, rfl, ⟨h.sb, ?_, ?_, h.type_eq, h.size_le.trans hgrows.room_le⟩, ?_⟩
      · intro c hc
        rw [himage]
        exact hgrows.used_mono c (h.system c hc)
      · rw [himage]
        exact h.held.push hcount hb hunused
      · unfold FsState.capacity
        rw [himage]
        exact hgrows.freeBlocks_card

/-- The write goes on as if the block had been there before it. -/
theorem sfsWriteFile_push {b : Nat} (halloc : sfsAllocBlock s = some (b, s'))
    (hcount : inode.blockCount < sfsDirectBlocks) (hsize : 0 < size)
    (hidx : offset / blockSize = inode.blockCount) (hoffset : offset < 2 ^ 32) :
    sfsWriteFile s inode buf size offset = sfsWriteFile s' (inode.push b) buf size offset := by
  have hensure : ensureBlock s inode (offset / blockSize) = some (s', inode.push b) := by
    have hsucc : u32 (inode.blockCount + 1) = inode.blockCount + 1 := by
      apply u32_of_lt
      have : sfsDirectBlocks < 2 ^ 32 - 1 := by decide
      omega
    unfold ensureBlock
    rw [hidx, if_pos le_rfl, if_neg (by omega), halloc]
    simp only [hsucc]
    rfl
  have hagain : ensureBlock s' (inode.push b) (offset / blockSize) = some (s', inode.push b) := by
    unfold ensureBlock
    rw [hidx]
    exact if_neg (by simp [Inode.push])
  obtain ⟨fuel, rfl⟩ : ∃ fuel, size = fuel + 1 := ⟨size - 1, by omega⟩
  have hloop : writeLoop buf (fuel + 1) offset (fuel + 1) s inode 0 uninit =
      writeLoop buf (fuel + 1) offset (fuel + 1) s' (inode.push b) 0 uninit := by
    rw [writeLoop, writeLoop, if_neg (by omega), if_neg (by omega), Nat.add_zero, u32_of_lt hoffset]
    simp only [hensure, hagain]
  unfold sfsWriteFile
  rw [hloop]

theorem writeLoop_done {fuel w : Nat} {block : Buf} (hdone : size ≤ w) :
    writeLoop buf size offset fuel s inode w block = (s, inode, w) := by
  cases fuel with
  | zero => rfl
  | succ fuel =>
      rw [writeLoop]
      exact if_pos hdone

theorem ensureBlock_behind {idx : Nat} (hidx : inode.blockCount ≤ idx)
    (h : ensureBlock s inode idx = some (s', inode')) :
    idx < sfsDirectBlocks ∧ inode'.blockCount = inode.blockCount + 1 := by
  unfold ensureBlock at h
  rw [if_pos hidx] at h
  by_cases hlast : sfsDirectBlocks ≤ idx
  · rw [if_pos hlast] at h
    cases h
  · rw [if_neg hlast] at h
    cases halloc : sfsAllocBlock s with
    | none => simp [halloc] at h
    | some r =>
        simp only [halloc, Option.some.injEq, Prod.mk.injEq] at h
        obtain ⟨-, rfl⟩ := h
        have hlt : sfsDirectBlocks < 2 ^ 32 - 1 := by decide
        exact ⟨by omega, u32_of_lt (by omega)⟩

/-- A write with a gap behind the next block leaves the position behind the blocks. -/
theorem writeLoop_gap {fuel w : Nat} {block : Buf} (hcount : inode.blockCount ≤ sfsDirectBlocks)
    (hgap : inode.room + blockSize ≤ offset + w) (hend : offset + w ≤ 49152) (hle : w ≤ size) :
    ∃ s' inode' n, writeLoop buf size offset fuel s inode w block = (s', inode', n) ∧
      inode'.room < offset + n ∧ offset + n ≤ 49152 := by
  have hblock : blockSize = 4096 := rfl
  induction fuel generalizing s inode w block with
  | zero => exact ⟨s, inode, w, rfl, by omega, hend⟩
  | succ fuel ih =>
      rw [writeLoop, u32_of_lt (by omega)]
      by_cases hdone : size ≤ w
      · rw [if_pos hdone]
        exact ⟨s, inode, w, rfl, by omega, hend⟩
      · rw [if_neg hdone]
        have hidx : inode.blockCount < (offset + w) / blockSize := by
          unfold Inode.room at hgap
          rw [hblock] at hgap ⊢
          omega
        simp only
        cases hensure : ensureBlock s inode ((offset + w) / blockSize) with
        | none => exact ⟨s, inode, w, rfl, by omega, hend⟩
        | some r =>
            obtain ⟨s₁, inode₁⟩ := r
            obtain ⟨hlast, hcount₁⟩ := ensureBlock_behind hidx.le hensure
            have hdirect : sfsDirectBlocks = 12 := rfl
            have hroom₁ : inode₁.room = inode.room + blockSize := by
              unfold Inode.room
              rw [hcount₁, Nat.mul_succ]
            simp only
            generalize hcopy :
              min (blockSize - (offset + w) % blockSize) (size - w) = toCopy
            rw [hblock] at hlast hcopy hidx
            by_cases hfull : size ≤ w + toCopy
            · rw [writeLoop_done hfull]
              exact ⟨_, inode₁, w + toCopy, rfl, by omega, by omega⟩
            · -- the block is filled to its end, and the next one is behind the gap again
              have hstep : offset + (w + toCopy) = 4096 * ((offset + w) / 4096 + 1) := by
                omega
              apply ih
              · omega
              · unfold Inode.room at hroom₁ ⊢
                rw [hblock] at hroom₁ ⊢
                omega
              · omega
              · omega

/-- A write behind a gap leaves a size that the blocks have no room for. -/
theorem FileOk.not_fileOk (h : FileOk s inode) (hoffset : offset < 49152)
    (hgap : ¬ NoGap inode size offset)
    (hcall : sfsWriteFile s inode buf size offset = (s', inode', n)) : ¬ FileOk s' inode' := by
  have hloop : ∃ s₁ inode₁ n₁, writeLoop buf size offset size s inode 0 uninit =
      (s₁, inode₁, n₁) ∧ inode₁.room < offset + n₁ ∧ offset + n₁ ≤ 49152 := by
    unfold NoGap at hgap
    by_cases hsize : 0 < size
    · apply writeLoop_gap h.held.count_le
      · omega
      · omega
      · exact Nat.zero_le size
    · rw [writeLoop_done (by omega)]
      exact ⟨s, inode, 0, rfl, by omega, by omega⟩
  obtain ⟨s₁, inode₁, n₁, hloop, hroom, hend⟩ := hloop
  unfold sfsWriteFile at hcall
  rw [hloop] at hcall
  simp only [u32_of_lt (show offset + n₁ < 2 ^ 32 by omega), Prod.mk.injEq] at hcall
  obtain ⟨-, rfl, -⟩ := hcall
  intro hok
  have hle := hok.size_le
  split at hle
  · exact absurd hle (by simpa [Inode.room] using hroom)
  · omega

end Write

/-- A file and the disk it is on. -/
structure OneFile where
  fs : FsState
  inode : Inode

/-- The arguments of `sfs_write_file`. -/
structure WriteArgs where
  buf : Buf
  size : Nat
  offset : Nat

namespace OneFile

def step (f : OneFile) (a : WriteArgs) : Option OneFile :=
  match sfsWriteFile f.fs f.inode a.buf a.size a.offset with
  | (s, inode, _) => some ⟨s, inode⟩

/-- The call meets what is asked of a write and the read after it. -/
def Meets (f : OneFile) (a : WriteArgs) : Prop :=
  ∃ s' inode' n, WriteRead f.fs f.inode a.buf a.size a.offset s' inode' n

/-- A position that a file can have. -/
def ok (f : OneFile) (a : WriteArgs) : Prop :=
  a.offset < 12 * blockSize ∧ NoGap f.inode a.size a.offset

/-- The file is consistent, and it can get all the blocks that an inode has place for. -/
structure Ok (f : OneFile) : Prop where
  fileOk : FileOk f.fs f.inode
  capacity : sfsDirectBlocks ≤ f.fs.capacity f.inode

variable {f f₀ : OneFile} {a : WriteArgs}

theorem Ok.write (h : Ok f) (hok : ok f a) :
    ∃ s' inode' n, WriteRead f.fs f.inode a.buf a.size a.offset s' inode' n ∧
      Ok ⟨s', inode'⟩ := by
  have hblock : blockSize = 4096 := rfl
  have hdirect : sfsDirectBlocks = 12 := rfl
  obtain ⟨hoffset, hgap⟩ := hok
  by_cases hpos : a.offset ≤ f.inode.room
  · obtain ⟨s', inode', n, hwrite, hcap⟩ := @FileOk.write_inside f.fs f.inode a.buf a.size a.offset
      h.fileOk hpos
    exact ⟨s', inode', n, hwrite, hwrite.fileOk, h.capacity.trans hcap⟩
  · obtain ⟨hsize, hnext⟩ := hgap.resolve_left hpos
    unfold Inode.room at hpos hnext
    have hidx : a.offset / blockSize = f.inode.blockCount := by
      rw [hblock] at hpos hnext ⊢
      omega
    have hcount : f.inode.blockCount < sfsDirectBlocks := by
      rw [hblock] at hpos hoffset
      omega
    obtain ⟨b, bitmap, halloc, hpush, hcap⟩ := h.fileOk.push h.capacity hcount
    have hinside : a.offset ≤ (f.inode.push b).room := by
      change a.offset ≤ blockSize * (f.inode.blockCount + 1)
      rw [hblock] at hnext ⊢
      omega
    obtain ⟨s', inode', n, hwrite, hcap'⟩ := @FileOk.write_inside _ _ a.buf a.size a.offset hpush
      hinside
    refine ⟨s', inode', n, ⟨?_, hwrite.count, hwrite.bytes, hwrite.fileOk, ?_⟩, hwrite.fileOk,
      h.capacity.trans (hcap.trans hcap')⟩
    · rw [sfsWriteFile_push halloc hcount hsize hidx (by rw [hblock] at hoffset; omega)]
      exact hwrite.call
    · intro c hc
      by_cases hbitmap : c = blockBitmapBlock
      · exact .inl hbitmap
      · apply hwrite.changed c
        rwa [write_disk_of_ne hbitmap]

theorem Ok.step {f' : OneFile} (h : Ok f) (hok : ok f a) (hstep : f.step a = some f') :
    Ok f' := by
  obtain ⟨s', inode', n, hwrite, hnext⟩ := h.write hok
  unfold OneFile.step at hstep
  rw [hwrite.call] at hstep
  obtain rfl := Option.some.inj hstep
  exact hnext

/-- For every consistent file on a disk with twelve free data blocks, after any writes that leave
no gap: the next write at an offset that the inode has place for is read back as it was written,
leaves a consistent file and changes no block but those of the file and the block bitmap, if and
only if it leaves no gap in front of the block it begins in. -/
theorem write_read_iff (hfile : FileOk f₀.fs f₀.inode)
    (hfree : 12 ≤ (image f₀.fs.disk).freeBlocks.card) (hreach : Reach OneFile.step ok f₀ f)
    (hoffset : a.offset < 12 * blockSize) :
    Meets f a ↔ NoGap f.inode a.size a.offset := by
  have hstart : Ok f₀ := ⟨hfile, hfree.trans (Nat.le_add_right _ _)⟩
  have hinv : Ok f := hreach.invariant hstart fun _ _ _ h => h.step
  refine ⟨fun ⟨s', inode', n, hwrite⟩ => ?_, fun hgap => ?_⟩
  · by_contra hgap
    exact hinv.fileOk.not_fileOk hoffset hgap hwrite.call hwrite.fileOk
  · obtain ⟨s', inode', n, hwrite, -⟩ := hinv.write ⟨hoffset, hgap⟩
    exact ⟨s', inode', n, hwrite⟩

/-- A new file on an empty disk. -/
def new : OneFile := ⟨fsBoot .blank, Inode.fresh 2⟩

theorem blockUsed_new (b : Nat) : (image new.fs.disk).blockUsed b = decide (b ≤ dataBlockStart) := by
  have hnew : new.fs = fsBoot .blank := by simp only [new]
  rw [hnew, (booted_fsBoot .blank).blockUsed b]

theorem fileOk_new : FileOk new.fs new.inode where
  sb := (booted_fsBoot .blank).sb
  system := by
    intro b hb
    rw [blockUsed_new b]
    simp only [decide_eq_true_eq]
    omega
  held := held_fresh _ 2
  type_eq := rfl
  size_le := Nat.zero_le _

theorem freeBlocks_new : 12 ≤ (image new.fs.disk).freeBlocks.card := by
  have hsub : Finset.Ico 6 18 ⊆ (image new.fs.disk).freeBlocks := by
    intro b hb
    obtain ⟨hlow, hhigh⟩ := Finset.mem_Ico.mp hb
    have hblocks : dataBlockStart = 5 ∧ diskBlocks = 1024 := ⟨rfl, rfl⟩
    refine Finset.mem_filter.mpr ⟨Finset.mem_range.mpr (by omega), ?_⟩
    rw [blockUsed_new b]
    simp only [decide_eq_false_iff_not]
    omega
  exact (Nat.card_Ico 6 18).symm.le.trans (Finset.card_le_card hsub)

/-- The file is written at 100, and then at its beginning. -/
theorem write_read_two : ∃ f, Reach OneFile.step ok new f ∧ Meets f ⟨zeros, 5, 0⟩ := by
  have hok : ok new ⟨fun i => UInt8.ofNat i, 5, 100⟩ := ⟨by decide, .inr ⟨by decide, by decide⟩⟩
  have hreach : Reach OneFile.step ok new _ := .step .refl hok rfl
  exact ⟨_, hreach, (write_read_iff fileOk_new freeBlocks_new hreach (by decide)).mpr
    (.inl (Nat.zero_le _))⟩

/-- One byte that is written at the third block of an empty file is not read back. -/
theorem not_write_read : FileOk new.fs new.inode ∧ 12 ≤ (image new.fs.disk).freeBlocks.card ∧
    ¬ Meets new ⟨fun _ => 1, 1, 8192⟩ := by
  refine ⟨fileOk_new, freeBlocks_new, fun ⟨s', inode', n, hwrite⟩ => ?_⟩
  have hgap : ¬ NoGap new.inode 1 8192 := by
    unfold NoGap
    decide
  exact fileOk_new.not_fileOk (by decide) hgap hwrite.call hwrite.fileOk

end OneFile

end SRos.Fs
