import SRos.Lib.Run
import SRos.Fs.File

/-!
# The file system calls and the mounted image

A run starts on the image that `sfs_format` and `sfs_mount` leave, whatever the disk and the
variables of the file system held before, and makes file system calls one after another.
-/

namespace SRos.Fs

open Bytes

/-- The file system calls of `src/kernel/syscall.c` with their arguments. -/
inductive FsAct
  | create (name : CStr)
  | open (path : Option CStr)
  | read (fd : Int) (buf : Buf) (count : Int)
  | write (fd : Int) (buf : Buf) (count : Int)
  | close (fd : Int)

/-- The state after a call and the value it returns in `eax`. -/
def fsCall (s : FsState) : FsAct → FsState × Int
  | .create name =>
      let r := sfsCreate s rootIno name sfsFile
      (r.1, if 0 ≤ r.2 then 0 else -1)
  | .open path => sysOpen s path
  | .read fd buf count =>
      let r := sysRead s fd buf count
      (r.1, r.2.2)
  | .write fd buf count => sysWrite s fd buf count
  | .close fd => (sysClose s fd, 0)

def fsStep (s : FsState) (a : FsAct) : Option FsState := some (fsCall s a).1

/-- The file system after `sfs_format` and `sfs_mount`. -/
def fsBoot (s : FsState) : FsState := (sfsMount (sfsFormat s)).1

/-- The inode of the root directory of a new file system. -/
def Inode.newRoot : Inode :=
  { Inode.zero with
    ino := rootIno
    type := sfsDir
    blocks := Function.update Inode.zero.blocks 0 dataBlockStart
    blockCount := 1
    size := 2 * dentryBytes }

theorem bit_zeros (i : Nat) : Bitmap.bit zeros i = false := by
  simp [Bitmap.bit, zeros]

theorem write_disk_self {s : FsState} {b : Nat} (hb : b < diskBlocks) (buf : Buf) :
    (s.write b buf).disk b = buf := by
  rw [write_disk hb, Function.update_self]

theorem write_disk_of_ne {s : FsState} {b c : Nat} (hne : c ≠ b) (buf : Buf) :
    (s.write b buf).disk c = s.disk c := by
  simp only [FsState.write, blockWrite]
  split
  · rfl
  · exact Function.update_of_ne hne _ _

theorem formatBlocks_disk (s : FsState) :
    (formatBlocks s).disk 0 = splice zeros 0 28 SuperBlock.new.encode ∧
      (formatBlocks s).disk inodeBitmapBlock = Bitmap.set zeros 0 ∧
      (formatBlocks s).disk blockBitmapBlock =
        (List.range dataBlockStart).foldl Bitmap.set zeros := by
  have hlt : 0 < diskBlocks ∧ inodeBitmapBlock < diskBlocks ∧ blockBitmapBlock < diskBlocks := by
    decide
  unfold formatBlocks
  refine ⟨?_, ?_, ?_⟩
  · rw [write_disk_of_ne (by decide), write_disk_of_ne (by decide), write_disk_of_ne (by decide),
      write_disk_of_ne (by decide), write_disk_self hlt.1]
  · rw [write_disk_of_ne (by decide), write_disk_of_ne (by decide), write_disk_of_ne (by decide),
      write_disk_self hlt.2.1]
  · rw [write_disk_of_ne (by decide), write_disk_of_ne (by decide), write_disk_self hlt.2.2]

/-- `sfs_format` takes the first data block for the root directory. -/
theorem sfsAllocBlock_formatBlocks (s : FsState) :
    sfsAllocBlock (formatBlocks s) = some (dataBlockStart, (formatBlocks s).write blockBitmapBlock
      (Bitmap.set ((List.range dataBlockStart).foldl Bitmap.set zeros) dataBlockStart)) := by
  have hsb : (formatBlocks s).sb = SuperBlock.new := rfl
  have hfind : Bitmap.findFirstZero ((List.range dataBlockStart).foldl Bitmap.set zeros)
      (int32 diskBlocks).toNat = some dataBlockStart := by
    decide +kernel
  unfold sfsAllocBlock
  rw [hsb]
  simp only [SuperBlock.new, blockRead_lt (show blockBitmapBlock < diskBlocks by decide),
    (formatBlocks_disk s).2.2, hfind]
  rfl

/-- The super block is read back as it was written. -/
theorem decode_encode_new :
    SuperBlock.decode (splice zeros 0 28 SuperBlock.new.encode) = SuperBlock.new := by
  decide +kernel

theorem packed_newRoot : Inode.newRoot.Packed where
  ino_lt := by decide
  size_lt := by decide
  type_lt := by decide
  blockCount_lt := by decide
  blocks_lt := by
    intro i
    by_cases hi : i = 0
    · subst hi
      decide
    · have hzero : Inode.newRoot.blocks i = 0 := Function.update_of_ne hi _ _
      rw [hzero]
      decide
  blocks_end := by
    intro i hi
    have hne : i ≠ 0 := by
      rintro rfl
      exact absurd hi (by decide)
    exact Function.update_of_ne hne _ _

/-- The state of `sfs_format` when it writes the root inode. -/
def formatData (s : FsState) : FsState :=
  ((formatBlocks s).write blockBitmapBlock
    (Bitmap.set ((List.range dataBlockStart).foldl Bitmap.set zeros) dataBlockStart)).write
      dataBlockStart (dotDentries rootIno rootIno)

/-- The state of `sfs_format` in front of its last write. -/
def formatRoot (s : FsState) : FsState := sfsWriteInode (formatData s) Inode.newRoot

theorem sfsFormat_eq (s : FsState) :
    sfsFormat s = (formatRoot s).write inodeBitmapBlock
      (Bitmap.set ((formatRoot s).disk inodeBitmapBlock) rootIno) := by
  unfold sfsFormat
  simp only [sfsAllocBlock_formatBlocks, Option.getD_some]
  rw [blockRead_lt (by decide)]
  rfl

theorem sfsWriteInode_disk_of_lt {s : FsState} (hsb : s.sb = SuperBlock.new) {inode : Inode}
    (hino : IsIno inode.ino) {b : Nat} (hb : b < inodeTableStart) :
    (sfsWriteInode s inode).disk b = s.disk b := by
  unfold sfsWriteInode
  split
  · rfl
  · rw [inodeBlock_eq hsb hino]
    have hnonneg := Nat.zero_le ((inode.ino - 1) / inodesPerBlock)
    exact write_disk_of_ne (by omega) _

theorem bit_formatBlocks (b : Nat) :
    Bitmap.bit ((List.range dataBlockStart).foldl Bitmap.set zeros) b =
      decide (b < dataBlockStart) := by
  have hrange : List.range dataBlockStart = [0, 1, 2, 3, 4] := by decide
  rw [hrange]
  simp only [List.foldl_cons, List.foldl_nil, Bitmap.bit_set, Function.update_apply, bit_zeros]
  have hstart : dataBlockStart = 5 := rfl
  rw [hstart]
  split_ifs <;> simp <;> omega

theorem formatRoot_disk (s : FsState) {b : Nat} (hb : b < inodeTableStart)
    (hne : b ≠ blockBitmapBlock) : (formatRoot s).disk b = (formatBlocks s).disk b := by
  have hdata : b ≠ dataBlockStart := by
    have : inodeTableStart < dataBlockStart := by decide
    omega
  have hsb : (formatData s).sb = SuperBlock.new := rfl
  unfold formatRoot
  rw [sfsWriteInode_disk_of_lt hsb (by decide) hb]
  unfold formatData
  rw [write_disk_of_ne hdata, write_disk_of_ne hne]

theorem fsBoot_eq (s : FsState) :
    fsBoot s = { sfsFormat s with
      sb := SuperBlock.new
      files := fun i =>
        if i < maxFiles then { (sfsFormat s).files i with inUse := false }
        else (sfsFormat s).files i
      mounted := true } := by
  have hsuper : SuperBlock.decode ((sfsFormat s).disk 0) = SuperBlock.new := by
    rw [sfsFormat_eq, write_disk_of_ne (by decide), formatRoot_disk s (by decide) (by decide),
      (formatBlocks_disk s).1]
    exact decode_encode_new
  unfold fsBoot sfsMount
  simp only [blockRead_lt (show 0 < diskBlocks by decide), hsuper]
  rw [if_neg (by decide)]

theorem image_fsBoot (s : FsState) :
    image (fsBoot s).disk = { ((({ image (formatBlocks s).disk with
      blockUsed := Bitmap.bit (Bitmap.set ((List.range dataBlockStart).foldl Bitmap.set zeros)
        dataBlockStart) } : Image).setData dataBlockStart (dotDentries rootIno rootIno)).setInode
        rootIno Inode.newRoot) with
      inodeUsed := Bitmap.bit (Bitmap.set (Bitmap.set zeros 0) rootIno) } := by
  have hdisk : (fsBoot s).disk = (sfsFormat s).disk := by rw [fsBoot_eq]
  have hsb : (formatData s).sb = SuperBlock.new := rfl
  have hroot : image (formatRoot s).disk = (image (formatData s).disk).setInode rootIno
      Inode.newRoot := image_sfsWriteInode hsb packed_newRoot rfl (by decide)
  have hdata : image (formatData s).disk = ({ image (formatBlocks s).disk with
      blockUsed := Bitmap.bit (Bitmap.set ((List.range dataBlockStart).foldl Bitmap.set zeros)
        dataBlockStart) } : Image).setData dataBlockStart (dotDentries rootIno rootIno) := by
    unfold formatData
    rw [image_write_data (by decide), image_write_blockBitmap]
  rw [hdisk, sfsFormat_eq, image_write_inodeBitmap, hroot, hdata,
    formatRoot_disk s (by decide) (by decide), (formatBlocks_disk s).2.1]

/-- The file system that `sfs_format` and `sfs_mount` leave. -/
structure Booted (s : FsState) : Prop where
  sb : s.sb = SuperBlock.new
  mounted : s.mounted = true
  closed : ∀ fd < maxFiles, (s.files fd).inUse = false
  inodeUsed : ∀ i, (image s.disk).inodeUsed i = decide (i ≤ rootIno)
  blockUsed : ∀ b, (image s.disk).blockUsed b = decide (b ≤ dataBlockStart)
  root : (image s.disk).root = Inode.newRoot
  data : (image s.disk).data dataBlockStart = dotDentries rootIno rootIno

theorem booted_fsBoot (s : FsState) : Booted (fsBoot s) where
  sb := by rw [fsBoot_eq]
  mounted := by rw [fsBoot_eq]
  closed := by
    intro fd hfd
    rw [fsBoot_eq]
    simp [hfd]
  inodeUsed := by
    intro i
    rw [image_fsBoot]
    simp only [Bitmap.bit_set, Function.update_apply, bit_zeros]
    have hone : rootIno = 1 := rfl
    rw [hone]
    split_ifs <;> simp <;> omega
  blockUsed := by
    intro b
    rw [image_fsBoot]
    simp only [Image.setInode, Image.setData, Bitmap.bit_set, Function.update_apply,
      bit_formatBlocks]
    split_ifs <;> simp <;> omega
  root := by
    rw [image_fsBoot]
    simp [Image.root, Image.setInode]
  data := by
    rw [image_fsBoot]
    simp [Image.setInode, Image.setData]

end SRos.Fs
