import SRos.Kernel.Machine
import SRos.Lib.Bitmap
import SRos.Lib.Bytes

/-!
# The simple file system (`src/fs/sfs.c`)

The disk is an array of 1024 blocks. Block 0 holds the super block, block 1 the inode bitmap,
block 2 the block bitmap, blocks 3 and 4 the inode table, and the blocks from 5 on hold file
data and directory entries. Every function below reads and writes whole blocks, as the source
does. A byte array is a function of its index. An index past the end of `blocks` is undefined
in the source and reads `0` here.
-/

namespace SRos.Fs

open Bytes

abbrev Buf := Nat → UInt8

abbrev Disk := Nat → Buf

def blockSize : Nat := 4096

def diskBlocks : Nat := 1024

/-- `block_read` into `buf` (`src/fs/ramdisk.c`). -/
def blockRead (d : Disk) (blockNo : Nat) (buf : Buf) : Buf :=
  if diskBlocks ≤ blockNo then buf else d blockNo

/-- `block_write` (`src/fs/ramdisk.c`). -/
def blockWrite (d : Disk) (blockNo : Nat) (buf : Buf) : Disk :=
  if diskBlocks ≤ blockNo then d else Function.update d blockNo buf

/-- A local array before its first write. -/
def uninit : Buf := fun _ => 0

/-- An array after `memset` to zero. -/
def zeros : Buf := fun _ => 0

def sfsMagic : Nat := 0x53465321

def sfsFile : Nat := 0

def sfsDir : Nat := 1

def maxFilename : Nat := 28

def sfsDirectBlocks : Nat := 12

def maxFiles : Nat := 16

def rootIno : Nat := 1

def inodeBitmapBlock : Nat := 1

def blockBitmapBlock : Nat := 2

def inodeTableStart : Nat := 3

def inodeTableBlocks : Nat := 2

def dataBlockStart : Nat := 5

/-- `sizeof(struct sfs_inode)` -/
def inodeBytes : Nat := 61

/-- `sizeof(struct dentry)` -/
def dentryBytes : Nat := 32

def inodesPerBlock : Nat := blockSize / inodeBytes

def maxInodes : Nat := inodeTableBlocks * inodesPerBlock

def dentriesPerBlock : Nat := blockSize / dentryBytes

structure SuperBlock where
  magic : Nat
  totalBlocks : Nat
  inodeCount : Nat
  inodeBitmapStart : Nat
  blockBitmapStart : Nat
  inodeTableStart : Nat
  dataBlockStart : Nat
  deriving DecidableEq

namespace SuperBlock

def words (sb : SuperBlock) : List Nat :=
  [sb.magic, sb.totalBlocks, sb.inodeCount, sb.inodeBitmapStart, sb.blockBitmapStart,
    sb.inodeTableStart, sb.dataBlockStart]

/-- The 28 bytes of the packed structure. -/
def encode (sb : SuperBlock) : Buf := fun i => byte32 (sb.words.getD (i / 4) 0) (i % 4)

def decode (block : Buf) : SuperBlock where
  magic := load32 block 0
  totalBlocks := load32 block 4
  inodeCount := load32 block 8
  inodeBitmapStart := load32 block 12
  blockBitmapStart := load32 block 16
  inodeTableStart := load32 block 20
  dataBlockStart := load32 block 24

end SuperBlock

structure Inode where
  ino : Nat
  size : Nat
  type : Nat
  blockCount : Nat
  blocks : Nat → Nat

namespace Inode

/-- The 61 bytes of the packed structure. -/
def encode (inode : Inode) : Buf := fun i =>
  if i < 4 then byte32 inode.ino i
  else if i < 8 then byte32 inode.size (i - 4)
  else if i = 8 then UInt8.ofNat inode.type
  else if i < 13 then byte32 inode.blockCount (i - 9)
  else byte32 (inode.blocks ((i - 13) / 4)) ((i - 13) % 4)

/-- The structure in the 61 bytes from `off` on. -/
def decode (buf : Buf) (off : Nat) : Inode where
  ino := load32 buf off
  size := load32 buf (off + 4)
  type := (buf (off + 8)).toNat
  blockCount := load32 buf (off + 9)
  blocks := fun i => if i < sfsDirectBlocks then load32 buf (off + 13 + 4 * i) else 0

/-- An inode after `memset` to zero. -/
def zero : Inode := ⟨0, 0, 0, 0, fun _ => 0⟩

end Inode

structure Dentry where
  ino : Nat
  name : Nat → UInt8

namespace Dentry

def encode (d : Dentry) : Buf := fun i => if i < 4 then byte32 d.ino i else d.name (i - 4)

def decode (block : Buf) (off : Nat) : Dentry where
  ino := load32 block off
  name := fun i => if i < maxFilename then block (off + 4 + i) else 0

/-- The bytes of the name in front of its NUL. -/
def string (d : Dentry) : List UInt8 := ((List.range maxFilename).map d.name).takeWhile (· ≠ 0)

/-- A directory entry after `memset` to zero. -/
def zero : Dentry := ⟨0, fun _ => 0⟩

/-- `d.ino = ino` and the loop that copies `name` over `d.name`, which leaves the bytes behind
a short name as they are. -/
def assign (d : Dentry) (ino : Nat) (name : CStr) : Dentry where
  ino := ino
  name := fun i =>
    if i < name.bytes.length ∧ i < maxFilename - 1 then name.bytes.getD i 0
    else if i = maxFilename - 1 then 0
    else d.name i

end Dentry

structure File where
  ino : Nat
  offset : Nat
  mode : Nat
  inUse : Bool
  deriving DecidableEq

/-- The disk and the variables of the file system. -/
structure FsState where
  disk : Disk
  sb : SuperBlock
  mounted : Bool
  files : Nat → File

namespace FsState

def write (s : FsState) (blockNo : Nat) (buf : Buf) : FsState :=
  { s with disk := blockWrite s.disk blockNo buf }

def setFile (s : FsState) (fd : Nat) (f : File) : FsState :=
  { s with files := Function.update s.files fd f }

end FsState

/-- `path_parse`, whose parent is always the root. -/
def pathParse : Option CStr → Option CStr
  | none => none
  | some path =>
      if path.bytes.dropWhile (· == 0x2F) = [] then none
      else some ⟨path.bytes.dropWhile (· == 0x2F), fun hmem =>
        path.noNul ((List.dropWhile_sublist _).subset hmem)⟩

def sfsAllocInode (s : FsState) : Option (Nat × FsState) :=
  let bitmap := blockRead s.disk s.sb.inodeBitmapStart uninit
  match Bitmap.findFirstZero bitmap (int32 s.sb.inodeCount).toNat with
  | none => none
  | some ino => some (ino, s.write s.sb.inodeBitmapStart (Bitmap.set bitmap ino))

def sfsFreeInode (s : FsState) (ino : Nat) : FsState :=
  if ino = 0 ∨ s.sb.inodeCount ≤ ino then s
  else
    let bitmap := blockRead s.disk s.sb.inodeBitmapStart uninit
    s.write s.sb.inodeBitmapStart (Bitmap.clear bitmap ino)

/-- The block of the inode table with the inode `ino`. -/
def inodeBlock (s : FsState) (ino : Nat) : Nat :=
  u32 (s.sb.inodeTableStart + (ino - 1) / inodesPerBlock)

def inodeOffset (ino : Nat) : Nat := (ino - 1) % inodesPerBlock * inodeBytes

def sfsReadInode (s : FsState) (ino : Nat) : Option Inode :=
  if ino = 0 ∨ s.sb.inodeCount ≤ ino then none
  else some (Inode.decode (blockRead s.disk (inodeBlock s ino) uninit) (inodeOffset ino))

/-- No caller looks at the result of `sfs_write_inode`. -/
def sfsWriteInode (s : FsState) (inode : Inode) : FsState :=
  if inode.ino = 0 ∨ s.sb.inodeCount ≤ inode.ino then s
  else
    let buf := blockRead s.disk (inodeBlock s inode.ino) uninit
    s.write (inodeBlock s inode.ino) (splice buf (inodeOffset inode.ino) inodeBytes inode.encode)

def sfsAllocBlock (s : FsState) : Option (Nat × FsState) :=
  let bitmap := blockRead s.disk s.sb.blockBitmapStart uninit
  match Bitmap.findFirstZero bitmap (int32 s.sb.totalBlocks).toNat with
  | none => none
  | some idx =>
      if (idx : Int) < int32 s.sb.dataBlockStart then none
      else some (idx, s.write s.sb.blockBitmapStart (Bitmap.set bitmap idx))

/-- The test of `sfs_lookup`. -/
def Dentry.matches (d : Dentry) (name : CStr) : Bool :=
  d.ino != 0 && strcmp d.string name.bytes == 0

/-- The inner loop of `sfs_lookup`. -/
def lookupBlock (block : Buf) (name : CStr) : Option Nat :=
  let di := (List.range dentriesPerBlock).find? fun di =>
    (Dentry.decode block (di * dentryBytes)).matches name
  di.map fun di => (Dentry.decode block (di * dentryBytes)).ino

/-- The outer loop of `sfs_lookup`, from block `bi` on for `n` blocks. -/
def lookupLoop (s : FsState) (dir : Inode) (name : CStr) : Nat → Nat → Buf → Option Nat
  | 0, _, _ => none
  | n + 1, bi, block =>
      let block := blockRead s.disk (dir.blocks bi) block
      match lookupBlock block name with
      | some ino => some ino
      | none => lookupLoop s dir name n (bi + 1) block

def sfsLookup (s : FsState) (dirIno : Nat) (name : CStr) : Int :=
  match sfsReadInode s dirIno with
  | none => -1
  | some dir =>
      if dir.type ≠ sfsDir then -1
      else match lookupLoop s dir name dir.blockCount 0 uninit with
        | none => -1
        | some ino => int32 ino

theorem dot_noNul : (0 : UInt8) ∉ [(0x2E : UInt8)] := by decide

theorem dotDot_noNul : (0 : UInt8) ∉ [(0x2E : UInt8), 0x2E] := by decide

/-- The first block of a new directory. -/
def dotDentries (self parent : Nat) : Buf :=
  splice (splice zeros 0 dentryBytes (Dentry.zero.assign self ⟨[0x2E], dot_noNul⟩).encode)
    dentryBytes dentryBytes (Dentry.zero.assign parent ⟨[0x2E, 0x2E], dotDot_noNul⟩).encode

/-- The inode that `sfs_create` makes, with its first block when it is a directory. -/
def newInode (s : FsState) (newIno parentIno type : Nat) : Option (Inode × FsState) :=
  let inode : Inode := { Inode.zero with ino := newIno, type := type }
  if type = sfsDir then
    match sfsAllocBlock s with
    | none => none
    | some (blockNo, s) =>
        some ({ inode with
            blocks := Function.update inode.blocks 0 blockNo
            blockCount := 1
            size := 2 * dentryBytes },
          s.write blockNo (dotDentries newIno parentIno))
  else some (inode, s)

/-- The inner loop of the search for a free entry: its place, or the last entry read. -/
def freeInBlock (block : Buf) : Nat → Nat → Dentry → (Nat × Dentry) ⊕ Dentry
  | 0, _, d => .inr d
  | n + 1, di, _ =>
      let d := Dentry.decode block (di * dentryBytes)
      if d.ino = 0 then .inl (di, d) else freeInBlock block n (di + 1) d

/-- A free entry with the block it was read from. -/
structure Slot where
  bi : Nat
  di : Nat
  block : Buf
  d : Dentry

/-- The outer loop of the search, from block `bi` on for `n` blocks. -/
def freeLoop (s : FsState) (dir : Inode) : Nat → Nat → Buf → Dentry → Slot ⊕ Dentry
  | 0, _, _, d => .inr d
  | n + 1, bi, block, d =>
      let block := blockRead s.disk (dir.blocks bi) block
      match freeInBlock block dentriesPerBlock 0 d with
      | .inl (di, d) => .inl ⟨bi, di, block, d⟩
      | .inr d => freeLoop s dir n (bi + 1) block d

/-- The part of `sfs_create` that enters the new inode in its directory. -/
def addDentry (s : FsState) (dir : Inode) (newIno : Nat) (name : CStr) :
    Option (Inode × FsState) :=
  match freeLoop s dir dir.blockCount 0 uninit Dentry.zero with
  | .inl slot =>
      let d := slot.d.assign newIno name
      some (dir, s.write (dir.blocks slot.bi)
        (splice slot.block (slot.di * dentryBytes) dentryBytes d.encode))
  | .inr d =>
      if sfsDirectBlocks ≤ dir.blockCount then none
      else
        match sfsAllocBlock s with
        | none => none
        | some (newBlock, s) =>
            let d := d.assign newIno name
            some ({ dir with
                blocks := Function.update dir.blocks dir.blockCount newBlock
                blockCount := u32 (dir.blockCount + 1) },
              s.write newBlock (splice zeros 0 dentryBytes d.encode))

def sfsCreate (s : FsState) (parentIno : Nat) (name : CStr) (type : Nat) : FsState × Int :=
  match sfsReadInode s parentIno with
  | none => (s, -1)
  | some parent =>
      if parent.type ≠ sfsDir then (s, -1)
      else if 0 ≤ sfsLookup s parentIno name then (s, -1)
      else
        match sfsAllocInode s with
        | none => (s, -1)
        | some (newIno, s) =>
            match newInode s newIno parentIno type with
            | none => (sfsFreeInode s newIno, -1)
            | some (inode, s) =>
                let s := sfsWriteInode s inode
                match addDentry s parent newIno name with
                | none => (sfsFreeInode s newIno, -1)
                | some (parent, s) =>
                    (sfsWriteInode s { parent with size := u32 (parent.size + dentryBytes) },
                      newIno)

/-- The `while` of `sfs_read_file`. Each pass copies at least one byte, so `size` passes are
enough. -/
def readLoop (d : Disk) (inode : Inode) (size offset : Nat) :
    Nat → Nat → Buf → Buf → Nat × Buf
  | 0, bytesRead, _, buf => (bytesRead, buf)
  | fuel + 1, bytesRead, block, buf =>
      if size ≤ bytesRead then (bytesRead, buf)
      else
        let currentOffset := u32 (offset + bytesRead)
        let blockIdx := currentOffset / blockSize
        let blockOff := currentOffset % blockSize
        if inode.blockCount ≤ blockIdx then (bytesRead, buf)
        else
          let block := blockRead d (inode.blocks blockIdx) block
          let toCopy := min (blockSize - blockOff) (size - bytesRead)
          readLoop d inode size offset fuel (bytesRead + toCopy) block
            (splice buf bytesRead toCopy fun i => block (blockOff + i))

/-- The number of bytes read, and the buffer they are read to. -/
def sfsReadFile (d : Disk) (inode : Inode) (buf : Buf) (size offset : Nat) : Nat × Buf :=
  if inode.size ≤ offset then (0, buf)
  else
    let size := if inode.size < u32 (offset + size) then inode.size - offset else size
    readLoop d inode size offset size 0 uninit buf

/-- The block of a file at an index, which is allocated when the file ends in front of it. -/
def ensureBlock (s : FsState) (inode : Inode) (blockIdx : Nat) : Option (FsState × Inode) :=
  if inode.blockCount ≤ blockIdx then
    if sfsDirectBlocks ≤ blockIdx then none
    else
      match sfsAllocBlock s with
      | none => none
      | some (newBlock, s) =>
          some (s, { inode with
            blocks := Function.update inode.blocks blockIdx newBlock
            blockCount := u32 (inode.blockCount + 1) })
  else some (s, inode)

/-- The `while` of `sfs_write_file`. -/
def writeLoop (buf : Buf) (size offset : Nat) :
    Nat → FsState → Inode → Nat → Buf → FsState × Inode × Nat
  | 0, s, inode, bytesWritten, _ => (s, inode, bytesWritten)
  | fuel + 1, s, inode, bytesWritten, block =>
      if size ≤ bytesWritten then (s, inode, bytesWritten)
      else
        let currentOffset := u32 (offset + bytesWritten)
        let blockIdx := currentOffset / blockSize
        let blockOff := currentOffset % blockSize
        match ensureBlock s inode blockIdx with
        | none => (s, inode, bytesWritten)
        | some (s, inode) =>
            let block := blockRead s.disk (inode.blocks blockIdx) block
            let toCopy := min (blockSize - blockOff) (size - bytesWritten)
            let block := splice block blockOff toCopy fun i => buf (bytesWritten + i)
            writeLoop buf size offset fuel (s.write (inode.blocks blockIdx) block) inode
              (bytesWritten + toCopy) block

/-- The file system and the inode after the call, and the number of bytes written. -/
def sfsWriteFile (s : FsState) (inode : Inode) (buf : Buf) (size offset : Nat) :
    FsState × Inode × Nat :=
  let (s, inode, bytesWritten) := writeLoop buf size offset size s inode 0 uninit
  let inode :=
    if inode.size < u32 (offset + bytesWritten) then
      { inode with size := u32 (offset + bytesWritten) }
    else inode
  (s, inode, bytesWritten)

def sysOpen (s : FsState) (path : Option CStr) : FsState × Int :=
  if s.mounted = false then (s, -1)
  else
    match pathParse path with
    | none => (s, -1)
    | some name =>
        let ino := sfsLookup s rootIno name
        if ino < 0 then (s, -1)
        else
          match (List.range maxFiles).find? fun i => !(s.files i).inUse with
          | none => (s, -1)
          | some fd => (s.setFile fd ⟨u32OfInt ino, 0, 2, true⟩, fd)

/-- The open file of a descriptor argument. -/
def openFile (s : FsState) (fd : Int) : Option File :=
  if fd < 0 ∨ (maxFiles : Int) ≤ fd ∨ (s.files fd.toNat).inUse = false then none
  else some (s.files fd.toNat)

/-- The state after the call, the buffer of the caller and the result. -/
def sysRead (s : FsState) (fd : Int) (buf : Buf) (count : Int) : FsState × Buf × Int :=
  match openFile s fd with
  | none => (s, buf, -1)
  | some file =>
      match sfsReadInode s file.ino with
      | none => (s, buf, -1)
      | some inode =>
          let (n, buf) := sfsReadFile s.disk inode buf (u32OfInt count) file.offset
          (s.setFile fd.toNat { file with offset := u32 (file.offset + n) }, buf, int32 n)

def sysWrite (s : FsState) (fd : Int) (buf : Buf) (count : Int) : FsState × Int :=
  match openFile s fd with
  | none => (s, -1)
  | some file =>
      match sfsReadInode s file.ino with
      | none => (s, -1)
      | some inode =>
          let (s, inode, n) := sfsWriteFile s inode buf (u32OfInt count) file.offset
          let s := s.setFile fd.toNat { file with offset := u32 (file.offset + n) }
          (sfsWriteInode s inode, int32 n)

def sysClose (s : FsState) (fd : Int) : FsState :=
  if fd < 0 ∨ (maxFiles : Int) ≤ fd then s
  else s.setFile fd.toNat { s.files fd.toNat with inUse := false }

/-- The super block of a new file system. -/
def SuperBlock.new : SuperBlock where
  magic := sfsMagic
  totalBlocks := diskBlocks
  inodeCount := maxInodes
  inodeBitmapStart := inodeBitmapBlock
  blockBitmapStart := blockBitmapBlock
  inodeTableStart := Fs.inodeTableStart
  dataBlockStart := Fs.dataBlockStart

/-- The empty image that `sfs_format` writes in front of the root directory. -/
def formatBlocks (s : FsState) : FsState :=
  let s := { s with sb := SuperBlock.new }
  let s := s.write 0 (splice zeros 0 28 SuperBlock.new.encode)
  let s := s.write inodeBitmapBlock (Bitmap.set zeros 0)
  let s := s.write blockBitmapBlock ((List.range dataBlockStart).foldl Bitmap.set zeros)
  let s := s.write inodeTableStart zeros
  s.write (inodeTableStart + 1) zeros

def sfsFormat (s : FsState) : FsState :=
  let s := formatBlocks s
  -- the `-1` of a failed allocation would be stored as an unsigned block number
  let (rootBlock, s) := (sfsAllocBlock s).getD (u32OfInt (-1), s)
  let rootInode : Inode := { Inode.zero with
    ino := rootIno
    type := sfsDir
    blocks := Function.update Inode.zero.blocks 0 rootBlock
    blockCount := 1
    size := 2 * dentryBytes }
  let s := s.write rootBlock (dotDentries rootIno rootIno)
  let s := sfsWriteInode s rootInode
  let bitmap := blockRead s.disk inodeBitmapBlock uninit
  s.write inodeBitmapBlock (Bitmap.set bitmap rootIno)

def sfsMount (s : FsState) : FsState × Int :=
  let s := { s with sb := SuperBlock.decode (blockRead s.disk 0 uninit) }
  if s.sb.magic ≠ sfsMagic then (s, -1)
  else
    ({ s with
        files := fun i => if i < maxFiles then { s.files i with inUse := false } else s.files i
        mounted := true }, 0)

end SRos.Fs
