import SRos.Lib.Traced
import SRos.Fs.Directory

/-!
# The file system with its array accesses

The functions of `src/fs/sfs.c` once more, with every index they use in a bitmap, in a block of the
inode table, in `blocks` and in a block of entries. `block_read` leaves the array alone when the
block number is not on the disk, so what a local array held before shows: it is a parameter here.
With arrays of zeros the values are those of the file system model.
-/

namespace SRos.Fs.Accesses

open Bytes
open Traced (emit)

inductive Access
  | bitmap (byte : Nat)
  | inode (off : Nat)
  | block (i : Nat)
  | dentry (off : Nat)
  deriving DecidableEq

/-- The access stays inside the array. -/
def Access.InRange : Access → Prop
  | .bitmap byte => byte < blockSize
  | .inode off => off + inodeBytes ≤ blockSize
  | .block i => i < sfsDirectBlocks
  | .dentry off => off + dentryBytes ≤ blockSize

/-- `bitmap_find_first_zero`, from bit `i` on for `n` bits. -/
def bitmapFindFirstZero (bitmap : Buf) : Nat → Nat → Traced Access (Option Nat)
  | 0, _ => return none
  | n + 1, i => do
      emit (.bitmap (i / 8))
      if Bitmap.bit bitmap i = false then return some i
      else bitmapFindFirstZero bitmap n (i + 1)

def bitmapSet (bitmap : Buf) (idx : Nat) : Traced Access Buf := do
  emit (.bitmap (idx / 8))
  return Bitmap.set bitmap idx

def bitmapClear (bitmap : Buf) (idx : Nat) : Traced Access Buf := do
  emit (.bitmap (idx / 8))
  return Bitmap.clear bitmap idx

def sfsAllocInode (junk : Buf) (s : FsState) : Traced Access (Option (Nat × FsState)) := do
  let bitmap := blockRead s.disk s.sb.inodeBitmapStart junk
  match ← bitmapFindFirstZero bitmap (int32 s.sb.inodeCount).toNat 0 with
  | none => return none
  | some ino =>
      let bitmap ← bitmapSet bitmap ino
      return some (ino, s.write s.sb.inodeBitmapStart bitmap)

def sfsFreeInode (junk : Buf) (s : FsState) (ino : Nat) : Traced Access FsState :=
  if ino = 0 ∨ s.sb.inodeCount ≤ ino then return s
  else do
    let bitmap ← bitmapClear (blockRead s.disk s.sb.inodeBitmapStart junk) ino
    return s.write s.sb.inodeBitmapStart bitmap

def sfsReadInode (junk : Buf) (s : FsState) (ino : Nat) : Traced Access (Option Inode) :=
  if ino = 0 ∨ s.sb.inodeCount ≤ ino then return none
  else do
    let buf := blockRead s.disk (inodeBlock s ino) junk
    emit (.inode (inodeOffset ino))
    return some (Inode.decode buf (inodeOffset ino))

def sfsWriteInode (junk : Buf) (s : FsState) (inode : Inode) : Traced Access FsState :=
  if inode.ino = 0 ∨ s.sb.inodeCount ≤ inode.ino then return s
  else do
    let buf := blockRead s.disk (inodeBlock s inode.ino) junk
    emit (.inode (inodeOffset inode.ino))
    return s.write (inodeBlock s inode.ino)
      (splice buf (inodeOffset inode.ino) inodeBytes inode.encode)

def sfsAllocBlock (junk : Buf) (s : FsState) : Traced Access (Option (Nat × FsState)) := do
  let bitmap := blockRead s.disk s.sb.blockBitmapStart junk
  match ← bitmapFindFirstZero bitmap (int32 s.sb.totalBlocks).toNat 0 with
  | none => return none
  | some idx =>
      if (idx : Int) < int32 s.sb.dataBlockStart then return none
      else do
        let bitmap ← bitmapSet bitmap idx
        return some (idx, s.write s.sb.blockBitmapStart bitmap)

/-- The inner loop of `sfs_lookup`, from entry `di` on for `n` entries. -/
def lookupBlock (block : Buf) (name : CStr) : Nat → Nat → Traced Access (Option Nat)
  | 0, _ => return none
  | n + 1, di => do
      emit (.dentry (di * dentryBytes))
      let d := Dentry.decode block (di * dentryBytes)
      if d.matches name = true then return some d.ino
      else lookupBlock block name n (di + 1)

/-- The outer loop of `sfs_lookup`, from block `bi` on for `n` blocks. -/
def lookupLoop (s : FsState) (dir : Inode) (name : CStr) :
    Nat → Nat → Buf → Traced Access (Option Nat)
  | 0, _, _ => return none
  | n + 1, bi, block => do
      emit (.block bi)
      let block := blockRead s.disk (dir.blocks bi) block
      match ← lookupBlock block name dentriesPerBlock 0 with
      | some ino => return some ino
      | none => lookupLoop s dir name n (bi + 1) block

def sfsLookup (junk : Nat → Buf) (s : FsState) (dirIno : Nat) (name : CStr) :
    Traced Access Int := do
  match ← sfsReadInode (junk 0) s dirIno with
  | none => return -1
  | some dir =>
      if dir.type ≠ sfsDir then return -1
      else do
        match ← lookupLoop s dir name dir.blockCount 0 (junk 1) with
        | none => return -1
        | some ino => return int32 ino

/-- The inode that `sfs_create` makes, with its first block when it is a directory. -/
def newInode (junk : Buf) (s : FsState) (newIno parentIno type : Nat) :
    Traced Access (Option (Inode × FsState)) :=
  let inode : Inode := { Inode.zero with ino := newIno, type := type }
  if type = sfsDir then do
    match ← sfsAllocBlock junk s with
    | none => return none
    | some (blockNo, s) =>
        emit (.block 0)
        return some ({ inode with
            blocks := Function.update inode.blocks 0 blockNo
            blockCount := 1
            size := 2 * dentryBytes },
          s.write blockNo (dotDentries newIno parentIno))
  else return some (inode, s)

/-- The inner loop of the search for a free entry: its place, or the last entry read. -/
def freeInBlock (block : Buf) : Nat → Nat → Dentry → Traced Access ((Nat × Dentry) ⊕ Dentry)
  | 0, _, d => return .inr d
  | n + 1, di, _ => do
      emit (.dentry (di * dentryBytes))
      let d := Dentry.decode block (di * dentryBytes)
      if d.ino = 0 then return .inl (di, d) else freeInBlock block n (di + 1) d

/-- The outer loop of the search, from block `bi` on for `n` blocks. -/
def freeLoop (s : FsState) (dir : Inode) :
    Nat → Nat → Buf → Dentry → Traced Access (Slot ⊕ Dentry)
  | 0, _, _, d => return .inr d
  | n + 1, bi, block, d => do
      emit (.block bi)
      let block := blockRead s.disk (dir.blocks bi) block
      match ← freeInBlock block dentriesPerBlock 0 d with
      | .inl (di, d) => return .inl ⟨bi, di, block, d⟩
      | .inr d => freeLoop s dir n (bi + 1) block d

/-- The part of `sfs_create` that enters the new inode in its directory. -/
def addDentry (junk : Nat → Buf) (s : FsState) (dir : Inode) (newIno : Nat) (name : CStr) :
    Traced Access (Option (Inode × FsState)) := do
  match ← freeLoop s dir dir.blockCount 0 (junk 0) (Dentry.decode (junk 1) 0) with
  | .inl slot =>
      emit (.dentry (slot.di * dentryBytes))
      emit (.block slot.bi)
      let d := slot.d.assign newIno name
      return some (dir, s.write (dir.blocks slot.bi)
        (splice slot.block (slot.di * dentryBytes) dentryBytes d.encode))
  | .inr d =>
      if sfsDirectBlocks ≤ dir.blockCount then return none
      else do
        match ← sfsAllocBlock (junk 2) s with
        | none => return none
        | some (newBlock, s) =>
            emit (.dentry 0)
            emit (.block dir.blockCount)
            let d := d.assign newIno name
            return some ({ dir with
                blocks := Function.update dir.blocks dir.blockCount newBlock
                blockCount := u32 (dir.blockCount + 1) },
              s.write newBlock (splice zeros 0 dentryBytes d.encode))

/-- `sfs_create` behind the search for the name. -/
def enterNew (junk : Nat → Buf) (s : FsState) (parent : Inode) (parentIno : Nat) (name : CStr)
    (type : Nat) : Traced Access (FsState × Int) := do
  match ← sfsAllocInode (junk 0) s with
  | none => return (s, -1)
  | some (newIno, s) =>
      match ← newInode (junk 1) s newIno parentIno type with
      | none =>
          let s ← sfsFreeInode (junk 2) s newIno
          return (s, -1)
      | some (inode, s) =>
          let s ← sfsWriteInode (junk 2) s inode
          match ← addDentry (fun i => junk (i + 5)) s parent newIno name with
          | none =>
              let s ← sfsFreeInode (junk 3) s newIno
              return (s, -1)
          | some (parent, s) =>
              let s ← sfsWriteInode (junk 3) s
                { parent with size := u32 (parent.size + dentryBytes) }
              return (s, newIno)

def sfsCreate (junk : Nat → Buf) (s : FsState) (parentIno : Nat) (name : CStr) (type : Nat) :
    Traced Access (FsState × Int) := do
  match ← sfsReadInode (junk 0) s parentIno with
  | none => return (s, -1)
  | some parent =>
      if parent.type ≠ sfsDir then return (s, -1)
      else do
        let found ← sfsLookup (fun i => junk (i + 1)) s parentIno name
        if 0 ≤ found then return (s, -1)
        else enterNew (fun i => junk (i + 3)) s parent parentIno name type

/-- The `while` of `sfs_read_file`. -/
def readLoop (d : Disk) (inode : Inode) (size offset : Nat) :
    Nat → Nat → Buf → Buf → Traced Access (Nat × Buf)
  | 0, bytesRead, _, buf => return (bytesRead, buf)
  | fuel + 1, bytesRead, block, buf =>
      if size ≤ bytesRead then return (bytesRead, buf)
      else
        let currentOffset := u32 (offset + bytesRead)
        let blockIdx := currentOffset / blockSize
        let blockOff := currentOffset % blockSize
        if inode.blockCount ≤ blockIdx then return (bytesRead, buf)
        else do
          emit (.block blockIdx)
          let block := blockRead d (inode.blocks blockIdx) block
          let toCopy := min (blockSize - blockOff) (size - bytesRead)
          readLoop d inode size offset fuel (bytesRead + toCopy) block
            (splice buf bytesRead toCopy fun i => block (blockOff + i))

def sfsReadFile (junk : Buf) (d : Disk) (inode : Inode) (buf : Buf) (size offset : Nat) :
    Traced Access (Nat × Buf) :=
  if inode.size ≤ offset then return (0, buf)
  else
    let size := if inode.size < u32 (offset + size) then inode.size - offset else size
    readLoop d inode size offset size 0 junk buf

/-- The block of a file at an index, which is allocated when the file ends in front of it. -/
def ensureBlock (junk : Buf) (s : FsState) (inode : Inode) (blockIdx : Nat) :
    Traced Access (Option (FsState × Inode)) :=
  if inode.blockCount ≤ blockIdx then
    if sfsDirectBlocks ≤ blockIdx then return none
    else do
      match ← sfsAllocBlock junk s with
      | none => return none
      | some (newBlock, s) =>
          emit (.block blockIdx)
          return some (s, { inode with
            blocks := Function.update inode.blocks blockIdx newBlock
            blockCount := u32 (inode.blockCount + 1) })
  else return some (s, inode)

/-- The `while` of `sfs_write_file`. The bitmap of every allocation is an array of its own. -/
def writeLoop (junk : Nat → Buf) (buf : Buf) (size offset : Nat) :
    Nat → FsState → Inode → Nat → Buf → Traced Access (FsState × Inode × Nat)
  | 0, s, inode, bytesWritten, _ => return (s, inode, bytesWritten)
  | fuel + 1, s, inode, bytesWritten, block =>
      if size ≤ bytesWritten then return (s, inode, bytesWritten)
      else
        let currentOffset := u32 (offset + bytesWritten)
        let blockIdx := currentOffset / blockSize
        let blockOff := currentOffset % blockSize
        do
          match ← ensureBlock (junk bytesWritten) s inode blockIdx with
          | none => return (s, inode, bytesWritten)
          | some (s, inode) =>
              emit (.block blockIdx)
              let block := blockRead s.disk (inode.blocks blockIdx) block
              let toCopy := min (blockSize - blockOff) (size - bytesWritten)
              let block := splice block blockOff toCopy fun i => buf (bytesWritten + i)
              emit (.block blockIdx)
              writeLoop junk buf size offset fuel (s.write (inode.blocks blockIdx) block) inode
                (bytesWritten + toCopy) block

def sfsWriteFile (junk : Nat → Buf) (s : FsState) (inode : Inode) (buf : Buf) (size offset : Nat) :
    Traced Access (FsState × Inode × Nat) := do
  let (s, inode, bytesWritten) ←
    writeLoop (fun i => junk (i + 1)) buf size offset size s inode 0 (junk 0)
  let inode :=
    if inode.size < u32 (offset + bytesWritten) then
      { inode with size := u32 (offset + bytesWritten) }
    else inode
  return (s, inode, bytesWritten)

def sysOpen (junk : Nat → Buf) (s : FsState) (path : Option CStr) : Traced Access (FsState × Int) :=
  if s.mounted = false then return (s, -1)
  else
    match pathParse path with
    | none => return (s, -1)
    | some name => do
        let ino ← sfsLookup junk s rootIno name
        if ino < 0 then return (s, -1)
        else
          match (List.range maxFiles).find? fun i => !(s.files i).inUse with
          | none => return (s, -1)
          | some fd => return (s.setFile fd ⟨u32OfInt ino, 0, 2, true⟩, fd)

def sysRead (junk : Nat → Buf) (s : FsState) (fd : Int) (buf : Buf) (count : Int) :
    Traced Access (FsState × Buf × Int) :=
  match openFile s fd with
  | none => return (s, buf, -1)
  | some file => do
      match ← sfsReadInode (junk 0) s file.ino with
      | none => return (s, buf, -1)
      | some inode =>
          let (n, buf) ← sfsReadFile (junk 1) s.disk inode buf (u32OfInt count) file.offset
          return (s.setFile fd.toNat { file with offset := u32 (file.offset + n) }, buf, int32 n)

def sysWrite (junk : Nat → Buf) (s : FsState) (fd : Int) (buf : Buf) (count : Int) :
    Traced Access (FsState × Int) :=
  match openFile s fd with
  | none => return (s, -1)
  | some file => do
      match ← sfsReadInode (junk 0) s file.ino with
      | none => return (s, -1)
      | some inode =>
          let (s, inode, n) ←
            sfsWriteFile (fun i => junk (i + 2)) s inode buf (u32OfInt count) file.offset
          let s := s.setFile fd.toNat { file with offset := u32 (file.offset + n) }
          let s ← sfsWriteInode (junk 1) s inode
          return (s, int32 n)

/-! ## The values -/

variable {s : FsState} {inode dir : Inode} {name : CStr} {junk : Buf}

theorem value_bitmapFindFirstZero (bitmap : Buf) (n i : Nat) :
    (bitmapFindFirstZero bitmap n i).value =
      (List.range' i n).find? fun j => !Bitmap.bit bitmap j := by
  induction n generalizing i with
  | zero => rfl
  | succ n ih =>
      rw [bitmapFindFirstZero, List.range'_succ, List.find?_cons]
      cases hbit : Bitmap.bit bitmap i with
      | false => rfl
      | true => exact ih (i + 1)

@[simp] theorem value_findFirstZero (bitmap : Buf) (n : Nat) :
    (bitmapFindFirstZero bitmap n 0).value = Bitmap.findFirstZero bitmap n := by
  rw [value_bitmapFindFirstZero, ← List.range_eq_range']
  rfl

@[simp] theorem value_sfsAllocInode (s : FsState) :
    (sfsAllocInode uninit s).value = Fs.sfsAllocInode s := by
  unfold sfsAllocInode Fs.sfsAllocInode
  rw [Traced.value_bind, value_findFirstZero]
  dsimp only
  cases Bitmap.findFirstZero (blockRead s.disk s.sb.inodeBitmapStart uninit)
    (int32 s.sb.inodeCount).toNat with
  | none => rfl
  | some ino => rfl

@[simp] theorem value_sfsFreeInode (s : FsState) (ino : Nat) :
    (sfsFreeInode uninit s ino).value = Fs.sfsFreeInode s ino := by
  unfold sfsFreeInode Fs.sfsFreeInode
  split <;> rfl

@[simp] theorem value_sfsReadInode (s : FsState) (ino : Nat) :
    (sfsReadInode uninit s ino).value = Fs.sfsReadInode s ino := by
  unfold sfsReadInode Fs.sfsReadInode
  split <;> rfl

@[simp] theorem value_sfsWriteInode (s : FsState) (inode : Inode) :
    (sfsWriteInode uninit s inode).value = Fs.sfsWriteInode s inode := by
  unfold sfsWriteInode Fs.sfsWriteInode
  split <;> rfl

@[simp] theorem value_sfsAllocBlock (s : FsState) :
    (sfsAllocBlock uninit s).value = Fs.sfsAllocBlock s := by
  unfold sfsAllocBlock Fs.sfsAllocBlock
  rw [Traced.value_bind, value_findFirstZero]
  dsimp only
  cases Bitmap.findFirstZero (blockRead s.disk s.sb.blockBitmapStart uninit)
    (int32 s.sb.totalBlocks).toNat with
  | none => rfl
  | some idx =>
      dsimp only
      split <;> rfl

theorem value_lookupBlock_from (block : Buf) (name : CStr) (n di : Nat) :
    (lookupBlock block name n di).value =
      ((List.range' di n).find? fun di =>
        (Dentry.decode block (di * dentryBytes)).matches name).map fun di =>
          (Dentry.decode block (di * dentryBytes)).ino := by
  induction n generalizing di with
  | zero => rfl
  | succ n ih =>
      rw [lookupBlock, List.range'_succ, List.find?_cons, Traced.value_bind]
      dsimp only
      cases (Dentry.decode block (di * dentryBytes)).matches name with
      | true => rfl
      | false => exact ih (di + 1)

@[simp] theorem value_lookupBlock (block : Buf) (name : CStr) :
    (lookupBlock block name dentriesPerBlock 0).value = Fs.lookupBlock block name := by
  rw [value_lookupBlock_from, ← List.range_eq_range']
  rfl

@[simp] theorem value_lookupLoop (s : FsState) (dir : Inode) (name : CStr) (n bi : Nat)
    (block : Buf) :
    (lookupLoop s dir name n bi block).value = Fs.lookupLoop s dir name n bi block := by
  induction n generalizing bi block with
  | zero => rfl
  | succ n ih =>
      rw [lookupLoop, Fs.lookupLoop]
      simp only [Traced.value_bind, value_lookupBlock]
      cases Fs.lookupBlock (blockRead s.disk (dir.blocks bi) block) name with
      | some ino => rfl
      | none => exact ih (bi + 1) _

@[simp] theorem value_sfsLookup (s : FsState) (dirIno : Nat) (name : CStr) :
    (sfsLookup (fun _ => uninit) s dirIno name).value = Fs.sfsLookup s dirIno name := by
  unfold sfsLookup Fs.sfsLookup
  rw [Traced.value_bind, value_sfsReadInode]
  cases Fs.sfsReadInode s dirIno with
  | none => rfl
  | some dir =>
      dsimp only
      split
      · rfl
      · rw [Traced.value_bind, value_lookupLoop]
        cases Fs.lookupLoop s dir name dir.blockCount 0 uninit with
        | none => rfl
        | some ino => rfl

@[simp] theorem value_newInode (s : FsState) (newIno parentIno type : Nat) :
    (newInode uninit s newIno parentIno type).value = Fs.newInode s newIno parentIno type := by
  unfold newInode Fs.newInode
  dsimp only
  split
  · rw [Traced.value_bind, value_sfsAllocBlock]
    cases Fs.sfsAllocBlock s with
    | none => rfl
    | some r => rfl
  · rfl

@[simp] theorem value_freeInBlock (block : Buf) (n di : Nat) (d : Dentry) :
    (freeInBlock block n di d).value = Fs.freeInBlock block n di d := by
  induction n generalizing di d with
  | zero => rfl
  | succ n ih =>
      rw [freeInBlock, Fs.freeInBlock, Traced.value_bind]
      dsimp only
      split
      · rfl
      · exact ih (di + 1) _

@[simp] theorem value_freeLoop (s : FsState) (dir : Inode) (n bi : Nat) (block : Buf) (d : Dentry) :
    (freeLoop s dir n bi block d).value = Fs.freeLoop s dir n bi block d := by
  induction n generalizing bi block d with
  | zero => rfl
  | succ n ih =>
      rw [freeLoop, Fs.freeLoop]
      simp only [Traced.value_bind, value_freeInBlock]
      cases Fs.freeInBlock (blockRead s.disk (dir.blocks bi) block) dentriesPerBlock 0 d with
      | inl r => rfl
      | inr d' => exact ih (bi + 1) _ d'

theorem decode_uninit : Dentry.decode uninit 0 = Dentry.zero := by
  unfold Dentry.decode uninit Dentry.zero load32
  simp

@[simp] theorem value_addDentry (s : FsState) (dir : Inode) (newIno : Nat) (name : CStr) :
    (addDentry (fun _ => uninit) s dir newIno name).value = Fs.addDentry s dir newIno name := by
  unfold addDentry Fs.addDentry
  rw [Traced.value_bind, value_freeLoop, decode_uninit]
  cases Fs.freeLoop s dir dir.blockCount 0 uninit Dentry.zero with
  | inl slot => rfl
  | inr d =>
      dsimp only
      split
      · rfl
      · rw [Traced.value_bind, value_sfsAllocBlock]
        cases Fs.sfsAllocBlock s with
        | none => rfl
        | some r => rfl

@[simp] theorem value_sfsCreate (s : FsState) (parentIno : Nat) (name : CStr) (type : Nat) :
    (sfsCreate (fun _ => uninit) s parentIno name type).value =
      Fs.sfsCreate s parentIno name type := by
  unfold sfsCreate Fs.sfsCreate
  rw [Traced.value_bind, value_sfsReadInode]
  cases Fs.sfsReadInode s parentIno with
  | none => rfl
  | some parent =>
      dsimp only
      split
      · rfl
      · rw [Traced.value_bind, value_sfsLookup]
        split
        · rfl
        · unfold enterNew
          rw [Traced.value_bind, value_sfsAllocInode]
          cases Fs.sfsAllocInode s with
          | none => rfl
          | some r =>
              obtain ⟨newIno, s₁⟩ := r
              dsimp only
              rw [Traced.value_bind, value_newInode]
              cases Fs.newInode s₁ newIno parentIno type with
              | none => simp
              | some r =>
                  obtain ⟨inode, s₂⟩ := r
                  simp only [Traced.value_bind, value_sfsWriteInode, value_addDentry]
                  cases Fs.addDentry (Fs.sfsWriteInode s₂ inode) parent newIno name with
                  | none => simp
                  | some r => simp

@[simp] theorem value_readLoop (d : Disk) (inode : Inode) (size offset fuel bytesRead : Nat)
    (block buf : Buf) :
    (readLoop d inode size offset fuel bytesRead block buf).value =
      Fs.readLoop d inode size offset fuel bytesRead block buf := by
  induction fuel generalizing bytesRead block buf with
  | zero => rfl
  | succ fuel ih =>
      rw [readLoop, Fs.readLoop]
      dsimp only
      split
      · rfl
      · split
        · rfl
        · exact ih _ _ _

@[simp] theorem value_sfsReadFile (d : Disk) (inode : Inode) (buf : Buf) (size offset : Nat) :
    (sfsReadFile uninit d inode buf size offset).value = Fs.sfsReadFile d inode buf size offset := by
  unfold sfsReadFile Fs.sfsReadFile
  dsimp only
  split
  · rfl
  · exact value_readLoop d inode _ offset _ 0 uninit buf

@[simp] theorem value_ensureBlock (s : FsState) (inode : Inode) (blockIdx : Nat) :
    (ensureBlock uninit s inode blockIdx).value = Fs.ensureBlock s inode blockIdx := by
  unfold ensureBlock Fs.ensureBlock
  split
  · split
    · rfl
    · rw [Traced.value_bind, value_sfsAllocBlock]
      cases Fs.sfsAllocBlock s with
      | none => rfl
      | some r => rfl
  · rfl

@[simp] theorem value_writeLoop (buf : Buf) (size offset fuel : Nat) (s : FsState) (inode : Inode)
    (bytesWritten : Nat) (block : Buf) :
    (writeLoop (fun _ => uninit) buf size offset fuel s inode bytesWritten block).value =
      Fs.writeLoop buf size offset fuel s inode bytesWritten block := by
  induction fuel generalizing s inode bytesWritten block with
  | zero => rfl
  | succ fuel ih =>
      rw [writeLoop, Fs.writeLoop]
      dsimp only
      split
      · rfl
      · rw [Traced.value_bind, value_ensureBlock]
        cases Fs.ensureBlock s inode (u32 (offset + bytesWritten) / blockSize) with
        | none => rfl
        | some r => exact ih _ _ _ _

@[simp] theorem value_sfsWriteFile (s : FsState) (inode : Inode) (buf : Buf) (size offset : Nat) :
    (sfsWriteFile (fun _ => uninit) s inode buf size offset).value =
      Fs.sfsWriteFile s inode buf size offset := by
  unfold sfsWriteFile Fs.sfsWriteFile
  rw [Traced.value_bind, value_writeLoop]
  rfl

theorem value_sysOpen (s : FsState) (path : Option CStr) :
    (sysOpen (fun _ => uninit) s path).value = Fs.sysOpen s path := by
  unfold sysOpen Fs.sysOpen
  split
  · rfl
  · cases pathParse path with
    | none => rfl
    | some name =>
        simp only [Traced.value_bind, value_sfsLookup]
        split
        · rfl
        · cases (List.range maxFiles).find? fun i => !(s.files i).inUse with
          | none => rfl
          | some fd => rfl

theorem value_sysRead (s : FsState) (fd : Int) (buf : Buf) (count : Int) :
    (sysRead (fun _ => uninit) s fd buf count).value = Fs.sysRead s fd buf count := by
  unfold sysRead Fs.sysRead
  cases openFile s fd with
  | none => rfl
  | some file =>
      simp only [Traced.value_bind, value_sfsReadInode]
      cases Fs.sfsReadInode s file.ino with
      | none => rfl
      | some inode =>
          simp only [Traced.value_bind, value_sfsReadFile]
          rfl

theorem value_sysWrite (s : FsState) (fd : Int) (buf : Buf) (count : Int) :
    (sysWrite (fun _ => uninit) s fd buf count).value = Fs.sysWrite s fd buf count := by
  unfold sysWrite Fs.sysWrite
  cases openFile s fd with
  | none => rfl
  | some file =>
      simp only [Traced.value_bind, value_sfsReadInode]
      cases Fs.sfsReadInode s file.ino with
      | none => rfl
      | some inode =>
          simp only [Traced.value_bind, value_sfsWriteFile, value_sfsWriteInode]
          rfl

end SRos.Fs.Accesses
