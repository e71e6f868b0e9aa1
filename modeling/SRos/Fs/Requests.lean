import SRos.Lib.Threads
import SRos.Fs.Invariant

/-!
# The file system calls as sequences of requests

`int 0x80` is a trap gate, so a timer tick can switch the task between any two requests of a
file system call. The functions of `src/fs/sfs.c` are programs of requests here: whole blocks
are read and written, and the entries of `file_table` are used one access at a time. A call
that is not switched out computes what the functions of the file system model compute.
-/

namespace SRos.Fs.Requests

open Bytes

/-- What a call records with a write: the number it has taken or given back, or the directory
entry it has written. -/
inductive Note
  | inode (ino : Nat)
  | freedInode (ino : Nat)
  | block (blockNo : Nat)
  | dentry (blockNo di : Nat) (d : Dentry)

inductive Request
  | read (blockNo : Nat) (buf : Buf)
  | write (blockNo : Nat) (buf : Buf) (notes : List Note)
  | offset (fd : Nat)
  | advance (fd n : Nat)
  | open (ino : Int)
  | close (fd : Nat)

abbrev Request.Answer : Request → Type
  | .read _ _ => Buf
  | .write _ _ _ => Unit
  | .offset _ => Nat
  | .advance _ _ => Unit
  | .open _ => Option Nat
  | .close _ => Unit

/-- The file system and what the calls have recorded, the latest first. -/
structure Shared where
  fs : FsState
  log : List Note

def Request.exec : (r : Request) → Shared → r.Answer × Shared
  | .read blockNo buf, s => (Fs.blockRead s.fs.disk blockNo buf, s)
  | .write blockNo buf notes, s => ((), ⟨s.fs.write blockNo buf, notes ++ s.log⟩)
  | .offset fd, s => ((s.fs.files fd).offset, s)
  | .advance fd n, s =>
      let file := s.fs.files fd
      ((), { s with fs := s.fs.setFile fd { file with offset := u32 (file.offset + n) } })
  | .open ino, s =>
      match (List.range maxFiles).find? fun i => !(s.fs.files i).inUse with
      | none => (none, s)
      | some fd => (some fd, { s with fs := s.fs.setFile fd ⟨u32OfInt ino, 0, 2, true⟩ })
  | .close fd, s =>
      ((), { s with fs := s.fs.setFile fd { s.fs.files fd with inUse := false } })

/-- The blocks a call has read or written, as it left them. -/
abbrev Seen := Nat → Option Buf

def Request.learn : (r : Request) → r.Answer → Seen → Seen
  | .read blockNo _, buf, seen =>
      if diskBlocks ≤ blockNo then seen else Function.update seen blockNo (some buf)
  | .write blockNo buf _, _, seen =>
      if diskBlocks ≤ blockNo then seen else Function.update seen blockNo (some buf)
  | .offset _, _, seen => seen
  | .advance _ _, _, seen => seen
  | .open _, _, seen => seen
  | .close _, _, seen => seen

def machine : Machine Request Request.Answer Shared Seen where
  exec := Request.exec
  learn := Request.learn

abbrev FsProg := Prog Request Request.Answer

def request (r : Request) : FsProg r.Answer := .perform r

def blockRead (blockNo : Nat) (buf : Buf) : FsProg Buf := request (.read blockNo buf)

def blockWrite (blockNo : Nat) (buf : Buf) (notes : List Note) : FsProg Unit :=
  request (.write blockNo buf notes)

section

variable (sb : SuperBlock)

def sfsAllocInode : FsProg (Option Nat) := do
  let bitmap ← blockRead sb.inodeBitmapStart uninit
  match Bitmap.findFirstZero bitmap (int32 sb.inodeCount).toNat with
  | none => return none
  | some ino =>
      blockWrite sb.inodeBitmapStart (Bitmap.set bitmap ino) [.inode ino]
      return some ino

def sfsFreeInode (ino : Nat) : FsProg Unit :=
  if ino = 0 ∨ sb.inodeCount ≤ ino then return ()
  else do
    let bitmap ← blockRead sb.inodeBitmapStart uninit
    blockWrite sb.inodeBitmapStart (Bitmap.clear bitmap ino) [.freedInode ino]

def inodeBlock (ino : Nat) : Nat := u32 (sb.inodeTableStart + (ino - 1) / inodesPerBlock)

def sfsReadInode (ino : Nat) : FsProg (Option Inode) :=
  if ino = 0 ∨ sb.inodeCount ≤ ino then return none
  else do
    let buf ← blockRead (inodeBlock sb ino) uninit
    return some (Inode.decode buf (inodeOffset ino))

def sfsWriteInode (inode : Inode) : FsProg Unit :=
  if inode.ino = 0 ∨ sb.inodeCount ≤ inode.ino then return ()
  else do
    let buf ← blockRead (inodeBlock sb inode.ino) uninit
    blockWrite (inodeBlock sb inode.ino)
      (splice buf (inodeOffset inode.ino) inodeBytes inode.encode) []

def sfsAllocBlock : FsProg (Option Nat) := do
  let bitmap ← blockRead sb.blockBitmapStart uninit
  match Bitmap.findFirstZero bitmap (int32 sb.totalBlocks).toNat with
  | none => return none
  | some idx =>
      if (idx : Int) < int32 sb.dataBlockStart then return none
      else do
        blockWrite sb.blockBitmapStart (Bitmap.set bitmap idx) [.block idx]
        return some idx

/-- The outer loop of `sfs_lookup`, from block `bi` on for `n` blocks. -/
def lookupLoop (dir : Inode) (name : CStr) : Nat → Nat → Buf → FsProg (Option Nat)
  | 0, _, _ => return none
  | n + 1, bi, block => do
      let block ← blockRead (dir.blocks bi) block
      match lookupBlock block name with
      | some ino => return some ino
      | none => lookupLoop dir name n (bi + 1) block

def sfsLookup (dirIno : Nat) (name : CStr) : FsProg Int := do
  match ← sfsReadInode sb dirIno with
  | none => return -1
  | some dir =>
      if dir.type ≠ sfsDir then return -1
      else do
        match ← lookupLoop dir name dir.blockCount 0 uninit with
        | none => return -1
        | some ino => return int32 ino

/-- The inode that `sfs_create` makes, with its first block when it is a directory. -/
def newInode (newIno parentIno type : Nat) : FsProg (Option Inode) :=
  let inode : Inode := { Inode.zero with ino := newIno, type := type }
  if type = sfsDir then do
    match ← sfsAllocBlock sb with
    | none => return none
    | some blockNo =>
        blockWrite blockNo (dotDentries newIno parentIno)
          [.dentry blockNo 0 (Dentry.zero.assign newIno ⟨[0x2E], dot_noNul⟩),
            .dentry blockNo 1 (Dentry.zero.assign parentIno ⟨[0x2E, 0x2E], dotDot_noNul⟩)]
        return some { inode with
          blocks := Function.update inode.blocks 0 blockNo
          blockCount := 1
          size := 2 * dentryBytes }
  else return some inode

/-- The outer loop of the search for a free entry, from block `bi` on for `n` blocks. -/
def freeLoop (dir : Inode) : Nat → Nat → Buf → Dentry → FsProg (Slot ⊕ Dentry)
  | 0, _, _, d => return .inr d
  | n + 1, bi, block, d => do
      let block ← blockRead (dir.blocks bi) block
      match freeInBlock block dentriesPerBlock 0 d with
      | .inl (di, d) => return .inl ⟨bi, di, block, d⟩
      | .inr d => freeLoop dir n (bi + 1) block d

/-- The part of `sfs_create` that enters the new inode in its directory. -/
def addDentry (dir : Inode) (newIno : Nat) (name : CStr) : FsProg (Option Inode) := do
  match ← freeLoop dir dir.blockCount 0 uninit Dentry.zero with
  | .inl slot =>
      let d := slot.d.assign newIno name
      blockWrite (dir.blocks slot.bi)
        (splice slot.block (slot.di * dentryBytes) dentryBytes d.encode)
        [.dentry (dir.blocks slot.bi) slot.di d]
      return some dir
  | .inr d =>
      if sfsDirectBlocks ≤ dir.blockCount then return none
      else do
        match ← sfsAllocBlock sb with
        | none => return none
        | some newBlock =>
            let d := d.assign newIno name
            blockWrite newBlock (splice zeros 0 dentryBytes d.encode) [.dentry newBlock 0 d]
            return some { dir with
              blocks := Function.update dir.blocks dir.blockCount newBlock
              blockCount := u32 (dir.blockCount + 1) }

def sfsCreate (parentIno : Nat) (name : CStr) (type : Nat) : FsProg Int := do
  match ← sfsReadInode sb parentIno with
  | none => return -1
  | some parent =>
      if parent.type ≠ sfsDir then return -1
      else do
        let found ← sfsLookup sb parentIno name
        if 0 ≤ found then return -1
        else do
          match ← sfsAllocInode sb with
          | none => return -1
          | some newIno =>
              match ← newInode sb newIno parentIno type with
              | none =>
                  sfsFreeInode sb newIno
                  return -1
              | some inode =>
                  sfsWriteInode sb inode
                  match ← addDentry sb parent newIno name with
                  | none =>
                      sfsFreeInode sb newIno
                      return -1
                  | some parent =>
                      sfsWriteInode sb { parent with size := u32 (parent.size + dentryBytes) }
                      return newIno

/-- The `while` of `sfs_read_file`. -/
def readLoop (inode : Inode) (size offset : Nat) : Nat → Nat → Buf → Buf → FsProg (Nat × Buf)
  | 0, bytesRead, _, buf => return (bytesRead, buf)
  | fuel + 1, bytesRead, block, buf =>
      if size ≤ bytesRead then return (bytesRead, buf)
      else
        let currentOffset := u32 (offset + bytesRead)
        let blockIdx := currentOffset / blockSize
        let blockOff := currentOffset % blockSize
        if inode.blockCount ≤ blockIdx then return (bytesRead, buf)
        else do
          let block ← blockRead (inode.blocks blockIdx) block
          let toCopy := min (blockSize - blockOff) (size - bytesRead)
          readLoop inode size offset fuel (bytesRead + toCopy) block
            (splice buf bytesRead toCopy fun i => block (blockOff + i))

def sfsReadFile (inode : Inode) (buf : Buf) (size offset : Nat) : FsProg (Nat × Buf) :=
  if inode.size ≤ offset then return (0, buf)
  else
    let size := if inode.size < u32 (offset + size) then inode.size - offset else size
    readLoop inode size offset size 0 uninit buf

/-- The block of a file at an index, which is allocated when the file ends in front of it. -/
def ensureBlock (inode : Inode) (blockIdx : Nat) : FsProg (Option Inode) :=
  if inode.blockCount ≤ blockIdx then
    if sfsDirectBlocks ≤ blockIdx then return none
    else do
      match ← sfsAllocBlock sb with
      | none => return none
      | some newBlock =>
          return some { inode with
            blocks := Function.update inode.blocks blockIdx newBlock
            blockCount := u32 (inode.blockCount + 1) }
  else return some inode

/-- The `while` of `sfs_write_file`. -/
def writeLoop (buf : Buf) (size offset : Nat) :
    Nat → Inode → Nat → Buf → FsProg (Inode × Nat)
  | 0, inode, bytesWritten, _ => return (inode, bytesWritten)
  | fuel + 1, inode, bytesWritten, block =>
      if size ≤ bytesWritten then return (inode, bytesWritten)
      else
        let currentOffset := u32 (offset + bytesWritten)
        let blockIdx := currentOffset / blockSize
        let blockOff := currentOffset % blockSize
        do
          match ← ensureBlock sb inode blockIdx with
          | none => return (inode, bytesWritten)
          | some inode =>
              let block ← blockRead (inode.blocks blockIdx) block
              let toCopy := min (blockSize - blockOff) (size - bytesWritten)
              let block := splice block blockOff toCopy fun i => buf (bytesWritten + i)
              blockWrite (inode.blocks blockIdx) block []
              writeLoop buf size offset fuel inode (bytesWritten + toCopy) block

def sfsWriteFile (inode : Inode) (buf : Buf) (size offset : Nat) : FsProg (Inode × Nat) := do
  let (inode, bytesWritten) ← writeLoop sb buf size offset size inode 0 uninit
  let inode :=
    if inode.size < u32 (offset + bytesWritten) then
      { inode with size := u32 (offset + bytesWritten) }
    else inode
  return (inode, bytesWritten)

end

/-- `sys_open`, which searches `file_table` after its last request. -/
def sysOpen (s : FsState) (path : Option CStr) : FsProg Int :=
  if s.mounted = false then return -1
  else
    match pathParse path with
    | none => return -1
    | some name => do
        let ino ← sfsLookup s.sb rootIno name
        if ino < 0 then return -1
        else do
          match ← request (.open ino) with
          | none => return -1
          | some fd => return fd

def sysRead (s : FsState) (fd : Int) (buf : Buf) (count : Int) : FsProg (Buf × Int) :=
  match openFile s fd with
  | none => return (buf, -1)
  | some file => do
      match ← sfsReadInode s.sb file.ino with
      | none => return (buf, -1)
      | some inode =>
          let offset ← request (.offset fd.toNat)
          let (n, buf) ← sfsReadFile inode buf (u32OfInt count) offset
          request (.advance fd.toNat n)
          return (buf, int32 n)

/-- `sys_write`, which reads the number of the inode before its first request and the offset
after it. -/
def sysWrite (s : FsState) (fd : Int) (buf : Buf) (count : Int) : FsProg Int :=
  match openFile s fd with
  | none => return -1
  | some file => do
      match ← sfsReadInode s.sb file.ino with
      | none => return -1
      | some inode =>
          let offset ← request (.offset fd.toNat)
          let (inode, n) ← sfsWriteFile s.sb inode buf (u32OfInt count) offset
          request (.advance fd.toNat n)
          sfsWriteInode s.sb inode
          return int32 n

def sysClose (fd : Int) : FsProg Unit :=
  if fd < 0 ∨ (maxFiles : Int) ≤ fd then return ()
  else request (.close fd.toNat)

/-- The program of a system call that is made in the state `s`. -/
def fsCall (s : FsState) : FsAct → FsProg Int
  | .create name => do
      let ino ← sfsCreate s.sb rootIno name sfsFile
      return if 0 ≤ ino then 0 else -1
  | .open path => sysOpen s path
  | .read fd buf count => do
      let (_, n) ← sysRead s fd buf count
      return n
  | .write fd buf count => sysWrite s fd buf count
  | .close fd => do
      sysClose fd
      return 0

variable {α β : Type} {s s' s'' : FsState}

/-- A program that is not switched out and uses blocks only, from `s` with the result `r` to
`s'`. -/
structure Alone (p : FsProg α) (s : FsState) (r : α) (s' : FsState) : Prop where
  tables : SameTables s s'
  run : ∀ log, ∃ log', machine.run p ⟨s, log⟩ = (r, ⟨s', log'⟩)

theorem alone_ret (a : α) (s : FsState) : Alone (.ret a) s a s :=
  ⟨sameTables_refl s, fun log => ⟨log, rfl⟩⟩

theorem Alone.bind {p : FsProg α} {f : α → FsProg β} {a : α} {b : β} (h : Alone p s a s')
    (hrest : Alone (f a) s' b s'') : Alone (p >>= f) s b s'' where
  tables := h.tables.trans hrest.tables
  run := by
    intro log
    obtain ⟨log₁, hrun⟩ := h.run log
    obtain ⟨log₂, hrun'⟩ := hrest.run log₁
    exact ⟨log₂, by rw [Machine.run_bind, hrun, hrun']⟩

theorem alone_blockRead (s : FsState) (b : Nat) (buf : Buf) :
    Alone (blockRead b buf) s (Fs.blockRead s.disk b buf) s :=
  ⟨sameTables_refl s, fun log => ⟨log, rfl⟩⟩

theorem alone_blockWrite (s : FsState) (b : Nat) (buf : Buf) (notes : List Note) :
    Alone (blockWrite b buf notes) s () (s.write b buf) :=
  ⟨sameTables_write s b buf, fun log => ⟨notes ++ log, rfl⟩⟩

theorem alone_sfsAllocInode (s : FsState) :
    Alone (sfsAllocInode s.sb) s ((Fs.sfsAllocInode s).map Prod.fst)
      (((Fs.sfsAllocInode s).map Prod.snd).getD s) := by
  unfold sfsAllocInode Fs.sfsAllocInode
  apply (alone_blockRead s _ _).bind
  dsimp only
  cases Bitmap.findFirstZero (Fs.blockRead s.disk s.sb.inodeBitmapStart uninit)
      (int32 s.sb.inodeCount).toNat with
  | none => exact alone_ret none s
  | some ino => exact (alone_blockWrite s _ _ _).bind (alone_ret _ _)

theorem alone_sfsFreeInode (s : FsState) (ino : Nat) :
    Alone (sfsFreeInode s.sb ino) s () (Fs.sfsFreeInode s ino) := by
  unfold sfsFreeInode Fs.sfsFreeInode
  split
  · exact alone_ret () s
  · exact (alone_blockRead s _ _).bind (alone_blockWrite s _ _ _)

theorem alone_sfsReadInode (s : FsState) (ino : Nat) :
    Alone (sfsReadInode s.sb ino) s (Fs.sfsReadInode s ino) s := by
  unfold sfsReadInode Fs.sfsReadInode
  split
  · exact alone_ret none s
  · exact (alone_blockRead s _ _).bind (alone_ret _ s)

theorem alone_sfsWriteInode (s : FsState) (inode : Inode) :
    Alone (sfsWriteInode s.sb inode) s () (Fs.sfsWriteInode s inode) := by
  unfold sfsWriteInode Fs.sfsWriteInode
  split
  · exact alone_ret () s
  · exact (alone_blockRead s _ _).bind (alone_blockWrite s _ _ _)

theorem alone_sfsAllocBlock (s : FsState) :
    Alone (sfsAllocBlock s.sb) s ((Fs.sfsAllocBlock s).map Prod.fst)
      (((Fs.sfsAllocBlock s).map Prod.snd).getD s) := by
  unfold sfsAllocBlock Fs.sfsAllocBlock
  apply (alone_blockRead s _ _).bind
  dsimp only
  cases Bitmap.findFirstZero (Fs.blockRead s.disk s.sb.blockBitmapStart uninit)
      (int32 s.sb.totalBlocks).toNat with
  | none => exact alone_ret none s
  | some idx =>
      by_cases hlow : (idx : Int) < int32 s.sb.dataBlockStart
      · simp only [if_pos hlow]
        exact alone_ret none s
      · simp only [if_neg hlow]
        exact (alone_blockWrite s _ _ _).bind (alone_ret _ _)

theorem alone_lookupLoop (s : FsState) (dir : Inode) (name : CStr) (n bi : Nat) (block : Buf) :
    Alone (lookupLoop dir name n bi block) s (Fs.lookupLoop s dir name n bi block) s := by
  induction n generalizing bi block with
  | zero => exact alone_ret none s
  | succ n ih =>
      unfold lookupLoop Fs.lookupLoop
      apply (alone_blockRead s _ _).bind
      dsimp only
      cases lookupBlock (Fs.blockRead s.disk (dir.blocks bi) block) name with
      | some ino => exact alone_ret _ s
      | none => exact ih (bi + 1) _

theorem alone_sfsLookup (s : FsState) (dirIno : Nat) (name : CStr) :
    Alone (sfsLookup s.sb dirIno name) s (Fs.sfsLookup s dirIno name) s := by
  unfold sfsLookup Fs.sfsLookup
  apply (alone_sfsReadInode s dirIno).bind
  cases Fs.sfsReadInode s dirIno with
  | none => exact alone_ret _ s
  | some dir =>
      dsimp only
      split
      · exact alone_ret _ s
      · apply (alone_lookupLoop s dir name _ _ _).bind
        cases Fs.lookupLoop s dir name dir.blockCount 0 uninit with
        | none => exact alone_ret _ s
        | some ino => exact alone_ret _ s

theorem alone_newInode (s : FsState) (newIno parentIno type : Nat) :
    Alone (newInode s.sb newIno parentIno type) s
      ((Fs.newInode s newIno parentIno type).map Prod.fst)
      (((Fs.newInode s newIno parentIno type).map Prod.snd).getD s) := by
  unfold newInode Fs.newInode
  dsimp only
  split
  · have halloc := alone_sfsAllocBlock s
    cases hr : Fs.sfsAllocBlock s with
    | none =>
        rw [hr] at halloc
        exact halloc.bind (alone_ret _ s)
    | some r =>
        rw [hr] at halloc
        exact halloc.bind ((alone_blockWrite _ _ _ _).bind (alone_ret _ _))
  · exact alone_ret _ s

theorem alone_freeLoop (s : FsState) (dir : Inode) (n bi : Nat) (block : Buf) (d : Dentry) :
    Alone (freeLoop dir n bi block d) s (Fs.freeLoop s dir n bi block d) s := by
  induction n generalizing bi block d with
  | zero => exact alone_ret _ s
  | succ n ih =>
      unfold freeLoop Fs.freeLoop
      apply (alone_blockRead s _ _).bind
      dsimp only
      cases freeInBlock (Fs.blockRead s.disk (dir.blocks bi) block) dentriesPerBlock 0 d with
      | inl r => exact alone_ret _ s
      | inr d => exact ih (bi + 1) _ d

theorem alone_addDentry (s : FsState) (dir : Inode) (newIno : Nat) (name : CStr) :
    Alone (addDentry s.sb dir newIno name) s ((Fs.addDentry s dir newIno name).map Prod.fst)
      (((Fs.addDentry s dir newIno name).map Prod.snd).getD s) := by
  unfold addDentry Fs.addDentry
  apply (alone_freeLoop s dir _ _ _ _).bind
  cases Fs.freeLoop s dir dir.blockCount 0 uninit Dentry.zero with
  | inl slot => exact (alone_blockWrite s _ _ _).bind (alone_ret _ _)
  | inr d =>
      dsimp only
      by_cases hfull : sfsDirectBlocks ≤ dir.blockCount
      · simp only [if_pos hfull]
        exact alone_ret _ s
      · simp only [if_neg hfull]
        have halloc := alone_sfsAllocBlock s
        cases hr : Fs.sfsAllocBlock s with
        | none =>
            rw [hr] at halloc
            exact halloc.bind (alone_ret _ s)
        | some r =>
            rw [hr] at halloc
            exact halloc.bind ((alone_blockWrite _ _ _ _).bind (alone_ret _ _))

/-- An allocation that failed has changed nothing, and one that succeeded leaves the state it
returns. -/
theorem Alone.of_some {p : FsProg (Option α)} {r : Option (α × FsState)} {a : α}
    (h : Alone p s (r.map Prod.fst) ((r.map Prod.snd).getD s)) (hr : r = some (a, s')) :
    Alone p s (some a) s' := by
  subst hr
  exact h

theorem Alone.of_none {p : FsProg (Option α)} {r : Option (α × FsState)}
    (h : Alone p s (r.map Prod.fst) ((r.map Prod.snd).getD s)) (hr : r = none) :
    Alone p s none s := by
  subst hr
  exact h

theorem alone_sfsCreate (s : FsState) (parentIno : Nat) (name : CStr) (type : Nat) :
    Alone (sfsCreate s.sb parentIno name type) s (Fs.sfsCreate s parentIno name type).2
      (Fs.sfsCreate s parentIno name type).1 := by
  unfold sfsCreate Fs.sfsCreate
  apply (alone_sfsReadInode s parentIno).bind
  cases Fs.sfsReadInode s parentIno with
  | none => exact alone_ret _ s
  | some parent =>
      dsimp only
      by_cases htype : parent.type ≠ sfsDir
      · rw [if_pos htype, if_pos htype]
        exact alone_ret _ s
      · rw [if_neg htype, if_neg htype]
        apply (alone_sfsLookup s parentIno name).bind
        by_cases hfound : 0 ≤ Fs.sfsLookup s parentIno name
        · rw [if_pos hfound, if_pos hfound]
          exact alone_ret _ s
        · rw [if_neg hfound, if_neg hfound]
          cases hino : Fs.sfsAllocInode s with
          | none => exact ((alone_sfsAllocInode s).of_none hino).bind (alone_ret _ s)
          | some r =>
              obtain ⟨newIno, s₁⟩ := r
              have halloc := (alone_sfsAllocInode s).of_some hino
              apply halloc.bind
              dsimp only
              rw [← halloc.tables.sb]
              cases hnew : Fs.newInode s₁ newIno parentIno type with
              | none =>
                  apply ((alone_newInode s₁ newIno parentIno type).of_none hnew).bind
                  exact (alone_sfsFreeInode s₁ newIno).bind (alone_ret _ _)
              | some r =>
                  obtain ⟨inode, s₂⟩ := r
                  have hnewInode := (alone_newInode s₁ newIno parentIno type).of_some hnew
                  apply hnewInode.bind
                  dsimp only
                  rw [← hnewInode.tables.sb]
                  have hwrite := alone_sfsWriteInode s₂ inode
                  apply hwrite.bind
                  rw [← hwrite.tables.sb]
                  generalize Fs.sfsWriteInode s₂ inode = s₃
                  cases hadd : Fs.addDentry s₃ parent newIno name with
                  | none =>
                      apply ((alone_addDentry s₃ parent newIno name).of_none hadd).bind
                      exact (alone_sfsFreeInode s₃ newIno).bind (alone_ret _ _)
                  | some r =>
                      obtain ⟨parent', s₄⟩ := r
                      have hdentry := (alone_addDentry s₃ parent newIno name).of_some hadd
                      apply hdentry.bind
                      dsimp only
                      rw [← hdentry.tables.sb]
                      exact (alone_sfsWriteInode s₄ _).bind (alone_ret _ _)

theorem alone_readLoop (s : FsState) (inode : Inode) (size offset fuel n : Nat)
    (block buf : Buf) :
    Alone (readLoop inode size offset fuel n block buf) s
      (Fs.readLoop s.disk inode size offset fuel n block buf) s := by
  induction fuel generalizing n block buf with
  | zero => exact alone_ret _ s
  | succ fuel ih =>
      unfold readLoop Fs.readLoop
      split
      · exact alone_ret _ s
      · dsimp only
        split
        · exact alone_ret _ s
        · exact (alone_blockRead s _ _).bind (ih _ _ _)

theorem alone_sfsReadFile (s : FsState) (inode : Inode) (buf : Buf) (size offset : Nat) :
    Alone (sfsReadFile inode buf size offset) s
      (Fs.sfsReadFile s.disk inode buf size offset) s := by
  unfold sfsReadFile Fs.sfsReadFile
  split
  · exact alone_ret _ s
  · exact alone_readLoop s _ _ _ _ _ _ _

theorem alone_ensureBlock (s : FsState) (inode : Inode) (blockIdx : Nat) :
    Alone (ensureBlock s.sb inode blockIdx) s ((Fs.ensureBlock s inode blockIdx).map Prod.snd)
      (((Fs.ensureBlock s inode blockIdx).map Prod.fst).getD s) := by
  unfold ensureBlock Fs.ensureBlock
  by_cases hend : inode.blockCount ≤ blockIdx
  · simp only [if_pos hend]
    by_cases hfull : sfsDirectBlocks ≤ blockIdx
    · simp only [if_pos hfull]
      exact alone_ret none s
    · simp only [if_neg hfull]
      cases hr : Fs.sfsAllocBlock s with
      | none => exact ((alone_sfsAllocBlock s).of_none hr).bind (alone_ret none s)
      | some r => exact ((alone_sfsAllocBlock s).of_some hr).bind (alone_ret _ _)
  · simp only [if_neg hend]
    exact alone_ret _ s

theorem alone_writeLoop (s : FsState) (buf : Buf) (size offset fuel : Nat) (inode : Inode)
    (n : Nat) (block : Buf) :
    Alone (writeLoop s.sb buf size offset fuel inode n block) s
      (Fs.writeLoop buf size offset fuel s inode n block).2
      (Fs.writeLoop buf size offset fuel s inode n block).1 := by
  induction fuel generalizing s inode n block with
  | zero => exact alone_ret _ s
  | succ fuel ih =>
      unfold writeLoop Fs.writeLoop
      by_cases hdone : size ≤ n
      · rw [if_pos hdone, if_pos hdone]
        exact alone_ret _ s
      · rw [if_neg hdone, if_neg hdone]
        dsimp only
        have hensure := alone_ensureBlock s inode (u32 (offset + n) / blockSize)
        cases hr : Fs.ensureBlock s inode (u32 (offset + n) / blockSize) with
        | none =>
            rw [hr] at hensure
            exact hensure.bind (alone_ret _ s)
        | some r =>
            obtain ⟨s₁, inode₁⟩ := r
            rw [hr] at hensure
            apply hensure.bind
            apply (alone_blockRead s₁ _ _).bind
            have hsb : s₁.sb = s.sb := hensure.tables.sb
            rw [← hsb]
            exact (alone_blockWrite s₁ _ _ _).bind (ih (s₁.write _ _) _ _ _)

theorem alone_sfsWriteFile (s : FsState) (inode : Inode) (buf : Buf) (size offset : Nat) :
    Alone (sfsWriteFile s.sb inode buf size offset) s
      (Fs.sfsWriteFile s inode buf size offset).2 (Fs.sfsWriteFile s inode buf size offset).1 :=
  (alone_writeLoop s buf size offset size inode 0 uninit).bind (alone_ret _ _)

theorem run_sysOpen (s : FsState) (path : Option CStr) (log : List Note) :
    ∃ log', machine.run (sysOpen s path) ⟨s, log⟩ =
      ((Fs.sysOpen s path).2, ⟨(Fs.sysOpen s path).1, log'⟩) := by
  unfold sysOpen Fs.sysOpen
  by_cases hmounted : s.mounted = false
  · rw [if_pos hmounted, if_pos hmounted]
    exact ⟨log, rfl⟩
  · rw [if_neg hmounted, if_neg hmounted]
    cases pathParse path with
    | none => exact ⟨log, rfl⟩
    | some name =>
        obtain ⟨log', hlookup⟩ := (alone_sfsLookup s rootIno name).run log
        refine ⟨log', ?_⟩
        rw [Machine.run_bind, hlookup]
        dsimp only
        split
        · rfl
        · rw [Machine.run_bind]
          simp only [request, Prog.perform, Machine.run_act, Machine.run_ret, machine,
            Request.exec]
          cases (List.range maxFiles).find? fun i => !(s.files i).inUse with
          | none => rfl
          | some fd => rfl

theorem run_sysRead (s : FsState) (fd : Int) (buf : Buf) (count : Int) (log : List Note) :
    ∃ log', machine.run (sysRead s fd buf count) ⟨s, log⟩ =
      ((Fs.sysRead s fd buf count).2, ⟨(Fs.sysRead s fd buf count).1, log'⟩) := by
  unfold sysRead Fs.sysRead
  cases hfile : openFile s fd with
  | none => exact ⟨log, rfl⟩
  | some file =>
      obtain ⟨-, rfl, -⟩ := openFile_some hfile
      obtain ⟨log₁, hread⟩ := (alone_sfsReadInode s (s.files fd.toNat).ino).run log
      simp only [Machine.run_bind, hread]
      cases Fs.sfsReadInode s (s.files fd.toNat).ino with
      | none => exact ⟨log₁, rfl⟩
      | some inode =>
          obtain ⟨log₂, hcopy⟩ := (alone_sfsReadFile s inode buf (u32OfInt count)
            (s.files fd.toNat).offset).run log₁
          refine ⟨log₂, ?_⟩
          simp only [request, Prog.perform_bind, Machine.run_act, machine, Request.exec,
            Machine.run_bind]
          simp only [machine] at hcopy
          rw [hcopy]
          rfl

theorem run_sysWrite (s : FsState) (fd : Int) (buf : Buf) (count : Int) (log : List Note) :
    ∃ log', machine.run (sysWrite s fd buf count) ⟨s, log⟩ =
      ((Fs.sysWrite s fd buf count).2, ⟨(Fs.sysWrite s fd buf count).1, log'⟩) := by
  unfold sysWrite Fs.sysWrite
  cases hfile : openFile s fd with
  | none => exact ⟨log, rfl⟩
  | some file =>
      obtain ⟨-, rfl, -⟩ := openFile_some hfile
      obtain ⟨log₁, hread⟩ := (alone_sfsReadInode s (s.files fd.toNat).ino).run log
      simp only [Machine.run_bind, hread]
      cases Fs.sfsReadInode s (s.files fd.toNat).ino with
      | none => exact ⟨log₁, rfl⟩
      | some inode =>
          have hwrite := alone_sfsWriteFile s inode buf (u32OfInt count) (s.files fd.toNat).offset
          obtain ⟨log₂, hrun⟩ := hwrite.run log₁
          have htables := hwrite.tables
          dsimp only
          generalize Fs.sfsWriteFile s inode buf (u32OfInt count) (s.files fd.toNat).offset = r
            at hrun htables ⊢
          obtain ⟨s₁, inode₁, n⟩ := r
          -- the descriptor is as `sys_write` found it, since no other task has run
          have hentry : s₁.files fd.toNat = s.files fd.toNat := by rw [htables.files]
          have hsb : (s₁.setFile fd.toNat { s.files fd.toNat with
              offset := u32 ((s.files fd.toNat).offset + n) }).sb = s.sb := htables.sb
          obtain ⟨log₃, hinode⟩ := (alone_sfsWriteInode (s₁.setFile fd.toNat
            { s.files fd.toNat with offset := u32 ((s.files fd.toNat).offset + n) }) inode₁).run log₂
          rw [hsb] at hinode
          refine ⟨log₃, ?_⟩
          simp only [request, Prog.perform_bind, Machine.run_act, machine, Request.exec,
            Machine.run_bind]
          simp only [machine] at hrun hinode
          rw [hrun]
          dsimp only
          rw [hentry, hinode]
          rfl

/-- A call that is not switched out does what the model of the whole call does. -/
theorem run_fsCall (s : FsState) (a : FsAct) (log : List Note) :
    ∃ log', machine.run (fsCall s a) ⟨s, log⟩ =
      ((Fs.fsCall s a).2, ⟨(Fs.fsCall s a).1, log'⟩) := by
  cases a with
  | create name =>
      obtain ⟨log', hrun⟩ := (alone_sfsCreate s rootIno name sfsFile).run log
      refine ⟨log', ?_⟩
      simp only [fsCall, Fs.fsCall, Machine.run_bind, hrun]
      rfl
  | «open» path => exact run_sysOpen s path log
  | read fd buf count =>
      obtain ⟨log', hrun⟩ := run_sysRead s fd buf count log
      refine ⟨log', ?_⟩
      simp only [fsCall, Fs.fsCall, Machine.run_bind, hrun]
      rfl
  | write fd buf count => exact run_sysWrite s fd buf count log
  | close fd =>
      refine ⟨log, ?_⟩
      simp only [fsCall, Fs.fsCall, sysClose, Fs.sysClose]
      split
      · rfl
      · rfl

end SRos.Fs.Requests
