import SRos.Fs.Requests
import SRos.Lib.Simulation

/-!
# The requests of a call stay inside a block

An array of 4096 bytes is a function that is zero behind its last byte. As long as the blocks that
a call reads are such arrays, so are the blocks it writes: every splice, every bit and every
directory entry lies inside its block.
-/

namespace SRos.Fs.Requests

open Bytes

/-- An array of one block. -/
def Confined (buf : Buf) : Prop := ∀ i, blockSize ≤ i → buf i = 0

theorem confined_zeros : Confined zeros := fun _ _ => rfl

theorem confined_uninit : Confined uninit := fun _ _ => rfl

section

variable {buf : Buf} {a i n : Nat}

theorem Confined.splice {src : Nat → UInt8} (h : Confined buf) (hn : a + n ≤ blockSize) :
    Confined (Bytes.splice buf a n src) := fun i hi => by
  rw [splice_outside (by omega)]
  exact h i hi

theorem Confined.update {x : UInt8} (h : Confined buf) (ha : a < blockSize) :
    Confined (Function.update buf a x) := fun i hi => by
  rw [Function.update_of_ne (by omega)]
  exact h i hi

theorem Confined.set (h : Confined buf) (hi : i < 8 * blockSize) : Confined (Bitmap.set buf i) :=
  h.update (Nat.div_lt_of_lt_mul hi)

theorem Confined.clear (h : Confined buf) (hi : i < 8 * blockSize) :
    Confined (Bitmap.clear buf i) := h.update (Nat.div_lt_of_lt_mul hi)

theorem confined_dotDentries (self parent : Nat) : Confined (dotDentries self parent) :=
  (confined_zeros.splice (by decide)).splice (by decide)

theorem inodeOffset_le (ino : Nat) : inodeOffset ino + inodeBytes ≤ blockSize := by
  have hmod : (ino - 1) % inodesPerBlock < 67 := Nat.mod_lt _ (by decide)
  unfold inodeOffset inodeBytes blockSize
  omega

end

def Request.Ok : Request → Prop
  | .read _ buf => Confined buf
  | .write _ buf _ => Confined buf
  | .offset _ => True
  | .advance _ _ => True
  | .open _ => True
  | .close _ => True

def Request.Good : (r : Request) → r.Answer → Prop
  | .read _ _, buf => Confined buf
  | .write _ _ _, _ => True
  | .offset _, _ => True
  | .advance _ _, _ => True
  | .open _, _ => True
  | .close _, _ => True

variable {α : Type} {post : α → Prop}

/-- The requests of a program stay inside their blocks, and its value satisfies `post`. -/
abbrev Stays (post : α → Prop) (p : FsProg α) : Prop := p.Asks Request.Ok Request.Good post

theorem stays_ret {a : α} (h : post a) : Stays post (.ret a) := h

theorem stays_blockRead {b : Nat} {buf : Buf} {f : Buf → FsProg α} (hbuf : Confined buf)
    (hf : ∀ x, Confined x → Stays post (f x)) : Stays post (blockRead b buf >>= f) :=
  Prog.asks_perform_bind hbuf hf

theorem stays_blockWrite {b : Nat} {buf : Buf} {notes : List Note} {f : Unit → FsProg α}
    (hbuf : Confined buf) (hf : Stays post (f ())) :
    Stays post (blockWrite b buf notes >>= f) :=
  Prog.asks_perform_bind hbuf fun _ _ => hf

theorem stays_blockWrite_last {b : Nat} {buf : Buf} {notes : List Note} (hbuf : Confined buf) :
    Stays (fun _ => True) (blockWrite b buf notes) := ⟨hbuf, fun _ _ => trivial⟩

theorem stays_request {r : Request} {f : r.Answer → FsProg α} (hok : r.Ok)
    (hf : ∀ x, r.Good x → Stays post (f x)) : Stays post (request r >>= f) :=
  Prog.asks_perform_bind hok hf

theorem stays_sfsAllocInode : Stays (fun r => ∀ ino, r = some ino → ino < maxInodes)
    (sfsAllocInode SuperBlock.new) := by
  apply stays_blockRead confined_uninit
  intro bitmap hbitmap
  cases hfind : Bitmap.findFirstZero bitmap (int32 SuperBlock.new.inodeCount).toNat with
  | none => exact stays_ret (by simp)
  | some ino =>
      have hlt : ino < maxInodes := (Bitmap.findFirstZero_eq_some hfind).1
      have hbound : maxInodes ≤ 8 * blockSize := by decide
      apply stays_blockWrite (hbitmap.set (by omega))
      exact stays_ret fun i hi => Option.some.inj hi ▸ hlt

theorem stays_sfsFreeInode (ino : Nat) : Stays (fun _ => True) (sfsFreeInode SuperBlock.new ino) := by
  unfold sfsFreeInode
  split
  · exact stays_ret trivial
  · next hguard =>
      have hlt : ino < maxInodes := by
        rw [not_or, not_le] at hguard
        exact hguard.2
      have hbound : maxInodes ≤ 8 * blockSize := by decide
      apply stays_blockRead confined_uninit
      intro bitmap hbitmap
      exact stays_blockWrite_last (hbitmap.clear (by omega))

theorem stays_sfsReadInode (ino : Nat) : Stays (fun _ => True) (sfsReadInode SuperBlock.new ino) := by
  unfold sfsReadInode
  split
  · exact stays_ret trivial
  · exact stays_blockRead confined_uninit fun _ _ => stays_ret trivial

theorem stays_sfsWriteInode (inode : Inode) :
    Stays (fun _ => True) (sfsWriteInode SuperBlock.new inode) := by
  unfold sfsWriteInode
  split
  · exact stays_ret trivial
  · apply stays_blockRead confined_uninit
    intro buf hbuf
    exact stays_blockWrite_last (hbuf.splice (inodeOffset_le inode.ino))

theorem stays_sfsAllocBlock : Stays (fun _ => True) (sfsAllocBlock SuperBlock.new) := by
  apply stays_blockRead confined_uninit
  intro bitmap hbitmap
  cases hfind : Bitmap.findFirstZero bitmap (int32 SuperBlock.new.totalBlocks).toNat with
  | none => exact stays_ret trivial
  | some idx =>
      have hlt : idx < diskBlocks := (Bitmap.findFirstZero_eq_some hfind).1
      have hbound : diskBlocks ≤ 8 * blockSize := by decide
      dsimp only
      split
      · exact stays_ret trivial
      · exact stays_blockWrite (hbitmap.set (by omega)) (stays_ret trivial)

theorem stays_lookupLoop (dir : Inode) (name : CStr) (n bi : Nat) {block : Buf}
    (hblock : Confined block) : Stays (fun _ => True) (lookupLoop dir name n bi block) := by
  induction n generalizing bi block with
  | zero => exact stays_ret trivial
  | succ n ih =>
      apply stays_blockRead hblock
      intro x hx
      cases lookupBlock x name with
      | none => exact ih (bi + 1) hx
      | some ino => exact stays_ret trivial

theorem stays_sfsLookup (dirIno : Nat) (name : CStr) :
    Stays (fun _ => True) (sfsLookup SuperBlock.new dirIno name) := by
  apply (stays_sfsReadInode dirIno).bind
  intro r _
  cases r with
  | none => exact stays_ret trivial
  | some dir =>
      dsimp only
      split
      · exact stays_ret trivial
      · apply (stays_lookupLoop dir name dir.blockCount 0 confined_uninit).bind
        intro r _
        cases r with
        | none => exact stays_ret trivial
        | some ino => exact stays_ret trivial

theorem stays_newInode (newIno parentIno type : Nat) :
    Stays (fun _ => True) (newInode SuperBlock.new newIno parentIno type) := by
  unfold newInode
  split
  · apply stays_sfsAllocBlock.bind
    intro r _
    cases r with
    | none => exact stays_ret trivial
    | some blockNo =>
        exact stays_blockWrite (confined_dotDentries newIno parentIno) (stays_ret trivial)
  · exact stays_ret trivial

/-- A free entry is one of its block. -/
theorem freeInBlock_lt {block : Buf} {n di i : Nat} {d e : Dentry}
    (h : freeInBlock block n di d = .inl (i, e)) : i < di + n := by
  induction n generalizing di d with
  | zero => cases h
  | succ n ih =>
      unfold freeInBlock at h
      dsimp only at h
      split at h
      · cases h
        omega
      · have hlt := ih h
        omega

/-- The slot that was found lies inside its block. -/
def SlotOk : Slot ⊕ Dentry → Prop
  | .inl slot => slot.di < dentriesPerBlock ∧ Confined slot.block
  | .inr _ => True

theorem stays_freeLoop (dir : Inode) (n bi : Nat) {block : Buf} (d : Dentry)
    (hblock : Confined block) : Stays SlotOk (freeLoop dir n bi block d) := by
  induction n generalizing bi block d with
  | zero => exact stays_ret trivial
  | succ n ih =>
      apply stays_blockRead hblock
      intro x hx
      cases hfree : freeInBlock x dentriesPerBlock 0 d with
      | inl found =>
          have hlt : found.1 < 0 + dentriesPerBlock := freeInBlock_lt hfree
          rw [Nat.zero_add] at hlt
          exact stays_ret ⟨hlt, hx⟩
      | inr d' => exact ih (bi + 1) d' hx

theorem stays_addDentry (dir : Inode) (newIno : Nat) (name : CStr) :
    Stays (fun _ => True) (addDentry SuperBlock.new dir newIno name) := by
  apply (stays_freeLoop dir dir.blockCount 0 Dentry.zero confined_uninit).bind
  intro r hr
  cases r with
  | inl slot =>
      obtain ⟨hdi, hblock⟩ := hr
      have hle : slot.di * dentryBytes + dentryBytes ≤ blockSize := by
        unfold dentriesPerBlock dentryBytes blockSize at *
        omega
      exact stays_blockWrite (hblock.splice hle) (stays_ret trivial)
  | inr d =>
      dsimp only
      split
      · exact stays_ret trivial
      · apply stays_sfsAllocBlock.bind
        intro r _
        cases r with
        | none => exact stays_ret trivial
        | some newBlock =>
            exact stays_blockWrite (confined_zeros.splice (by decide)) (stays_ret trivial)

theorem stays_sfsCreate (parentIno : Nat) (name : CStr) (type : Nat) :
    Stays (fun _ => True) (sfsCreate SuperBlock.new parentIno name type) := by
  apply (stays_sfsReadInode parentIno).bind
  intro r _
  cases r with
  | none => exact stays_ret trivial
  | some parent =>
      dsimp only
      split
      · exact stays_ret trivial
      · apply (stays_sfsLookup parentIno name).bind
        intro found _
        split
        · exact stays_ret trivial
        · apply stays_sfsAllocInode.bind
          intro r _
          cases r with
          | none => exact stays_ret trivial
          | some newIno =>
              apply (stays_newInode newIno parentIno type).bind
              intro r _
              cases r with
              | none => exact (stays_sfsFreeInode newIno).bind fun _ _ => stays_ret trivial
              | some inode =>
                  apply (stays_sfsWriteInode inode).bind
                  intro _ _
                  apply (stays_addDentry parent newIno name).bind
                  intro r _
                  cases r with
                  | none => exact (stays_sfsFreeInode newIno).bind fun _ _ => stays_ret trivial
                  | some parent =>
                      exact (stays_sfsWriteInode _).bind fun _ _ => stays_ret trivial

theorem stays_readLoop (inode : Inode) (size offset fuel n : Nat) {block : Buf} (buf : Buf)
    (hblock : Confined block) :
    Stays (fun _ => True) (readLoop inode size offset fuel n block buf) := by
  induction fuel generalizing n block buf with
  | zero => exact stays_ret trivial
  | succ fuel ih =>
      unfold readLoop
      split
      · exact stays_ret trivial
      · dsimp only
        split
        · exact stays_ret trivial
        · exact stays_blockRead hblock fun x hx => ih _ _ hx

theorem stays_sfsReadFile (inode : Inode) (buf : Buf) (size offset : Nat) :
    Stays (fun _ => True) (sfsReadFile inode buf size offset) := by
  unfold sfsReadFile
  split
  · exact stays_ret trivial
  · exact stays_readLoop inode _ offset _ 0 buf confined_uninit

theorem stays_ensureBlock (inode : Inode) (blockIdx : Nat) :
    Stays (fun _ => True) (ensureBlock SuperBlock.new inode blockIdx) := by
  unfold ensureBlock
  split
  · split
    · exact stays_ret trivial
    · apply stays_sfsAllocBlock.bind
      intro r _
      cases r with
      | none => exact stays_ret trivial
      | some newBlock => exact stays_ret trivial
  · exact stays_ret trivial

theorem stays_writeLoop (buf : Buf) (size offset fuel : Nat) (inode : Inode) (n : Nat) {block : Buf}
    (hblock : Confined block) :
    Stays (fun _ => True) (writeLoop SuperBlock.new buf size offset fuel inode n block) := by
  induction fuel generalizing inode n block with
  | zero => exact stays_ret trivial
  | succ fuel ih =>
      unfold writeLoop
      split
      · exact stays_ret trivial
      · apply (stays_ensureBlock inode _).bind
        intro r _
        cases r with
        | none => exact stays_ret trivial
        | some inode =>
            apply stays_blockRead hblock
            intro x hx
            have hoff : u32 (offset + n) % blockSize < blockSize := Nat.mod_lt _ (by decide)
            have hsplice : Confined (splice x (u32 (offset + n) % blockSize)
                (min (blockSize - u32 (offset + n) % blockSize) (size - n)) fun i => buf (n + i)) :=
              hx.splice (by omega)
            exact stays_blockWrite hsplice (ih inode _ hsplice)

theorem stays_sfsWriteFile (inode : Inode) (buf : Buf) (size offset : Nat) :
    Stays (fun _ => True) (sfsWriteFile SuperBlock.new inode buf size offset) :=
  (stays_writeLoop buf size offset size inode 0 confined_uninit).bind fun _ _ => stays_ret trivial

theorem stays_sysOpen {s : FsState} (hsb : s.sb = SuperBlock.new) (path : Option CStr) :
    Stays (fun _ => True) (sysOpen s path) := by
  unfold sysOpen
  rw [hsb]
  split
  · exact stays_ret trivial
  · cases pathParse path with
    | none => exact stays_ret trivial
    | some name =>
        apply (stays_sfsLookup rootIno name).bind
        intro ino _
        split
        · exact stays_ret trivial
        · refine stays_request (r := .open ino) trivial ?_
          intro fd _
          cases fd with
          | none => exact stays_ret trivial
          | some fd => exact stays_ret trivial

theorem stays_sysRead {s : FsState} (hsb : s.sb = SuperBlock.new) (fd : Int) (buf : Buf)
    (count : Int) : Stays (fun _ => True) (sysRead s fd buf count) := by
  unfold sysRead
  rw [hsb]
  cases openFile s fd with
  | none => exact stays_ret trivial
  | some file =>
      apply (stays_sfsReadInode file.ino).bind
      intro r _
      cases r with
      | none => exact stays_ret trivial
      | some inode =>
          refine stays_request (r := .offset fd.toNat) trivial ?_
          intro offset _
          apply (stays_sfsReadFile inode buf _ offset).bind
          intro r _
          refine stays_request (r := .advance fd.toNat r.1) trivial ?_
          exact fun _ _ => stays_ret trivial

theorem stays_sysWrite {s : FsState} (hsb : s.sb = SuperBlock.new) (fd : Int) (buf : Buf)
    (count : Int) : Stays (fun _ => True) (sysWrite s fd buf count) := by
  unfold sysWrite
  rw [hsb]
  cases openFile s fd with
  | none => exact stays_ret trivial
  | some file =>
      apply (stays_sfsReadInode file.ino).bind
      intro r _
      cases r with
      | none => exact stays_ret trivial
      | some inode =>
          refine stays_request (r := .offset fd.toNat) trivial ?_
          intro offset _
          apply (stays_sfsWriteFile inode buf _ offset).bind
          intro r _
          refine stays_request (r := .advance fd.toNat r.2) trivial ?_
          intro _ _
          exact (stays_sfsWriteInode r.1).bind fun _ _ => stays_ret trivial

theorem stays_sysClose (fd : Int) : Stays (fun _ => True) (sysClose fd) := by
  unfold sysClose
  split
  · exact stays_ret trivial
  · exact ⟨trivial, fun _ _ => trivial⟩

/-- The requests of every call stay inside their blocks. -/
theorem stays_fsCall {s : FsState} (hsb : s.sb = SuperBlock.new) (a : FsAct) :
    Stays (fun _ => True) (fsCall s a) := by
  cases a with
  | create name =>
      have hcreate := stays_sfsCreate rootIno name sfsFile
      rw [← hsb] at hcreate
      exact hcreate.bind fun _ _ => stays_ret trivial
  | «open» path => exact stays_sysOpen hsb path
  | read fd buf count => exact (stays_sysRead hsb fd buf count).bind fun _ _ => stays_ret trivial
  | write fd buf count => exact stays_sysWrite hsb fd buf count
  | close fd => exact (stays_sysClose fd).bind fun _ _ => stays_ret trivial

end SRos.Fs.Requests
