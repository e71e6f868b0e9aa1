import SRos.Fs.Accesses
import SRos.Fs.Loose

/-!
# Array bounds on a mounted disk

`sfs_mount` checks the magic number of the super block and nothing else. The numbers of inodes and
blocks bound the searches of the bitmaps, and the number of blocks of an inode bounds the index in
`blocks`. The offsets in a block of the inode table and in a block of entries need no condition.
-/

namespace SRos.Fs.Accesses

open Bytes
open Traced (emit within_pure within_emit)

/-- The bits of a bitmap. -/
def bitmapBits : Nat := 8 * blockSize

/-- The numbers in the super block fit the bitmaps, as `int`. -/
structure CountsFit (sb : SuperBlock) : Prop where
  inodes : int32 sb.inodeCount ≤ bitmapBits
  blocks : int32 sb.totalBlocks ≤ bitmapBits

/-- The inode is on the disk and has no more blocks than `blocks` has places. -/
def InodeFits (s : FsState) (ino : Nat) : Prop :=
  ∀ inode, Fs.sfsReadInode s ino = some inode →
    inodeBlock s ino < diskBlocks ∧ inode.blockCount ≤ sfsDirectBlocks

inductive ImageAct
  | lookup (dirIno : Nat) (name : CStr)
  | create (parentIno : Nat) (name : CStr) (type : Nat)
  | open (path : Option CStr)
  | read (fd : Int) (buf : Buf) (count : Int)
  | write (fd : Int) (buf : Buf) (count : Int)

/-- The inode that the call reads fits `blocks`, and the numbers of the super block fit the bitmaps
that it searches. -/
def Fits (s : FsState) : ImageAct → Prop
  | .lookup dirIno _ => InodeFits s dirIno
  | .create parentIno _ _ => CountsFit s.sb ∧ InodeFits s parentIno
  | .open _ => InodeFits s rootIno
  | .read fd _ _ => ∀ f, openFile s fd = some f → InodeFits s f.ino
  | .write fd _ _ => CountsFit s.sb ∧ ∀ f, openFile s fd = some f → InodeFits s f.ino

/-- The call and the arrays it finds on the stack. -/
def imageCall (junk : Nat → Buf) (s : FsState) : ImageAct → Traced Access FsState
  | .lookup dirIno name => do
      let _ ← sfsLookup junk s dirIno name
      return s
  | .create parentIno name type => do
      let (s, _) ← sfsCreate junk s parentIno name type
      return s
  | .open path => do
      let (s, _) ← sysOpen junk s path
      return s
  | .read fd buf count => do
      let (s, _) ← sysRead junk s fd buf count
      return s
  | .write fd buf count => do
      let (s, _) ← sysWrite junk s fd buf count
      return s

/-- The file system and the accesses made since it was mounted. -/
structure Trail where
  fs : FsState
  trace : List Access

def imageStep (t : Trail) (a : (Nat → Buf) × ImageAct) : Option Trail :=
  let r := imageCall a.1 t.fs a.2
  some ⟨r.value, t.trace ++ r.trace⟩

variable {s s' : FsState} {inode inode' dir : Inode} {name : CStr} {ino b : Nat} {junk block : Buf}
  {junks : Nat → Buf} {a : ImageAct}

/-- The file system after the call, as its model has it. -/
def ImageAct.effect (s : FsState) : ImageAct → FsState
  | .lookup _ _ => s
  | .create parentIno name type => (Fs.sfsCreate s parentIno name type).1
  | .open path => (Fs.sysOpen s path).1
  | .read fd buf count => (Fs.sysRead s fd buf count).1
  | .write fd buf count => (Fs.sysWrite s fd buf count).1

theorem value_imageCall (s : FsState) (a : ImageAct) :
    (imageCall (fun _ => uninit) s a).value = a.effect s := by
  cases a with
  | lookup dirIno name => rfl
  | create parentIno name type =>
      simp only [imageCall, Traced.value_bind, value_sfsCreate]
      rfl
  | «open» path =>
      simp only [imageCall, Traced.value_bind, value_sysOpen]
      rfl
  | read fd buf count =>
      simp only [imageCall, Traced.value_bind, value_sysRead]
      rfl
  | write fd buf count =>
      simp only [imageCall, Traced.value_bind, value_sysWrite]
      rfl

/-! ## Bitmaps -/

theorem within_find (bitmap : Buf) {n i : Nat} (h : i + n ≤ bitmapBits) :
    (bitmapFindFirstZero bitmap n i).Within Access.InRange := by
  have hbits : bitmapBits = 32768 := rfl
  have hsize : blockSize = 4096 := rfl
  induction n generalizing i with
  | zero => exact within_pure _
  | succ n ih =>
      rw [bitmapFindFirstZero]
      apply Traced.Within.emit_bind
      · change i / 8 < blockSize
        omega
      · split
        · exact within_pure _
        · exact ih (by omega)

theorem within_bitmap {idx : Nat} (h : idx < bitmapBits) :
    (emit (Access.bitmap (idx / 8))).Within Access.InRange := by
  have hbits : bitmapBits = 32768 := rfl
  have hsize : blockSize = 4096 := rfl
  apply within_emit
  change idx / 8 < blockSize
  omega

theorem toNat_le (h : int32 b ≤ bitmapBits) : (int32 b).toNat ≤ bitmapBits := by
  omega

theorem within_sfsAllocInode (h : int32 s.sb.inodeCount ≤ bitmapBits) :
    (sfsAllocInode junk s).Within Access.InRange := by
  have hle := toNat_le h
  unfold sfsAllocInode
  apply (within_find _ (by omega)).bind
  rw [value_findFirstZero]
  split
  · exact within_pure _
  · next ino hfind =>
      have hlt := (Bitmap.findFirstZero_eq_some hfind).1
      exact ((within_bitmap (by omega)).bind (within_pure _)).bind (within_pure _)

theorem value_sfsAllocInode_some (h : (sfsAllocInode junk s).value = some (ino, s')) :
    ino < (int32 s.sb.inodeCount).toNat ∧ s'.sb = s.sb := by
  unfold sfsAllocInode at h
  rw [Traced.value_bind, value_findFirstZero] at h
  split at h
  · cases h
  · next ino' hfind =>
      cases h
      exact ⟨(Bitmap.findFirstZero_eq_some hfind).1, rfl⟩

theorem within_sfsFreeInode (h : ino < bitmapBits) :
    (sfsFreeInode junk s ino).Within Access.InRange := by
  unfold sfsFreeInode
  split
  · exact within_pure _
  · exact ((within_bitmap h).bind (within_pure _)).bind (within_pure _)

theorem within_sfsAllocBlock (h : int32 s.sb.totalBlocks ≤ bitmapBits) :
    (sfsAllocBlock junk s).Within Access.InRange := by
  have hle := toNat_le h
  unfold sfsAllocBlock
  apply (within_find _ (by omega)).bind
  rw [value_findFirstZero]
  split
  · exact within_pure _
  · next idx hfind =>
      have hlt := (Bitmap.findFirstZero_eq_some hfind).1
      split
      · exact within_pure _
      · exact ((within_bitmap (by omega)).bind (within_pure _)).bind (within_pure _)

theorem sb_sfsAllocBlock (h : (sfsAllocBlock junk s).value = some (b, s')) : s'.sb = s.sb := by
  unfold sfsAllocBlock at h
  rw [Traced.value_bind, value_findFirstZero] at h
  split at h
  · cases h
  · split at h
    · cases h
    · cases h
      rfl

/-! ## Inodes -/

/-- 67 inodes of 61 bytes fit a block. -/
theorem within_inode (ino : Nat) : (emit (Access.inode (inodeOffset ino))).Within Access.InRange := by
  have hmod := Nat.mod_lt (ino - 1) (show 0 < 67 by decide)
  apply within_emit
  change (ino - 1) % 67 * 61 + 61 ≤ 4096
  omega

theorem within_sfsReadInode (junk : Buf) (s : FsState) (ino : Nat) :
    (sfsReadInode junk s ino).Within Access.InRange := by
  unfold sfsReadInode
  split
  · exact within_pure _
  · exact (within_inode ino).bind (within_pure _)

theorem within_sfsWriteInode (junk : Buf) (s : FsState) (inode : Inode) :
    (sfsWriteInode junk s inode).Within Access.InRange := by
  unfold sfsWriteInode
  split
  · exact within_pure _
  · exact (within_inode inode.ino).bind (within_pure _)

theorem sb_sfsWriteInode (junk : Buf) (s : FsState) (inode : Inode) :
    (sfsWriteInode junk s inode).value.sb = s.sb := by
  unfold sfsWriteInode
  split <;> rfl

/-- An inode on the disk does not depend on the array it is read to. -/
theorem InodeFits.count_le (h : InodeFits s ino) (hread : (sfsReadInode junk s ino).value = some inode) :
    inode.blockCount ≤ sfsDirectBlocks := by
  unfold sfsReadInode at hread
  split at hread
  · cases hread
  · next hvalid =>
      have hfits := h _ (if_neg hvalid)
      have hsame : ∀ buf, blockRead s.disk (inodeBlock s ino) buf = s.disk (inodeBlock s ino) :=
        fun buf => if_neg (by omega)
      rw [hsame] at hfits
      obtain rfl := Option.some.inj hread
      rw [hsame]
      exact hfits.2

/-! ## Directories -/

theorem within_dentry {di : Nat} (h : di < dentriesPerBlock) :
    (emit (Access.dentry (di * dentryBytes))).Within Access.InRange := by
  have hper : dentriesPerBlock = 128 := rfl
  apply within_emit
  change di * 32 + 32 ≤ 4096
  omega

theorem within_block {i : Nat} (h : i < sfsDirectBlocks) :
    (emit (Access.block i)).Within Access.InRange := within_emit h

theorem within_lookupBlock (block : Buf) (name : CStr) {n di : Nat}
    (h : di + n ≤ dentriesPerBlock) : (lookupBlock block name n di).Within Access.InRange := by
  induction n generalizing di with
  | zero => exact within_pure _
  | succ n ih =>
      rw [lookupBlock]
      apply (within_dentry (by omega)).bind
      dsimp only
      split
      · exact within_pure _
      · exact ih (by omega)

theorem within_lookupLoop (s : FsState) (dir : Inode) (name : CStr) {n bi : Nat} {block : Buf}
    (h : bi + n ≤ sfsDirectBlocks) : (lookupLoop s dir name n bi block).Within Access.InRange := by
  induction n generalizing bi block with
  | zero => exact within_pure _
  | succ n ih =>
      rw [lookupLoop]
      apply (within_block (by omega)).bind
      apply (within_lookupBlock _ name (by omega)).bind
      split
      · exact within_pure _
      · exact ih (by omega)

theorem within_sfsLookup (h : InodeFits s ino) (junks : Nat → Buf) (name : CStr) :
    (sfsLookup junks s ino name).Within Access.InRange := by
  unfold sfsLookup
  apply (within_sfsReadInode _ _ _).bind
  split
  · exact within_pure _
  · next dir hread =>
      have hcount := h.count_le hread
      split
      · exact within_pure _
      · apply (within_lookupLoop s dir name (by omega)).bind
        split <;> exact within_pure _

theorem within_freeInBlock (block : Buf) {n di : Nat} {d : Dentry}
    (h : di + n ≤ dentriesPerBlock) : (freeInBlock block n di d).Within Access.InRange := by
  induction n generalizing di d with
  | zero => exact within_pure _
  | succ n ih =>
      rw [freeInBlock]
      apply (within_dentry (by omega)).bind
      dsimp only
      split
      · exact within_pure _
      · exact ih (by omega)

theorem within_freeLoop (s : FsState) (dir : Inode) {n bi : Nat} {block : Buf} {d : Dentry}
    (h : bi + n ≤ sfsDirectBlocks) : (freeLoop s dir n bi block d).Within Access.InRange := by
  induction n generalizing bi block d with
  | zero => exact within_pure _
  | succ n ih =>
      rw [freeLoop]
      apply (within_block (by omega)).bind
      apply (within_freeInBlock _ (by omega)).bind
      split
      · exact within_pure _
      · exact ih (by omega)

/-- The place of the free entry that is found. -/
theorem freeLoop_lt {n bi : Nat} {block : Buf} {d : Dentry} {r : Slot}
    (h : Fs.freeLoop s dir n bi block d = .inl r) :
    r.bi < bi + n ∧ r.di < dentriesPerBlock := by
  induction n generalizing bi block d with
  | zero => cases h
  | succ n ih =>
      rw [Fs.freeLoop] at h
      split at h
      · next di d' hfree =>
          obtain ⟨-, hdi, -⟩ := freeInBlock_inl hfree
          cases h
          exact ⟨by change bi < bi + (n + 1); omega, by change di < dentriesPerBlock; omega⟩
      · obtain ⟨hbi, hdi⟩ := ih h
        exact ⟨by omega, hdi⟩

theorem within_newInode (h : int32 s.sb.totalBlocks ≤ bitmapBits) (newIno parentIno type : Nat) :
    (newInode junk s newIno parentIno type).Within Access.InRange := by
  unfold newInode
  dsimp only
  split
  · apply (within_sfsAllocBlock h).bind
    split
    · exact within_pure _
    · exact (within_block (by decide)).bind (within_pure _)
  · exact within_pure _

theorem sb_newInode {newIno parentIno type : Nat}
    (h : (newInode junk s newIno parentIno type).value = some (inode, s')) : s'.sb = s.sb := by
  unfold newInode at h
  dsimp only at h
  split at h
  · rw [Traced.value_bind] at h
    split at h
    · cases h
    · next b s₁ halloc =>
        cases h
        change s₁.sb = s.sb
        exact sb_sfsAllocBlock halloc
  · cases h
    rfl

theorem within_addDentry (h : int32 s.sb.totalBlocks ≤ bitmapBits)
    (hcount : dir.blockCount ≤ sfsDirectBlocks) (newIno : Nat) (name : CStr) :
    (addDentry junks s dir newIno name).Within Access.InRange := by
  unfold addDentry
  apply (within_freeLoop s dir (by omega)).bind
  rw [value_freeLoop]
  split
  · next slot hfree =>
      obtain ⟨hbi, hdi⟩ := freeLoop_lt hfree
      exact (within_dentry hdi).bind ((within_block (by omega)).bind (within_pure _))
  · split
    · exact within_pure _
    · apply (within_sfsAllocBlock h).bind
      split
      · exact within_pure _
      · have hfirst : (emit (Access.dentry 0)).Within Access.InRange :=
          @within_dentry 0 (by decide)
        exact hfirst.bind ((within_block (by omega)).bind (within_pure _))

theorem within_enterNew (h : CountsFit s.sb) (hcount : dir.blockCount ≤ sfsDirectBlocks)
    (parentIno : Nat) (name : CStr) (type : Nat) :
    (enterNew junks s dir parentIno name type).Within Access.InRange := by
  have hle := toNat_le h.inodes
  unfold enterNew
  apply (within_sfsAllocInode h.inodes).bind
  split
  · exact within_pure _
  · next newIno s₁ halloc =>
      obtain ⟨hino, hsb₁⟩ := value_sfsAllocInode_some halloc
      have hblocks₁ : int32 s₁.sb.totalBlocks ≤ bitmapBits := by
        rw [hsb₁]
        exact h.blocks
      apply (within_newInode hblocks₁ newIno parentIno type).bind
      split
      · exact (within_sfsFreeInode (by omega)).bind (within_pure _)
      · next inode s₂ hnew =>
          apply (within_sfsWriteInode _ s₂ inode).bind
          have hsb₃ := (sb_sfsWriteInode (junks 2) s₂ inode).trans (sb_newInode hnew)
          generalize (sfsWriteInode (junks 2) s₂ inode).value = s₃ at hsb₃ ⊢
          rw [← hsb₃] at hblocks₁
          apply (within_addDentry hblocks₁ hcount newIno name).bind
          split
          · exact (within_sfsFreeInode (by omega)).bind (within_pure _)
          · exact (within_sfsWriteInode _ _ _).bind (within_pure _)

theorem within_sfsCreate (h : CountsFit s.sb) (hfits : InodeFits s ino) (name : CStr) (type : Nat) :
    (sfsCreate junks s ino name type).Within Access.InRange := by
  unfold sfsCreate
  apply (within_sfsReadInode _ _ _).bind
  split
  · exact within_pure _
  · next parent hread =>
      have hcount := hfits.count_le hread
      split
      · exact within_pure _
      · apply (within_sfsLookup hfits _ name).bind
        split
        · exact within_pure _
        · exact within_enterNew h hcount ino name type

/-! ## Files -/

theorem within_readLoop (d : Disk) (hcount : inode.blockCount ≤ sfsDirectBlocks)
    {size offset fuel bytesRead : Nat} {block buf : Buf} :
    (readLoop d inode size offset fuel bytesRead block buf).Within Access.InRange := by
  induction fuel generalizing bytesRead block buf with
  | zero => exact within_pure _
  | succ fuel ih =>
      rw [readLoop]
      dsimp only
      split
      · exact within_pure _
      · split
        · exact within_pure _
        · exact (within_block (by omega)).bind ih

theorem within_sfsReadFile (d : Disk) (hcount : inode.blockCount ≤ sfsDirectBlocks) {buf : Buf}
    {size offset : Nat} : (sfsReadFile junk d inode buf size offset).Within Access.InRange := by
  unfold sfsReadFile
  split
  · exact within_pure _
  · exact within_readLoop d hcount

theorem within_ensureBlock (h : int32 s.sb.totalBlocks ≤ bitmapBits) (blockIdx : Nat) :
    (ensureBlock junk s inode blockIdx).Within Access.InRange := by
  unfold ensureBlock
  split
  · split
    · exact within_pure _
    · apply (within_sfsAllocBlock h).bind
      split
      · exact within_pure _
      · exact (within_block (by omega)).bind (within_pure _)
  · exact within_pure _

/-- The block at the index is one of the inode, which still fits `blocks`. -/
theorem ensureBlock_some {blockIdx : Nat} (hcount : inode.blockCount ≤ sfsDirectBlocks)
    (h : (ensureBlock junk s inode blockIdx).value = some (s', inode')) :
    s'.sb = s.sb ∧ blockIdx < sfsDirectBlocks ∧ inode'.blockCount ≤ sfsDirectBlocks := by
  unfold ensureBlock at h
  split at h
  · split at h
    · cases h
    · rw [Traced.value_bind] at h
      split at h
      · cases h
      · next newBlock s₁ halloc =>
          cases h
          have hmod : u32 (inode.blockCount + 1) ≤ inode.blockCount + 1 := Nat.mod_le _ _
          refine ⟨sb_sfsAllocBlock halloc, by omega, ?_⟩
          change u32 (inode.blockCount + 1) ≤ sfsDirectBlocks
          omega
  · cases h
    exact ⟨rfl, by omega, hcount⟩

theorem within_writeLoop (h : int32 s.sb.totalBlocks ≤ bitmapBits)
    (hcount : inode.blockCount ≤ sfsDirectBlocks) {buf block : Buf}
    {size offset fuel bytesWritten : Nat} :
    (writeLoop junks buf size offset fuel s inode bytesWritten block).Within Access.InRange := by
  induction fuel generalizing s inode bytesWritten block with
  | zero => exact within_pure _
  | succ fuel ih =>
      rw [writeLoop]
      dsimp only
      split
      · exact within_pure _
      · apply (within_ensureBlock h _).bind
        split
        · exact within_pure _
        · next s₁ inode₁ hens =>
            obtain ⟨hsb, hidx, hcount₁⟩ := ensureBlock_some hcount hens
            rw [← hsb] at h
            apply (within_block hidx).bind
            apply (within_block hidx).bind
            apply ih
            · exact h
            · exact hcount₁

theorem within_sysOpen (h : InodeFits s rootIno) (path : Option CStr) :
    (sysOpen junks s path).Within Access.InRange := by
  unfold sysOpen
  split
  · exact within_pure _
  · split
    · exact within_pure _
    · next name _ =>
        apply (within_sfsLookup h _ name).bind
        split
        · exact within_pure _
        · split <;> exact within_pure _

theorem within_sysRead {fd : Int} (h : ∀ f, openFile s fd = some f → InodeFits s f.ino) (buf : Buf)
    (count : Int) : (sysRead junks s fd buf count).Within Access.InRange := by
  unfold sysRead
  split
  · exact within_pure _
  · next f hf =>
      apply (within_sfsReadInode _ _ _).bind
      split
      · exact within_pure _
      · next inode hread =>
          exact (within_sfsReadFile _ ((h f hf).count_le hread)).bind (within_pure _)

theorem within_sysWrite {fd : Int} (hcounts : CountsFit s.sb)
    (h : ∀ f, openFile s fd = some f → InodeFits s f.ino) (buf : Buf) (count : Int) :
    (sysWrite junks s fd buf count).Within Access.InRange := by
  unfold sysWrite
  split
  · exact within_pure _
  · next f hf =>
      apply (within_sfsReadInode _ _ _).bind
      split
      · exact within_pure _
      · next inode hread =>
          have hloop := (h f hf).count_le hread
          apply Traced.Within.bind
          · exact (within_writeLoop hcounts.blocks hloop).bind (within_pure _)
          · exact (within_sfsWriteInode _ _ _).bind (within_pure _)

/-! ## Runs -/

/-- A call that meets the condition makes no access out of range. -/
theorem Fits.within (h : Fits s a) : (imageCall junks s a).Within Access.InRange := by
  cases a with
  | lookup dirIno name => exact (within_sfsLookup h junks name).bind (within_pure _)
  | create parentIno name type => exact (within_sfsCreate h.1 h.2 name type).bind (within_pure _)
  | «open» path => exact (within_sysOpen h path).bind (within_pure _)
  | read fd buf count => exact (within_sysRead h buf count).bind (within_pure _)
  | write fd buf count => exact (within_sysWrite h.1 h.2 buf count).bind (within_pure _)

/-- The condition is met wherever the layout of the disk is kept. -/
theorem fits_of_kept (h : Kept s) (a : ImageAct) : Fits s a := by
  have hcounts : CountsFit s.sb := by
    rw [h.sb]
    exact ⟨by decide, by decide⟩
  have hinode : ∀ ino, InodeFits s ino := by
    intro ino inode hread
    rw [sfsReadInode_eq h.sb] at hread
    split at hread
    · next hino =>
        cases hread
        have htable := inodeTable_lt hino
        rw [inodeBlock_eq h.sb hino]
        have hstart : inodeTableStart = 3 := rfl
        have hdisk : diskBlocks = 1024 := rfl
        refine ⟨?_, (h.loose.slot ino).count_le⟩
        generalize (ino - 1) / inodesPerBlock = i at htable ⊢
        omega
    · cases hread
  cases a with
  | lookup dirIno name => exact hinode dirIno
  | create parentIno name type => exact ⟨hcounts, hinode parentIno⟩
  | «open» path => exact hinode rootIno
  | read fd buf count => exact fun f _ => hinode f.ino
  | write fd buf count => exact ⟨hcounts, fun f _ => hinode f.ino⟩

/-- A disk with the usual layout, whoever has written it. -/
theorem kept_sfsMount {s₀ : FsState} (hsb : SuperBlock.decode (s₀.disk 0) = SuperBlock.new)
    (hloose : Loose (image s₀.disk)) : Kept (sfsMount s₀).1 := by
  have hread : blockRead s₀.disk 0 uninit = s₀.disk 0 := rfl
  unfold sfsMount
  simp only [hread, hsb]
  rw [if_neg (by decide)]
  refine ⟨rfl, rfl, hloose, ?_⟩
  intro fd hfd huse
  simp only [if_pos hfd] at huse
  cases huse

/-- On such a disk every call of every run stays in range. -/
theorem laid_within {s₀ : FsState} (hsb : SuperBlock.decode (s₀.disk 0) = SuperBlock.new)
    (hloose : Loose (image s₀.disk))
    (h : Reach diskStep (fun _ _ => True) (sfsMount s₀).1 s) (junks : Nat → Buf) (a : ImageAct) :
    (imageCall junks s a).Within Access.InRange :=
  (fits_of_kept ((kept_sfsMount hsb hloose).run h) a).within

/-- No run whose calls meet the condition uses an index out of range, whatever the disk holds and
whatever the arrays held before. -/
theorem accesses_in_range {s₀ : FsState} {t : Trail}
    (h : Reach imageStep (fun t a => Fits t.fs a.2) ⟨(sfsMount s₀).1, []⟩ t) :
    ∀ i ∈ t.trace, i.InRange := by
  have hstart : ∀ i ∈ (⟨(sfsMount s₀).1, []⟩ : Trail).trace, i.InRange := by
    intro i hi
    cases hi
  apply h.invariant hstart
  intro t a t' hrange hfits hstep
  obtain rfl := Option.some.inj hstep
  intro i hi
  rcases List.mem_append.mp hi with hold | hnew
  · exact hrange i hold
  · exact hfits.within i hnew

/-- The state after one call. -/
def Trail.first (s : FsState) (junks : Nat → Buf) (a : ImageAct) : Trail :=
  ⟨(imageCall junks s a).value, (imageCall junks s a).trace⟩

theorem imageStep_first (s : FsState) (junks : Nat → Buf) (a : ImageAct) :
    imageStep ⟨s, []⟩ (junks, a) = some (.first s junks a) := rfl

theorem reach_first (s : FsState) (junks : Nat → Buf) (a : ImageAct) :
    Reach imageStep (fun _ _ => True) ⟨s, []⟩ (.first s junks a) :=
  .step .refl trivial (imageStep_first s junks a)

theorem reach_first_fits (h : Fits s a) (junks : Nat → Buf) :
    Reach imageStep (fun t a => Fits t.fs a.2) ⟨s, []⟩ (.first s junks a) :=
  .step .refl h (imageStep_first s junks a)

theorem fits_formatted (s : FsState) (a : ImageAct) : Fits (sfsMount (sfsFormat s)).1 a :=
  fits_of_kept (kept_fsBoot s) a

/-- A file is created on a new disk. -/
theorem accesses_in_range_create : ∃ t, Reach imageStep (fun t a => Fits t.fs a.2)
    ⟨(sfsMount (sfsFormat .blank)).1, []⟩ t ∧ Access.bitmap 0 ∈ t.trace ∧
    Access.block 0 ∈ t.trace ∧ ∀ i ∈ t.trace, i.InRange := by
  have hfits := fits_formatted .blank (.create rootIno ⟨[0x61], by decide⟩ sfsFile)
  have hreach := reach_first_fits hfits fun _ => uninit
  exact ⟨_, hreach, by decide +kernel, by decide +kernel, accesses_in_range hreach⟩

/-- The root directory of this disk has 13 blocks. -/
def longRoot : FsState where
  disk := fun b =>
    if b = 0 then splice zeros 0 28 SuperBlock.new.encode
    else if b = inodeTableStart then
      splice zeros 0 inodeBytes { Inode.newRoot with blockCount := 13 }.encode
    else zeros
  sb := SuperBlock.new
  mounted := false
  files := fun _ => ⟨0, 0, 0, false⟩

theorem mounted_out_of_range : ∃ s₀ t, (sfsMount s₀).2 = 0 ∧
    Reach imageStep (fun _ _ => True) ⟨(sfsMount s₀).1, []⟩ t ∧ ∃ i ∈ t.trace, ¬ i.InRange := by
  have hreach := reach_first (sfsMount longRoot).1 (fun _ => uninit)
    (.lookup rootIno ⟨[0x61], by decide⟩)
  exact ⟨longRoot, _, by decide +kernel, hreach, .block 12, by decide +kernel, Nat.lt_irrefl 12⟩

end SRos.Fs.Accesses
