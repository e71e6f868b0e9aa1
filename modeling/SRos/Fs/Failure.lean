import SRos.Fs.Loose
import SRos.Fs.Listing

/-!
# Calls of `sfs_create` that fail

Behind the search for the name `sfs_create` takes an inode and, for a directory, a block, and only
then looks for an entry in the parent. When it fails it gives the inode back. The block of a new
directory is not given back.
-/

namespace SRos.Fs

open Bytes

variable {s s' s₀ : FsState} {g : Image} {dir inode parent : Inode} {ino b : Nat} {name : CStr}

/-- What a call that fails should leave as it was. -/
structure Untouched (s s' : FsState) : Prop where
  inodeBitmap : s'.disk inodeBitmapBlock = s.disk inodeBitmapBlock
  blockBitmap : s'.disk blockBitmapBlock = s.disk blockBitmapBlock
  inodes : ∀ ino, Allocated (image s.disk) ino → sfsReadInode s' ino = sfsReadInode s ino
  dirs : ∀ ino dir, Allocated (image s.disk) ino → sfsReadInode s ino = some dir →
    dir.type = sfsDir → ∀ i < dir.blockCount, s'.disk (dir.blocks i) = s.disk (dir.blocks i)

theorem Untouched.refl (s : FsState) : Untouched s s :=
  ⟨rfl, rfl, fun _ _ => rfl, fun _ _ _ _ _ _ _ => rfl⟩

/-- A data block that is not marked as used. -/
def FreeBlock (s : FsState) (b : Nat) : Prop :=
  IsData b ∧ (image s.disk).blockUsed b = false

/-- No entry of the directory is free. -/
def NoFreeEntry (s : FsState) (dir : Inode) : Prop := ∀ d ∈ dirEntries s dir, d.ino ≠ 0

/-- A directory is to be made for which there is an inode and a block, but no place in its parent. -/
def LeaksBlock (s : FsState) (parentIno : Nat) (name : CStr) (dir : Bool) : Prop :=
  dir = true ∧ ∃ parent, sfsReadInode s parentIno = some parent ∧ parent.type = sfsDir ∧
    sfsLookup s parentIno name < 0 ∧
    (∃ ino < maxInodes, (image s.disk).inodeUsed ino = false) ∧ NoFreeEntry s parent ∧
    (∃ b, FreeBlock s b) ∧
    (sfsDirectBlocks ≤ parent.blockCount ∨ ∀ b c, FreeBlock s b → FreeBlock s c → b = c)

/-- `sfs_alloc_block` fails when every data block is used. -/
theorem sfsAllocBlock_none_iff (h : Kept s) :
    sfsAllocBlock s = none ↔ ∀ b, IsData b → (image s.disk).blockUsed b = true := by
  constructor
  · intro hnone b hb
    exact sfsAllocBlock_none h.sb hnone h.loose.system_used hb.2
  · intro hused
    cases halloc : sfsAllocBlock s with
    | none => rfl
    | some r =>
        obtain ⟨b, s'⟩ := r
        obtain ⟨hb, hfree, -⟩ := h.allocBlock halloc
        rw [hused b hb] at hfree
        cases hfree

/-- The blocks of a slot of the inode table lie outside the bitmaps and the table. -/
theorem SlotOk.block_cases (h : SlotOk g ino inode) (i : Nat) :
    inode.blocks i < diskBlocks ∧ (inode.blocks i = 0 ∨ dataBlockStart ≤ inode.blocks i) := by
  rcases h.block i with hzero | ⟨hdata, -⟩
  · rw [hzero]
    exact ⟨by decide, .inl rfl⟩
  · exact ⟨hdata.2, .inr hdata.1⟩

theorem dirEntries_congr (h : ∀ i < dir.blockCount, s'.disk (dir.blocks i) = s.disk (dir.blocks i)) :
    dirEntries s' dir = dirEntries s dir := by
  unfold dirEntries
  apply List.flatMap_congr
  intro bi hbi
  have hblock := h bi (List.mem_range.mp hbi)
  unfold blockRead
  rw [hblock]

theorem freeInBlock_full_iff {block : Buf} {n di : Nat} {d : Dentry} :
    (∃ d', freeInBlock block n di d = .inr d') ↔
      ∀ dj, di ≤ dj → dj < di + n → (Dentry.decode block (dj * dentryBytes)).ino ≠ 0 := by
  constructor
  · rintro ⟨d', hfull⟩
    exact (freeInBlock_inr hfull).1
  · intro hlive
    cases hfree : freeInBlock block n di d with
    | inr d' => exact ⟨d', rfl⟩
    | inl r =>
        obtain ⟨hlo, hhi, hd, hzero, -⟩ := freeInBlock_inl hfree
        rw [hd] at hzero
        exact absurd hzero (hlive _ hlo hhi)

/-- The search for a free entry fails when there is none. -/
theorem freeLoop_full_iff (hblocks : ∀ i < dir.blockCount, dir.blocks i < diskBlocks) {n bi : Nat}
    {block : Buf} {d : Dentry} (hn : bi + n = dir.blockCount) :
    (∃ d', freeLoop s dir n bi block d = .inr d') ↔
      ∀ j, bi ≤ j → j < dir.blockCount → ∀ di < dentriesPerBlock,
        (Dentry.decode (s.disk (dir.blocks j)) (di * dentryBytes)).ino ≠ 0 := by
  induction n generalizing bi block d with
  | zero =>
      refine ⟨fun _ j hj hlt => by omega, fun _ => ⟨d, rfl⟩⟩
  | succ n ih =>
      rw [freeLoop, blockRead_lt (hblocks bi (by omega))]
      have hfirst := @freeInBlock_full_iff (s.disk (dir.blocks bi)) dentriesPerBlock 0 d
      cases hfree : freeInBlock (s.disk (dir.blocks bi)) dentriesPerBlock 0 d with
      | inl r =>
          obtain ⟨-, hdi, hd, hzero, -⟩ := freeInBlock_inl hfree
          rw [Nat.zero_add] at hdi
          rw [hd] at hzero
          constructor
          · rintro ⟨d', hd'⟩
            cases hd'
          · intro hlive
            exact absurd hzero (hlive bi le_rfl (by omega) _ hdi)
      | inr d' =>
          have hblock := hfirst.mp ⟨d', hfree⟩
          dsimp only
          rw [ih (by omega)]
          constructor
          · intro hlater j hj hlt di hdi
            by_cases heq : j = bi
            · subst heq
              exact hblock di (Nat.zero_le _) (by omega)
            · exact hlater j (by omega) hlt di hdi
          · intro hall j hj
            exact hall j (by omega)

theorem noFreeEntry_iff (hblocks : ∀ i < dir.blockCount, dir.blocks i < diskBlocks) :
    NoFreeEntry s dir ↔ ∃ d, freeLoop s dir dir.blockCount 0 uninit Dentry.zero = .inr d := by
  rw [freeLoop_full_iff hblocks (Nat.zero_add _)]
  unfold NoFreeEntry dirEntries
  simp only [List.mem_flatMap, List.mem_map, List.mem_range]
  constructor
  · intro hlive j _ hj di hdi
    have hlt := hblocks j hj
    apply hlive
    exact ⟨j, hj, di, hdi, by rw [blockRead_lt hlt]⟩
  · rintro hlive d ⟨bi, hbi, di, hdi, rfl⟩
    rw [blockRead_lt (hblocks bi hbi)]
    exact hlive bi (Nat.zero_le _) hbi di hdi

theorem addDentry_none_iff (h : Kept s) (hslot : SlotOk g ino parent) {newIno : Nat} :
    addDentry s parent newIno name = none ↔ NoFreeEntry s parent ∧
      (sfsDirectBlocks ≤ parent.blockCount ∨
        ∀ b, IsData b → (image s.disk).blockUsed b = true) := by
  rw [noFreeEntry_iff fun i _ => (hslot.block_cases i).1, ← sfsAllocBlock_none_iff h]
  unfold addDentry
  cases freeLoop s parent parent.blockCount 0 uninit Dentry.zero with
  | inl slot => simp
  | inr d =>
      dsimp only
      by_cases hcount : sfsDirectBlocks ≤ parent.blockCount
      · simp [hcount]
      · cases halloc : sfsAllocBlock s with
        | none => simp [hcount]
        | some r => simp [hcount]

/-- `sfs_create` has taken the inode `ino` of `s` and, for a directory, the block `b`, and has
written them. -/
structure Prepared (s s' : FsState) (ino : Nat) (b : Option Nat) : Prop where
  kept : Kept s'
  isIno : IsIno ino
  free : (image s.disk).inodeUsed ino = false
  inodeUsed : (image s'.disk).inodeUsed = Function.update (image s.disk).inodeUsed ino true
  inode : ∀ j, j ≠ ino → (image s'.disk).inode j = (image s.disk).inode j
  block : ∀ c, b = some c → FreeBlock s c ∧ (image s'.disk).blockUsed c = true
  blockUsed : ∀ c, b ≠ some c → (image s'.disk).blockUsed c = (image s.disk).blockUsed c
  disk : ∀ c, c = 0 ∨ dataBlockStart ≤ c → b ≠ some c → s'.disk c = s.disk c

theorem sfsWriteInode_disk (hsb : s.sb = SuperBlock.new) {c : Nat}
    (hc : c = 0 ∨ dataBlockStart ≤ c) : (sfsWriteInode s inode).disk c = s.disk c := by
  unfold sfsWriteInode
  split
  · rfl
  · next hwrite =>
      have hcount : s.sb.inodeCount = maxInodes := by rw [hsb]; rfl
      have hino : IsIno inode.ino := by
        rw [hcount, not_or, not_le] at hwrite
        exact hwrite
      have htable := inodeTable_lt hino
      have hstart : inodeTableStart = 3 := rfl
      have hdata : dataBlockStart = 5 := rfl
      rw [inodeBlock_eq hsb hino]
      apply write_disk_of_ne
      generalize (inode.ino - 1) / inodesPerBlock = i at htable ⊢
      omega

/-- The new inode, and the block of a new directory. -/
theorem newInode_some {parentIno : Nat} {isDir : Bool}
    (hnew : newInode s ino parentIno (sfsType isDir) = some (inode, s')) :
    inode.ino = ino ∧ (isDir = false ∧ s' = s ∨
      isDir = true ∧ ∃ b s₁, sfsAllocBlock s = some (b, s₁) ∧
        s' = s₁.write b (dotDentries ino parentIno)) := by
  unfold newInode at hnew
  cases isDir with
  | false =>
      rw [if_neg (by decide)] at hnew
      cases hnew
      exact ⟨rfl, .inl ⟨rfl, rfl⟩⟩
  | true =>
      rw [if_pos (by decide)] at hnew
      split at hnew
      · cases hnew
      · next b s₁ halloc =>
          cases hnew
          exact ⟨rfl, .inr ⟨rfl, b, s₁, halloc, rfl⟩⟩

theorem newInode_none_iff {parentIno : Nat} {isDir : Bool} :
    newInode s ino parentIno (sfsType isDir) = none ↔ isDir = true ∧ sfsAllocBlock s = none := by
  unfold newInode
  cases isDir with
  | false =>
      rw [if_neg (by decide)]
      simp
  | true =>
      rw [if_pos (by decide)]
      cases sfsAllocBlock s with
      | none => simp
      | some r => simp

/-- Behind `sfs_alloc_inode`. -/
theorem prepared_alloc (h : Kept s) (halloc : sfsAllocInode s = some (ino, s')) :
    Prepared s s' ino none := by
  obtain ⟨hino, -, h₁⟩ := h.allocInode halloc
  obtain ⟨-, hfree, -, ⟨buf, hwrite⟩, himage⟩ := sfsAllocInode_some h.sb halloc
  refine ⟨h₁.kept, hino, hfree, ?_, ?_, by simp, ?_, ?_⟩
  · rw [himage]
    rfl
  · intro j _
    rw [himage]
    rfl
  · intro c _
    rw [himage]
    rfl
  · intro c hc _
    have hdata : dataBlockStart = 5 := rfl
    have hbitmap : inodeBitmapBlock = 1 := rfl
    rw [hwrite]
    exact write_disk_of_ne (by omega) _

/-- The state in which `sfs_create` looks for an entry in the parent. -/
theorem prepared (h : Kept s) {s₁ s₂ : FsState} {parentIno : Nat} {isDir : Bool}
    (halloc : sfsAllocInode s = some (ino, s₁))
    (hnew : newInode s₁ ino parentIno (sfsType isDir) = some (inode, s₂)) :
    ∃ b, b.isSome = isDir ∧ Prepared s (sfsWriteInode s₂ inode) ino b := by
  obtain ⟨hino, hne, h₁⟩ := h.allocInode halloc
  obtain ⟨h₂, hslot⟩ := h₁.kept.newInode hino (sfsType_lt isDir) hnew
  have h₃ := h₂.kept.writeInode hslot hne
  obtain ⟨heq, hcases⟩ := newInode_some hnew
  have himage₃ := image_sfsWriteInode h₂.kept.sb hslot.packed heq hino
  have hp := prepared_alloc h halloc
  rcases hcases with ⟨rfl, rfl⟩ | ⟨rfl, b, s₁', hblock, rfl⟩
  · refine ⟨none, rfl, h₃.kept, hino, hp.free, ?_, ?_, by simp, ?_, ?_⟩
    · rw [himage₃]
      exact hp.inodeUsed
    · intro j hj
      rw [himage₃, setInode_other _ _ hj]
      exact hp.inode j hj
    · intro c hc
      rw [himage₃]
      exact hp.blockUsed c hc
    · intro c hc hcb
      rw [sfsWriteInode_disk h₂.kept.sb hc]
      exact hp.disk c hc hcb
  · obtain ⟨hb, hbfree, himage, -⟩ := h₁.kept.allocBlock hblock
    obtain ⟨-, -, -, ⟨buf', rfl⟩, -⟩ := sfsAllocBlock_some h₁.kept.sb hblock
    rw [image_write_data hb, himage] at himage₃
    rw [hp.blockUsed b (by simp)] at hbfree
    refine ⟨some b, rfl, h₃.kept, hino, hp.free, ?_, ?_, ?_, ?_, ?_⟩
    · rw [himage₃]
      exact hp.inodeUsed
    · intro j hj
      rw [himage₃, setInode_other _ _ hj]
      exact hp.inode j hj
    · intro c hc
      obtain rfl := Option.some.inj hc
      refine ⟨⟨hb, hbfree⟩, ?_⟩
      rw [himage₃]
      exact useBlock_self _ b
    · intro c hc
      have hne : c ≠ b := fun heq => hc (by rw [heq])
      rw [himage₃]
      exact (Function.update_of_ne hne _ _).trans (hp.blockUsed c (by simp))
    · intro c hc hcb
      have hne : c ≠ b := fun heq => hcb (by rw [heq])
      have hdata : dataBlockStart = 5 := rfl
      have hbitmap : blockBitmapBlock = 2 := rfl
      rw [sfsWriteInode_disk h₂.kept.sb hc, write_disk_of_ne hne, write_disk_of_ne (by omega)]
      exact hp.disk c hc (by simp)

namespace Prepared

variable {taken : Option Nat}

/-- The blocks of an inode that is in the table are not the one that was taken. -/
theorem disk_block (h : Prepared s s' ino taken) (hs : Kept s) (j i : Nat) :
    s'.disk (((image s.disk).inode j).blocks i) = s.disk (((image s.disk).inode j).blocks i) := by
  have hslot := hs.loose.slot j
  apply h.disk _ (hslot.block_cases i).2
  intro htaken
  obtain ⟨⟨hdata, hfree⟩, -⟩ := h.block _ htaken
  rcases hslot.block i with hzero | ⟨-, hused⟩
  · rw [hzero] at hdata
    exact absurd hdata (by decide)
  · rw [hused] at hfree
    cases hfree

theorem noFreeEntry (h : Prepared s s' ino taken) (hs : Kept s) (j : Nat) :
    NoFreeEntry s' ((image s.disk).inode j) ↔ NoFreeEntry s ((image s.disk).inode j) := by
  unfold NoFreeEntry
  rw [dirEntries_congr fun i _ => h.disk_block hs j i]

/-- The inode is given back. Nothing remains of the call, up to the block of a directory. -/
theorem freeInode (h : Prepared s s' ino taken) (hs : Kept s) :
    (image (sfsFreeInode s' ino).disk).inodeUsed = (image s.disk).inodeUsed ∧
      (image (sfsFreeInode s' ino).disk).blockUsed = (image s'.disk).blockUsed ∧
      (taken = none → Untouched s (sfsFreeInode s' ino)) := by
  obtain ⟨⟨buf, hwrite⟩, himage⟩ := sfsFreeInode_eq h.kept.sb h.isIno
  have hused : (image (sfsFreeInode s' ino).disk).inodeUsed = (image s.disk).inodeUsed := by
    rw [himage]
    change Function.update (image s'.disk).inodeUsed ino false = _
    rw [h.inodeUsed, Function.update_idem, ← h.free, Function.update_eq_self]
  have hblocks : (image (sfsFreeInode s' ino).disk).blockUsed = (image s'.disk).blockUsed := by
    rw [himage]
    rfl
  refine ⟨hused, hblocks, ?_⟩
  rintro rfl
  have hsb : (sfsFreeInode s' ino).sb = SuperBlock.new := by
    rw [hwrite]
    exact h.kept.sb
  refine ⟨Bitmap.bit_injective hused, Bitmap.bit_injective ?_, ?_, ?_⟩
  · change (image (sfsFreeInode s' ino).disk).blockUsed = (image s.disk).blockUsed
    rw [hblocks]
    funext c
    exact h.blockUsed c (by simp)
  · intro j hj
    have hne : j ≠ ino := by
      rintro rfl
      have := hj.used
      rw [h.free] at this
      cases this
    rw [sfsReadInode_eq hsb, sfsReadInode_eq hs.sb, himage]
    change (if IsIno j then some ((image s'.disk).inode j) else none) = _
    rw [h.inode j hne]
  · intro j dir hj hread _ i _
    rw [sfsReadInode_eq hs.sb, if_pos hj.isIno] at hread
    obtain rfl := Option.some.inj hread
    rw [hwrite, write_disk_of_ne]
    · exact h.disk_block hs j i
    · have hcases := ((hs.loose.slot j).block_cases i).2
      have hdata : dataBlockStart = 5 := rfl
      have hbitmap : inodeBitmapBlock = 1 := rfl
      omega

end Prepared

/-- There is no place in the parent once the inode and the block are taken, as far as the state
before the call tells. -/
theorem Prepared.addDentry_none_iff {taken : Option Nat} {parentIno newIno : Nat}
    (h : Prepared s s' ino taken) (hs : Kept s) :
    addDentry s' ((image s.disk).inode parentIno) newIno name = none ↔
      NoFreeEntry s ((image s.disk).inode parentIno) ∧
        (sfsDirectBlocks ≤ ((image s.disk).inode parentIno).blockCount ∨
          ∀ c, FreeBlock s c → taken = some c) := by
  rw [Fs.addDentry_none_iff h.kept (hs.loose.slot parentIno), h.noFreeEntry hs]
  have hleft : (∀ c, IsData c → (image s'.disk).blockUsed c = true) ↔
      ∀ c, FreeBlock s c → taken = some c := by
    constructor
    · rintro hall c ⟨hdata, hfree⟩
      by_contra hne
      have hused := hall c hdata
      rw [h.blockUsed c hne, hfree] at hused
      cases hused
    · intro hall c hdata
      by_cases htaken : taken = some c
      · exact (h.block c htaken).2
      · rw [h.blockUsed c htaken]
        by_contra hused
        exact htaken (hall c ⟨hdata, by simpa using hused⟩)
  rw [hleft]

/-- How a call of `sfs_create` can end. -/
inductive Outcome (s : FsState) (leaks : Prop) : FsState × Int → Prop
  | untouched {s' : FsState} {r : Int} (hsame : Untouched s s') (hleaks : ¬ leaks) :
      Outcome s leaks (s', r)
  | made {s' : FsState} {r : Int} (hr : 0 ≤ r) (hleaks : ¬ leaks) : Outcome s leaks (s', r)
  | leaked {s' : FsState} (hchanged : ¬ Untouched s s') (hleaks : leaks) :
      Outcome s leaks (s', -1)

/-- The part of `sfs_create` behind the allocation of the inode. -/
theorem outcome_allocated (hs : Kept s) {s₁ : FsState} {newIno parentIno : Nat} {isDir : Bool}
    (hread : sfsReadInode s parentIno = some parent)
    (hparent : parent = (image s.disk).inode parentIno) (htype : parent.type = sfsDir)
    (hlookup : sfsLookup s parentIno name < 0) (halloc : sfsAllocInode s = some (newIno, s₁)) :
    Outcome s (LeaksBlock s parentIno name isDir)
      (match newInode s₁ newIno parentIno (sfsType isDir) with
      | none => (sfsFreeInode s₁ newIno, -1)
      | some (inode, s) =>
          let s := sfsWriteInode s inode
          match addDentry s parent newIno name with
          | none => (sfsFreeInode s newIno, -1)
          | some (parent, s) =>
              (sfsWriteInode s { parent with size := u32 (parent.size + dentryBytes) },
                newIno)) := by
  have hp₁ := prepared_alloc hs halloc
  have hleaks : LeaksBlock s parentIno name isDir ↔ isDir = true ∧ NoFreeEntry s parent ∧
      (∃ b, FreeBlock s b) ∧ (sfsDirectBlocks ≤ parent.blockCount ∨
        ∀ b c, FreeBlock s b → FreeBlock s c → b = c) := by
    constructor
    · rintro ⟨hdir, p, hp, -, -, -, hrest⟩
      obtain rfl := Option.some.inj (hread.symm.trans hp)
      exact ⟨hdir, hrest⟩
    · rintro ⟨hdir, hrest⟩
      exact ⟨hdir, parent, hread, htype, hlookup, ⟨newIno, hp₁.isIno.2, hp₁.free⟩, hrest⟩
  cases hnew : newInode s₁ newIno parentIno (sfsType isDir) with
  | none =>
      -- there is no block for the directory
      obtain ⟨-, hnone⟩ := newInode_none_iff.mp hnew
      refine .untouched ((hp₁.freeInode hs).2.2 rfl) ?_
      rw [hleaks]
      rintro ⟨-, -, ⟨b, hdata, hfree⟩, -⟩
      have hused := (sfsAllocBlock_none_iff hp₁.kept).mp hnone b hdata
      rw [hp₁.blockUsed b (by simp), hfree] at hused
      cases hused
  | some r =>
      obtain ⟨inode, s₂⟩ := r
      obtain ⟨taken, hsome, hp⟩ := prepared hs halloc hnew
      have hnone := @Prepared.addDentry_none_iff s (sfsWriteInode s₂ inode) newIno name taken
        parentIno newIno hp hs
      rw [← hparent] at hnone
      dsimp only
      cases hadd : addDentry (sfsWriteInode s₂ inode) parent newIno name with
      | none =>
          obtain ⟨hfull, hwhy⟩ := hnone.mp hadd
          cases taken with
          | none =>
              refine .untouched ((hp.freeInode hs).2.2 rfl) ?_
              rw [hleaks, ← hsome]
              simp
          | some b =>
              obtain ⟨hfree, hused⟩ := hp.block b rfl
              refine .leaked ?_ (hleaks.mpr ⟨hsome.symm, hfull, ⟨b, hfree⟩, ?_⟩)
              · intro hsame
                have hbits : (image (sfsFreeInode (sfsWriteInode s₂ inode) newIno).disk).blockUsed b
                    = (image s.disk).blockUsed b := by
                  simp only [image, hsame.blockBitmap]
                rw [(hp.freeInode hs).2.1, hused, hfree.2] at hbits
                cases hbits
              · refine hwhy.imp_right fun hall c d hc hd => ?_
                exact Option.some.inj ((hall c hc).symm.trans (hall d hd))
      | some r =>
          refine .made (by omega) ?_
          rw [hleaks]
          rintro ⟨hdir, hfull, -, hwhy⟩
          rw [← hsome] at hdir
          obtain ⟨b, rfl⟩ := Option.isSome_iff_exists.mp hdir
          have hadd' := hnone.mpr ⟨hfull, hwhy.imp_right fun hall c hc =>
            by rw [hall c b hc (hp.block b rfl).1]⟩
          rw [hadd'] at hadd
          cases hadd

theorem sfsCreate_outcome (hs : Kept s) (parentIno : Nat) (name : CStr) (isDir : Bool) :
    Outcome s (LeaksBlock s parentIno name isDir) (sfsCreate s parentIno name (sfsType isDir)) := by
  have hread := sfsReadInode_eq hs.sb parentIno
  unfold sfsCreate
  by_cases hp : IsIno parentIno
  · rw [if_pos hp] at hread
    rw [hread]
    dsimp only
    split
    · next htype =>
        refine .untouched (.refl s) ?_
        rintro ⟨-, p, hp, hdir, -⟩
        obtain rfl := Option.some.inj (hread.symm.trans hp)
        exact htype hdir
    · next htype =>
        split
        · next hlookup =>
            refine .untouched (.refl s) ?_
            rintro ⟨-, p, -, -, habsent, -⟩
            omega
        · next hlookup =>
            cases halloc : sfsAllocInode s with
            | none =>
                refine .untouched (.refl s) ?_
                rintro ⟨-, p, -, -, -, ⟨ino, hino, hfree⟩, -⟩
                rw [sfsAllocInode_none hs.sb halloc hino] at hfree
                cases hfree
            | some r =>
                exact outcome_allocated hs hread rfl (not_not.mp htype) (by omega) halloc
  · rw [if_neg hp] at hread
    rw [hread]
    refine .untouched (.refl s) ?_
    rintro ⟨-, p, hp, -⟩
    rw [hread] at hp
    cases hp

/-- A call of `sfs_create` that fails leaves the file system as it was, unless it has taken a block
for a directory that has no place in its parent. -/
theorem failed_create_untouched (h : Reach diskStep (fun _ _ => True) (fsBoot s₀) s)
    (parentIno : Nat) (name : CStr) (isDir : Bool) :
    ((sfsCreate s parentIno name (sfsType isDir)).2 = -1 →
      Untouched s (sfsCreate s parentIno name (sfsType isDir)).1) ↔
    ¬ LeaksBlock s parentIno name isDir := by
  have hout := sfsCreate_outcome (Kept.reach h) parentIno name isDir
  cases hr : sfsCreate s parentIno name (sfsType isDir) with
  | mk s' r =>
      rw [hr] at hout
      cases hout with
      | untouched hsame hleaks => exact ⟨fun _ => hleaks, fun _ _ => hsame⟩
      | made hpos hleaks =>
          refine ⟨fun _ => hleaks, fun _ hneg => ?_⟩
          change r = -1 at hneg
          omega
      | leaked hchanged hleaks =>
          exact ⟨fun hsame => absurd (hsame rfl) hchanged, fun hnot => absurd hleaks hnot⟩

/-- The name `.` is there already. -/
theorem failed_create_untouched_present :
    (sfsCreate (fsBoot .blank) rootIno ⟨[0x2E], by decide⟩ (sfsType false)).2 = -1 ∧
    Untouched (fsBoot .blank)
      (sfsCreate (fsBoot .blank) rootIno ⟨[0x2E], by decide⟩ (sfsType false)).1 := by
  have hfail : (sfsCreate (fsBoot .blank) rootIno ⟨[0x2E], by decide⟩ (sfsType false)).2 = -1 := by
    decide +kernel
  have hnot : ¬ LeaksBlock (fsBoot .blank) rootIno ⟨[0x2E], by decide⟩ false := by
    rintro ⟨hdir, -⟩
    cases hdir
  exact ⟨hfail, (failed_create_untouched .refl _ _ _).mpr hnot hfail⟩

/-! ## A directory without room -/

/-- A root directory that was written from its first byte to its last. -/
theorem slot_filled (h : Kept s) {fd : Int} {f : File} (hf : openFile s fd = some f)
    (hino : f.ino = rootIno) (hoff : f.offset = 0) {buf : Buf}
    (hall : (sysWrite s fd buf 49152).2 = 49152) :
    (image (sysWrite s fd buf 49152).1.disk).root.blockCount = sfsDirectBlocks ∧
      ∀ k < slotCount (image (sysWrite s fd buf 49152).1.disk).root,
        slot (image (sysWrite s fd buf 49152).1.disk) (image (sysWrite s fd buf 49152).1.disk).root k =
          Dentry.decode buf (k * dentryBytes) := by
  have hread : sfsReadInode s rootIno = some (image s.disk).root := by
    rw [sfsReadInode_eq h.sb, if_pos (by decide)]
    rfl
  obtain ⟨hlater, hslot⟩ := h.sfsWriteFile buf 49152 0 (h.loose.slot rootIno)
  obtain ⟨s₁, inode₁, n, heq, -, -, hn, hwrote, -⟩ := @sfsWriteFile_spec s _ buf 0 49152 h.sb
    h.loose.system_used h.loose.root.held (Nat.zero_le _)
  rw [show (image s.disk).inode rootIno = (image s.disk).root from rfl, heq] at hlater hslot
  have hcall : sysWrite s fd buf 49152 = (sfsWriteInode (s₁.setFile fd.toNat
      { f with offset := u32 n })
      { inode₁ with size := max (image s.disk).root.size (0 + n) }, int32 n) := by
    unfold sysWrite
    rw [hf]
    dsimp only
    rw [hino, hread, hoff, show u32OfInt 49152 = 49152 by decide]
    dsimp only
    rw [heq, Nat.zero_add]
  rw [hcall] at hall ⊢
  dsimp only at hall ⊢
  rw [int32_of_lt (by omega)] at hall
  obtain rfl : n = 49152 := by omega
  have hcount : inode₁.blockCount = sfsDirectBlocks := by
    have hroom := hwrote.room
    have hle := hwrote.held.count_le
    have hmax : sfsDirectBlocks = 12 := rfl
    have hsize : blockSize = 4096 := rfl
    unfold Inode.room at hroom
    rw [hsize] at hroom
    omega
  have hself : inode₁.ino = rootIno := hwrote.grows.ino_eq.trans h.loose.root.ino_eq
  rw [Kept.sfsWriteInode_setFile]
  change (image (sfsWriteInode s₁ _).disk).root.blockCount = _ ∧ ∀ k < slotCount
    (image (sfsWriteInode s₁ _).disk).root, slot (image (sfsWriteInode s₁ _).disk)
      (image (sfsWriteInode s₁ _).disk).root k = _
  rw [image_sfsWriteInode hlater.kept.sb hslot.packed hself (by decide), root_setInode]
  refine ⟨hcount, ?_⟩
  intro k hk
  have hper : dentriesPerBlock = 128 := rfl
  have hbytes : dentryBytes = 32 := rfl
  have hk' : k < 1536 := by
    unfold slotCount at hk
    rw [hper] at hk
    change k < 128 * inode₁.blockCount at hk
    rw [hcount] at hk
    exact hk
  apply Dentry.decode_bytes
  intro i hi
  rw [hbytes] at hi
  have hbyte := hwrote.new (k * 32 + i) (Nat.zero_le _) (by omega)
  unfold fileByte at hbyte
  have hsize : blockSize = 4096 := rfl
  rw [hsize] at hbyte
  rw [show (0 + (k * 32 + i)) / 4096 = k / dentriesPerBlock by rw [hper]; omega,
    show (0 + (k * 32 + i)) % 4096 = k % dentriesPerBlock * dentryBytes + i by
      rw [hper, hbytes]; omega] at hbyte
  exact hbyte

theorem mem_dirEntries (hdata : dir.OnData) {d : Dentry} (hd : d ∈ dirEntries s dir) :
    ∃ k < slotCount dir, d = slot (image s.disk) dir k := by
  unfold dirEntries at hd
  simp only [List.mem_flatMap, List.mem_map, List.mem_range] at hd
  obtain ⟨bi, hbi, di, hdi, rfl⟩ := hd
  have hper : dentriesPerBlock = 128 := rfl
  refine ⟨dentriesPerBlock * bi + di, ?_, ?_⟩
  · unfold slotCount
    rw [hper] at hdi ⊢
    omega
  · rw [slot_block _ _ _ hdi, blockRead_data (hdata bi hbi)]

/-- A directory full of entries with the same name, made of the character 1. -/
def fillBuf : Buf := fun i => if i % dentryBytes = 31 then 0 else 1

theorem decode_fillBuf (k : Nat) :
    Dentry.decode fillBuf (k * dentryBytes) = Dentry.decode fillBuf 0 := by
  apply Dentry.decode_bytes
  intro i _
  unfold fillBuf
  rw [Nat.mul_comm, Nat.mul_add_mod, Nat.zero_add]

/-- The root directory is filled through a descriptor of its own. -/
theorem leaks_filled (h : Kept s) {fd : Int} {f : File} (hf : openFile s fd = some f)
    (hino : f.ino = rootIno) (hoff : f.offset = 0)
    (hall : (sysWrite s fd fillBuf 49152).2 = 49152)
    (hinode : (image (sysWrite s fd fillBuf 49152).1.disk).inodeUsed 2 = false)
    (hblock : (image (sysWrite s fd fillBuf 49152).1.disk).blockUsed 17 = false) :
    LeaksBlock (sysWrite s fd fillBuf 49152).1 rootIno ⟨[0x61], by decide⟩ true := by
  have h' := h.sysWrite fd fillBuf 49152
  obtain ⟨hcount, hslots⟩ := slot_filled h hf hino hoff hall
  generalize (sysWrite s fd fillBuf 49152).1 = s' at *
  have hroot := h'.loose.root
  refine ⟨rfl, (image s'.disk).root, ?_, hroot.type_eq, ?_, ⟨2, by decide, hinode⟩, ?_,
    ⟨17, by decide, hblock⟩, .inl hcount.ge⟩
  · rw [sfsReadInode_eq h'.sb, if_pos (by decide)]
    rfl
  · rcases sfsLookup_first h'.sb hroot.type_eq hroot.held.onData ⟨[0x61], by decide⟩ with
      ⟨k, hk, hmatch, -⟩ | ⟨-, hlookup⟩
    · rw [hslots k hk, decode_fillBuf] at hmatch
      exact absurd hmatch (by decide)
    · rw [hlookup]
      decide
  · intro d hd
    obtain ⟨k, hk, rfl⟩ := mem_dirEntries hroot.held.onData hd
    rw [hslots k hk, decode_fillBuf]
    decide

theorem reach_call (h : Reach diskStep (fun _ _ => True) s₀ s) (a : FsAct) :
    Reach diskStep (fun _ _ => True) s₀ (fsCall s a).1 := .step (a := .call a) h trivial rfl

theorem reach_opened (s₀ : FsState) (path : Option CStr) :
    Reach diskStep (fun _ _ => True) (fsBoot s₀) (sysOpen (fsBoot s₀) path).1 :=
  reach_call .refl (.open path)

/-- A directory cannot be entered in a root that fills all its 12 blocks, and its block stays
taken. -/
theorem failed_create_leaks : ∃ s, Reach diskStep (fun _ _ => True) (fsBoot .blank) s ∧
    (sfsCreate s rootIno ⟨[0x61], by decide⟩ sfsDir).2 = -1 ∧
    ¬ Untouched s (sfsCreate s rootIno ⟨[0x61], by decide⟩ sfsDir).1 := by
  have hopen : openFile (sysOpen (fsBoot .blank) (some ⟨[0x2E], by decide⟩)).1 0 =
      some ⟨1, 0, 2, true⟩ := by decide +kernel
  have hwrite : (sysWrite (sysOpen (fsBoot .blank) (some ⟨[0x2E], by decide⟩)).1 0 fillBuf 49152).2 =
        49152 ∧
      (image (sysWrite (sysOpen (fsBoot .blank) (some ⟨[0x2E], by decide⟩)).1 0 fillBuf
        49152).1.disk).inodeUsed 2 = false ∧
      (image (sysWrite (sysOpen (fsBoot .blank) (some ⟨[0x2E], by decide⟩)).1 0 fillBuf
        49152).1.disk).blockUsed 17 = false := by
    decide +kernel
  obtain ⟨hall, hinode, hblock⟩ := hwrite
  have hreach₁ : Reach diskStep (fun _ _ => True) (fsBoot .blank)
      (sysOpen (fsBoot .blank) (some ⟨[0x2E], by decide⟩)).1 := reach_opened .blank _
  generalize (sysOpen (fsBoot .blank) (some ⟨[0x2E], by decide⟩)).1 = s₁ at *
  have hleaks := leaks_filled (Kept.reach hreach₁) hopen rfl rfl hall hinode hblock
  have hreach : Reach diskStep (fun _ _ => True) (fsBoot .blank)
      (sysWrite s₁ 0 fillBuf 49152).1 := reach_call hreach₁ (.write 0 fillBuf 49152)
  refine ⟨_, hreach, ?_⟩
  have hout := sfsCreate_outcome (Kept.reach hreach) rootIno ⟨[0x61], by decide⟩ true
  change Outcome _ _ (sfsCreate (sysWrite s₁ 0 fillBuf 49152).1 rootIno ⟨[0x61], by decide⟩ sfsDir)
    at hout
  generalize sfsCreate (sysWrite s₁ 0 fillBuf 49152).1 rootIno ⟨[0x61], by decide⟩ sfsDir = r at hout
  cases hout with
  | untouched hsame hnot => exact absurd hleaks hnot
  | made hpos hnot => exact absurd hleaks hnot
  | leaked hchanged _ => exact ⟨rfl, hchanged⟩

end SRos.Fs
