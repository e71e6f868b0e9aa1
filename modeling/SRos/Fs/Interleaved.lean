import SRos.Fs.Shared

/-!
# File system calls of several tasks at once

No call of `src/fs/sfs.c` holds a lock or turns interrupts off. Two calls that read a bitmap
before either writes it back take the same number. The calls stay apart as long as every write
of a bitmap or of a directory block finds the block as its call has left it: then each call is
safe, whatever the other calls do between its requests.
-/

namespace SRos.Fs.Requests

open Bytes

/-- The write of a bitmap or of a directory entry finds the block as the call has read or
written it last. -/
def Undisturbed (s : Shared) (seen : Seen) : Request → Prop
  | .write blockNo _ notes => notes ≠ [] → ∀ buf, seen blockNo = some buf → s.fs.disk blockNo = buf
  | _ => True

/-- The request does not give an inode back. -/
def KeepsInodes : Request → Prop
  | .write _ _ notes => ∀ ino, .freedInode ino ∉ notes
  | _ => True

def protocol : Protocol machine Owners where
  inv := SharedOk
  rely := Rely
  later := Later
  admits := fun s seen r => Undisturbed s seen r ∧ KeepsInodes r
  rely_refl := Rely.refl
  rely_trans := fun _ _ _ _ h h' => h.trans h'
  later_of_rely := fun _ _ _ h => h.later
  later_trans := fun _ _ _ h h' => h.trans h'

variable {α : Type} {t : Nat} {post : Owners → Seen → α → Prop} {o : Owners} {seen : Seen}

theorem safe_blockRead {b : Nat} {buf : Buf} {f : Buf → FsProg α}
    (h : ∀ o' s, Rely t o o' → SharedOk o' s →
      protocol.Safe t post (f (Fs.blockRead s.fs.disk b buf)) o'
        (Request.learn (.read b buf) (Fs.blockRead s.fs.disk b buf) seen)) :
    protocol.Safe t post (blockRead b buf >>= f) o seen := by
  intro o' hrely s hinv _
  exact ⟨o', hinv, Later.refl o', fun u _ => Rely.refl u o', h o' s hrely hinv⟩

/-- A block that is read without relying on what is in it. -/
theorem safe_blockRead_any {b : Nat} {buf : Buf} {f : Buf → FsProg α}
    (h : ∀ o' seen' c, Later o o' → protocol.Safe t post (f c) o' seen') :
    protocol.Safe t post (blockRead b buf >>= f) o seen :=
  safe_blockRead fun _ _ hrely _ => h _ _ _ hrely.later

theorem safe_blockWrite {b : Nat} {buf : Buf} {notes : List Note} {f : Unit → FsProg α}
    (h : ∀ o' s, Rely t o o' → SharedOk o' s →
      (notes ≠ [] → ∀ c, seen b = some c → s.fs.disk b = c) → (∀ ino, .freedInode ino ∉ notes) →
      ∃ o'', SharedOk o'' ⟨s.fs.write b buf, notes ++ s.log⟩ ∧ Later o' o'' ∧
        (∀ u, u ≠ t → Rely u o' o'') ∧ ∀ seen', protocol.Safe t post (f ()) o'' seen') :
    protocol.Safe t post (blockWrite b buf notes >>= f) o seen := by
  intro o' hrely s hinv hadmits
  obtain ⟨o'', hinv', hlater, hothers, hrest⟩ := h o' s hrely hinv hadmits.1 hadmits.2
  exact ⟨o'', hinv', hlater, hothers, hrest _⟩

/-- A write that leaves every block with its owner. -/
theorem safe_blockWrite_same {b : Nat} {buf : Buf} {notes : List Note} {f : Unit → FsProg α}
    (h : ∀ o' s, Rely t o o' → SharedOk o' s →
      (notes ≠ [] → ∀ c, seen b = some c → s.fs.disk b = c) → (∀ ino, .freedInode ino ∉ notes) →
      SharedOk o' ⟨s.fs.write b buf, notes ++ s.log⟩ ∧
        ∀ seen', protocol.Safe t post (f ()) o' seen') :
    protocol.Safe t post (blockWrite b buf notes >>= f) o seen :=
  safe_blockWrite fun o' s hrely hinv hdisk hkeeps =>
    ⟨o', (h o' s hrely hinv hdisk hkeeps).1, Later.refl o', fun u _ => Rely.refl u o',
      (h o' s hrely hinv hdisk hkeeps).2⟩

/-- A request that leaves the disk alone. -/
theorem safe_request {r : Request} {f : r.Answer → FsProg α}
    (hdisk : ∀ s, (r.exec s).2.fs.disk = s.fs.disk ∧ (r.exec s).2.fs.sb = s.fs.sb ∧
      (r.exec s).2.log = s.log)
    (h : ∀ o' seen' c, Later o o' → protocol.Safe t post (f c) o' seen') :
    protocol.Safe t post (request r >>= f) o seen := by
  intro o' hrely s hinv _
  obtain ⟨hd, hsb, hlog⟩ := hdisk s
  have hkept : SharedOk o' (r.exec s).2 := by
    obtain ⟨htables, hdentries⟩ := hinv
    constructor
    · constructor
      · rw [hsb]
        exact htables.sb
      · rw [hd]
        exact htables.inodes
      · rw [hd]
        exact htables.owned
      · rw [hd]
        exact htables.reserved
      · rw [hlog]
        exact htables.blocks_nodup
      · rw [hlog]
        exact htables.blocks_owned
      · rw [hlog]
        exact htables.inodes_nodup
      · rw [hlog, hd]
        exact htables.inodes_used
    · rw [hlog, hd]
      exact hdentries
  exact ⟨o', hkept, Later.refl o', fun u _ => Rely.refl u o', h o' _ _ hrely.later⟩

theorem learn_read {b : Nat} (hb : b < diskBlocks) (buf c : Buf) (seen : Seen) :
    Request.learn (.read b buf) c seen b = some c := by
  simp only [Request.learn]
  rw [if_neg (by omega), Function.update_self]

/-- `sfs_alloc_inode` returns neither 0 nor the root. -/
theorem safe_sfsAllocInode :
    protocol.Safe t (fun _ _ r => ∀ ino, r = some ino → rootIno < ino ∧ ino < maxInodes)
      (sfsAllocInode SuperBlock.new) o seen := by
  apply safe_blockRead
  intro o₁ s₁ _ hinv₁
  rw [blockRead_lt (by decide)]
  have hseen := learn_read (show inodeBitmapBlock < diskBlocks by decide) uninit
    (s₁.fs.disk inodeBitmapBlock) seen
  cases hfind : Bitmap.findFirstZero (s₁.fs.disk SuperBlock.new.inodeBitmapStart)
      (int32 SuperBlock.new.inodeCount).toNat with
  | none => exact Protocol.Safe.ret (by simp)
  | some ino =>
      obtain ⟨hlt, hzero, -⟩ := Bitmap.findFirstZero_eq_some hfind
      have hroot : rootIno < ino := by
        by_contra hle
        have hused := hinv₁.tables.reserved ino (by omega)
        exact Bool.noConfusion (hzero.symm.trans hused)
      apply safe_blockWrite_same
      intro o₂ s₂ _ hinv₂ hdisk _
      -- the bitmap is still the one that was searched
      have hsame : s₂.fs.disk SuperBlock.new.inodeBitmapStart =
          s₁.fs.disk SuperBlock.new.inodeBitmapStart :=
        hdisk (List.cons_ne_nil _ _) _ hseen
      rw [← hsame] at hzero ⊢
      refine ⟨hinv₂.takeInode hzero, fun seen' => Protocol.Safe.ret ?_⟩
      intro _ _ i hi
      cases hi
      exact ⟨hroot, hlt⟩

/-- No run in question gives an inode back. -/
theorem safe_sfsFreeInode (ino : Nat) :
    protocol.Safe t (fun _ _ _ => True) (sfsFreeInode SuperBlock.new ino) o seen := by
  unfold sfsFreeInode
  split
  · exact Protocol.Safe.ret fun _ _ => trivial
  · apply safe_blockRead_any
    intro o' seen' bitmap _
    change protocol.Safe t _ (blockWrite _ _ [.freedInode ino] >>= fun _ => pure ()) o' seen'
    apply safe_blockWrite
    intro _ _ _ _ _ hkeeps
    exact absurd List.mem_cons_self (hkeeps ino)

theorem isIno_of_guard {ino : Nat} (h : ¬(ino = 0 ∨ maxInodes ≤ ino)) : IsIno ino := by
  rw [not_or, not_le] at h
  exact h

/-- `sfs_read_inode` returns a version of the inode. -/
theorem safe_sfsReadInode (ino : Nat) :
    protocol.Safe t (fun o' _ r => ∀ inode, r = some inode → IsIno ino ∧ InodeOk o' ino inode)
      (sfsReadInode SuperBlock.new ino) o seen := by
  unfold sfsReadInode
  split
  · exact Protocol.Safe.ret (by simp)
  · next hguard =>
      have hino := isIno_of_guard hguard
      have hlt : tableBlock ino < diskBlocks := by
        have hcases := tableBlock_cases hino
        unfold diskBlocks
        omega
      rw [inodeBlock_new hino]
      apply safe_blockRead
      intro o₁ s₁ _ hinv₁
      rw [blockRead_lt hlt]
      apply Protocol.Safe.ret
      intro o₂ hlater inode hinode
      cases hinode
      exact ⟨hino, (hinv₁.tables.inodes ino hino).later hlater⟩

theorem safe_sfsWriteInode {ino : Nat} {inode : Inode} (hino : IsIno ino)
    (hinode : InodeOk o ino inode) :
    protocol.Safe t (fun _ _ _ => True) (sfsWriteInode SuperBlock.new inode) o seen := by
  unfold sfsWriteInode
  split
  · exact Protocol.Safe.ret fun _ _ => trivial
  · next hguard =>
      have hnumber : inode.ino = ino := by
        rcases hinode.number with hzero | hnumber
        · exact absurd (.inl hzero) hguard
        · exact hnumber
      have hcases := tableBlock_cases hino
      rw [hnumber, inodeBlock_new hino]
      apply safe_blockRead
      intro o₁ s₁ hrely₁ hinv₁
      rw [blockRead_lt (by unfold diskBlocks; omega)]
      have htable : TableOk o₁ (tableBlock ino) (s₁.fs.disk (tableBlock ino)) := by
        intro j hj hblock
        rw [← hblock]
        exact hinv₁.tables.inodes j hj
      have hnew := htable.replace hino (hinode.later hrely₁.later)
      change protocol.Safe t _ (blockWrite _ _ [] >>= fun _ => pure ()) o₁ _
      apply safe_blockWrite_same
      intro o₂ s₂ hrely₂ hinv₂ _ _
      exact ⟨hinv₂.writeTable hcases (hnew.later hrely₂.later),
        fun _ => Protocol.Safe.ret fun _ _ => trivial⟩

/-- `sfs_alloc_block` for a file, or for the directory by the task itself. -/
theorem safe_sfsAllocBlock {w : Owner} (hw : w = .file ∨ w = .fresh t) :
    protocol.Safe t (fun o' _ r => ∀ b, r = some b → o' b = w ∧ IsData b)
      (sfsAllocBlock SuperBlock.new) o seen := by
  have hne : w ≠ .free := by
    rintro rfl
    rcases hw with hw | hw <;> exact Owner.noConfusion hw
  apply safe_blockRead
  intro o₁ s₁ _ hinv₁
  rw [blockRead_lt (by decide)]
  have hseen := learn_read (show blockBitmapBlock < diskBlocks by decide) uninit
    (s₁.fs.disk blockBitmapBlock) seen
  cases hfind : Bitmap.findFirstZero (s₁.fs.disk SuperBlock.new.blockBitmapStart)
      (int32 SuperBlock.new.totalBlocks).toNat with
  | none => exact Protocol.Safe.ret (by simp)
  | some idx =>
      obtain ⟨hlt, hzero, -⟩ := Bitmap.findFirstZero_eq_some hfind
      dsimp only
      by_cases hstart : (idx : Int) < int32 SuperBlock.new.dataBlockStart
      · rw [if_pos hstart]
        exact Protocol.Safe.ret (by simp)
      · rw [if_neg hstart]
        have hdata : IsData idx := by
          have hint : int32 SuperBlock.new.dataBlockStart = dataBlockStart := by decide
          rw [hint] at hstart
          exact ⟨by omega, hlt⟩
        apply safe_blockWrite
        intro o₂ s₂ _ hinv₂ hdisk _
        have hsame : s₂.fs.disk SuperBlock.new.blockBitmapStart =
            s₁.fs.disk SuperBlock.new.blockBitmapStart :=
          hdisk (List.cons_ne_nil _ _) _ hseen
        rw [← hsame] at hzero ⊢
        obtain ⟨hfree, hinv₃⟩ := hinv₂.takeBlock hzero hdata hne
        have hkept : ∀ b, o₂ b ≠ .free → Function.update o₂ idx w b = o₂ b := by
          intro b hb
          apply Function.update_of_ne
          rintro rfl
          exact hb hfree
        refine ⟨_, hinv₃, ?_, ?_, ?_⟩
        · intro b hb
          apply hkept
          rcases hb with hb | hb <;> rw [hb] <;> exact Owner.noConfusion
        · intro u _ b hb
          apply hkept
          rcases hb with (hb | hb) | hb <;> rw [hb] <;> exact Owner.noConfusion
        · intro seen' o₃ hrely b hb
          cases hb
          have hown : Function.update o₂ idx w idx = w := Function.update_self _ _ _
          refine ⟨?_, hdata⟩
          rw [hrely idx ?_, hown]
          rw [hown]
          rcases hw with hw | hw
          · exact .inl (.inl hw)
          · exact .inr hw

theorem safe_lookupLoop (dir : Inode) (name : CStr) (n bi : Nat) (block : Buf) :
    protocol.Safe t (fun _ _ _ => True) (lookupLoop dir name n bi block) o seen := by
  induction n generalizing bi block o seen with
  | zero => exact Protocol.Safe.ret fun _ _ => trivial
  | succ n ih =>
      unfold lookupLoop
      apply safe_blockRead_any
      intro o' seen' block' _
      cases lookupBlock block' name with
      | some ino => exact Protocol.Safe.ret fun _ _ => trivial
      | none => exact ih (bi + 1) block'

theorem safe_sfsLookup (dirIno : Nat) (name : CStr) :
    protocol.Safe t (fun _ _ _ => True) (sfsLookup SuperBlock.new dirIno name) o seen := by
  unfold sfsLookup
  apply Protocol.Safe.bind
  apply (safe_sfsReadInode dirIno).mono
  intro o₁ seen₁ r _ _
  cases r with
  | none => exact Protocol.Safe.ret fun _ _ => trivial
  | some dir =>
      dsimp only
      split
      · exact Protocol.Safe.ret fun _ _ => trivial
      · apply Protocol.Safe.bind
        apply (safe_lookupLoop dir name _ _ _).mono
        intro o₂ seen₂ r₂ _ _
        cases r₂ with
        | none => exact Protocol.Safe.ret fun _ _ => trivial
        | some ino => exact Protocol.Safe.ret fun _ _ => trivial

/-- What the search for a free entry comes back with: a place in a block of the directory that
the call has just read, or the last entry it has read. -/
def Found (dir : Inode) (seen : Seen) : Slot ⊕ Dentry → Prop
  | .inl slot => slot.bi < dir.blockCount ∧ seen (dir.blocks slot.bi) = some slot.block ∧
      (Dentry.decode slot.block (slot.di * dentryBytes)).ino = 0 ∧ slot.d.Packed
  | .inr d => d.Packed

theorem safe_freeLoop {dir : Inode} (hdir : InodeOk o rootIno dir) {n bi : Nat}
    (hn : bi + n = dir.blockCount) (block : Buf) {d : Dentry} (hd : d.Packed) :
    protocol.Safe t (fun _ seen' r => Found dir seen' r) (freeLoop dir n bi block d) o seen := by
  induction n generalizing bi block d o seen with
  | zero => exact Protocol.Safe.ret fun _ _ => hd
  | succ n ih =>
      unfold freeLoop
      apply safe_blockRead
      intro o₁ s₁ hrely₁ hinv₁
      have hdir₁ := hdir.later hrely₁.later
      have hown := hdir₁.root_blocks rfl bi (by omega)
      have hdata := (hinv₁.tables.owned (dir.blocks bi) (by rw [hown]; exact Owner.noConfusion)).1
      rw [blockRead_lt hdata.2]
      cases hfree : freeInBlock (s₁.fs.disk (dir.blocks bi)) dentriesPerBlock 0 d with
      | inl r =>
          obtain ⟨di, d'⟩ := r
          obtain ⟨-, -, hd', hzero, -⟩ := freeInBlock_inl hfree
          have hbi : bi < dir.blockCount := by omega
          apply Protocol.Safe.ret
          intro _ _
          refine ⟨hbi, learn_read hdata.2 _ _ _, ?_, ?_⟩
          · rw [← hd']
            exact hzero
          · rw [hd']
            exact Dentry.packed_decode _ _
      | inr d' =>
          apply ih hdir₁ (by omega)
          rw [(freeInBlock_inr hfree).2 (by decide)]
          exact Dentry.packed_decode _ _

/-- The directory takes one more block. -/
theorem InodeOk.extend {dir : Inode} {b : Nat} (h : InodeOk o rootIno dir)
    (hfull : ¬sfsDirectBlocks ≤ dir.blockCount) (hdata : IsData b) (hb : o b = .dir) :
    InodeOk o rootIno { dir with
      blocks := Function.update dir.blocks dir.blockCount b
      blockCount := u32 (dir.blockCount + 1) } := by
  have hcount : u32 (dir.blockCount + 1) = dir.blockCount + 1 := by
    apply u32_of_lt
    have hdirect : sfsDirectBlocks = 12 := rfl
    omega
  rw [hcount]
  constructor
  · exact h.packed.extend (not_le.mp hfull) hdata.lt_u32
  · exact h.number
  · change dir.blockCount + 1 ≤ _
    omega
  · exact h.root_type
  · intro _ i hi
    have hle : i < dir.blockCount + 1 := hi
    by_cases heq : i = dir.blockCount
    · subst heq
      simpa using hb
    · simpa [heq] using h.root_blocks rfl i (by omega)
  · intro hne
    exact absurd rfl hne

/-- The new entry goes to a place that no call has written, and the directory keeps its blocks. -/
theorem safe_addDentry {dir : Inode} (hdir : InodeOk o rootIno dir) {newIno : Nat}
    (hino : rootIno < newIno ∧ newIno < maxInodes) (name : CStr) :
    protocol.Safe t (fun o' _ r => ∀ dir', r = some dir' → InodeOk o' rootIno dir')
      (addDentry SuperBlock.new dir newIno name) o seen := by
  have hlt : newIno < 2 ^ 32 := by
    have hmax : maxInodes = 134 := rfl
    omega
  have hlive : newIno ≠ 0 := by omega
  unfold addDentry
  apply Protocol.Safe.bind
  apply (safe_freeLoop hdir (Nat.zero_add _) uninit ⟨by decide, fun _ _ => rfl⟩).mono
  intro o₁ seen₁ r hfound hlater₁
  have hdir₁ := hdir.later hlater₁
  cases r with
  | inl slot =>
      obtain ⟨hbi, hseen, hplace, hpacked⟩ := hfound
      apply safe_blockWrite_same
      intro o₂ s₂ hrely₂ hinv₂ hdisk _
      have hdir₂ := hdir₁.later hrely₂.later
      have hsame := hdisk (List.cons_ne_nil _ _) _ hseen
      rw [← hsame] at hplace ⊢
      refine ⟨hinv₂.enter (hdir₂.root_blocks rfl _ hbi) hplace (hpacked.assign hlt name) hlive, ?_⟩
      intro _
      apply Protocol.Safe.ret
      intro o₃ hlater₃ dir' hdir'
      cases hdir'
      exact hdir₂.later hlater₃
  | inr d =>
      have hpacked : d.Packed := hfound
      dsimp only
      by_cases hfull : sfsDirectBlocks ≤ dir.blockCount
      · rw [if_pos hfull]
        exact Protocol.Safe.ret (by simp)
      · rw [if_neg hfull]
        apply Protocol.Safe.bind
        apply (safe_sfsAllocBlock (.inr rfl)).mono
        intro o₂ seen₂ r hblock hlater₂
        cases r with
        | none => exact Protocol.Safe.ret (by simp)
        | some newBlock =>
            obtain ⟨hfresh, hdata⟩ := hblock newBlock rfl
            apply safe_blockWrite
            intro o₃ s₃ hrely₃ hinv₃ _ _
            have hfresh₃ : o₃ newBlock = .fresh t := by
              rw [hrely₃ newBlock (.inr hfresh), hfresh]
            have hkept : ∀ b, o₃ b ≠ .fresh t → Function.update o₃ newBlock .dir b = o₃ b := by
              intro b hb
              apply Function.update_of_ne
              rintro rfl
              exact hb hfresh₃
            have hlater₃ : Later o₃ (Function.update o₃ newBlock .dir) := by
              intro b hb
              apply hkept
              rcases hb with hb | hb <;> rw [hb] <;> exact Owner.noConfusion
            refine ⟨_, hinv₃.enterFresh hfresh₃ (hpacked.assign hlt name) hlive, hlater₃, ?_, ?_⟩
            · intro u hu b hb
              apply hkept
              rcases hb with (hb | hb) | hb
              · rw [hb]
                exact Owner.noConfusion
              · rw [hb]
                exact Owner.noConfusion
              · rw [hb]
                intro heq
                exact hu (Owner.fresh.inj heq)
            · intro _
              apply Protocol.Safe.ret
              intro o₄ hlater₄ dir' hdir'
              cases hdir'
              have hdir₃ := ((hdir₁.later hlater₂).later hrely₃.later).later hlater₃
              exact (hdir₃.extend hfull hdata (Function.update_self _ _ _)).later hlater₄

theorem inodeOk_fresh (o : Owners) {ino : Nat} (h : rootIno < ino ∧ ino < maxInodes) :
    InodeOk o ino (Inode.fresh ino) where
  packed := by
    apply Inode.packed_fresh
    have hmax : maxInodes = 134 := rfl
    omega
  number := .inr rfl
  count_le := Nat.zero_le _
  root_type := by
    intro hroot
    omega
  root_blocks := by
    intro hroot
    omega
  file_blocks := fun _ _ => .inl rfl

theorem InodeOk.resize {ino : Nat} {inode : Inode} (h : InodeOk o ino inode) (n : Nat) :
    InodeOk o ino { inode with size := u32 n } :=
  ⟨h.packed.resize n, h.number, h.count_le, h.root_type, h.root_blocks, h.file_blocks⟩

theorem safe_sfsCreate (name : CStr) :
    protocol.Safe t (fun _ _ _ => True) (sfsCreate SuperBlock.new rootIno name sfsFile) o seen := by
  unfold sfsCreate
  apply Protocol.Safe.bind
  apply (safe_sfsReadInode rootIno).mono
  intro o₁ seen₁ r hparent _
  cases r with
  | none => exact Protocol.Safe.ret fun _ _ => trivial
  | some parent =>
      obtain ⟨hroot, hparent₁⟩ := hparent parent rfl
      dsimp only
      split
      · exact Protocol.Safe.ret fun _ _ => trivial
      · apply Protocol.Safe.bind
        apply (safe_sfsLookup rootIno name).mono
        intro o₂ seen₂ found _ hlater₂
        split
        · exact Protocol.Safe.ret fun _ _ => trivial
        · apply Protocol.Safe.bind
          apply safe_sfsAllocInode.mono
          intro o₃ seen₃ r hnew hlater₃
          cases r with
          | none => exact Protocol.Safe.ret fun _ _ => trivial
          | some newIno =>
              have hnewIno := hnew newIno rfl
              have hisIno : IsIno newIno := ⟨by omega, hnewIno.2⟩
              have hparent₃ := (hparent₁.later hlater₂).later hlater₃
              -- a file has no block of its own yet
              change protocol.Safe t _ (sfsWriteInode SuperBlock.new (Inode.fresh newIno) >>=
                fun _ => _) o₃ seen₃
              apply Protocol.Safe.bind
              apply (safe_sfsWriteInode hisIno (inodeOk_fresh o₃ hnewIno)).mono
              intro o₄ seen₄ _ _ hlater₄
              apply Protocol.Safe.bind
              apply (safe_addDentry (hparent₃.later hlater₄) hnewIno name).mono
              intro o₅ seen₅ r hadd _
              cases r with
              | none =>
                  apply Protocol.Safe.bind
                  apply (safe_sfsFreeInode newIno).mono
                  intro _ _ _ _ _
                  exact Protocol.Safe.ret fun _ _ => trivial
              | some parent' =>
                  apply Protocol.Safe.bind
                  apply (safe_sfsWriteInode hroot ((hadd parent' rfl).resize _)).mono
                  intro _ _ _ _ _
                  exact Protocol.Safe.ret fun _ _ => trivial

theorem safe_readLoop (inode : Inode) (size offset fuel n : Nat) (block buf : Buf) :
    protocol.Safe t (fun _ _ _ => True) (readLoop inode size offset fuel n block buf) o seen := by
  induction fuel generalizing n block buf o seen with
  | zero => exact Protocol.Safe.ret fun _ _ => trivial
  | succ fuel ih =>
      unfold readLoop
      split
      · exact Protocol.Safe.ret fun _ _ => trivial
      · dsimp only
        split
        · exact Protocol.Safe.ret fun _ _ => trivial
        · apply safe_blockRead_any
          intro o' seen' block' _
          exact ih _ _ _

theorem safe_sfsReadFile (inode : Inode) (buf : Buf) (size offset : Nat) :
    protocol.Safe t (fun _ _ _ => True) (sfsReadFile inode buf size offset) o seen := by
  unfold sfsReadFile
  split
  · exact Protocol.Safe.ret fun _ _ => trivial
  · exact safe_readLoop _ _ _ _ _ _ _

/-- A file takes a block at an index that may lie behind its last block: an older version of
the inode may have been written back since the offset moved on. -/
theorem InodeOk.place {ino : Nat} {inode : Inode} (h : InodeOk o ino inode) (hne : ino ≠ rootIno)
    {idx b : Nat} (hend : inode.blockCount ≤ idx) (hidx : ¬sfsDirectBlocks ≤ idx)
    (hdata : IsData b) (hb : o b = .file) :
    InodeOk o ino { inode with
      blocks := Function.update inode.blocks idx b
      blockCount := u32 (inode.blockCount + 1) } := by
  have hdirect : sfsDirectBlocks = 12 := rfl
  have hcount : u32 (inode.blockCount + 1) = inode.blockCount + 1 := by
    apply u32_of_lt
    omega
  have hpacked := h.packed.place (not_le.mp hidx) hdata.lt_u32 (inode.blockCount + 1)
  rw [hcount] at hpacked ⊢
  constructor
  · exact hpacked
  · exact h.number
  · change inode.blockCount + 1 ≤ _
    omega
  · exact h.root_type
  · intro hroot
    exact absurd hroot hne
  · intro _ i
    by_cases hi : i = idx
    · subst hi
      right
      simpa using hb
    · simpa [hi] using h.file_blocks hne i

theorem safe_ensureBlock {ino : Nat} {inode : Inode} (h : InodeOk o ino inode)
    (hne : ino ≠ rootIno) (idx : Nat) :
    protocol.Safe t (fun o' _ r => ∀ inode', r = some inode' → InodeOk o' ino inode')
      (ensureBlock SuperBlock.new inode idx) o seen := by
  unfold ensureBlock
  by_cases hend : inode.blockCount ≤ idx
  · rw [if_pos hend]
    by_cases hidx : sfsDirectBlocks ≤ idx
    · rw [if_pos hidx]
      exact Protocol.Safe.ret (by simp)
    · rw [if_neg hidx]
      apply Protocol.Safe.bind
      apply (safe_sfsAllocBlock (.inl rfl)).mono
      intro o₁ seen₁ r hblock hlater₁
      cases r with
      | none => exact Protocol.Safe.ret (by simp)
      | some b =>
          obtain ⟨hfile, hdata⟩ := hblock b rfl
          apply Protocol.Safe.ret
          intro o₂ hlater₂ inode' hinode'
          cases hinode'
          exact ((h.later hlater₁).place hne hend hidx hdata hfile).later hlater₂
  · rw [if_neg hend]
    apply Protocol.Safe.ret
    intro o₂ hlater₂ inode' hinode'
    cases hinode'
    exact h.later hlater₂

theorem safe_writeLoop {ino : Nat} {inode : Inode} (h : InodeOk o ino inode)
    (hne : ino ≠ rootIno) (buf : Buf) (size offset fuel n : Nat) (block : Buf) :
    protocol.Safe t (fun o' _ r => InodeOk o' ino r.1)
      (writeLoop SuperBlock.new buf size offset fuel inode n block) o seen := by
  induction fuel generalizing inode n block o seen with
  | zero => exact Protocol.Safe.ret fun _ hlater => h.later hlater
  | succ fuel ih =>
      unfold writeLoop
      split
      · exact Protocol.Safe.ret fun _ hlater => h.later hlater
      · dsimp only
        apply Protocol.Safe.bind
        apply (safe_ensureBlock h hne _).mono
        intro o₁ seen₁ r hensure hlater₁
        cases r with
        | none => exact Protocol.Safe.ret fun _ hlater => (h.later hlater₁).later hlater
        | some inode₁ =>
            have hinode₁ := hensure inode₁ rfl
            apply safe_blockRead_any
            intro o₂ seen₂ block₂ hlater₂
            have hinode₂ := hinode₁.later hlater₂
            apply safe_blockWrite_same
            intro o₃ s₃ hrely₃ hinv₃ _ _
            have hinode₃ := hinode₂.later hrely₃.later
            exact ⟨hinv₃.writeData (hinode₃.file_blocks hne _) _, fun _ => ih hinode₃ _ _⟩

theorem safe_sfsWriteFile {ino : Nat} {inode : Inode} (h : InodeOk o ino inode)
    (hne : ino ≠ rootIno) (buf : Buf) (size offset : Nat) :
    protocol.Safe t (fun o' _ r => InodeOk o' ino r.1)
      (sfsWriteFile SuperBlock.new inode buf size offset) o seen := by
  unfold sfsWriteFile
  apply Protocol.Safe.bind
  apply (safe_writeLoop h hne buf size offset size 0 uninit).mono
  intro o₁ seen₁ r hinode₁ _
  apply Protocol.Safe.ret
  intro o₂ hlater₂
  have hinode₂ := hinode₁.later hlater₂
  dsimp only
  split
  · exact hinode₂.resize _
  · exact hinode₂

theorem safe_sysOpen {s : FsState} (hsb : s.sb = SuperBlock.new) (path : Option CStr) :
    protocol.Safe t (fun _ _ _ => True) (sysOpen s path) o seen := by
  unfold sysOpen
  rw [hsb]
  split
  · exact Protocol.Safe.ret fun _ _ => trivial
  · cases pathParse path with
    | none => exact Protocol.Safe.ret fun _ _ => trivial
    | some name =>
        apply Protocol.Safe.bind
        apply (safe_sfsLookup rootIno name).mono
        intro o₁ seen₁ ino _ _
        split
        · exact Protocol.Safe.ret fun _ _ => trivial
        · apply safe_request
          · intro s
            simp only [Request.exec]
            split
            · exact ⟨rfl, rfl, rfl⟩
            · exact ⟨rfl, rfl, rfl⟩
          · intro o₂ seen₂ fd _
            cases fd with
            | none => exact Protocol.Safe.ret fun _ _ => trivial
            | some fd => exact Protocol.Safe.ret fun _ _ => trivial

theorem safe_sysRead {s : FsState} (hsb : s.sb = SuperBlock.new) (fd : Int) (buf : Buf)
    (count : Int) : protocol.Safe t (fun _ _ _ => True) (sysRead s fd buf count) o seen := by
  unfold sysRead
  rw [hsb]
  cases openFile s fd with
  | none => exact Protocol.Safe.ret fun _ _ => trivial
  | some file =>
      apply Protocol.Safe.bind
      apply (safe_sfsReadInode file.ino).mono
      intro o₁ seen₁ r _ _
      cases r with
      | none => exact Protocol.Safe.ret fun _ _ => trivial
      | some inode =>
          apply safe_request (fun _ => ⟨rfl, rfl, rfl⟩)
          intro o₂ seen₂ offset _
          apply Protocol.Safe.bind
          apply (safe_sfsReadFile inode buf _ offset).mono
          intro o₃ seen₃ r _ _
          apply safe_request (fun _ => ⟨rfl, rfl, rfl⟩)
          intro o₄ seen₄ _ _
          exact Protocol.Safe.ret fun _ _ => trivial

theorem safe_sysWrite {s : FsState} (hsb : s.sb = SuperBlock.new) {fd : Int}
    (hroot : ∀ file, openFile s fd = some file → file.ino ≠ rootIno) (buf : Buf) (count : Int) :
    protocol.Safe t (fun _ _ _ => True) (sysWrite s fd buf count) o seen := by
  unfold sysWrite
  rw [hsb]
  cases hfile : openFile s fd with
  | none => exact Protocol.Safe.ret fun _ _ => trivial
  | some file =>
      have hne := hroot file hfile
      apply Protocol.Safe.bind
      apply (safe_sfsReadInode file.ino).mono
      intro o₁ seen₁ r hread _
      cases r with
      | none => exact Protocol.Safe.ret fun _ _ => trivial
      | some inode =>
          obtain ⟨hino, hinode₁⟩ := hread inode rfl
          apply safe_request (fun _ => ⟨rfl, rfl, rfl⟩)
          intro o₂ seen₂ offset hlater₂
          apply Protocol.Safe.bind
          apply (safe_sfsWriteFile (hinode₁.later hlater₂) hne buf _ offset).mono
          intro o₃ seen₃ r hinode₃ _
          apply safe_request (fun _ => ⟨rfl, rfl, rfl⟩)
          intro o₄ seen₄ _ hlater₄
          apply Protocol.Safe.bind
          apply (safe_sfsWriteInode hino (hinode₃.later hlater₄)).mono
          intro _ _ _ _ _
          exact Protocol.Safe.ret fun _ _ => trivial

/-- The calls that do not write to a directory through a descriptor. -/
def CallOk (s : Shared) : FsAct → Prop
  | .write fd _ _ => NotDir s.fs fd
  | _ => True

theorem SharedOk.ino_ne_root {s : Shared} (h : SharedOk o s) {fd : Int} (hok : NotDir s.fs fd)
    {file : File} (hfile : openFile s.fs fd = some file) : file.ino ≠ rootIno := by
  intro hroot
  have hino : IsIno rootIno := by decide
  have htype := (h.tables.inodes rootIno hino).root_type rfl
  apply hok file _ hfile ?_ htype
  rw [hroot, sfsReadInode_eq h.tables.sb]
  rfl

/-- Every call is safe from the state it is made in. -/
theorem safe_fsCall {s : Shared} (h : SharedOk o s) {a : FsAct} (hok : CallOk s a) :
    protocol.Safe t (fun _ _ _ => True) (fsCall s.fs a) o seen := by
  have hsb := h.tables.sb
  cases a with
  | create name =>
      unfold fsCall
      rw [hsb]
      apply Protocol.Safe.bind
      apply (safe_sfsCreate name).mono
      intro _ _ _ _ _
      exact Protocol.Safe.ret fun _ _ => trivial
  | «open» path => exact safe_sysOpen hsb path
  | read fd buf count =>
      apply Protocol.Safe.bind
      apply (safe_sysRead hsb fd buf count).mono
      intro _ _ _ _ _
      exact Protocol.Safe.ret fun _ _ => trivial
  | write fd buf count =>
      exact safe_sysWrite hsb (fun _ hfile => h.ino_ne_root hok hfile) buf count
  | close fd =>
      apply Protocol.Safe.bind
      unfold sysClose
      split
      · intro _ _ _
        exact Protocol.Safe.ret fun _ _ => trivial
      · change protocol.Safe t _ (request (.close fd.toNat) >>= fun _ => pure ()) o seen
        apply safe_request (fun _ => ⟨rfl, rfl, rfl⟩)
        intro _ _ _ _ _ _ _
        exact Protocol.Safe.ret fun _ _ => trivial

end SRos.Fs.Requests
