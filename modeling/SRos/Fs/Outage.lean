import SRos.Fs.Crash

/-!
# The disk wherever a call is cut off

`Leaves good p s` says that the disk has the property `good` after each of the requests that the
program makes from `s` on. Reads keep the disk, and what a function writes is read off the model
of the whole call.
-/

namespace SRos.Fs.Requests

open Bytes

variable {α β : Type} {s s' : FsState} {good : Disk → Prop}

def Leaves (good : Disk → Prop) (p : FsProg α) (s : FsState) : Prop :=
  ∀ log, machine.Throughout (fun x => good x.fs.disk) p ⟨s, log⟩

theorem leaves_ret {a : α} (h : good s.disk) : Leaves good (.ret a) s :=
  fun _ => Machine.throughout_ret h

theorem Leaves.bind {p : FsProg β} {f : β → FsProg α} {b : β} (h : Leaves good p s)
    (hrun : ∀ log, ∃ log', machine.run p ⟨s, log⟩ = (b, ⟨s', log'⟩))
    (hrest : Leaves good (f b) s') : Leaves good (p >>= f) s := by
  intro log
  obtain ⟨log', heq⟩ := hrun log
  apply (h log).bind
  rw [heq]
  exact hrest log'

/-- A function that is done after `p`. -/
theorem Leaves.done {p : FsProg β} {f : β → FsProg α} (h : Leaves good p s)
    (hf : ∀ b, ∃ a, f b = .ret a) : Leaves good (p >>= f) s := by
  intro log
  apply (h log).bind
  obtain ⟨a, heq⟩ := hf (machine.run p ⟨s, log⟩).1
  rw [heq]
  exact Machine.throughout_ret (h log).finish

theorem leaves_blockRead {b : Nat} {buf : Buf} (h : good s.disk) :
    Leaves good (blockRead b buf) s :=
  fun _ => Machine.throughout_act h (Machine.throughout_ret h)

theorem leaves_blockWrite {b : Nat} {buf : Buf} {notes : List Note} (h : good s.disk)
    (hwrite : good (s.write b buf).disk) : Leaves good (blockWrite b buf notes) s :=
  fun _ => Machine.throughout_act h (Machine.throughout_ret hwrite)

/-! The entries of `file_table` are not on the disk. -/

theorem leaves_offset {fd : Nat} {f : Nat → FsProg α} (h : good s.disk)
    (hrest : Leaves good (f (s.files fd).offset) s) : Leaves good (request (.offset fd) >>= f) s :=
  fun log => Machine.throughout_act h (hrest log)

theorem leaves_advance {fd n : Nat} {f : Unit → FsProg α} (h : good s.disk)
    (hrest : Leaves good (f ()) (s.setFile fd
      { s.files fd with offset := u32 ((s.files fd).offset + n) })) :
    Leaves good (request (.advance fd n) >>= f) s :=
  fun log => Machine.throughout_act h (hrest log)

theorem leaves_close {fd : Nat} (h : good s.disk) : Leaves good (request (.close fd)) s :=
  fun _ => Machine.throughout_act h (Machine.throughout_ret h)

/-! ## Functions that only read -/

theorem leaves_sfsReadInode (h : good s.disk) (ino : Nat) :
    Leaves good (sfsReadInode s.sb ino) s := by
  unfold sfsReadInode
  split
  · exact leaves_ret h
  · exact (leaves_blockRead h).bind (alone_blockRead s _ _).run (leaves_ret h)

theorem leaves_lookupLoop (h : good s.disk) (dir : Inode) (name : CStr) (n bi : Nat)
    (block : Buf) : Leaves good (lookupLoop dir name n bi block) s := by
  induction n generalizing bi block with
  | zero => exact leaves_ret h
  | succ n ih =>
      unfold lookupLoop
      apply (leaves_blockRead h).bind (alone_blockRead s _ _).run
      split
      · exact leaves_ret h
      · exact ih _ _

theorem leaves_sfsLookup (h : good s.disk) (dirIno : Nat) (name : CStr) :
    Leaves good (sfsLookup s.sb dirIno name) s := by
  unfold sfsLookup
  apply (leaves_sfsReadInode h dirIno).bind (alone_sfsReadInode s dirIno).run
  split
  · exact leaves_ret h
  · next dir _ =>
      split
      · exact leaves_ret h
      · apply (leaves_lookupLoop h dir name _ _ _).bind (alone_lookupLoop s dir name _ _ _).run
        split
        · exact leaves_ret h
        · exact leaves_ret h

theorem leaves_freeLoop (h : good s.disk) (dir : Inode) (n bi : Nat) (block : Buf) (d : Dentry) :
    Leaves good (freeLoop dir n bi block d) s := by
  induction n generalizing bi block d with
  | zero => exact leaves_ret h
  | succ n ih =>
      unfold freeLoop
      apply (leaves_blockRead h).bind (alone_blockRead s _ _).run
      split
      · exact leaves_ret h
      · exact ih _ _ _

theorem leaves_readLoop (h : good s.disk) (inode : Inode) (size offset fuel n : Nat)
    (block buf : Buf) : Leaves good (readLoop inode size offset fuel n block buf) s := by
  induction fuel generalizing n block buf with
  | zero => exact leaves_ret h
  | succ fuel ih =>
      unfold readLoop
      split
      · exact leaves_ret h
      · dsimp only
        split
        · exact leaves_ret h
        · exact (leaves_blockRead h).bind (alone_blockRead s _ _).run (ih _ _ _)

theorem leaves_sfsReadFile (h : good s.disk) (inode : Inode) (buf : Buf) (size offset : Nat) :
    Leaves good (sfsReadFile inode buf size offset) s := by
  unfold sfsReadFile
  split
  · exact leaves_ret h
  · exact leaves_readLoop h _ _ _ _ _ _ _

/-! ## Functions that write -/

theorem leaves_sfsAllocInode (h : good s.disk)
    (hsome : ∀ ino s', Fs.sfsAllocInode s = some (ino, s') → good s'.disk) :
    Leaves good (sfsAllocInode s.sb) s := by
  unfold sfsAllocInode
  unfold Fs.sfsAllocInode at hsome
  apply (leaves_blockRead h).bind (alone_blockRead s _ _).run
  split
  · exact leaves_ret h
  · next ino hfind =>
      have hwrite := hsome ino _ (by simp only [hfind]; rfl)
      exact (leaves_blockWrite h hwrite).bind (alone_blockWrite s _ _ _).run (leaves_ret hwrite)

theorem leaves_sfsAllocBlock (h : good s.disk)
    (hsome : ∀ b s', Fs.sfsAllocBlock s = some (b, s') → good s'.disk) :
    Leaves good (sfsAllocBlock s.sb) s := by
  unfold sfsAllocBlock
  unfold Fs.sfsAllocBlock at hsome
  apply (leaves_blockRead h).bind (alone_blockRead s _ _).run
  split
  · exact leaves_ret h
  · next b hfind =>
      split
      · exact leaves_ret h
      · next hlow =>
          have hwrite := hsome b _ (by simp only [hfind, if_neg hlow]; rfl)
          exact (leaves_blockWrite h hwrite).bind (alone_blockWrite s _ _ _).run (leaves_ret hwrite)

theorem leaves_sfsFreeInode (h : good s.disk) {ino : Nat} (hfree : good (Fs.sfsFreeInode s ino).disk) :
    Leaves good (sfsFreeInode s.sb ino) s := by
  unfold sfsFreeInode
  unfold Fs.sfsFreeInode at hfree
  split
  · exact leaves_ret h
  · next hskip =>
      rw [if_neg hskip] at hfree
      exact (leaves_blockRead h).bind (alone_blockRead s _ _).run (leaves_blockWrite h hfree)

theorem leaves_sfsWriteInode (h : good s.disk) {inode : Inode}
    (hwrite : good (Fs.sfsWriteInode s inode).disk) : Leaves good (sfsWriteInode s.sb inode) s := by
  unfold sfsWriteInode
  unfold Fs.sfsWriteInode at hwrite
  split
  · exact leaves_ret h
  · next hskip =>
      rw [if_neg hskip] at hwrite
      exact (leaves_blockRead h).bind (alone_blockRead s _ _).run (leaves_blockWrite h hwrite)

/-- A new entry is written to a free place, or a block is taken for it first. -/
theorem leaves_addDentry (h : good s.disk) {dir : Inode} {newIno : Nat} {name : CStr}
    (hblock : ∀ b s', Fs.sfsAllocBlock s = some (b, s') → good s'.disk)
    (hsome : ∀ dir' s', Fs.addDentry s dir newIno name = some (dir', s') → good s'.disk) :
    Leaves good (addDentry s.sb dir newIno name) s := by
  unfold addDentry
  unfold Fs.addDentry at hsome
  apply (leaves_freeLoop h dir _ _ _ _).bind (alone_freeLoop s dir _ _ _ _).run
  cases hfree : Fs.freeLoop s dir dir.blockCount 0 uninit Dentry.zero with
  | inl slot =>
      have hwrite := hsome _ _ (by simp only [hfree]; rfl)
      exact (leaves_blockWrite h hwrite).bind (alone_blockWrite s _ _ _).run (leaves_ret hwrite)
  | inr d =>
      dsimp only
      by_cases hfull : sfsDirectBlocks ≤ dir.blockCount
      · rw [if_pos hfull]
        exact leaves_ret h
      · rw [if_neg hfull]
        have halone := alone_sfsAllocBlock s
        cases halloc : Fs.sfsAllocBlock s with
        | none =>
            rw [halloc] at halone
            exact (leaves_sfsAllocBlock h hblock).bind halone.run (leaves_ret h)
        | some r =>
            obtain ⟨b, s₁⟩ := r
            rw [halloc] at halone
            have hwrite := hsome _ _ (by simp only [hfree, if_neg hfull, halloc]; rfl)
            exact (leaves_sfsAllocBlock h hblock).bind halone.run
              ((leaves_blockWrite (hblock b s₁ halloc) hwrite).bind
                (alone_blockWrite s₁ _ _ _).run (leaves_ret hwrite))

/-! ## Creating a file -/

/-- The disk after some of the writes of the call `a`, made in the state `s`. -/
structure After (used : Nat → Bool) (s : FsState) (a : FsAct) (d : Disk) : Prop where
  super : d 0 = s.disk 0
  sound : ∃ used', (∀ i, used i = true → used' i = true) ∧ Sound used' (image d)
  survives : Survives (IsUsed used (image s.disk)) s a (image s.disk) (image d)

variable {used : Nat → Bool} {a : FsAct} {d : Disk} {ino k : Nat} {name : CStr}

theorem after_of_same (hsuper : d 0 = s.disk 0) (hsound : Sound used (image d))
    (hroot : (image d).root = (image s.disk).root)
    (hdir : ∀ k < (image s.disk).root.blockCount,
      (image d).data ((image s.disk).root.blocks k) =
        (image s.disk).data ((image s.disk).root.blocks k))
    (hinode : ∀ i, IsUsed used (image s.disk) i → (image d).inode i = (image s.disk).inode i)
    (hdata : ∀ i, IsUsed used (image s.disk) i → ∀ k < ((image s.disk).inode i).blockCount,
      (image d).data (((image s.disk).inode i).blocks k) =
        (image s.disk).data (((image s.disk).inode i).blocks k)) : After used s a d :=
  ⟨hsuper, ⟨used, fun _ hi => hi, hsound⟩,
    survives_of_same (by rw [hroot]; exact .refl _) hdir hinode hdata⟩

theorem after_start (h : Sound used (image s.disk)) : After used s a s.disk :=
  after_of_same rfl h rfl (fun _ _ => rfl) (fun _ _ => rfl) fun _ _ _ _ => rfl

theorem after_added (h : Sound used (image s.disk)) (hsuper : d 0 = s.disk 0) (hino : IsIno ino)
    (hne : ino ≠ rootIno) (hfree : used ino = false) (hk : 2 ≤ k)
    (ha : Added (image s.disk) ino k (image d)) {e : Dentry}
    (hnew : slot (image d) (image d).root k = e.assign ino name) :
    After used s (.create name) d where
  super := hsuper
  sound := by
    refine ⟨Function.update used ino true, ?_, h.added hino hne hfree hk ha⟩
    intro i hi
    simp only [Function.update_apply]
    split
    · rfl
    · exact hi
  survives := survives_added h hfree ha hnew

/-- `addDentry` writes the block bitmap and blocks of the data area. -/
theorem addDentry_super (hsb : s.sb = SuperBlock.new) {dir dir' : Inode} (hdata : dir.OnData)
    (h : Fs.addDentry s dir ino name = some (dir', s')) : s'.disk 0 = s.disk 0 := by
  have hzero : ∀ b, IsData b → 0 ≠ b := by
    rintro b hb rfl
    exact absurd hb (by decide)
  unfold Fs.addDentry at h
  split at h
  · next slot hfree =>
      cases h
      obtain ⟨hbi, -⟩ := freeLoop_inl hdata (Nat.zero_add _) hfree
      exact write_disk_of_ne (hzero _ (hdata _ hbi)) _
  · split at h
    · cases h
    · split at h
      · cases h
      · next b s₁ halloc =>
          cases h
          obtain ⟨hb, -, -, ⟨buf, rfl⟩, -⟩ := sfsAllocBlock_some hsb halloc
          rw [write_disk_of_ne (hzero b hb), write_disk_of_ne (by decide)]

section Enter

variable {s₂ s₃ : FsState} {dir : Inode} {b : Nat}

/-- The new inode has been written, and its entry comes next. -/
structure Marked (used : Nat → Bool) (s : FsState) (ino : Nat) (name : CStr) (s₂ : FsState) :
    Prop where
  new : s.sb = SuperBlock.new
  sound : Sound used (image s.disk)
  first : FirstFree (image s.disk) ino
  sb : s₂.sb = s.sb
  newFile : image s₂.disk = (image s.disk).newFile ino
  after : After used s (.create name) s₂.disk

/-- The rest of `sfs_create`. -/
def enterFile (sb : SuperBlock) (dir : Inode) (ino : Nat) (name : CStr) : FsProg Int := do
  match ← addDentry sb dir ino name with
  | none =>
      sfsFreeInode sb ino
      return -1
  | some parent =>
      sfsWriteInode sb { parent with size := u32 (parent.size + dentryBytes) }
      return ino

namespace Marked

theorem sb_new (h : Marked used s ino name s₂) : s₂.sb = SuperBlock.new := h.sb.trans h.new

theorem unused (h : Marked used s ino name s₂) : used ino = false := h.sound.free h.first.free

theorem isIno (h : Marked used s ino name s₂) : IsIno ino ∧ ino ≠ rootIno :=
  h.first.isIno h.sound.rootOk.usable

theorem files (h : Marked used s ino name s₂) : Sound used ((image s.disk).newFile ino) :=
  (h.sound.markInode h.unused true).setFree h.unused _

theorem root (h : Marked used s ino name s₂) :
    ((image s.disk).newFile ino).root = (image s.disk).root := setInode_other _ _ h.isIno.2.symm

theorem others (h : Marked used s ino name s₂) {i : Nat} (hi : IsUsed used (image s.disk) i) :
    ((image s.disk).newFile ino).inode i = (image s.disk).inode i :=
  setInode_other _ _ (hi.ne_free h.unused)

/-- Only marks in the bitmaps have changed. -/
theorem after_marks (h : Marked used s ino name s₂) (hsuper : d 0 = s₂.disk 0)
    (hsound : Sound used (image d)) (hinode : (image d).inode = ((image s.disk).newFile ino).inode)
    (hdata : (image d).data = (image s.disk).data) : After used s (.create name) d := by
  apply after_of_same (hsuper.trans h.after.super) hsound
  · exact (congrFun hinode rootIno).trans h.root
  · exact fun _ _ => congrFun hdata _
  · exact fun i hi => (congrFun hinode i).trans (h.others hi)
  · exact fun _ _ _ _ => congrFun hdata _

/-- A block has been marked for the directory. -/
theorem after_useBlock (h : Marked used s ino name s₂)
    (halloc : Fs.sfsAllocBlock s₂ = some (b, s')) : After used s (.create name) s'.disk := by
  obtain ⟨-, -, -, ⟨buf, rfl⟩, himage⟩ := sfsAllocBlock_some h.sb_new halloc
  rw [h.newFile] at himage
  apply h.after_marks (write_disk_of_ne (by decide) _)
  all_goals rw [himage]
  · exact h.files.useBlock b
  · rfl
  · rfl

theorem after_freeInode (h : Marked used s ino name s₂) :
    After used s (.create name) (Fs.sfsFreeInode s₂ ino).disk := by
  obtain ⟨⟨buf, hwrite⟩, himage⟩ := sfsFreeInode_eq h.sb_new h.isIno.1
  rw [h.newFile] at himage
  apply h.after_marks
  · rw [hwrite]
    exact write_disk_of_ne (by decide) _
  all_goals rw [himage]
  · exact h.files.markInode h.unused false
  · rfl
  · rfl

/-- The directory has no room: the inode is given back. -/
theorem leaves_full (h : Marked used s ino name s₂)
    (hadd : Fs.addDentry s₂ (image s.disk).root ino name = none) :
    Leaves (After used s (.create name)) (enterFile s₂.sb (image s.disk).root ino name) s₂ := by
  have hnone := (alone_addDentry s₂ (image s.disk).root ino name).of_none hadd
  apply (leaves_addDentry h.after (fun _ _ => h.after_useBlock) ?_).bind hnone.run
  · exact (leaves_sfsFreeInode h.after h.after_freeInode).bind (alone_sfsFreeInode s₂ ino).run
      (leaves_ret h.after_freeInode)
  · intro dir' s' hsome
    rw [hadd] at hsome
    cases hsome

/-- The directory has the entry, and its new size comes last. -/
theorem leaves_entered (h : Marked used s ino name s₂)
    (hadd : Fs.addDentry s₂ (image s.disk).root ino name = some (dir, s₃)) (hsb : s₃.sb = s₂.sb)
    (hentry : After used s (.create name) s₃.disk)
    (hsize : After used s (.create name) (Fs.sfsWriteInode s₃
      { dir with size := u32 (dir.size + dentryBytes) }).disk) :
    Leaves (After used s (.create name)) (enterFile s₂.sb (image s.disk).root ino name) s₂ := by
  have hsome := (alone_addDentry s₂ (image s.disk).root ino name).of_some hadd
  apply (leaves_addDentry h.after (fun _ _ => h.after_useBlock) ?_).bind hsome.run
  · dsimp only
    rw [← hsb]
    exact (leaves_sfsWriteInode hentry hsize).bind (alone_sfsWriteInode s₃ _).run
      (leaves_ret hsize)
  · intro dir' s' hsome'
    rw [hadd] at hsome'
    cases hsome'
    exact hentry

theorem addDentry_super (h : Marked used s ino name s₂)
    (hadd : Fs.addDentry s₂ (image s.disk).root ino name = some (dir, s₃)) :
    s₃.disk 0 = s₂.disk 0 :=
  Requests.addDentry_super h.sb_new h.sound.rootOk.held.onData hadd

theorem after_entry (h : Marked used s ino name s₂) (hsuper : d 0 = s₂.disk 0) (hk : 2 ≤ k)
    (ha : Added (image s.disk) ino k (image d)) {e : Dentry}
    (hnew : slot (image d) (image d).root k = e.assign ino name) : After used s (.create name) d :=
  after_added h.sound (hsuper.trans h.after.super) h.isIno.1 h.isIno.2 h.unused hk ha hnew

theorem ino_lt (h : Marked used s ino name s₂) : ino < 2 ^ 32 := lt_trans h.first.lt (by decide)

/-- A free entry of the directory is taken. -/
theorem leaves_slot (h : Marked used s ino name s₂)
    (hadd : Fs.addDentry s₂ (image s.disk).root ino name = some ((image s.disk).root, s₃))
    (hk : k < slotCount (image s.disk).root)
    (hzero : (slot (image s.disk) (image s.disk).root k).ino = 0) (hsb : s₃.sb = s₂.sb)
    (himage : image s₃.disk = ((image s.disk).newFile ino).setData
      ((image s.disk).root.blocks (k / dentriesPerBlock))
      (splice ((image s.disk).data ((image s.disk).root.blocks (k / dentriesPerBlock)))
        (k % dentriesPerBlock * dentryBytes) dentryBytes
        ((slot (image s.disk) (image s.disk).root k).assign ino name).encode)) :
    Leaves (After used s (.create name)) (enterFile s₂.sb (image s.disk).root ino name) s₂ := by
  have hroot := h.sound.rootOk
  have hsb₃ := hsb.trans h.sb_new
  have hk2 := h.sound.two_le hzero
  have hsuper := h.addDentry_super hadd
  obtain ⟨hadded, hslot⟩ := @added_entry _ _ _ _ name hroot h.first hk hzero himage
  apply h.leaves_entered hadd hsb (h.after_entry hsuper hk2 hadded hslot)
  have hpacked := hroot.packed.resize ((image s.disk).root.size + dentryBytes)
  have himage₄ := image_sfsWriteInode hsb₃ hpacked hroot.ino_eq (by decide)
  rw [himage] at himage₄
  have hslot₄ := @slot_enter _ name hroot.held _ _ _ h.ino_lt hk hk
  rw [if_pos rfl] at hslot₄
  apply h.after_entry (k := k) ?_ hk2
  · rw [himage₄]
    exact added_enter hroot h.first hk hzero
  · rw [himage₄]
    exact hslot₄
  · rw [sfsWriteInode_disk_of_lt hsb₃ (by rw [hroot.ino_eq]; decide) (by decide), hsuper]

/-- The directory gets a new block. -/
theorem leaves_block (h : Marked used s ino name s₂)
    (hadd : Fs.addDentry s₂ (image s.disk).root ino name = some ({ (image s.disk).root with
      blocks := Function.update (image s.disk).root.blocks (image s.disk).root.blockCount b
      blockCount := (image s.disk).root.blockCount + 1 }, s₃))
    (hcount : (image s.disk).root.blockCount < sfsDirectBlocks) (hb : IsData b)
    (hfree : (image s.disk).blockUsed b = false) (hsb : s₃.sb = s₂.sb)
    (himage : image s₃.disk = (((image s.disk).newFile ino).useBlock b).setData b
      (splice zeros 0 dentryBytes ((image s.disk).lastAssigned ino name).encode)) :
    Leaves (After used s (.create name)) (enterFile s₂.sb (image s.disk).root ino name) s₂ := by
  have hroot := h.sound.rootOk
  have hsb₃ := hsb.trans h.sb_new
  have hsuper := h.addDentry_super hadd
  obtain ⟨hneRoot, hneFile⟩ := h.sound.ne_free hfree
  have hentry : After used s (.create name) s₃.disk := by
    apply after_of_same (hsuper.trans h.after.super)
    all_goals rw [himage]
    · apply (h.files.useBlock b).setData
      change ∀ a < ((image s.disk).newFile ino).root.blockCount,
        ((image s.disk).newFile ino).root.blocks a ≠ b
      rw [h.root]
      exact hneRoot
    · exact h.root
    · exact fun k hk => Function.update_of_ne (hneRoot k hk) _ _
    · exact fun _ hi => h.others hi
    · exact fun i hi k hk => Function.update_of_ne (hneFile i hi k hk) _ _
  apply h.leaves_entered hadd hsb hentry
  have hpacked := (hroot.packed.extend hcount hb.lt_u32).resize
    ((image s.disk).root.size + dentryBytes)
  have himage₄ := image_sfsWriteInode hsb₃ hpacked hroot.ino_eq (by decide)
  rw [himage] at himage₄
  have hadded := @added_extend _ name hroot _ _ h.first hcount hb hfree
  have hslot := @slot_extend _ name hroot _ _ h.ino_lt hfree (slotCount (image s.disk).root)
    (Nat.lt_add_of_pos_right (by decide))
  rw [if_neg (lt_irrefl _), if_pos rfl] at hslot
  have htwo : 2 ≤ slotCount (image s.disk).root := by
    have hentries := h.sound.owned.entries.two_le
    change 2 ≤ slotCount ((image s.disk).only used).root
    omega
  apply h.after_entry (k := slotCount (image s.disk).root) ?_ htwo
  · rw [himage₄]
    exact hadded
  · rw [himage₄]
    exact hslot
  · rw [sfsWriteInode_disk_of_lt hsb₃ (by rw [show _ = _ from hroot.ino_eq]; decide) (by decide),
      hsuper]

theorem leaves_enterFile (h : Marked used s ino name s₂) :
    Leaves (After used s (.create name)) (enterFile s₂.sb (image s.disk).root ino name) s₂ := by
  have hroot := h.sound.rootOk
  have hcases := @addDentry_cases _ _ name h.sb_new hroot.held hroot.count_pos hroot.system_used
    (by rw [h.newFile]; rfl) (by rw [h.newFile]; rfl) ino
  rw [h.newFile] at hcases
  rcases hcases with ⟨hadd, -⟩ | ⟨k, s₃, hadd, hk, hzero, -, htables, himage⟩ |
    ⟨b, s₃, hadd, -, hcount, hb, hfree, -, htables, himage⟩
  · exact h.leaves_full hadd
  · exact h.leaves_slot hadd hk hzero htables.sb himage
  · exact h.leaves_block hadd hcount hb hfree htables.sb himage

end Marked

end Enter

/-- An inode has been marked in the bitmap, and its slot is written next. -/
theorem marked_of_alloc {s₁ : FsState} (hsb : s.sb = SuperBlock.new)
    (h : Sound used (image s.disk)) (halloc : Fs.sfsAllocInode s = some (ino, s₁)) :
    After used s (.create name) s₁.disk ∧
      Marked used s ino name (Fs.sfsWriteInode s₁ (Inode.fresh ino)) := by
  obtain ⟨hlt, hfree, hbelow, ⟨buf, hs₁⟩, himage₁⟩ := sfsAllocInode_some hsb halloc
  have hfirst : FirstFree (image s.disk) ino := ⟨hlt, hfree, hbelow⟩
  obtain ⟨hino, hne⟩ := hfirst.isIno h.rootOk.usable
  have hfreed := h.free hfree
  have hsb₁ : s₁.sb = s.sb := ((alone_sfsAllocInode s).of_some halloc).tables.sb
  have hsuper₁ : s₁.disk 0 = s.disk 0 := by
    rw [hs₁]
    exact write_disk_of_ne (by decide) _
  have hafter₁ : After used s (.create name) s₁.disk := by
    apply after_of_same hsuper₁
    all_goals rw [himage₁]
    · exact h.markInode hfreed true
    · rfl
    · exact fun _ _ => rfl
    · exact fun _ _ => rfl
    · exact fun _ _ _ _ => rfl
  have hinode : ino < 2 ^ 32 := lt_trans hlt (by decide)
  have himage₂ := @image_sfsWriteInode s₁ (hsb₁.trans hsb) (Inode.fresh ino) ino
    (Inode.packed_fresh hinode) rfl hino
  rw [himage₁] at himage₂
  have hafter₂ : After used s (.create name) (Fs.sfsWriteInode s₁ (Inode.fresh ino)).disk := by
    apply after_of_same
    · rw [sfsWriteInode_disk_of_lt (hsb₁.trans hsb) hino (by decide), hsuper₁]
    all_goals rw [himage₂]
    · exact (h.markInode hfreed true).setFree hfreed _
    · exact setInode_other _ _ hne.symm
    · exact fun _ _ => rfl
    · exact fun i hi => setInode_other _ _ (hi.ne_free hfreed)
    · exact fun _ _ _ _ => rfl
  have hsb₂ : (Fs.sfsWriteInode s₁ (Inode.fresh ino)).sb = s₁.sb :=
    (alone_sfsWriteInode s₁ (Inode.fresh ino)).tables.sb
  exact ⟨hafter₁, hsb, h, hfirst, hsb₂.trans hsb₁, himage₂, hafter₂⟩

theorem leaves_sfsCreate (hsb : s.sb = SuperBlock.new) (h : Sound used (image s.disk))
    (name : CStr) :
    Leaves (After used s (.create name)) (sfsCreate s.sb rootIno name sfsFile) s := by
  have hstart := after_start (a := .create name) h
  have hread : Fs.sfsReadInode s rootIno = some (image s.disk).root := by
    rw [sfsReadInode_eq hsb, if_pos (by decide)]
    rfl
  unfold sfsCreate
  apply (leaves_sfsReadInode hstart rootIno).bind (alone_sfsReadInode s rootIno).run
  rw [hread]
  dsimp only
  rw [if_neg (not_not.mpr h.rootOk.type_eq)]
  apply (leaves_sfsLookup hstart rootIno name).bind (alone_sfsLookup s rootIno name).run
  split
  · exact leaves_ret hstart
  · cases halloc : Fs.sfsAllocInode s with
    | none =>
        apply (leaves_sfsAllocInode hstart ?_).bind ((alone_sfsAllocInode s).of_none halloc).run
        · exact leaves_ret hstart
        · intro ino s' hsome
          rw [halloc] at hsome
          cases hsome
    | some r =>
        obtain ⟨ino, s₁⟩ := r
        have halone := (alone_sfsAllocInode s).of_some halloc
        have hwrite := alone_sfsWriteInode s₁ (Inode.fresh ino)
        obtain ⟨hafter₁, hmarked⟩ := @marked_of_alloc s used ino name s₁ hsb h halloc
        apply (leaves_sfsAllocInode hstart ?_).bind halone.run
        · have hnew : newInode s.sb ino rootIno sfsFile = .ret (some (Inode.fresh ino)) := rfl
          dsimp only
          rw [hnew, Prog.ret_bind, ← halone.tables.sb]
          apply (leaves_sfsWriteInode hafter₁ hmarked.after).bind hwrite.run
          rw [← hwrite.tables.sb]
          exact hmarked.leaves_enterFile
        · intro ino' s' hsome
          rw [halloc] at hsome
          cases hsome
          exact hafter₁

/-! ## Writing a file -/

theorem leaves_ensureBlock (h : good s.disk) {inode : Inode} {i : Nat}
    (hsome : ∀ s' inode', Fs.ensureBlock s inode i = some (s', inode') → good s'.disk) :
    Leaves good (ensureBlock s.sb inode i) s := by
  unfold ensureBlock
  unfold Fs.ensureBlock at hsome
  split
  · next hend =>
      split
      · exact leaves_ret h
      · next hfull =>
          have hblock : ∀ b s', Fs.sfsAllocBlock s = some (b, s') → good s'.disk := by
            intro b s' halloc
            simp only [if_pos hend, if_neg hfull, halloc] at hsome
            exact hsome _ _ rfl
          have halone := alone_sfsAllocBlock s
          cases halloc : Fs.sfsAllocBlock s with
          | none =>
              rw [halloc] at halone
              exact (leaves_sfsAllocBlock h hblock).bind halone.run (leaves_ret h)
          | some r =>
              rw [halloc] at halone
              exact (leaves_sfsAllocBlock h hblock).bind halone.run (leaves_ret (hblock _ _ halloc))
  · exact leaves_ret h

section Loop

variable {buf : Buf} {size offset w fuel : Nat} {g : Image} {inode inode₀ : Inode} {block zero : Buf}

/-- The loop of `sfs_write_file` goes through images in which some of the bytes are written. -/
theorem leaves_writeLoop
    (hgood : ∀ d inode' n, d 0 = zero → n ≤ size → Wrote buf offset 0 g inode₀ (image d) inode' n →
      good d) (hsb : s.sb = SuperBlock.new)
    (hsystem : ∀ b < dataBlockStart, (image s.disk).blockUsed b = true) (hsuper : s.disk 0 = zero)
    (hw : Wrote buf offset 0 g inode₀ (image s.disk) inode w) (hle : w ≤ size) :
    Leaves good (writeLoop s.sb buf size offset fuel inode w block) s := by
  have hnow : good s.disk := hgood _ _ _ hsuper hle hw
  induction fuel generalizing s inode w block with
  | zero => exact leaves_ret hnow
  | succ fuel ih =>
      unfold writeLoop
      split
      · exact leaves_ret hnow
      · next hdone =>
          have hroom := hw.held.room_le
          have hroom' := hw.room
          have hzero : ∀ b, IsData b → 0 ≠ b := by
            rintro b hb rfl
            exact absurd hb (by decide)
          have halone := alone_ensureBlock s inode ((offset + w) / blockSize)
          rw [u32_of_lt (by omega)]
          dsimp only
          rcases @ensureBlock_cases s inode buf offset w hsb hsystem hw.held hw.room with
            ⟨hnone, -⟩ | ⟨s₁, inode₁, hsome, htables, hkept, hidx, hwrote⟩
          · rw [hnone] at halone
            apply (leaves_ensureBlock hnow ?_).bind halone.run
            · exact leaves_ret hnow
            · intro s' inode' heq
              rw [hnone] at heq
              cases heq
          · rw [hsome] at halone
            have hw₁ := hw.trans hwrote
            have hsuper₁ : s₁.disk 0 = zero := (hkept 0 (by decide) (by decide)).trans hsuper
            have hnow₁ : good s₁.disk := hgood _ _ _ hsuper₁ hle hw₁
            have hdata := hwrote.held.onData _ hidx
            have hpass := @Wrote.pass (image s₁.disk) inode₁ buf offset size w hwrote.held hidx
              (by omega)
            rw [← image_write_data hdata] at hpass
            have hsystem₁ : ∀ b < dataBlockStart, (image s₁.disk).blockUsed b = true :=
              fun b hb => hwrote.grows.used_mono b (hsystem b hb)
            apply (leaves_ensureBlock hnow ?_).bind halone.run
            · apply (leaves_blockRead hnow₁).bind (alone_blockRead s₁ _ _).run
              dsimp only
              rw [blockRead_data hdata]
              generalize splice ((image s₁.disk).data (inode₁.blocks ((offset + w) / blockSize)))
                ((offset + w) % blockSize) _ _ = block₁ at hpass ⊢
              have hw₂ := hw₁.trans hpass
              have hsuper₂ : (s₁.write (inode₁.blocks ((offset + w) / blockSize)) block₁).disk 0 =
                  zero := by
                rw [write_disk_of_ne (hzero _ hdata), hsuper₁]
              have hle₂ : w + min (blockSize - (offset + w) % blockSize) (size - w) ≤ size := by omega
              have hnow₂ := hgood _ _ _ hsuper₂ hle₂ hw₂
              have hsb₂ : (s₁.write (inode₁.blocks ((offset + w) / blockSize)) block₁).sb = s.sb :=
                htables.sb
              apply (leaves_blockWrite hnow₁ hnow₂).bind (alone_blockWrite s₁ _ _ _).run
              rw [← hsb₂]
              exact ih (hsb₂.trans hsb) (fun b hb => hpass.grows.used_mono b (hsystem₁ b hb)) hsuper₂
                hw₂ hle₂ hnow₂
            · intro s' inode' heq
              rw [hsome] at heq
              cases heq
              exact hnow₁

theorem leaves_sfsWriteFile
    (hgood : ∀ d inode' n, d 0 = s.disk 0 → n ≤ size →
      Wrote buf offset 0 (image s.disk) inode (image d) inode' n → good d)
    (hsb : s.sb = SuperBlock.new)
    (hsystem : ∀ b < dataBlockStart, (image s.disk).blockUsed b = true)
    (hheld : Held (image s.disk) inode) (hpos : offset ≤ inode.room) :
    Leaves good (sfsWriteFile s.sb inode buf size offset) s := by
  have hstart : Wrote buf offset 0 (image s.disk) inode (image s.disk) inode 0 :=
    Wrote.refl hheld hpos
  exact (leaves_writeLoop hgood hsb hsystem rfl hstart (Nat.zero_le _)).done fun _ => ⟨_, rfl⟩

end Loop

section Write

variable {fd : Int} {buf : Buf} {count : Int} {f : File} {inode' : Inode} {n : Nat}

/-- Blocks of the file have been written, and its inode not yet. -/
theorem after_wrote (h : Sound used (image s.disk)) (hf : openFile s fd = some f)
    (hi : IsUsed used (image s.disk) f.ino) (hsuper : d 0 = s.disk 0) (hn : n ≤ u32OfInt count)
    (hw : Wrote buf f.offset 0 (image s.disk) ((image s.disk).inode f.ino) (image d) inode' n) :
    After used s (.write fd buf count) d where
  super := hsuper
  sound := ⟨used, fun _ hj => hj, h.grows hi hw.grows⟩
  survives := by
    have hinode := hw.grows.inode_eq
    apply survives_written h hf hi hw.grows rfl
    · exact fun j _ => congrFun hinode j
    · rw [hinode]
    · rw [hinode]
    · intro p hp hout
      rw [← hw.old p hp (by omega)]
      unfold fileByte
      rw [hinode, hw.grows.blocks_eq _ (Inode.div_lt hp)]

/-- The inode of the file has been written. -/
theorem after_grown (h : Sound used (image s.disk)) (hf : openFile s fd = some f)
    (hi : IsUsed used (image s.disk) f.ino) (hsuper : d 0 = s.disk 0) (hn : n ≤ u32OfInt count)
    {g' : Image}
    (hw : Wrote buf f.offset 0 (image s.disk) ((image s.disk).inode f.ino) g' inode' n)
    (himage : image d = g'.setInode f.ino
      { inode' with size := max ((image s.disk).inode f.ino).size (f.offset + n) }) :
    After used s (.write fd buf count) d where
  super := hsuper
  sound := by
    rw [himage]
    exact ⟨used, fun _ hj => hj, h.grown hi hw.grows hw.held _⟩
  survives := by
    rw [himage]
    apply survives_written h hf hi hw.grows
    · rfl
    · intro j hj
      rw [setInode_other _ _ hj, hw.grows.inode_eq]
    · rw [setInode_self]
      exact le_max_left _ _
    · rw [setInode_self]
      exact hw.grows.room_le
    · intro p hp hout
      rw [setInode_self, ← hw.old p hp (by omega)]
      rfl

theorem leaves_sysWrite (hsb : s.sb = SuperBlock.new) (h : Sound used (image s.disk))
    (hopen : ∀ f, openFile s fd = some f → IsUsed used (image s.disk) f.ino ∧
      f.offset ≤ ((image s.disk).inode f.ino).room) :
    Leaves (After used s (.write fd buf count)) (sysWrite s fd buf count) s := by
  have hstart := after_start (a := .write fd buf count) h
  unfold sysWrite
  cases hf : openFile s fd with
  | none => exact leaves_ret hstart
  | some f =>
      obtain ⟨hi, hpos⟩ := hopen f hf
      have hino := hi.1.isIno
      have hheld := h.held hi.1
      obtain ⟨-, hfile, -⟩ := openFile_some hf
      apply (leaves_sfsReadInode hstart f.ino).bind (alone_sfsReadInode s f.ino).run
      rw [sfsReadInode_eq hsb, if_pos hino]
      dsimp only
      apply leaves_offset hstart
      rw [← hfile]
      have hgood : ∀ d inode' n, d 0 = s.disk 0 → n ≤ u32OfInt count →
          Wrote buf f.offset 0 (image s.disk) ((image s.disk).inode f.ino) (image d) inode' n →
          After used s (.write fd buf count) d :=
        fun d inode' n hsuper hn hw => after_wrote h hf hi hsuper hn hw
      have hloop := leaves_sfsWriteFile hgood hsb h.owned.blocks.system_used hheld hpos
      have halone := alone_sfsWriteFile s ((image s.disk).inode f.ino) buf (u32OfInt count) f.offset
      obtain ⟨s₁, inode₁, n, heq, htables, hkept, hn, hwrote, -⟩ := @sfsWriteFile_spec s _ buf
        f.offset (u32OfInt count) hsb h.owned.blocks.system_used hheld hpos
      rw [heq] at halone
      apply hloop.bind halone.run
      dsimp only
      have hsuper : s₁.disk 0 = s.disk 0 := hkept 0 (by decide) (by decide)
      have hnow := after_wrote h hf hi hsuper hn hwrote
      -- the offset of the descriptor moves in memory
      apply leaves_advance hnow
      have hroom := hwrote.held.room_le
      have hroom' := hwrote.room
      have hinoEq := hwrote.grows.ino_eq.trans (h.owned.blocks.ino_eq _ hi.1)
      have hpacked : ({ inode₁ with
          size := max ((image s.disk).inode f.ino).size (f.offset + n) } : Inode).Packed :=
        { hwrote.grows.packed hwrote.held (image_packed s.disk _) with
          size_lt := max_lt (image_packed s.disk f.ino).size_lt (by omega) }
      have hsb₁ := htables.sb.trans hsb
      -- the file table is not on the disk
      generalize hs₂ : s₁.setFile fd.toNat { s₁.files fd.toNat with
        offset := u32 ((s₁.files fd.toNat).offset + n) } = s₂
      have hdisk : s₂.disk = s₁.disk := by
        rw [← hs₂]
        rfl
      have hsb₂ : s₂.sb = SuperBlock.new := by
        rw [← hs₂]
        exact hsb₁
      rw [hsb, ← hsb₂]
      have himage := image_sfsWriteInode hsb₂ hpacked hinoEq hino
      have hafter : After used s (.write fd buf count) (Fs.sfsWriteInode s₂ { inode₁ with
          size := max ((image s.disk).inode f.ino).size (f.offset + n) }).disk := by
        rw [hdisk] at himage
        apply after_grown h hf hi ?_ hn hwrote himage
        rw [sfsWriteInode_disk_of_lt hsb₂ (by rw [show _ = _ from hinoEq]; exact hino)
          (by decide), hdisk, hsuper]
      rw [← hdisk] at hnow
      exact (leaves_sfsWriteInode hnow hafter).bind (alone_sfsWriteInode s₂ _).run
        (leaves_ret hafter)

end Write

/-! ## All calls -/

/-- A request for an entry of `file_table` answers and leaves the disk alone. -/
theorem run_open (s : FsState) (ino : Int) : ∃ r s', s'.disk = s.disk ∧
    ∀ log, machine.run (request (.open ino)) ⟨s, log⟩ = (r, ⟨s', log⟩) := by
  cases hfind : (List.range maxFiles).find? fun i => !(s.files i).inUse with
  | none =>
      refine ⟨none, s, rfl, fun log => ?_⟩
      change Request.exec _ _ = _
      simp only [Request.exec, hfind]
  | some fd =>
      refine ⟨some fd, s.setFile fd ⟨u32OfInt ino, 0, 2, true⟩, rfl, fun log => ?_⟩
      change Request.exec _ _ = _
      simp only [Request.exec, hfind]

theorem leaves_sysOpen (h : good s.disk) (path : Option CStr) : Leaves good (sysOpen s path) s := by
  unfold sysOpen
  split
  · exact leaves_ret h
  · split
    · exact leaves_ret h
    · next name _ =>
        apply (leaves_sfsLookup h rootIno name).bind (alone_sfsLookup s rootIno name).run
        split
        · exact leaves_ret h
        · obtain ⟨r, s', hdisk, hrun⟩ := run_open s (Fs.sfsLookup s rootIno name)
          rw [← hdisk] at h
          have hrequest : Leaves good (request (.open (Fs.sfsLookup s rootIno name))) s := by
            intro log
            refine Machine.throughout_act (hdisk ▸ h) (Machine.throughout_ret ?_)
            change good (machine.run (request (.open _)) ⟨s, log⟩).2.fs.disk
            rw [hrun]
            exact h
          apply hrequest.bind fun log => ⟨log, hrun log⟩
          cases r with
          | none => exact leaves_ret h
          | some fd => exact leaves_ret h

theorem leaves_sysRead (h : good s.disk) (fd : Int) (buf : Buf) (count : Int) :
    Leaves good (sysRead s fd buf count) s := by
  unfold sysRead
  split
  · exact leaves_ret h
  · next f hf =>
      apply (leaves_sfsReadInode h f.ino).bind (alone_sfsReadInode s f.ino).run
      split
      · exact leaves_ret h
      · next inode _ =>
          apply leaves_offset h
          apply (leaves_sfsReadFile h inode buf (u32OfInt count) _).bind
            (alone_sfsReadFile s inode buf (u32OfInt count) _).run
          exact leaves_advance h (leaves_ret h)

/-- Wherever a call is cut off, the disk is sound and what was on it has survived. -/
theorem leaves_fsCall (hsb : s.sb = SuperBlock.new) (h : Sound used (image s.disk))
    (hopen : ∀ fd f, openFile s fd = some f → (∃ buf count, a = .write fd buf count) →
      IsUsed used (image s.disk) f.ino ∧ f.offset ≤ ((image s.disk).inode f.ino).room) :
    Leaves (After used s a) (fsCall s a) s := by
  have hstart := after_start (a := a) h
  cases a with
  | create name => exact (leaves_sfsCreate hsb h name).done fun _ => ⟨_, rfl⟩
  | «open» path => exact leaves_sysOpen hstart path
  | read fd buf count => exact (leaves_sysRead hstart fd buf count).done fun _ => ⟨_, rfl⟩
  | write fd buf count =>
      exact leaves_sysWrite hsb h fun f hf => hopen fd f hf ⟨buf, count, rfl⟩
  | close fd =>
      have hclose : Leaves (After used s (.close fd)) (sysClose fd) s := by
        unfold sysClose
        split
        · exact leaves_ret hstart
        · exact leaves_close hstart
      exact hclose.done fun _ => ⟨_, rfl⟩

end SRos.Fs.Requests
