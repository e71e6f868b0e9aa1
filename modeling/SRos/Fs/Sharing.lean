import SRos.Fs.Invariant

/-!
# Blocks and inodes are not shared

The invariant of the mounted file system, read off the bitmaps and the inodes as the source
reads them.
-/

namespace SRos.Fs

open Bytes

variable {s : FsState}

/-- The inode `i` is taken in the inode bitmap and reads as `inode`. -/
structure Taken (s : FsState) (i : Nat) (inode : Inode) : Prop where
  bit : Bitmap.bit (s.disk inodeBitmapBlock) i = true
  read : sfsReadInode s i = some inode

theorem FsInv.taken (h : FsInv s) {i : Nat} {inode : Inode} (ht : Taken s i inode) :
    Allocated (image s.disk) i ∧ inode = (image s.disk).inode i := by
  have hread := ht.read
  rw [sfsReadInode_eq h.sb] at hread
  split at hread
  · next hino => exact ⟨⟨hino, ht.bit⟩, (Option.some.inj hread).symm⟩
  · cases hread

/-- Whatever calls are made, as long as no directory is read from or written to: an inode that
is taken has at most twelve blocks, they are data blocks that are marked used, no block occurs
twice, and the entries of the root directory behind `.` and `..` name different inodes, which are
taken. -/
theorem block_ownership {s₀ : FsState} (h : Reach fsStep fsOk (fsBoot s₀) s) :
    (∀ i, 0 < i → i < maxInodes → ∃ inode, sfsReadInode s i = some inode) ∧
    (∀ i inode, Taken s i inode → inode.blockCount ≤ 12 ∧ ∀ k < inode.blockCount,
      5 ≤ inode.blocks k ∧ inode.blocks k < 1024 ∧
        Bitmap.bit (s.disk blockBitmapBlock) (inode.blocks k) = true) ∧
    (∀ i j inode inode', Taken s i inode → Taken s j inode' → ∀ a < inode.blockCount,
      ∀ b < inode'.blockCount, inode.blocks a = inode'.blocks b → i = j ∧ a = b) ∧
    ∃ root, Taken s rootIno root ∧
      ((slot (image s.disk) root 0).ino = rootIno ∧ (slot (image s.disk) root 0).string = [0x2E]) ∧
      ((slot (image s.disk) root 1).ino = rootIno ∧
        (slot (image s.disk) root 1).string = [0x2E, 0x2E]) ∧
      (∀ k < slotCount root, 2 ≤ k → (slot (image s.disk) root k).ino ≠ 0 →
        (slot (image s.disk) root k).ino ≠ rootIno ∧
          ∃ inode, Taken s (slot (image s.disk) root k).ino inode) ∧
      ∀ j < slotCount root, 2 ≤ j → ∀ k < slotCount root, 2 ≤ k →
        (slot (image s.disk) root j).ino ≠ 0 →
        (slot (image s.disk) root j).ino = (slot (image s.disk) root k).ino → j = k := by
  have hinv := FsInv.reach h
  have hread : ∀ i, IsIno i → sfsReadInode s i = some ((image s.disk).inode i) := by
    intro i hi
    rw [sfsReadInode_eq hinv.sb, if_pos hi]
  refine ⟨?_, ?_, ?_, ?_⟩
  · intro i hpos hlt
    exact ⟨_, hread i ⟨by omega, hlt⟩⟩
  · intro i inode ht
    obtain ⟨halloc, rfl⟩ := hinv.taken ht
    have hheld := hinv.owned.blocks.held i halloc
    refine ⟨hheld.count_le, ?_⟩
    intro k hk
    exact ⟨(hheld.onData k hk).1, (hheld.onData k hk).2, hheld.used k hk⟩
  · intro i j inode inode' hi hj a ha b hb heq
    obtain ⟨halloci, rfl⟩ := hinv.taken hi
    obtain ⟨hallocj, rfl⟩ := hinv.taken hj
    obtain rfl := hinv.owned.blocks.apart i j _ ⟨halloci, a, ha, rfl⟩ ⟨hallocj, b, hb, heq.symm⟩
    exact ⟨rfl, (hinv.owned.blocks.held i halloci).inj a ha b hb heq⟩
  · have he := hinv.owned.entries
    refine ⟨(image s.disk).root, ⟨he.root_used, hread _ (by decide)⟩, he.dot, he.dotdot, ?_,
      he.entry_inj⟩
    intro k hk hk2 hlive
    obtain ⟨halloc, hne⟩ := he.entry k hk hk2 hlive
    exact ⟨hne, _, halloc.used, hread _ halloc.isIno⟩

theorem block_ownership_reread :
    ∃ s, Reach fsStep fsOk (fsBoot .blank) s ∧ (s.files 1).offset = 8202 ∧
      ∀ i j inode inode', Taken s i inode → Taken s j inode' → ∀ a < inode.blockCount,
        ∀ b < inode'.blockCount, inode.blocks a = inode'.blocks b → i = j ∧ a = b := by
  have hrun : ((some (fsBoot .blank)).bind (runList fsStep fsOkTest
      [.create ⟨[0x61], by decide⟩, .open (some ⟨[0x2F, 0x61], by decide⟩),
        .open (some ⟨[0x61], by decide⟩), .write 0 (fun i => UInt8.ofNat i) 5000,
        .read 1 (fun _ => 0) 10, .read 1 (fun _ => 0) (-1),
        .write 1 (fun i => UInt8.ofNat i) 10])).any (fun s => (s.files 1).offset == 8202) =
          true := by
    decide +kernel
  obtain ⟨s₁, s, hs₁, hreach, htest⟩ := Reach.exists_of_runList hrun
  obtain rfl := Option.some.inj hs₁
  have hok := hreach.mono fun s a => fsOk_of_test
  exact ⟨s, hok, by simpa using htest, (block_ownership hok).2.2.1⟩

end SRos.Fs
