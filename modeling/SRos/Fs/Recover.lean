import SRos.Fs.Invariant

/-!
# An image that a power failure has left

A call marks an inode in the bitmap before it enters it in the directory, and a block before an
inode lists it. When the power fails in between, the mark stays and nothing refers to what it
stands for. The image is then in order for the inodes that were not lost in this way.
-/

namespace SRos.Fs

open Bytes

variable {g g' : Image} {used : Nat → Bool} {ino b : Nat}

/-- The image in which `used` are the allocated inodes. -/
def Image.only (g : Image) (used : Nat → Bool) : Image := { g with inodeUsed := used }

structure Sound (used : Nat → Bool) (g : Image) : Prop where
  marked : ∀ i, used i = true → g.inodeUsed i = true
  owned : Owned (g.only used)

theorem Owned.sound (h : Owned g) : Sound g.inodeUsed g := ⟨fun _ hi => hi, h⟩

/-! ## The writes of the calls -/

/-- A block is marked. -/
theorem Owned.useBlock (h : Owned g) (b : Nat) : Owned (g.useBlock b) := by
  have hmono : ∀ c, g.blockUsed c = true → (g.useBlock b).blockUsed c = true := by
    intro c hc
    simp only [Image.useBlock, Function.update_apply]
    split
    · rfl
    · exact hc
  have halloc : ∀ i, Allocated (g.useBlock b) i → Allocated g i := fun i hi => ⟨hi.isIno, hi.used⟩
  constructor
  · refine ⟨fun c hc => hmono c (h.blocks.system_used c hc), ?_, ?_, ?_⟩
    · exact fun i hi => h.blocks.ino_eq i (halloc i hi)
    · exact fun i hi => (h.blocks.held i (halloc i hi)).congr (.refl _) hmono
    · rintro i j c ⟨hi, hci⟩ ⟨hj, hcj⟩
      exact h.blocks.apart i j c ⟨halloc i hi, hci⟩ ⟨halloc j hj, hcj⟩
  · have he := h.entries
    refine ⟨he.reserved, he.root_used, he.root_type, he.root_pos, ?_, he.dot, he.dotdot, ?_,
      he.entry_inj⟩
    · exact fun i hi hne => he.file_type i (halloc i hi) hne
    · intro k hk hk2 hlive
      obtain ⟨hentry, hne⟩ := he.entry k hk hk2 hlive
      exact ⟨⟨hentry.isIno, hentry.used⟩, hne⟩

/-- Files have been written, but no inode and no entry of the directory. -/
theorem Owned.data (h : Owned g) (hinodeUsed : g'.inodeUsed = g.inodeUsed)
    (hinode : g'.inode = g.inode) (hused : ∀ c, g.blockUsed c = true → g'.blockUsed c = true)
    (hdata : ∀ a < g.root.blockCount, g'.data (g.root.blocks a) = g.data (g.root.blocks a)) :
    Owned g' := by
  have halloc : ∀ i, Allocated g' i ↔ Allocated g i := by
    intro i
    constructor
    · exact fun hi => ⟨hi.isIno, hinodeUsed ▸ hi.used⟩
    · exact fun hi => ⟨hi.isIno, hinodeUsed ▸ hi.used⟩
  have hroot : g'.root = g.root := congrFun hinode rootIno
  have hslot : ∀ k < slotCount g.root, slot g' g.root k = slot g g.root k :=
    fun k hk => slot_congr hdata hk
  have htwo := h.entries.two_le
  constructor
  · refine ⟨fun c hc => hused c (h.blocks.system_used c hc), ?_, ?_, ?_⟩
    · intro i hi
      rw [hinode]
      exact h.blocks.ino_eq i ((halloc i).mp hi)
    · intro i hi
      rw [hinode]
      exact (h.blocks.held i ((halloc i).mp hi)).congr (.refl _) hused
    · rintro i j c ⟨hi, hci⟩ ⟨hj, hcj⟩
      rw [hinode] at hci hcj
      exact h.blocks.apart i j c ⟨(halloc i).mp hi, hci⟩ ⟨(halloc j).mp hj, hcj⟩
  · have he := h.entries
    refine ⟨?_, ((halloc _).mpr he.root_allocated).used, ?_, ?_, ?_, ?_, ?_, ?_, ?_⟩
    · rw [hinodeUsed]
      exact he.reserved
    · rw [hroot]
      exact he.root_type
    · rw [hroot]
      exact he.root_pos
    · intro i hi hne
      rw [hinode]
      exact he.file_type i ((halloc i).mp hi) hne
    · rw [hroot, hslot 0 (by omega)]
      exact he.dot
    · rw [hroot, hslot 1 (by omega)]
      exact he.dotdot
    · rw [hroot]
      intro k hk hk2 hlive
      rw [hslot k hk] at hlive ⊢
      exact ⟨(halloc _).mpr (he.entry k hk hk2 hlive).1, (he.entry k hk hk2 hlive).2⟩
    · rw [hroot]
      intro j hj hj2 k hk hk2 hlive heq
      rw [hslot j hj] at hlive heq
      rw [hslot k hk] at heq
      exact he.entry_inj j hj hj2 k hk hk2 hlive heq

theorem slot_sameBlocks {dir dir' : Inode} (h : SameBlocks dir dir') (g : Image) (k : Nat) :
    slot g dir' k = slot g dir k := by
  unfold slot
  rw [h.blocks_eq]

/-- The size of the directory is not needed to find its entries. -/
theorem Added.resizeRoot {k : Nat} {inode : Inode} (h : Added g ino k g') (hne : ino ≠ rootIno)
    (hsame : SameBlocks g'.root inode) : Added g ino k (g'.setInode rootIno inode) := by
  have hcount : slotCount inode = slotCount g'.root := by
    unfold slotCount
    rw [hsame.count_eq]
  have hslot : ∀ j, slot (g'.setInode rootIno inode) inode j = slot g' g'.root j :=
    fun j => slot_sameBlocks hsame g' j
  refine ⟨h.inodeUsed_eq, h.used_mono, ?_, ?_, ?_, ?_, ?_, ?_, ?_, ?_, ?_, ?_, ?_, ?_,
    h.was_free⟩
  · rw [setInode_other _ _ hne]
    exact h.new_inode
  · intro i hi hroot
    rw [setInode_other _ _ hroot]
    exact h.inode_eq i hi hroot
  · rw [root_setInode, hsame.ino_eq]
    exact h.root_ino
  · rw [root_setInode, hsame.type_eq]
    exact h.root_type
  · rw [root_setInode]
    exact h.root_held.congr hsame fun _ hb => hb
  · rw [root_setInode, hsame.count_eq]
    exact h.root_count
  · rw [root_setInode, hsame.count_eq, hsame.blocks_eq]
    exact h.root_blocks
  · rw [root_setInode, hsame.count_eq, hsame.blocks_eq]
    exact h.data_eq
  · intro j hj hjk
    rw [root_setInode, hslot]
    exact h.slot_old j hj hjk
  · rw [root_setInode, hslot]
    exact h.slot_new
  · intro j hj hge hjk
    rw [root_setInode, hcount] at hj
    rw [root_setInode, hslot]
    exact h.slot_rest j hj hge hjk
  · rw [root_setInode, hcount]
    exact h.slot_lt

/-- An inode gets back what it had. -/
theorem setInode_undo {x : Inode} (hx : g.inode ino = x) (y : Inode) :
    (g.setInode ino y).setInode ino x = g := by
  subst hx
  unfold Image.setInode
  rw [Function.update_idem, Function.update_eq_self]

/-- The entry has been written, and the size of the directory not yet. -/
theorem added_entry {k : Nat} {name : CStr} (hroot : RootOk g) (hino : FirstFree g ino)
    (hk : k < slotCount g.root) (hfree : (slot g g.root k).ino = 0)
    (hg' : g' = (g.newFile ino).setData (g.root.blocks (k / dentriesPerBlock))
      (splice (g.data (g.root.blocks (k / dentriesPerBlock))) (k % dentriesPerBlock * dentryBytes)
        dentryBytes ((slot g g.root k).assign ino name).encode)) :
    Added g ino k g' ∧ slot g' g'.root k = (slot g g.root k).assign ino name := by
  have hne := (hino.isIno hroot.usable).2
  have hlt : ino < 2 ^ 32 := lt_trans hino.lt (by decide)
  have hsame : SameBlocks (g.enter ino k name).root g.root := by
    rw [root_enter]
    exact ⟨rfl, rfl, rfl, rfl⟩
  have heq : (g.enter ino k name).setInode rootIno g.root = g' := by
    have hold : g'.inode rootIno = g.root := by
      rw [hg']
      exact setInode_other (g.markInode ino true) (Inode.fresh ino) hne.symm
    have hundo := setInode_undo hold { g.root with size := u32 (g.root.size + dentryBytes) }
    rwa [hg'] at hundo ⊢
  rw [← heq]
  refine ⟨(added_enter hroot hino hk hfree).resizeRoot hne hsame, ?_⟩
  rw [root_setInode]
  have hslot := @slot_enter _ name hroot.held _ _ _ hlt hk hk
  rw [if_pos rfl] at hslot
  rw [← hslot]
  exact slot_sameBlocks hsame _ k

/-- Which inodes count as allocated is up to the one who looks at the image. -/
theorem Added.only {k : Nat} (h : Added g ino k g') (used : Nat → Bool) :
    Added (g.only used) ino k (g'.only (Function.update used ino true)) :=
  { h with
    inodeUsed_eq := rfl
    root_held := h.root_held.congr (.refl _) fun _ hb => hb }

namespace Sound

theorem free (h : Sound used g) (hfree : g.inodeUsed ino = false) : used ino = false := by
  cases hused : used ino with
  | false => rfl
  | true =>
      rw [h.marked ino hused] at hfree
      cases hfree

theorem rootOk {d : Disk} (h : Sound used (image d)) : RootOk (image d) where
  reserved := h.marked 0 h.owned.entries.reserved
  root_used := h.marked rootIno h.owned.entries.root_used
  system_used := h.owned.blocks.system_used
  ino_eq := h.owned.blocks.ino_eq _ h.owned.entries.root_allocated
  type_eq := h.owned.entries.root_type
  packed := image_packed d rootIno
  held := (h.owned.blocks.held _ h.owned.entries.root_allocated).congr (.refl _) fun _ hb => hb
  count_pos := h.owned.entries.root_pos
  slot_lt := by
    intro k hk
    rcases h.owned.entries.slot_cases hk with hzero | halloc
    · exact lt_of_eq_of_lt hzero (by decide)
    · exact halloc.isIno.2

theorem held {d : Disk} (h : Sound used (image d)) {i : Nat} (hi : Allocated ((image d).only used) i) :
    Held (image d) ((image d).inode i) :=
  (h.owned.blocks.held i hi).congr (.refl _) fun _ hb => hb

/-- An inode that nothing refers to is marked, or its mark is cleared. -/
theorem markInode (h : Sound used g) (hfree : used ino = false) (x : Bool) :
    Sound used (g.markInode ino x) where
  marked := by
    intro i hi
    have hne : i ≠ ino := by
      rintro rfl
      rw [hfree] at hi
      cases hi
    exact (Function.update_of_ne hne _ _).trans (h.marked i hi)
  owned := h.owned

theorem setFree (h : Sound used g) (hfree : used ino = false) (inode : Inode) :
    Sound used (g.setInode ino inode) :=
  ⟨h.marked, Owned.setFree h.owned hfree inode⟩

theorem useBlock (h : Sound used g) (b : Nat) : Sound used (g.useBlock b) :=
  ⟨h.marked, Owned.useBlock h.owned b⟩

/-- A block outside the directory is written. -/
theorem setData (h : Sound used g) (hb : ∀ a < g.root.blockCount, g.root.blocks a ≠ b)
    (buf : Buf) : Sound used (g.setData b buf) :=
  ⟨h.marked, h.owned.data rfl rfl (fun _ hc => hc) fun a ha => Function.update_of_ne (hb a ha) _ _⟩

/-- A file has been created. -/
theorem added (h : Sound used g) {k : Nat} (hino : IsIno ino) (hne : ino ≠ rootIno)
    (hfree : used ino = false) (hk : 2 ≤ k) (ha : Added g ino k g') :
    Sound (Function.update used ino true) g' where
  marked := by
    intro i hi
    rw [ha.inodeUsed_eq]
    by_cases hi' : i = ino
    · subst hi'
      exact Function.update_self _ _ _
    · rw [Function.update_of_ne hi'] at hi ⊢
      exact h.marked i hi
  owned := h.owned.added hino hne hfree hk (ha.only used)

/-- The first two entries of the directory are taken. -/
theorem two_le (h : Sound used g) {k : Nat} (hfree : (slot g g.root k).ino = 0) : 2 ≤ k := by
  by_contra hlt
  obtain rfl | rfl : k = 0 ∨ k = 1 := by omega
  · have hdot := h.owned.entries.dot.1
    exact absurd (hdot.symm.trans hfree) (by decide)
  · have hdotdot := h.owned.entries.dotdot.1
    exact absurd (hdotdot.symm.trans hfree) (by decide)

end Sound

/-! ## What a power failure leaves -/

/-- The directory has an entry for the inode. -/
def Named (g : Image) (i : Nat) : Prop :=
  i ≠ 0 ∧ ∃ k < slotCount g.root, 2 ≤ k ∧ (slot g g.root k).ino = i

/-- Everything the directory refers to is in order: its entries name different regular files, and
no block belongs to two of them or to one of them and the directory. -/
structure Consistent (g : Image) : Prop where
  root_type : g.root.type = sfsDir
  root_held : Held g g.root
  file : ∀ i, Named g i → IsIno i ∧ i ≠ rootIno ∧ g.inodeUsed i = true ∧ (g.inode i).ino = i ∧
    (g.inode i).type = sfsFile ∧ Held g (g.inode i)
  once : ∀ j < slotCount g.root, 2 ≤ j → ∀ k < slotCount g.root, 2 ≤ k →
    (slot g g.root j).ino ≠ 0 → (slot g g.root j).ino = (slot g g.root k).ino → j = k
  apart : ∀ i j, (i = rootIno ∨ Named g i) → (j = rootIno ∨ Named g j) →
    ∀ a < (g.inode i).blockCount, ∀ c < (g.inode j).blockCount,
      (g.inode i).blocks a = (g.inode j).blocks c → i = j

theorem Sound.allocated (h : Sound used g) {i : Nat} (hi : Named g i) :
    Allocated (g.only used) i ∧ i ≠ rootIno := by
  obtain ⟨hzero, k, hk, hk2, rfl⟩ := hi
  exact h.owned.entries.entry k hk hk2 hzero

theorem Sound.consistent {d : Disk} (h : Sound used (image d)) : Consistent (image d) where
  root_type := h.owned.entries.root_type
  root_held := h.rootOk.held
  file := by
    intro i hi
    obtain ⟨halloc, hne⟩ := h.allocated hi
    exact ⟨halloc.isIno, hne, h.marked i halloc.used, h.owned.blocks.ino_eq i halloc,
      h.owned.entries.file_type i halloc hne, h.held halloc⟩
  once := h.owned.entries.entry_inj
  apart := by
    intro i j hi hj a ha c hc heq
    have halloc : ∀ x, (x = rootIno ∨ Named (image d) x) →
        Allocated ((image d).only used) x := by
      rintro x (rfl | hx)
      · exact h.owned.entries.root_allocated
      · exact (h.allocated hx).1
    exact h.owned.blocks.apart i j _ ⟨halloc i hi, a, ha, heq⟩ ⟨halloc j hj, c, hc, rfl⟩

end SRos.Fs
