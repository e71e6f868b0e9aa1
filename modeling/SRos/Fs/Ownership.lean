import SRos.Fs.System

/-!
# Who owns which block

An allocated inode owns the blocks in its list. No block has two owners, because an inode only
gets blocks that are free in the block bitmap and every block with an owner is marked used. The
entries of the root directory name different allocated inodes for the same reason.
-/

namespace SRos.Fs

open Bytes

variable {s s' : FsState} {g g' : Image} {name : CStr}

/-- An inode that is taken in the inode bitmap. -/
structure Allocated (g : Image) (i : Nat) : Prop where
  isIno : IsIno i
  used : g.inodeUsed i = true

theorem Allocated.ne_free {i ino : Nat} (hi : Allocated g i) (hfree : g.inodeUsed ino = false) :
    i ≠ ino := by
  rintro rfl
  rw [hi.used] at hfree
  cases hfree

def Owns (g : Image) (i b : Nat) : Prop :=
  Allocated g i ∧ ∃ k < (g.inode i).blockCount, (g.inode i).blocks k = b

/-- The blocks of the allocated inodes. -/
structure BlocksOk (g : Image) : Prop where
  system_used : ∀ b < dataBlockStart, g.blockUsed b = true
  ino_eq : ∀ i, Allocated g i → (g.inode i).ino = i
  held : ∀ i, Allocated g i → Held g (g.inode i)
  apart : ∀ i j b, Owns g i b → Owns g j b → i = j

/-- The root directory. Its first two entries are `.` and `..`. -/
structure EntriesOk (g : Image) : Prop where
  reserved : g.inodeUsed 0 = true
  root_used : g.inodeUsed rootIno = true
  root_type : g.root.type = sfsDir
  root_pos : 0 < g.root.blockCount
  file_type : ∀ i, Allocated g i → i ≠ rootIno → (g.inode i).type = sfsFile
  dot : (slot g g.root 0).ino = rootIno ∧ (slot g g.root 0).string = [0x2E]
  dotdot : (slot g g.root 1).ino = rootIno ∧ (slot g g.root 1).string = [0x2E, 0x2E]
  entry : ∀ k < slotCount g.root, 2 ≤ k → (slot g g.root k).ino ≠ 0 →
    Allocated g (slot g g.root k).ino ∧ (slot g g.root k).ino ≠ rootIno
  entry_inj : ∀ j < slotCount g.root, 2 ≤ j → ∀ k < slotCount g.root, 2 ≤ k →
    (slot g g.root j).ino ≠ 0 → (slot g g.root j).ino = (slot g g.root k).ino → j = k

structure Owned (g : Image) : Prop where
  blocks : BlocksOk g
  entries : EntriesOk g

theorem EntriesOk.root_allocated (h : EntriesOk g) : Allocated g rootIno :=
  ⟨by decide, h.root_used⟩

theorem EntriesOk.two_le (h : EntriesOk g) : 128 ≤ slotCount g.root := by
  have hpos := h.root_pos
  have hper : dentriesPerBlock = 128 := rfl
  unfold slotCount
  rw [hper]
  omega

theorem BlocksOk.owns_used (h : BlocksOk g) {i b : Nat} (hb : Owns g i b) :
    g.blockUsed b = true := by
  obtain ⟨halloc, k, hk, rfl⟩ := hb
  exact (h.held i halloc).used k hk

/-- Every entry of the directory is free or names an allocated inode. -/
theorem EntriesOk.slot_cases (h : EntriesOk g) {k : Nat} (hk : k < slotCount g.root) :
    (slot g g.root k).ino = 0 ∨ Allocated g (slot g g.root k).ino := by
  by_cases hzero : (slot g g.root k).ino = 0
  · exact .inl hzero
  · right
    by_cases hk2 : 2 ≤ k
    · exact (h.entry k hk hk2 hzero).1
    · obtain rfl | rfl : k = 0 ∨ k = 1 := by omega
      · rw [h.dot.1]
        exact h.root_allocated
      · rw [h.dotdot.1]
        exact h.root_allocated

theorem Owned.rootOk {d : Disk} (h : Owned (image d)) : RootOk (image d) where
  reserved := h.entries.reserved
  root_used := h.entries.root_used
  system_used := h.blocks.system_used
  ino_eq := h.blocks.ino_eq _ h.entries.root_allocated
  type_eq := h.entries.root_type
  packed := image_packed d rootIno
  held := h.blocks.held _ h.entries.root_allocated
  count_pos := h.entries.root_pos
  slot_lt := by
    intro k hk
    rcases h.entries.slot_cases hk with hzero | halloc
    · rw [hzero]
      decide
    · exact halloc.isIno.2

/-- Blocks stay apart when one inode at most gets new ones, and those were free. -/
theorem BlocksOk.apart_of_step (h : BlocksOk g) {i₀ : Nat}
    (hstep : ∀ i b, Owns g' i b → Owns g i b ∨ (i = i₀ ∧ g.blockUsed b = false))
    (i j b : Nat) (hi : Owns g' i b) (hj : Owns g' j b) : i = j := by
  rcases hstep i b hi with hi | ⟨rfl, hfree⟩
  · rcases hstep j b hj with hj | ⟨-, hfree⟩
    · exact h.apart i j b hi hj
    · rw [h.owns_used hi] at hfree
      cases hfree
  · rcases hstep j b hj with hj | ⟨rfl, -⟩
    · rw [h.owns_used hj] at hfree
      cases hfree
    · rfl

/-- Two inodes that differ in their size only. -/
structure SameBlocks (inode inode' : Inode) : Prop where
  ino_eq : inode'.ino = inode.ino
  type_eq : inode'.type = inode.type
  count_eq : inode'.blockCount = inode.blockCount
  blocks_eq : inode'.blocks = inode.blocks

theorem SameBlocks.refl (inode : Inode) : SameBlocks inode inode := ⟨rfl, rfl, rfl, rfl⟩

theorem Held.congr {inode inode' : Inode} (h : Held g inode) (hsame : SameBlocks inode inode')
    (hused : ∀ b, g.blockUsed b = true → g'.blockUsed b = true) : Held g' inode' where
  count_le := by
    rw [hsame.count_eq]
    exact h.count_le
  onData := by
    intro k hk
    rw [hsame.count_eq] at hk
    rw [hsame.blocks_eq]
    exact h.onData k hk
  used := by
    intro k hk
    rw [hsame.count_eq] at hk
    rw [hsame.blocks_eq]
    exact hused _ (h.used k hk)
  inj := by
    intro a ha b hb heq
    rw [hsame.count_eq] at ha hb
    rw [hsame.blocks_eq] at heq
    exact h.inj a ha b hb heq

theorem slot_congr {dir : Inode} (h : ∀ i < dir.blockCount,
    g'.data (dir.blocks i) = g.data (dir.blocks i)) {k : Nat} (hk : k < slotCount dir) :
    slot g' dir k = slot g dir k := by
  unfold slot
  rw [h _ (slot_div_lt hk)]

theorem held_fresh (g : Image) (ino : Nat) : Held g (Inode.fresh ino) where
  count_le := Nat.zero_le _
  onData := fun _ hk => absurd hk (Nat.not_lt_zero _)
  used := fun _ hk => absurd hk (Nat.not_lt_zero _)
  inj := fun _ ha => absurd ha (Nat.not_lt_zero _)

/-- An inode that is not allocated does not matter. -/
theorem Owned.setFree (h : Owned g) {ino : Nat} (hfree : g.inodeUsed ino = false)
    (inode : Inode) : Owned (g.setInode ino inode) := by
  have hinode : ∀ i, Allocated g i → (g.setInode ino inode).inode i = g.inode i :=
    fun i hi => Function.update_of_ne (hi.ne_free hfree) _ _
  have halloc : ∀ i, Allocated (g.setInode ino inode) i → Allocated g i :=
    fun i hi => ⟨hi.isIno, hi.used⟩
  have hroot : (g.setInode ino inode).root = g.root := hinode _ h.entries.root_allocated
  have howns : ∀ i b, Owns (g.setInode ino inode) i b → Owns g i b := by
    rintro i b ⟨hi, hb⟩
    rw [hinode i (halloc i hi)] at hb
    exact ⟨halloc i hi, hb⟩
  have hslot : ∀ k, slot (g.setInode ino inode) g.root k = slot g g.root k := fun _ => rfl
  constructor
  · refine ⟨h.blocks.system_used, ?_, ?_, ?_⟩
    · intro i hi
      rw [hinode i (halloc i hi)]
      exact h.blocks.ino_eq i (halloc i hi)
    · intro i hi
      rw [hinode i (halloc i hi)]
      exact (h.blocks.held i (halloc i hi)).congr (.refl _) fun _ hb => hb
    · intro i j b hi hj
      exact h.blocks.apart i j b (howns i b hi) (howns j b hj)
  · have he := h.entries
    refine ⟨he.reserved, he.root_used, ?_, ?_, ?_, ?_, ?_, ?_, ?_⟩
    · rw [hroot]
      exact he.root_type
    · rw [hroot]
      exact he.root_pos
    · intro i hi hne
      rw [hinode i (halloc i hi)]
      exact he.file_type i (halloc i hi) hne
    · rw [hroot]
      exact he.dot
    · rw [hroot]
      exact he.dotdot
    · rw [hroot]
      intro k hk hk2 hlive
      obtain ⟨hentry, hne⟩ := he.entry k hk hk2 hlive
      exact ⟨⟨hentry.isIno, hentry.used⟩, hne⟩
    · rw [hroot]
      exact he.entry_inj

/-- The file `ino` has been created and stands in the entry `k` of the root directory, which may
have got a new block for it. -/
structure Added (g : Image) (ino k : Nat) (g' : Image) : Prop where
  inodeUsed_eq : g'.inodeUsed = Function.update g.inodeUsed ino true
  used_mono : ∀ b, g.blockUsed b = true → g'.blockUsed b = true
  new_inode : g'.inode ino = Inode.fresh ino
  inode_eq : ∀ i, i ≠ ino → i ≠ rootIno → g'.inode i = g.inode i
  root_ino : g'.root.ino = g.root.ino
  root_type : g'.root.type = g.root.type
  root_held : Held g' g'.root
  root_count : g.root.blockCount ≤ g'.root.blockCount
  root_blocks : ∀ a < g'.root.blockCount,
    (∃ c < g.root.blockCount, g.root.blocks c = g'.root.blocks a) ∨
      g.blockUsed (g'.root.blocks a) = false
  data_eq : ∀ b, (∀ a < g'.root.blockCount, g'.root.blocks a ≠ b) → g'.data b = g.data b
  slot_old : ∀ j < slotCount g.root, j ≠ k → slot g' g'.root j = slot g g.root j
  slot_new : (slot g' g'.root k).ino = ino
  slot_rest : ∀ j < slotCount g'.root, slotCount g.root ≤ j → j ≠ k →
    (slot g' g'.root j).ino = 0
  slot_lt : k < slotCount g'.root
  was_free : k < slotCount g.root → (slot g g.root k).ino = 0

theorem added_enter (hroot : RootOk g) {ino k : Nat} (hino : FirstFree g ino)
    (hk : k < slotCount g.root) (hfree : (slot g g.root k).ino = 0) :
    Added g ino k (g.enter ino k name) := by
  have hne := (hino.isIno hroot.usable).2
  have hlt : ino < 2 ^ 32 := lt_trans hino.lt (by decide)
  have hcount : slotCount (g.enter ino k name).root = slotCount g.root := by
    rw [root_enter]
    rfl
  refine ⟨rfl, fun _ hb => hb, ?_, ?_, ?_, ?_, ?_, ?_, ?_, ?_, ?_, ?_, ?_, ?_, fun _ => hfree⟩
  · simp [Image.enter, Image.setInode, Image.setData, Image.newFile, hne]
  · intro i hi hi'
    simp [Image.enter, Image.setInode, Image.setData, Image.newFile, Image.markInode, hi, hi']
  · rw [root_enter]
  · rw [root_enter]
  · rw [root_enter]
    exact hroot.held.congr ⟨rfl, rfl, rfl, rfl⟩ fun _ hb => hb
  · rw [root_enter]
  · rw [root_enter]
    intro a ha
    exact .inl ⟨a, ha, rfl⟩
  · rw [root_enter]
    intro b hb
    exact Function.update_of_ne (hb _ (slot_div_lt hk)).symm _ _
  · intro j hj hjk
    rw [slot_enter hroot.held hlt hk hj, if_neg hjk]
  · rw [slot_enter hroot.held hlt hk hk, if_pos rfl]
    rfl
  · intro j hj hge
    rw [hcount] at hj
    omega
  · rwa [hcount]

theorem added_extend (hroot : RootOk g) {ino b : Nat} (hino : FirstFree g ino)
    (hcount : g.root.blockCount < sfsDirectBlocks) (hb : IsData b)
    (hfree : g.blockUsed b = false) :
    Added g ino (slotCount g.root) (g.extend ino b name) := by
  have hne := (hino.isIno hroot.usable).2
  have hlt : ino < 2 ^ 32 := lt_trans hino.lt (by decide)
  have hslots : slotCount (g.extend ino b name).root = slotCount g.root + dentriesPerBlock := by
    rw [root_extend]
    exact Nat.mul_succ _ _
  have hper : dentriesPerBlock = 128 := rfl
  have hpush : SameBlocks (g.root.push b) (g.extend ino b name).root := by
    rw [root_extend]
    exact ⟨rfl, rfl, rfl, rfl⟩
  refine ⟨rfl, ?_, ?_, ?_, ?_, ?_, ?_, ?_, ?_, ?_, ?_, ?_, ?_, ?_, fun h => absurd h (by omega)⟩
  · exact (@Grows.push g.root g b hfree).used_mono
  · simp [Image.extend, Image.setInode, Image.setData, Image.useBlock, Image.newFile, hne]
  · intro i hi hi'
    simp [Image.extend, Image.setInode, Image.setData, Image.useBlock, Image.newFile,
      Image.markInode, hi, hi']
  · rw [root_extend]
  · rw [root_extend]
  · exact (hroot.held.push hcount hb hfree).congr hpush fun _ hc => hc
  · rw [root_extend]
    exact Nat.le_succ _
  · intro a ha
    rw [hpush.count_eq] at ha
    rw [hpush.blocks_eq]
    by_cases hold : a < g.root.blockCount
    · exact .inl ⟨a, hold, (g.root.push_blocks_old b hold).symm⟩
    · right
      obtain rfl : a = g.root.blockCount := by
        change a < g.root.blockCount + 1 at ha
        omega
      rwa [g.root.push_blocks_new b]
  · intro c hc
    apply Function.update_of_ne
    have hlast := hc g.root.blockCount (by rw [root_extend]; exact Nat.lt_succ_self _)
    rw [hpush.blocks_eq, g.root.push_blocks_new b] at hlast
    exact hlast.symm
  · intro j hj _
    rw [slot_extend hroot hlt hfree j (by omega), if_pos hj]
  · rw [slot_extend hroot hlt hfree _ (by omega), if_neg (lt_irrefl _), if_pos rfl]
    rfl
  · intro j hj hge hne'
    rw [slot_extend hroot hlt hfree j (by omega), if_neg (by omega), if_neg hne']
    rfl
  · omega

namespace Added

variable {ino k : Nat}

theorem allocated_iff (ha : Added g ino k g') (hino : IsIno ino) {i : Nat} :
    Allocated g' i ↔ i = ino ∨ Allocated g i := by
  by_cases heq : i = ino
  · refine iff_of_true ⟨heq ▸ hino, ?_⟩ (.inl heq)
    rw [ha.inodeUsed_eq, heq, Function.update_self]
  · have hused : g'.inodeUsed i = g.inodeUsed i := by
      rw [ha.inodeUsed_eq, Function.update_of_ne heq]
    constructor
    · exact fun hi => .inr ⟨hi.isIno, hused.symm.trans hi.used⟩
    · rintro (rfl | hi)
      · exact absurd rfl heq
      · exact ⟨hi.isIno, hused.trans hi.used⟩

/-- Only the root directory gets a block, and that was free. -/
theorem owns (ha : Added g ino k g') (hino : IsIno ino) (hfree : g.inodeUsed ino = false) {i b : Nat}
    (hb : Owns g' i b) : Owns g i b ∨ (i = rootIno ∧ g.blockUsed b = false) := by
  obtain ⟨hi, a, hlt, rfl⟩ := hb
  rcases (ha.allocated_iff hino).mp hi with rfl | hold
  · rw [ha.new_inode] at hlt
    exact absurd hlt (Nat.not_lt_zero _)
  · by_cases hroot : i = rootIno
    · subst hroot
      rcases ha.root_blocks a hlt with ⟨c, hc, heq⟩ | hnew
      · exact .inl ⟨hold, c, hc, heq⟩
      · exact .inr ⟨rfl, hnew⟩
    · rw [ha.inode_eq i (hold.ne_free hfree) hroot] at hlt ⊢
      exact .inl ⟨hold, a, hlt, rfl⟩

theorem blocksOk (ha : Added g ino k g') (h : BlocksOk g) (hino : IsIno ino)
    (hfree : g.inodeUsed ino = false) : BlocksOk g' where
  system_used := fun b hb => ha.used_mono b (h.system_used b hb)
  ino_eq := by
    intro i hi
    rcases (ha.allocated_iff hino).mp hi with rfl | hold
    · rw [ha.new_inode]
      rfl
    · by_cases hroot : i = rootIno
      · subst hroot
        exact ha.root_ino.trans (h.ino_eq _ hold)
      · rw [ha.inode_eq i (hold.ne_free hfree) hroot]
        exact h.ino_eq i hold
  held := by
    intro i hi
    rcases (ha.allocated_iff hino).mp hi with rfl | hold
    · rw [ha.new_inode]
      exact held_fresh g' i
    · by_cases hroot : i = rootIno
      · subst hroot
        exact ha.root_held
      · rw [ha.inode_eq i (hold.ne_free hfree) hroot]
        exact (h.held i hold).congr (.refl _) ha.used_mono
  apart := h.apart_of_step fun _ _ => ha.owns hino hfree

/-- An entry in use is the new one or an old one. -/
theorem slot_cases (ha : Added g ino k g') {j : Nat} (hj : j < slotCount g'.root)
    (hlive : (slot g' g'.root j).ino ≠ 0) :
    j = k ∨ (j < slotCount g.root ∧ slot g' g'.root j = slot g g.root j) := by
  by_cases hjk : j = k
  · exact .inl hjk
  · right
    by_cases hold : j < slotCount g.root
    · exact ⟨hold, ha.slot_old j hold hjk⟩
    · exact absurd (ha.slot_rest j hj (by omega) hjk) hlive

/-- No old entry names the new file. -/
theorem slot_ne (ha : Added g ino k g') (h : EntriesOk g) (hfree : g.inodeUsed ino = false) {j : Nat}
    (hj : j < slotCount g.root) (hj2 : 2 ≤ j) (hlive : (slot g g.root j).ino ≠ 0) :
    (slot g g.root j).ino ≠ (slot g' g'.root k).ino := by
  rw [ha.slot_new]
  exact (h.entry j hj hj2 hlive).1.ne_free hfree

theorem entriesOk (ha : Added g ino k g') (h : EntriesOk g) (hino : IsIno ino) (hne : ino ≠ rootIno)
    (hfree : g.inodeUsed ino = false) (hk : 2 ≤ k) : EntriesOk g' := by
  have hmono : ∀ i, Allocated g i → Allocated g' i := fun i hi => (ha.allocated_iff hino).mpr (.inr hi)
  have htwo := h.two_le
  refine ⟨?_, (hmono _ h.root_allocated).used, ?_, ?_, ?_, ?_, ?_, ?_, ?_⟩
  · rw [ha.inodeUsed_eq, Function.update_of_ne hino.1.symm]
    exact h.reserved
  · exact ha.root_type.trans h.root_type
  · exact lt_of_lt_of_le h.root_pos ha.root_count
  · intro i hi hroot
    rcases (ha.allocated_iff hino).mp hi with rfl | hold
    · rw [ha.new_inode]
      rfl
    · rw [ha.inode_eq i (hold.ne_free hfree) hroot]
      exact h.file_type i hold hroot
  · rw [ha.slot_old 0 (by omega) (by omega)]
    exact h.dot
  · rw [ha.slot_old 1 (by omega) (by omega)]
    exact h.dotdot
  · intro j hj hj2 hlive
    rcases ha.slot_cases hj hlive with rfl | ⟨hold, heq⟩
    · rw [ha.slot_new]
      exact ⟨(ha.allocated_iff hino).mpr (.inl rfl), hne⟩
    · rw [heq] at hlive ⊢
      obtain ⟨hentry, hnotRoot⟩ := h.entry j hold hj2 hlive
      exact ⟨hmono _ hentry, hnotRoot⟩
  · intro i hi hi2 j hj hj2 hlive heq
    have hlive' : (slot g' g'.root j).ino ≠ 0 := heq ▸ hlive
    rcases ha.slot_cases hi hlive with rfl | ⟨holdi, heqi⟩
    · rcases ha.slot_cases hj hlive' with rfl | ⟨holdj, heqj⟩
      · rfl
      · rw [heqj] at hlive' heq
        exact absurd heq.symm (ha.slot_ne h hfree holdj hj2 hlive')
    · rcases ha.slot_cases hj hlive' with rfl | ⟨holdj, heqj⟩
      · rw [heqi] at hlive heq
        exact absurd heq (ha.slot_ne h hfree holdi hi2 hlive)
      · rw [heqi, heqj] at heq
        rw [heqi] at hlive
        exact h.entry_inj i holdi hi2 j holdj hj2 hlive heq

end Added

/-- Creating a file keeps the file system in order. -/
theorem Owned.added (h : Owned g) {ino k : Nat} (hino : IsIno ino) (hne : ino ≠ rootIno)
    (hfree : g.inodeUsed ino = false) (hk : 2 ≤ k) (ha : Added g ino k g') : Owned g' :=
  ⟨ha.blocksOk h.blocks hino hfree, ha.entriesOk h.entries hino hne hfree hk⟩

/-- What a call of `sfs_create` can do to a file system that is in order. -/
theorem Created.cases {d : Disk} {r : Int} (h : Owned (image d))
    (hc : Created (image d) name g' r) :
    (r = -1 ∧ (g' = image d ∨ ∃ ino, (image d).inodeUsed ino = false ∧
      g' = (image d).setInode ino (Inode.fresh ino))) ∨
    ∃ ino k : Nat, r = ino ∧ IsIno ino ∧ ino ≠ rootIno ∧ (image d).inodeUsed ino = false ∧ 2 ≤ k ∧
      Added (image d) ino k g' := by
  have hroot := h.rootOk
  have htwo := h.entries.two_le
  cases hc with
  | present => exact .inl ⟨rfl, .inl rfl⟩
  | noInode => exact .inl ⟨rfl, .inl rfl⟩
  | noBlock hino => exact .inl ⟨rfl, .inr ⟨_, hino.free, rfl⟩⟩
  | @entered ino k hino _ hk hfree _ =>
      obtain ⟨hisIno, hne⟩ := hino.isIno hroot.usable
      refine .inr ⟨ino, k, rfl, hisIno, hne, hino.free, ?_, added_enter hroot hino hk hfree⟩
      by_contra hlt
      obtain rfl | rfl : k = 0 ∨ k = 1 := by omega
      · rw [h.entries.dot.1] at hfree
        exact absurd hfree (by decide)
      · rw [h.entries.dotdot.1] at hfree
        exact absurd hfree (by decide)
  | extended hino _ _ hcount hb hfree _ =>
      obtain ⟨hisIno, hne⟩ := hino.isIno hroot.usable
      exact .inr ⟨_, _, rfl, hisIno, hne, hino.free, by omega,
        added_extend hroot hino hcount hb hfree⟩

theorem Owned.created {d : Disk} {r : Int} (h : Owned (image d))
    (hc : Created (image d) name g' r) : Owned g' := by
  rcases hc.cases h with ⟨-, rfl | ⟨ino, hfree, rfl⟩⟩ | ⟨ino, k, -, hino, hne, hfree, hk, ha⟩
  · exact h
  · exact h.setFree hfree _
  · exact h.added hino hne hfree hk ha

/-- The root directory shares no block with a file when a file is created. -/
theorem Added.foreign (h : Owned g) {ino k i b : Nat} (ha : Added g ino k g') (hi : i ≠ rootIno)
    (hb : Owns g i b) : ∀ a < g'.root.blockCount, g'.root.blocks a ≠ b := by
  intro a hlt heq
  rcases ha.root_blocks a hlt with ⟨c, hc, hold⟩ | hfree
  · exact hi (h.blocks.apart i rootIno b hb ⟨h.entries.root_allocated, c, hc, hold.trans heq⟩)
  · rw [heq, h.blocks.owns_used hb] at hfree
    cases hfree

/-- Creating a file leaves the other files alone. -/
theorem Created.keeps {d : Disk} {r : Int} (h : Owned (image d))
    (hc : Created (image d) name g' r) {i : Nat} (hi : Allocated (image d) i) :
    Allocated g' i ∧ (i ≠ rootIno → g'.inode i = (image d).inode i ∧
      ∀ b, Owns (image d) i b → g'.data b = (image d).data b) := by
  rcases hc.cases h with ⟨-, rfl | ⟨ino, hfree, rfl⟩⟩ | ⟨ino, k, -, -, -, hfree, -, ha⟩
  · exact ⟨hi, fun _ => ⟨rfl, fun _ _ => rfl⟩⟩
  · have hne : i ≠ ino := hi.ne_free hfree
    exact ⟨⟨hi.isIno, hi.used⟩, fun _ => ⟨setInode_other _ _ hne, fun _ _ => rfl⟩⟩
  · have hne : i ≠ ino := hi.ne_free hfree
    refine ⟨⟨hi.isIno, ?_⟩, fun hroot => ⟨ha.inode_eq i hne hroot, ?_⟩⟩
    · rw [ha.inodeUsed_eq, Function.update_of_ne hne]
      exact hi.used
    · intro b hb
      exact ha.data_eq b (ha.foreign h hroot hb)

end SRos.Fs
