import SRos.Fs.Recover
import SRos.Fs.Requests
import SRos.Lib.Cut

/-!
# Calls that a power failure cuts off

Every block that a call writes is on the disk before the call goes on. `Survives` compares the
image after some of the writes of a call with the one in front of the call.
-/

namespace SRos.Fs

open Bytes

variable {s : FsState} {a : FsAct} {g g' g'' : Image} {used : Nat → Bool} {file : Nat → Prop}

/-- The call writes to the inode `i`. -/
def WritesTo (s : FsState) : FsAct → Nat → Prop
  | .write fd _ _, i => ∃ f, openFile s fd = some f ∧ f.ino = i
  | _, _ => False

/-- The call writes the byte `p` of the inode `i`. -/
def Writes (s : FsState) : FsAct → Nat → Nat → Prop
  | .write fd _ count, i, p =>
      ∃ f, openFile s fd = some f ∧ f.ino = i ∧ f.offset ≤ p ∧ p < f.offset + u32OfInt count
  | _, _, _ => False

/-- The entries of the directory are there, and at most the entry of a new, empty file has come.
The files keep their bytes, up to those that the call writes. -/
structure Survives (file : Nat → Prop) (s : FsState) (a : FsAct) (g g' : Image) : Prop where
  entry : ∀ k < slotCount g.root, (slot g g.root k).ino ≠ 0 →
    k < slotCount g'.root ∧ slot g' g'.root k = slot g g.root k
  added : ∀ k < slotCount g'.root, (slot g' g'.root k).ino ≠ 0 →
    (k < slotCount g.root ∧ slot g' g'.root k = slot g g.root k) ∨
      ∃ name d ino, a = .create name ∧ slot g' g'.root k = Dentry.assign d ino name ∧ ¬ file ino ∧
        g'.inode ino = Inode.fresh ino
  inode : ∀ i, file i → ¬ WritesTo s a i → g'.inode i = g.inode i
  size_le : ∀ i, file i → (g.inode i).size ≤ (g'.inode i).size
  room_le : ∀ i, file i → (g.inode i).room ≤ (g'.inode i).room
  byte : ∀ i, file i → ∀ p < (g.inode i).room, ¬ Writes s a i p →
    fileByte g' (g'.inode i) p = fileByte g (g.inode i) p

/-- Neither an entry nor a file has changed. -/
theorem survives_of_same (hroot : SameBlocks g.root g'.root)
    (hdir : ∀ k < g.root.blockCount, g'.data (g.root.blocks k) = g.data (g.root.blocks k))
    (hinode : ∀ i, file i → g'.inode i = g.inode i)
    (hdata : ∀ i, file i → ∀ k < (g.inode i).blockCount,
      g'.data ((g.inode i).blocks k) = g.data ((g.inode i).blocks k)) :
    Survives file s a g g' := by
  have hcount : slotCount g'.root = slotCount g.root := by
    unfold slotCount
    rw [hroot.count_eq]
  have hslot : ∀ k < slotCount g.root, slot g' g'.root k = slot g g.root k := by
    intro k hk
    rw [slot_sameBlocks hroot, slot_congr hdir hk]
  refine ⟨?_, ?_, fun i hi _ => hinode i hi, ?_, ?_, ?_⟩
  · intro k hk _
    exact ⟨hcount ▸ hk, hslot k hk⟩
  · intro k hk _
    exact .inl ⟨hcount ▸ hk, hslot k (hcount ▸ hk)⟩
  · intro i hi
    rw [hinode i hi]
  · intro i hi
    rw [hinode i hi]
  · intro i hi p hp _
    unfold fileByte
    rw [hinode i hi, hdata i hi _ (Inode.div_lt hp)]

/-- The regular files of an image in which `used` are the allocated inodes. -/
def IsUsed (used : Nat → Bool) (g : Image) (i : Nat) : Prop :=
  Allocated (g.only used) i ∧ i ≠ rootIno

theorem IsUsed.ne_free {i ino : Nat} (hi : IsUsed used g i) (hfree : used ino = false) : i ≠ ino :=
  Allocated.ne_free (g := g.only used) hi.1 hfree

/-- The blocks of the directory and of the files are marked. -/
theorem Sound.ne_free (h : Sound used (image s.disk)) {b : Nat}
    (hfree : (image s.disk).blockUsed b = false) :
    (∀ k < (image s.disk).root.blockCount, (image s.disk).root.blocks k ≠ b) ∧
      ∀ i, IsUsed used (image s.disk) i → ∀ k < ((image s.disk).inode i).blockCount,
        ((image s.disk).inode i).blocks k ≠ b := by
  have hne : ∀ i, Allocated ((image s.disk).only used) i →
      ∀ k < ((image s.disk).inode i).blockCount, ((image s.disk).inode i).blocks k ≠ b := by
    rintro i hi k hk rfl
    have hused := (h.held hi).used k hk
    rw [hfree] at hused
    cases hused
  exact ⟨hne rootIno h.owned.entries.root_allocated, fun i hi => hne i hi.1⟩

/-- A new file is in the directory. -/
theorem survives_added (h : Sound used g) {ino k : Nat} {name : CStr} {d : Dentry}
    (hfree : used ino = false) (ha : Added g ino k g')
    (hnew : slot g' g'.root k = d.assign ino name) :
    Survives (IsUsed used g) s (.create name) g g' := by
  have hinode : ∀ i, IsUsed used g i → g'.inode i = g.inode i :=
    fun i hi => ha.inode_eq i (hi.ne_free hfree) hi.2
  refine ⟨?_, ?_, fun i hi _ => hinode i hi, ?_, ?_, ?_⟩
  · intro j hj hlive
    have hne : j ≠ k := by
      rintro rfl
      exact hlive (ha.was_free hj)
    exact ⟨lt_of_lt_of_le hj (Nat.mul_le_mul_left _ ha.root_count), ha.slot_old j hj hne⟩
  · intro j hj hlive
    rcases ha.slot_cases hj hlive with rfl | ⟨hlt, hold⟩
    · exact .inr ⟨name, d, ino, rfl, hnew, fun hi => hi.ne_free hfree rfl, ha.new_inode⟩
    · exact .inl ⟨hlt, hold⟩
  · intro i hi
    rw [hinode i hi]
  · intro i hi
    rw [hinode i hi]
  · intro i hi p hp _
    have hforeign := (ha.only used).foreign h.owned hi.2 ⟨hi.1, _, Inode.div_lt hp, rfl⟩
    unfold fileByte
    rw [hinode i hi]
    exact congrFun (ha.data_eq _ hforeign) _

theorem Grows.only {inode inode' : Inode} (h : Grows g inode g' inode') (used : Nat → Bool) :
    Grows (g.only used) inode (g'.only used) inode' :=
  { h with inodeUsed_eq := rfl }

/-- One file has been written to. -/
theorem survives_written {fd : Int} {buf : Buf} {count : Int} {f : File} (h : Sound used g)
    (hf : openFile s fd = some f) (hi : IsUsed used g f.ino)
    {inode' : Inode} (hgrows : Grows g (g.inode f.ino) g'' inode')
    (hdata : g'.data = g''.data) (hother : ∀ j, j ≠ f.ino → g'.inode j = g.inode j)
    (hsize : (g.inode f.ino).size ≤ (g'.inode f.ino).size)
    (hroom : (g.inode f.ino).room ≤ (g'.inode f.ino).room)
    (hbyte : ∀ p < (g.inode f.ino).room, p < f.offset ∨ f.offset + u32OfInt count ≤ p →
      fileByte g' (g'.inode f.ino) p = fileByte g (g.inode f.ino) p) :
    Survives (IsUsed used g) s (.write fd buf count) g g' := by
  have hforeign : ∀ j, j ≠ f.ino → Allocated (g.only used) j → ∀ k < (g.inode j).blockCount,
      g'.data ((g.inode j).blocks k) = g.data ((g.inode j).blocks k) := by
    intro j hne hj k hk
    rw [hdata]
    apply hgrows.data_eq
    exact h.owned.blocks.foreign hi.1 (hgrows.only used) hne ⟨hj, k, hk, rfl⟩
  have hroot : g'.root = g.root := hother _ hi.2.symm
  have hslot : ∀ k < slotCount g.root, slot g' g'.root k = slot g g.root k := by
    intro k hk
    rw [hroot]
    exact slot_congr (hforeign rootIno hi.2.symm h.owned.entries.root_allocated) hk
  refine ⟨?_, ?_, ?_, ?_, ?_, ?_⟩
  · intro k hk _
    exact ⟨by rwa [hroot], hslot k hk⟩
  · intro k hk _
    rw [hroot] at hk
    exact .inl ⟨hk, hslot k hk⟩
  · intro j _ hnot
    exact hother j fun hj => hnot ⟨f, hf, hj.symm⟩
  · intro j _
    by_cases hj : j = f.ino
    · rw [hj]
      exact hsize
    · rw [hother j hj]
  · intro j _
    by_cases hj : j = f.ino
    · rw [hj]
      exact hroom
    · rw [hother j hj]
  · intro j hjUsed p hp hnot
    by_cases hj : j = f.ino
    · subst hj
      apply hbyte p hp
      by_contra hin
      exact hnot ⟨f, hf, rfl, by omega, by omega⟩
    · unfold fileByte
      rw [hother j hj, hforeign j hj hjUsed.1 _ (Inode.div_lt hp)]

/-- A file grows, and its inode has not been written yet. -/
theorem Sound.grows (h : Sound used g) {i : Nat} {inode' : Inode} (hi : IsUsed used g i)
    (hgrows : Grows g (g.inode i) g' inode') : Sound used g' where
  marked := by
    intro j hj
    rw [hgrows.inodeUsed_eq]
    exact h.marked j hj
  owned := by
    refine h.owned.data rfl hgrows.inode_eq hgrows.used_mono fun k hk => hgrows.data_eq _ ?_
    exact h.owned.blocks.foreign hi.1 (hgrows.only used) hi.2.symm
      ⟨h.owned.entries.root_allocated, k, hk, rfl⟩

theorem Sound.grown (h : Sound used g) {i : Nat} {inode' : Inode} (hi : IsUsed used g i)
    (hgrows : Grows g (g.inode i) g' inode') (hheld : Held g' inode') (size : Nat) :
    Sound used (g'.setInode i { inode' with size := size }) where
  marked := by
    intro j hj
    change g'.inodeUsed j = true
    rw [hgrows.inodeUsed_eq]
    exact h.marked j hj
  owned := h.owned.grown hi.1 hi.2 (hgrows.only used)
    (hheld.congr (.refl _) fun _ hb => hb) size

end SRos.Fs
