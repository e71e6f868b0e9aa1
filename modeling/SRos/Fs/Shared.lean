import SRos.Fs.Requests

/-!
# The disk while several calls are under way

`sfs_write_inode` writes a whole block of the inode table back, so an inode on the disk can be
an older one than the call that wrote it last has made. What stays true of every version is who
its blocks belong to. The notes of the calls are kept beside the disk: the numbers taken are
marked in the bitmaps, and the entries written lie in blocks of the directory.
-/

namespace SRos.Fs.Requests

open Bytes

/-- Whom a block belongs to. A block that task `t` has just taken for the directory is `fresh`
until the task has written its first entry to it. -/
inductive Owner
  | free
  | file
  | dir
  | fresh (t : Nat)

abbrev Owners := Nat → Owner

/-- The block keeps its owner for good. -/
def Owner.Settled (w : Owner) : Prop := w = .file ∨ w = .dir

/-- A later state of the owners. -/
def Later (o o' : Owners) : Prop := ∀ b, (o b).Settled → o' b = o b

/-- What task `t` relies on the other tasks for. -/
def Rely (t : Nat) (o o' : Owners) : Prop := ∀ b, (o b).Settled ∨ o b = .fresh t → o' b = o b

theorem Later.refl (o : Owners) : Later o o := fun _ _ => rfl

theorem Later.trans {o o' o'' : Owners} (h : Later o o') (h' : Later o' o'') : Later o o'' := by
  intro b hb
  have hsame := h b hb
  rw [h' b (by rwa [hsame]), hsame]

theorem Rely.refl (t : Nat) (o : Owners) : Rely t o o := fun _ _ => rfl

theorem Rely.trans {t : Nat} {o o' o'' : Owners} (h : Rely t o o') (h' : Rely t o' o'') :
    Rely t o o'' := by
  intro b hb
  have hsame := h b hb
  rw [h' b (by rwa [hsame]), hsame]

theorem Rely.later {t : Nat} {o o' : Owners} (h : Rely t o o') : Later o o' :=
  fun b hb => h b (.inl hb)

/-- A version of the inode `ino`, on the disk or in the hands of a call. -/
structure InodeOk (o : Owners) (ino : Nat) (inode : Inode) : Prop where
  packed : inode.Packed
  number : inode.ino = 0 ∨ inode.ino = ino
  count_le : inode.blockCount ≤ sfsDirectBlocks
  root_type : ino = rootIno → inode.type = sfsDir
  root_blocks : ino = rootIno → ∀ i < inode.blockCount, o (inode.blocks i) = .dir
  file_blocks : ino ≠ rootIno → ∀ i, inode.blocks i = 0 ∨ o (inode.blocks i) = .file

theorem InodeOk.later {o o' : Owners} {ino : Nat} {inode : Inode} (h : InodeOk o ino inode)
    (hlater : Later o o') : InodeOk o' ino inode where
  packed := h.packed
  number := h.number
  count_le := h.count_le
  root_type := h.root_type
  root_blocks := by
    intro hroot i hi
    have hdir := h.root_blocks hroot i hi
    rw [hlater _ (.inr hdir), hdir]
  file_blocks := by
    intro hroot i
    rcases h.file_blocks hroot i with hzero | hfile
    · exact .inl hzero
    · right
      rw [hlater _ (.inl hfile), hfile]

/-- The block of the table with the inode `ino`. -/
def tableBlock (ino : Nat) : Nat := inodeTableStart + (ino - 1) / inodesPerBlock

theorem tableBlock_cases {ino : Nat} (h : IsIno ino) : tableBlock ino = 3 ∨ tableBlock ino = 4 := by
  have hlt := inodeTable_lt h
  have hstart : inodeTableStart = 3 := rfl
  unfold tableBlock
  generalize (ino - 1) / inodesPerBlock = k at hlt ⊢
  omega

theorem inodeBlock_new {ino : Nat} (h : IsIno ino) :
    inodeBlock SuperBlock.new ino = tableBlock ino := by
  have hcases := tableBlock_cases h
  apply u32_of_lt
  change tableBlock ino < _
  omega

/-- A version of a block of the inode table. -/
def TableOk (o : Owners) (b : Nat) (buf : Buf) : Prop :=
  ∀ ino, IsIno ino → tableBlock ino = b → InodeOk o ino (Inode.decode buf (inodeOffset ino))

theorem TableOk.later {o o' : Owners} {b : Nat} {buf : Buf} (h : TableOk o b buf)
    (hlater : Later o o') : TableOk o' b buf :=
  fun ino hino hb => (h ino hino hb).later hlater

/-- One inode of a block of the table is replaced. -/
theorem TableOk.replace {o : Owners} {ino : Nat} {buf : Buf} {inode : Inode}
    (h : TableOk o (tableBlock ino) buf) (hino : IsIno ino) (hnew : InodeOk o ino inode) :
    TableOk o (tableBlock ino) (splice buf (inodeOffset ino) inodeBytes inode.encode) := by
  intro j hj hblock
  by_cases hji : j = ino
  · subst hji
    rw [Inode.decode_splice hnew.packed]
    exact hnew
  · have hsame : (j - 1) / inodesPerBlock = (ino - 1) / inodesPerBlock :=
      Nat.add_left_cancel hblock
    have hapart := inodeOffset_disjoint hino hj hji hsame
    have hdecode : Inode.decode (splice buf (inodeOffset ino) inodeBytes inode.encode)
        (inodeOffset j) = Inode.decode buf (inodeOffset j) := by
      apply Inode.decode_congr
      intro i hi hi'
      exact splice_outside (by omega)
    rw [hdecode]
    exact h j hj hblock

def Note.block? : Note → Option Nat
  | .block b => some b
  | _ => none

def Note.inode? : Note → Option Nat
  | .inode ino => some ino
  | _ => none

/-- The numbers that `sfs_alloc_block` has returned. -/
def blocksTaken (log : List Note) : List Nat := log.filterMap Note.block?

/-- The numbers that `sfs_alloc_inode` has returned. -/
def inodesTaken (log : List Note) : List Nat := log.filterMap Note.inode?

/-- The entry lies in its place on the disk. -/
def Lies (d : Disk) (b di : Nat) (e : Dentry) : Prop :=
  ∀ i < dentryBytes, d b (di * dentryBytes + i) = e.encode i

/-- The bitmaps, the inode table and the numbers taken from them. -/
structure TablesOk (o : Owners) (s : Shared) : Prop where
  sb : s.fs.sb = SuperBlock.new
  inodes : ∀ ino, IsIno ino →
    InodeOk o ino (Inode.decode (s.fs.disk (tableBlock ino)) (inodeOffset ino))
  owned : ∀ b, o b ≠ .free → IsData b ∧ Bitmap.bit (s.fs.disk blockBitmapBlock) b = true
  reserved : ∀ ino ≤ rootIno, Bitmap.bit (s.fs.disk inodeBitmapBlock) ino = true
  blocks_nodup : (blocksTaken s.log).Nodup
  blocks_owned : ∀ b ∈ blocksTaken s.log, o b ≠ .free
  inodes_nodup : (inodesTaken s.log).Nodup
  inodes_used : ∀ ino ∈ inodesTaken s.log,
    Bitmap.bit (s.fs.disk inodeBitmapBlock) ino = true

/-- A directory entry that a call has written. -/
structure DentryOk (o : Owners) (d : Disk) (b di : Nat) (e : Dentry) : Prop where
  dir : o b = .dir
  packed : e.Packed
  live : e.ino ≠ 0
  lies : Lies d b di e

structure SharedOk (o : Owners) (s : Shared) : Prop where
  tables : TablesOk o s
  dentries : ∀ b di e, .dentry b di e ∈ s.log → DentryOk o s.fs.disk b di e

section

variable {o o' : Owners} {s : Shared} {t b di ino : Nat} {buf : Buf} {e : Dentry}

/-- A write outside the system blocks changes neither the tables nor who owns them. -/
theorem TablesOk.write (h : TablesOk o s) (hb : b = 0 ∨ IsData b) (hlater : Later o o')
    (hfree : ∀ c, o' c ≠ .free ↔ o c ≠ .free) {notes : List Note}
    (hblocks : blocksTaken notes = []) (hinodes : inodesTaken notes = []) :
    TablesOk o' ⟨s.fs.write b buf, notes ++ s.log⟩ := by
  have hsystem : ∀ c, 0 < c → c < dataBlockStart → (s.fs.write b buf).disk c = s.fs.disk c := by
    intro c hpos hlt
    apply write_disk_of_ne
    rcases hb with hb | hb
    · omega
    · have := hb.1
      omega
  have hblockLog : blocksTaken (notes ++ s.log) = blocksTaken s.log := by
    simp only [blocksTaken] at hblocks ⊢
    rw [List.filterMap_append, hblocks, List.nil_append]
  have hinodeLog : inodesTaken (notes ++ s.log) = inodesTaken s.log := by
    simp only [inodesTaken] at hinodes ⊢
    rw [List.filterMap_append, hinodes, List.nil_append]
  constructor
  · exact h.sb
  · intro ino hino
    have hcases := tableBlock_cases hino
    rw [hsystem _ (by omega) (by unfold dataBlockStart; omega)]
    exact (h.inodes ino hino).later hlater
  · intro c hc
    rw [hsystem _ (by decide) (by decide)]
    exact h.owned c ((hfree c).mp hc)
  · intro ino hino
    rw [hsystem _ (by decide) (by decide)]
    exact h.reserved ino hino
  · rw [hblockLog]
    exact h.blocks_nodup
  · intro c hc
    rw [hblockLog] at hc
    exact (hfree c).mpr (h.blocks_owned c hc)
  · rw [hinodeLog]
    exact h.inodes_nodup
  · intro ino hino
    rw [hinodeLog] at hino
    rw [hsystem _ (by decide) (by decide)]
    exact h.inodes_used ino hino

theorem DentryOk.write (h : DentryOk o s.fs.disk b di e) (hlater : Later o o') {c : Nat}
    (hne : b ≠ c) : DentryOk o' (s.fs.write c buf).disk b di e where
  dir := by rw [hlater b (.inr h.dir), h.dir]
  packed := h.packed
  live := h.live
  lies := by
    intro i hi
    rw [write_disk_of_ne hne]
    exact h.lies i hi

/-- A write to a block of a file. -/
theorem SharedOk.writeData (h : SharedOk o s) (hb : b = 0 ∨ o b = .file) (buf : Buf) :
    SharedOk o ⟨s.fs.write b buf, [] ++ s.log⟩ := by
  have hdata : b = 0 ∨ IsData b := by
    rcases hb with hb | hb
    · exact .inl hb
    · exact .inr (h.tables.owned b (by rw [hb]; exact Owner.noConfusion)).1
  refine ⟨h.tables.write hdata (Later.refl o) (fun _ => Iff.rfl) rfl rfl, ?_⟩
  intro c di e hmem
  have hok := h.dentries c di e hmem
  apply hok.write (Later.refl o)
  rintro rfl
  rcases hb with hb | hb
  · have hzero := (h.tables.owned c (by rw [hok.dir]; exact Owner.noConfusion)).1.1
    rw [hb] at hzero
    exact absurd hzero (by decide)
  · rw [hok.dir] at hb
    exact Owner.noConfusion hb

/-- The directory has no block among the system blocks. -/
theorem SharedOk.dentries_system (h : SharedOk o s) (hb : b < dataBlockStart)
    (hlater : Later o o') {c : Nat} (hmem : .dentry c di e ∈ s.log) :
    DentryOk o' (s.fs.write b buf).disk c di e := by
  have hok := h.dentries c di e hmem
  apply hok.write hlater
  have hdata := (h.tables.owned c (by rw [hok.dir]; exact Owner.noConfusion)).1.1
  omega

/-- A write of a block of the inode table, which may undo what another call has written to the
other inodes of the block. -/
theorem SharedOk.writeTable (h : SharedOk o s) (hb : b = 3 ∨ b = 4) (hbuf : TableOk o b buf) :
    SharedOk o ⟨s.fs.write b buf, [] ++ s.log⟩ := by
  have hlt : b < diskBlocks := by
    unfold diskBlocks
    omega
  have hbitmaps : ∀ c, c < 3 → (s.fs.write b buf).disk c = s.fs.disk c := by
    intro c hc
    exact write_disk_of_ne (by omega) buf
  constructor
  · constructor
    · exact h.tables.sb
    · intro ino hino
      by_cases hblock : tableBlock ino = b
      · rw [hblock, write_disk_self hlt]
        exact hbuf ino hino hblock
      · rw [write_disk_of_ne hblock]
        exact h.tables.inodes ino hino
    · intro c hc
      rw [hbitmaps _ (by decide)]
      exact h.tables.owned c hc
    · intro ino hino
      rw [hbitmaps _ (by decide)]
      exact h.tables.reserved ino hino
    · exact h.tables.blocks_nodup
    · exact h.tables.blocks_owned
    · exact h.tables.inodes_nodup
    · intro ino hino
      rw [hbitmaps _ (by decide)]
      exact h.tables.inodes_used ino hino
  · intro c di e hmem
    exact h.dentries_system (by unfold dataBlockStart; omega) (Later.refl o) hmem

/-- `sfs_alloc_inode` with a bitmap that nobody has written since it was read. -/
theorem SharedOk.takeInode (h : SharedOk o s)
    (hfree : Bitmap.bit (s.fs.disk inodeBitmapBlock) ino = false) :
    SharedOk o ⟨s.fs.write inodeBitmapBlock (Bitmap.set (s.fs.disk inodeBitmapBlock) ino),
      [.inode ino] ++ s.log⟩ := by
  have hnew : ino ∉ inodesTaken s.log := by
    intro hmem
    rw [h.tables.inodes_used ino hmem] at hfree
    exact Bool.noConfusion hfree
  have hbit : ∀ i, Bitmap.bit (s.fs.disk inodeBitmapBlock) i = true → Bitmap.bit ((s.fs.write
      inodeBitmapBlock (Bitmap.set (s.fs.disk inodeBitmapBlock) ino)).disk inodeBitmapBlock) i =
        true := by
    intro i hi
    rw [write_disk_self (by decide), Bitmap.bit_set, Function.update_apply]
    split
    · rfl
    · exact hi
  constructor
  · constructor
    · exact h.tables.sb
    · intro i hi
      have hcases := tableBlock_cases hi
      rw [write_disk_of_ne (by unfold inodeBitmapBlock; omega)]
      exact h.tables.inodes i hi
    · intro c hc
      rw [write_disk_of_ne (by decide)]
      exact h.tables.owned c hc
    · intro i hi
      exact hbit i (h.tables.reserved i hi)
    · exact h.tables.blocks_nodup
    · exact h.tables.blocks_owned
    · exact List.nodup_cons.mpr ⟨hnew, h.tables.inodes_nodup⟩
    · intro i hi
      rcases List.mem_cons.mp hi with hi | hi
      · subst hi
        rw [write_disk_self (by decide), Bitmap.bit_set, Function.update_self]
      · exact hbit i (h.tables.inodes_used i hi)
  · intro c di e hmem
    have hold : Note.dentry c di e ∈ s.log := by simpa using hmem
    exact h.dentries_system (by decide) (Later.refl o) hold

/-- `sfs_alloc_block` with a bitmap that nobody has written since it was read. -/
theorem SharedOk.takeBlock (h : SharedOk o s)
    (hfree : Bitmap.bit (s.fs.disk blockBitmapBlock) b = false) (hdata : IsData b) {w : Owner}
    (hw : w ≠ .free) :
    o b = .free ∧ SharedOk (Function.update o b w)
      ⟨s.fs.write blockBitmapBlock (Bitmap.set (s.fs.disk blockBitmapBlock) b),
        [.block b] ++ s.log⟩ := by
  have hnone : o b = .free := by
    by_contra hne
    rw [(h.tables.owned b hne).2] at hfree
    exact Bool.noConfusion hfree
  have hlater : Later o (Function.update o b w) := by
    intro c hc
    apply Function.update_of_ne
    rintro rfl
    rw [hnone] at hc
    rcases hc with hc | hc <;> exact Owner.noConfusion hc
  refine ⟨hnone, ?_, ?_⟩
  · constructor
    · exact h.tables.sb
    · intro i hi
      have hcases := tableBlock_cases hi
      rw [write_disk_of_ne (by unfold blockBitmapBlock; omega)]
      exact (h.tables.inodes i hi).later hlater
    · intro c hc
      rw [write_disk_self (by decide), Bitmap.bit_set]
      by_cases hcb : c = b
      · subst hcb
        exact ⟨hdata, Function.update_self _ _ _⟩
      · rw [Function.update_of_ne hcb] at hc ⊢
        exact h.tables.owned c hc
    · intro i hi
      rw [write_disk_of_ne (by decide)]
      exact h.tables.reserved i hi
    · refine List.nodup_cons.mpr ⟨?_, h.tables.blocks_nodup⟩
      intro hmem
      exact h.tables.blocks_owned b hmem hnone
    · intro c hc
      by_cases hcb : c = b
      · rw [hcb, Function.update_self]
        exact hw
      · rw [Function.update_of_ne hcb]
        rcases List.mem_cons.mp hc with hc | hc
        · exact absurd hc hcb
        · exact h.tables.blocks_owned c hc
    · exact h.tables.inodes_nodup
    · intro i hi
      rw [write_disk_of_ne (by decide)]
      exact h.tables.inodes_used i hi
  · intro c di e hmem
    have hold : Note.dentry c di e ∈ s.log := by simpa using hmem
    exact h.dentries_system (by decide) hlater hold

theorem lies_splice (d : Disk) (hb : b < diskBlocks) (e : Dentry) :
    Lies (Fs.blockWrite d b (splice buf (di * dentryBytes) dentryBytes e.encode)) b di e := by
  intro i hi
  unfold Fs.blockWrite
  rw [if_neg (by omega), Function.update_self]
  exact splice_inside hi

/-- The entry that lies in a place is the one read from it. -/
theorem Lies.decode {d : Disk} (h : Lies d b di e) (he : e.Packed) :
    Dentry.decode (d b) (di * dentryBytes) = e := by
  rw [← Dentry.decode_splice he (d b) (di * dentryBytes)]
  apply Dentry.decode_congr
  intro i hi hi'
  obtain ⟨k, rfl⟩ := Nat.exists_eq_add_of_le hi
  rw [splice_inside (by omega)]
  exact h k (by omega)

/-- A new entry in a free place of a block of the directory that nobody has written since it
was read. -/
theorem SharedOk.enter (h : SharedOk o s) (hdir : o b = .dir)
    (hplace : (Dentry.decode (s.fs.disk b) (di * dentryBytes)).ino = 0) (he : e.Packed)
    (hlive : e.ino ≠ 0) :
    SharedOk o ⟨s.fs.write b (splice (s.fs.disk b) (di * dentryBytes) dentryBytes e.encode),
      [.dentry b di e] ++ s.log⟩ := by
  have hdata : IsData b := (h.tables.owned b (by rw [hdir]; exact Owner.noConfusion)).1
  refine ⟨h.tables.write (.inr hdata) (Later.refl o) (fun _ => Iff.rfl) rfl rfl, ?_⟩
  intro c dj f hmem
  rcases List.mem_cons.mp hmem with heq | hold
  · cases heq
    exact ⟨hdir, he, hlive, lies_splice _ hdata.2 e⟩
  · have hok := h.dentries c dj f hold
    by_cases hcb : c = b
    · subst hcb
      refine ⟨hok.dir, hok.packed, hok.live, ?_⟩
      -- a place with an entry that a call has written is not free
      have hne : dj ≠ di := by
        rintro rfl
        rw [hok.lies.decode hok.packed] at hplace
        exact hok.live hplace
      intro i hi
      rw [write_disk_self hdata.2]
      have hbytes : dentryBytes = 32 := rfl
      rw [splice_outside (by rw [hbytes] at hi ⊢; omega)]
      exact hok.lies i hi
    · exact hok.write (Later.refl o) hcb

/-- The first entry of a block that the task has taken for the directory. -/
theorem SharedOk.enterFresh (h : SharedOk o s) (hfresh : o b = .fresh t) (he : e.Packed)
    (hlive : e.ino ≠ 0) :
    SharedOk (Function.update o b .dir)
      ⟨s.fs.write b (splice zeros 0 dentryBytes e.encode), [.dentry b 0 e] ++ s.log⟩ := by
  have hdata : IsData b := (h.tables.owned b (by rw [hfresh]; exact Owner.noConfusion)).1
  have hlater : Later o (Function.update o b .dir) := by
    intro c hc
    apply Function.update_of_ne
    rintro rfl
    rw [hfresh] at hc
    rcases hc with hc | hc <;> exact Owner.noConfusion hc
  have hfree : ∀ c, Function.update o b .dir c ≠ .free ↔ o c ≠ .free := by
    intro c
    by_cases hcb : c = b
    · subst hcb
      simp [hfresh]
    · rw [Function.update_of_ne hcb]
  refine ⟨h.tables.write (.inr hdata) hlater hfree rfl rfl, ?_⟩
  intro c dj f hmem
  rcases List.mem_cons.mp hmem with heq | hold
  · cases heq
    refine ⟨Function.update_self _ _ _, he, hlive, ?_⟩
    have hlies : Lies (Fs.blockWrite s.fs.disk b (splice zeros (0 * dentryBytes) dentryBytes
      e.encode)) b 0 e := lies_splice _ hdata.2 e
    rwa [Nat.zero_mul] at hlies
  · have hok := h.dentries c dj f hold
    apply hok.write hlater
    rintro rfl
    rw [hok.dir] at hfresh
    exact Owner.noConfusion hfresh

end

end SRos.Fs.Requests
