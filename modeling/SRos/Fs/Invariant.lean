import SRos.Fs.Ownership

/-!
# The invariant of the mounted file system

The blocks and entries are in order, and an open file stands inside the blocks of its inode. The
second part carries the first through a write: `sfs_write_file` stores a new block at the index
of the current position but counts one block more, which is the same index only when the position
is not behind the last block.
-/

namespace SRos.Fs

open Bytes

variable {s s' : FsState} {g g' : Image} {name : CStr}

/-- An inode that grows shares no block with another one. -/
theorem BlocksOk.foreign (h : BlocksOk g) {i j b : Nat} {inode' : Inode} (hi : Allocated g i)
    (hgrows : Grows g (g.inode i) g' inode') (hne : j ≠ i) (hb : Owns g j b) :
    ∀ a < inode'.blockCount, inode'.blocks a ≠ b := by
  intro a ha heq
  by_cases hold : a < (g.inode i).blockCount
  · rw [hgrows.blocks_eq a hold] at heq
    exact hne (h.apart j i b hb ⟨hi, a, hold, heq⟩)
  · have hfree := hgrows.fresh a ha (by omega)
    rw [heq, h.owns_used hb] at hfree
    cases hfree

namespace Grows

variable {i j b : Nat} {inode' : Inode}

theorem allocated_iff (h : Grows g (g.inode i) g' inode') (x : Inode) :
    Allocated (g'.setInode i x) j ↔ Allocated g j := by
  have hused : (g'.setInode i x).inodeUsed = g.inodeUsed := h.inodeUsed_eq
  constructor
  · exact fun hj => ⟨hj.isIno, hused ▸ hj.used⟩
  · exact fun hj => ⟨hj.isIno, hused ▸ hj.used⟩

theorem inode_other (h : Grows g (g.inode i) g' inode') (x : Inode) (hj : j ≠ i) :
    (g'.setInode i x).inode j = g.inode j := by
  rw [setInode_other _ _ hj, h.inode_eq]

/-- Only the inode that is written to gets blocks, and those were free. -/
theorem owns (h : Grows g (g.inode i) g' inode') (hi : Allocated g i) {size : Nat}
    (hb : Owns (g'.setInode i { inode' with size := size }) j b) :
    Owns g j b ∨ (j = i ∧ g.blockUsed b = false) := by
  obtain ⟨hj, a, ha, rfl⟩ := hb
  by_cases hji : j = i
  · subst hji
    rw [setInode_self] at ha ⊢
    by_cases hold : a < (g.inode j).blockCount
    · exact .inl ⟨hi, a, hold, (h.blocks_eq a hold).symm⟩
    · exact .inr ⟨rfl, h.fresh a ha (by omega)⟩
  · rw [h.inode_other _ hji] at ha ⊢
    exact .inl ⟨(h.allocated_iff _).mp hj, a, ha, rfl⟩

theorem blocksOk (h : Grows g (g.inode i) g' inode') (hok : BlocksOk g) (hi : Allocated g i)
    (hheld : Held g' inode') (size : Nat) :
    BlocksOk (g'.setInode i { inode' with size := size }) where
  system_used := fun b hb => h.used_mono b (hok.system_used b hb)
  ino_eq := by
    intro j hj
    by_cases hji : j = i
    · subst hji
      rw [setInode_self]
      exact h.ino_eq.trans (hok.ino_eq j hi)
    · rw [h.inode_other _ hji]
      exact hok.ino_eq j ((h.allocated_iff _).mp hj)
  held := by
    intro j hj
    by_cases hji : j = i
    · subst hji
      rw [setInode_self]
      exact hheld.congr ⟨rfl, rfl, rfl, rfl⟩ fun _ hb => hb
    · rw [h.inode_other _ hji]
      exact (hok.held j ((h.allocated_iff _).mp hj)).congr (.refl _) h.used_mono
  apart := hok.apart_of_step fun _ _ => h.owns hi

theorem entriesOk (h : Grows g (g.inode i) g' inode') (hok : Owned g) (hi : Allocated g i)
    (hne : i ≠ rootIno) (size : Nat) : EntriesOk (g'.setInode i { inode' with size := size }) := by
  have he := hok.entries
  have htwo := he.two_le
  have hmono : ∀ j, Allocated g j → Allocated (g'.setInode i { inode' with size := size }) j :=
    fun j => (h.allocated_iff _).mpr
  have hroot : (g'.setInode i { inode' with size := size }).root = g.root := h.inode_other _ hne.symm
  have hslot : ∀ k < slotCount g.root,
      slot (g'.setInode i { inode' with size := size }) g.root k = slot g g.root k := by
    intro k hk
    apply slot_congr _ hk
    intro c hc
    apply h.data_eq
    exact hok.blocks.foreign hi h hne.symm ⟨he.root_allocated, c, hc, rfl⟩
  refine ⟨?_, (hmono _ he.root_allocated).used, ?_, ?_, ?_, ?_, ?_, ?_, ?_⟩
  · change g'.inodeUsed 0 = true
    rw [h.inodeUsed_eq]
    exact he.reserved
  · rw [hroot]
    exact he.root_type
  · rw [hroot]
    exact he.root_pos
  · intro j hj hjroot
    by_cases hji : j = i
    · subst hji
      rw [setInode_self]
      exact h.type_eq.trans (he.file_type j hi hjroot)
    · rw [h.inode_other _ hji]
      exact he.file_type j ((h.allocated_iff _).mp hj) hjroot
  · rw [hroot, hslot 0 (by omega)]
    exact he.dot
  · rw [hroot, hslot 1 (by omega)]
    exact he.dotdot
  · rw [hroot]
    intro k hk hk2 hlive
    rw [hslot k hk] at hlive ⊢
    exact ⟨hmono _ (he.entry k hk hk2 hlive).1, (he.entry k hk hk2 hlive).2⟩
  · rw [hroot]
    intro j hj hj2 k hk hk2 hlive heq
    rw [hslot j hj] at hlive heq
    rw [hslot k hk] at heq
    exact he.entry_inj j hj hj2 k hk hk2 hlive heq

end Grows

/-- Writing to a file keeps the file system in order. -/
theorem Owned.grown (h : Owned g) {i : Nat} {inode' : Inode} (hi : Allocated g i)
    (hne : i ≠ rootIno) (hgrows : Grows g (g.inode i) g' inode') (hheld : Held g' inode')
    (size : Nat) : Owned (g'.setInode i { inode' with size := size }) :=
  ⟨hgrows.blocksOk h.blocks hi hheld size, hgrows.entriesOk h hi hne size⟩

structure FsInv (s : FsState) : Prop where
  sb : s.sb = SuperBlock.new
  mounted : s.mounted = true
  owned : Owned (image s.disk)
  allocated : ∀ fd < maxFiles, (s.files fd).inUse = true →
    Allocated (image s.disk) (s.files fd).ino
  inside : ∀ fd < maxFiles, (s.files fd).inUse = true → (s.files fd).ino ≠ rootIno →
    (s.files fd).offset ≤ ((image s.disk).inode (s.files fd).ino).room

theorem openFile_some {fd : Int} {f : File} (h : openFile s fd = some f) :
    fd.toNat < maxFiles ∧ f = s.files fd.toNat ∧ f.inUse = true := by
  unfold openFile at h
  split at h
  · cases h
  · next hcond =>
      obtain rfl := Option.some.inj h
      simp only [not_or, Bool.not_eq_false] at hcond
      obtain ⟨hlo, hhi, huse⟩ := hcond
      exact ⟨by omega, rfl, huse⟩

/-- `s.setFile` changes one file and leaves the disk alone. -/
theorem setFile_same (s : FsState) (fd : Nat) (f : File) : (s.setFile fd f).files fd = f := by
  simp [FsState.setFile]

theorem setFile_other (s : FsState) {fd fd' : Nat} (f : File) (h : fd' ≠ fd) :
    (s.setFile fd f).files fd' = s.files fd' := by
  simp [FsState.setFile, h]

/-- Opening, moving or closing one file. -/
theorem FsInv.setFile (h : FsInv s) (fd : Nat) {f : File}
    (halloc : f.inUse = true → Allocated (image s.disk) f.ino)
    (hinside : f.inUse = true → f.ino ≠ rootIno →
      f.offset ≤ ((image s.disk).inode f.ino).room) : FsInv (s.setFile fd f) where
  sb := h.sb
  mounted := h.mounted
  owned := h.owned
  allocated := by
    intro fd' hfd' huse
    by_cases heq : fd' = fd
    · subst heq
      rw [setFile_same] at huse ⊢
      exact halloc huse
    · rw [setFile_other s f heq] at huse ⊢
      exact h.allocated fd' hfd' huse
  inside := by
    intro fd' hfd' huse hne
    by_cases heq : fd' = fd
    · subst heq
      rw [setFile_same] at huse hne ⊢
      exact hinside huse hne
    · rw [setFile_other s f heq] at huse hne ⊢
      exact h.inside fd' hfd' huse hne

theorem FsInv.create (h : FsInv s) (name : CStr) :
    FsInv (sfsCreate s rootIno name sfsFile).1 := by
  obtain ⟨htables, hcreated⟩ := sfsCreate_spec h.sb h.owned.rootOk name
  generalize sfsCreate s rootIno name sfsFile = r at htables hcreated
  refine ⟨htables.sb.trans h.sb, htables.mounted.trans h.mounted, h.owned.created hcreated, ?_, ?_⟩
  · intro fd hfd huse
    rw [htables.files] at huse ⊢
    exact (hcreated.keeps h.owned (h.allocated fd hfd huse)).1
  · intro fd hfd huse hne
    rw [htables.files] at huse hne ⊢
    rw [((hcreated.keeps h.owned (h.allocated fd hfd huse)).2 hne).1]
    exact h.inside fd hfd huse hne

/-- What `sys_open` does: a file gets the first free descriptor. -/
theorem FsInv.sysOpen_cases (h : FsInv s) (path : Option CStr) :
    sysOpen s path = (s, -1) ∨
    ∃ fd ino, sysOpen s path = (s.setFile fd ⟨ino, 0, 2, true⟩, (fd : Int)) ∧ fd < maxFiles ∧
      (s.files fd).inUse = false ∧ Allocated (image s.disk) ino := by
  unfold sysOpen
  rw [if_neg (by simp [h.mounted])]
  cases pathParse path with
  | none => exact .inl rfl
  | some name =>
      rcases sfsLookup_cases h.sb h.owned.rootOk name with ⟨k, hk, hmatch, -, hlookup⟩ |
        ⟨-, hlookup⟩
      · simp only [hlookup]
        rw [if_neg (by omega)]
        cases hfind : (List.range maxFiles).find? fun i => !(s.files i).inUse with
        | none => exact .inl rfl
        | some fd =>
            right
            obtain ⟨hfree, hmem, -⟩ := List.find?_range_eq_some.mp hfind
            have hlive : (slot (image s.disk) (image s.disk).root k).ino ≠ 0 := by
              unfold Dentry.matches at hmatch
              simp only [Bool.and_eq_true, bne_iff_ne] at hmatch
              exact hmatch.1
            have halloc := (h.owned.entries.slot_cases hk).resolve_left hlive
            have hlt : (slot (image s.disk) (image s.disk).root k).ino < 134 := halloc.isIno.2
            have hino : u32OfInt (slot (image s.disk) (image s.disk).root k).ino =
                (slot (image s.disk) (image s.disk).root k).ino := by
              rw [u32OfInt_of_nonneg (by omega) (by omega)]
              omega
            refine ⟨fd, _, by rw [hino], List.mem_range.mp hmem, by simpa using hfree, halloc⟩
      · left
        simp [hlookup]

/-- What `sys_read` does on an open regular file. -/
theorem FsInv.sysRead_spec (h : FsInv s) {fd : Int} {f : File} (hf : openFile s fd = some f)
    (hne : f.ino ≠ rootIno) (buf : Buf) (count : Int) :
    ∃ n buf', sysRead s fd buf count =
        (s.setFile fd.toNat { f with offset := f.offset + n }, buf', (n : Int)) ∧
      f.offset + n ≤ ((image s.disk).inode f.ino).room ∧
      (∀ j, buf' j = if j < n then
        fileByte (image s.disk) ((image s.disk).inode f.ino) (f.offset + j) else buf j) ∧
      (((image s.disk).inode f.ino).size ≤ ((image s.disk).inode f.ino).room →
        f.offset ≤ ((image s.disk).inode f.ino).size → 0 ≤ count → count < 2 ^ 31 →
        n = min count.toNat (((image s.disk).inode f.ino).size - f.offset)) := by
  obtain ⟨hfd, rfl, huse⟩ := openFile_some hf
  have halloc := h.allocated _ hfd huse
  have hheld := h.owned.blocks.held _ halloc
  have hroom := hheld.room_le
  obtain ⟨n, hn, hend, hbuf, hexact⟩ := @sfsReadFile_spec s _ hheld.onData hroom
    (u32OfInt count) _ buf (h.inside _ hfd huse hne)
  refine ⟨n, _, ?_, hend, hbuf, ?_⟩
  · unfold sysRead
    simp only [hf, sfsReadInode_eq h.sb, if_pos halloc.isIno, hn]
    rw [u32_of_lt (by omega), int32_of_lt (by omega)]
  · intro hle hpos hnonneg hlt
    rw [hexact hle hpos (by rw [u32OfInt_of_nonneg hnonneg hlt]; omega),
      u32OfInt_of_nonneg hnonneg hlt]

/-- What `sys_write` does on an open regular file. -/
theorem FsInv.sysWrite_spec (h : FsInv s) {fd : Int} {f : File} (hf : openFile s fd = some f)
    (hne : f.ino ≠ rootIno) (buf : Buf) (count : Int) :
    ∃ (s' : FsState) (g₁ : Image) (inode₁ : Inode) (n : Nat), sysWrite s fd buf count = (s', (n : Int)) ∧
      s'.sb = s.sb ∧ s'.mounted = s.mounted ∧
      s'.files = (s.setFile fd.toNat { f with offset := f.offset + n }).files ∧
      n ≤ u32OfInt count ∧
      Wrote buf f.offset 0 (image s.disk) ((image s.disk).inode f.ino) g₁ inode₁ n ∧
      image s'.disk = g₁.setInode f.ino
        { inode₁ with size := max ((image s.disk).inode f.ino).size (f.offset + n) } ∧
      (n < u32OfInt count → inode₁.blockCount = sfsDirectBlocks ∨
        ∀ b < diskBlocks, g₁.blockUsed b = true) := by
  obtain ⟨hfd, rfl, huse⟩ := openFile_some hf
  have halloc := h.allocated _ hfd huse
  have hheld := h.owned.blocks.held _ halloc
  obtain ⟨s₁, inode₁, n, heq, htables, -, hn, hwrote, hwhy⟩ := @sfsWriteFile_spec s _ buf
    (s.files fd.toNat).offset (u32OfInt count) h.sb h.owned.blocks.system_used hheld
    (h.inside _ hfd huse hne)
  have hroom := hwrote.held.room_le
  have hroom' := hwrote.room
  have hpacked : ({ inode₁ with
      size := max ((image s.disk).inode (s.files fd.toNat).ino).size
        ((s.files fd.toNat).offset + n) } : Inode).Packed := by
    have hbase := hwrote.grows.packed hwrote.held (image_packed s.disk _)
    have hsize := (image_packed s.disk (s.files fd.toNat).ino).size_lt
    exact { hbase with size_lt := max_lt hsize (by omega) }
  have hino := hwrote.grows.ino_eq.trans (h.owned.blocks.ino_eq _ halloc)
  have hsb : (s₁.setFile fd.toNat { s.files fd.toNat with
      offset := (s.files fd.toNat).offset + n }).sb = SuperBlock.new := htables.sb.trans h.sb
  have hsame := sameTables_sfsWriteInode (s₁.setFile fd.toNat { s.files fd.toNat with
      offset := (s.files fd.toNat).offset + n }) { inode₁ with
      size := max ((image s.disk).inode (s.files fd.toNat).ino).size
        ((s.files fd.toNat).offset + n) }
  refine ⟨_, image s₁.disk, inode₁, n, ?_, hsame.sb.trans htables.sb,
    hsame.mounted.trans htables.mounted, ?_, hn, hwrote,
    image_sfsWriteInode hsb hpacked hino halloc.isIno, hwhy⟩
  · unfold sysWrite
    simp only [hf, sfsReadInode_eq h.sb, if_pos halloc.isIno, heq]
    rw [u32_of_lt (by omega), int32_of_lt (by omega)]
  · rw [hsame.files]
    simp only [FsState.setFile, htables.files]

theorem FsInv.write (h : FsInv s) {fd : Int} {f : File} (hf : openFile s fd = some f)
    (hne : f.ino ≠ rootIno) (buf : Buf) (count : Int) : FsInv (sysWrite s fd buf count).1 := by
  obtain ⟨s', g₁, inode₁, n, heq, hsb, hmounted, hfiles, -, hwrote, himage, -⟩ :=
    h.sysWrite_spec hf hne buf count
  obtain ⟨hfd, hfile, huse⟩ := openFile_some hf
  have halloc : Allocated (image s.disk) f.ino := by
    rw [hfile] at huse ⊢
    exact h.allocated _ hfd huse
  have hkeep : ∀ i, Allocated (image s.disk) i → Allocated (image s'.disk) i := by
    intro i hi
    rw [himage]
    exact (hwrote.grows.allocated_iff _).mpr hi
  have hroom : ∀ i, ((image s.disk).inode i).room ≤ ((image s'.disk).inode i).room := by
    intro i
    rw [himage]
    by_cases hi : i = f.ino
    · subst hi
      rw [setInode_self]
      exact hwrote.grows.room_le
    · rw [hwrote.grows.inode_other _ hi]
  rw [heq]
  refine ⟨hsb.trans h.sb, hmounted.trans h.mounted, ?_, ?_, ?_⟩
  · rw [himage]
    exact h.owned.grown halloc hne hwrote.grows hwrote.held _
  · intro fd' hfd' huse'
    rw [hfiles] at huse' ⊢
    by_cases hsame : fd' = fd.toNat
    · subst hsame
      rw [setFile_same]
      exact hkeep _ halloc
    · rw [setFile_other s _ hsame] at huse' ⊢
      exact hkeep _ (h.allocated fd' hfd' huse')
  · intro fd' hfd' huse' hne'
    rw [hfiles] at huse' hne' ⊢
    by_cases hsame : fd' = fd.toNat
    · subst hsame
      rw [setFile_same, himage, setInode_self]
      exact hwrote.room
    · rw [setFile_other s _ hsame] at huse' hne' ⊢
      exact (h.inside fd' hfd' huse' hne').trans (hroom _)

/-- The descriptor is not one of a directory. -/
def NotDir (s : FsState) (fd : Int) : Prop :=
  ∀ f inode, openFile s fd = some f → sfsReadInode s f.ino = some inode → inode.type ≠ sfsDir

/-- The calls that do not read from or write to a directory. -/
def fsOk (s : FsState) : FsAct → Prop
  | .read fd _ _ => NotDir s fd
  | .write fd _ _ => NotDir s fd
  | _ => True

theorem FsInv.ino_ne_root (h : FsInv s) {fd : Int} {f : File} (hf : openFile s fd = some f)
    (hnot : NotDir s fd) : f.ino ≠ rootIno := by
  intro heq
  apply hnot f (image s.disk).root hf
  · rw [sfsReadInode_eq h.sb, heq]
    rfl
  · exact h.owned.entries.root_type

theorem FsInv.step (h : FsInv s) {a : FsAct} (hok : fsOk s a) : FsInv (fsCall s a).1 := by
  cases a with
  | create name => exact h.create name
  | «open» path =>
      change FsInv (sysOpen s path).1
      rcases h.sysOpen_cases path with heq | ⟨fd, ino, heq, -, -, halloc⟩
      · rw [heq]
        exact h
      · rw [heq]
        exact h.setFile fd (fun _ => halloc) fun _ _ => Nat.zero_le _
  | read fd buf count =>
      change FsInv (sysRead s fd buf count).1
      cases hf : openFile s fd with
      | none => simpa [sysRead, hf] using h
      | some f =>
          have hne := h.ino_ne_root hf hok
          obtain ⟨n, buf', heq, hend, -⟩ := h.sysRead_spec hf hne buf count
          obtain ⟨hfd, hfile, huse⟩ := openFile_some hf
          rw [heq]
          refine h.setFile _ (fun _ => ?_) fun _ _ => hend
          rw [hfile] at huse ⊢
          exact h.allocated _ hfd huse
  | write fd buf count =>
      change FsInv (sysWrite s fd buf count).1
      cases hf : openFile s fd with
      | none => simpa [sysWrite, hf] using h
      | some f => exact h.write hf (h.ino_ne_root hf hok) buf count
  | close fd =>
      change FsInv (sysClose s fd)
      unfold sysClose
      split
      · exact h
      · exact h.setFile _ (fun huse => absurd huse (by simp)) fun huse => absurd huse (by simp)

theorem dotDentries_entry (self parent k : Nat) (hself : self < 2 ^ 32) (hparent : parent < 2 ^ 32) :
    Dentry.decode (dotDentries self parent) (k * dentryBytes) =
      if k = 0 then Dentry.zero.assign self ⟨[0x2E], by decide⟩
      else if k = 1 then Dentry.zero.assign parent ⟨[0x2E, 0x2E], by decide⟩
      else Dentry.zero := by
  have hzero : Dentry.zero.Packed := ⟨by decide, fun _ _ => rfl⟩
  have hbytes : dentryBytes = 32 := rfl
  unfold dotDentries
  by_cases h0 : k = 0
  · rw [if_pos h0, h0, Nat.zero_mul]
    refine Eq.trans (Dentry.decode_congr ?_) (Dentry.decode_splice (hzero.assign hself _) zeros 0)
    intro i _ hi
    exact splice_outside (.inl (by omega))
  · rw [if_neg h0]
    by_cases h1 : k = 1
    · rw [if_pos h1, h1, Nat.one_mul]
      exact Dentry.decode_splice (hzero.assign hparent _) _ _
    · rw [if_neg h1, ← Dentry.decode_zeros (k * dentryBytes)]
      apply Dentry.decode_congr
      intro i hi _
      rw [hbytes] at hi
      rw [splice_outside (by omega), splice_outside (by omega)]

theorem Booted.slot_eq (h : Booted s) {k : Nat} (hk : k < slotCount (image s.disk).root) :
    slot (image s.disk) (image s.disk).root k =
      if k = 0 then Dentry.zero.assign rootIno ⟨[0x2E], by decide⟩
      else if k = 1 then Dentry.zero.assign rootIno ⟨[0x2E, 0x2E], by decide⟩
      else Dentry.zero := by
  have hdiv := slot_div_lt hk
  rw [h.root] at hdiv ⊢
  have hzero : k / dentriesPerBlock = 0 := Nat.lt_one_iff.mp hdiv
  have hmod : k % dentriesPerBlock = k := by
    have := Nat.div_add_mod k dentriesPerBlock
    rwa [hzero, Nat.mul_zero, Nat.zero_add] at this
  have hblock : Inode.newRoot.blocks 0 = dataBlockStart := rfl
  unfold slot
  rw [hzero, hmod, hblock, h.data]
  exact dotDentries_entry rootIno rootIno k (by decide) (by decide)

theorem Booted.allocated (h : Booted s) {i : Nat} (hi : Allocated (image s.disk) i) :
    i = rootIno := by
  have hused := hi.used
  rw [h.inodeUsed, decide_eq_true_eq] at hused
  have hpos := hi.isIno.1
  have hone : rootIno = 1 := rfl
  omega

theorem Booted.inv (h : Booted s) : FsInv s := by
  have hroot : (image s.disk).inode rootIno = Inode.newRoot := h.root
  have hcount : Inode.newRoot.blockCount = 1 := rfl
  have hslots : slotCount (image s.disk).root = 128 := by
    rw [h.root]
    rfl
  have hslot : ∀ k < slotCount (image s.disk).root, 2 ≤ k →
      (slot (image s.disk) (image s.disk).root k).ino = 0 := by
    intro k hk hk2
    rw [h.slot_eq hk, if_neg (by omega), if_neg (by omega)]
    rfl
  refine ⟨h.sb, h.mounted, ⟨⟨?_, ?_, ?_, ?_⟩, ⟨?_, ?_, ?_, ?_, ?_, ?_, ?_, ?_, ?_⟩⟩, ?_, ?_⟩
  · intro b hb
    rw [h.blockUsed, decide_eq_true_eq]
    omega
  · intro i hi
    rw [h.allocated hi, hroot]
    rfl
  · intro i hi
    rw [h.allocated hi, hroot]
    refine ⟨by decide, ?_, ?_, ?_⟩
    · intro k hk
      obtain rfl := Nat.lt_one_iff.mp hk
      exact ⟨by decide, by decide⟩
    · intro k hk
      obtain rfl := Nat.lt_one_iff.mp hk
      rw [h.blockUsed]
      decide
    · intro a ha b hb _
      rw [hcount] at ha hb
      omega
  · intro i j b hi hj
    rw [h.allocated hi.1, h.allocated hj.1]
  · rw [h.inodeUsed]
    decide
  · rw [h.inodeUsed]
    decide
  · rw [h.root]
    rfl
  · rw [h.root]
    decide
  · intro i hi hne
    exact absurd (h.allocated hi) hne
  · rw [h.slot_eq (by omega), if_pos rfl]
    exact ⟨rfl, by decide⟩
  · rw [h.slot_eq (by omega), if_neg (by decide), if_pos rfl]
    exact ⟨rfl, by decide⟩
  · intro k hk hk2 hlive
    exact absurd (hslot k hk hk2) hlive
  · intro j hj hj2 k hk hk2 hlive
    exact absurd (hslot j hj hj2) hlive
  · intro fd hfd huse
    rw [h.closed fd hfd] at huse
    cases huse
  · intro fd hfd huse
    rw [h.closed fd hfd] at huse
    cases huse

theorem FsInv.reach {s₀ : FsState} (h : Reach fsStep fsOk (fsBoot s₀) s) : FsInv s := by
  apply h.invariant (booted_fsBoot s₀).inv
  intro s a s' hinv hok hs
  obtain rfl := Option.some.inj hs
  exact hinv.step hok

/-- `fsOk` as a test. -/
def fsOkTest (s : FsState) : FsAct → Bool
  | .read fd _ _ | .write fd _ _ =>
      (openFile s fd).all fun f => (sfsReadInode s f.ino).all fun inode => inode.type != sfsDir
  | _ => true

theorem fsOk_of_test {a : FsAct} (h : fsOkTest s a = true) : fsOk s a := by
  have hnot : ∀ fd, ((openFile s fd).all fun f => (sfsReadInode s f.ino).all fun inode =>
      inode.type != sfsDir) = true → NotDir s fd := by
    intro fd hall f inode hf hread
    simpa [hf, hread] using hall
  cases a with
  | read fd buf count => exact hnot fd h
  | write fd buf count => exact hnot fd h
  | _ => trivial

/-- An empty disk and no open file. -/
def FsState.blank : FsState where
  disk := fun _ _ => 0
  sb := ⟨0, 0, 0, 0, 0, 0, 0⟩
  mounted := false
  files := fun _ => ⟨0, 0, 0, false⟩

end SRos.Fs
