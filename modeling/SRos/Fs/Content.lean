import SRos.Fs.Abstract
import SRos.Fs.Invariant

/-!
# The file system refines files as byte lists

`abstraction` reads the contents of the files and the open descriptors off a state. As long as
only regular files are read and written, and with counts that are not negative, every call is a
step of `AbsFs`.
-/

namespace SRos.Fs

open Bytes

variable {s s' : FsState} {g g' : Image} {name : CStr}

/-- The bytes of the file with the inode `i`. -/
def contentOf (g : Image) (i : Nat) : List UInt8 :=
  (List.range (g.inode i).size).map (fileByte g (g.inode i))

@[simp] theorem length_contentOf (g : Image) (i : Nat) :
    (contentOf g i).length = (g.inode i).size := by
  simp [contentOf]

/-- The inode `i` is allocated and is one of a regular file. -/
def IsFile (g : Image) (i : Nat) : Prop :=
  IsIno i ∧ g.inodeUsed i = true ∧ (g.inode i).type = sfsFile

instance (g : Image) (i : Nat) : Decidable (IsFile g i) := inferInstanceAs (Decidable (_ ∧ _ ∧ _))

def contents (g : Image) (i : Nat) : Option (List UInt8) :=
  if IsFile g i then some (contentOf g i) else none

def abstraction (s : FsState) : AbsFs where
  content := contents (image s.disk)
  fds := fun fd =>
    if fd < maxFiles ∧ (s.files fd).inUse = true then
      some ((s.files fd).ino, (s.files fd).offset)
    else none

theorem Owned.isFile_iff (h : Owned g) {i : Nat} : IsFile g i ↔ Allocated g i ∧ i ≠ rootIno := by
  constructor
  · rintro ⟨hino, hused, htype⟩
    refine ⟨⟨hino, hused⟩, ?_⟩
    rintro rfl
    have hdir : (g.inode rootIno).type = sfsDir := h.entries.root_type
    rw [hdir] at htype
    exact absurd htype (by decide)
  · rintro ⟨halloc, hne⟩
    exact ⟨halloc.isIno, halloc.used, h.entries.file_type i halloc hne⟩

/-- The contents of a file depend on its inode and on the blocks it owns. -/
theorem contentOf_congr {i : Nat} (halloc : Allocated g i)
    (hsize : (g.inode i).size ≤ (g.inode i).room) (hinode : g'.inode i = g.inode i)
    (hdata : ∀ b, Owns g i b → g'.data b = g.data b) : contentOf g' i = contentOf g i := by
  unfold contentOf
  rw [hinode]
  apply List.map_congr_left
  intro p hp
  have hlt : p < (g.inode i).room := lt_of_lt_of_le (List.mem_range.mp hp) hsize
  unfold fileByte
  rw [hdata _ ⟨halloc, _, Inode.div_lt hlt, rfl⟩]

theorem contents_congr (hfile : ∀ i, IsFile g' i ↔ IsFile g i)
    (hsame : ∀ i, IsFile g i → contentOf g' i = contentOf g i) : contents g' = contents g := by
  funext i
  unfold contents
  by_cases hi : IsFile g i
  · rw [if_pos hi, if_pos ((hfile i).mpr hi), hsame i hi]
  · rw [if_neg hi, if_neg fun hi' => hi ((hfile i).mp hi')]

/-- One file is new or has changed. -/
theorem contents_update {ino : Nat} (hfile : ∀ i, i ≠ ino → (IsFile g' i ↔ IsFile g i))
    (hsame : ∀ i, i ≠ ino → IsFile g i → contentOf g' i = contentOf g i) (hnew : IsFile g' ino) :
    contents g' = Function.update (contents g) ino (some (contentOf g' ino)) := by
  funext i
  by_cases heq : i = ino
  · subst heq
    rw [Function.update_self]
    exact if_pos hnew
  · rw [Function.update_of_ne heq]
    unfold contents
    by_cases hi : IsFile g i
    · rw [if_pos hi, if_pos ((hfile i heq).mpr hi), hsame i heq hi]
    · rw [if_neg hi, if_neg fun hi' => hi ((hfile i heq).mp hi')]

/-- The blocks of a file have room for its contents, and a descriptor stands inside them. -/
structure DataInv (s : FsState) : Prop where
  inv : FsInv s
  size_le : ∀ i, IsFile (image s.disk) i →
    ((image s.disk).inode i).size ≤ ((image s.disk).inode i).room
  offset_le : ∀ fd < maxFiles, (s.files fd).inUse = true → (s.files fd).ino ≠ rootIno →
    (s.files fd).offset ≤ ((image s.disk).inode (s.files fd).ino).size

/-- Only regular files are read and written, with counts that are not negative. -/
def dataOk (s : FsState) : FsAct → Prop
  | .read fd _ count => NotDir s fd ∧ 0 ≤ count ∧ count < 2 ^ 31
  | .write fd _ count => NotDir s fd ∧ 0 ≤ count ∧ count < 2 ^ 31
  | _ => True

/-- The buffer of the caller after a call. -/
def callerBuf (s : FsState) : FsAct → Buf
  | .read fd buf count => (sysRead s fd buf count).2.1
  | .write _ buf _ => buf
  | _ => zeros

theorem abstraction_setFile (s : FsState) {fd : Nat} (hfd : fd < maxFiles) (f : File) :
    abstraction (s.setFile fd f) = (abstraction s).setFd fd
      (if f.inUse = true then some (f.ino, f.offset) else none) := by
  unfold abstraction AbsFs.setFd
  simp only [AbsFs.mk.injEq]
  refine ⟨rfl, ?_⟩
  funext fd'
  by_cases heq : fd' = fd
  · subst heq
    rw [setFile_same, Function.update_self]
    simp [hfd]
  · rw [setFile_other s f heq, Function.update_of_ne heq]

theorem abstraction_fds_free {fd : Nat} (h : (s.files fd).inUse = false) :
    (abstraction s).fds fd = none := by
  simp [abstraction, h]

theorem lookupFd_some {fd : Int} {f : File} (h : openFile s fd = some f) :
    (abstraction s).lookupFd fd = some (f.ino, f.offset) := by
  obtain ⟨hfd, rfl, huse⟩ := openFile_some h
  unfold openFile at h
  split at h
  · cases h
  · unfold AbsFs.lookupFd
    rw [if_neg (by omega)]
    simp [abstraction, hfd, huse]

theorem lookupFd_none {fd : Int} (h : openFile s fd = none) :
    (abstraction s).lookupFd fd = none := by
  unfold openFile at h
  split at h
  · next hclosed =>
      unfold AbsFs.lookupFd
      split
      · rfl
      · apply if_neg
        rintro ⟨hlt, huse⟩
        rcases hclosed with hneg | hbig | hfree
        · omega
        · omega
        · rw [hfree] at huse
          cases huse
  · cases h

/-- Files are kept by `sfs_create`. -/
theorem Created.keepsFile (howned : Owned (image s.disk)) {r : Int}
    (hc : Created (image s.disk) name g' r) {i : Nat} (hi : IsFile (image s.disk) i)
    (hsize : ((image s.disk).inode i).size ≤ ((image s.disk).inode i).room) :
    IsFile g' i ∧ g'.inode i = (image s.disk).inode i ∧
      contentOf g' i = contentOf (image s.disk) i := by
  obtain ⟨halloc, hne⟩ := howned.isFile_iff.mp hi
  obtain ⟨halloc', hsame⟩ := hc.keeps howned halloc
  obtain ⟨hinode, hdata⟩ := hsame hne
  exact ⟨(howned.created hc).isFile_iff.mpr ⟨halloc', hne⟩, hinode,
    contentOf_congr halloc hsize hinode hdata⟩

/-- A call of `sfs_create` makes an empty file or none. -/
theorem Created.contents_cases (howned : Owned (image s.disk)) {r : Int}
    (hc : Created (image s.disk) name g' r)
    (hsize : ∀ i, IsFile (image s.disk) i →
      ((image s.disk).inode i).size ≤ ((image s.disk).inode i).room) :
    (r = -1 ∧ contents g' = contents (image s.disk) ∧
      ∀ i, IsFile g' i → IsFile (image s.disk) i) ∨
    ∃ ino : Nat, r = ino ∧ contents (image s.disk) ino = none ∧
      contents g' = Function.update (contents (image s.disk)) ino (some []) ∧
      (g'.inode ino).size = 0 ∧ ∀ i, i ≠ ino → IsFile g' i → IsFile (image s.disk) i := by
  have howned' := howned.created hc
  have hkeep : ∀ i, IsFile (image s.disk) i → IsFile g' i :=
    fun i hi => (hc.keepsFile howned hi (hsize i hi)).1
  have hsame : ∀ i, IsFile (image s.disk) i → contentOf g' i = contentOf (image s.disk) i :=
    fun i hi => (hc.keepsFile howned hi (hsize i hi)).2.2
  rcases hc.cases howned with ⟨hr, hfailed⟩ | ⟨ino, k, hr, hino, hne, hfree, -, ha⟩
  · left
    have hback : ∀ i, IsFile g' i → IsFile (image s.disk) i := by
      intro i hi
      obtain ⟨halloc, hroot⟩ := howned'.isFile_iff.mp hi
      apply howned.isFile_iff.mpr
      refine ⟨⟨halloc.isIno, ?_⟩, hroot⟩
      have hused := halloc.used
      rcases hfailed with heq | ⟨ino, -, heq⟩ <;> rw [heq] at hused <;> exact hused
    exact ⟨hr, contents_congr (fun i => ⟨hback i, hkeep i⟩) hsame, hback⟩
  · right
    have hnew : IsFile g' ino :=
      howned'.isFile_iff.mpr ⟨(ha.allocated_iff hino).mpr (.inl rfl), hne⟩
    have hback : ∀ i, i ≠ ino → IsFile g' i → IsFile (image s.disk) i := by
      intro i hi hfile
      obtain ⟨halloc, hroot⟩ := howned'.isFile_iff.mp hfile
      exact howned.isFile_iff.mpr ⟨((ha.allocated_iff hino).mp halloc).resolve_left hi, hroot⟩
    have hempty : contentOf g' ino = [] := by
      unfold contentOf
      rw [ha.new_inode]
      rfl
    refine ⟨ino, hr, ?_, ?_, by rw [ha.new_inode]; rfl, hback⟩
    · apply if_neg
      rintro ⟨-, hused, -⟩
      rw [hfree] at hused
      cases hused
    · rw [contents_update (fun i hi => ⟨hback i hi, hkeep i⟩) (fun i _ => hsame i) hnew, hempty]

theorem DataInv.create (h : DataInv s) (name : CStr) :
    DataInv (sfsCreate s rootIno name sfsFile).1 ∧
      AbsFs.Step (abstraction s) (.create name) (fsCall s (.create name)).2 zeros
        (abstraction (sfsCreate s rootIno name sfsFile).1) := by
  have hinv := h.inv.create name
  have howned := h.inv.owned
  obtain ⟨htables, hcreated⟩ := sfsCreate_spec h.inv.sb howned.rootOk name
  have hret : (fsCall s (.create name)).2 =
      if 0 ≤ (sfsCreate s rootIno name sfsFile).2 then 0 else -1 := rfl
  rw [hret]
  generalize sfsCreate s rootIno name sfsFile = r at hinv htables hcreated ⊢
  have hinode : ∀ i, IsFile (image s.disk) i →
      (image r.1.disk).inode i = (image s.disk).inode i :=
    fun i hi => (hcreated.keepsFile howned hi (h.size_le i hi)).2.1
  have hoffset : ∀ fd < maxFiles, (r.1.files fd).inUse = true → (r.1.files fd).ino ≠ rootIno →
      (r.1.files fd).offset ≤ ((image r.1.disk).inode (r.1.files fd).ino).size := by
    intro fd hfd huse hne
    rw [htables.files] at huse hne ⊢
    rw [hinode _ (howned.isFile_iff.mpr ⟨h.inv.allocated fd hfd huse, hne⟩)]
    exact h.offset_le fd hfd huse hne
  have hfds : (abstraction r.1).fds = (abstraction s).fds := by
    unfold abstraction
    simp only [htables.files]
  rcases hcreated.contents_cases howned h.size_le with ⟨hr, hcontents, hback⟩ |
    ⟨ino, hr, hnone, hcontents, hsize, hback⟩
  · refine ⟨⟨hinv, ?_, hoffset⟩, ?_⟩
    · intro i hi
      rw [hinode i (hback i hi)]
      exact h.size_le i (hback i hi)
    · have habs : abstraction r.1 = abstraction s := AbsFs.ext hcontents hfds
      rw [habs, hr, if_neg (by decide)]
      exact .createFailed
  · refine ⟨⟨hinv, ?_, hoffset⟩, ?_⟩
    · intro i hi
      by_cases heq : i = ino
      · rw [heq, hsize]
        exact Nat.zero_le _
      · rw [hinode i (hback i heq hi)]
        exact h.size_le i (hback i heq hi)
    · have habs : abstraction r.1 = (abstraction s).setContent ino [] :=
        AbsFs.ext hcontents hfds
      rw [habs, hr, if_pos (by omega)]
      exact .created hnone

theorem DataInv.open (h : DataInv s) (path : Option CStr) :
    DataInv (sysOpen s path).1 ∧
      AbsFs.Step (abstraction s) (.open path) (sysOpen s path).2 zeros
        (abstraction (sysOpen s path).1) := by
  rcases h.inv.sysOpen_cases path with heq | ⟨fd, ino, heq, hfd, hfree, halloc⟩
  · rw [heq]
    exact ⟨h, .openFailed⟩
  · rw [heq]
    refine ⟨⟨h.inv.setFile fd (fun _ => halloc) fun _ _ => Nat.zero_le _, h.size_le, ?_⟩, ?_⟩
    · intro fd' hfd' huse hne
      by_cases hsame : fd' = fd
      · subst hsame
        rw [setFile_same]
        exact Nat.zero_le _
      · rw [setFile_other s _ hsame] at huse hne ⊢
        exact h.offset_le fd' hfd' huse hne
    · rw [abstraction_setFile s hfd, if_pos rfl]
      exact .opened (abstraction_fds_free hfree)

theorem DataInv.read (h : DataInv s) {fd count : Int} (buf : Buf) (hnot : NotDir s fd)
    (hnonneg : 0 ≤ count) (hlt : count < 2 ^ 31) :
    DataInv (sysRead s fd buf count).1 ∧
      AbsFs.Step (abstraction s) (.read fd buf count) (sysRead s fd buf count).2.2
        (sysRead s fd buf count).2.1 (abstraction (sysRead s fd buf count).1) := by
  cases hf : openFile s fd with
  | none =>
      have heq : sysRead s fd buf count = (s, buf, -1) := by simp [sysRead, hf]
      rw [heq]
      exact ⟨h, .readFailed (lookupFd_none hf)⟩
  | some f =>
      have hne := h.inv.ino_ne_root hf hnot
      obtain ⟨n, buf', heq, hend, hbuf, hexact⟩ := h.inv.sysRead_spec hf hne buf count
      obtain ⟨hfd, hfile, huse⟩ := openFile_some hf
      have halloc : Allocated (image s.disk) f.ino := by
        rw [hfile] at huse ⊢
        exact h.inv.allocated _ hfd huse
      have hisFile := h.inv.owned.isFile_iff.mpr ⟨halloc, hne⟩
      have hoffset : f.offset ≤ ((image s.disk).inode f.ino).size := by
        rw [hfile] at huse hne ⊢
        exact h.offset_le _ hfd huse hne
      have hn := hexact (h.size_le _ hisFile) hoffset hnonneg hlt
      rw [heq]
      refine ⟨⟨h.inv.setFile _ (fun _ => halloc) fun _ _ => hend, h.size_le, ?_⟩, ?_⟩
      · intro fd' hfd' huse' hne'
        by_cases hsame : fd' = fd.toNat
        · subst hsame
          rw [setFile_same]
          change f.offset + n ≤ ((image s.disk).inode f.ino).size
          omega
        · rw [setFile_other s _ hsame] at huse' hne' ⊢
          exact h.offset_le fd' hfd' huse' hne'
      · rw [abstraction_setFile s hfd, if_pos huse]
        apply AbsFs.Step.read (lookupFd_some hf) (if_pos hisFile)
        · rwa [length_contentOf]
        · rwa [length_contentOf]
        · intro j hj
          dsimp only
          rw [hbuf j, if_pos hj]
          unfold contentOf
          rw [List.getElem?_map, List.getElem?_range (by omega)]
          rfl
        · intro j hj
          dsimp only
          rw [hbuf j, if_neg (by omega)]

/-- The contents of the files after the blocks of one of them have been written. -/
theorem contents_wrote (howned : Owned g) {i offset n : Nat} {buf : Buf} {g₁ : Image}
    {inode₁ : Inode} (hi : IsFile g i)
    (hsize : ∀ j, IsFile g j → (g.inode j).size ≤ (g.inode j).room)
    (hoffset : offset ≤ (g.inode i).size)
    (hwrote : Wrote buf offset 0 g (g.inode i) g₁ inode₁ n) :
    contents (g₁.setInode i { inode₁ with size := max (g.inode i).size (offset + n) }) =
      Function.update (contents g) i (some (AbsFs.overwrite (contentOf g i) offset n buf)) := by
  obtain ⟨halloc, hne⟩ := howned.isFile_iff.mp hi
  have hother : ∀ j, j ≠ i → (g₁.setInode i
      { inode₁ with size := max (g.inode i).size (offset + n) }).inode j = g.inode j := by
    intro j hj
    rw [setInode_other _ _ hj, hwrote.grows.inode_eq]
  have hused : (g₁.setInode i { inode₁ with
      size := max (g.inode i).size (offset + n) }).inodeUsed = g.inodeUsed :=
    hwrote.grows.inodeUsed_eq
  rw [@contents_update g _ i]
  · congr 2
    have hbytes := @AbsFs.overwrite_eq_map (g.inode i).size offset n buf (fileByte g (g.inode i))
      (fileByte g₁ inode₁) hoffset
      (fun j hj => hwrote.new j (Nat.zero_le _) hj)
      (fun p hp hout => hwrote.old p (lt_of_lt_of_le hp (hsize i hi)) (by omega))
    unfold contentOf
    rw [hbytes, setInode_self]
    rfl
  · intro j hj
    unfold IsFile
    rw [hother j hj, hused]
  · intro j hj hfile
    have hallocj := (howned.isFile_iff.mp hfile).1
    apply contentOf_congr hallocj (hsize j hfile) (hother j hj)
    intro b hb
    exact hwrote.grows.data_eq b (howned.blocks.foreign halloc hwrote.grows hj hb)
  · refine ⟨hi.1, ?_, ?_⟩
    · rw [hused]
      exact hi.2.1
    · rw [setInode_self]
      exact hwrote.grows.type_eq.trans hi.2.2

/-- The file with the inode `ino` has twelve blocks, or no data block is free. -/
def NoRoom (s : FsState) (ino : Nat) : Prop :=
  (∃ inode, sfsReadInode s ino = some inode ∧ inode.blockCount = 12) ∨
    ∀ b, 5 ≤ b → b < 1024 → Bitmap.bit (s.disk blockBitmapBlock) b = true

theorem abstraction_wrote {fd n : Nat} {f : File} {xs : List UInt8} (hfd : fd < maxFiles)
    (huse : f.inUse = true)
    (hcontents : contents (image s'.disk) =
      Function.update (contents (image s.disk)) f.ino (some xs))
    (hfiles : s'.files = (s.setFile fd { f with offset := f.offset + n }).files) :
    abstraction s' = ((abstraction s).setContent f.ino xs).setFd fd (some (f.ino, f.offset + n)) := by
  have hset := abstraction_setFile s hfd { f with offset := f.offset + n }
  rw [if_pos huse] at hset
  apply AbsFs.ext hcontents
  have hfds : (abstraction s').fds =
      (abstraction (s.setFile fd { f with offset := f.offset + n })).fds := by
    unfold abstraction
    simp only [hfiles]
  rw [hfds, hset]
  rfl

/-- The file of a descriptor has grown, and the descriptor has moved, at most to its end. -/
theorem DataInv.wrote (h : DataInv s) (hinv : FsInv s') {fd n : Nat} {f : File} {inode : Inode}
    {g₁ : Image} (hgrows : Grows (image s.disk) ((image s.disk).inode f.ino) g₁ inode)
    (hisFile : IsFile (image s.disk) f.ino) (hroom : f.offset + n ≤ inode.room)
    (himage : image s'.disk = g₁.setInode f.ino
      { inode with size := max ((image s.disk).inode f.ino).size (f.offset + n) })
    (hfiles : s'.files = (s.setFile fd { f with offset := f.offset + n }).files) : DataInv s' := by
  have hself : (image s'.disk).inode f.ino = { inode with
      size := max ((image s.disk).inode f.ino).size (f.offset + n) } := by
    rw [himage, setInode_self]
  have hother : ∀ i, i ≠ f.ino → (image s'.disk).inode i = (image s.disk).inode i := by
    intro i hi
    rw [himage, hgrows.inode_other _ hi]
  refine ⟨hinv, ?_, ?_⟩
  · intro i hi
    by_cases hif : i = f.ino
    · subst hif
      rw [hself]
      exact max_le ((h.size_le _ hisFile).trans hgrows.room_le) hroom
    · rw [hother i hif]
      apply h.size_le
      have hused : (image s'.disk).inodeUsed = (image s.disk).inodeUsed := by
        rw [himage]
        exact hgrows.inodeUsed_eq
      obtain ⟨hino, huse, htype⟩ := hi
      rw [hused] at huse
      rw [hother i hif] at htype
      exact ⟨hino, huse, htype⟩
  · intro fd' hfd' huse' hne'
    rw [hfiles] at huse' hne' ⊢
    by_cases hsame : fd' = fd
    · subst hsame
      rw [setFile_same, hself]
      exact le_max_right _ _
    · rw [setFile_other s _ hsame] at huse' hne' ⊢
      have hle := h.offset_le fd' hfd' huse' hne'
      by_cases hif : (s.files fd').ino = f.ino
      · rw [hif] at hle ⊢
        rw [hself]
        exact hle.trans (le_max_left _ _)
      · rwa [hother _ hif]

theorem DataInv.write (h : DataInv s) {fd count : Int} (buf : Buf) (hnot : NotDir s fd)
    (hnonneg : 0 ≤ count) (hlt : count < 2 ^ 31) :
    DataInv (sysWrite s fd buf count).1 ∧
      AbsFs.Step (abstraction s) (.write fd buf count) (sysWrite s fd buf count).2 buf
        (abstraction (sysWrite s fd buf count).1) ∧
      ∀ f, openFile s fd = some f → (sysWrite s fd buf count).2 < count →
        NoRoom (sysWrite s fd buf count).1 f.ino := by
  cases hf : openFile s fd with
  | none =>
      have heq : sysWrite s fd buf count = (s, -1) := by simp [sysWrite, hf]
      rw [heq]
      exact ⟨h, .writeFailed (lookupFd_none hf), fun f hf' => by cases hf'⟩
  | some f =>
      have hne := h.inv.ino_ne_root hf hnot
      have hinv := h.inv.write hf hne buf count
      obtain ⟨s', g₁, inode₁, n, heq, hsb, -, hfiles, hn, hwrote, himage, hwhy⟩ :=
        h.inv.sysWrite_spec hf hne buf count
      obtain ⟨hfd, hfile, huse⟩ := openFile_some hf
      have halloc : Allocated (image s.disk) f.ino := by
        rw [hfile] at huse ⊢
        exact h.inv.allocated _ hfd huse
      have howned := h.inv.owned
      have hisFile := howned.isFile_iff.mpr ⟨halloc, hne⟩
      have hoffset : f.offset ≤ ((image s.disk).inode f.ino).size := by
        rw [hfile] at huse hne ⊢
        exact h.offset_le _ hfd huse hne
      have hcontents := contents_wrote howned hisFile h.size_le hoffset hwrote
      rw [← himage] at hcontents
      have hcount : u32OfInt count = count.toNat := u32OfInt_of_nonneg hnonneg hlt
      rw [heq] at hinv ⊢
      refine ⟨h.wrote hinv hwrote.grows hisFile hwrote.room himage hfiles, ?_, ?_⟩
      · rw [abstraction_wrote hfd huse hcontents hfiles]
        apply AbsFs.Step.write (lookupFd_some hf) (if_pos hisFile)
        · rwa [length_contentOf]
        · omega
      · intro f' hf' hshort
        obtain rfl := Option.some.inj hf'
        dsimp only at hshort ⊢
        rcases hwhy (by omega) with hfull | hused
        · left
          refine ⟨{ inode₁ with
            size := max ((image s.disk).inode f.ino).size (f.offset + n) }, ?_, hfull⟩
          rw [sfsReadInode_eq (hsb.trans h.inv.sb), if_pos halloc.isIno, himage, setInode_self]
        · right
          intro b _ hb
          have hbit : (image s'.disk).blockUsed b = true := by
            rw [himage]
            exact hused b hb
          exact hbit

theorem DataInv.close (h : DataInv s) (fd : Int) :
    DataInv (sysClose s fd) ∧
      AbsFs.Step (abstraction s) (.close fd) 0 zeros (abstraction (sysClose s fd)) := by
  unfold sysClose
  by_cases hneg : fd < 0
  · rw [if_pos (.inl hneg)]
    exact ⟨h, .closeFailed hneg⟩
  · by_cases hbig : (maxFiles : Int) ≤ fd
    · rw [if_pos (.inr hbig)]
      refine ⟨h, ?_⟩
      have hnone : (abstraction s).fds fd.toNat = none := by
        apply if_neg
        rintro ⟨hlt, -⟩
        omega
      have hsame : (abstraction s).setFd fd.toNat none = abstraction s := by
        unfold AbsFs.setFd
        rw [← hnone, Function.update_eq_self]
      have hstep := @AbsFs.Step.closed (abstraction s) fd zeros (by omega)
      rwa [hsame] at hstep
    · rw [if_neg (by omega)]
      refine ⟨⟨h.inv.setFile _ (fun huse => absurd huse (by simp)) fun huse =>
        absurd huse (by simp), h.size_le, ?_⟩, ?_⟩
      · intro fd' hfd' huse hne
        by_cases hsame : fd' = fd.toNat
        · subst hsame
          rw [setFile_same] at huse
          cases huse
        · rw [setFile_other s _ hsame] at huse hne ⊢
          exact h.offset_le fd' hfd' huse hne
      · rw [abstraction_setFile s (by omega), if_neg (by simp)]
        exact .closed (by omega)

/-- Every call keeps the invariant and is a step of the abstract file system. -/
theorem DataInv.step (h : DataInv s) {a : FsAct} (hok : dataOk s a) :
    DataInv (fsCall s a).1 ∧
      AbsFs.Step (abstraction s) a (fsCall s a).2 (callerBuf s a)
        (abstraction (fsCall s a).1) := by
  cases a with
  | create name => exact h.create name
  | «open» path => exact h.open path
  | read fd buf count => exact h.read buf hok.1 hok.2.1 hok.2.2
  | write fd buf count =>
      have hwrite := h.write buf hok.1 hok.2.1 hok.2.2
      exact ⟨hwrite.1, hwrite.2.1⟩
  | close fd => exact h.close fd

theorem Booted.not_isFile (h : Booted s) (i : Nat) : ¬ IsFile (image s.disk) i := by
  intro hi
  obtain ⟨halloc, hne⟩ := h.inv.owned.isFile_iff.mp hi
  exact hne (h.allocated halloc)

theorem Booted.dataInv (h : Booted s) : DataInv s where
  inv := h.inv
  size_le := fun i hi => absurd hi (h.not_isFile i)
  offset_le := by
    intro fd hfd huse
    rw [h.closed fd hfd] at huse
    cases huse

theorem Booted.abstraction_eq (h : Booted s) : abstraction s = AbsFs.empty := by
  apply AbsFs.ext
  · funext i
    exact if_neg (h.not_isFile i)
  · funext fd
    apply if_neg
    rintro ⟨hfd, huse⟩
    rw [h.closed fd hfd] at huse
    cases huse

theorem DataInv.reach {s₀ : FsState} (h : Reach fsStep dataOk (fsBoot s₀) s) :
    DataInv s ∧ Relation.ReflTransGen AbsFs.Next AbsFs.empty (abstraction s) := by
  induction h with
  | refl =>
      have hboot := booted_fsBoot s₀
      rw [hboot.abstraction_eq]
      exact ⟨hboot.dataInv, .refl⟩
  | step _ hok hs ih =>
      obtain rfl := Option.some.inj hs
      obtain ⟨hinv, hstep⟩ := ih.1.step hok
      exact ⟨hinv, ih.2.tail ⟨_, _, _, hstep⟩⟩

/-- From `sfs_format` and `sfs_mount` on, while only regular files are read and written and the
counts are not negative: the file system starts empty, every state it reaches is one that the
abstract file system reaches, and every call does and returns what an abstract step does. A
write that is shorter than its count has filled the file or the disk. -/
theorem file_data_refinement {s₀ : FsState} (h : Reach fsStep dataOk (fsBoot s₀) s) :
    abstraction (fsBoot s₀) = AbsFs.empty ∧
      Relation.ReflTransGen AbsFs.Next AbsFs.empty (abstraction s) ∧
      (∀ a, dataOk s a → AbsFs.Step (abstraction s) a (fsCall s a).2 (callerBuf s a)
        (abstraction (fsCall s a).1)) ∧
      ∀ fd buf count f, dataOk s (.write fd buf count) → openFile s fd = some f →
        (sysWrite s fd buf count).2 < count → NoRoom (sysWrite s fd buf count).1 f.ino := by
  obtain ⟨hinv, hrun⟩ := DataInv.reach h
  refine ⟨(booted_fsBoot s₀).abstraction_eq, hrun, fun a hok => (hinv.step hok).2, ?_⟩
  intro fd buf count f hok hf hshort
  exact (hinv.write buf hok.1 hok.2.1 hok.2.2).2.2 f hf hshort

/-- `dataOk` as a test. -/
def dataOkTest (s : FsState) (a : FsAct) : Bool :=
  fsOkTest s a && match a with
    | .read _ _ count | .write _ _ count => 0 ≤ count && count < 2 ^ 31
    | _ => true

theorem dataOk_of_test {a : FsAct} (h : dataOkTest s a = true) : dataOk s a := by
  obtain ⟨hfs, hcount⟩ := (Bool.and_eq_true _ _).mp h
  have hok := fsOk_of_test hfs
  cases a with
  | read fd buf count => exact ⟨hok, by simpa using hcount⟩
  | write fd buf count => exact ⟨hok, by simpa using hcount⟩
  | _ => trivial

theorem file_data_refinement_two :
    ∃ s, Reach fsStep dataOk (fsBoot .blank) s ∧ (s.files 0).offset = 5000 ∧
      dataOk s (.read 1 zeros 6000) ∧
      AbsFs.Step (abstraction s) (.read 1 zeros 6000) (fsCall s (.read 1 zeros 6000)).2
        (callerBuf s (.read 1 zeros 6000)) (abstraction (fsCall s (.read 1 zeros 6000)).1) := by
  have hrun : ((some (fsBoot .blank)).bind (runList fsStep dataOkTest
      [.create ⟨[0x61], by decide⟩, .open (some ⟨[0x2F, 0x61], by decide⟩),
        .open (some ⟨[0x61], by decide⟩), .write 0 (fun i => UInt8.ofNat i) 5000])).any
      (fun s => (s.files 0).offset == 5000 && dataOkTest s (.read 1 zeros 6000)) = true := by
    decide +kernel
  obtain ⟨s₁, s, hs₁, hreach, htest⟩ := Reach.exists_of_runList hrun
  obtain rfl := Option.some.inj hs₁
  have hok := hreach.mono fun s a => dataOk_of_test
  obtain ⟨hoffset, hread⟩ := (Bool.and_eq_true _ _).mp htest
  have hread := dataOk_of_test hread
  exact ⟨s, hok, by simpa using hoffset, hread, (file_data_refinement hok).2.2.1 _ hread⟩

end SRos.Fs
